import Rant.Lib.Linked
/-!
# Doubly linked lists

Cells that name the next one and the one before, from a head and where there is one to a tail.
An operation assigns a few links, and `Both` ties what they are to the list they make. The cells
may be on other lists through other links.
-/

namespace Rant.Lib

variable {ι : Type}

namespace Links

/-- What starts a list. -/
theorem From.head_eq {next : ι → Option ι} : ∀ {l : List ι} {h : Option ι}, From next h l →
    h = l.head?
  | [], _, hl => hl
  | _ :: _, _, ⟨hh, _⟩ => hh

/-- A head starts one list. -/
theorem From.unique {next : ι → Option ι} : ∀ {l m : List ι} {h : Option ι}, From next h l →
    From next h m → l = m
  | [], [], _, _, _ => rfl
  | [], b :: m, _, hl, hm => by
    have hl : _ = none := hl
    rw [hl] at hm
    cases hm.1
  | a :: l, [], _, hl, hm => by
    have hm : _ = none := hm
    rw [hm] at hl
    cases hl.1
  | a :: l, b :: m, _, ⟨ha, hl⟩, ⟨hb, hm⟩ => by
    obtain rfl : a = b := Option.some.inj (ha.symm.trans hb)
    rw [From.unique hl hm]

/-- No cell stands twice on a list that ends. -/
theorem From.nodup {next : ι → Option ι} : ∀ {l : List ι} {h : Option ι}, From next h l → l.Nodup
  | [], _, _ => List.nodup_nil
  | a :: l, _, ⟨_, hl⟩ => by
    refine List.nodup_cons.mpr ⟨fun hmem => ?_, hl.nodup⟩
    -- what follows it the second time is what followed it the first time
    obtain ⟨f, r, rfl⟩ := List.append_of_mem hmem
    have hr : From next (next a) r := (From.split hl).2
    have hlen := congrArg List.length (hl.unique hr)
    rw [List.length_append, List.length_cons] at hlen
    omega

variable [DecidableEq ι] {k : Links ι}

end Links

/-- What stands before each cell of a list, `p` before the first. -/
def Back (prev : ι → Option ι) : Option ι → List ι → Prop
  | _, [] => True
  | p, a :: l => prev a = p ∧ Back prev (some a) l

theorem Back.congr {prev prev' : ι → Option ι} : ∀ {l : List ι} {p : Option ι}, Back prev p l →
    (∀ a ∈ l, prev' a = prev a) → Back prev' p l
  | [], _, _, _ => trivial
  | a :: _, _, ⟨hp, hl⟩, h =>
    ⟨(h a List.mem_cons_self).trans hp, hl.congr fun b hb => h b (List.mem_cons_of_mem a hb)⟩

theorem back_append {prev : ι → Option ι} : ∀ {f r : List ι} {p : Option ι},
    Back prev p (f ++ r) ↔ Back prev p f ∧ Back prev (f.getLast?.or p) r
  | [], r, p => (and_iff_right trivial).symm
  | [a], r, p => by
    show prev a = p ∧ Back prev (some a) r ↔ (prev a = p ∧ True) ∧ Back prev (some a) r
    rw [and_true]
  | a :: b :: f, r, p => by
    have ih : Back prev (some a) (b :: f ++ r) ↔
        Back prev (some a) (b :: f) ∧ Back prev ((b :: f).getLast?.or (some a)) r := back_append
    have hlast : (a :: b :: f).getLast?.or p = (b :: f).getLast?.or (some a) := by
      rw [List.getLast?_cons_cons, List.getLast?_eq_some_getLast (List.cons_ne_nil b f)]
      rfl
    rw [hlast]
    show prev a = p ∧ Back prev (some a) (b :: f ++ r) ↔
      (prev a = p ∧ Back prev (some a) (b :: f)) ∧ _
    rw [ih, and_assoc]

/-- A head and the two neighbours of every cell. -/
structure TwoWay (ι : Type) where
  head : Option ι
  next : ι → Option ι
  prev : ι → Option ι

namespace TwoWay

variable {k : TwoWay ι}

/-- The list of the head, both ways. -/
structure Both (k : TwoWay ι) (l : List ι) : Prop where
  forward : Links.From k.next k.head l
  back : Back k.prev none l

/-- Cells that are not of the list may change. -/
theorem Both.congr {k' : TwoWay ι} {l : List ι} (h : k.Both l) (hh : k'.head = k.head)
    (hn : ∀ a ∈ l, k'.next a = k.next a) (hp : ∀ a ∈ l, k'.prev a = k.prev a) : k'.Both l := by
  refine ⟨?_, h.back.congr hp⟩
  rw [hh]
  exact h.forward.congr hn

/-- The neighbours of a cell. -/
theorem Both.mid {f r : List ι} {a : ι} (h : k.Both (f ++ a :: r)) :
    k.prev a = f.getLast? ∧ k.next a = r.head? := by
  obtain ⟨-, hprev, -⟩ := back_append.mp h.back
  rw [Option.or_none] at hprev
  have hf : (⟨k.head, k.next⟩ : Links ι).Holds (f ++ a :: r) := h.forward
  exact ⟨hprev, hf.target_mid.2.head_eq⟩

variable [DecidableEq ι]

/-- A cell put first. -/
def pushFront (k : TwoWay ι) (a : ι) : TwoWay ι where
  head := some a
  next := fun b => if b = a then k.head else k.next b
  prev := fun b => if b = a then none else if some b = k.head then some a else k.prev b

/-- A cell whose neighbours name each other. Its own links stay. -/
def unlink (k : TwoWay ι) (a : ι) : TwoWay ι where
  head := if k.prev a = none then k.next a else k.head
  next := fun b => if some b = k.prev a then k.next a else k.next b
  prev := fun b => if some b = k.next a then k.prev a else k.prev b

theorem Both.pushFront {l : List ι} {a : ι} (h : k.Both l) (ha : a ∉ l) :
    (k.pushFront a).Both (a :: l) := by
  have hf : (⟨k.head, k.next⟩ : Links ι).Holds l := h.forward
  refine ⟨hf.push ha, if_pos rfl, ?_⟩
  cases l with
  | nil => trivial
  | cons b l =>
    obtain ⟨-, hl⟩ := h.back
    have hhead : k.head = some b := h.forward.head_eq
    have hn := List.nodup_cons.mp h.forward.nodup
    have hprev : ∀ c, (k.pushFront a).prev c =
        if c = a then none else if c = b then some a else k.prev c := by
      intro c
      show (if c = a then none else if some c = k.head then some a else k.prev c) = _
      rw [hhead]
      simp only [Option.some.injEq]
    have hba : b ≠ a := fun heq => ha (heq ▸ List.mem_cons_self)
    refine ⟨?_, hl.congr fun c hc => ?_⟩
    · rw [hprev, if_neg hba, if_pos rfl]
    · have hca : c ≠ a := fun heq => ha (heq ▸ List.mem_cons_of_mem b hc)
      have hcb : c ≠ b := fun heq => hn.1 (heq ▸ hc)
      rw [hprev, if_neg hca, if_neg hcb]

theorem Both.unlink {f r : List ι} {a : ι} (h : k.Both (f ++ a :: r)) : (k.unlink a).Both (f ++ r) := by
  obtain ⟨hprev, hnext⟩ := h.mid
  have hn := h.forward.nodup
  have hf : (⟨k.head, k.next⟩ : Links ι).Holds (f ++ a :: r) := h.forward
  constructor
  · have hskip := hf.unlink hn
    rw [← hprev] at hskip
    cases hp : k.prev a with
    | none =>
      rw [hp] at hskip
      show Links.From (fun b => if some b = k.prev a then k.next a else k.next b)
        (if k.prev a = none then k.next a else k.head) (f ++ r)
      rw [hp, if_pos rfl]
      exact Links.From.congr hskip fun b _ => if_neg (Option.some_ne_none b)
    | some c =>
      rw [hp] at hskip
      show Links.From (fun b => if some b = k.prev a then k.next a else k.next b)
        (if k.prev a = none then k.next a else k.head) (f ++ r)
      rw [hp, if_neg (Option.some_ne_none c)]
      refine Links.From.congr hskip fun b _ => ?_
      simp only [Option.some.injEq]
      rfl
  · obtain ⟨hfront, -, hrest⟩ := back_append.mp h.back
    have hstep : ∀ b, (k.unlink a).prev b = if some b = r.head? then f.getLast? else k.prev b := by
      intro b
      show (if some b = k.next a then k.prev a else k.prev b) = _
      rw [hnext, hprev]
    rw [back_append, Option.or_none]
    refine ⟨hfront.congr fun b hb => ?_, ?_⟩
    · rw [hstep, if_neg]
      intro heq
      have hr : b ∈ r := List.mem_of_head? heq.symm
      exact (List.nodup_append.mp hn).2.2 b hb b (List.mem_cons_of_mem a hr) rfl
    · cases r with
      | nil => trivial
      | cons c r =>
        obtain ⟨-, hrest⟩ := hrest
        refine ⟨?_, hrest.congr fun b hb => ?_⟩
        · rw [hstep]
          exact if_pos rfl
        · rw [hstep, if_neg]
          intro heq
          have hbc : b = c := Option.some.inj heq
          have hcr := (List.nodup_append.mp hn).2.1
          rw [List.nodup_cons, List.nodup_cons] at hcr
          exact hcr.2.1 (hbc ▸ hb)

end TwoWay

end Rant.Lib
