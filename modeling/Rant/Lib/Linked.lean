import Mathlib.Algebra.Order.Ring.Int
/-!
# Singly linked lists

Cells that name the next one, from a head. A link is a place that names a cell: the head, or
the next of a cell. A walk goes through the links, and it is links that are assigned, so the
first cell of a list is no special case. `Holds` ties head and cells to the list they make;
pushing a cell and unlinking one in the middle keep it.
-/

namespace Rant.Lib

variable {ι : Type}

/-- A head and the next of every cell. -/
structure Links (ι : Type) where
  head : Option ι
  next : ι → Option ι

namespace Links

/-- The list that starts at `h`. -/
def From (next : ι → Option ι) : Option ι → List ι → Prop
  | h, [] => h = none
  | h, a :: l => h = some a ∧ From next (next a) l

/-- The list of the head. -/
def Holds (k : Links ι) (l : List ι) : Prop := From k.next k.head l

/-- What a link names: `none` is the head, `some a` the next of `a`. -/
def target (k : Links ι) : Option ι → Option ι
  | none => k.head
  | some a => k.next a

/-- The link, changed. -/
def assign [DecidableEq ι] (k : Links ι) (pos : Option ι) (v : Option ι) : Links ι :=
  match pos with
  | none => { k with head := v }
  | some a => { k with next := fun b => if b = a then v else k.next b }

/-- A cell at the head. -/
def push [DecidableEq ι] (k : Links ι) (a : ι) : Links ι where
  head := some a
  next := fun b => if b = a then k.head else k.next b

/-- The cells a walk from a link looks at, up to the first that meets `p`, and the link that
names that one. -/
def seek (k : Links ι) (p : ι → Bool) : Nat → Option ι → List ι × Option (Option ι)
  | 0, _ => ([], none)
  | n + 1, pos =>
    match k.target pos with
    | none => ([], none)
    | some a =>
      if p a then ([a], some pos)
      else
        let r := seek k p n (some a)
        (a :: r.1, r.2)

variable {k : Links ι} {next next' : ι → Option ι}

/-- Cells that are not of the list may change. -/
theorem From.congr : ∀ {l : List ι} {h : Option ι}, From next h l →
    (∀ a ∈ l, next' a = next a) → From next' h l
  | [], _, hl, _ => hl
  | a :: l, _, ⟨hh, hl⟩, hn => by
    refine ⟨hh, ?_⟩
    rw [hn a List.mem_cons_self]
    exact hl.congr fun b hb => hn b (List.mem_cons_of_mem a hb)

/-- What names the rest of a list is the last cell before it. -/
theorem From.split : ∀ {l₁ l₂ : List ι} {h : Option ι}, From next h (l₁ ++ l₂) →
    From next (l₁.getLast?.elim h next) l₂
  | [], _, _, hl => hl
  | [a], _, _, ⟨_, hl⟩ => hl
  | _ :: b :: l₁, l₂, _, ⟨_, hl⟩ => by
    have ih : From next ((b :: l₁).getLast?.elim _ next) l₂ := From.split hl
    rw [List.getLast?_cons_cons]
    rw [List.getLast?_eq_some_getLast (List.cons_ne_nil b l₁)] at ih ⊢
    exact ih

theorem Holds.split {l₁ l₂ : List ι} (h : k.Holds (l₁ ++ l₂)) :
    From k.next (k.target l₁.getLast?) l₂ := by
  have hs := From.split h
  cases hl : l₁.getLast? with
  | none =>
    rw [hl] at hs
    exact hs
  | some b =>
    rw [hl] at hs
    exact hs

/-- The link past the last cell names nothing. -/
theorem Holds.end {l : List ι} (h : k.Holds l) : k.target l.getLast? = none := by
  have hs := @Holds.split _ _ l [] (by rw [List.append_nil]; exact h)
  exact hs

theorem Holds.target_mid {l₁ l₂ : List ι} {a : ι} (h : k.Holds (l₁ ++ a :: l₂)) :
    k.target l₁.getLast? = some a ∧ From k.next (k.next a) l₂ := h.split

theorem Holds.push [DecidableEq ι] {l : List ι} (h : k.Holds l) {a : ι} (ha : a ∉ l) : (k.push a).Holds (a :: l) := by
  refine ⟨rfl, ?_⟩
  have hframe : From (k.push a).next k.head l := h.congr fun b hb => by
    show (if b = a then k.head else k.next b) = k.next b
    exact if_neg fun hba : b = a => ha (hba ▸ hb)
  show From (k.push a).next (if a = a then k.head else k.next a) l
  rw [if_pos rfl]
  exact hframe

/-- A cell that the one before it steps over. -/
theorem From.skip [DecidableEq ι] {a b : ι} {l₂ : List ι} : ∀ {l₁ : List ι} {h : Option ι},
    From next h (l₁ ++ b :: a :: l₂) → (l₁ ++ b :: a :: l₂).Nodup →
      From (fun c => if c = b then next a else next c) h (l₁ ++ b :: l₂)
  | [], _, ⟨hh, _, hl⟩, hn => by
    refine ⟨hh, ?_⟩
    dsimp only
    rw [if_pos rfl]
    refine From.congr hl fun c hc => if_neg fun hcb : c = b => ?_
    exact (List.nodup_cons.mp hn).1 (List.mem_cons_of_mem a (hcb ▸ hc))
  | c :: l₁, _, ⟨hh, hl⟩, hn => by
    rw [List.cons_append, List.nodup_cons] at hn
    refine ⟨hh, ?_⟩
    have hcb : c ≠ b := by
      intro hcb
      rw [hcb] at hn
      exact hn.1 (List.mem_append_right l₁ List.mem_cons_self)
    dsimp only
    rw [if_neg hcb]
    exact From.skip hl hn.2

/-- A cell unlinked at the link that names it. -/
theorem Holds.unlink [DecidableEq ι] {l₁ l₂ : List ι} {a : ι} (h : k.Holds (l₁ ++ a :: l₂))
    (hn : (l₁ ++ a :: l₂).Nodup) : (k.assign l₁.getLast? (k.next a)).Holds (l₁ ++ l₂) := by
  rcases List.eq_nil_or_concat l₁ with rfl | ⟨m, b, rfl⟩
  · exact h.2
  · rw [List.concat_eq_append, List.append_assoc] at h hn
    have hskip := @From.skip _ _ _ _ _ _ m _ h hn
    rw [List.concat_eq_append, List.getLast?_concat, List.append_assoc]
    exact hskip

/-- A walk over the list stops at the first cell that meets `p`, with the link that names it. -/
theorem From.seek (p : ι → Bool) : ∀ {l : List ι} {pos : Option ι} {n : Nat},
    From k.next (k.target pos) l → l.length ≤ n →
      (∃ l₁ a l₂, l = l₁ ++ a :: l₂ ∧ p a = true ∧ (∀ b ∈ l₁, p b = false) ∧
        k.seek p n pos = (l₁ ++ [a], some (l₁.getLast?.or pos))) ∨
      (∀ b ∈ l, p b = false) ∧ k.seek p n pos = (l, none)
  | [], pos, n, hl, _ => by
    refine Or.inr ⟨fun b hb => absurd hb List.not_mem_nil, ?_⟩
    have hnone : k.target pos = none := hl
    cases n with
    | zero => rfl
    | succ n =>
      unfold Links.seek
      rw [hnone]
  | a :: l, pos, 0, _, hlen => absurd hlen (Nat.not_succ_le_zero _)
  | a :: l, pos, n + 1, ⟨hh, hl⟩, hlen => by
    unfold Links.seek
    rw [hh]
    dsimp only
    cases hp : p a with
    | true =>
      rw [if_pos rfl]
      exact Or.inl ⟨[], a, l, rfl, hp, fun b hb => absurd hb List.not_mem_nil, rfl⟩
    | false =>
      rw [if_neg Bool.false_ne_true]
      rcases @From.seek p l (some a) n hl (Nat.le_of_succ_le_succ hlen) with
        ⟨l₁, b, l₂, rfl, hpb, hno, hseek⟩ | ⟨hno, hseek⟩
      · refine Or.inl ⟨a :: l₁, b, l₂, rfl, hpb, ?_, ?_⟩
        · intro c hc
          rcases List.mem_cons.mp hc with rfl | hc
          · exact hp
          · exact hno c hc
        · rw [hseek]
          cases l₁ with
          | nil => rfl
          | cons c l₁ =>
            rw [List.getLast?_cons_cons, List.getLast?_eq_some_getLast (List.cons_ne_nil c l₁)]
            rfl
      · refine Or.inr ⟨?_, ?_⟩
        · intro c hc
          rcases List.mem_cons.mp hc with rfl | hc
          · exact hp
          · exact hno c hc
        · rw [hseek]

/-- A walk over the whole list. -/
theorem Holds.seek {l : List ι} (h : k.Holds l) (p : ι → Bool) {n : Nat} (hn : l.length ≤ n) :
    (∃ l₁ a l₂, l = l₁ ++ a :: l₂ ∧ p a = true ∧ (∀ b ∈ l₁, p b = false) ∧
      k.seek p n none = (l₁ ++ [a], some l₁.getLast?)) ∨
    (∀ b ∈ l, p b = false) ∧ k.seek p n none = (l, none) := by
  rcases @From.seek _ k p l none n h hn with ⟨l₁, a, l₂, hl, hp, hno, hs⟩ | hs
  · rw [Option.or_none] at hs
    exact Or.inl ⟨l₁, a, l₂, hl, hp, hno, hs⟩
  · exact Or.inr hs

end Links

end Rant.Lib
