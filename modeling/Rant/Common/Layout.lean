import Rant.Common.Memory
import Mathlib.Data.List.Perm.Basic
import Mathlib.Data.List.Nodup
/-!
# Where the blocks lie

`Layout`: the three lists hold the shared pages `S`, the blocks that are out `H` and the pooled
ones `P`, and all they are made of lies apart: the blocks, what was bumped off the shared pages
and went to nobody's block (`F`), and the rest of those pages. A block that changes hands or is
cut off a page leaves it so.
-/

namespace Rant.Memory

open Rant.Lib

/-! ## Extents -/

/-- All of `x` is in `y`. -/
def Extent.Inside (x y : Extent) : Prop := y.off ≤ x.off ∧ x.off + x.len ≤ y.off + y.len

theorem Extent.Apart.symm {x y : Extent} (h : x.Apart y) : y.Apart x := Or.symm h

theorem Extent.Apart.mono {x y u v : Extent} (h : x.Apart y) (hu : u.Inside x) (hv : v.Inside y) :
    u.Apart v := by
  obtain ⟨hu₁, hu₂⟩ := hu
  obtain ⟨hv₁, hv₂⟩ := hv
  rcases h with h | h
  · exact Or.inl (by omega)
  · exact Or.inr (by omega)

/-- Extents apart, in any order. -/
theorem apart_perm {l m : List Extent} (h : l.Perm m) :
    l.Pairwise Extent.Apart ↔ m.Pairwise Extent.Apart :=
  h.pairwise_iff Extent.Apart.symm

/-- An extent cut up. -/
theorem apart_cut {x : Extent} {l m : List Extent} (h : (x :: l).Pairwise Extent.Apart)
    (hm : m.Pairwise Extent.Apart) (hin : ∀ y ∈ m, y.Inside x) : (m ++ l).Pairwise Extent.Apart := by
  obtain ⟨hx, hl⟩ := List.pairwise_cons.mp h
  refine List.pairwise_append.mpr ⟨hm, hl, fun y hy z hz => ?_⟩
  exact (hx z hz).mono (hin y hy) ⟨Nat.le_refl _, Nat.le_refl _⟩

/-! ## The links of the lists -/

section links

variable (page : Nat → Page)

/-- The list of a head. -/
def listAt (head : Option Nat) : TwoWay Nat := ⟨head, fun i => (page i).next, fun i => (page i).prev⟩

variable {page}

theorem upd_self (h : Nat) (f : Page → Page) : upd page h f h = f (page h) := if_pos rfl

variable {h : Nat}

theorem upd_other {i : Nat} (f : Page → Page) (hi : i ≠ h) : upd page h f i = page i := if_neg hi

variable {head : Option Nat} {l : List Nat}

/-- Pages that are not of the list may change. -/
theorem both_congr {page' : Nat → Page}
    (h : (listAt page head).Both l) (hp : ∀ i ∈ l, (page' i).next = (page i).next ∧
      (page' i).prev = (page i).prev) : (listAt page' head).Both l :=
  h.congr rfl (fun i hi => (hp i hi).1) fun i hi => (hp i hi).2

theorem linkFront_other {i : Nat} (hi : i ≠ h) (hh : some i ≠ head) :
    linkFront page head h i = page i := by
  unfold linkFront
  cases head with
  | none => exact upd_other _ hi
  | some g =>
    have hg : i ≠ g := fun heq => hh (congrArg some heq)
    exact (upd_other _ hg).trans (upd_other _ hi)

/-- The links of a page put first. -/
theorem linkFront_links (hh : head ≠ some h) (i : Nat) :
    (linkFront page head h i).next = (if i = h then head else (page i).next) ∧
      (linkFront page head h i).prev =
        (if i = h then none else if some i = head then some h else (page i).prev) ∧
      (linkFront page head h i).cap = (page i).cap ∧ (linkFront page head h i).used = (page i).used := by
  unfold linkFront upd
  cases head with
  | none =>
    dsimp only
    by_cases hi : i = h
    · rw [if_pos hi, if_pos hi, if_pos hi]
      exact ⟨rfl, rfl, rfl, rfl⟩
    · rw [if_neg hi, if_neg hi, if_neg hi, if_neg (Option.some_ne_none i)]
      exact ⟨rfl, rfl, rfl, rfl⟩
  | some g =>
    dsimp only
    have hgh : g ≠ h := fun heq => hh (congrArg some heq)
    by_cases hi : i = h
    · rw [if_pos hi, if_pos hi, if_neg (fun heq => hgh (heq.symm.trans hi)), if_pos hi]
      exact ⟨rfl, rfl, rfl, rfl⟩
    by_cases hg : i = g
    · subst hg
      rw [if_pos rfl, if_neg hi, if_neg hi, if_pos rfl, if_neg hi]
      exact ⟨rfl, rfl, rfl, rfl⟩
    · rw [if_neg hg, if_neg hi, if_neg hi, if_neg hi, if_neg (fun heq => hg (Option.some.inj heq))]
      exact ⟨rfl, rfl, rfl, rfl⟩

/-- A page that is not on a list does not head it. -/
theorem head_ne (hl : (listAt page head).Both l)
    (hh : h ∉ l) : head ≠ some h := fun heq =>
  hh (List.mem_of_head? ((show head = l.head? from hl.forward.head_eq).symm.trans heq))

/-- A page put first on the list of its head. -/
theorem linkFront_both (hl : (listAt page head).Both l)
    (hh : h ∉ l) : (listAt (linkFront page head h) (some h)).Both (h :: l) := by
  have hne := head_ne hl hh
  refine (hl.pushFront hh).congr rfl (fun i _ => ?_) fun i _ => ?_
  · exact (linkFront_links hne i).1
  · exact (linkFront_links hne i).2.1

theorem unlinkPage_fields (h i : Nat) :
    (unlinkPage page h i).next = (if some i = (page h).prev then (page h).next else (page i).next) ∧
      (unlinkPage page h i).prev =
        (if some i = (page h).next then (page h).prev else (page i).prev) ∧
      (unlinkPage page h i).cap = (page i).cap ∧ (unlinkPage page h i).used = (page i).used := by
  unfold unlinkPage upd
  cases (page h).prev with
  | none =>
    cases (page h).next with
    | none =>
      rw [if_neg (Option.some_ne_none i)]
      exact ⟨rfl, rfl, rfl, rfl⟩
    | some g =>
      dsimp only
      rw [if_neg (Option.some_ne_none i)]
      by_cases hg : i = g
      · subst hg
        rw [if_pos rfl, if_pos rfl]
        exact ⟨rfl, rfl, rfl, rfl⟩
      · rw [if_neg hg, if_neg (fun heq => hg (Option.some.inj heq))]
        exact ⟨rfl, rfl, rfl, rfl⟩
  | some f =>
    dsimp only
    have hf : (if some i = some f then (page h).next else (page i).next) =
        (if i = f then (page h).next else (page i).next) := by
      simp only [Option.some.injEq]
    rw [hf]
    cases hn : (page h).next with
    | none =>
      dsimp only
      rw [if_neg (Option.some_ne_none i)]
      split <;> exact ⟨rfl, rfl, rfl, rfl⟩
    | some g =>
      dsimp only
      by_cases hg : i = g
      · subst hg
        rw [if_pos rfl, if_pos rfl]
        split <;> exact ⟨rfl, rfl, rfl, rfl⟩
      · rw [if_neg hg, if_neg (fun heq => hg (Option.some.inj heq))]
        split <;> exact ⟨rfl, rfl, rfl, rfl⟩

/-- A page taken off the list of its head. -/
theorem unlinkPage_both {f r : List Nat}
    (hl : (listAt page head).Both (f ++ h :: r)) :
    (listAt (unlinkPage page h) (if (page h).prev = none then (page h).next else head)).Both
      (f ++ r) := by
  refine hl.unlink.congr rfl (fun i _ => ?_) fun i _ => ?_
  · exact (unlinkPage_fields h i).1
  · exact (unlinkPage_fields h i).2.1

/-- What is on neither side of the page keeps its links. -/
theorem unlinkPage_other
    (hl : (listAt page head).Both l) (hh : h ∈ l) {i : Nat} (hi : i ∉ l) :
    (unlinkPage page h i).next = (page i).next ∧ (unlinkPage page h i).prev = (page i).prev := by
  obtain ⟨f, r, rfl⟩ := List.append_of_mem hh
  obtain ⟨hprev, hnext⟩ := hl.mid
  have hprev : (page h).prev = f.getLast? := hprev
  have hnext : (page h).next = r.head? := hnext
  obtain ⟨hn, hp, -⟩ := @unlinkPage_fields page h i
  refine ⟨hn.trans (if_neg fun heq => hi ?_), hp.trans (if_neg fun heq => hi ?_)⟩
  · rw [hprev] at heq
    exact List.mem_append_left _ (List.mem_of_getLast? heq.symm)
  · rw [hnext] at heq
    exact List.mem_append_right _ (List.mem_cons_of_mem h (List.mem_of_head? heq.symm))

/-- A page put first is on no other list. -/
theorem linkFront_apart {head' : Option Nat} {m : List Nat}
    (hl : (listAt page head).Both l) (hm : (listAt page head').Both m) (hh : h ∉ m)
    (hd : ∀ i ∈ m, i ∉ l) : (listAt (linkFront page head h) head').Both m := by
  refine both_congr hm fun i hi => ?_
  have hhead : some i ≠ head := by
    intro heq
    have hl' : head = l.head? := hl.forward.head_eq
    exact hd i hi (List.mem_of_head? (hl'.symm.trans heq.symm))
  have hne : i ≠ h := by
    rintro rfl
    exact hh hi
  rw [linkFront_other hne hhead]
  exact ⟨rfl, rfl⟩

/-- A page taken off its list leaves the other lists. -/
theorem unlinkPage_apart {head' : Option Nat} {m : List Nat}
    (hl : (listAt page head).Both l) (hm : (listAt page head').Both m) (hh : h ∈ l)
    (hd : ∀ i ∈ m, i ∉ l) : (listAt (unlinkPage page h) head').Both m :=
  both_congr hm fun i hi => unlinkPage_other hl hh (hd i hi)

/-- Only the room of a page changed, or the page is on no list. -/
theorem upd_both {f : Page → Page}
    (hl : (listAt page head).Both l)
    (hf : h ∈ l → (f (page h)).next = (page h).next ∧ (f (page h)).prev = (page h).prev) :
    (listAt (upd page h f) head).Both l := by
  refine both_congr hl fun i hi => ?_
  by_cases hih : i = h
  · subst hih
    rw [upd_self]
    exact hf hi
  · rw [upd_other f hih]
    exact ⟨rfl, rfl⟩

end links

/-! ## The layout -/

/-- A block and its header. -/
def block (page : Nat → Page) (h : Nat) : Extent := ⟨h, pageHdr + (page h).cap⟩

/-- The header of a shared page. -/
def front (g : Nat) : Extent := ⟨g, pageHdr⟩

/-- What was not bumped off a shared page yet. -/
def tail (page : Nat → Page) (g : Nat) : Extent :=
  ⟨g + pageHdr + (page g).used, (page g).cap - (page g).used⟩

/-- All that memory is made of. -/
def leaves (page : Nat → Page) (H : List Nat) (F : List Extent) (S P : List Nat) : List Extent :=
  (H ++ P).map (block page) ++ (F ++ (S.map front ++ S.map (tail page)))

/-- The lists of an allocator and the places of what is on them. -/
structure Layout (a : RantAllocator) (H : List Nat) (F : List Extent) (S P : List Nat) : Prop where
  shared : (listAt a.page a.shared).Both S
  owned : (listAt a.page a.owned).Both (if a.dynamic then H else [])
  pool : (listAt a.page a.freePool).Both P
  apart : (leaves a.page H F S P).Pairwise Extent.Apart
  used : ∀ g ∈ S, (a.page g).used ≤ (a.page g).cap
  inside : ∀ e ∈ F, ∃ g ∈ S, e.Inside (block a.page g)
  buffer : a.dynamic = false → ∀ i ∈ H ++ P, ∃ g ∈ S, (block a.page i).Inside (block a.page g)
  held : a.dynamic = true → a.held.Perm ((S ++ (H ++ P)).map (block a.page))
  one : a.dynamic = false → S.length ≤ 1
  made : S.length + H.length + P.length ≤ a.made

section pieces

variable {page page' : Nat → Page} {H S P : List Nat} {F : List Extent}

theorem block_off (page : Nat → Page) (h : Nat) : (block page h).off = h := rfl

/-- Blocks with the same room lie the same. -/
theorem block_congr {h : Nat} (hp : (page' h).cap = (page h).cap) : block page' h = block page h := by
  unfold block
  rw [hp]

theorem tail_congr {g : Nat} (hc : (page' g).cap = (page g).cap) (hu : (page' g).used = (page g).used) :
    tail page' g = tail page g := by
  unfold tail
  rw [hc, hu]

/-- The room of the pages counts, not their links. -/
theorem leaves_congr (hb : ∀ h ∈ H ++ P, (page' h).cap = (page h).cap)
    (hs : ∀ g ∈ S, (page' g).cap = (page g).cap ∧ (page' g).used = (page g).used) :
    leaves page' H F S P = leaves page H F S P := by
  unfold leaves
  rw [List.map_congr_left fun h hh => block_congr (hb h hh),
    List.map_congr_left fun g hg => tail_congr (hs g hg).1 (hs g hg).2]

/-- Two extents with one start are not apart, unless one is empty. -/
theorem apart_off_ne {x y : Extent} (h : x.Apart y) (hx : 0 < x.len) (hy : 0 < y.len) :
    x.off ≠ y.off := by
  rcases h with h | h <;> omega

/-- Every header is there once. -/
theorem headers_nodup (h : (leaves page H F S P).Pairwise Extent.Apart) : (S ++ (H ++ P)).Nodup := by
  unfold leaves at h
  obtain ⟨hblocks, hrest, hcross⟩ := List.pairwise_append.mp h
  obtain ⟨-, hpages, -⟩ := List.pairwise_append.mp hrest
  obtain ⟨hfronts, -, -⟩ := List.pairwise_append.mp hpages
  have hlen : ∀ i, 0 < (block page i).len := fun i => Nat.add_pos_left (by decide) _
  have hfront : ∀ i, 0 < (front i).len := fun _ => Nat.zero_lt_succ 31
  refine List.nodup_append.mpr ⟨?_, ?_, fun g hg i hi heq => ?_⟩
  · exact (List.pairwise_map.mp hfronts).imp fun hx => apart_off_ne hx (hfront _) (hfront _)
  · exact (List.pairwise_map.mp hblocks).imp fun hx => apart_off_ne hx (hlen _) (hlen _)
  · have hx := hcross _ (List.mem_map_of_mem hi) (front g)
      (List.mem_append_right F (List.mem_append_left _ (List.mem_map_of_mem hg)))
    exact apart_off_ne hx (hlen i) (hfront g) heq.symm

theorem mem_leaves {e : Extent} : e ∈ leaves page H F S P ↔
    (∃ h ∈ H ++ P, block page h = e) ∨ e ∈ F ∨ (∃ g ∈ S, front g = e) ∨ ∃ g ∈ S, tail page g = e := by
  unfold leaves
  rw [List.mem_append, List.mem_append, List.mem_append, List.mem_map, List.mem_map, List.mem_map]

end pieces

namespace Layout

variable {a : RantAllocator} {H S P : List Nat} {F : List Extent}

theorem nodup (h : Layout a H F S P) : (S ++ (H ++ P)).Nodup := headers_nodup h.apart

/-- All of it is in what the backing gave. -/
theorem leaf_held (h : Layout a H F S P) (hd : a.dynamic = true) {e : Extent}
    (he : e ∈ leaves a.page H F S P) : ∃ x ∈ a.held, e.Inside x := by
  have hmem : ∀ i ∈ S ++ (H ++ P), block a.page i ∈ a.held := fun i hi =>
    (h.held hd).mem_iff.mpr (List.mem_map_of_mem hi)
  have hpage : ∀ g ∈ S, block a.page g ∈ a.held := fun g hg => hmem g (List.mem_append_left _ hg)
  rcases mem_leaves.mp he with ⟨i, hi, rfl⟩ | hF | ⟨g, hg, rfl⟩ | ⟨g, hg, rfl⟩
  · exact ⟨_, hmem i (List.mem_append_right S hi), Nat.le_refl _, Nat.le_refl _⟩
  · obtain ⟨g, hg, hin⟩ := h.inside e hF
    exact ⟨_, hpage g hg, hin⟩
  · refine ⟨_, hpage g hg, Nat.le_refl _, ?_⟩
    show g + pageHdr ≤ g + (pageHdr + (a.page g).cap)
    omega
  · have hu := h.used g hg
    refine ⟨_, hpage g hg, ?_, ?_⟩
    · show g ≤ g + pageHdr + (a.page g).used
      omega
    · show g + pageHdr + (a.page g).used + ((a.page g).cap - (a.page g).used) ≤
        g + (pageHdr + (a.page g).cap)
      omega

/-- Counters and bytes do not matter. -/
theorem of_eq {b : RantAllocator} (h : Layout a H F S P) (hp : b.page = a.page)
    (hl : b.shared = a.shared ∧ b.owned = a.owned ∧ b.freePool = a.freePool)
    (hd : b.dynamic = a.dynamic) (hh : b.held = a.held) (hm : b.made = a.made) :
    Layout b H F S P := by
  obtain ⟨hs, ho, hf⟩ := hl
  constructor
  · rw [hp, hs]; exact h.shared
  · rw [hp, ho, hd]; exact h.owned
  · rw [hp, hf]; exact h.pool
  · rw [hp]; exact h.apart
  · rw [hp]; exact h.used
  · rw [hp]; exact h.inside
  · rw [hp, hd]; exact h.buffer
  · rw [hp, hd, hh]; exact h.held
  · rw [hd]; exact h.one
  · rw [hm]; exact h.made

end Layout

end Rant.Memory
