import Mathlib.Algebra.Order.Ring.Int
/-!
# Hash chains

An index over numbered places, each empty or holding an entry: one list of places for each
bucket. `Chained` is that a place stands in the chain of its entry's bucket, once, and in no
other. Linking a place that was filled and unlinking one that is emptied keep it, and
`relink` builds it from nothing. A search of one chain finds the entry of a key whenever the
key decides the bucket.
-/

namespace Rant.Lib

variable {α : Type}

/-- Place `i` at the head of chain `b`. -/
def push (heads : List (List Nat)) (b i : Nat) : List (List Nat) := heads.modify b (i :: ·)

/-- Place `i` out of chain `b`. -/
def unlink (heads : List (List Nat)) (b i : Nat) : List (List Nat) := heads.modify b (·.erase i)

/-- Place `i` linked, when it holds an entry. -/
def relinkAt (bucket : α → Nat) (get : Nat → Option α) (heads : List (List Nat)) (i : Nat) :
    List (List Nat) :=
  match get i with
  | some x => push heads (bucket x) i
  | none => heads

/-- The places of a list linked one by one. -/
def relink (bucket : α → Nat) (get : Nat → Option α) (heads : List (List Nat)) (is : List Nat) :
    List (List Nat) :=
  is.foldl (relinkAt bucket get) heads

/-- The first place of a chain whose entry meets `p`. -/
def search (heads : List (List Nat)) (get : Nat → Option α) (b : Nat) (p : α → Bool) : Option Nat :=
  (heads.getD b []).find? fun i => (get i).any p

@[simp] theorem length_push (heads : List (List Nat)) (b i : Nat) :
    (push heads b i).length = heads.length := List.length_modify ..

@[simp] theorem length_unlink (heads : List (List Nat)) (b i : Nat) :
    (unlink heads b i).length = heads.length := List.length_modify ..

@[simp] theorem length_relink (bucket : α → Nat) (get : Nat → Option α) (is : List Nat) :
    ∀ heads, (relink bucket get heads is).length = heads.length := by
  induction is with
  | nil => intro heads; rfl
  | cons i is ih =>
    intro heads
    show (relink bucket get (relinkAt bucket get heads i) is).length = _
    rw [ih]
    unfold relinkAt
    split
    next => exact length_push _ _ _
    next => rfl

theorem getD_modify {heads : List (List Nat)} {b : Nat} (f : List Nat → List Nat)
    (hb : b < heads.length) (c : Nat) :
    (heads.modify b f).getD c [] = if b = c then f (heads.getD c []) else heads.getD c [] := by
  rw [List.getD_eq_getElem?_getD, List.getD_eq_getElem?_getD, List.getElem?_modify]
  by_cases hbc : b = c
  · subst hbc
    simp [List.getElem?_eq_getElem hb]
  · simp [hbc]

/-- Every filled place stands in the chain of its bucket, once, and no other place does. -/
structure Chained (heads : List (List Nat)) (bucket : α → Nat) (get : Nat → Option α) : Prop where
  nodup : ∀ b, (heads.getD b []).Nodup
  mem : ∀ b i, i ∈ heads.getD b [] ↔ ∃ x, get i = some x ∧ bucket x = b

variable {heads : List (List Nat)} {bucket : α → Nat} {get get' : Nat → Option α}

/-- Entries that change but keep their buckets stay chained. -/
theorem Chained.congr (h : Chained heads bucket get)
    (hget : ∀ i, (get' i).map bucket = (get i).map bucket) : Chained heads bucket get' := by
  refine ⟨h.nodup, fun b i => (h.mem b i).trans ?_⟩
  have hi := hget i
  constructor
  · rintro ⟨x, hx, hb⟩
    rw [hx] at hi
    obtain ⟨y, hy, hyb⟩ := Option.map_eq_some_iff.mp hi
    exact ⟨y, hy, hyb.trans hb⟩
  · rintro ⟨y, hy, hb⟩
    rw [hy] at hi
    obtain ⟨x, hx, hxb⟩ := Option.map_eq_some_iff.mp hi.symm
    exact ⟨x, hx, hxb.trans hb⟩

/-- A place filled and pushed. -/
theorem Chained.push (h : Chained heads bucket get) {i : Nat} {x : α} (hi : get i = none)
    (hb : bucket x < heads.length) (hget : ∀ j, get' j = if j = i then some x else get j) :
    Chained (push heads (bucket x) i) bucket get' := by
  have hnot : ∀ b, i ∉ heads.getD b [] := by
    intro b hmem
    obtain ⟨y, hy, -⟩ := (h.mem b i).mp hmem
    rw [hi] at hy
    cases hy
  constructor
  · intro b
    rw [Rant.Lib.push, getD_modify _ hb]
    split
    next => exact List.nodup_cons.mpr ⟨hnot b, h.nodup b⟩
    next => exact h.nodup b
  · intro b j
    rw [Rant.Lib.push, getD_modify _ hb, hget j]
    by_cases hj : j = i
    · subst hj
      rw [if_pos rfl]
      by_cases hbb : bucket x = b
      · rw [if_pos hbb]
        exact ⟨fun _ => ⟨x, rfl, hbb⟩, fun _ => List.mem_cons_self⟩
      rw [if_neg hbb]
      refine ⟨fun hmem => absurd hmem (hnot b), ?_⟩
      rintro ⟨y, hy, hyb⟩
      rw [← Option.some.inj hy] at hyb
      exact absurd hyb hbb
    · rw [if_neg hj]
      by_cases hbb : bucket x = b
      · rw [if_pos hbb, List.mem_cons, or_iff_right hj]
        exact h.mem b j
      · rw [if_neg hbb]
        exact h.mem b j

/-- A place emptied and unlinked. -/
theorem Chained.unlink (h : Chained heads bucket get) {i : Nat} {x : α} (hi : get i = some x)
    (hb : bucket x < heads.length) (hget : ∀ j, get' j = if j = i then none else get j) :
    Chained (unlink heads (bucket x) i) bucket get' := by
  constructor
  · intro b
    rw [Rant.Lib.unlink, getD_modify _ hb]
    split
    next => exact (h.nodup b).erase i
    next => exact h.nodup b
  · intro b j
    rw [Rant.Lib.unlink, getD_modify _ hb, hget j]
    by_cases hj : j = i
    · subst hj
      rw [if_pos rfl]
      refine ⟨fun hmem => ?_, fun ⟨y, hy, _⟩ => (by cases hy)⟩
      exfalso
      by_cases hbb : bucket x = b
      · rw [if_pos hbb] at hmem
        exact (h.nodup b).not_mem_erase hmem
      rw [if_neg hbb] at hmem
      obtain ⟨y, hy, hyb⟩ := (h.mem b j).mp hmem
      rw [hi] at hy
      exact hbb ((congrArg bucket (Option.some.inj hy)).trans hyb)
    · rw [if_neg hj, ← h.mem b j]
      split
      next => exact List.mem_erase_of_ne hj
      next => exact Iff.rfl

/-- Linked from empty chains, place by place. -/
theorem chained_relink (hb : ∀ i x, get i = some x → bucket x < heads.length)
    (hempty : ∀ b, heads.getD b [] = []) {is : List Nat} (hnd : is.Nodup)
    (hall : ∀ i x, get i = some x → i ∈ is) : Chained (relink bucket get heads is) bucket get := by
  -- the induction is on the places linked so far, `front`; the rest of the places are empty yet
  suffices hgen : ∀ (rest front : List Nat) (hs : List (List Nat)), hs.length = heads.length →
      (front ++ rest).Nodup → Chained hs bucket (fun i => if i ∈ front then get i else none) →
      Chained (relink bucket get hs rest) bucket
        (fun i => if i ∈ front ++ rest then get i else none) by
    have hstart : Chained heads bucket (fun i => if i ∈ ([] : List Nat) then get i else none) := by
      refine ⟨fun b => by rw [hempty b]; exact List.nodup_nil, fun b i => ?_⟩
      rw [hempty b]
      simp
    have hend := hgen is [] heads rfl hnd hstart
    refine hend.congr fun i => ?_
    rw [List.nil_append]
    cases hi : get i with
    | none => simp
    | some x => simp [hall i x hi]
  intro rest
  induction rest with
  | nil =>
    intro front hs _ _ h
    simpa [relink] using h
  | cons i rest ih =>
    intro front hs hlen hnd h
    have hif : i ∉ front := fun hmem =>
      (List.nodup_append.mp hnd).2.2 i hmem i List.mem_cons_self rfl
    have hnd' : ((front ++ [i]) ++ rest).Nodup := by
      rw [List.append_assoc]
      exact hnd
    show Chained (relink bucket get (relinkAt bucket get hs i) rest) bucket _
    have hnext : Chained (relinkAt bucket get hs i) bucket
        (fun j => if j ∈ front ++ [i] then get j else none) := by
      unfold relinkAt
      split
      next x hx =>
        refine h.push (by rw [if_neg hif]) (by rw [hlen]; exact hb i x hx) fun j => ?_
        by_cases hj : j = i
        · subst hj
          simp [hx]
        · simp [hj]
      next hx =>
        refine h.congr fun j => ?_
        by_cases hj : j = i
        · subst hj
          simp [hx]
        · simp [hj]
    have hlen' : (relinkAt bucket get hs i).length = heads.length := by
      unfold relinkAt
      split
      next => rw [length_push]; exact hlen
      next => exact hlen
    have hdone := ih (front ++ [i]) _ hlen' hnd' hnext
    rw [List.append_assoc] at hdone
    exact hdone

theorem search_some {b i : Nat} {p : α → Bool} (h : search heads get b p = some i) :
    ∃ x, get i = some x ∧ p x = true := by
  have hp := List.find?_some h
  cases hx : get i with
  | none =>
    rw [hx] at hp
    cases hp
  | some x =>
    rw [hx] at hp
    exact ⟨x, rfl, hp⟩

/-- A search of the bucket of its key misses no entry. -/
theorem Chained.search_none (h : Chained heads bucket get) {b : Nat} {p : α → Bool}
    (hs : search heads get b p = none) {i : Nat} {x : α} (hx : get i = some x)
    (hb : bucket x = b) : p x = false := by
  have hmem := (h.mem b i).mpr ⟨x, hx, hb⟩
  have := List.find?_eq_none.mp hs i hmem
  rw [hx] at this
  exact Bool.not_eq_true _ ▸ this

end Rant.Lib
