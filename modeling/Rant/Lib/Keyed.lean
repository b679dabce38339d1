import Mathlib.Data.List.Nodup
/-!
# Keyed tables

A growable array of records found by a key: a scan for the first match, an overwrite of the
first match or else an append, and the removal of every match that fills each hole with the
last record. The records of such a table have distinct keys, so the first match is the only
one, and the order that the removal shuffles is not seen by a lookup.
-/

namespace Rant.Lib

variable {α κ : Type}

/-- Overwrites the first match, or says that there is none. -/
def replaceFirst (p : α → Bool) (f : α → α) : List α → Option (List α)
  | [] => none
  | x :: l => if p x then some (f x :: l) else (replaceFirst p f l).map (x :: ·)

/-- One pass over the first `n` records, the last of them into each hole. -/
def sweep (p : α → Bool) : Nat → List α → List α
  | 0, _ => []
  | _ + 1, [] => []
  | n + 1, x :: l =>
    if p x then
      match l.getLast? with
      | none => []
      | some y => sweep p n (y :: l.dropLast)
    else x :: sweep p n l

/-- Removes every match. -/
def swapRemove (p : α → Bool) (l : List α) : List α := sweep p l.length l

/-- Any two records differ in their keys. -/
def Distinct (key : α → κ) (l : List α) : Prop := l.Pairwise fun x y => key x ≠ key y

/-! ## Removing -/

theorem sweep_perm (p : α → Bool) {n : Nat} :
    ∀ {l : List α}, l.length = n → (sweep p n l).Perm (l.filter fun x => !p x) := by
  induction n with
  | zero =>
    intro l hl
    rw [List.eq_nil_of_length_eq_zero hl]
    exact List.Perm.refl []
  | succ n ih =>
    intro l hl
    cases l with
    | nil => exact List.Perm.refl []
    | cons x l =>
      have hl : l.length = n := Nat.succ.inj hl
      unfold sweep
      split
      next hx =>
        rw [List.filter_cons_of_neg (by simp [hx])]
        split
        next hnil =>
          rw [List.getLast?_eq_none_iff.mp hnil]
          exact List.Perm.refl []
        next y hy =>
          -- the record moved into the hole is the one that was last
          obtain ⟨l', rfl⟩ := List.getLast?_eq_some_iff.mp hy
          rw [List.dropLast_concat]
          refine (ih ?_).trans ?_
          · rw [← hl, List.length_append, List.length_cons, List.length_singleton]
          · exact (List.perm_append_singleton y l').symm.filter _
      next hx =>
        rw [List.filter_cons_of_pos (by simp [hx])]
        exact (ih hl).cons x

theorem swapRemove_perm (p : α → Bool) (l : List α) :
    (swapRemove p l).Perm (l.filter fun x => !p x) := sweep_perm p rfl

variable {p : α → Bool} {l : List α} {x : α}

theorem mem_swapRemove :
    x ∈ swapRemove p l ↔ x ∈ l ∧ p x = false := by
  rw [(swapRemove_perm p l).mem_iff, List.mem_filter, Bool.not_eq_true']

/-- One record removed, the last record put into its hole. -/
theorem fillHole_perm {k : Nat} (hx : l[k]? = some x) (d : α) :
    l.Perm (x :: (l.set k (l.getLastD d)).dropLast) := by
  rcases List.eq_nil_or_concat l with rfl | ⟨m, y, rfl⟩
  · cases hx
  · rw [List.concat_eq_append] at hx ⊢
    have hlast : (m ++ [y]).getLastD d = y := by
      rw [List.getLastD_eq_getLast?, List.getLast?_concat]
      rfl
    rw [hlast]
    by_cases hk : k < m.length
    · rw [List.getElem?_append_left hk] at hx
      obtain ⟨_, hget⟩ := List.getElem?_eq_some_iff.mp hx
      have hsplit : m = m.take k ++ x :: m.drop (k + 1) := by
        conv_lhs => rw [← List.take_append_drop k m]
        rw [List.drop_eq_getElem_cons hk, hget]
      rw [List.set_append_left _ _ hk, List.dropLast_concat, List.set_eq_take_append_cons_drop,
        if_pos hk]
      conv_lhs => rw [hsplit]
      rw [List.append_assoc, List.cons_append]
      refine List.perm_middle.trans (List.Perm.cons x ?_)
      exact (List.perm_append_singleton y _).append_left _
    · have hk' : k = m.length := by
        have hlt := (List.getElem?_eq_some_iff.mp hx).1
        rw [List.length_append, List.length_singleton] at hlt
        omega
      subst hk'
      rw [List.getElem?_append_right (Nat.le_refl _), Nat.sub_self] at hx
      cases hx
      rw [List.set_append_right _ _ (Nat.le_refl _), Nat.sub_self, List.set_cons_zero,
        List.dropLast_concat]
      exact List.perm_append_singleton _ m

theorem Distinct.swapRemove {key : α → κ} (h : Distinct key l) (p : α → Bool) :
    Distinct key (swapRemove p l) :=
  (swapRemove_perm p l).symm.pairwise (h.filter _) fun hxy => hxy.symm

/-! ## Finding -/

/-- The only record of a key is the one a scan finds. -/
theorem Distinct.find? {key : α → κ} (h : Distinct key l) {k : κ}
    (hp : ∀ x, p x = true ↔ key x = k) (hx : x ∈ l) (hk : key x = k) :
    l.find? p = some x := by
  induction l with
  | nil => exact absurd hx List.not_mem_nil
  | cons y l ih =>
    obtain ⟨hy, hl⟩ := List.pairwise_cons.mp h
    rcases List.mem_cons.mp hx with rfl | hmem
    · exact List.find?_cons_of_pos ((hp x).mpr hk)
    · have hne : ¬ p y = true := by
        intro hpy
        exact hy x hmem (((hp y).mp hpy).trans hk.symm)
      rw [List.find?_cons_of_neg hne]
      exact ih hl hmem

/-! ## Overwriting -/

theorem replaceFirst_none {f : α → α}
    (h : replaceFirst p f l = none) : ∀ x ∈ l, p x = false := by
  induction l with
  | nil => exact fun x hx => absurd hx List.not_mem_nil
  | cons y l ih =>
    unfold replaceFirst at h
    split at h
    next => cases h
    next hy =>
      intro x hx
      rcases List.mem_cons.mp hx with rfl | hx
      · exact (Bool.not_eq_true _).mp hy
      · exact ih (Option.map_eq_none_iff.mp h) x hx

/-- What an overwrite leaves: the record it made, and every record that did not match. -/
theorem replaceFirst_some {key : α → κ} {f : α → α} (hf : ∀ x, key (f x) = key x)
    {l' : List α} (h : replaceFirst p f l = some l') :
    l'.map key = l.map key ∧ (∃ x ∈ l, p x = true ∧ f x ∈ l') ∧
      (∀ x ∈ l, p x = false → x ∈ l') ∧ ∀ y ∈ l', y ∈ l ∨ ∃ x ∈ l, p x = true ∧ y = f x := by
  induction l generalizing l' with
  | nil => cases h
  | cons z l ih =>
    unfold replaceFirst at h
    split at h
    next hz =>
      rw [← Option.some.inj h]
      refine ⟨?_, ⟨z, List.mem_cons_self, hz, List.mem_cons_self⟩, fun x hx hpx => ?_,
        fun y hy => ?_⟩
      · rw [List.map_cons, List.map_cons, hf z]
      · rcases List.mem_cons.mp hx with rfl | hx
        · rw [hz] at hpx
          cases hpx
        · exact List.mem_cons_of_mem _ hx
      · rcases List.mem_cons.mp hy with rfl | hy
        · exact Or.inr ⟨z, List.mem_cons_self, hz, rfl⟩
        · exact Or.inl (List.mem_cons_of_mem _ hy)
    next hz =>
      obtain ⟨l₁, hl₁, rfl⟩ := Option.map_eq_some_iff.mp h
      obtain ⟨hkeys, ⟨x₀, hx₀, hp₀, hf₀⟩, hkept, hback⟩ := ih hl₁
      refine ⟨?_, ⟨x₀, List.mem_cons_of_mem _ hx₀, hp₀, List.mem_cons_of_mem _ hf₀⟩,
        fun x hx hpx => ?_, fun y hy => ?_⟩
      · rw [List.map_cons, List.map_cons, hkeys]
      · rcases List.mem_cons.mp hx with rfl | hx
        · exact List.mem_cons_self
        · exact List.mem_cons_of_mem _ (hkept x hx hpx)
      · rcases List.mem_cons.mp hy with rfl | hy
        · exact Or.inl List.mem_cons_self
        · rcases hback y hy with hy | ⟨x, hx, hpx, hyx⟩
          · exact Or.inl (List.mem_cons_of_mem _ hy)
          · exact Or.inr ⟨x, List.mem_cons_of_mem _ hx, hpx, hyx⟩

theorem Distinct.of_map {key : α → κ} {l' : List α} (h : Distinct key l)
    (hmap : l'.map key = l.map key) : Distinct key l' := by
  have hl : (l.map key).Pairwise (· ≠ ·) := List.pairwise_map.mpr h
  rw [← hmap] at hl
  exact List.pairwise_map.mp hl

theorem Distinct.concat {key : α → κ} (h : Distinct key l)
    (hx : ∀ y ∈ l, key y ≠ key x) : Distinct key (l ++ [x]) := by
  refine List.pairwise_append.mpr ⟨h, List.pairwise_singleton _ x, fun y hy z hz => ?_⟩
  rw [List.mem_singleton.mp hz]
  exact hx y hy

end Rant.Lib
