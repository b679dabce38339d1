import Mathlib.Data.List.Nodup
/-!
# Saturating tallies

An array of counters that stop at a bound, filled entry by entry. Where one entry adds one to
exactly the counters it hits, a whole pass adds to a counter the number of entries that hit it
(`foldl_tally`), cut at the bound.
-/

namespace Rant.Lib

variable {κ ι : Type} [DecidableEq κ]

/-- One more at `c`, unless the counter is full. -/
def bump (top : Nat) (counts : κ → Nat) (c : κ) : κ → Nat :=
  fun k => if k = c ∧ counts k ≠ top then counts k + 1 else counts k

theorem bump_self (top : Nat) (counts : κ → Nat) (c : κ) (h : counts c ≤ top) :
    bump top counts c c = min top (counts c + 1) := by
  unfold bump
  by_cases hc : counts c = top
  · rw [if_neg (fun h => h.2 hc)]
    omega
  · rw [if_pos ⟨rfl, hc⟩]
    omega

theorem bump_ne (top : Nat) (counts : κ → Nat) {c k : κ} (h : k ≠ c) :
    bump top counts c k = counts k := by
  unfold bump
  rw [if_neg (fun hk => h hk.1)]

/-- A key that a pass does not meet keeps its count. -/
theorem foldl_bump_of_notMem (top : Nat) (p : κ → Bool) {ks : List κ} {k : κ} (hk : k ∉ ks)
    (counts : κ → Nat) :
    (ks.foldl (fun counts c => if p c then bump top counts c else counts) counts) k = counts k := by
  induction ks generalizing counts with
  | nil => rfl
  | cons c ks ih =>
    rw [List.foldl_cons, ih (fun h => hk (List.mem_cons_of_mem _ h))]
    split
    next => exact bump_ne top counts (fun h => hk (h ▸ List.mem_cons_self))
    next => rfl

/-- A pass over the keys that bumps those that pass a test. -/
theorem foldl_bump (top : Nat) (p : κ → Bool) {ks : List κ} (hks : ks.Nodup) (counts : κ → Nat)
    {k : κ} (hk : counts k ≤ top) :
    (ks.foldl (fun counts c => if p c then bump top counts c else counts) counts) k =
      if k ∈ ks ∧ p k then min top (counts k + 1) else counts k := by
  induction ks generalizing counts with
  | nil => simp
  | cons c ks ih =>
    obtain ⟨hc, hrest⟩ := List.nodup_cons.mp hks
    rw [List.foldl_cons]
    by_cases hkc : k = c
    · subst hkc
      -- the rest of the pass does not meet this key again
      rw [foldl_bump_of_notMem top p hc]
      by_cases hp : p k = true
      · rw [if_pos hp, if_pos ⟨List.mem_cons_self, hp⟩]
        exact bump_self top counts k hk
      · rw [if_neg hp, if_neg (fun h => hp h.2)]
    · have hstep : (if p c then bump top counts c else counts) k = counts k := by
        split
        next => exact bump_ne top counts hkc
        next => rfl
      have hmem : k ∈ c :: ks ↔ k ∈ ks := by simp [hkc]
      rw [ih hrest _ (by omega), hstep]
      simp only [hmem]

omit [DecidableEq κ] in
/-- A pass whose entries bump what they hit. -/
theorem foldl_tally (top : Nat) (step : (κ → Nat) → ι → κ → Nat) (hit : ι → Bool) (k : κ)
    (h : ∀ counts e, counts k ≤ top →
      step counts e k = if hit e then min top (counts k + 1) else counts k)
    (es : List ι) (counts : κ → Nat) (hk : counts k ≤ top) :
    (es.foldl step counts) k = min top (counts k + es.countP hit) := by
  induction es generalizing counts with
  | nil =>
    simp only [List.foldl_nil, List.countP_nil]
    omega
  | cons e es ih =>
    have hstep := h counts e hk
    rw [List.foldl_cons, List.countP_cons]
    by_cases he : hit e = true
    · rw [if_pos he] at hstep
      rw [ih _ (by omega), hstep, if_pos he]
      omega
    · rw [if_neg he] at hstep
      rw [ih _ (by omega), hstep, if_neg he]
      omega

/-- Entries of two kinds that exclude each other are counted apart. -/
theorem countP_or {p q : ι → Bool} (h : ∀ e, p e = true → q e = false) (es : List ι) :
    es.countP (fun e => p e || q e) = es.countP p + es.countP q := by
  induction es with
  | nil => rfl
  | cons e es ih =>
    rw [List.countP_cons, List.countP_cons, List.countP_cons, ih]
    cases hp : p e with
    | true =>
      rw [h e hp]
      simp only [Bool.true_or, if_true, Bool.false_eq_true, if_false]
      omega
    | false =>
      simp only [Bool.false_or, Bool.false_eq_true, if_false]
      omega

end Rant.Lib
