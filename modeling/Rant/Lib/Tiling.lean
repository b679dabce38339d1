import Mathlib.Algebra.Order.Ring.Int
/-!
# Tilings of an interval by consecutive spans

A ledger that accounts for every number of an interval `[a, b)` exactly once,
in order, is a list of spans each of which starts where the one before it
ended. `Tiles a l b` says so. Everything a consumer wants of such a ledger
follows from it once: the spans are in increasing order (`tiles_pairwise`),
every number of the interval lies in exactly one of them (`tiles_countP`),
and the interval's length is the sum of their lengths (`tiles_sum`).
-/

namespace Rant.Lib

/-- The numbers `[base, base + count)`. -/
structure Span where
  base : Nat
  count : Nat
  deriving Repr, DecidableEq

namespace Span

/-- The first number past the span. -/
def stop (s : Span) : Nat := s.base + s.count

/-- Whether a number lies in the span. -/
def covers (q : Nat) (s : Span) : Bool := decide (s.base ≤ q ∧ q < s.stop)

theorem covers_iff {q : Nat} {s : Span} :
    s.covers q = true ↔ s.base ≤ q ∧ q < s.base + s.count :=
  decide_eq_true_iff

end Span

/-- `l` is a list of non-empty spans that tile `[a, b)` from left to right. -/
def Tiles : Nat → List Span → Nat → Prop
  | a, [], b => a = b
  | a, s :: l, b => s.base = a ∧ 0 < s.count ∧ Tiles s.stop l b

variable {a b : Nat}

@[simp] theorem tiles_nil : Tiles a [] b ↔ a = b := Iff.rfl

/-- Two tilings that meet make one. -/
theorem tiles_append : ∀ {a b c : Nat} {l m : List Span},
    Tiles a l b → Tiles b m c → Tiles a (l ++ m) c
  | _, _, _, [], _, hl, hm => by
    rw [tiles_nil] at hl
    subst hl
    exact hm
  | _, _, _, _ :: _, _, hl, hm => ⟨hl.1, hl.2.1, tiles_append hl.2.2 hm⟩

variable {l : List Span}

/-- A tiling grows by a span that starts at its end. -/
theorem tiles_snoc {s : Span} (hl : Tiles a l b)
    (hb : s.base = b) (hc : 0 < s.count) : Tiles a (l ++ [s]) s.stop :=
  tiles_append hl ⟨hb, hc, rfl⟩

/-- A tiling never runs backwards. -/
theorem tiles_le : ∀ {a b : Nat} {l : List Span}, Tiles a l b → a ≤ b
  | _, _, [], h => Nat.le_of_eq h
  | _, _, s :: _, h => by
    have hrec := tiles_le h.2.2
    have hb := h.1
    unfold Span.stop at hrec
    omega

/-- Every span of a tiling lies inside the tiled interval. -/
theorem tiles_mem : ∀ {a b : Nat} {l : List Span} {s : Span}, Tiles a l b → s ∈ l →
    a ≤ s.base ∧ 0 < s.count ∧ s.stop ≤ b
  | _, _, [], _, _, hs => absurd hs (List.not_mem_nil)
  | a, b, t :: l, s, h, hs => by
    have htl : t.stop ≤ b := tiles_le h.2.2
    rcases List.mem_cons.mp hs with rfl | hs
    · exact ⟨Nat.le_of_eq h.1.symm, h.2.1, htl⟩
    · have hrec := tiles_mem h.2.2 hs
      refine ⟨?_, hrec.2⟩
      have hb := h.1
      have := hrec.1
      unfold Span.stop at this
      omega

/-- The length of the tiled interval is the sum of the spans' lengths. -/
theorem tiles_sum : ∀ {a b : Nat} {l : List Span}, Tiles a l b →
    b = a + (l.map Span.count).sum
  | _, _, [], h => h.symm
  | a, b, s :: l, h => by
    have hrec := tiles_sum h.2.2
    have hb := h.1
    simp only [List.map_cons, List.sum_cons]
    unfold Span.stop at hrec
    omega

/-- The spans of a tiling follow one another: each ends before any later one
starts. -/
theorem tiles_pairwise : ∀ {a b : Nat} {l : List Span}, Tiles a l b →
    l.Pairwise fun s t => s.stop ≤ t.base
  | _, _, [], _ => List.Pairwise.nil
  | _, _, _ :: _, h =>
    List.Pairwise.cons (fun _ ht => (tiles_mem h.2.2 ht).1) (tiles_pairwise h.2.2)

/-- No span of a tiling of `[a, b)` covers a number outside it. -/
theorem tiles_countP_lt : ∀ {a b : Nat} {l : List Span} {q : Nat}, Tiles a l b → q < a →
    l.countP (Span.covers q) = 0 := by
  intro a b l q h hq
  rw [List.countP_eq_zero]
  intro s hs hcov
  have hm := tiles_mem h hs
  have hc := Span.covers_iff.mp hcov
  omega

theorem tiles_countP_ge {q : Nat} (h : Tiles a l b) (hq : b ≤ q) :
    l.countP (Span.covers q) = 0 := by
  rw [List.countP_eq_zero]
  intro s hs hcov
  have hm := tiles_mem h hs
  have hc := Span.covers_iff.mp hcov
  unfold Span.stop at hm
  omega

/-- Every number of the tiled interval lies in exactly one span. -/
theorem tiles_countP : ∀ {a b : Nat} {l : List Span} {q : Nat}, Tiles a l b → a ≤ q → q < b →
    l.countP (Span.covers q) = 1
  | _, _, [], _, h, ha, hb => by
    rw [tiles_nil] at h
    omega
  | a, b, s :: l, q, h, ha, hb => by
    rw [List.countP_cons]
    by_cases hq : q < s.stop
    · -- inside the first span, so before every later one
      have hcov : s.covers q = true := Span.covers_iff.mpr ⟨by have := h.1; omega, hq⟩
      rw [tiles_countP_lt h.2.2 hq, hcov]
      rfl
    · have hcov : s.covers q = false := by
        rw [Bool.eq_false_iff]
        intro hc
        exact hq (Span.covers_iff.mp hc).2
      rw [tiles_countP h.2.2 (Nat.le_of_not_lt hq) hb, hcov]
      rfl

/-- Of the items whose spans tile an interval an earlier one ends before a later one
starts. -/
theorem tiles_getElem_le {α : Type} {f : α → Span} {l : List α}
    (h : Tiles a (l.map f) b) {i j : Nat} (hi : i < l.length) (hj : j < l.length)
    (hij : i < j) : (f l[i]).stop ≤ (f l[j]).base := by
  have hp := List.pairwise_iff_getElem.mp (tiles_pairwise h) i j
    (by rw [List.length_map]; omega) (by rw [List.length_map]; exact hj) hij
  rw [List.getElem_map, List.getElem_map] at hp
  exact hp

/-- Two items whose spans share a number are one. -/
theorem tiles_inj {α : Type} {f : α → Span} {q : Nat} {l : List α}
    (h : Tiles a (l.map f) b) {x y : α} (hx : x ∈ l) (hy : y ∈ l)
    (hqx : (f x).base ≤ q ∧ q < (f x).stop) (hqy : (f y).base ≤ q ∧ q < (f y).stop) : x = y := by
  obtain ⟨i, hi, rfl⟩ := List.mem_iff_getElem.mp hx
  obtain ⟨j, hj, rfl⟩ := List.mem_iff_getElem.mp hy
  rcases Nat.lt_trichotomy i j with hlt | heq | hgt
  · have := tiles_getElem_le h hi hj hlt
    omega
  · subst heq
    rfl
  · have := tiles_getElem_le h hj hi hgt
    omega

/-- Two neighbours of a tiling meet. -/
theorem tiles_next (h : Tiles a l b) {i : Nat} {u v : Span}
    (hu : l[i]? = some u) (hv : l[i + 1]? = some v) : v.base = u.stop := by
  induction l generalizing a i with
  | nil => cases hu
  | cons w l ih =>
    obtain ⟨_, _, hrest⟩ := h
    cases i with
    | succ i => exact ih hrest hu hv
    | zero =>
      cases l with
      | nil => cases hv
      | cons z l =>
        rw [← Option.some.inj hu, ← Option.some.inj hv]
        exact hrest.1

/-- The last span of a tiling ends where it does. -/
theorem tiles_last (h : Tiles a l b) {u : Span}
    (hu : l.getLast? = some u) : b = u.stop := by
  induction l generalizing a with
  | nil => cases hu
  | cons w l ih =>
    obtain ⟨_, _, hrest⟩ := h
    cases l with
    | nil =>
      rw [← Option.some.inj hu]
      exact hrest.symm
    | cons z l => exact ih hrest hu

end Rant.Lib
