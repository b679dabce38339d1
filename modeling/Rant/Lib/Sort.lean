import Mathlib.Algebra.Order.Ring.Int
import Mathlib.Data.List.Perm.Basic
/-!
# A shell sort and a lower bound search over a list

The two array algorithms of a C program without a library: a shell sort whose last pass
is an insertion sort (`shellSort`), and the binary search for the first element not
below a key (`lowerBound`). `lt` is the strict comparison the program calls. What the
proofs ask of it is that `lt` is the strict part of a total preorder: `Total` below.
-/

namespace Rant.Lib

variable {α : Type}

/-! ## The order -/

/-- `lt` is the strict part of a total preorder. -/
structure StrictWeak (lt : α → α → Bool) : Prop where
  irrefl : ∀ a, lt a a = false
  trans : ∀ a b c, lt a b = true → lt b c = true → lt a c = true
  /-- What is not below is at least, and at least composes. -/
  le_trans : ∀ a b c, lt b a = false → lt c b = false → lt c a = false

/-- No element is below an earlier one. -/
def Sorted (lt : α → α → Bool) (l : List α) : Prop := l.Pairwise fun a b => lt b a = false

/-! ## The shell sort -/

/-- The hole at `j` sinks by `gap` while the element before it is above `x`, which then
fills it: the inner loop of a shell sort. The first argument bounds the sinking. -/
def sink (lt : α → α → Bool) (gap : Nat) (x : α) : Nat → Nat → List α → List α
  | 0, j, l => l.set j x
  | n + 1, j, l =>
    if gap ≤ j then
      match l[j - gap]? with
      | some y => if lt x y then sink lt gap x n (j - gap) (l.set j y) else l.set j x
      | none => l.set j x
    else l.set j x

/-- The element at `i` sinks to its place among those `gap` apart before it. -/
def sinkAt (lt : α → α → Bool) (gap : Nat) (l : List α) (i : Nat) : List α :=
  match l[i]? with
  | some x => sink lt gap x i i l
  | none => l

/-- One pass over the positions from `gap` on. -/
def shellPass (lt : α → α → Bool) (gap : Nat) (l : List α) : List α :=
  (List.range (l.length - gap)).foldl (fun l k => sinkAt lt gap l (gap + k)) l

/-- The passes at `gap`, `gap / 2` and so on down to 1. -/
def shellFrom (lt : α → α → Bool) : Nat → Nat → List α → List α
  | 0, _, l => l
  | n + 1, gap, l => if gap = 0 then l else shellFrom lt n (gap / 2) (shellPass lt gap l)

/-- A shell sort. -/
def shellSort (lt : α → α → Bool) (l : List α) : List α :=
  shellFrom lt l.length (l.length / 2) l

variable {lt : α → α → Bool} {gap n : Nat} {x : α}

theorem sink_perm (hgap : 0 < gap) :
    ∀ {j : Nat} {l : List α}, j < l.length → (sink lt gap x n j l).Perm (l.set j x) := by
  induction n with
  | zero => intro j l _; exact List.Perm.refl _
  | succ n ih =>
    intro j l hj
    unfold sink
    split
    next hle =>
      split
      next y hy =>
        split
        next =>
          have hsub : j - gap < l.length := by omega
          have hne : j - gap ≠ j := by omega
          refine (ih (by rw [List.length_set]; exact hsub)).trans ?_
          -- the hole moved: `x` and `y` changed places
          have hswap := @List.set_set_perm _ (l.set j x) (j - gap) j
            (by rw [List.length_set]; exact hsub) (by rw [List.length_set]; exact hj)
          have hy' : l[j - gap] = y := (List.getElem?_eq_some_iff.mp hy).2
          rw [List.getElem_set_self, List.getElem_set_ne (by omega), hy'] at hswap
          rw [List.set_comm _ _ hne, List.set_set] at hswap
          exact hswap
        next => exact List.Perm.refl _
      next => exact List.Perm.refl _
    next => exact List.Perm.refl _

theorem length_sink :
    ∀ {j : Nat} {l : List α}, (sink lt gap x n j l).length = l.length := by
  induction n with
  | zero => intro j l; exact List.length_set
  | succ n ih =>
    intro j l
    unfold sink
    split
    next =>
      split
      next =>
        split
        next => rw [ih, List.length_set]
        next => exact List.length_set
      next => exact List.length_set
    next => exact List.length_set

theorem sinkAt_perm (hgap : 0 < gap) (l : List α) (i : Nat) :
    (sinkAt lt gap l i).Perm l := by
  unfold sinkAt
  split
  next x hx =>
    obtain ⟨hi, hx⟩ := List.getElem?_eq_some_iff.mp hx
    have hperm : (sink lt gap x i i l).Perm (l.set i x) := sink_perm hgap hi
    rw [← hx, List.set_getElem_self] at hperm
    rw [← hx]
    exact hperm
  next => exact List.Perm.refl _

theorem length_sinkAt (l : List α) (i : Nat) :
    (sinkAt lt gap l i).length = l.length := by
  unfold sinkAt
  split
  next => exact length_sink
  next => rfl

theorem shellPass_perm (hgap : 0 < gap) (l : List α) :
    (shellPass lt gap l).Perm l := by
  unfold shellPass
  induction List.range (l.length - gap) generalizing l with
  | nil => exact List.Perm.refl _
  | cons k ks ih => exact (ih _).trans (sinkAt_perm hgap l (gap + k))

theorem shellFrom_perm : ∀ (gap : Nat) (l : List α),
    (shellFrom lt n gap l).Perm l := by
  induction n with
  | zero => intro gap l; exact List.Perm.refl _
  | succ n ih =>
    intro gap l
    unfold shellFrom
    split
    next => exact List.Perm.refl _
    next hgap => exact (ih _ _).trans (shellPass_perm (Nat.pos_of_ne_zero hgap) l)

/-- A shell sort reorders. -/
theorem shellSort_perm (lt : α → α → Bool) (l : List α) : (shellSort lt l).Perm l :=
  shellFrom_perm _ _

/-! ### The last pass -/

/-- The first `i` elements are sorted. -/
def SortedTo (lt : α → α → Bool) (l : List α) (i : Nat) : Prop :=
  ∀ p q a b, p < q → q < i → l[p]? = some a → l[q]? = some b → lt b a = false

/-- Sorted up to `i` but for the hole at `j`, with `x` below what is past the hole. -/
structure HoleAt (lt : α → α → Bool) (x : α) (i j : Nat) (l : List α) : Prop where
  rest : ∀ p q a b, p < q → q ≤ i → p ≠ j → q ≠ j → l[p]? = some a → l[q]? = some b →
    lt b a = false
  above : ∀ q b, j < q → q ≤ i → l[q]? = some b → lt b x = false

variable {i : Nat} {l : List α}

/-- The hole is filled where nothing before it is above `x`. -/
theorem HoleAt.fill {j : Nat} (h : HoleAt lt x i j l)
    (hbelow : ∀ p a, p < j → l[p]? = some a → lt x a = false) : SortedTo lt (l.set j x) (i + 1) := by
  intro p q a b hpq hq ha hb
  rw [List.getElem?_set] at ha hb
  by_cases hpj : j = p
  · subst hpj
    rw [if_neg (by omega)] at hb
    rw [if_pos rfl] at ha
    split at ha
    next =>
      rw [← Option.some.inj ha]
      exact h.above q b hpq (by omega) hb
    next => cases ha
  · rw [if_neg hpj] at ha
    by_cases hqj : j = q
    · subst hqj
      rw [if_pos rfl] at hb
      split at hb
      next =>
        rw [← Option.some.inj hb]
        exact hbelow p a hpq ha
      next => cases hb
    · rw [if_neg hqj] at hb
      exact h.rest p q a b hpq (by omega) (Ne.symm hpj) (Ne.symm hqj) ha hb

/-- A pass at gap 1 inserts: the hole sinks until nothing before it is above `x`. -/
theorem sink_sorted (ho : StrictWeak lt) :
    ∀ {j : Nat} {l : List α}, i < l.length → j ≤ n → j ≤ i → HoleAt lt x i j l →
      SortedTo lt (sink lt 1 x n j l) (i + 1) := by
  induction n with
  | zero =>
    intro j l _ hj _ h
    exact h.fill fun p a hp => absurd hp (by omega)
  | succ n ih =>
    intro j l hi hjn hji h
    unfold sink
    split
    next hj =>
      split
      next y hy =>
        split
        next hlt =>
          refine ih (by rw [List.length_set]; exact hi) (by omega) (by omega) ⟨?_, ?_⟩
          · intro p q a b hpq hq hp hq' ha hb
            rw [List.getElem?_set] at ha hb
            by_cases hpj : j = p
            · subst hpj
              rw [if_neg (by omega)] at hb
              rw [if_pos rfl] at ha
              split at ha
              next =>
                rw [← Option.some.inj ha]
                exact h.rest (j - 1) q y b (by omega) hq (by omega) (by omega) hy hb
              next => cases ha
            · rw [if_neg hpj] at ha
              by_cases hqj : j = q
              · subst hqj
                rw [if_pos rfl] at hb
                split at hb
                next =>
                  rw [← Option.some.inj hb]
                  exact h.rest p (j - 1) a y (by omega) (by omega) (by omega) (by omega) ha hy
                next => cases hb
              · rw [if_neg hqj] at hb
                exact h.rest p q a b hpq hq (Ne.symm hpj) (Ne.symm hqj) ha hb
          · intro q b hq hqi hb
            rw [List.getElem?_set] at hb
            by_cases hqj : j = q
            · subst hqj
              rw [if_pos rfl] at hb
              split at hb
              next =>
                rw [← Option.some.inj hb]
                by_contra hc
                rw [Bool.not_eq_false] at hc
                have := ho.trans x y x hlt hc
                rw [ho.irrefl] at this
                cases this
              next => cases hb
            · rw [if_neg hqj] at hb
              exact h.above q b (by omega) hqi hb
        next hlt =>
          -- `y`, the last before the hole, is not above `x`, so nothing before is
          rw [Bool.not_eq_true] at hlt
          refine h.fill fun p a hp ha => ?_
          by_cases hpy : p = j - 1
          · rw [hpy] at ha
            rw [← Option.some.inj (hy.symm.trans ha)]
            exact hlt
          · have hya := h.rest p (j - 1) a y (by omega) (by omega) (by omega) (by omega) ha hy
            exact ho.le_trans a y x hya hlt
      next hy =>
        rw [List.getElem?_eq_none_iff] at hy
        omega
    next hj =>
      exact h.fill fun p a hp => absurd hp (by omega)

theorem sinkAt_sorted (ho : StrictWeak lt)
    (hi : i < l.length) (h : SortedTo lt l i) : SortedTo lt (sinkAt lt 1 l i) (i + 1) := by
  unfold sinkAt
  rw [List.getElem?_eq_getElem hi]
  refine sink_sorted ho hi (Nat.le_refl _) (Nat.le_refl _) ⟨?_, ?_⟩
  · intro p q a b hpq hq _ hq' ha hb
    exact h p q a b hpq (by omega) ha hb
  · intro q b hq hqi
    exact absurd hq (by omega)

theorem shellPass_sorted (ho : StrictWeak lt) (l : List α) :
    SortedTo lt (shellPass lt 1 l) l.length := by
  have hpre : ∀ n, n ≤ l.length - 1 →
      ((List.range n).foldl (fun l k => sinkAt lt 1 l (1 + k)) l).length = l.length ∧
      SortedTo lt ((List.range n).foldl (fun l k => sinkAt lt 1 l (1 + k)) l) (n + 1) := by
    intro n
    induction n with
    | zero =>
      intro _
      exact ⟨rfl, fun p q _ _ hpq hq => absurd hpq (by omega)⟩
    | succ n ih =>
      intro hn
      obtain ⟨hlen, hs⟩ := ih (by omega)
      rw [List.range_succ, List.foldl_append]
      refine ⟨(length_sinkAt _ _).trans hlen, ?_⟩
      have hs' := sinkAt_sorted ho (by omega) hs
      rw [Nat.add_comm n 1] at hs'
      rw [Nat.add_comm n 1]
      exact hs'
  intro p q a b hpq hq
  exact (hpre (l.length - 1) (Nat.le_refl _)).2 p q a b hpq (by omega)

theorem shellFrom_sorted (ho : StrictWeak lt) : ∀ (gap : Nat)
    (l : List α), 0 < gap → gap ≤ n → SortedTo lt (shellFrom lt n gap l) l.length := by
  induction n with
  | zero => intro gap l hgap hn; exact absurd hgap (by omega)
  | succ n ih =>
    intro gap l hgap hn
    unfold shellFrom
    rw [if_neg (by omega)]
    by_cases hone : gap = 1
    · subst hone
      have hstop : shellFrom lt n (1 / 2) (shellPass lt 1 l) = shellPass lt 1 l := by
        cases n with
        | zero => rfl
        | succ n => rfl
      rw [hstop]
      exact shellPass_sorted ho l
    · have hrec := ih (gap / 2) (shellPass lt gap l) (by omega) (by omega)
      rw [(shellPass_perm hgap l).length_eq] at hrec
      exact hrec

/-- A shell sort sorts. -/
theorem shellSort_sorted (ho : StrictWeak lt) (l : List α) :
    Sorted lt (shellSort lt l) := by
  have hlen := (shellSort_perm lt l).length_eq
  have hto : SortedTo lt (shellSort lt l) l.length := by
    by_cases hl : l.length / 2 = 0
    · intro p q a b hpq hq
      exact absurd hpq (by omega)
    · exact shellFrom_sorted ho _ l (Nat.pos_of_ne_zero hl) (Nat.div_le_self _ _)
  refine List.pairwise_iff_getElem.mpr fun p q hp hq hpq => ?_
  exact hto p q _ _ hpq (by omega) (List.getElem?_eq_getElem hp) (List.getElem?_eq_getElem hq)

/-! ## The lower bound -/

/-- The binary search over `[lo, hi)`: `below` says an element is below the key. -/
def boundFrom (below : α → Bool) (l : List α) : Nat → Nat → Nat → Nat
  | 0, lo, _ => lo
  | n + 1, lo, hi =>
    if lo < hi then
      match l[(lo + hi) / 2]? with
      | some x =>
        if below x then boundFrom below l n ((lo + hi) / 2 + 1) hi
        else boundFrom below l n lo ((lo + hi) / 2)
      | none => lo
    else lo

/-- The first element not below the key. -/
def lowerBound (below : α → Bool) (l : List α) : Nat := boundFrom below l l.length 0 l.length

/-- Once an element is not below the key, none after it is. -/
def Split (below : α → Bool) (l : List α) : Prop :=
  l.Pairwise fun a b => below b = true → below a = true

theorem boundFrom_spec {below : α → Bool} (hs : Split below l) :
    ∀ {lo hi : Nat}, hi ≤ lo + n → hi ≤ l.length →
      (∀ i x, i < lo → l[i]? = some x → below x = true) →
      (∀ i x, hi ≤ i → l[i]? = some x → below x = false) →
      ∀ i x, l[i]? = some x → (below x = true ↔ i < boundFrom below l n lo hi) := by
  induction n with
  | zero =>
    intro lo hi hn hlen hlo hhi i x hx
    show below x = true ↔ i < lo
    refine ⟨fun hb => ?_, fun h => hlo i x h hx⟩
    by_contra hc
    rw [hhi i x (by omega) hx] at hb
    cases hb
  | succ n ih =>
    intro lo hi hn hlen hlo hhi i x hx
    unfold boundFrom
    split
    next hlt =>
      have hmid : (lo + hi) / 2 < l.length := by omega
      rw [List.getElem?_eq_getElem hmid]
      dsimp only
      split
      next hb =>
        refine ih (by omega) hlen (fun k y hk hy => ?_) hhi i x hx
        obtain ⟨hkl, rfl⟩ := List.getElem?_eq_some_iff.mp hy
        by_cases hkm : k = (lo + hi) / 2
        · subst hkm
          exact hb
        · exact List.pairwise_iff_getElem.mp hs k _ hkl hmid (by omega) hb
      next hb =>
        refine ih (by omega) (by omega) hlo (fun k y hk hy => ?_) i x hx
        obtain ⟨hkl, rfl⟩ := List.getElem?_eq_some_iff.mp hy
        by_cases hkm : k = (lo + hi) / 2
        · subst hkm
          exact Bool.not_eq_true _ ▸ hb
        · by_contra hc
          rw [Bool.not_eq_false] at hc
          exact hb (List.pairwise_iff_getElem.mp hs _ k hmid hkl (by omega) hc)
    next =>
      refine ⟨fun hb => ?_, fun h => hlo i x h hx⟩
      by_contra hc
      rw [hhi i x (by omega) hx] at hb
      cases hb

/-- The elements before the lower bound are those below the key. -/
theorem lowerBound_spec {below : α → Bool} (hs : Split below l)
    (hx : l[i]? = some x) : below x = true ↔ i < lowerBound below l :=
  boundFrom_spec hs (by omega) (Nat.le_refl _) (fun i x hi => absurd hi (Nat.not_lt_zero _))
    (fun i x hi hx => absurd (List.getElem?_eq_some_iff.mp hx).1 (by omega)) i x hx

/-- Over a list sorted by `key`, the run of elements at `h` from the lower bound on is all of
them. -/
theorem equalRun_any {key : α → Nat} (hs : l.Pairwise fun a b => key a ≤ key b)
    (h : Nat) (p : α → Bool) :
    ((l.drop (lowerBound (fun x => decide (key x < h)) l)).takeWhile fun x => key x = h).any p =
      l.any fun x => decide (key x = h) && p x := by
  obtain ⟨lo, hlo⟩ : ∃ lo, lo = lowerBound (fun x => decide (key x < h)) l := ⟨_, rfl⟩
  have hsplit : Split (fun x => decide (key x < h)) l := by
    refine hs.imp fun {a b} hab hb => ?_
    have := of_decide_eq_true hb
    exact decide_eq_true (by omega)
  have hspec : ∀ i x, l[i]? = some x → (key x < h ↔ i < lo) := by
    intro i x hx
    rw [hlo, ← lowerBound_spec hsplit hx, decide_eq_true_eq]
  rw [← hlo]
  have htake : (l.take lo).any (fun x => decide (key x = h) && p x) = false := by
    rw [List.any_eq_false]
    intro x hx
    obtain ⟨i, hi, rfl⟩ := List.mem_take_iff_getElem.mp hx
    have hbelow := (hspec i _ (List.getElem?_eq_getElem (by omega))).mpr (by omega)
    simp [Nat.ne_of_lt hbelow]
  have hdrop : ∀ x ∈ l.drop lo, h ≤ key x := by
    intro x hx
    obtain ⟨i, hi, rfl⟩ := List.mem_drop_iff_getElem.mp hx
    by_contra hc
    have hge := (hspec (i + lo) _ (List.getElem?_eq_getElem (by omega))).mp (by
      rw [show l[i + lo] = l[lo + i] from getElem_congr rfl (Nat.add_comm i lo) _]
      omega)
    omega
  have hsd : (l.drop lo).Pairwise fun a b => key a ≤ key b := hs.sublist (List.drop_sublist _ _)
  rw [← List.take_append_drop lo l, List.any_append, htake, Bool.false_or, List.take_append_drop]
  revert hdrop hsd
  induction l.drop lo with
  | nil => intro _ _; rfl
  | cons x xs ih =>
    intro hge hsorted
    obtain ⟨hx, hxs⟩ := List.pairwise_cons.mp hsorted
    by_cases hk : key x = h
    · rw [List.takeWhile_cons, if_pos (decide_eq_true hk), List.any_cons, List.any_cons,
        ih (fun y hy => hge y (List.mem_cons_of_mem x hy)) hxs, decide_eq_true hk, Bool.true_and]
    rw [List.takeWhile_cons, if_neg (by simp [hk]), List.any_cons, decide_eq_false hk,
      Bool.false_and, Bool.false_or, List.any_nil]
    symm
    rw [List.any_eq_false]
    intro y hy
    have := hx y hy
    have := hge x List.mem_cons_self
    simp [show key y ≠ h by omega]

end Rant.Lib
