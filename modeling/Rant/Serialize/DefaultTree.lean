import Rant.Serialize.PlaceTree
/-!
# The defaults of a tree's rows

The second loop of `i_rant_schema_place` over the rows of a tree, children first. A member's
default frames join its record, the message or the element around it, and an element's
default body ends up in its own row (`Ty.MinsAt`). Every length the loop checks was checked
by the measuring walk already, so over a tree it never refuses (`Ty.mins`).
-/

namespace Rant.Serialize

open Rant.Lib

/-! ## Part of the loop -/

/-- The second loop over `k` rows from `i` on, last first. -/
def placeMinRange (i : Nat) : Nat → Table → Nat → Option (Table × Nat)
  | 0, t, root => some (t, root)
  | k + 1, t, root => (placeMin t root (i + k)).bind fun r => placeMinRange i k r.1 r.2

theorem placeMins_eq : ∀ (n : Nat) (t : Table) (root : Nat),
    placeMins n t root = placeMinRange 0 n t root := by
  intro n
  induction n with
  | zero => intros; rfl
  | succ n ih =>
    intro t root
    simp only [placeMins, placeMinRange, Option.bind_eq_bind, ih, Nat.zero_add]

theorem placeMinRange_one (i : Nat) (t : Table) (root : Nat) :
    placeMinRange i 1 t root = placeMin t root i := by
  simp only [placeMinRange, Nat.add_zero]
  cases placeMin t root i <;> rfl

/-- The later rows are run first. -/
theorem placeMinRange_add (i a : Nat) : ∀ (b : Nat) (t : Table) (root : Nat),
    placeMinRange i (a + b) t root =
      (placeMinRange (i + a) b t root).bind fun r => placeMinRange i a r.1 r.2 := by
  intro b
  induction b with
  | zero => intros; rfl
  | succ b ih =>
    intro t root
    rw [← Nat.add_assoc, placeMinRange, placeMinRange, Nat.add_assoc i a b]
    cases placeMin t root (i + (a + b)) with
    | none => rfl
    | some r => exact ih r.1 r.2

/-! ## What a part of the loop leaves -/

/-- What record `r` has summed up so far. -/
def recMin (t : Table) (root : Nat) : Option Nat → Nat
  | none => root
  | some k => (rowOf t k).dmin

/-- Record `r` lies outside the rows `[i, n)`. -/
def Outside (i n : Nat) : Option Nat → Prop
  | none => True
  | some k => k < i ∨ n ≤ k

/-- The rows `[i, n)` were run: outside them only record `r` grew, by `add`. -/
structure Mins (t u : Table) (root root' i n : Nat) (r : Option Nat) (add : Nat) : Prop where
  same : SameButMin t u
  grown : ∀ q, Outside i n q → recMin u root' q = recMin t root q + if q = r then add else 0

theorem Outside.mono {i j m n : Nat} {q : Option Nat} (h : Outside i n q) (hi : i ≤ j)
    (hm : m ≤ n) : Outside j m q := by
  cases q with
  | none => trivial
  | some k =>
    have h' : k < i ∨ n ≤ k := h
    exact h'.imp (by omega) (by omega)

variable {t u v : Table} {root root' root'' i m n : Nat} {r : Option Nat}

theorem mins_refl (t : Table) (root i n : Nat) (r : Option Nat) : Mins t t root root i n r 0 := by
  refine ⟨sameButMin_refl t, fun q _ => ?_⟩
  simp

/-- The later rows, then the earlier ones. -/
theorem Mins.append {a b : Nat} (h : Mins t u root root' m n r a)
    (h' : Mins u v root' root'' i m r b) (hi : i ≤ m) (hm : m ≤ n) :
    Mins t v root root'' i n r (a + b) := by
  refine ⟨sameButMin_trans h.same h'.same, fun q hq => ?_⟩
  rw [h'.grown q (hq.mono (Nat.le_refl i) hm), h.grown q (hq.mono hi (Nat.le_refl n))]
  split <;> omega

/-- No growth is no growth of any record. -/
theorem Mins.silent {r : Option Nat} (h : Mins t u root root' i n r 0) (r' : Option Nat) :
    Mins t u root root' i n r' 0 := by
  refine ⟨h.same, fun q hq => ?_⟩
  rw [h.grown q hq]
  simp

/-- Growth of a record among the rows themselves is not seen outside. -/
theorem Mins.inner {a k : Nat} (h : Mins t u root root' m n (some k) a) (hi : i ≤ m)
    (hk : i ≤ k ∧ k < n) : Mins t u root root' i n none 0 := by
  refine ⟨h.same, fun q hq => ?_⟩
  rw [h.grown q (hq.mono hi (Nat.le_refl n)), if_neg]
  · simp
  · rintro rfl
    have hq' : k < i ∨ n ≤ k := hq
    omega

/-- Rows outside keep their defaults, the record aside. -/
theorem Mins.keep {a j : Nat} (h : Mins t u root root' i n r a) (hj : j < i ∨ n ≤ j)
    (hr : a = 0 ∨ r ≠ some j) : (rowOf u j).dmin = (rowOf t j).dmin := by
  have hg := h.grown (some j) hj
  simp only [recMin] at hg
  rw [hg]
  rcases hr with rfl | hr
  · simp
  · rw [if_neg]
    · rfl
    · intro he
      exact hr he.symm

/-! ## The defaults a tree leaves -/

/-- The default body a row keeps. -/
def keptMin (ty : Ty) : Nat := if ty.measure.var = true then ty.measure.body else 0

mutual
/-- The rows from `i` on hold the defaults of a type; `elem` when it is an array's element. -/
def Ty.MinsAt (T : Nat → Field) : Ty → Nat → Bool → Prop
  | .named _ ty, i, elem => ty.MinsAt T i elem
  | .arr count e, i, _ => (T i).dmin = keptMin (.arr count e) ∧ e.MinsAt T (i + 1) true
  | .varr e, i, _ => (T i).dmin = keptMin (.varr e) ∧ e.MinsAt T (i + 1) true
  | .struct ms, i, elem =>
    (T i).dmin = (if elem = true then keptMin (.struct ms) else 0) ∧ ms.MinsAt T (i + 1)
  | _, i, _ => (T i).dmin = 0
/-- The rows from `i` on hold the defaults of a record's members. -/
def Members.MinsAt (T : Nat → Field) : Members → Nat → Prop
  | .nil, _ => True
  | .cons _ ty rest, i => ty.MinsAt T i false ∧ rest.MinsAt T (i + 1 + ty.rows)
end

mutual
theorem Ty.MinsAt.congr {T T' : Nat → Field} : ∀ (ty : Ty) (i : Nat) (elem : Bool),
    ty.MinsAt T i elem → (∀ j, i ≤ j → j < i + 1 + ty.rows → (T' j).dmin = (T j).dmin) →
    ty.MinsAt T' i elem
  | .named _ ty, i, elem, h, hT => Ty.MinsAt.congr ty i elem h hT
  | .arr count e, i, elem, h, hT => by
    simp only [Ty.rows] at hT
    exact ⟨(hT i (by omega) (by omega)).trans h.1,
      Ty.MinsAt.congr e (i + 1) true h.2 fun j h1 h2 => hT j (by omega) (by omega)⟩
  | .varr e, i, elem, h, hT => by
    simp only [Ty.rows] at hT
    exact ⟨(hT i (by omega) (by omega)).trans h.1,
      Ty.MinsAt.congr e (i + 1) true h.2 fun j h1 h2 => hT j (by omega) (by omega)⟩
  | .struct ms, i, elem, h, hT => by
    simp only [Ty.rows] at hT
    exact ⟨(hT i (by omega) (by omega)).trans h.1,
      Members.MinsAt.congr ms (i + 1) h.2 fun j h1 h2 => hT j (by omega) (by omega)⟩
  | .scalar _, i, _, h, hT | .str _, i, _, h, hT | .vstr, i, _, h, hT | .map, i, _, h, hT
  | .enum _ _, i, _, h, hT => (hT i (by omega) (by omega)).trans h
theorem Members.MinsAt.congr {T T' : Nat → Field} : ∀ (ms : Members) (i : Nat),
    ms.MinsAt T i → (∀ j, i ≤ j → j < i + ms.rows → (T' j).dmin = (T j).dmin) → ms.MinsAt T' i
  | .nil, _, _, _ => trivial
  | .cons _ ty rest, i, h, hT => by
    simp only [Members.rows] at hT
    exact ⟨Ty.MinsAt.congr ty i false h.1 fun j h1 h2 => hT j (by omega) (by omega),
      Members.MinsAt.congr rest _ h.2 fun j h1 h2 => hT j (by omega) (by omega)⟩
end

/-- An element's row holds its default body. -/
theorem Ty.MinsAt.elem {T : Nat → Field} : ∀ (ty : Ty) (i : Nat),
    ty.MinsAt T i true → (T i).dmin = keptMin ty
  | .named _ ty, i, h => Ty.MinsAt.elem ty i h
  | .arr _ _, _, h | .varr _, _, h | .struct _, _, h => h.1
  | .scalar _, _, h | .str _, _, h | .vstr, _, h | .map, _, h | .enum _ _, _, h => h

mutual
/-- What is not variable rides no frame. -/
theorem Ty.fixed_frames : ∀ (ty : Ty), ty.measure.var = false → ty.measure.frames = 0
  | .named _ ty, h => Ty.fixed_frames ty h
  | .arr count e, h => by
    simp only [Ty.measure] at h ⊢
    cases he : e.measure.var with
    | true =>
      rw [he] at h
      exact absurd h (by simp)
    | false => rfl
  | .varr e, h => by simp [Ty.measure] at h
  | .struct ms, h => Members.fixed_frames ms h
  | .scalar _, _ => rfl
  | .str _, _ => rfl
  | .vstr, h => by simp [Ty.measure] at h
  | .map, h => by simp [Ty.measure] at h
  | .enum _ _, _ => rfl
theorem Members.fixed_frames : ∀ (ms : Members), ms.measure.var = false → ms.measure.frames = 0
  | .nil, _ => rfl
  | .cons _ ty rest, h => by
    have h' : (ty.measure.var || rest.measure.var) = false := h
    simp only [Bool.or_eq_false_iff] at h'
    have hs : ty.measure.frames + rest.measure.frames = 0 := by
      rw [Ty.fixed_frames ty h'.1, Members.fixed_frames rest h'.2]
    exact hs
end

/-! ## One row -/

theorem NodeReady.same {ty : Ty} {elem : Bool} (h : NodeReady t ty i r elem)
    (hs : SameButMin t u) : NodeReady u ty i r elem := by
  have hrow := hs.row i
  refine ⟨?_, ?_, ?_, ?_, ?_⟩
  · rw [hrow]
    exact h.kind
  · rw [hrow]
    exact h.var
  · rw [hrow]
    exact h.size
  · rw [hrow]
    exact h.record
  · have hp : (rowOf u i).parent = (rowOf t i).parent := by rw [hrow]
    have hpar := h.parent
    rw [hp]
    unfold Sits at hpar ⊢
    cases hq : (rowOf t i).parent with
    | none =>
      rw [hq] at hpar
      exact hpar
    | some q =>
      rw [hq] at hpar
      dsimp only at hpar ⊢
      rw [hs.row q]
      exact hpar

/-- A fixed row is passed over. -/
theorem placeMin_fixed (root : Nat) (h : (rowOf u i).var = false) :
    placeMin u root i = some (u, root) := by
  unfold placeMin
  rw [if_pos h]

/-- So is a struct that is not an element: its frames join its record. -/
theorem placeMin_struct {ms : Members} (root : Nat) (h : NodeReady u (.struct ms) i r false) :
    placeMin u root i = some (u, root) := by
  have hd : defaultBody u i = none := by
    have hpar := h.parent
    unfold Sits at hpar
    unfold defaultBody
    rw [if_pos (show (rowOf u i).kind = .struct from h.kind)]
    cases hq : (rowOf u i).parent with
    | none => rfl
    | some q =>
      rw [hq] at hpar
      simp only [Bool.false_eq_true, false_and, true_and, false_or] at hpar
      simp [hpar]
  unfold placeMin
  rw [hd]
  dsimp only
  split <;> rfl

/-- An element keeps its default body in its row. -/
theorem placeMin_elem {ty : Ty} {d : Nat} (root : Nat) (h : NodeReady u ty i r true)
    (hv : (rowOf u i).var = true) (hd : defaultBody u i = some d) (hle : d ≤ u32Max)
    (hi : i < u.length) : ∃ u', placeMin u root i = some (u', root) ∧
      Mins u u' root root i (i + 1) r 0 ∧ (rowOf u' i).dmin = d := by
  have hf : rowFramed (u.set i { rowOf u i with dmin := d }) (rowOf u i) = false := by
    have hpar := h.parent
    unfold Sits at hpar
    unfold rowFramed
    cases hq : (rowOf u i).parent with
    | none =>
      rw [hq] at hpar
      exact absurd hpar (by simp)
    | some q =>
      rw [hq] at hpar
      simp only [Bool.true_eq_false, false_and, or_false, true_and] at hpar
      have hk := (sameButMin_set (d := d) hi).row q
      dsimp only
      rw [hk]
      simp [hpar]
  refine ⟨u.set i { rowOf u i with dmin := d }, ?_, ⟨sameButMin_set hi, ?_⟩, ?_⟩
  · unfold placeMin
    rw [if_neg (by rw [hv]; simp), hd]
    dsimp only
    rw [if_neg (by omega), hf]
    rfl
  · intro q hq
    cases q with
    | none => simp [recMin]
    | some k =>
      have hk : k < i ∨ i + 1 ≤ k := hq
      simp only [recMin]
      rw [rowOf_set_ne (by omega)]
      simp
  · rw [rowOf_set_self hi]

/-- A member's frame joins its record. -/
theorem placeMin_member {ty : Ty} {d : Nat} (root : Nat) (h : NodeReady u ty i r false)
    (hk : ty.kind ≠ .struct) (hv : (rowOf u i).var = true) (hd : defaultBody u i = some d)
    (hle : d ≤ u32Max) (hi : i < u.length) (hr : ∀ k, r = some k → k < i)
    (hroom : ∀ k, r = some k → (rowOf u k).dmin + (4 + d) ≤ u32Max) :
    ∃ u' root', placeMin u root i = some (u', root') ∧
      Mins u u' root root' i (i + 1) r (4 + d) ∧ (rowOf u' i).dmin = d := by
  have hset := sameButMin_set (d := d) hi
  have hf : rowFramed (u.set i { rowOf u i with dmin := d }) (rowOf u i) = true := by
    have hpar := h.parent
    unfold Sits at hpar
    unfold rowFramed
    rw [hv, h.kind]
    cases hq : (rowOf u i).parent with
    | none => simp [hk]
    | some q =>
      rw [hq] at hpar
      simp only [Bool.false_eq_true, false_and, true_and, false_or] at hpar
      dsimp only
      rw [hset.row q]
      simp [hk, hpar, Kind.isArray]
  unfold placeMin
  rw [if_neg (by rw [hv]; simp), hd]
  dsimp only
  rw [if_neg (by omega), if_pos hf, h.record]
  cases r with
  | none =>
    refine ⟨_, _, rfl, ⟨hset, fun q hq => ?_⟩, by rw [rowOf_set_self hi]⟩
    cases q with
    | none => simp [recMin, Nat.add_assoc]
    | some k =>
      have hk' : k < i ∨ i + 1 ≤ k := hq
      simp only [recMin]
      rw [rowOf_set_ne (by omega)]
      simp
  | some k =>
    have hki := hr k rfl
    have hrk := hroom k rfl
    obtain ⟨t₁, ht₁⟩ : ∃ t₁, t₁ = u.set i { rowOf u i with dmin := d } := ⟨_, rfl⟩
    rw [← ht₁] at hset ⊢
    have hkrow : rowOf t₁ k = rowOf u k := by rw [ht₁, rowOf_set_ne (by omega)]
    have hlen : k < t₁.length := by rw [hset.length]; omega
    dsimp only
    rw [hkrow, if_neg (by omega)]
    have hset' := sameButMin_set (d := (rowOf u k).dmin + 4 + d) hlen
    rw [hkrow] at hset'
    refine ⟨_, _, rfl, ⟨sameButMin_trans hset hset', fun q hq => ?_⟩, ?_⟩
    · cases q with
      | none => simp [recMin]
      | some l =>
        have hl : l < i ∨ i + 1 ≤ l := hq
        simp only [recMin]
        by_cases hlk : k = l
        · subst hlk
          rw [rowOf_set_self hlen, if_pos rfl, Nat.add_assoc]
        rw [rowOf_set_ne hlk, ht₁, rowOf_set_ne (by omega), if_neg]
        · rfl
        · intro he
          exact hlk (Option.some.inj he).symm
    · rw [rowOf_set_ne (by omega), ht₁, rowOf_set_self hi]

/-- A row that is no struct: a fixed one is passed over, a variable one keeps its body. -/
theorem placeMin_row {ty : Ty} {elem : Bool} (root : Nat) (h : NodeReady u ty i r elem)
    (hk : ty.kind ≠ .struct) (hi : i < u.length) (hzero : (rowOf u i).dmin = 0)
    (hd : ty.measure.var = true → defaultBody u i = some ty.measure.body)
    (hframes : ty.measure.var = true → ty.measure.frames = 4 + ty.measure.body)
    (hle : ty.measure.frames ≤ u32Max) (hr : elem = false → ∀ k, r = some k → k < i)
    (hroom : elem = false → ∀ k, r = some k → (rowOf u k).dmin + ty.measure.frames ≤ u32Max) :
    ∃ u' root', placeMin u root i = some (u', root') ∧
      Mins u u' root root' i (i + 1) r (if elem = true then 0 else ty.measure.frames) ∧
      (rowOf u' i).dmin = keptMin ty := by
  unfold keptMin
  cases hv : ty.measure.var with
  | false =>
    refine ⟨u, root, placeMin_fixed root (h.var.trans hv), ?_, hzero⟩
    rw [ty.fixed_frames hv]
    simp only [ite_self]
    exact mins_refl u root i (i + 1) r
  | true =>
    have hf := hframes hv
    cases elem with
    | true =>
      obtain ⟨u', hu', hm, hmin⟩ := placeMin_elem root h (h.var.trans hv) (hd hv)
        (by omega) hi
      exact ⟨u', root, hu', hm, hmin⟩
    | false =>
      obtain ⟨u', root', hu', hm, hmin⟩ := placeMin_member root h hk (h.var.trans hv)
        (hd hv) (by omega) hi (hr rfl) (by
          intro k hk
          rw [← hf]
          exact hroom rfl k hk)
      rw [← hf] at hm
      exact ⟨u', root', hu', hm, hmin⟩

/-! ## The rows of a tree -/

theorem Ty.Ready.var : ∀ (ty : Ty) {i : Nat} {r : Option Nat} {elem : Bool},
    ty.Ready t i r elem → (rowOf t i).var = ty.measure.var
  | .named _ ty, _, _, _, h => Ty.Ready.var ty h
  | .arr _ _, _, _, _, h | .varr _, _, _, _, h | .struct _, _, _, _, h => h.1.var
  | .scalar _, _, _, _, h | .str _, _, _, _, h | .vstr, _, _, _, h | .map, _, _, _, h
  | .enum _ _, _, _, _, h => NodeReady.var h

/-- The loop over a type's rows. -/
structure TyMins (u : Table) (root : Nat) (ty : Ty) (i : Nat) (r : Option Nat) (elem : Bool)
    (u' : Table) (root' : Nat) : Prop where
  run : placeMinRange i (1 + ty.rows) u root = some (u', root')
  mins : Mins u u' root root' i (i + 1 + ty.rows) r (if elem = true then 0 else ty.measure.frames)
  minsAt : ty.MinsAt (rowOf u') i elem

/-- The loop over the rows of a record's members. -/
structure MembersMins (u : Table) (root : Nat) (ms : Members) (i : Nat) (r : Option Nat)
    (u' : Table) (root' : Nat) : Prop where
  run : placeMinRange i ms.rows u root = some (u', root')
  mins : Mins u u' root root' i (i + ms.rows) r ms.measure.frames
  minsAt : ms.MinsAt (rowOf u') i

/-- Where the loop over the rows `[i, n)` of record `r` starts. -/
structure Fresh (t u : Table) (i n : Nat) : Prop where
  same : SameButMin t u
  le : n ≤ u.length
  zero : ∀ j, i ≤ j → j < n → (rowOf u j).dmin = 0

/-- The rows of an array's element. -/
theorem Fresh.elem {n : Nat} (h : Fresh t u i (i + 1 + (n + 1))) :
    Fresh t u (i + 1) (i + 1 + 1 + n) := by
  have hle := h.le
  exact ⟨h.same, by omega, fun j h1 h2 => h.zero j (by omega) (by omega)⟩

/-- A row of an array, its element's rows run: what is left is the row itself. -/
theorem array_mins {ty e : Ty} {elem : Bool} {root : Nat} {u₁ : Table} {root₁ : Nat}
    (hready : NodeReady t ty i r elem) (hk : ty.kind.isArray = true) (hrows : ty.rows = e.rows + 1)
    (hfresh : Fresh t u i (i + 1 + ty.rows))
    (hrun : TyMins u root e (i + 1) (some (i + 1)) true u₁ root₁)
    (hmeasure : ty.measure.var = true →
      arrDmin ty.kind (rowOf t i).count e.measure.var (keptMin e) = ty.measure.body)
    (hevar : (rowOf t (i + 1)).var = e.measure.var)
    (hframes : ty.measure.var = true → ty.measure.frames = 4 + ty.measure.body)
    (hle : ty.measure.frames ≤ u32Max)
    (hr : elem = false → ∀ k, r = some k → k < i ∧ (rowOf u k).dmin + ty.measure.frames ≤ u32Max) :
    ∃ u' root', placeMinRange i (1 + ty.rows) u root = some (u', root') ∧
      Mins u u' root root' i (i + 1 + ty.rows) r (if elem = true then 0 else ty.measure.frames) ∧
      (rowOf u' i).dmin = keptMin ty ∧ e.MinsAt (rowOf u') (i + 1) true := by
  have hrun₁ := hrun.mins
  simp only [if_true] at hrun₁
  have hkeep : ∀ k, k < i + 1 → (rowOf u₁ k).dmin = (rowOf u k).dmin :=
    fun k hk => hrun₁.keep (Or.inl hk) (Or.inl rfl)
  have hsame₁ := sameButMin_trans hfresh.same hrun₁.same
  have hlen₁ : i < u₁.length := by
    rw [hrun₁.same.length]
    have := hfresh.le
    omega
  have hk' : ty.kind ≠ .struct := by
    intro hc
    rw [hc] at hk
    exact absurd hk (by simp [Kind.isArray])
  have hready₁ := hready.same hsame₁
  have hrow₁ := hsame₁.row i
  have hd : ty.measure.var = true → defaultBody u₁ i = some ty.measure.body := by
    intro hv
    have hcount : (rowOf u₁ i).count = (rowOf t i).count := by rw [hrow₁]
    have hvar : (rowOf u₁ (i + 1)).var = e.measure.var := by
      rw [hsame₁.row (i + 1)]
      exact hevar
    unfold defaultBody
    dsimp only
    rw [hready₁.kind, if_neg hk', if_pos hk, hcount, hvar, hrun.minsAt.elem, hmeasure hv]
  obtain ⟨u', root', hu', hm, hmin⟩ := placeMin_row root₁ hready₁ hk' hlen₁
    ((hkeep i (by omega)).trans (hfresh.zero i (Nat.le_refl i) (by omega))) hd hframes hle
    (fun he k hkr => (hr he k hkr).1) (by
      intro he k hkr
      rw [hkeep k (by have := (hr he k hkr).1; omega)]
      exact (hr he k hkr).2)
  refine ⟨u', root', ?_, ?_, hmin, ?_⟩
  · rw [hrows, Nat.add_comm e.rows 1, placeMinRange_add, hrun.run]
    simp only [Option.bind_some]
    rw [placeMinRange_one]
    exact hu'
  · have happ := (hrun₁.silent r).append hm (by omega) (by omega)
    rw [Nat.zero_add, show i + 1 + 1 + e.rows = i + 1 + ty.rows by omega] at happ
    exact happ
  · refine hrun.minsAt.congr e (i + 1) true fun j h1 h2 => ?_
    refine hm.keep (Or.inr (by omega)) ?_
    cases elem with
    | true => exact Or.inl rfl
    | false =>
      right
      intro hc
      have := (hr rfl j hc).1
      omega

/-- A leaf is one row, and a variable one an empty frame. -/
theorem Ty.leaf_measure {ty : Ty} (hty : ty.isLeaf = true) : ty.rows = 0 ∧
    (ty.measure.var = true → ty.measure.body = 0 ∧ ty.measure.frames = 4) := by
  cases ty with
  | arr | varr | struct | named => cases hty
  | vstr | map => exact ⟨rfl, fun _ => ⟨rfl, rfl⟩⟩
  | _ => exact ⟨rfl, fun h => by cases h⟩

/-- A leaf's row. -/
theorem leaf_mins {ty : Ty} {D : Nat} {named elem : Bool} (root : Nat) (hok : ty.Ok D named)
    (hty : ty.isLeaf = true) (hready : ty.Ready t i r elem) (hfresh : Fresh t u i (i + 1 + ty.rows))
    (hr : elem = false → ∀ k, r = some k → k < i ∧ (rowOf u k).dmin + ty.measure.frames ≤ u32Max) :
    ∃ u' root', TyMins u root ty i r elem u' root' := by
  obtain ⟨hrows, hvar⟩ := ty.leaf_measure hty
  obtain ⟨hk, harr⟩ := Ty.leaf_kind hty hok
  have hnode : NodeReady t ty i r elem := by
    cases ty with
    | arr | varr | struct | named => cases hty
    | _ => exact hready
  rw [hrows] at hfresh
  have hready' := hnode.same hfresh.same
  have hle := hfresh.le
  have hframes : ty.measure.frames ≤ 4 := by
    cases hv : ty.measure.var with
    | true => rw [(hvar hv).2]
    | false =>
      rw [ty.fixed_frames hv]
      omega
  obtain ⟨u', root', hu', hm, hmin⟩ := placeMin_row root hready' hk (by omega)
    (hfresh.zero i (Nat.le_refl i) (by omega)) (by
      intro hv
      unfold defaultBody
      dsimp only
      rw [hready'.kind, if_neg hk, if_neg (by rw [harr]; simp), (hvar hv).1]) (by
      intro hv
      rw [(hvar hv).1, (hvar hv).2])
    (Nat.le_trans hframes (by simp [u32Max])) (fun he k hk => (hr he k hk).1)
    (fun he k hk => (hr he k hk).2)
  have hzero : keptMin ty = 0 := by
    unfold keptMin
    split
    next hv => exact (hvar hv).1
    next => rfl
  refine ⟨u', root', ?_, ?_, ?_⟩
  · rw [hrows, placeMinRange_one]
    exact hu'
  · rw [hrows]
    exact hm
  · cases ty with
    | arr | varr | struct | named => cases hty
    | _ => exact hmin.trans hzero

/-- A struct's row, its members' rows run into the record of a member, or into its own row for
an element. -/
theorem struct_mins {ms : Members} {elem : Bool} {root : Nat} {u₁ : Table} {root₁ : Nat}
    (hready : NodeReady t (.struct ms) i r elem) (hfresh : Fresh t u i (i + 1 + ms.rows))
    (hrun : MembersMins u root ms (i + 1) r u₁ root₁) (helem : elem = true → r = some i)
    (hle : ms.measure.size + ms.measure.frames ≤ u32Max)
    (hr : elem = false → ∀ k, r = some k → k < i) :
    ∃ u' root', TyMins u root (.struct ms) i r elem u' root' := by
  have hsame₁ := sameButMin_trans hfresh.same hrun.mins.same
  have hready₁ := hready.same hsame₁
  have hle₁ := hfresh.le
  rw [← hrun.mins.same.length] at hle₁
  have hzero := hfresh.zero i (Nat.le_refl i) (by omega)
  have hrows : (Ty.struct ms).rows = ms.rows := rfl
  cases elem with
  | false =>
    refine ⟨u₁, root₁, ?_, ?_, ?_, hrun.minsAt⟩
    · rw [placeMinRange_add, hrows, hrun.run]
      simp only [Option.bind_some]
      rw [placeMinRange_one]
      exact placeMin_struct root₁ hready₁
    · have happ := hrun.mins.append (mins_refl u₁ root₁ i (i + 1) r) (by omega) (by omega)
      exact happ
    · simp only [Bool.false_eq_true, if_false]
      rw [hrun.mins.keep (Or.inl (by omega)), hzero]
      right
      intro hc
      have := hr rfl i hc
      omega
  | true =>
    obtain rfl := helem rfl
    have hsum : (rowOf u₁ i).dmin = ms.measure.frames := by
      have hg := hrun.mins.grown (some i) (Or.inl (by omega))
      simp only [recMin, if_true, hzero, Nat.zero_add] at hg
      exact hg
    have hin := (hrun.mins.inner (i := i) (by omega) ⟨Nat.le_refl i, by omega⟩).silent (some i)
    cases hv : ms.measure.var with
    | false =>
      refine ⟨u₁, root₁, ?_, hin, ?_, hrun.minsAt⟩
      · rw [placeMinRange_add, hrows, hrun.run]
        simp only [Option.bind_some]
        rw [placeMinRange_one]
        exact placeMin_fixed root₁ (hready₁.var.trans hv)
      · rw [hsum, ms.fixed_frames hv]
        simp [keptMin, Ty.measure, hv]
    | true =>
      have hd : defaultBody u₁ i = some (ms.measure.size + ms.measure.frames) := by
        have hpar := hready₁.parent
        unfold Sits at hpar
        unfold defaultBody
        dsimp only
        rw [if_pos (show (rowOf u₁ i).kind = .struct from hready₁.kind)]
        cases hq : (rowOf u₁ i).parent with
        | none =>
          rw [hq] at hpar
          exact absurd hpar (by simp)
        | some q =>
          rw [hq] at hpar
          simp only [Bool.true_eq_false, false_and, or_false, true_and] at hpar
          have hns : (rowOf u₁ q).kind ≠ .struct := by
            intro hc
            rw [hc] at hpar
            exact absurd hpar (by simp [Kind.isArray])
          dsimp only
          rw [if_neg hns, hsum, show (rowOf u₁ i).size = ms.measure.size from hready₁.size]
      obtain ⟨u', hu', hm, hmin⟩ := placeMin_elem root₁ hready₁ (hready₁.var.trans hv) hd
        hle (by omega)
      refine ⟨u', root₁, ?_, ?_, ?_, ?_⟩
      · rw [placeMinRange_add, hrows, hrun.run]
        simp only [Option.bind_some]
        rw [placeMinRange_one]
        exact hu'
      · refine ⟨sameButMin_trans hin.same hm.same, fun q hq => ?_⟩
        have h1 := hm.grown q (hq.mono (Nat.le_refl i) (by omega))
        have h2 := hin.grown q hq
        simp only [if_true, ite_self, Nat.add_zero] at h1 h2 ⊢
        rw [h1, h2]
      · rw [hmin]
        simp [keptMin, Ty.measure, hv]
      · refine hrun.minsAt.congr ms (i + 1) fun j h1 h2 => ?_
        exact hm.keep (Or.inr (by omega)) (Or.inl rfl)

mutual
/-- The loop over the rows of a type: it goes through, a member's frames join its record, and
every row holds its default. -/
theorem Ty.mins : ∀ (ty : Ty) (D : Nat) (named : Bool) (i : Nat) (r : Option Nat) (elem : Bool)
    (u : Table) (root : Nat), ty.Ok D named → ty.Ready t i r elem →
    Fresh t u i (i + 1 + ty.rows) → (elem = true → r = some i) →
    (elem = false → ∀ k, r = some k → k < i ∧ (rowOf u k).dmin + ty.measure.frames ≤ u32Max) →
    ∃ u' root', TyMins u root ty i r elem u' root'
  | .named _ ty, D, named, i, r, elem, u, root, hok, hready, hfresh, helem, hr => by
    obtain ⟨u', root', hrun, hm, hat⟩ := Ty.mins ty D true i r elem u root hok.2.2.2 hready hfresh
      helem hr
    exact ⟨u', root', hrun, hm, hat⟩
  | .arr count e, D, named, i, r, elem, u, root, hok, hready, hfresh, helem, hr => by
    obtain ⟨hnode, hcount, he⟩ := hready
    have hle := hok.2.2.2.2.2
    have hrows : (Ty.arr count e).rows = e.rows + 1 := rfl
    obtain ⟨u₁, root₁, hrun⟩ := Ty.mins e (D + 1) false (i + 1) (some (i + 1)) true u root
      hok.2.2.1 he hfresh.elem (fun _ => rfl) (by intro hc; exact absurd hc (by simp))
    obtain ⟨u', root', hrun', hm, hmin, hat⟩ := array_mins hnode rfl hrows hfresh hrun (by
        intro hv
        have hev : e.measure.var = true := by
          cases hev : e.measure.var with
          | true => rfl
          | false =>
            simp [Ty.measure, hev] at hv
        simp [Ty.measure, Ty.kind, hcount, hev, keptMin]) he.var
      (by
        intro hv
        cases hev : e.measure.var with
        | true => simp [Ty.measure, hev]
        | false => simp [Ty.measure, hev] at hv)
      hle hr
    exact ⟨u', root', hrun', hm, hmin, hat⟩
  | .varr e, D, named, i, r, elem, u, root, hok, hready, hfresh, helem, hr => by
    obtain ⟨hnode, he⟩ := hready
    have hle := hok.2.2.2
    have hrows : (Ty.varr e).rows = e.rows + 1 := rfl
    obtain ⟨u₁, root₁, hrun⟩ := Ty.mins e (D + 1) false (i + 1) (some (i + 1)) true u root
      hok.2.1 he hfresh.elem (fun _ => rfl) (by intro hc; exact absurd hc (by simp))
    obtain ⟨u', root', hrun', hm, hmin, hat⟩ := array_mins hnode rfl hrows hfresh hrun (by
        intro _
        simp [Ty.measure, Ty.kind, arrDmin]) he.var
      (by intro _; simp [Ty.measure])
      hle hr
    exact ⟨u', root', hrun', hm, hmin, hat⟩
  | .struct ms, D, named, i, r, elem, u, root, hok, hready, hfresh, helem, hr => by
    obtain ⟨hnode, hms⟩ := hready
    have hle := hok.2.2.2.2
    obtain ⟨u₁, root₁, hrun⟩ := Members.mins ms (D + 1) (i + 1) r u root hok.2.2.2.1 hms
      ⟨hfresh.same, hfresh.le, fun j h1 h2 => hfresh.zero j (by omega) h2⟩ (by
        intro k hk
        cases elem with
        | true =>
          obtain rfl : i = k := Option.some.inj ((helem rfl).symm.trans hk)
          rw [hfresh.zero i (Nat.le_refl i) (by omega)]
          omega
        | false =>
          obtain ⟨h1, h2⟩ := hr rfl k hk
          exact ⟨by omega, h2⟩)
    exact struct_mins hnode hfresh hrun helem hle fun he k hk => (hr he k hk).1
  | .scalar _, _, _, _, _, _, _, root, hok, hready, hfresh, _, hr
  | .str _, _, _, _, _, _, _, root, hok, hready, hfresh, _, hr
  | .vstr, _, _, _, _, _, _, root, hok, hready, hfresh, _, hr
  | .map, _, _, _, _, _, _, root, hok, hready, hfresh, _, hr
  | .enum _ _, _, _, _, _, _, _, root, hok, hready, hfresh, _, hr =>
    leaf_mins root hok rfl hready hfresh hr
/-- The loop over the rows of a record's members. -/
theorem Members.mins : ∀ (ms : Members) (D i : Nat) (r : Option Nat) (u : Table) (root : Nat),
    ms.Ok D → ms.Ready t i r → Fresh t u i (i + ms.rows) →
    (∀ k, r = some k → k < i ∧ (rowOf u k).dmin + ms.measure.frames ≤ u32Max) →
    ∃ u' root', MembersMins u root ms i r u' root'
  | .nil, D, i, r, u, root, hok, hready, hfresh, hr => by
    refine ⟨u, root, rfl, mins_refl u root i _ r, trivial⟩
  | .cons m ty rest, D, i, r, u, root, hok, hready, hfresh, hr => by
    obtain ⟨hty, hrest⟩ := hready
    have hfr : (Members.cons m ty rest).measure.frames =
      ty.measure.frames + rest.measure.frames := rfl
    simp only [Members.rows] at hfresh
    -- children first: the later members, then this one
    obtain ⟨u₁, root₁, hrun, hm, hat⟩ := Members.mins rest D (i + 1 + ty.rows) r u root hok.2.2
      hrest ⟨hfresh.same, by have := hfresh.le; omega,
        fun j h1 h2 => hfresh.zero j (by omega) (by omega)⟩ (by
        intro k hk
        have := hr k hk
        omega)
    have hout : ∀ j, i ≤ j → r ≠ some j := by
      intro j hj hc
      have := (hr j hc).1
      omega
    obtain ⟨u', root', hrun', hm', hat'⟩ := Ty.mins ty D false i r false u₁ root₁ hok.2.1 hty
      ⟨sameButMin_trans hfresh.same hm.same, by
          rw [hm.same.length]
          have := hfresh.le
          omega, by
          intro j h1 h2
          rw [hm.keep (Or.inl h2) (Or.inr (hout j h1))]
          exact hfresh.zero j h1 (by omega)⟩
      (by intro hc; exact absurd hc (by simp)) (by
        intro _ k hk
        have hk' := hr k hk
        have hg := hm.grown (some k) (Or.inl (by omega))
        simp only [recMin, hk, if_true] at hg
        omega)
    refine ⟨u', root', ?_, ?_, hat', ?_⟩
    · rw [Members.rows, placeMinRange_add, ← Nat.add_assoc i 1 ty.rows, hrun]
      exact hrun'
    · have happ := hm.append hm' (by omega) (by omega)
      simp only [Bool.false_eq_true, if_false] at happ
      rw [hfr, Nat.add_comm ty.measure.frames, Members.rows,
        show i + (1 + ty.rows + rest.rows) = i + 1 + ty.rows + rest.rows by omega]
      exact happ
    · refine hat.congr rest _ fun j h1 h2 => ?_
      exact hm'.keep (Or.inr h1) (Or.inr (hout j (by omega)))
end

/-! ## The whole pass -/

theorem dmin_set {t : Table} {i j : Nat} {f : Field} (h : f.dmin = (rowOf t i).dmin) :
    (rowOf (t.set i f) j).dmin = (rowOf t j).dmin := by
  by_cases hi : i < t.length
  · by_cases hj : i = j
    · subst hj
      rw [rowOf_set_self hi, h]
    · rw [rowOf_set_ne hj]
  · rw [List.set_eq_of_length_le (by omega)]

theorem bumpFrames_dmin (t : Table) (r j : Nat) :
    (rowOf (bumpFrames t r) j).dmin = (rowOf t j).dmin := by
  unfold bumpFrames
  exact dmin_set rfl

/-- The first loop sets no default. -/
theorem placeRow_dmin (t : Table) (ord i j : Nat) :
    (rowOf (placeRow t ord i).1 j).dmin = (rowOf t j).dmin := by
  unfold placeRow
  dsimp only
  by_cases hf : rowFramed t (placedRow t i) = true
  · rw [if_pos hf]
    cases rowRecord (placedRow t i) with
    | none => exact dmin_set rfl
    | some r =>
      dsimp only
      rw [bumpFrames_dmin]
      exact dmin_set rfl
  · rw [if_neg hf]
    exact dmin_set rfl

theorem placeRows_dmin (n : Nat) : ∀ (t : Table) (ord i j : Nat),
    (rowOf (placeRows t ord n i).1 j).dmin = (rowOf t j).dmin := by
  induction n with
  | zero => intros; rfl
  | succ n ih =>
    intro t ord i j
    rw [placeRows, ih, placeRow_dmin]

theorem Laid.dmin {mem : Bool} {t₀ : Table} {size : Nat} {var : Bool}
    (h : Laid (rowOf t₀) mem 0 t₀.length 0 none 0 size var) (j : Nat) : (rowOf t₀ j).dmin = 0 := by
  by_cases hj : j < t₀.length
  · exact (h.block (Nat.zero_le j) hj).2.head.dmin
  · rw [rowOf_length_le (by omega)]
    rfl

/-- The pass over a layout whose second loop goes through and sums up `frames`. -/
theorem schemaPlace_runs {mem : Bool} {t₀ : Table} {size frames : Nat} {var : Bool}
    (h : Laid (rowOf t₀) mem 0 t₀.length 0 none 0 size var)
    (hfit : size + frames ≤ u32Max)
    (hrun : ∀ t, SameTable t₀ t →
      (∀ j, j < t.length → (rowOf t j).arrParent = nearestArray t (rowOf t j).parent) →
      Fresh t t 0 t.length → ∃ u root, placeMinRange 0 t.length t 0 = some (u, root) ∧
        root = frames) :
    ∃ t ord, schemaPlace t₀ size = some (t, ord, size + frames) ∧ t.length = t₀.length := by
  have hstart : PlacedTo t₀ t₀ 0 0 :=
    ⟨sameTable_refl t₀, fun j hj => absurd hj (Nat.not_lt_zero j), fun _ _ => rfl,
      fun r => h.unplaced.1 r, rfl⟩
  have hplaced := placeRows_placed h.unplaced.2 (n := t₀.length) hstart (by omega)
  obtain ⟨t, ht⟩ : ∃ t, t = (placeRows t₀ 0 t₀.length 0).1 := ⟨_, rfl⟩
  rw [← ht, Nat.zero_add] at hplaced
  have hlen := hplaced.same.length
  obtain ⟨u, root, hmins, rfl⟩ := hrun t hplaced.same
    (fun j hj => (hplaced.placed j (by omega)).arrParent)
    ⟨sameButMin_refl t, Nat.le_refl _, fun j _ _ => by rw [ht, placeRows_dmin, h.dmin]⟩
  rw [← placeMins_eq] at hmins
  refine ⟨u, (placeRows t₀ 0 t₀.length 0).2, ?_, ?_⟩
  · simp only [schemaPlace, Option.bind_eq_bind, ← ht]
    rw [← hlen, hmins]
    simp only [Option.bind_some]
    rw [if_neg (by omega)]
  · rw [(placeMins_same hmins).length, hlen]

/-- The pass over a bare or alias root. -/
theorem schemaPlace_ty {t₀ : Table} {ty : Ty} {D : Nat} {named : Bool} {q : Nat} {var : Bool}
    (hok : ty.Ok D named) (hfit : ty.measure.size + ty.measure.frames ≤ u32Max)
    (hrows : ty.Rows (rowOf t₀) 0 q) (hlen : t₀.length = 1 + ty.rows)
    (hl : Laid (rowOf t₀) false 0 t₀.length 0 none 0 ty.measure.size var) :
    ∃ t ord, schemaPlace t₀ ty.measure.size =
        some (t, ord, ty.measure.size + ty.measure.frames) ∧ t.length = t₀.length := by
  refine schemaPlace_runs hl hfit fun t hsame hap hfresh => ?_
  have hlent := hsame.length
  have hready := (ty.ready_of_laid hsame hap D named 0 _ 0 q none 0 _ _ none false hok hrows hl
    (by omega) (by omega) ⟨rfl, rfl⟩).ready
  obtain ⟨u, root, hrun, hm, -⟩ := ty.mins D named 0 none false t 0 hok hready
    ⟨hfresh.same, by omega, fun j h1 h2 => hfresh.zero j h1 (by omega)⟩
    (by intro hc; exact absurd hc (by simp)) (by intro _ k hk; exact absurd hk (by simp))
  refine ⟨u, root, ?_, ?_⟩
  · rw [hlent, hlen]
    exact hrun
  · have hg := hm.grown none trivial
    simp only [recMin, Bool.false_eq_true, if_false, if_true, Nat.zero_add] at hg
    exact hg

/-- The pass over a struct root, its members the table. -/
theorem schemaPlace_members {t₀ : Table} {ms : Members} {D q : Nat} {var : Bool}
    (hok : ms.Ok D) (hfit : ms.measure.size + ms.measure.frames ≤ u32Max)
    (hrows : ms.Rows (rowOf t₀) 0 q) (hlen : t₀.length = ms.rows)
    (hl : Laid (rowOf t₀) true 0 t₀.length 0 none 0 ms.measure.size var) :
    ∃ t ord, schemaPlace t₀ ms.measure.size =
        some (t, ord, ms.measure.size + ms.measure.frames) ∧ t.length = t₀.length := by
  refine schemaPlace_runs hl hfit fun t hsame hap hfresh => ?_
  have hlent := hsame.length
  have hready := (ms.ready_of_laid hsame hap D 0 _ 0 q none 0 _ _ none hok hrows hl
    (by omega) (by omega) ⟨rfl, rfl⟩).2.2
  obtain ⟨u, root, hrun, hm, -⟩ := ms.mins D 0 none t 0 hok hready
    ⟨hfresh.same, by omega, fun j h1 h2 => hfresh.zero j h1 (by omega)⟩
    (by intro k hk; exact absurd hk (by simp))
  refine ⟨u, root, ?_, ?_⟩
  · rw [hlent, hlen]
    exact hrun
  · have hg := hm.grown none trivial
    simp only [recMin, if_true, Nat.zero_add] at hg
    exact hg

end Rant.Serialize
