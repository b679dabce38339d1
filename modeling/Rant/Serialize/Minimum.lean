import Rant.Serialize.DefaultTree
import Rant.Serialize.Table
/-!
# The default of a row

What the second loop of `i_rant_schema_place` leaves, told over the finished table: an
array's default is its element table over the default of its element, a variable struct
element's is its fixed part and the frames of its record, and the message's length sums up
the frames of the message (`MinRow`, `Minimal`).
-/

namespace Rant.Serialize

open Rant.Lib

/-- Row `i` rides a frame of record `r`. -/
def RidesIn (t : Table) (r : Option Nat) (i : Nat) : Prop :=
  framedAt t i = true ∧ rowRecord (rowOf t i) = r

instance (t : Table) (r : Option Nat) (i : Nat) : Decidable (RidesIn t r i) :=
  inferInstanceAs (Decidable (_ ∧ _))

/-- The rows of `[i, i + k)` that do, in order. -/
def framedIn (t : Table) (r : Option Nat) (i k : Nat) : List Nat :=
  (List.range' i k).filter fun j => RidesIn t r j

/-- What their default frames occupy. -/
def minsIn (t : Table) (r : Option Nat) (i k : Nat) : Nat :=
  ((framedIn t r i k).map fun j => 4 + (rowOf t j).dmin).sum

theorem framedIn_succ (t : Table) (r : Option Nat) (i k : Nat) :
    framedIn t r i (k + 1) = (if RidesIn t r i then [i] else []) ++ framedIn t r (i + 1) k := by
  unfold framedIn
  rw [List.range'_succ, List.filter_cons]
  by_cases h : RidesIn t r i
  · simp [h]
  · simp [h]

theorem minsIn_succ (t : Table) (r : Option Nat) (i k : Nat) :
    minsIn t r i (k + 1) = (if RidesIn t r i then 4 + (rowOf t i).dmin else 0) + minsIn t r (i + 1) k := by
  unfold minsIn
  rw [framedIn_succ]
  split <;> simp

theorem framedIn_append (t : Table) (r : Option Nat) (i k l : Nat) :
    framedIn t r i (k + l) = framedIn t r i k ++ framedIn t r (i + k) l := by
  unfold framedIn
  rw [← List.filter_append, List.range'_append_1]

variable {r : Option Nat} {i : Nat}

theorem mem_framedIn {t : Table} {k j : Nat} :
    j ∈ framedIn t r i k ↔ i ≤ j ∧ j < i + k ∧ RidesIn t r j := by
  unfold framedIn
  simp only [List.mem_filter, List.mem_range'_1, decide_eq_true_eq, and_assoc]

theorem framedIn_none {t : Table} {k : Nat}
    (h : ∀ j, i ≤ j → j < i + k → ¬ RidesIn t r j) : framedIn t r i k = [] := by
  rw [List.eq_nil_iff_forall_not_mem]
  intro j hj
  obtain ⟨h1, h2, h3⟩ := mem_framedIn.mp hj
  exact h j h1 h2 h3

variable {t u v : Table}

theorem SameButMin.framedAt (h : SameButMin t u) (j : Nat) : framedAt u j = framedAt t j := by
  unfold Rant.Serialize.framedAt rowFramed
  rw [h.row j]
  dsimp only
  cases (rowOf t j).parent with
  | none => rfl
  | some p =>
    dsimp only
    rw [h.row p]

theorem SameButMin.record (h : SameButMin t u) (j : Nat) :
    rowRecord (rowOf u j) = rowRecord (rowOf t j) := by
  rw [h.row j]
  rfl

theorem SameButMin.rides (h : SameButMin t u) {j : Nat} :
    RidesIn u r j ↔ RidesIn t r j := by
  unfold RidesIn
  rw [h.framedAt, h.record]

theorem SameButMin.framedIn (h : SameButMin t u) (r : Option Nat) (i k : Nat) :
    framedIn u r i k = framedIn t r i k := by
  unfold Rant.Serialize.framedIn
  congr 1
  funext j
  simp only [h.rides]

theorem minsIn_congr (h : SameButMin t u) {k : Nat}
    (hmin : ∀ j, i ≤ j → j < i + k → (rowOf u j).dmin = (rowOf t j).dmin) :
    minsIn u r i k = minsIn t r i k := by
  unfold minsIn
  rw [h.framedIn]
  congr 1
  apply List.map_congr_left
  intro j hj
  obtain ⟨h1, h2, -⟩ := mem_framedIn.mp hj
  rw [hmin j h1 h2]

/-- The default of row `j`, in terms of the rows behind it. -/
structure MinRow (t : Table) (j : Nat) : Prop where
  array : (rowOf t j).var = true → (rowOf t j).kind.isArray = true → (rowOf t j).dmin =
    arrDmin (rowOf t j).kind (rowOf t j).count (rowOf t (j + 1)).var (rowOf t (j + 1)).dmin
  text : (rowOf t j).var = true → (rowOf t j).kind.isArray = false → (rowOf t j).kind ≠ .struct →
    (rowOf t j).dmin = 0
  elem : (rowOf t j).var = true → (rowOf t j).kind = .struct →
    (∀ p, (rowOf t j).parent = some p → (rowOf t p).kind ≠ .struct) → (rowOf t j).parent ≠ none →
    (rowOf t j).dmin = (rowOf t j).size + minsIn t (some j) (j + 1) (t.length - (j + 1))

/-- The second loop has run the rows from `i` on. -/
structure MinsDown (t u : Table) (root i : Nat) : Prop where
  same : SameButMin t u
  done : ∀ j, i ≤ j → j < t.length → MinRow u j
  left : ∀ j, j < i → (rowOf u j).dmin = minsIn u (some j) i (t.length - i)
  root : root = minsIn u none i (t.length - i)
  small : ∀ j, (rowOf u j).dmin ≤ u32Max

theorem MinRow.congr {j : Nat} (h : MinRow t j) (hs : SameButMin t u)
    (hmin : ∀ k, j ≤ k → (rowOf u k).dmin = (rowOf t k).dmin) : MinRow u j := by
  have hj := hs.row j
  have hkind : ∀ k, (rowOf u k).kind = (rowOf t k).kind := fun k => by rw [hs.row k]
  have hvar : ∀ k, (rowOf u k).var = (rowOf t k).var := fun k => by rw [hs.row k]
  have hsize : (rowOf u j).size = (rowOf t j).size := by rw [hj]
  have hcount : (rowOf u j).count = (rowOf t j).count := by rw [hj]
  have hpar : (rowOf u j).parent = (rowOf t j).parent := by rw [hj]
  refine ⟨fun hv hk => ?_, fun hv hk hs' => ?_, fun hv hk hp hn => ?_⟩
  · rw [hvar] at hv
    rw [hkind] at hk ⊢
    rw [hmin j (Nat.le_refl j), hcount, hvar, hmin (j + 1) (by omega)]
    exact h.array hv hk
  · rw [hvar] at hv
    rw [hkind] at hk hs'
    rw [hmin j (Nat.le_refl j)]
    exact h.text hv hk hs'
  · rw [hvar] at hv
    rw [hkind] at hk
    rw [hpar] at hp hn
    rw [hmin j (Nat.le_refl j), hsize, hs.length,
      minsIn_congr hs fun k h1 _ => hmin k (by omega)]
    exact h.elem hv hk (fun p hp' => by rw [← hkind]; exact hp p hp') hn

/-- One row: only its own default and its record's changed. -/
theorem MinsDown.step {root root' : Nat} (h : MinsDown t u root (i + 1)) (hi : i < t.length)
    (hs : SameButMin u v) (hrec : ∀ r, RidesIn t (some r) i → r < i)
    (hother : ∀ j, j ≠ i → (rowOf v j).dmin =
      (rowOf u j).dmin + if RidesIn t (some j) i then 4 + (rowOf v i).dmin else 0)
    (hroot : root' = root + if RidesIn t none i then 4 + (rowOf v i).dmin else 0)
    (hrow : MinRow v i) (hsmall : ∀ j, (rowOf v j).dmin ≤ u32Max) : MinsDown t v root' i := by
  have htv := sameButMin_trans h.same hs
  have hlater : ∀ k, i + 1 ≤ k → (rowOf v k).dmin = (rowOf u k).dmin := by
    intro k hk
    rw [hother k (by omega), if_neg]
    · rfl
    · intro hc
      have := hrec k hc
      omega
  have hlen : t.length - i = t.length - (i + 1) + 1 := by omega
  have hsum : ∀ r, minsIn v r i (t.length - i) =
      (if RidesIn t r i then 4 + (rowOf v i).dmin else 0) +
        minsIn u r (i + 1) (t.length - (i + 1)) := by
    intro r
    rw [hlen, minsIn_succ, minsIn_congr hs fun k h1 _ => hlater k h1]
    simp only [htv.rides]
  refine ⟨htv, fun j h1 h2 => ?_, fun j hj => ?_, ?_, hsmall⟩
  · by_cases hji : j = i
    · rw [hji]
      exact hrow
    · exact (h.done j (by omega) h2).congr hs fun k hk => hlater k (by omega)
  · rw [hother j (by omega), h.left j (by omega), hsum, Nat.add_comm]
  · rw [hroot, h.root, hsum, Nat.add_comm]

/-- A row without a frame of its own rides none. -/
theorem not_rides (h : framedAt t i = false) : ¬ RidesIn t r i := by
  intro hc
  rw [hc.1] at h
  exact absurd h (by simp)

/-- A default that is set: what becomes of its row. -/
theorem minRow_set {d : Nat} (hd : defaultBody u i = some d)
    (hs : SameButMin u v) (hvi : (rowOf v i).dmin = d)
    (hlater : ∀ k, i < k → (rowOf v k).dmin = (rowOf u k).dmin)
    (hleft : (rowOf u i).dmin = minsIn u (some i) (i + 1) (u.length - (i + 1))) : MinRow v i := by
  have hrow := hs.row i
  have hkind : (rowOf v i).kind = (rowOf u i).kind := by rw [hrow]
  have hpar : (rowOf v i).parent = (rowOf u i).parent := by rw [hrow]
  have hcount : (rowOf v i).count = (rowOf u i).count := by rw [hrow]
  have hsize : (rowOf v i).size = (rowOf u i).size := by rw [hrow]
  have hvar1 : (rowOf v (i + 1)).var = (rowOf u (i + 1)).var := by rw [hs.row (i + 1)]
  unfold defaultBody at hd
  dsimp only at hd
  refine ⟨fun _ hk => ?_, fun _ hk hst => ?_, fun _ hk hp hn => ?_⟩
  · rw [hkind] at hk
    have hns : (rowOf u i).kind ≠ .struct := by
      intro hc
      rw [hc] at hk
      exact absurd hk (by simp [Kind.isArray])
    rw [if_neg hns, if_pos hk, Option.some.injEq] at hd
    rw [hvi, ← hd, hkind, hcount, hvar1, hlater (i + 1) (by omega)]
  · rw [hkind] at hk hst
    rw [if_neg hst, if_neg (by rw [hk]; simp), Option.some.injEq] at hd
    rw [hvi, ← hd]
  · rw [hkind] at hk
    rw [hpar] at hp hn
    rw [if_pos hk] at hd
    cases hq : (rowOf u i).parent with
    | none => exact absurd hq hn
    | some p =>
      rw [hq] at hd
      dsimp only at hd
      have hpk : (rowOf u p).kind ≠ .struct := by
        have := hp p hq
        rw [hs.row p] at this
        exact this
      rw [if_neg hpk, Option.some.injEq] at hd
      rw [hvi, ← hd, hsize, hleft, hs.length, minsIn_congr hs fun k h1 _ => hlater k (by omega)]

/-- A struct that is not an element is the only row without a default of its own. -/
theorem defaultBody_none (hd : defaultBody u i = none) : (rowOf u i).kind = .struct ∧
    ∀ p, (rowOf u i).parent = some p → (rowOf u p).kind = .struct := by
  unfold defaultBody at hd
  dsimp only at hd
  by_cases hk : (rowOf u i).kind = .struct
  · rw [if_pos hk] at hd
    refine ⟨hk, fun p hq => ?_⟩
    rw [hq] at hd
    by_contra hc
    dsimp only at hd
    rw [if_neg hc] at hd
    cases hd
  · rw [if_neg hk] at hd
    split at hd <;> cases hd

/-- A fixed row and a struct that is not an element change nothing. -/
theorem MinsDown.kept {root : Nat} (h : MinsDown t u root (i + 1)) (hi : i < t.length)
    (hrec : ∀ r, RidesIn t (some r) i → r < i)
    (hu : (rowOf u i).var = false ∨ defaultBody u i = none) : MinsDown t u root i := by
  have hunframed : framedAt u i = false := by
    unfold framedAt rowFramed
    rcases hu with hv | hd
    · rw [hv]
      rfl
    · rw [(defaultBody_none hd).1]
      simp
  have hnot : ∀ r, ¬ RidesIn t r i := fun r => not_rides (h.same.framedAt i ▸ hunframed)
  refine h.step hi (sameButMin_refl u) hrec (fun j _ => ?_) ?_ ?_ h.small
  · rw [if_neg (hnot _), Nat.add_zero]
  · rw [if_neg (hnot _), Nat.add_zero]
  · rcases hu with hv | hd
    · refine ⟨fun hc => ?_, fun hc => ?_, fun hc => ?_⟩ <;> cases hc.symm.trans hv
    · obtain ⟨hk, hpar⟩ := defaultBody_none hd
      refine ⟨fun _ hc => ?_, fun _ _ hc => absurd hk hc, fun _ _ hc hn => ?_⟩
      · rw [hk] at hc
        cases hc
      · obtain ⟨p, hp⟩ := Option.ne_none_iff_exists'.mp hn
        exact absurd (hpar p hp) (hc p hp)

/-- The defaults once one is set. -/
theorem dmin_setMin {d : Nat} (hi : i < u.length) (j : Nat) :
    (rowOf (u.set i { rowOf u i with dmin := d }) j).dmin = if j = i then d else (rowOf u j).dmin := by
  split
  next hj => rw [hj, rowOf_set_self hi]
  next hj => rw [rowOf_set_ne fun hc => hj hc.symm]

/-- One row of the second loop. -/
theorem placeMin_down {root root' : Nat} (h : MinsDown t u root (i + 1)) (hi : i < t.length)
    (hrec : ∀ r, RidesIn t (some r) i → r < i) (hp : placeMin u root i = some (v, root')) :
    MinsDown t v root' i := by
  rcases placeMin_cases hp with ⟨rfl, rfl, hu⟩ | ⟨d, u₁, hd, hle, hu₁, hcase⟩
  · exact h.kept hi hrec hu
  have hiu : i < u.length := by rw [h.same.length]; exact hi
  have hset : SameButMin u u₁ := hu₁ ▸ sameButMin_set hiu
  have hmin : ∀ j, (rowOf u₁ j).dmin = if j = i then d else (rowOf u j).dmin := fun j =>
    hu₁ ▸ dmin_setMin hiu j
  have hself : (rowOf u₁ i).dmin = d := (hmin i).trans (if_pos rfl)
  have hne : ∀ j, j ≠ i → (rowOf u₁ j).dmin = (rowOf u j).dmin := fun j hj =>
    (hmin j).trans (if_neg hj)
  have hsmall : ∀ j, (rowOf u₁ j).dmin ≤ u32Max := by
    intro j
    rw [hmin]
    split
    · exact hle
    · exact h.small j
  have hleft : (rowOf u i).dmin = minsIn u (some i) (i + 1) (u.length - (i + 1)) := by
    rw [h.same.length]
    exact h.left i (Nat.lt_succ_self i)
  have hframed : rowFramed u₁ (rowOf u i) = framedAt t i := by
    rw [← h.same.framedAt]
    unfold framedAt rowFramed
    cases (rowOf u i).parent with
    | none => rfl
    | some p =>
      dsimp only
      rw [hset.row p]
  have hrow := minRow_set hd hset hself (fun k hk => hne k (by omega)) hleft
  rw [hframed, h.same.record i] at hcase
  rcases hcase with ⟨hf, rfl, rfl⟩ | ⟨hf, hr, rfl, rfl⟩ | ⟨r, hf, hr, hfit, rfl, rfl⟩
  · refine h.step hi hset hrec (fun j hj => ?_) ?_ hrow hsmall
    · rw [hne j hj, if_neg (not_rides hf), Nat.add_zero]
    · rw [if_neg (not_rides hf), Nat.add_zero]
  · refine h.step hi hset hrec (fun j hj => ?_) ?_ hrow hsmall
    · rw [hne j hj, if_neg fun hc => Option.some_ne_none j (hc.2.symm.trans hr), Nat.add_zero]
    · rw [if_pos ⟨hf, hr⟩, hself, Nat.add_assoc]
  · have hri := hrec r ⟨hf, hr⟩
    have hru : r < u₁.length := by rw [hset.length]; omega
    have hset' := sameButMin_trans hset (sameButMin_set (d := (rowOf u₁ r).dmin + 4 + d) hru)
    have hmin' := dmin_setMin (d := (rowOf u₁ r).dmin + 4 + d) hru
    have hvi := (hmin' i).trans ((if_neg (by omega)).trans hself)
    refine h.step hi hset' hrec (fun j hj => ?_) ?_ (minRow_set hd hset' hvi (fun k hk => ?_) hleft)
      fun j => ?_
    · rw [hvi, hmin']
      by_cases hjr : j = r
      · rw [if_pos hjr, hjr, if_pos ⟨hf, hr⟩, hne r (by omega), Nat.add_assoc]
      · rw [if_neg hjr, hne j hj, if_neg fun hc => hjr (Option.some.inj (hc.2.symm.trans hr)),
          Nat.add_zero]
    · rw [if_neg fun hc => Option.some_ne_none r (hr.symm.trans hc.2), Nat.add_zero]
    · rw [hmin', if_neg (by omega), hne k (by omega)]
    · rw [hmin']
      split
      · exact hfit
      · exact hsmall j

/-- The rest of the second loop. -/
theorem placeMins_down (hrec : ∀ i r, RidesIn t (some r) i → r < i) : ∀ (i : Nat) {u v : Table}
    {root root' : Nat}, MinsDown t u root i → i ≤ t.length → placeMins i u root = some (v, root') →
      MinsDown t v root' 0 := by
  intro i
  induction i with
  | zero =>
    intro u v root root' h _ hp
    simp only [placeMins, Option.some.injEq, Prod.mk.injEq] at hp
    obtain ⟨rfl, rfl⟩ := hp
    exact h
  | succ i ih =>
    intro u v root root' h hi hp
    simp only [placeMins, Option.bind_eq_bind] at hp
    obtain ⟨⟨u₁, root₁⟩, hone, hrest⟩ := Option.bind_eq_some_iff.mp hp
    exact ih (placeMin_down h (by omega) (hrec i) hone) (by omega) hrest

/-- The defaults of a finished table. -/
structure Minimal (s : Schema) : Prop where
  row : ∀ j, j < s.nfields → MinRow s.fields j
  small : ∀ j, (s.row j).dmin ≤ u32Max
  msgMin : s.msgMin = s.size + minsIn s.fields none 0 s.nfields
  fits : s.msgMin ≤ u32Max

/-- A row's record lies below the row. -/
theorem Built.rides_lt {s : Schema} {t₀ : Table} (hb : Built s t₀) {r : Nat}
    (h : RidesIn s.fields (some r) i) : r < i := by
  obtain ⟨hf, hrec⟩ := h
  obtain ⟨a, ha, rfl⟩ := rowRecord_eq_some.mp hrec
  have hi : i < s.nfields := by
    by_contra hc
    rw [rowOf_length_le (Nat.not_lt.mp hc)] at ha
    cases ha
  have hap := hb.arrParent_eq hi
  unfold framedAt rowFramed at hf
  cases hp : (s.row i).parent with
  | none =>
    rw [hp] at hap
    exact absurd (hap.symm.trans ha) (by simp)
  | some p =>
    have hpi := (hb.parent_spec hi hp).1
    have hp' : (rowOf s.fields i).parent = some p := hp
    rw [hp'] at hf
    simp only [Bool.and_eq_true, Bool.not_eq_true'] at hf
    rw [hp] at hap
    dsimp only at hap
    rw [if_neg (by rw [show (s.row p).kind.isArray = false from hf.2]; simp)] at hap
    have := (hb.arrParent_around (show p < s.nfields by omega) (hap.symm.trans ha)).2.1
    omega

/-- What compiling leaves of the defaults. -/
theorem compile_minimal {w : Bytes} {s : Schema} (h : compile w = some s) : Minimal s := by
  obtain ⟨-, t₀, hb, hplace⟩ := compile_placed h
  obtain ⟨vr, hlaid⟩ := hb.laid
  simp only [schemaPlace, Option.bind_eq_bind] at hplace
  obtain ⟨⟨u, root⟩, hmins, hplace⟩ := Option.bind_eq_some_iff.mp hplace
  dsimp only at hplace
  by_cases hbig : u32Max < s.size + root
  · rw [if_pos hbig] at hplace
    exact absurd hplace.symm (Option.some_ne_none _)
  rw [if_neg hbig, Option.some.injEq, Prod.mk.injEq, Prod.mk.injEq] at hplace
  obtain ⟨rfl, -, hmsg⟩ := hplace
  have hsame := placeMins_same hmins
  obtain ⟨t, ht⟩ : ∃ t, t = (placeRows t₀ 0 t₀.length 0).1 := ⟨_, rfl⟩
  rw [← ht] at hmins hsame
  have hzero : ∀ j, (rowOf t j).dmin = 0 := fun j => by rw [ht, placeRows_dmin, hlaid.dmin]
  have hstart : MinsDown t t 0 t.length :=
    ⟨sameButMin_refl t, fun j h1 h2 => absurd h2 (by omega),
      fun j _ => by rw [hzero, Nat.sub_self]; rfl, by rw [Nat.sub_self]; rfl,
      fun j => by rw [hzero]; exact Nat.zero_le _⟩
  have hdown := placeMins_down (fun i r hr => hb.rides_lt (hsame.rides.mpr hr)) t.length hstart
    (Nat.le_refl _) hmins
  have hroot := hdown.root
  rw [Nat.sub_zero, ← hsame.length] at hroot
  refine ⟨fun j hj => ?_, hdown.small, ?_, by omega⟩
  · exact hdown.done j (Nat.zero_le j) (by rw [← hsame.length]; exact hj)
  · rw [← hmsg, hroot]
    rfl

end Rant.Serialize
