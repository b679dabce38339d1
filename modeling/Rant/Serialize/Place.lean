import Rant.Serialize.Layout
/-!
# What the placing pass decides

`schemaPlace` changes a table in five columns only. After it every row knows its nearest
array, a framed row's ordinal counts the framed rows of its record before it, and a
record's frame count counts all of them (`Placed`). The second loop then changes `dmin`
alone.
-/

namespace Rant.Serialize

/-- Whether row `j` rides a frame. -/
def framedAt (t : Table) (j : Nat) : Bool := rowFramed t (rowOf t j)

/-- The framed rows of record `r` below row `i`. -/
def framesBelow (t : Table) (r : Option Nat) : Nat → Nat
  | 0 => 0
  | i + 1 => framesBelow t r i +
      if framedAt t i = true ∧ rowRecord (rowOf t i) = r then 1 else 0

theorem framesBelow_succ (t : Table) (r : Option Nat) (i : Nat) :
    framesBelow t r (i + 1) = framesBelow t r i +
      if framedAt t i = true ∧ rowRecord (rowOf t i) = r then 1 else 0 := rfl

variable {t u : Table} {r : Option Nat}

theorem framesBelow_congr : ∀ {i : Nat},
    (∀ j, j < i → framedAt u j = framedAt t j ∧ rowRecord (rowOf u j) = rowRecord (rowOf t j)) →
    framesBelow u r i = framesBelow t r i := by
  intro i
  induction i with
  | zero => intro _; rfl
  | succ i ih =>
    intro h
    have hi := h i (by omega)
    rw [framesBelow_succ, framesBelow_succ, ih fun j hj => h j (by omega), hi.1, hi.2]

variable {i : Nat}

theorem framesBelow_mono {j : Nat} (h : i ≤ j) :
    framesBelow t r i ≤ framesBelow t r j := by
  induction j with
  | zero =>
    obtain rfl : i = 0 := by omega
    exact Nat.le_refl _
  | succ j ih =>
    by_cases hij : i = j + 1
    · exact Nat.le_of_eq (by rw [hij])
    · have hrec := ih (by omega)
      rw [framesBelow_succ]
      omega

/-- A framed row of the record counts for the rows above it. -/
theorem framesBelow_lt {j : Nat} (h : i < j)
    (hf : framedAt t i = true) (hr : rowRecord (rowOf t i) = r) :
    framesBelow t r i < framesBelow t r j := by
  have hstep : framesBelow t r (i + 1) = framesBelow t r i + 1 := by
    rw [framesBelow_succ, if_pos ⟨hf, hr⟩]
  have hmono := framesBelow_mono (t := t) (r := r) (i := i + 1) (j := j) h
  omega

/-- Rows of other records count for none. -/
theorem framesBelow_skip {m n : Nat} (hmn : m ≤ n)
    (h : ∀ f, m ≤ f → f < n → rowRecord (rowOf t f) ≠ r) :
    framesBelow t r n = framesBelow t r m := by
  induction n with
  | zero =>
    obtain rfl : m = 0 := by omega
    rfl
  | succ n ih =>
    by_cases hm : m = n + 1
    · rw [hm]
    · rw [framesBelow_succ, if_neg fun hc => h n (by omega) (by omega) hc.2]
      exact ih (by omega) fun f hlo hhi => h f hlo (by omega)

/-- Two rows agree in every column the placing pass leaves alone. -/
def SameRow (f g : Field) : Prop :=
  g = { f with
    offset := g.offset, arrParent := g.arrParent, arrDepth := g.arrDepth, varOrd := g.varOrd
    nVar := g.nVar, dmin := g.dmin }

theorem sameRow_refl (f : Field) : SameRow f f := rfl

theorem sameRow_trans {f g h : Field} (h1 : SameRow f g) (h2 : SameRow g h) : SameRow f h := by
  unfold SameRow at h1 h2 ⊢
  rw [h2, h1]

/-- Two tables of the same rows, the placed columns aside. -/
structure SameTable (t u : Table) : Prop where
  length : u.length = t.length
  row : ∀ j, SameRow (rowOf t j) (rowOf u j)

theorem sameTable_refl (t : Table) : SameTable t t := ⟨rfl, fun _ => sameRow_refl _⟩

theorem sameTable_trans {v : Table} (h : SameTable t u) (h' : SameTable u v) :
    SameTable t v :=
  ⟨h'.length.trans h.length, fun j => sameRow_trans (h.row j) (h'.row j)⟩

theorem SameTable.kind (h : SameTable t u) (j : Nat) :
    (rowOf u j).kind = (rowOf t j).kind := by
  have := h.row j
  unfold SameRow at this
  rw [this]

theorem SameTable.var (h : SameTable t u) (j : Nat) :
    (rowOf u j).var = (rowOf t j).var := by
  have := h.row j
  unfold SameRow at this
  rw [this]

theorem SameTable.parent (h : SameTable t u) (j : Nat) :
    (rowOf u j).parent = (rowOf t j).parent := by
  have := h.row j
  unfold SameRow at this
  rw [this]

theorem SameTable.size (h : SameTable t u) (j : Nat) :
    (rowOf u j).size = (rowOf t j).size := by
  have := h.row j
  unfold SameRow at this
  rw [this]

theorem SameTable.next (h : SameTable t u) (j : Nat) :
    (rowOf u j).next = (rowOf t j).next := by
  have := h.row j
  unfold SameRow at this
  rw [this]

theorem SameTable.framedAt (h : SameTable t u) (j : Nat) :
    framedAt u j = Rant.Serialize.framedAt t j := by
  unfold Rant.Serialize.framedAt rowFramed
  rw [h.kind j, h.var j, h.parent j]
  cases (rowOf t j).parent with
  | none => rfl
  | some p =>
    dsimp only
    rw [h.kind p]

/-- Row `i` of a table replaced by one that agrees in every other column. -/
theorem sameTable_set (hi : i < t.length) {f : Field}
    (h : SameRow (rowOf t i) f) : SameTable t (t.set i f) where
  length := List.length_set
  row j := by
    by_cases hj : i = j
    · subst hj
      rw [rowOf_set_self hi]
      exact h
    · rw [rowOf_set_ne hj]
      exact sameRow_refl _

/-! ## The first loop -/

/-- Row `j` of `t` is placed, `t₀` the table before. -/
structure RowPlaced (t₀ t : Table) (j : Nat) : Prop where
  arrParent : (rowOf t j).arrParent = nearestArray t (rowOf t j).parent
  arrDepth : (rowOf t j).arrDepth = match (rowOf t j).arrParent with
    | none => 0
    | some a => (rowOf t a).arrDepth + 1
  framed : framedAt t j = true →
    (rowOf t j).offset = 0 ∧ (rowOf t j).varOrd = framesBelow t (rowRecord (rowOf t j)) j
  fixed : framedAt t j = false → (rowOf t j).offset = (rowOf t₀ j).offset
  above : ∀ a, (rowOf t j).arrParent = some a → a < j

/-- The rows below `i` of `t` are placed, those from `i` on are as they were, and every
record counts its framed rows below `i`. -/
structure PlacedTo (t₀ t : Table) (ord i : Nat) : Prop where
  same : SameTable t₀ t
  placed : ∀ j, j < i → RowPlaced t₀ t j
  rest : ∀ j, i ≤ j → (rowOf t j).offset = (rowOf t₀ j).offset
  nVar : ∀ r, (rowOf t r).nVar = framesBelow t (some r) i
  ord : ord = framesBelow t none i

variable {t₀ : Table}

/-- What a change of row `i` and of frame counts leaves of the rows below. -/
theorem RowPlaced.congr {j : Nat} (h : RowPlaced t₀ t j) (hsame : SameTable t u)
    (hcol : ∀ k, k ≤ j → (rowOf u k).arrParent = (rowOf t k).arrParent ∧
      (rowOf u k).arrDepth = (rowOf t k).arrDepth)
    (hpar : ∀ q, (rowOf t j).parent = some q → q < j)
    (hoff : (rowOf u j).offset = (rowOf t j).offset)
    (hord : (rowOf u j).varOrd = (rowOf t j).varOrd) : RowPlaced t₀ u j := by
  have hj := hcol j (Nat.le_refl _)
  have hrec : ∀ k, k ≤ j → rowRecord (rowOf u k) = rowRecord (rowOf t k) := by
    intro k hk
    unfold rowRecord
    rw [(hcol k hk).1]
  refine ⟨?_, ?_, fun hf => ?_, fun hf => ?_, fun a ha => ?_⟩
  · rw [hj.1, h.arrParent, hsame.parent j]
    unfold nearestArray
    cases hp : (rowOf t j).parent with
    | none => rfl
    | some p =>
      have hlt := hpar p hp
      dsimp only
      rw [hsame.kind p, (hcol p (by omega)).1]
  · rw [hj.2, h.arrDepth, hj.1]
    cases ha : (rowOf t j).arrParent with
    | none => rfl
    | some a =>
      have hlt := h.above a ha
      dsimp only
      rw [(hcol a (by omega)).2]
  · rw [hsame.framedAt] at hf
    obtain ⟨h1, h2⟩ := h.framed hf
    refine ⟨hoff.trans h1, ?_⟩
    rw [hord, h2, hrec j (Nat.le_refl _)]
    exact (framesBelow_congr fun k hk => ⟨hsame.framedAt k, hrec k (by omega)⟩).symm
  · rw [hsame.framedAt] at hf
    exact hoff.trans (h.fixed hf)
  · rw [hj.1] at ha
    exact h.above a ha

variable {ord : Nat}

/-- Placing row `i` extends the placed rows by it. -/
theorem PlacedTo.step {ord' : Nat} (h : PlacedTo t₀ t ord i)
    (hpar : ∀ j q, (rowOf t j).parent = some q → q < j) (hsame : SameTable t u)
    (hcol : ∀ k, k ≠ i → (rowOf u k).arrParent = (rowOf t k).arrParent ∧
      (rowOf u k).arrDepth = (rowOf t k).arrDepth ∧ (rowOf u k).offset = (rowOf t k).offset ∧
      (rowOf u k).varOrd = (rowOf t k).varOrd)
    (hap : (rowOf u i).arrParent = nearestArray t (rowOf t i).parent)
    (had : (rowOf u i).arrDepth = match (rowOf u i).arrParent with
      | none => 0
      | some a => (rowOf t a).arrDepth + 1)
    (hfr : framedAt t i = true →
      (rowOf u i).offset = 0 ∧ (rowOf u i).varOrd = framesBelow t (rowRecord (rowOf u i)) i)
    (hfix : framedAt t i = false → (rowOf u i).offset = (rowOf t i).offset)
    (hn : ∀ r, (rowOf u r).nVar = (rowOf t r).nVar +
      if framedAt t i = true ∧ rowRecord (rowOf u i) = some r then 1 else 0)
    (hord : ord' = ord + if framedAt t i = true ∧ rowRecord (rowOf u i) = none then 1 else 0) :
    PlacedTo t₀ u ord' (i + 1) := by
  have hrec : ∀ k, k ≠ i → rowRecord (rowOf u k) = rowRecord (rowOf t k) := by
    intro k hk
    unfold rowRecord
    rw [(hcol k hk).1]
  have hbelow : ∀ r, framesBelow u r i = framesBelow t r i := by
    intro r
    apply framesBelow_congr
    intro k hk
    exact ⟨hsame.framedAt k, hrec k (by omega)⟩
  -- the nearest array of row `i` lies below it
  have habove : ∀ a, nearestArray t (rowOf t i).parent = some a → a < i := by
    intro a ha
    unfold nearestArray at ha
    cases hp : (rowOf t i).parent with
    | none =>
      rw [hp] at ha
      cases ha
    | some p =>
      rw [hp] at ha
      have hlt := hpar i p hp
      dsimp only at ha
      split at ha
      next =>
        obtain rfl := Option.some.inj ha
        exact hlt
      next =>
        have := (h.placed p hlt).above a ha
        omega
  refine ⟨sameTable_trans h.same hsame, fun j hj => ?_, fun j hj => ?_, fun r => ?_, ?_⟩
  · by_cases hji : j = i
    · subst hji
      have hnear : nearestArray u (rowOf u j).parent = nearestArray t (rowOf t j).parent := by
        rw [hsame.parent j]
        unfold nearestArray
        cases hp : (rowOf t j).parent with
        | none => rfl
        | some p =>
          have hlt := hpar j p hp
          dsimp only
          rw [hsame.kind p, (hcol p (by omega)).1]
      refine ⟨hap.trans hnear.symm, ?_, fun hf => ?_, fun hf => ?_, fun a ha => ?_⟩
      · rw [had]
        cases ha : (rowOf u j).arrParent with
        | none => rfl
        | some a =>
          have hlt := habove a (hap.symm.trans ha)
          dsimp only
          rw [(hcol a (by omega)).2.1]
      · rw [hsame.framedAt] at hf
        rw [hbelow]
        exact hfr hf
      · rw [hsame.framedAt] at hf
        exact (hfix hf).trans (h.rest j (Nat.le_refl _))
      · exact habove a (hap.symm.trans ha)
    · have hjlt : j < i := by omega
      refine (h.placed j hjlt).congr hsame (fun k hk => ?_) (hpar j) ?_ ?_
      · have := hcol k (by omega)
        exact ⟨this.1, this.2.1⟩
      · exact (hcol j hji).2.2.1
      · exact (hcol j hji).2.2.2
  · exact ((hcol j (by omega)).2.2.1).trans (h.rest j (by omega))
  · rw [hn r, h.nVar r, framesBelow_succ, hbelow, hsame.framedAt]
  · rw [hord, h.ord, framesBelow_succ, hbelow, hsame.framedAt]

/-- Placing row `i` writes that row alone, where it counts in no record. -/
theorem PlacedTo.setRow {g : Field} {ord' : Nat} (h : PlacedTo t₀ t ord i)
    (hpar : ∀ j q, (rowOf t j).parent = some q → q < j) (hi : i < t.length)
    (hsame : SameRow (rowOf t i) g) (hap : g.arrParent = nearestArray t (rowOf t i).parent)
    (had : g.arrDepth = match g.arrParent with
      | none => 0
      | some a => (rowOf t a).arrDepth + 1)
    (hfr : framedAt t i = true → g.offset = 0 ∧ g.varOrd = framesBelow t none i ∧ rowRecord g = none)
    (hfix : framedAt t i = false → g.offset = (rowOf t i).offset)
    (hnv : g.nVar = (rowOf t i).nVar) (hord : ord' = ord + if framedAt t i = true then 1 else 0) :
    PlacedTo t₀ (t.set i g) ord' (i + 1) := by
  have hself : rowOf (t.set i g) i = g := rowOf_set_self hi g
  have hother : ∀ k, k ≠ i → rowOf (t.set i g) k = rowOf t k := fun k hk =>
    rowOf_set_ne (fun he => hk he.symm) g
  refine h.step hpar (sameTable_set hi hsame) ?_ ?_ ?_ ?_ ?_ ?_ ?_
  · intro k hk
    rw [hother k hk]
    exact ⟨rfl, rfl, rfl, rfl⟩
  · rw [hself]
    exact hap
  · rw [hself]
    exact had
  · intro hframed
    obtain ⟨hoff, hvar, hrec⟩ := hfr hframed
    rw [hself, hrec]
    exact ⟨hoff, hvar⟩
  · rw [hself]
    exact hfix
  · intro r
    rw [hself, if_neg fun hc => by cases (hfr hc.1).2.2.symm.trans hc.2]
    by_cases hr : r = i
    · rw [hr, hself]
      exact hnv
    · rw [hother r hr]
      rfl
  · rw [hord, hself]
    by_cases hframed : framedAt t i = true
    · rw [if_pos hframed, if_pos ⟨hframed, (hfr hframed).2.2⟩]
    · rw [if_neg hframed, if_neg fun hc => hframed hc.1]

/-- The record a framed row counts in lies below the row. -/
theorem PlacedTo.record_lt {f : Field} {r : Nat} (h : PlacedTo t₀ t ord i)
    (hpar : ∀ j q, (rowOf t j).parent = some q → q < j)
    (hap : f.arrParent = nearestArray t (rowOf t i).parent) (hfr : framedAt t i = true)
    (hrec : rowRecord f = some r) : r < i := by
  unfold rowRecord at hrec
  rw [hap] at hrec
  unfold nearestArray at hrec
  unfold framedAt rowFramed at hfr
  cases hp : (rowOf t i).parent with
  | none =>
    rw [hp] at hrec
    cases hrec
  | some p =>
    rw [hp] at hrec hfr
    have hpi := hpar i p hp
    simp only [Bool.and_eq_true, Bool.not_eq_true'] at hfr
    dsimp only at hrec
    rw [hfr.2] at hrec
    obtain ⟨a, ha, hra⟩ := Option.map_eq_some_iff.mp hrec
    have := (h.placed p hpi).above a ha
    omega

/-- One row of the first loop. -/
theorem placeRow_placed (h : PlacedTo t₀ t ord i)
    (hpar : ∀ j q, (rowOf t j).parent = some q → q < j) (hi : i < t.length) :
    PlacedTo t₀ (placeRow t ord i).1 (placeRow t ord i).2 (i + 1) := by
  obtain ⟨f, hf⟩ : ∃ f, f = placedRow t i := ⟨_, rfl⟩
  have hframed : rowFramed t f = framedAt t i := by rw [hf]; rfl
  have hap : f.arrParent = nearestArray t (rowOf t i).parent := by rw [hf]; rfl
  have had : f.arrDepth = match f.arrParent with
      | none => 0
      | some a => (rowOf t a).arrDepth + 1 := by rw [hf]; rfl
  have hsame : SameRow (rowOf t i) f := by rw [hf]; rfl
  have hoff : f.offset = (rowOf t i).offset := by rw [hf]; rfl
  have hnv : f.nVar = (rowOf t i).nVar := by rw [hf]; rfl
  unfold placeRow
  dsimp only
  rw [← hf, hframed]
  clear hf
  by_cases hfr : framedAt t i = true
  · rw [if_pos hfr]
    cases hrec : rowRecord f with
    | none =>
      -- a frame of the message
      dsimp only
      exact h.setRow hpar hi (sameRow_trans hsame rfl) hap had (fun _ => ⟨rfl, h.ord, hrec⟩)
        (fun hc => Bool.noConfusion (hfr.symm.trans hc)) hnv (by rw [if_pos hfr])
    | some r =>
      -- a frame of an element's record, whose row counts it
      dsimp only
      have hlt := h.record_lt hpar hap hfr hrec
      obtain ⟨g, hg⟩ : ∃ g : Field, g = { f with offset := 0, varOrd := (rowOf t r).nVar } :=
        ⟨_, rfl⟩
      rw [← hg]
      have hgrec : rowRecord g = some r := by
        rw [hg]
        exact hrec
      have hset : SameTable t (t.set i g) :=
        sameTable_set hi (by rw [hg]; exact sameRow_trans hsame rfl)
      have hlen : r < (t.set i g).length := by
        rw [hset.length]
        omega
      have hother : ∀ k, k ≠ i → rowOf (t.set i g) k = rowOf t k := fun k hk =>
        rowOf_set_ne (fun he => hk he.symm) g
      have hset' : SameTable (t.set i g) (bumpFrames (t.set i g) r) := sameTable_set hlen rfl
      have hrowi : rowOf (bumpFrames (t.set i g) r) i = g := by
        unfold bumpFrames
        rw [rowOf_set_ne (by omega), rowOf_set_self hi]
      have hrowr : rowOf (bumpFrames (t.set i g) r) r =
          { rowOf t r with nVar := (rowOf t r).nVar + 1 } := by
        unfold bumpFrames
        rw [rowOf_set_self hlen, hother r (by omega)]
      have hrowk : ∀ k, k ≠ i → k ≠ r → rowOf (bumpFrames (t.set i g) r) k = rowOf t k := by
        intro k hki hkr
        unfold bumpFrames
        rw [rowOf_set_ne (fun he => hkr he.symm), hother k hki]
      refine h.step hpar (sameTable_trans hset hset') ?_ ?_ ?_ ?_ ?_ ?_ ?_
      · intro k hk
        by_cases hkr : k = r
        · rw [hkr, hrowr]
          exact ⟨rfl, rfl, rfl, rfl⟩
        · rw [hrowk k hk hkr]
          exact ⟨rfl, rfl, rfl, rfl⟩
      · rw [hrowi, hg]
        exact hap
      · rw [hrowi, hg]
        exact had
      · intro _
        rw [hrowi, hgrec, hg]
        exact ⟨rfl, h.nVar r⟩
      · intro hc
        exact Bool.noConfusion (hfr.symm.trans hc)
      · intro q
        rw [hrowi, hgrec]
        by_cases hqr : r = q
        · subst hqr
          rw [hrowr, if_pos ⟨hfr, rfl⟩]
        rw [if_neg fun hc => hqr (Option.some.inj hc.2)]
        by_cases hqi : q = i
        · rw [hqi, hrowi, hg]
          exact hnv
        · rw [hrowk q hqi fun hc => hqr hc.symm]
          rfl
      · rw [hrowi, hgrec, if_neg fun hc => by cases hc.2]
        rfl
  · rw [if_neg hfr]
    exact h.setRow hpar hi hsame hap had (fun hc => absurd hc hfr) (fun _ => hoff) hnv (by rw [if_neg hfr]; rfl)

/-- The first loop, from row `i` on. -/
theorem placeRows_placed (hpar : ∀ j q, (rowOf t₀ j).parent = some q → q < j)
    {n : Nat} : ∀ {t : Table} {ord i : Nat}, PlacedTo t₀ t ord i → i + n ≤ t.length →
      PlacedTo t₀ (placeRows t ord n i).1 (placeRows t ord n i).2 (i + n) := by
  induction n with
  | zero => intro t ord i h _; exact h
  | succ n ih =>
    intro t ord i h hlen
    have hstep := placeRow_placed h (fun j q hq => hpar j q (by rw [← h.same.parent j]; exact hq))
      (by omega)
    have hlen' : (placeRow t ord i).1.length = t.length :=
      hstep.same.length.trans h.same.length.symm
    have hrec := ih hstep (by rw [hlen']; omega)
    rw [show i + (n + 1) = i + 1 + n by omega]
    exact hrec

/-! ## The second loop -/

/-- Two tables of the same rows, their defaults aside. -/
structure SameButMin (t u : Table) : Prop where
  length : u.length = t.length
  row : ∀ j, rowOf u j = { rowOf t j with dmin := (rowOf u j).dmin }

theorem sameButMin_refl (t : Table) : SameButMin t t := ⟨rfl, fun _ => rfl⟩

theorem sameButMin_trans {v : Table} (h : SameButMin t u) (h' : SameButMin u v) :
    SameButMin t v := by
  refine ⟨h'.length.trans h.length, fun j => ?_⟩
  rw [h'.row j, h.row j]

theorem sameButMin_set {d : Nat} (hi : i < t.length) :
    SameButMin t (t.set i { rowOf t i with dmin := d }) := by
  refine ⟨List.length_set, fun j => ?_⟩
  by_cases hj : i = j
  · subst hj
    rw [rowOf_set_self hi]
  · rw [rowOf_set_ne hj]

theorem rowOf_length_le (h : t.length ≤ i) : rowOf t i = default := by
  unfold rowOf
  rw [List.getD_eq_getElem?_getD, List.getElem?_eq_none h]
  rfl

/-- Setting a default past the table's end changes nothing. -/
theorem sameButMin_setMin (t : Table) (i d : Nat) :
    SameButMin t (t.set i { rowOf t i with dmin := d }) := by
  by_cases hi : i < t.length
  · exact sameButMin_set hi
  · rw [List.set_eq_of_length_le (by omega)]
    exact sameButMin_refl t

/-- What one row of the second loop does: nothing, or its default is set, and its frame joins
the message's or its record's. -/
theorem placeMin_cases {root root' : Nat}
    (h : placeMin t root i = some (u, root')) :
    u = t ∧ root' = root ∧ ((rowOf t i).var = false ∨ defaultBody t i = none) ∨
    ∃ d t₁, defaultBody t i = some d ∧ d ≤ u32Max ∧ t₁ = t.set i { rowOf t i with dmin := d } ∧
      (rowFramed t₁ (rowOf t i) = false ∧ u = t₁ ∧ root' = root ∨
      rowFramed t₁ (rowOf t i) = true ∧ rowRecord (rowOf t i) = none ∧ u = t₁ ∧
        root' = root + 4 + d ∨
      ∃ r, rowFramed t₁ (rowOf t i) = true ∧ rowRecord (rowOf t i) = some r ∧
        (rowOf t₁ r).dmin + 4 + d ≤ u32Max ∧
        u = t₁.set r { rowOf t₁ r with dmin := (rowOf t₁ r).dmin + 4 + d } ∧ root' = root) := by
  have hsome : ∀ {x : Table × Nat}, some x = some (u, root') → u = x.1 ∧ root' = x.2 := fun hx =>
    Prod.ext_iff.mp (Option.some.inj hx).symm
  unfold placeMin at h
  dsimp only at h
  split at h
  next hv => exact Or.inl ⟨(hsome h).1, (hsome h).2, Or.inl hv⟩
  split at h
  next hd => exact Or.inl ⟨(hsome h).1, (hsome h).2, Or.inr hd⟩
  next d hd =>
    split at h
    next => cases h
    next hle =>
      refine Or.inr ⟨d, _, hd, Nat.not_lt.mp hle, rfl, ?_⟩
      split at h
      next hf =>
        split at h
        next hr => exact Or.inr (Or.inl ⟨hf, hr, hsome h⟩)
        next r hr =>
          split at h
          next => cases h
          next hfit => exact Or.inr (Or.inr ⟨r, hf, hr, Nat.not_lt.mp hfit, hsome h⟩)
      next hf => exact Or.inl ⟨Bool.not_eq_true _ ▸ hf, hsome h⟩

theorem placeMin_same {root root' : Nat}
    (h : placeMin t root i = some (u, root')) : SameButMin t u := by
  rcases placeMin_cases h with ⟨rfl, -⟩ |
    ⟨d, t₁, -, -, rfl, ⟨-, rfl, -⟩ | ⟨-, -, rfl, -⟩ | ⟨r, -, -, -, rfl, -⟩⟩
  · exact sameButMin_refl u
  · exact sameButMin_setMin t i d
  · exact sameButMin_setMin t i d
  · exact sameButMin_trans (sameButMin_setMin t i d) (sameButMin_setMin _ r _)

theorem placeMins_same : ∀ {t u : Table} {root root' : Nat},
    placeMins i t root = some (u, root') → SameButMin t u := by
  induction i with
  | zero =>
    intro t u root root' h
    simp only [placeMins, Option.some.injEq, Prod.mk.injEq] at h
    rw [← h.1]
    exact sameButMin_refl t
  | succ i ih =>
    intro t u root root' h
    simp only [placeMins, Option.bind_eq_bind] at h
    obtain ⟨⟨t₁, root₁⟩, hone, hrest⟩ := Option.bind_eq_some_iff.mp h
    exact sameButMin_trans (placeMin_same hone) (ih hrest)

/-- The second loop leaves what the first placed. -/
theorem PlacedTo.min (h : PlacedTo t₀ t ord i)
    (hsame : SameButMin t u) : PlacedTo t₀ u ord i := by
  have hst : SameTable t u := by
    refine ⟨hsame.length, fun j => ?_⟩
    have := hsame.row j
    unfold SameRow
    rw [this]
  have hframes : ∀ r k, framesBelow u r k = framesBelow t r k := by
    intro r k
    apply framesBelow_congr
    intro j _
    refine ⟨hst.framedAt j, ?_⟩
    rw [hsame.row j]
    rfl
  refine ⟨sameTable_trans h.same hst, fun j hj => ?_, fun j hj => ?_, fun r => ?_, ?_⟩
  · have hp := h.placed j hj
    have hnear : nearestArray u (rowOf u j).parent = nearestArray t (rowOf t j).parent := by
      rw [hst.parent j]
      unfold nearestArray
      cases (rowOf t j).parent with
      | none => rfl
      | some p =>
        dsimp only
        rw [hsame.row p]
    have hrow := hsame.row j
    refine ⟨?_, ?_, fun hf => ?_, fun hf => ?_, fun a ha => ?_⟩
    · rw [hnear, ← hp.arrParent, hrow]
    · rw [hrow]
      dsimp only
      rw [hp.arrDepth]
      cases (rowOf t j).arrParent with
      | none => rfl
      | some a =>
        dsimp only
        rw [hsame.row a]
    · rw [hst.framedAt] at hf
      rw [hframes, hrow]
      exact hp.framed hf
    · rw [hst.framedAt] at hf
      rw [hrow]
      exact hp.fixed hf
    · rw [hrow] at ha
      exact hp.above a ha
  · rw [hsame.row j]
    exact h.rest j hj
  · rw [hframes, ← h.nVar r, hsame.row r]
  · rw [hframes]
    exact h.ord

/-! ## What compiling builds -/

/-- No array row of `[i, n)` lies at the depth limit. -/
def ArraysShallow (T : Nat → Field) (i n : Nat) : Prop :=
  ∀ j, i ≤ j → j < n → (T j).kind.isArray = true → (T j).depth < maxDepth

/-- A compiled schema over the rows `t₀` its type flattened to. -/
structure Built (s : Schema) (t₀ : Table) : Prop where
  laid : ∃ var, Laid (rowOf t₀) (!s.valueRoot) 0 t₀.length 0 none 0 s.size var
  spelled : ∃ mem pos pos', Spelled s.wire (rowOf t₀) mem 0 t₀.length pos pos' ∧
    (mem = none ↔ s.valueRoot = true) ∧ pos ≤ s.wire.length
  rootName : s.valueRoot = true → (rowOf t₀ 0).name = []
  placed : PlacedTo t₀ s.fields s.nVar s.nfields
  shallow : ArraysShallow (rowOf t₀) 0 t₀.length

/-- The rows of a layout are unplaced and lie below their parents. -/
theorem Laid.unplaced {mem : Bool} {size : Nat} {var : Bool}
    (h : Laid (rowOf t₀) mem 0 t₀.length 0 none 0 size var) :
    (∀ r, (rowOf t₀ r).nVar = 0) ∧ ∀ j q, (rowOf t₀ j).parent = some q → q < j := by
  constructor
  · intro r
    by_cases hr : r < t₀.length
    · exact (h.block (Nat.zero_le r) hr).2.head.nVar
    · rw [rowOf_length_le (by omega)]
      rfl
  · intro j q hq
    by_cases hj : j < t₀.length
    · rcases h.parent (Nat.zero_le j) hj with ⟨hp, -⟩ | ⟨q', hq', -, -, hlt, -⟩
      · cases hp.symm.trans hq
      · obtain rfl := Option.some.inj (hq'.symm.trans hq)
        exact hlt
    · rw [rowOf_length_le (by omega)] at hq
      cases hq

/-- The placing pass over a layout. -/
theorem schemaPlace_placed {mem : Bool} {size dmin : Nat} {var : Bool}
    (h : Laid (rowOf t₀) mem 0 t₀.length 0 none 0 size var)
    (hp : schemaPlace t₀ size = some (t, ord, dmin)) : PlacedTo t₀ t ord t.length := by
  simp only [schemaPlace, Option.bind_eq_bind] at hp
  obtain ⟨⟨t₂, root⟩, hmins, hp⟩ := Option.bind_eq_some_iff.mp hp
  dsimp only at hp
  split at hp
  next => cases hp
  simp only [Option.some.injEq, Prod.mk.injEq] at hp
  obtain ⟨rfl, rfl, -⟩ := hp
  have hstart : PlacedTo t₀ t₀ 0 0 :=
    ⟨sameTable_refl t₀, fun j hj => absurd hj (Nat.not_lt_zero j), fun _ _ => rfl,
      fun r => h.unplaced.1 r, rfl⟩
  have hrun := placeRows_placed h.unplaced.2 (n := t₀.length) hstart (by omega)
  have hfin := hrun.min (placeMins_same hmins)
  rw [hfin.same.length]
  rw [Nat.zero_add] at hfin
  exact hfin

end Rant.Serialize
