import Rant.Serialize.Flat
/-!
# Placing a tree's rows

The second loop of `i_rant_schema_place` over the rows of a tree. A member's default frames
join its record, the message or the element around it, and an element's default body ends up
in its own row. Every length the loop checks was checked by the measuring walk already, so it
never refuses, and the message's default is the one that walk measured.
-/

namespace Rant.Serialize

open Rant.Lib

/-! ## Rows the first loop placed -/

/-- A row under `p`: an array's element, or a member of a struct or of the root. -/
def Sits (t : Table) (p : Option Nat) (elem : Bool) : Prop :=
  match p with
  | none => elem = false
  | some q => (elem = true ∧ (rowOf t q).kind.isArray = true) ∨
      (elem = false ∧ (rowOf t q).kind = .struct)

/-- Row `i` is the node `ty`, in record `r`; `elem` when it is an array's element. -/
structure NodeReady (t : Table) (ty : Ty) (i : Nat) (r : Option Nat) (elem : Bool) : Prop where
  kind : (rowOf t i).kind = ty.kind
  var : (rowOf t i).var = ty.measure.var
  size : (rowOf t i).size = ty.measure.size
  record : rowRecord (rowOf t i) = r
  parent : Sits t (rowOf t i).parent elem

mutual
/-- The rows from `i` on are placed as those of a type. -/
def Ty.Ready (t : Table) : Ty → Nat → Option Nat → Bool → Prop
  | .named _ ty, i, r, elem => ty.Ready t i r elem
  | .arr count e, i, r, elem => NodeReady t (.arr count e) i r elem ∧ (rowOf t i).count = count ∧
      e.Ready t (i + 1) (some (i + 1)) true
  | .varr e, i, r, elem => NodeReady t (.varr e) i r elem ∧ e.Ready t (i + 1) (some (i + 1)) true
  | .struct ms, i, r, elem => NodeReady t (.struct ms) i r elem ∧ ms.Ready t (i + 1) r
  | ty, i, r, elem => NodeReady t ty i r elem
/-- The rows from `i` on are placed as those of members of record `r`. -/
def Members.Ready (t : Table) : Members → Nat → Option Nat → Prop
  | .nil, _, _ => True
  | .cons _ ty rest, i, r => ty.Ready t i r false ∧ rest.Ready t (i + 1 + ty.rows) r
end

variable {t₀ t : Table}

variable {T : Nat → Field}

/-- Row `i` has an array's layout over its element's. -/
theorem Laid.array_inv {i n d : Nat} {p : Option Nat} {base size : Nat}
    {var : Bool} (h : Laid T false i n d p base size var) (hk : (T i).kind.isArray = true) :
    HeadOk (T i) d p base n size var ∧ ∃ esize evar, ArrayOk (T i) esize evar ∧
      Laid T false (i + 1) n (d + 1) (some i) 0 esize evar := by
  cases h with
  | leaf _ hl =>
    rw [hl.kind.2] at hk
    exact absurd hk Bool.false_ne_true
  | array hh _ ha hrec => exact ⟨hh, _, _, ha, hrec⟩
  | struct _ hc _ =>
    rw [hc] at hk
    exact absurd hk (by simp [Kind.isArray])

theorem Laid.struct_inv {i n d : Nat} {p : Option Nat} {base size : Nat}
    {var : Bool} (h : Laid T false i n d p base size var) (hk : (T i).kind = .struct) :
    HeadOk (T i) d p base n size var ∧ Laid T true (i + 1) n (d + 1) (some i) base size var := by
  cases h with
  | leaf _ hl => exact absurd hk hl.kind.1
  | array _ hc _ _ =>
    rw [hk] at hc
    exact absurd hc (by simp [Kind.isArray])
  | struct hh _ hrec => exact ⟨hh, hrec⟩

theorem Laid.leaf_inv {i n d : Nat} {p : Option Nat} {base size : Nat}
    {var : Bool} (h : Laid T false i n d p base size var) (h1 : (T i).kind ≠ .struct)
    (h2 : (T i).kind.isArray = false) :
    HeadOk (T i) d p base n size var ∧ LeafOk (T i) := by
  cases h with
  | leaf hh hl => exact ⟨hh, hl⟩
  | array _ hc _ _ =>
    rw [h2] at hc
    exact absurd hc Bool.false_ne_true
  | struct _ hc _ => exact absurd hc h1

/-- The place of a type's row under its parent `p`. -/
structure Under (t : Table) (p : Option Nat) (r : Option Nat) (elem : Bool) : Prop where
  record : (nearestArray t p).map (· + 1) = r
  parent : Sits t p elem

/-- What a node is laid out as and placed as. -/
structure Placement (t : Table) (ty : Ty) (i : Nat) (r : Option Nat) (elem : Bool) (size : Nat)
    (var : Bool) : Prop where
  size : size = ty.measure.size
  var : var = ty.measure.var
  ready : ty.Ready t i r elem

/-- A row of the layout, placed under its parent. -/
theorem nodeReady_of_head {i n d : Nat} {p : Option Nat} {base : Nat} {r : Option Nat}
    {elem : Bool} {ty : Ty} (hsame : SameTable t₀ t)
    (hap : (rowOf t i).arrParent = nearestArray t (rowOf t i).parent) (hu : Under t p r elem)
    (hh : HeadOk (rowOf t₀ i) d p base n ty.measure.size ty.measure.var)
    (hk : (rowOf t₀ i).kind = ty.kind) : NodeReady t ty i r elem where
  kind := (hsame.kind i).trans hk
  var := (hsame.var i).trans hh.var
  size := (hsame.size i).trans hh.size
  record := by
    rw [rowRecord, hap, hsame.parent i, hh.parent]
    exact hu.record
  parent := by
    rw [hsame.parent i, hh.parent]
    exact hu.parent

/-- A leaf's row has its kind, and measures what the leaf does. -/
theorem Ty.measure_of_leafOk {ty : Ty} {D i q : Nat} {named : Bool}
    (hok : ty.Ok D named) (hty : ty.isLeaf = true) (hrows : ty.Rows T i q) :
    (T i).kind = ty.kind ∧
      (LeafOk (T i) → (T i).size = ty.measure.size ∧ (T i).var = ty.measure.var) := by
  cases ty with
  | scalar k =>
    have hk : (T i).kind = k := hrows
    refine ⟨hk, fun hleaf => ?_⟩
    unfold LeafOk at hleaf
    rw [hk] at hleaf
    cases k <;> first
      | exact hleaf
      | exact absurd hok (Nat.lt_irrefl 0)
  | str cap =>
    obtain ⟨hk, hcap⟩ := hrows
    refine ⟨hk, fun hleaf => ?_⟩
    unfold LeafOk at hleaf
    rw [hk, hcap] at hleaf
    exact hleaf
  | enum b opts =>
    obtain ⟨hk, hback, -⟩ := hrows
    refine ⟨hk, fun hleaf => ?_⟩
    unfold LeafOk at hleaf
    rw [hk, hback] at hleaf
    exact ⟨hleaf.1, hleaf.2.2⟩
  | vstr | map =>
    refine ⟨hrows, fun hleaf => ?_⟩
    unfold LeafOk at hleaf
    rw [show (T i).kind = _ from hrows] at hleaf
    exact hleaf
  | _ => cases hty

section Placed

variable (hsame : SameTable t₀ t)
  (hap : ∀ j, j < t.length → (rowOf t j).arrParent = nearestArray t (rowOf t j).parent)
  {ty : Ty} {i n d q : Nat} {p : Option Nat} {base size : Nat} {var : Bool} {r : Option Nat} {elem : Bool}
include hsame hap

/-- A leaf of the layout, placed. -/
theorem leaf_placement {D : Nat} {named : Bool} (hok : ty.Ok D named) (hty : ty.isLeaf = true)
    (hrows : ty.Rows (rowOf t₀) i q) (hl : Laid (rowOf t₀) false i n d p base size var)
    (hn : n ≤ t.length) (hu : Under t p r elem) : Placement t ty i r elem size var := by
  have hle := hl.le
  simp only [Bool.false_eq_true, if_false] at hle
  obtain ⟨hk, hmeasure⟩ := ty.measure_of_leafOk hok hty hrows
  obtain ⟨hh, hleaf⟩ := hl.leaf_inv (by rw [hk]; exact (Ty.leaf_kind hty hok).1)
    (by rw [hk]; exact (Ty.leaf_kind hty hok).2)
  obtain ⟨hs, hv⟩ := hmeasure hleaf
  have hsize := hh.size.symm.trans hs
  have hvar := hh.var.symm.trans hv
  have hnode := nodeReady_of_head hsame (hap i (by omega)) hu (by rw [← hsize, ← hvar]; exact hh) hk
  refine ⟨hsize, hvar, ?_⟩
  cases ty with
  | scalar | str | vstr | map | enum => exact hnode
  | _ => cases hty

/-- An array of the layout: its element is laid out in a record of its own, and the array's row
is placed where it measures what the layout says. -/
theorem array_placement (hk : (rowOf t₀ i).kind = ty.kind) (harr : ty.kind.isArray = true)
    (hl : Laid (rowOf t₀) false i n d p base size var) (hn : n ≤ t.length) (hu : Under t p r elem) :
    ∃ esize evar, ArrayOk (rowOf t₀ i) esize evar ∧
      Laid (rowOf t₀) false (i + 1) n (d + 1) (some i) 0 esize evar ∧
      Under t (some i) (some (i + 1)) true ∧ (rowOf t₀ i).size = size ∧ (rowOf t₀ i).var = var ∧
      (size = ty.measure.size → var = ty.measure.var → NodeReady t ty i r elem) := by
  obtain ⟨hh, esize, evar, ha, hrec⟩ := hl.array_inv (by rw [hk]; exact harr)
  have hle := hrec.le
  simp only [Bool.false_eq_true, if_false] at hle
  have hkt : (rowOf t i).kind.isArray = true := by rw [hsame.kind i, hk, harr]
  refine ⟨esize, evar, ha, hrec, ⟨?_, Or.inl ⟨rfl, hkt⟩⟩, hh.size, hh.var, ?_⟩
  · simp [nearestArray, hkt]
  · rintro rfl rfl
    exact nodeReady_of_head hsame (hap i (by omega)) hu hh hk

end Placed

mutual
/-- A laid out type, placed. -/
theorem Ty.ready_of_laid (hsame : SameTable t₀ t)
    (hap : ∀ j, j < t.length → (rowOf t j).arrParent = nearestArray t (rowOf t j).parent) :
    ∀ (ty : Ty) (D : Nat) (named : Bool) (i n d q : Nat) (p : Option Nat) (base size : Nat)
      (var : Bool) (r : Option Nat) (elem : Bool), ty.Ok D named → ty.Rows (rowOf t₀) i q →
      Laid (rowOf t₀) false i n d p base size var → n = i + 1 + ty.rows → n ≤ t.length → Under t p r elem →
      Placement t ty i r elem size var
  | .named m ty, D, named, i, n, d, q, p, base, size, var, r, elem, hok, hrows, hl, hnext, hn, hu => by
    obtain ⟨hs, hv, hr⟩ := Ty.ready_of_laid hsame hap ty D true i n d _ p base size var r elem
      hok.2.2.2 hrows hl hnext hn hu
    exact ⟨hs, hv, hr⟩
  | .arr count e, D, named, i, n, d, q, p, base, size, var, r, elem, hok, hrows, hl, hnext, hn, hu => by
    obtain ⟨hk, hcount, -, -, herows⟩ := hrows
    obtain ⟨esize, evar, ha, hrec, hu', hisize, hivar, hnode⟩ :=
      array_placement hsame hap (show (rowOf t₀ i).kind = (Ty.arr count e).kind from hk) rfl hl hn hu
    obtain ⟨hes, hev, her⟩ := Ty.ready_of_laid hsame hap e (D + 1) false (i + 1) n (d + 1) _
      (some i) 0 esize evar (some (i + 1)) true hok.2.2.1 herows hrec (by rw [hnext, Ty.rows]; omega) hn hu'
    have hvar : var = (Ty.arr count e).measure.var := by
      rw [← hivar, ha.var, hev, hk, Ty.measure]
      cases e.measure.var <;> rfl
    have hsize : size = (Ty.arr count e).measure.size := by
      rw [← hisize]
      cases hv : e.measure.var with
      | true =>
        rw [ha.size_var (by rw [hivar, hvar, Ty.measure, hv]; rfl), Ty.measure, hv]
        rfl
      | false =>
        rw [ha.fixed hk (by rw [hev, hv]), hcount, hes, Ty.measure, hv]
        rfl
    refine ⟨hsize, hvar, hnode hsize hvar, ?_, her⟩
    have := hsame.row i
    unfold SameRow at this
    rw [this]
    exact hcount
  | .varr e, D, named, i, n, d, q, p, base, size, var, r, elem, hok, hrows, hl, hnext, hn, hu => by
    obtain ⟨hk, -, -, herows⟩ := hrows
    obtain ⟨esize, evar, ha, hrec, hu', hisize, hivar, hnode⟩ :=
      array_placement hsame hap (show (rowOf t₀ i).kind = (Ty.varr e).kind from hk) rfl hl hn hu
    obtain ⟨hes, hev, her⟩ := Ty.ready_of_laid hsame hap e (D + 1) false (i + 1) n (d + 1) _
      (some i) 0 esize evar (some (i + 1)) true hok.2.1 herows hrec (by rw [hnext, Ty.rows]; omega) hn hu'
    have hvar : var = (Ty.varr e).measure.var := by
      rw [← hivar, ha.var, hk]
      rfl
    have hsize : size = (Ty.varr e).measure.size := by
      rw [← hisize, ha.size_var (by rw [hivar, hvar]; rfl)]
      rfl
    exact ⟨hsize, hvar, hnode hsize hvar, her⟩
  | .struct ms, D, named, i, n, d, q, p, base, size, var, r, elem, hok, hrows, hl, hnext, hn, hu => by
    obtain ⟨hk, hmrows⟩ := hrows
    obtain ⟨hh, hrec⟩ := hl.struct_inv hk
    have hle := hrec.le
    simp only [if_true] at hle
    have hkt : (rowOf t i).kind = .struct := (hsame.kind i).trans hk
    have hrecord : rowRecord (rowOf t i) = r := by
      rw [rowRecord, hap i (by omega), hsame.parent i, hh.parent]
      exact hu.record
    have hu' : Under t (some i) r false :=
      ⟨by rw [← hrecord, nearestArray, hkt]; rfl, Or.inr ⟨rfl, hkt⟩⟩
    obtain ⟨hs, hv, hm⟩ := Members.ready_of_laid hsame hap ms (D + 1) (i + 1) n (d + 1) _ (some i)
      base size var r hok.2.2.2.1 hmrows hrec hnext hn hu'
    have hsize : size = (Ty.struct ms).measure.size := hs
    have hvar : var = (Ty.struct ms).measure.var := hv
    exact ⟨hsize, hvar, nodeReady_of_head hsame (hap i (by omega)) hu
      (by rw [← hsize, ← hvar]; exact hh) hk, hm⟩
  | .scalar _, _, _, _, _, _, _, _, _, _, _, _, _, hok, hrows, hl, _, hn, hu
  | .str _, _, _, _, _, _, _, _, _, _, _, _, _, hok, hrows, hl, _, hn, hu
  | .vstr, _, _, _, _, _, _, _, _, _, _, _, _, hok, hrows, hl, _, hn, hu
  | .map, _, _, _, _, _, _, _, _, _, _, _, _, hok, hrows, hl, _, hn, hu
  | .enum _ _, _, _, _, _, _, _, _, _, _, _, _, _, hok, hrows, hl, _, hn, hu =>
    leaf_placement hsame hap hok rfl hrows hl hn hu
theorem Members.ready_of_laid (hsame : SameTable t₀ t)
    (hap : ∀ j, j < t.length → (rowOf t j).arrParent = nearestArray t (rowOf t j).parent) :
    ∀ (ms : Members) (D i n d q : Nat) (p : Option Nat) (base size : Nat) (var : Bool)
      (r : Option Nat), ms.Ok D → ms.Rows (rowOf t₀) i q →
      Laid (rowOf t₀) true i n d p base size var → n = i + ms.rows → n ≤ t.length →
      Under t p r false →
      size = ms.measure.size ∧ var = ms.measure.var ∧ ms.Ready t i r
  | .nil, D, i, n, d, q, p, base, size, var, r, hok, hrows, hl, hnext, hn, hu => by
    cases hl with
    | nil => exact ⟨rfl, rfl, trivial⟩
    | cons hfst hrest =>
      have h1 := hfst.le
      have h2 := hrest.le
      simp only [Bool.false_eq_true, if_false, if_true, Members.rows] at h1 h2 hnext
      omega
  | .cons m ty rest, D, i, n, d, q, p, base, size, var, r, hok, hrows, hl, hnext, hn, hu => by
    obtain ⟨-, hrow, htrows, hrrows⟩ := hrows
    simp only [Members.rows] at hnext
    cases hl with
    | nil => omega
    | cons hfst hrest =>
      have hend := hfst.head.next.symm.trans hrow.next
      subst hend
      have hle := hrest.le
      simp only [if_true] at hle
      obtain ⟨hs, hv, hr⟩ := Ty.ready_of_laid hsame hap ty D false i _ d _ p base _ _ r false
        hok.2.1 htrows hfst rfl (by omega) hu
      obtain ⟨hs', hv', hr'⟩ := Members.ready_of_laid hsame hap rest D _ n d _ p _ _ _ r
        hok.2.2 hrrows hrest (by omega) hn hu
      refine ⟨?_, ?_, hr, hr'⟩
      · rw [hs, hs', Members.measure]
      · rw [hv, hv', Members.measure]
end

end Rant.Serialize
