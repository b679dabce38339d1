import Rant.Serialize.Twin
/-!
# A field of the reader's in the publisher's table

A top level field of the reader and the publisher's field of its name, compared equal, are
a `Mirror`: row `k` of the one stands for row `k` of the other. Arrays, records, frames
and chains are then the same at the same distance `k`, so everything below is told in `k`
alone, with `i` and `j` where the two fields start.
-/

namespace Rant.Serialize

open Rant.Lib

/-- Rows `[i, next i)` of `sub` stand for the rows from `j` on of `pub`. -/
structure Mirror (sub pub : Schema) (i j : Nat) : Prop where
  lt : i < sub.nfields
  lt' : j < pub.nfields
  top : (sub.row i).parent = none
  top' : (pub.row j).parent = none
  len : (pub.row j).next + i = (sub.row i).next + j
  rows : TwinRows sub.row pub.row i (sub.row i).next j
  names : TwinNames sub.row pub.row 1 i (sub.row i).next j
  size : ∀ k, i + k < (sub.row i).next →
    (pub.row (j + k)).size = (sub.row (i + k)).size ∧ (pub.row (j + k)).var = (sub.row (i + k)).var

theorem TwinRow.symm {f g : Field} (h : TwinRow f g) : TwinRow g f where
  kind := h.kind.symm
  strCap hk := (h.strCap (h.kind.symm.trans hk)).symm
  backing hk := (h.backing (h.kind.symm.trans hk)).symm
  count hk := (h.count (by rw [← h.kind]; exact hk)).symm

theorem Mirror.symm {sub pub : Schema} {i j : Nat} (h : Mirror sub pub i j) :
    Mirror pub sub j i where
  lt := h.lt'
  lt' := h.lt
  top := h.top'
  top' := h.top
  len := h.len.symm
  rows k hk := by
    have hlen := h.len
    obtain ⟨h1, h2⟩ := h.rows k (by omega)
    exact ⟨h1.symm, h2.symm⟩
  names k hlo hk := by
    have hlen := h.len
    exact (h.names k hlo (by omega)).symm
  size k hk := by
    have hlen := h.len
    obtain ⟨h1, h2⟩ := h.size k (by omega)
    exact ⟨h1.symm, h2.symm⟩

section
variable {s : Schema} {t₀ : Table}

namespace Built

variable (hb : Built s t₀)
include hb

/-- A top level row has no parent. -/
theorem depth_zero {i : Nat} (hi : i < s.nfields) :
    (s.row i).depth = 0 ↔ (s.row i).parent = none := by
  obtain ⟨v, hlaid⟩ := hb.laid
  rw [hb.depth, hb.parent]
  rcases hlaid.parent (Nat.zero_le i) (by rw [hb.length]; exact hi) with
    ⟨hp, hd, -⟩ | ⟨q, hq, hd, -⟩
  · rw [hp, hd]
    exact ⟨fun _ => rfl, fun _ => rfl⟩
  · rw [hq, hd]
    exact ⟨fun h => (by cases h), fun h => (by cases h)⟩

/-- Nothing lies around a top level row. -/
theorem top_outside {i b : Nat} (hi : i < s.nfields) (htop : (s.row i).parent = none)
    (hlo : b < i) : (s.row b).next ≤ i := by
  by_cases hc : (s.row b).next ≤ i
  · exact hc
  · obtain ⟨q, hq, -⟩ := hb.parent_inside (b := b) (by omega) hlo (by omega)
    cases htop.symm.trans hq

/-- A row rides a frame when it is variable, no struct and not an array's element. -/
theorem framed_iff {f : Nat} (hf : f < s.nfields) : rowFramed s.fields (s.row f) = true ↔
    (s.row f).var = true ∧ (s.row f).kind ≠ .struct ∧ rowRecord (s.row f) ≠ some f := by
  have hap := hb.arrParent_eq hf
  unfold rowFramed
  cases hp : (s.row f).parent with
  | none =>
    rw [hp] at hap
    rw [rowRecord_eq_none.mpr hap]
    simp
  | some p =>
    obtain ⟨hlt, -, -, hkind⟩ := hb.parent_spec hf hp
    rw [hp] at hap
    dsimp only at hap
    have hiff : rowRecord (s.row f) = some f ↔ (s.row p).kind.isArray = true := by
      rw [rowRecord_eq_some]
      rcases hkind with hs | ⟨hk, hfp⟩
      · rw [hs] at hap ⊢
        refine ⟨?_, fun hc => by cases hc⟩
        rintro ⟨a, ha, hfa⟩
        -- the nearest array of a struct's member lies below the struct
        have hpa : (s.row p).arrParent = some a := hap.symm.trans ha
        have := (hb.arrParent_around (by omega) hpa).2.1
        omega
      · rw [if_pos hk] at hap
        exact ⟨fun _ => hk, fun _ => ⟨p, hap, hfp⟩⟩
    show (((s.row f).var && decide ((s.row f).kind ≠ .struct)) && !(s.row p).kind.isArray) = true ↔ _
    rw [Bool.and_eq_true, Bool.and_eq_true, decide_eq_true_eq, Bool.not_eq_true', ne_eq (rowRecord _),
      hiff, Bool.not_eq_true, and_assoc]

end Built

end

section
variable {sub pub : Schema} {t₀ u₀ : Table}

/-- An array around a mirrored row is mirrored around its image. -/
theorem array_inside (hs : Built sub t₀) {i j : Nat} (hm : Mirror sub pub i j) {k b : Nat}
    (hk : i + k < (sub.row i).next) (hb : (sub.row b).kind.isArray = true) (hlo : b < i + k)
    (hhi : i + k < (sub.row b).next) : ∃ c, b = i + c ∧ c < k ∧
      (pub.row (j + c)).kind.isArray = true ∧ j + k < (pub.row (j + c)).next := by
  have hib : i ≤ b := by
    by_cases hc : i ≤ b
    · exact hc
    · have := hs.top_outside hm.lt hm.top (b := b) (by omega)
      omega
  refine ⟨b - i, by omega, by omega, ?_⟩
  obtain ⟨hrow, hnext⟩ := hm.rows (b - i) (by omega)
  rw [show i + (b - i) = b by omega] at hrow hnext
  rw [hrow.kind]
  exact ⟨hb, by omega⟩

theorem arrParent_image (hs : Built sub t₀) (hp : Built pub u₀) {i j : Nat}
    (hm : Mirror sub pub i j) {k a : Nat} (hk : i + k < (sub.row i).next)
    (ha : (sub.row (i + k)).arrParent = some a) :
    ∃ c, a = i + c ∧ c < k ∧ (pub.row (j + k)).arrParent = some (j + c) := by
  have hle := hs.next_le hm.lt
  have hle' := hp.next_le hm.lt'
  have hlen := hm.len
  obtain ⟨hak, hlo, hhi⟩ := hs.arrParent_around (by omega) ha
  obtain ⟨c, rfl, hck, hck', hcn⟩ := array_inside hs hm hk hak hlo hhi
  obtain ⟨a', ha', hca⟩ := hp.arrParent_nearest (j := j + k) (by omega) hck' (by omega) hcn
  obtain ⟨hak', hlo', hhi'⟩ := hp.arrParent_around (by omega) ha'
  obtain ⟨c', rfl, hck'', hk'', hn''⟩ := array_inside hp hm.symm (k := k) (by omega) hak' hlo' hhi'
  obtain ⟨a'', ha'', hle''⟩ := hs.arrParent_nearest (j := i + k) (by omega) hk'' (by omega) hn''
  obtain rfl := Option.some.inj (ha.symm.trans ha'')
  refine ⟨c, rfl, hck, ?_⟩
  rw [ha', show c' = c by omega]

section
variable (hs : Built sub t₀) (hp : Built pub u₀) {i j : Nat} (hm : Mirror sub pub i j)
include hs hp hm

/-- The nearest arrays of two mirrored rows are mirrored. -/
theorem arrParent_pair {k : Nat} (hk : i + k < (sub.row i).next) :
    ∃ o : Option Nat, (sub.row (i + k)).arrParent = o.map (i + ·) ∧
      (pub.row (j + k)).arrParent = o.map (j + ·) ∧ ∀ c, o = some c → c < k := by
  have hlen := hm.len
  cases ha : (sub.row (i + k)).arrParent with
  | none =>
    refine ⟨none, rfl, ?_, fun c hc => by cases hc⟩
    cases ha' : (pub.row (j + k)).arrParent with
    | none => rfl
    | some a' =>
      obtain ⟨c, -, -, hc⟩ := arrParent_image hp hs hm.symm (k := k) (by omega) ha'
      cases ha.symm.trans hc
  | some a =>
    obtain ⟨c, rfl, hck, hc⟩ := arrParent_image hs hp hm hk ha
    exact ⟨some c, rfl, hc, fun c' hc' => by rw [← Option.some.inj hc']; exact hck⟩

/-- So are their records. -/
theorem rowRecord_pair {k : Nat} (hk : i + k < (sub.row i).next) :
    ∃ o : Option Nat, rowRecord (sub.row (i + k)) = o.map (i + ·) ∧
      rowRecord (pub.row (j + k)) = o.map (j + ·) := by
  obtain ⟨o, h1, h2, -⟩ := arrParent_pair hs hp hm hk
  refine ⟨o.map (· + 1), ?_, ?_⟩ <;> unfold rowRecord
  · rw [h1]
    cases o <;> rfl
  · rw [h2]
    cases o <;> rfl

theorem rowRecord_iff {k e : Nat} (hk : i + k < (sub.row i).next) :
    rowRecord (sub.row (i + k)) = some (i + e) ↔ rowRecord (pub.row (j + k)) = some (j + e) := by
  obtain ⟨o, h1, h2⟩ := rowRecord_pair hs hp hm hk
  rw [h1, h2]
  cases o with
  | none => simp
  | some c => simp

/-- Mirrored rows ride frames alike. -/
theorem framed_pair {k : Nat} (hk : i + k < (sub.row i).next) :
    rowFramed pub.fields (pub.row (j + k)) = rowFramed sub.fields (sub.row (i + k)) := by
  have hle := hs.next_le hm.lt
  have hle' := hp.next_le hm.lt'
  have hlen := hm.len
  have hiff := rowRecord_iff hs hp hm (e := k) hk
  rw [Bool.eq_iff_iff, hp.framed_iff (by omega), hs.framed_iff (by omega), (hm.size k hk).2,
    (hm.rows k hk).1.kind, ne_eq (rowRecord _), ne_eq (rowRecord _), hiff]

/-- A record of the field's counts the same frames in both tables. -/
theorem recFrames_pair {e : Nat} (he : i + e < (sub.row i).next) :
    pub.recFrames (some (j + e)) = sub.recFrames (some (i + e)) := by
  have hle := hs.next_le hm.lt
  have hle' := hp.next_le hm.lt'
  have hlen := hm.len
  -- no row outside the field belongs to a record of it
  have hout : ∀ {s : Schema} {t : Table} {i : Nat}, Built s t → i < s.nfields →
      (s.row i).parent = none → i + e < (s.row i).next → ∀ f, f < s.nfields →
      (f < i ∨ (s.row i).next ≤ f) → rowRecord (s.row f) ≠ some (i + e) := by
    intro s t i hb hi htop he f hf hor hrec
    obtain ⟨a, ha, hae⟩ := rowRecord_eq_some.mp hrec
    obtain ⟨hak, hlo, hhi⟩ := hb.arrParent_around hf ha
    obtain ⟨-, hnext, -⟩ := hb.elem (a := a) (by omega) hak
    have hlt := hb.lt_next (j := a + 1) (by omega)
    by_cases hai : a < i
    · have := hb.top_outside hi htop hai
      omega
    · have := hb.next_nested hi (j := a) (by omega) (by omega)
      omega
  have hsub := hout hs hm.lt hm.top he
  have hpub := hout hp hm.lt' hm.top' (by omega)
  have hin : ∀ c, i + c ≤ (sub.row i).next →
      framesBelow pub.fields (some (j + e)) (j + c) = framesBelow sub.fields (some (i + e)) (i + c) := by
    intro c
    induction c with
    | zero =>
      intro _
      rw [Nat.add_zero, Nat.add_zero,
        framesBelow_skip (Nat.zero_le j) fun f _ hf => hpub f (by omega) (Or.inl hf),
        framesBelow_skip (Nat.zero_le i) fun f _ hf => hsub f (by omega) (Or.inl hf)]
      rfl
    | succ c ih =>
      intro hc
      have hframed := framed_pair hs hp hm (k := c) (by omega)
      have hrec := rowRecord_iff hs hp hm (k := c) (e := e) (by omega)
      rw [show j + (c + 1) = j + c + 1 by omega, show i + (c + 1) = i + c + 1 by omega,
        framesBelow_succ, framesBelow_succ, ih (by omega)]
      congr 1
      have hiff : (framedAt pub.fields (j + c) = true ∧
          rowRecord (rowOf pub.fields (j + c)) = some (j + e)) ↔
          (framedAt sub.fields (i + c) = true ∧
            rowRecord (rowOf sub.fields (i + c)) = some (i + e)) := by
        unfold framedAt
        rw [show rowFramed pub.fields (rowOf pub.fields (j + c)) =
          rowFramed sub.fields (rowOf sub.fields (i + c)) from hframed]
        exact and_congr_right fun _ => hrec.symm
      by_cases hcount : framedAt sub.fields (i + c) = true ∧
          rowRecord (rowOf sub.fields (i + c)) = some (i + e)
      · rw [if_pos hcount, if_pos (hiff.mpr hcount)]
      · rw [if_neg hcount, if_neg fun h => hcount (hiff.mp h)]
  have hlt := hs.lt_next hm.lt
  have hfull := hin ((sub.row i).next - i) (by omega)
  rw [show i + ((sub.row i).next - i) = (sub.row i).next by omega,
    show j + ((sub.row i).next - i) = (pub.row j).next by omega] at hfull
  rw [hp.recFrames_eq, hs.recFrames_eq,
    framesBelow_skip hle' fun f hlo hf => hpub f hf (Or.inr hlo),
    framesBelow_skip hle fun f hlo hf => hsub f hf (Or.inr hlo), hfull]

/-- The chains of arrays around two mirrored rows are mirrored. -/
theorem chain_pair {k : Nat} (hk : i + k < (sub.row i).next) : ∃ l : List Nat,
    Chain sub (sub.row (i + k)).arrParent (l.map (i + ·)) ∧
      Chain pub (pub.row (j + k)).arrParent (l.map (j + ·)) ∧ ∀ c, c ∈ l → c < k := by
  induction k using Nat.strongRecOn with
  | _ k ih =>
    obtain ⟨o, h1, h2, hlt⟩ := arrParent_pair hs hp hm hk
    rw [h1, h2]
    cases o with
    | none => exact ⟨[], .nil, .nil, fun c hc => absurd hc List.not_mem_nil⟩
    | some c =>
      have hck := hlt c rfl
      obtain ⟨l, hl, hl', hmem⟩ := ih c hck (by omega)
      refine ⟨l ++ [c], ?_, ?_, fun d hd => ?_⟩
      · rw [List.map_append]
        exact .snoc hl
      · rw [List.map_append]
        exact .snoc hl'
      · rcases List.mem_append.mp hd with hd | hd
        · have := hmem d hd
          omega
        · rw [List.mem_singleton.mp hd]
          exact hck

/-- They have as many arrays around them. -/
theorem arrDepth_pair {k : Nat} (hk : i + k < (sub.row i).next) :
    (pub.row (j + k)).arrDepth = (sub.row (i + k)).arrDepth := by
  have hle := hs.next_le hm.lt
  have hle' := hp.next_le hm.lt'
  have hlen := hm.len
  obtain ⟨l, hl, hl', -⟩ := chain_pair hs hp hm hk
  rw [← (hs.chainOf_chain (by omega) hl).1, ← (hp.chainOf_chain (by omega) hl').1,
    List.length_map, List.length_map]

end

/-- Two fields that compare equal mirror each other. -/
theorem fieldCmp_mirror (hs : Built sub t₀) (hp : Built pub u₀) {i j : Nat}
    (hi : i < sub.nfields) (hj : j < pub.nfields) (htop : (sub.row i).depth = 0)
    (htop' : (pub.row j).depth = 0) (h : fieldCmp sub i pub j = true) : Mirror sub pub i j := by
  obtain ⟨q, hq⟩ := Option.isSome_iff_exists.mp h
  obtain ⟨pa, -, -, hA⟩ := hs.spelledRow hi
  obtain ⟨pb, -, -, hB⟩ := hp.spelledRow hj
  obtain ⟨-, hlen, hrows, hnames⟩ := spelled_twin hA hB hq
  rw [if_pos rfl] at hnames
  have hle := hs.next_le hi
  have hle' := hp.next_le hj
  have hcol : ∀ k, sub.row k = { rowOf t₀ k with
      offset := (sub.row k).offset, arrParent := (sub.row k).arrParent
      arrDepth := (sub.row k).arrDepth, varOrd := (sub.row k).varOrd, nVar := (sub.row k).nVar
      dmin := (sub.row k).dmin } := hs.placed.same.row
  have hcol' : ∀ k, pub.row k = { rowOf u₀ k with
      offset := (pub.row k).offset, arrParent := (pub.row k).arrParent
      arrDepth := (pub.row k).arrDepth, varOrd := (pub.row k).varOrd, nVar := (pub.row k).nVar
      dmin := (pub.row k).dmin } := hp.placed.same.row
  refine ⟨hi, hj, (hs.depth_zero hi).mp htop, (hp.depth_zero hj).mp htop', by omega,
    fun k hk => ?_, fun k hlo hk => ?_, fun k hk => ?_⟩
  · obtain ⟨h1, h2⟩ := hrows k hk
    rw [hcol, hcol']
    exact ⟨⟨h1.kind, h1.strCap, h1.backing, h1.count⟩, h2⟩
  · rw [hcol, hcol']
    exact hnames k hlo hk
  · -- each row heads a block of twins of its own
    obtain ⟨-, hnext⟩ := hrows k hk
    rw [← hs.next, ← hp.next] at hnext
    have hnest := hs.next_nested hi (j := i + k) (by omega) hk
    have hsz := twin_size (hs.block (j := i + k) (by omega)) (hp.block (j := j + k) (by omega))
      (by omega) (fun c hc => by
        obtain ⟨h1, h2⟩ := hrows (k + c) (by omega)
        rw [← Nat.add_assoc, ← Nat.add_assoc] at h1 h2
        exact ⟨h1, by omega⟩)
    exact hsz

end

end Rant.Serialize
