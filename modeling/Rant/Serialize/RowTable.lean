import Rant.Serialize.WireCheck
import Rant.Serialize.Path
import Rant.Serialize.PlaceTree
import Rant.Serialize.Minimum
import Mathlib.Data.Nat.Count
import Mathlib.Data.Set.Function
/-!
# The row table as a whole

What every accessor takes for granted of a compiled table: its links are one tree in preorder, the fixed
rows of a record lie apart inside it, its frames are numbered without a gap and nothing passes 32 bits.
-/

namespace Rant.Serialize

open Rant.Lib

/-- Row `j` lies below row `i` by the parent links. -/
inductive Schema.Below (s : Schema) (i : Nat) : Nat → Prop
  | child {j} : (s.row j).parent = some i → s.Below i j
  | deeper {k j} : (s.row j).parent = some k → s.Below i k → s.Below i j

/-- The links of a table are those of a tree whose rows are counted in preorder. -/
structure Schema.Preorder (s : Schema) : Prop where
  range : ∀ j, j < s.nfields → j < (s.row j).next ∧ (s.row j).next ≤ s.nfields
  parent : ∀ j p, j < s.nfields → (s.row j).parent = some p → p < j
  below : ∀ i j, i < s.nfields → j < s.nfields → (s.Below i j ↔ i < j ∧ j < (s.row i).next)
  root : s.valueRoot = true → (s.row 0).next = s.nfields
  arrParent : ∀ j a, j < s.nfields → ((s.row j).arrParent = some a ↔
    (s.Below a j ∧ (s.row a).kind.isArray = true) ∧ ∀ b, s.Below b j → (s.row b).kind.isArray = true → b ≤ a)
  arrDepth : ∀ j, j < s.nfields →
    (s.row j).arrDepth = Nat.count (fun a => (s.row a).kind.isArray = true ∧ j < (s.row a).next) j

/-- Rows of one record that carry fixed bytes nest as the rows do, or lie apart, inside the record. -/
structure Schema.FixedApart (s : Schema) : Prop where
  inside : ∀ j, j < s.nfields → rowFramed s.fields (s.row j) = false →
    (s.row j).offset + (s.row j).size ≤ s.recSize (rowRecord (s.row j))
  nested : ∀ j k, j < k → k < s.nfields → rowFramed s.fields (s.row j) = false →
    rowFramed s.fields (s.row k) = false → rowRecord (s.row j) = rowRecord (s.row k) → k < (s.row j).next →
    (s.row j).offset ≤ (s.row k).offset ∧ (s.row k).offset + (s.row k).size ≤ (s.row j).offset + (s.row j).size
  apart : ∀ j k, j < k → k < s.nfields → rowFramed s.fields (s.row j) = false →
    rowFramed s.fields (s.row k) = false → rowRecord (s.row j) = rowRecord (s.row k) → (s.row j).next ≤ k →
    (s.row j).offset + (s.row j).size ≤ (s.row k).offset

/-- Sizes, the ends of rows and default lengths fit 32 bits, for the rows as the walk emits them too. The types
of the rows stand inside the wire. -/
structure Schema.Fits32 (s : Schema) (t₀ : Table) : Prop where
  rows : ∀ j, j < s.nfields → (s.row j).offset + (s.row j).size ≤ u32Max ∧ (s.row j).dmin ≤ u32Max
  emitted : ∀ j, j < s.nfields → (rowOf t₀ j).offset + (rowOf t₀ j).size ≤ u32Max
  message : s.size ≤ u32Max ∧ s.msgMin ≤ u32Max
  typed : ∀ j, j < s.nfields → (s.row j).typeOff + (s.row j).typeLen ≤ s.wire.length

section

variable {s : Schema} {t₀ : Table} (hb : Built s t₀)
include hb

namespace Built

/-- The rows below a row are those of its range. -/
theorem below_iff {i j : Nat} (hi : i < s.nfields) (hj : j < s.nfields) :
    s.Below i j ↔ i < j ∧ j < (s.row i).next := by
  constructor
  · intro h
    induction h with
    | child hp =>
      obtain ⟨hlt, hnext, -⟩ := hb.parent_spec hj hp
      exact ⟨hlt, hnext⟩
    | deeper hp _ ih =>
      obtain ⟨hlt, hnext, -⟩ := hb.parent_spec hj hp
      obtain ⟨hlo, hhi⟩ := ih (Nat.lt_trans hlt hj)
      have hnest := hb.next_nested hi (Nat.le_of_lt hlo) hhi
      exact ⟨Nat.lt_trans hlo hlt, Nat.lt_of_lt_of_le hnext hnest⟩
  · rintro ⟨hlo, hhi⟩
    induction j using Nat.strongRecOn with
    | _ j ih =>
      obtain ⟨p, hp, hip⟩ := hb.parent_inside hi hlo hhi
      have hpj := (hb.parent_spec hj hp).1
      obtain rfl | hlt := Nat.eq_or_lt_of_le hip
      · exact .child hp
      · exact .deeper hp (ih p hpj (Nat.lt_trans hpj hj) hlt (Nat.lt_trans hpj hhi))

/-- The depth of a row counts the arrays around it. -/
theorem arrDepth_count {j : Nat} (hj : j < s.nfields) :
    (s.row j).arrDepth = Nat.count (fun a => (s.row a).kind.isArray = true ∧ j < (s.row a).next) j := by
  induction j using Nat.strongRecOn with
  | _ j ih =>
    rw [hb.arrDepth_eq hj]
    cases ha : (s.row j).arrParent with
    | none =>
      refine (Nat.count_of_forall_not ?_).symm
      rintro b hlo ⟨hk, hhi⟩
      obtain ⟨a, ha', -⟩ := hb.arrParent_nearest hj hk hlo hhi
      exact Option.some_ne_none a (ha'.symm.trans ha)
    | some a =>
      obtain ⟨hka, hlo, hhi⟩ := hb.arrParent_around hj ha
      obtain ⟨m, rfl⟩ : ∃ m, j = a + 1 + m := Nat.exists_eq_add_of_le hlo
      -- none of the arrays around the row starts behind its nearest one
      have hnone : Nat.count (fun k => (s.row (a + 1 + k)).kind.isArray = true ∧ a + 1 + m < (s.row (a + 1 + k)).next) m =
          0 := by
        refine Nat.count_of_forall_not ?_
        rintro k hk ⟨hkk, hknext⟩
        obtain ⟨a', ha', hle⟩ := hb.arrParent_nearest hj hkk (Nat.add_lt_add_left hk _) hknext
        have := Option.some.inj (ha'.symm.trans ha)
        omega
      have hsame : Nat.count (fun b => (s.row b).kind.isArray = true ∧ a + 1 + m < (s.row b).next) a =
          Nat.count (fun b => (s.row b).kind.isArray = true ∧ a < (s.row b).next) a := by
        rw [Nat.count_eq_card_filter_range, Nat.count_eq_card_filter_range]
        congr 1
        refine Finset.filter_congr fun b hb' => and_congr_right fun _ => ⟨fun h => by omega, fun h => ?_⟩
        have hba := Finset.mem_range.mp hb'
        have hnest := hb.next_nested (by omega) (Nat.le_of_lt hba) h
        omega
      show (s.row a).arrDepth + 1 = _
      rw [ih a hlo (Nat.lt_trans hlo hj), Nat.count_add, hnone, Nat.add_zero, Nat.count_succ, hsame,
        if_pos ⟨hka, hhi⟩]

/-- The nearest array of a row is the innermost of those above it. -/
theorem arrParent_iff {j a : Nat} (hj : j < s.nfields) : (s.row j).arrParent = some a ↔
    (s.Below a j ∧ (s.row a).kind.isArray = true) ∧ ∀ b, s.Below b j → (s.row b).kind.isArray = true → b ≤ a := by
  have hrow : ∀ {b}, s.Below b j → b < s.nfields := by
    intro b h
    have hlt : b < j := by
      induction h with
      | child hp => exact (hb.parent_spec hj hp).1
      | deeper hp _ ih =>
        have hpj := (hb.parent_spec hj hp).1
        exact Nat.lt_trans (ih (Nat.lt_trans hpj hj)) hpj
    exact Nat.lt_trans hlt hj
  constructor
  · intro ha
    obtain ⟨hka, hlo, hhi⟩ := hb.arrParent_around hj ha
    refine ⟨⟨(hb.below_iff (Nat.lt_trans hlo hj) hj).mpr ⟨hlo, hhi⟩, hka⟩, fun b hbelow hkb => ?_⟩
    obtain ⟨hblo, hbhi⟩ := (hb.below_iff (hrow hbelow) hj).mp hbelow
    obtain ⟨a', ha', hle⟩ := hb.arrParent_nearest hj hkb hblo hbhi
    exact Option.some.inj (ha'.symm.trans ha) ▸ hle
  · rintro ⟨⟨hbelow, hka⟩, hmax⟩
    obtain ⟨hlo, hhi⟩ := (hb.below_iff (hrow hbelow) hj).mp hbelow
    obtain ⟨a', ha', hle⟩ := hb.arrParent_nearest hj hka hlo hhi
    obtain ⟨hka', hlo', hhi'⟩ := hb.arrParent_around hj ha'
    have hge := hmax a' ((hb.below_iff (Nat.lt_trans hlo' hj) hj).mpr ⟨hlo', hhi'⟩) hka'
    rw [ha', Nat.le_antisymm hge hle]

/-! ## Fixed bytes -/

/-- A member of a struct is stored inside it, one record's rows have the struct in that record too. -/
theorem member_stored {j q : Nat} (hj : j < s.nfields) (hq : (s.row j).parent = some q)
    (hk : (s.row q).kind = .struct) : (rowOf t₀ q).offset ≤ (rowOf t₀ j).offset ∧
      (rowOf t₀ j).offset + (s.row j).size ≤ (rowOf t₀ q).offset + (s.row q).size := by
  obtain ⟨hlt, hnext, -⟩ := hb.parent_spec hj hq
  rw [hb.kind] at hk
  rcases (hb.block (j := q) (Nat.lt_trans hlt hj)).row with ⟨-, hl⟩ | ⟨-, -, hk', -⟩ | ⟨-, hmem⟩
  · exact absurd hk hl.kind.1
  · rw [hk] at hk'
    cases hk'
  · have hbound := hmem.bounds (fun q' hq' => Option.some.inj hq' ▸ Nat.lt_succ_self q) hlt hnext
      ((hb.parent j).symm.trans hq)
    rw [hb.size j]
    exact ⟨hbound.1, hbound.2.1⟩

/-- The parent of a row whose nearest array is also that of a row outside the parent's range. -/
theorem parent_record {j q k : Nat} (hj : j < s.nfields) (hq : (s.row j).parent = some q) (hk : k < s.nfields)
    (hrec : (s.row k).arrParent = (s.row j).arrParent) (hout : ¬(q < k ∧ k < (s.row q).next)) :
    (s.row q).kind = .struct ∧ (s.row q).arrParent = (s.row j).arrParent := by
  have hap := hb.arrParent_eq hj
  rw [hq] at hap
  dsimp only at hap
  rcases (hb.parent_spec hj hq).2.2.2 with hks | ⟨hka, -⟩
  · rw [hks] at hap
    exact ⟨hks, hap.symm⟩
  · rw [if_pos hka] at hap
    exact absurd (hb.arrParent_around hk (hrec.trans hap)).2 hout

/-- Rows of one record, one behind the other. -/
theorem stored_apart {j k : Nat} (hjk : j < k) (hk : k < s.nfields) (hout : (s.row j).next ≤ k)
    (hrec : (s.row j).arrParent = (s.row k).arrParent) :
    (rowOf t₀ j).offset + (s.row j).size ≤ (rowOf t₀ k).offset := by
  have hj := Nat.lt_trans hjk hk
  have hsib : (s.row j).parent = (s.row k).parent → (rowOf t₀ j).offset + (s.row j).size ≤ (rowOf t₀ k).offset := by
    intro hsame
    rw [hb.size j]
    cases hp : (s.row k).parent with
    | none =>
      obtain ⟨v, hlaid⟩ := hb.laid
      exact hlaid.disjoint (fun q hq => absurd hq.symm (Option.some_ne_none q)) (Nat.zero_le j) hjk (hb.length.symm ▸ hk)
        ((hb.parent j).symm.trans (hsame.trans hp)) ((hb.parent k).symm.trans hp)
    | some q =>
      have hpj := hsame.trans hp
      obtain ⟨hqj, -, -, hkind⟩ := hb.parent_spec hj hpj
      obtain ⟨-, hqn, -⟩ := hb.parent_spec hk hp
      have hks : (rowOf t₀ q).kind = .struct := by
        rw [← hb.kind]
        refine hkind.resolve_right fun h => ?_
        rcases (hb.parent_spec hk hp).2.2.2 with hs | ⟨-, hkq⟩
        · rw [hs] at h
          cases h.1
        · omega
      rcases (hb.block (j := q) (Nat.lt_trans hqj hj)).row with ⟨-, hl⟩ | ⟨-, -, hk', -⟩ | ⟨-, hmem⟩
      · exact absurd hks hl.kind.1
      · rw [hks] at hk'
        cases hk'
      · exact hmem.disjoint (fun q' hq' => Option.some.inj hq' ▸ Nat.lt_succ_self q) hqj hjk hqn
          ((hb.parent j).symm.trans hpj) ((hb.parent k).symm.trans hp)
  by_cases hup : ∃ p, (s.row k).parent = some p ∧ j < p
  · -- the later row's parent stands behind the earlier row too
    obtain ⟨p, hp, hjp⟩ := hup
    obtain ⟨hpk, hpn, -⟩ := hb.parent_spec hk hp
    have hps := Nat.lt_trans hpk hk
    obtain ⟨hks, hprec⟩ := hb.parent_record hk hp hj hrec (by omega)
    have hout' : (s.row j).next ≤ p := by
      refine Nat.not_lt.mp fun hin => ?_
      have := hb.next_nested hj (Nat.le_of_lt hjp) hin
      omega
    have hearlier := stored_apart hjp hps hout' (hrec.trans hprec.symm)
    exact Nat.le_trans hearlier (hb.member_stored hk hp hks).1
  · by_cases hsame : (s.row j).parent = (s.row k).parent
    · exact hsib hsame
    -- the earlier row's parent ends before the later row
    obtain ⟨q, hq, hqout⟩ : ∃ q, (s.row j).parent = some q ∧ (s.row q).next ≤ k := by
      have hends : ∀ q, (s.row j).parent = some q → (∀ p, (s.row k).parent = some p → p < q) → (s.row q).next ≤ k := by
        intro q hq hlow
        refine Nat.not_lt.mp fun hin => ?_
        have hqj := (hb.parent_spec hj hq).1
        obtain ⟨p, hp, hqp⟩ := hb.parent_inside (Nat.lt_trans hqj hj) (Nat.lt_trans hqj hjk) hin
        exact absurd (hlow p hp) (Nat.not_lt.mpr hqp)
      cases hp : (s.row k).parent with
      | none =>
        obtain ⟨q, hq⟩ := Option.ne_none_iff_exists'.mp fun h => hsame (h.trans hp.symm)
        exact ⟨q, hq, hends q hq fun p hp' => absurd (hp'.symm.trans hp) (Option.some_ne_none p)⟩
      | some p =>
        obtain ⟨hpk, hpn, -⟩ := hb.parent_spec hk hp
        have hpj : p < j := by
          refine Nat.lt_of_le_of_ne (Nat.not_lt.mp fun h => hup ⟨p, hp, h⟩) ?_
          rintro rfl
          omega
        obtain ⟨q, hq, hle⟩ := hb.parent_inside (Nat.lt_trans hpj hj) hpj (Nat.lt_trans hjk hpn)
        refine ⟨q, hq, hends q hq fun p' hp' => ?_⟩
        obtain rfl := Option.some.inj (hp'.symm.trans hp)
        refine Nat.lt_of_le_of_ne hle ?_
        rintro rfl
        exact hsame (hq.trans hp.symm)
    have hqj := (hb.parent_spec hj hq).1
    obtain ⟨hks, hqrec⟩ := hb.parent_record hj hq hk hrec.symm (by omega)
    have hwhole := stored_apart (Nat.lt_trans hqj hjk) hk hqout (hqrec.trans hrec)
    exact Nat.le_trans (hb.member_stored hj hq hks).2 hwhole
termination_by j + k

/-- Rows of one record, one below the other. -/
theorem stored_nested {j k : Nat} (hjk : j < k) (hk : k < s.nfields) (hin : k < (s.row j).next)
    (hrec : (s.row j).arrParent = (s.row k).arrParent) : (rowOf t₀ j).offset ≤ (rowOf t₀ k).offset ∧
      (rowOf t₀ k).offset + (s.row k).size ≤ (rowOf t₀ j).offset + (s.row j).size := by
  induction k using Nat.strongRecOn with
  | _ k ih =>
    have hj := Nat.lt_trans hjk hk
    obtain ⟨p, hp, hjp⟩ := hb.parent_inside hj hjk hin
    obtain ⟨hpk, hpn, -⟩ := hb.parent_spec hk hp
    obtain ⟨hks, hprec⟩ := hb.parent_record hk hp hj hrec (by omega)
    have hstored := hb.member_stored hk hp hks
    obtain rfl | hlt := Nat.eq_or_lt_of_le hjp
    · exact hstored
    · have hup := ih p hpk hlt (Nat.lt_trans hpk hk) (by omega) (hrec.trans hprec.symm)
      omega

/-! ## Ordinals -/

/-- The ordinals of a record's frames are the numbers below their count, each once. -/
theorem varOrd_bijOn (r : Option Nat) : Set.BijOn (fun j => (s.row j).varOrd)
    {j | j < s.nfields ∧ rowFramed s.fields (s.row j) = true ∧ rowRecord (s.row j) = r} {o | o < s.recFrames r} := by
  refine ⟨?_, ?_, ?_⟩
  · rintro j ⟨hj, hf, rfl⟩
    exact hb.varOrd_lt hj hf
  · rintro j ⟨hj, hfj, hrj⟩ k ⟨hk, hfk, hrk⟩ hord
    exact hb.varOrd_inj hj hk hfj hfk (hrj.trans hrk.symm) hord
  · have hfind : ∀ n, n ≤ s.nfields → ∀ o, o < framesBelow s.fields r n → ∃ j, j < n ∧
        framedAt s.fields j = true ∧ rowRecord (rowOf s.fields j) = r ∧ framesBelow s.fields r j = o := by
      intro n
      induction n with
      | zero => exact fun _ o ho => absurd ho (Nat.not_lt_zero o)
      | succ n ih =>
        intro hn o ho
        rw [framesBelow_succ] at ho
        by_cases hlow : o < framesBelow s.fields r n
        · obtain ⟨j, hj, h⟩ := ih (Nat.le_of_succ_le hn) o hlow
          exact ⟨j, Nat.lt_succ_of_lt hj, h⟩
        by_cases hframe : framedAt s.fields n = true ∧ rowRecord (rowOf s.fields n) = r
        · rw [if_pos hframe] at ho
          exact ⟨n, Nat.lt_succ_self n, hframe.1, hframe.2, by omega⟩
        · rw [if_neg hframe] at ho
          omega
    intro o ho
    have ho' : o < framesBelow s.fields r s.nfields := hb.recFrames_eq r ▸ ho
    obtain ⟨j, hj, hf, rfl, hord⟩ := hfind s.nfields (Nat.le_refl _) o ho'
    exact ⟨j, ⟨hj, hf, rfl⟩, (hb.varOrd_eq hj hf).trans hord⟩

end Built

end

/-! ## Sizes -/

theorem scalarSize_small (k : Kind) : k.scalarSize ≤ u32Max := by
  cases k <;> decide

/-- The fixed size of a type that keeps the rules fits 32 bits. -/
theorem Ty.size_small : ∀ (ty : Ty) (D : Nat) (named : Bool), ty.Ok D named → ty.measure.size ≤ u32Max
  | .scalar k, _, _, _ => scalarSize_small k
  | .str _, _, _, hok => Nat.le_trans (Nat.add_le_add_left (Nat.le_of_lt hok) 2) (by decide)
  | .vstr, _, _, _ => Nat.zero_le _
  | .map, _, _, _ => Nat.zero_le _
  | .enum b _, _, _, _ => scalarSize_small b
  | .arr _ _, _, _, hok => hok.2.2.2.2.1
  | .varr _, _, _, _ => Nat.zero_le _
  | .struct _, _, _, hok => Nat.le_trans (Nat.le_add_right _ _) hok.2.2.2.2
  | .named _ ty, D, _, hok => Ty.size_small ty D true hok.2.2.2

/-- The size of a row is the one its type was measured with. -/
theorem Built.size_small {w : Bytes} {s : Schema} {t₀ : Table} (hb : Built s t₀) {sc : SchemaTy} (hp : ParsedAs w sc s)
    {j : Nat} (hj : j < s.nfields) : (s.row j).size ≤ u32Max := by
  obtain ⟨ty, D, named, hok, hat⟩ := hp.typed j hj
  obtain ⟨p', hoff, hlen, hsp⟩ := hb.spelledRow hj
  rw [← hp.wire] at hat
  obtain ⟨hrow, hrows⟩ := Ty.rows_spelled hok hat hsp
  obtain ⟨elem, hsits⟩ : ∃ elem, Sits s.fields (s.row j).parent elem := by
    cases hq : (s.row j).parent with
    | none => exact ⟨false, rfl⟩
    | some q =>
      rcases (hb.parent_spec hj hq).2.2.2 with hs | ⟨ha, -⟩
      · exact ⟨false, Or.inr ⟨rfl, hs⟩⟩
      · exact ⟨true, Or.inl ⟨rfl, ha⟩⟩
  have hplace := ty.ready_of_laid hb.placed.same (fun k hk => hb.arrParent_eq hk) D named j _ _ _ _ _ _ _ _ elem hok
    hrows.rows (hb.block hj) hrows.next (hb.next_le hj) ⟨rfl, hsits⟩
  rw [hplace.size]
  exact ty.size_small D named hok

theorem Built.fits32 {w : Bytes} {s : Schema} {t₀ : Table} (hb : Built s t₀) {sc : SchemaTy} (hd : Denotes w sc)
    (hp : ParsedAs w sc s) (hm : Minimal s) : s.Fits32 t₀ := by
  have hsize : s.size ≤ u32Max := by
    rw [hp.size]
    exact Nat.le_trans (Nat.le_add_right _ _) hd.1.fits
  have hrec : ∀ j, j < s.nfields → s.recSize (rowRecord (s.row j)) ≤ u32Max := by
    intro j hj
    cases ha : (s.row j).arrParent with
    | none =>
      rw [rowRecord_eq_none.mpr ha]
      exact hsize
    | some a =>
      obtain ⟨hk, hlo, -⟩ := hb.arrParent_around hj ha
      rw [rowRecord_eq_some.mpr ⟨a, ha, rfl⟩]
      exact hb.size_small hp (hb.elem (Nat.lt_trans hlo hj) hk).1
  have hstored : ∀ j, j < s.nfields → (rowOf t₀ j).offset + (s.row j).size ≤ u32Max := fun j hj =>
    Nat.le_trans (hb.stored_inside hj) (hrec j hj)
  refine ⟨fun j hj => ⟨?_, hm.small j⟩, fun j hj => hb.size j ▸ hstored j hj, ⟨hsize, hm.fits⟩, fun j hj => ?_⟩
  · cases hf : rowFramed s.fields (s.row j) with
    | false => exact Nat.le_trans (hb.fixed_inside hj hf) (hrec j hj)
    | true =>
      have hoff : (s.row j).offset = 0 := ((hb.placedRow hj).framed hf).1
      rw [hoff, Nat.zero_add]
      exact hb.size_small hp hj
  · obtain ⟨p', hoff, hlen, hsp⟩ := hb.spelledRow hj
    rw [hlen]
    exact (hsp.inside hoff).2

/-- A compiled table is one tree in preorder, its fixed rows lie apart in their records, its frames are
numbered each once and nothing passes 32 bits. -/
theorem row_table {w : Bytes} {s : Schema} (h : compile w = some s) :
    ∃ t₀, Built s t₀ ∧ s.Preorder ∧ s.FixedApart ∧
      (∀ r, Set.BijOn (fun j => (s.row j).varOrd)
        {j | j < s.nfields ∧ rowFramed s.fields (s.row j) = true ∧ rowRecord (s.row j) = r} {o | o < s.recFrames r}) ∧
      s.Fits32 t₀ := by
  obtain ⟨-, t₀, hb, -⟩ := compile_placed h
  obtain ⟨sc, hd, hp⟩ := compile_parsed h
  have hraw : ∀ j, j < s.nfields → rowFramed s.fields (s.row j) = false → (s.row j).offset = (rowOf t₀ j).offset :=
    fun j hj hf => (hb.placedRow hj).fixed hf
  have harr : ∀ j k, rowRecord (s.row j) = rowRecord (s.row k) → (s.row j).arrParent = (s.row k).arrParent :=
    fun j k hrec => Option.map_injective Nat.succ_injective hrec
  refine ⟨t₀, hb, ⟨fun j hj => ⟨hb.lt_next hj, hb.next_le hj⟩, fun j p hj hq => (hb.parent_spec hj hq).1,
    fun i j hi hj => hb.below_iff hi hj, ?_, fun j a hj => hb.arrParent_iff hj, fun j hj => hb.arrDepth_count hj⟩,
    ⟨fun j hj hf => hb.fixed_inside hj hf, ?_, ?_⟩, hb.varOrd_bijOn, hb.fits32 hd hp (compile_minimal h)⟩
  · intro hroot
    obtain ⟨v, hlaid⟩ := hb.laid
    rw [hroot] at hlaid
    rw [hb.next, ← hb.length]
    exact hlaid.head.next
  · intro j k hjk hk hfj hfk hrec hin
    rw [hraw j (Nat.lt_trans hjk hk) hfj, hraw k hk hfk]
    exact hb.stored_nested hjk hk hin (harr j k hrec)
  · intro j k hjk hk hfj hfk hrec hout
    rw [hraw j (Nat.lt_trans hjk hk) hfj, hraw k hk hfk]
    exact hb.stored_apart hjk hk hout (harr j k hrec)

/-- A struct of a byte, a string of any length and two numbers of sixteen bits. -/
theorem row_table_one : ∃ s t₀, compile [8, 1, 80, 12, 3, 1, 97, 0, 1, 98, 14, 1, 99, 11, 2, 0, 1] = some s ∧ s.FixedApart ∧
    s.Fits32 t₀ := by
  obtain ⟨s, hs⟩ := Option.isSome_iff_exists.mp
    (show (compile [8, 1, 80, 12, 3, 1, 97, 0, 1, 98, 14, 1, 99, 11, 2, 0, 1]).isSome = true by decide +kernel)
  obtain ⟨t₀, -, -, hfixed, -, hfits⟩ := row_table hs
  exact ⟨s, t₀, hs, hfixed, hfits⟩

end Rant.Serialize
