import Mathlib.Algebra.Order.Ring.Int
import Mathlib.Data.Nat.Bitwise
/-!
# A bitmap in a byte string

Bit `i` is bit `i % 8` of byte `i / 8`. Setting a bit keeps every other, so a bitmap only
gains under `bitSet`: `Gains` is that order.
-/

namespace Rant.Lib

/-- Bit `i`, clear past the end. -/
def bitGet (bm : List UInt8) (i : Nat) : Bool := (bm.getD (i / 8) 0).toNat.testBit (i % 8)

/-- Bit `i` set. -/
def bitSet (bm : List UInt8) (i : Nat) : List UInt8 :=
  bm.modify (i / 8) fun b => UInt8.ofNat (b.toNat ||| 2 ^ (i % 8))

@[simp] theorem length_bitSet (bm : List UInt8) (i : Nat) : (bitSet bm i).length = bm.length :=
  List.length_modify _ _ _

/-- A bit after another was set. -/
theorem bitGet_bitSet {bm : List UInt8} {i j : Nat} :
    bitGet (bitSet bm i) j = (bitGet bm j || (decide (i = j) && decide (i / 8 < bm.length))) := by
  unfold bitGet bitSet
  rw [List.getD_eq_getElem?_getD, List.getD_eq_getElem?_getD, List.getElem?_modify]
  by_cases hij : i / 8 = j / 8
  · simp only [hij, if_true, Option.map_eq_map]
    rw [← hij]
    cases hb : bm[i / 8]? with
    | none =>
      rw [List.getElem?_eq_none_iff] at hb
      have : ¬ i / 8 < bm.length := by omega
      simp [this]
    | some b =>
      have hlt := (List.getElem?_eq_some_iff.mp hb).1
      have hor : b.toNat ||| 2 ^ (i % 8) < 2 ^ 8 :=
        Nat.or_lt_two_pow b.toNat_lt (Nat.pow_lt_pow_right (by decide) (Nat.mod_lt _ (by decide)))
      have hnat : (UInt8.ofNat (b.toNat ||| 2 ^ (i % 8))).toNat = b.toNat ||| 2 ^ (i % 8) := by
        rw [UInt8.toNat_ofNat']
        exact Nat.mod_eq_of_lt hor
      simp only [Option.map_some, Option.getD_some, hnat, Nat.testBit_or, Nat.testBit_two_pow, hlt,
        decide_true, Bool.and_true]
      congr 1
      exact decide_eq_decide.mpr (by omega)
  · simp only [hij, if_false, Option.map_eq_map, Option.map_id']
    have hne : i ≠ j := fun h => hij (by rw [h])
    simp [hne]

/-- Every bit set in the one is set in the other. -/
def Gains (a b : List UInt8) : Prop := a.length = b.length ∧ ∀ i, bitGet a i = true → bitGet b i = true

theorem gains_refl (a : List UInt8) : Gains a a := ⟨rfl, fun _ h => h⟩

theorem gains_trans {a b c : List UInt8} (h : Gains a b) (h' : Gains b c) : Gains a c :=
  ⟨h.1.trans h'.1, fun i hi => h'.2 i (h.2 i hi)⟩

theorem gains_bitSet (a : List UInt8) (i : Nat) : Gains a (bitSet a i) :=
  ⟨(length_bitSet a i).symm, fun j hj => by rw [bitGet_bitSet, hj]; rfl⟩

/-- A bit inside the map reads back. -/
theorem bitGet_bitSet_self {bm : List UInt8} {i : Nat} (h : i < 8 * bm.length) :
    bitGet (bitSet bm i) i = true := by
  rw [bitGet_bitSet, decide_eq_true (rfl : i = i), decide_eq_true (by omega : i / 8 < bm.length)]
  exact Bool.or_true _

end Rant.Lib
