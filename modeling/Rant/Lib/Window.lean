import Mathlib.Algebra.Order.Ring.Int
/-!
# A bit vector as a window onto the naturals

A base and `w` bits stand for a set of naturals: bit `j` set puts `base + j` into it. Two
such windows over different bases are brought together by shifting one down to the other's
base, which loses exactly the members below that base (`on_shift`). What a window can hold is
`w` long, so a shift by `w` or more empties it (`on_shift_zero`).
-/

namespace Rant.Lib.Window

variable {w base base' q : Nat} {b c : BitVec w}

/-- `q` is in the window of bits `b` at `base`. -/
def On (base : Nat) (b : BitVec w) (q : Nat) : Prop :=
  base ≤ q ∧ b.getLsbD (q - base) = true

/-- A window reaches `w` past its base. -/
theorem On.lt (h : On base b q) : q < base + w := by
  have hj : q - base < w := BitVec.lt_of_getLsbD h.2
  have hle := h.1
  omega

theorem not_on_zero : ¬ On base (0#w) q := by
  rintro ⟨_, h⟩
  rw [BitVec.getLsbD_zero] at h
  exact Bool.noConfusion h

theorem on_or : On base (b ||| c) q ↔ On base b q ∨ On base c q := by
  unfold On
  rw [BitVec.getLsbD_or, Bool.or_eq_true, and_or_left]

/-- Shifting down to a later base keeps what is at or past it. -/
theorem on_shift (hb : base ≤ base') :
    On base' (b >>> (base' - base)) q ↔ On base b q ∧ base' ≤ q := by
  unfold On
  rw [BitVec.getLsbD_ushiftRight]
  constructor
  · rintro ⟨hle, hbit⟩
    have hj : base' - base + (q - base') = q - base := by omega
    rw [hj] at hbit
    exact ⟨⟨by omega, hbit⟩, hle⟩
  · rintro ⟨⟨_, hbit⟩, hle⟩
    have hj : base' - base + (q - base') = q - base := by omega
    rw [hj]
    exact ⟨hle, hbit⟩

/-- One bit is the window of one member. -/
theorem on_bit {p : Nat} (hb : base ≤ p) (hp : p < base + w) :
    On base (1#w <<< (p - base)) q ↔ q = p := by
  unfold On
  rw [BitVec.getLsbD_shiftLeft, BitVec.getLsbD_one]
  simp only [Bool.and_eq_true, Bool.not_eq_true', decide_eq_true_eq, decide_eq_false_iff_not]
  omega

/-- A window does not reach a base `w` or more past its own. -/
theorem on_shift_zero (hb : base + w ≤ base') :
    On base' (0#w) q ↔ On base b q ∧ base' ≤ q := by
  constructor
  · intro h
    exact absurd h not_on_zero
  · rintro ⟨h, hle⟩
    have hlt := h.lt
    omega

/-- Where a bit is set the window has a member, at any base. -/
theorem exists_on (base : Nat) (h : b ≠ 0#w) : ∃ q, On base b q := by
  by_contra hnone
  refine h (BitVec.eq_of_getLsbD_eq fun j _ => ?_)
  rw [BitVec.getLsbD_zero, ← Bool.not_eq_true]
  intro hbit
  refine hnone ⟨base + j, Nat.le_add_right base j, ?_⟩
  rw [Nat.add_sub_cancel_left]
  exact hbit

theorem On.ne_zero (h : On base b q) : b ≠ 0#w := by
  rintro rfl
  exact not_on_zero h

end Rant.Lib.Window
