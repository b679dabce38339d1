import Mathlib.Algebra.Order.Ring.Int
/-!
# Fragmentation and reassembly

A message is cut into fragments of `F` items, the last one shorter, and put back
together in a buffer by writing fragment `k` at offset `k * F`, in any order and
any number of times. `Agrees F data buf held` is what the buffer is worth on the
way: it equals the message wherever a fragment is held. Writing a fragment
extends what is held (`agrees_write`), and once every fragment is held the
buffer starts with the message (`agrees_complete`), whatever its bytes were
before.
-/

namespace Rant.Lib.Fragment

variable {α : Type}

/-- `data` copied into `buf` from offset `off` on. -/
def writeAt (buf : List α) (off : Nat) (data : List α) : List α :=
  buf.take off ++ data ++ buf.drop (off + data.length)

variable {buf data : List α}

/-- A copy that stays inside the buffer does not change its length. -/
theorem length_writeAt {off : Nat} (h : off + data.length ≤ buf.length) :
    (writeAt buf off data).length = buf.length := by
  unfold writeAt
  rw [List.length_append, List.length_append, List.length_take, List.length_drop]
  omega

/-- What a copy leaves at position `i`. -/
theorem getElem?_writeAt {off : Nat} (h : off + data.length ≤ buf.length)
    (i : Nat) : (writeAt buf off data)[i]? =
      if off ≤ i ∧ i < off + data.length then data[i - off]? else buf[i]? := by
  have htake : (buf.take off).length = off := by
    rw [List.length_take]
    omega
  unfold writeAt
  rw [List.append_assoc]
  by_cases hlow : i < off
  · rw [List.getElem?_append_left (by omega), List.getElem?_take_of_lt hlow, if_neg (by omega)]
  rw [List.getElem?_append_right (by omega), htake]
  by_cases hin : i < off + data.length
  · rw [List.getElem?_append_left (by omega), if_pos ⟨by omega, hin⟩]
  · rw [List.getElem?_append_right (by omega), List.getElem?_drop, if_neg (by omega)]
    congr 1
    omega

/-- A copy to the front of a buffer that fits starts the buffer with the data. -/
theorem take_writeAt_zero : (writeAt buf 0 data).take data.length = data := by
  unfold writeAt
  rw [List.take_zero, List.nil_append, List.take_left]

/-- A copy and what stood in front of it. -/
theorem take_writeAt_next {k : Nat} (hk : k ≤ buf.length) :
    (writeAt buf k data).take (k + data.length) = buf.take k ++ data := by
  have hlen : (buf.take k ++ data).length = k + data.length := by
    rw [List.length_append, List.length_take, Nat.min_eq_left hk]
  unfold writeAt
  rw [← hlen, List.take_left]

/-- Fragment `k` of a message cut every `F` items. -/
def fragment (F : Nat) (data : List α) (k : Nat) : List α := (data.drop (k * F)).take F

theorem length_fragment (F : Nat) (data : List α) (k : Nat) :
    (fragment F data k).length = min F (data.length - k * F) := by
  unfold fragment
  rw [List.length_take, List.length_drop]

variable {F : Nat}

/-- A fragment of a message that fits the buffer lands inside it. -/
theorem fragment_fits {k : Nat} (hfit : data.length ≤ buf.length)
    (hk : k * F ≤ data.length) : k * F + (fragment F data k).length ≤ buf.length := by
  rw [length_fragment]
  omega

/-- The buffer equals the message at every position of a held fragment. -/
def Agrees (F : Nat) (data buf : List α) (held : Nat → Prop) : Prop :=
  ∀ i, i < data.length → held (i / F) → buf[i]? = data[i]?

variable {held : Nat → Prop}

/-- With nothing held nothing is asked of the buffer. -/
theorem agrees_none (h : ∀ k, ¬ held k) :
    Agrees F data buf held :=
  fun i _ hi => absurd hi (h (i / F))

/-- Less held, less asked. -/
theorem agrees_mono {held' : Nat → Prop}
    (h : Agrees F data buf held) (hsub : ∀ k, held' k → held k) : Agrees F data buf held' :=
  fun i hi hh => h i hi (hsub _ hh)

/-- Writing fragment `k` in its place adds it to what is held. -/
theorem agrees_write {k : Nat} (hF : 0 < F)
    (h : Agrees F data buf held) (hfit : data.length ≤ buf.length) (hk : k * F ≤ data.length) :
    Agrees F data (writeAt buf (k * F) (fragment F data k)) fun j => j = k ∨ held j := by
  intro i hi hh
  rw [getElem?_writeAt (fragment_fits hfit hk), length_fragment]
  have hdiv : i / F * F ≤ i ∧ i < i / F * F + F := by
    have hm := Nat.div_add_mod i F
    have hl := Nat.mod_lt i hF
    rw [Nat.mul_comm] at hm
    omega
  by_cases hik : i / F = k
  · -- inside the fragment just written
    subst hik
    rw [if_pos (by omega)]
    unfold fragment
    rw [List.getElem?_take_of_lt (by omega), List.getElem?_drop]
    congr 1
    omega
  · -- another fragment's position, which the copy does not reach
    have hout : ¬ (k * F ≤ i ∧ i < k * F + min F (data.length - k * F)) := by
      intro hc
      have hlt : i / F < k + 1 := (Nat.div_lt_iff_lt_mul hF).mpr (by rw [Nat.add_mul]; omega)
      have hge : k ≤ i / F := (Nat.le_div_iff_mul_le hF).mpr hc.1
      omega
    rw [if_neg hout]
    exact h i hi (hh.resolve_left hik)

/-- With every fragment held the buffer starts with the message. -/
theorem agrees_complete {n : Nat} (hF : 0 < F)
    (h : Agrees F data buf held) (hfit : data.length ≤ buf.length) (hn : data.length ≤ n * F)
    (hall : ∀ k, k < n → held k) : buf.take data.length = data := by
  apply List.ext_getElem?
  intro i
  by_cases hi : i < data.length
  · rw [List.getElem?_take_of_lt hi]
    exact h i hi (hall _ ((Nat.div_lt_iff_lt_mul hF).mpr (by omega)))
  · rw [List.getElem?_eq_none (by rw [List.length_take]; omega), List.getElem?_eq_none (by omega)]

end Rant.Lib.Fragment
