import Rant.Lib.Endian
import Rant.Lib.Fragment
/-!
# Records back to back in a buffer

`Placed buf off r`: the buffer holds the string `r` at `off`. `BackToBack buf off rs stop`: it holds
the strings of `rs` one behind the other, from `off` to `stop`. Both are about the bytes at these
positions alone, so a write elsewhere keeps them (`BackToBack.congr`), and a copy of the whole range
carries them over (`backToBack_flatten`).
-/

namespace Rant.Lib

open Rant.Lib.Fragment (writeAt getElem?_writeAt length_writeAt)

section Placing

variable {α : Type} {buf buf' r : List α} {rs : List (List α)} {off stop : Nat}

/-- The bytes of a range. -/
def slice (buf : List α) (off len : Nat) : List α := (buf.drop off).take len

/-- `buf` holds `r` at `off`. -/
structure Placed (buf : List α) (off : Nat) (r : List α) : Prop where
  fits : off + r.length ≤ buf.length
  same : ∀ k, k < r.length → buf[off + k]? = r[k]?

theorem Placed.slice (h : Placed buf off r) : slice buf off r.length = r := by
  refine List.ext_getElem? fun k => ?_
  unfold Rant.Lib.slice
  by_cases hk : k < r.length
  · rw [List.getElem?_take_of_lt hk, List.getElem?_drop]
    exact h.same k hk
  · rw [List.getElem?_eq_none (Nat.le_of_not_lt hk), List.getElem?_eq_none]
    rw [List.length_take]
    omega

theorem placed_slice {len : Nat} (h : off + len ≤ buf.length) : Placed buf off (slice buf off len) := by
  have hlen : (slice buf off len).length = len := by
    unfold slice
    rw [List.length_take, List.length_drop]
    omega
  refine ⟨hlen.symm ▸ h, fun k hk => ?_⟩
  unfold slice
  rw [List.getElem?_take_of_lt (hlen ▸ hk), List.getElem?_drop]

theorem length_slice {len : Nat} (h : off + len ≤ buf.length) : (slice buf off len).length = len := by
  unfold slice
  rw [List.length_take, List.length_drop]
  omega

/-- What is placed stays where the buffer does not change. -/
theorem Placed.congr (h : Placed buf off r) (hlen : off + r.length ≤ buf'.length)
    (hsame : ∀ i, off ≤ i → i < off + r.length → buf'[i]? = buf[i]?) : Placed buf' off r :=
  ⟨hlen, fun k hk => (hsame (off + k) (Nat.le_add_right _ _) (by omega)).trans (h.same k hk)⟩

/-- A copy leaves what it copied. -/
theorem placed_write (h : off + r.length ≤ buf.length) : Placed (writeAt buf off r) off r := by
  refine ⟨(length_writeAt h).symm ▸ h, fun k hk => ?_⟩
  rw [getElem?_writeAt h, if_pos ⟨Nat.le_add_right _ _, by omega⟩, Nat.add_sub_cancel_left]

/-- A copy beside what is placed. -/
theorem Placed.write {x : List α} {i : Nat} (h : Placed buf off r) (hx : i + x.length ≤ buf.length)
    (hapart : off + r.length ≤ i ∨ i + x.length ≤ off) : Placed (writeAt buf i x) off r := by
  refine h.congr ((length_writeAt hx).symm ▸ h.fits) fun k hk hk' => ?_
  rw [getElem?_writeAt hx, if_neg fun hin => by omega]

/-- What is placed inside what is placed. -/
theorem Placed.inside {x : List α} {k : Nat} (h : Placed buf off r) (hx : Placed buf (off + k) x)
    (hk : k + x.length ≤ r.length) : Placed r k x := by
  refine ⟨hk, fun j hj => ?_⟩
  rw [← h.same (k + j) (by omega), ← Nat.add_assoc]
  exact hx.same j hj

/-- The strings of `rs`, one behind the other, from `off` to `stop`. -/
def BackToBack (buf : List α) : Nat → List (List α) → Nat → Prop
  | off, [], stop => stop = off
  | off, r :: rs, stop => Placed buf off r ∧ BackToBack buf (off + r.length) rs stop

theorem BackToBack.stop_eq : ∀ {rs : List (List α)} {off : Nat}, BackToBack buf off rs stop →
    stop = off + rs.flatten.length
  | [], _, h => h
  | r :: rs, off, h => by
    rw [List.flatten_cons, List.length_append, ← Nat.add_assoc]
    exact h.2.stop_eq

theorem BackToBack.append {rs' : List (List α)} {stop' : Nat} : ∀ {rs : List (List α)} {off : Nat},
    BackToBack buf off rs stop → BackToBack buf stop rs' stop' → BackToBack buf off (rs ++ rs') stop'
  | [], _, h, h' => h ▸ h'
  | _ :: _, _, h, h' => ⟨h.1, h.2.append h'⟩

theorem BackToBack.congr : ∀ {rs : List (List α)} {off : Nat}, BackToBack buf off rs stop →
    stop ≤ buf'.length → (∀ i, off ≤ i → i < stop → buf'[i]? = buf[i]?) → BackToBack buf' off rs stop
  | [], _, h, _, _ => h
  | r :: rs, off, h, hlen, hsame => by
    have hstop := h.2.stop_eq
    refine ⟨h.1.congr (by omega) fun i hi hlt => hsame i hi (by omega), ?_⟩
    exact h.2.congr hlen fun i hi hlt => hsame i (by omega) hlt

/-- A copy of the strings holds them. -/
theorem backToBack_flatten (rest : List α) : ∀ (pre : List α) (rs : List (List α)),
    BackToBack (pre ++ rs.flatten ++ rest) pre.length rs (pre.length + rs.flatten.length)
  | _, [] => rfl
  | pre, r :: rs => by
    refine ⟨⟨?_, fun k hk => ?_⟩, ?_⟩
    · rw [List.length_append, List.length_append, List.flatten_cons, List.length_append]
      omega
    · rw [List.flatten_cons, List.append_assoc, List.append_assoc, List.getElem?_append_right (by omega),
        List.getElem?_append_left (by omega)]
      congr 1
      omega
    · have h := backToBack_flatten rest (pre ++ r) rs
      rw [List.length_append, List.append_assoc pre r] at h
      rw [List.flatten_cons, List.length_append, ← Nat.add_assoc]
      exact h

end Placing

/-- A number inside what is placed. -/
theorem Placed.readLe {buf r : List UInt8} {off : Nat} (h : Placed buf off r) {k n : Nat}
    (hk : k + n ≤ r.length) : readLe buf (off + k) n = readLe r k n := by
  refine readLe_congr fun i hi => ?_
  rw [Nat.add_assoc]
  exact h.same (k + i) (by omega)

end Rant.Lib
