import Mathlib.Algebra.Order.Ring.Int
/-!
# Little endian numbers in a byte string

`readLe m i n` reads the `n` byte number at offset `i`, and is `none` when it would
read outside `m`: a program over a hostile byte string reads through it, and never
reads outside exactly when none of its reads is `none`. `writeLe n v` is the other
direction, the `n` low bytes of `v`.
-/

namespace Rant.Lib

/-- The `n` byte little endian number at offset `i`, `none` outside the string. -/
def readLe (m : List UInt8) (i : Nat) : Nat → Option Nat
  | 0 => some 0
  | n + 1 =>
    match m[i]?, readLe m (i + 1) n with
    | some b, some v => some (b.toNat + 256 * v)
    | _, _ => none

/-- The `n` low bytes of `v`, the lowest first. -/
def writeLe : Nat → Nat → List UInt8
  | 0, _ => []
  | n + 1, v => UInt8.ofNat (v % 256) :: writeLe n (v / 256)

@[simp] theorem length_writeLe : ∀ (n v : Nat), (writeLe n v).length = n
  | 0, _ => rfl
  | n + 1, v => by simp [writeLe, length_writeLe n]

/-- A read inside the string succeeds. -/
theorem readLe_of_le {m : List UInt8} : ∀ {n i : Nat}, i + n ≤ m.length →
    ∃ v, readLe m i n = some v := by
  intro n
  induction n with
  | zero => intro i _; exact ⟨0, rfl⟩
  | succ n ih =>
    intro i h
    obtain ⟨v, hv⟩ := ih (i := i + 1) (by omega)
    have hi : i < m.length := by omega
    refine ⟨m[i].toNat + 256 * v, ?_⟩
    simp only [readLe, List.getElem?_eq_getElem hi, hv]

/-- A read that succeeds lies inside the string. -/
theorem le_of_readLe {m : List UInt8} {n i v : Nat} (hn : 0 < n) (h : readLe m i n = some v) :
    i + n ≤ m.length := by
  induction n generalizing i v with
  | zero => omega
  | succ n ih =>
    simp only [readLe] at h
    split at h
    next b w hb hw =>
      have hi := (List.getElem?_eq_some_iff.mp hb).1
      by_cases hn' : n = 0
      · omega
      · have hrec := ih (by omega) hw
        omega
    next => cases h

/-- An `n` byte number is below `256 ^ n`. -/
theorem readLe_lt {m : List UInt8} {n i v : Nat} (h : readLe m i n = some v) : v < 256 ^ n := by
  induction n generalizing i v with
  | zero =>
    simp only [readLe, Option.some.injEq] at h
    omega
  | succ n ih =>
    simp only [readLe] at h
    split at h
    next b w hb hw =>
      have hw' := ih hw
      have hb' := b.toNat_lt
      simp only [Option.some.injEq] at h
      rw [Nat.pow_succ]
      omega
    next => cases h

/-- A read sees the bytes at its place alone. -/
theorem readLe_congr {m m' : List UInt8} {n i j : Nat}
    (h : ∀ k, k < n → m[i + k]? = m'[j + k]?) : readLe m i n = readLe m' j n := by
  induction n generalizing i j with
  | zero => rfl
  | succ n ih =>
    have hhead := h 0 (by omega)
    have htail : readLe m (i + 1) n = readLe m' (j + 1) n := by
      apply ih
      intro k hk
      have := h (k + 1) (by omega)
      rw [show i + 1 + k = i + (k + 1) by omega, show j + 1 + k = j + (k + 1) by omega]
      exact this
    simp only [Nat.add_zero] at hhead
    simp only [readLe, hhead, htail]

/-- A read behind a prefix is the read of the rest. -/
theorem readLe_append_right {p m : List UInt8} {n i : Nat} :
    readLe (p ++ m) (p.length + i) n = readLe m i n := by
  apply readLe_congr
  intro k _
  rw [List.getElem?_append_right (by omega)]
  congr 1
  omega

/-- A read inside a prefix does not see what follows it. -/
theorem readLe_append_left {m p : List UInt8} {n i : Nat} (h : i + n ≤ m.length) :
    readLe (m ++ p) i n = readLe m i n := by
  apply readLe_congr
  intro k hk
  exact List.getElem?_append_left (by omega)

/-- What was written is read back. -/
theorem readLe_writeLe (n v : Nat) (p : List UInt8) :
    readLe (writeLe n v ++ p) 0 n = some (v % 256 ^ n) := by
  induction n generalizing v with
  | zero => simp [readLe, Nat.mod_one]
  | succ n ih =>
    have htail : readLe (writeLe (n + 1) v ++ p) 1 n = some (v / 256 % 256 ^ n) := by
      rw [← ih (v / 256)]
      exact readLe_append_right (p := [UInt8.ofNat (v % 256)]) (i := 0)
    have hhead : (writeLe (n + 1) v ++ p)[0]? = some (UInt8.ofNat (v % 256)) := rfl
    simp only [readLe, hhead, Nat.zero_add, htail, Option.some.injEq]
    have hb : (UInt8.ofNat (v % 256)).toNat = v % 256 := by simp
    rw [hb, Nat.pow_succ, Nat.mul_comm (256 ^ n) 256, Nat.mod_mul]

/-- What was written behind a prefix is read back. -/
theorem readLe_field {p : List UInt8} {n i v : Nat} (rest : List UInt8) (hi : p.length = i) :
    readLe (p ++ (writeLe n v ++ rest)) i n = some (v % 256 ^ n) := by
  have h := readLe_append_right (p := p) (m := writeLe n v ++ rest) (n := n) (i := 0)
  rw [Nat.add_zero, hi] at h
  rw [h, readLe_writeLe]

/-- What a run of bytes starts with, and what is left behind it. -/
theorem drop_front {m p rest : List UInt8} {n i : Nat} (h : m.drop i = p ++ rest) (hp : p.length = n) :
    (m.drop i).take n = p ∧ m.drop (i + n) = rest := by
  rw [← List.drop_drop, h]
  exact ⟨List.take_left' hp, List.drop_left' hp⟩

/-- The number at the front, and what is left behind it. -/
theorem readLe_front {m rest : List UInt8} {n i v : Nat} (h : m.drop i = writeLe n v ++ rest) :
    readLe m i n = some (v % 256 ^ n) ∧ m.drop (i + n) = rest := by
  have hread : readLe m i n = readLe (m.drop i) 0 n :=
    readLe_congr fun k _ => by rw [List.getElem?_drop, Nat.zero_add]
  rw [hread, h, readLe_writeLe]
  exact ⟨rfl, (drop_front h (length_writeLe n v)).2⟩

/-! ## Numbers one behind the other -/

/-- Numbers of the given widths. -/
def writeFields (fs : List (Nat × Nat)) : List UInt8 := fs.flatMap fun f => writeLe f.1 f.2

/-- The numbers of the given widths from offset `i`. -/
def readFields (m : List UInt8) : Nat → List Nat → Option (List Nat)
  | _, [] => some []
  | i, n :: ns => (readLe m i n).bind fun v => (readFields m (i + n) ns).map (v :: ·)

@[simp] theorem length_writeFields : ∀ fs : List (Nat × Nat),
    (writeFields fs).length = (fs.map Prod.fst).sum
  | [] => rfl
  | f :: fs => by
    have ih := length_writeFields fs
    unfold writeFields at *
    simp [ih]

theorem readFields_of_le {m : List UInt8} : ∀ {i : Nat} {l : List Nat}, i + l.sum ≤ m.length →
    ∃ vs, readFields m i l = some vs
  | _, [], _ => ⟨[], rfl⟩
  | i, n :: ns, h => by
    rw [List.sum_cons] at h
    obtain ⟨v, hv⟩ := readLe_of_le (m := m) (i := i) (n := n) (by omega)
    obtain ⟨vs, hvs⟩ := readFields_of_le (m := m) (i := i + n) (l := ns) (by omega)
    exact ⟨v :: vs, by simp [readFields, hv, hvs]⟩

theorem readFields_append_left {m p : List UInt8} : ∀ {i : Nat} {l : List Nat},
    i + l.sum ≤ m.length → readFields (m ++ p) i l = readFields m i l
  | _, [], _ => rfl
  | i, n :: ns, h => by
    rw [List.sum_cons] at h
    rw [readFields, readFields, readLe_append_left (by omega), readFields_append_left (by omega)]

/-- What was written behind a prefix is read back. -/
theorem readFields_field {fs : List (Nat × Nat)} (rest : List UInt8) {p : List UInt8} {i : Nat}
    (hi : p.length = i) (hfs : ∀ f ∈ fs, f.2 < 256 ^ f.1) :
    readFields (p ++ (writeFields fs ++ rest)) i (fs.map Prod.fst) = some (fs.map Prod.snd) := by
  induction fs generalizing p i with
  | nil => rfl
  | cons f fs ih =>
    have hform : p ++ (writeFields (f :: fs) ++ rest) =
        p ++ (writeLe f.1 f.2 ++ (writeFields fs ++ rest)) := by simp [writeFields]
    have htail := ih (p := p ++ writeLe f.1 f.2) (i := i + f.1) (by simp [hi])
      fun g hg => hfs g (List.mem_cons_of_mem _ hg)
    rw [List.append_assoc] at htail
    simp only [hform, List.map_cons, readFields, readLe_field _ hi, htail, Option.bind_some,
      Option.map_some, Nat.mod_eq_of_lt (hfs f List.mem_cons_self)]

end Rant.Lib
