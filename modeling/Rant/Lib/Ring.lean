import Mathlib.Algebra.Order.Ring.Int
/-!
# A keep-last ring as the tail of a log

A ring of `depth` cells with one write cursor keeps the last `depth` items ever
written to it. `Rep depth head cell valid log` is that statement: `log` is
everything ever written, the cursor stands at `log.length % depth`, a cell is
valid once it was written, and each of the last `depth` items of the log lies in
its cell. The log is ghost: no run-time code keeps it, the ring only *is* the
tail of one.

`rep_push` is the write; `rep_back` is the walk from the newest item to the
oldest, the order in which such a ring is searched; `rep_oldest` says which item
the cursor points at.
-/

namespace Rant.Lib.Ring

variable {α : Type}

/-- The cell before `i` in a ring of `depth` cells. -/
def back (depth i : Nat) : Nat := if i = 0 then depth - 1 else i - 1

variable {depth : Nat}

theorem back_lt {i : Nat} (hd : 0 < depth) (hi : i < depth) : back depth i < depth := by
  unfold back
  split <;> omega

/-- `cell` holds the last `depth` items of `log`, with the cursor at `head`. -/
structure Rep (depth head : Nat) (cell : Nat → α) (valid : α → Prop) (log : List α) : Prop where
  depth_pos : 0 < depth
  head_eq : head = log.length % depth
  valid_iff : ∀ i, i < depth → (valid (cell i) ↔ i < log.length)
  cell_eq : ∀ (i : Nat) (h : i < log.length), log.length ≤ i + depth → cell (i % depth) = log[i]

variable {cell : Nat → α} {valid : α → Prop}

/-- An empty ring represents the empty log. -/
theorem rep_nil (hd : 0 < depth)
    (hv : ∀ i, i < depth → ¬ valid (cell i)) : Rep depth 0 cell valid [] where
  depth_pos := hd
  head_eq := (Nat.zero_mod depth).symm
  valid_iff i hi := by simp [hv i hi]
  cell_eq i h := absurd h (Nat.not_lt_zero i)

/-- Two items fewer than `depth` apart lie in different cells. -/
theorem mod_ne_of_lt {i n : Nat} (h : i < n) (hn : n < i + depth) : i % depth ≠ n % depth := by
  intro heq
  have hz : (n - i) % depth = 0 := Nat.sub_mod_eq_zero_of_mod_eq heq.symm
  rw [Nat.mod_eq_of_lt (by omega)] at hz
  omega

variable {log : List α}

variable {head : Nat}

/-- Writing the cell at the cursor and stepping the cursor appends to the log. -/
theorem rep_push {cell' : Nat → α} (hr : Rep depth head cell valid log) {x : α}
    (hx : valid x) (hhead : cell' head = x) (hrest : ∀ i, i ≠ head → cell' i = cell i) :
    Rep depth ((head + 1) % depth) cell' valid (log ++ [x]) where
  depth_pos := hr.depth_pos
  head_eq := by
    rw [hr.head_eq, List.length_append, List.length_singleton, Nat.mod_add_mod]
  valid_iff i hi := by
    rw [List.length_append, List.length_singleton]
    by_cases h : i = head
    · subst h
      have hle : i ≤ log.length := by
        rw [hr.head_eq]
        exact Nat.mod_le _ _
      rw [hhead]
      exact ⟨fun _ => by omega, fun _ => hx⟩
    · rw [hrest i h, hr.valid_iff i hi]
      have hh := hr.head_eq
      constructor
      · intro hlt
        omega
      · intro hlt
        by_cases hlen : log.length < depth
        · rw [Nat.mod_eq_of_lt hlen] at hh
          omega
        · omega
  cell_eq i h hwin := by
    rw [List.length_append, List.length_singleton] at h hwin
    by_cases hi : i < log.length
    · have hne : i % depth ≠ head := by
        rw [hr.head_eq]
        exact mod_ne_of_lt hi (by omega)
      rw [hrest _ hne, hr.cell_eq i hi (by omega)]
      exact (List.getElem_append_left hi).symm
    · have hlast : i = log.length := by omega
      subst hlast
      rw [← hr.head_eq, hhead]
      exact (List.getElem_concat_length rfl _).symm

/-- The cell before the cell of item `n + 1` is the cell of item `n`. -/
theorem back_mod {n : Nat} (hd : 0 < depth) : back depth ((n + 1) % depth) = n % depth := by
  unfold back
  have hlt : n % depth < depth := Nat.mod_lt n hd
  rw [Nat.add_mod]
  by_cases h1 : depth = 1
  · subst h1
    simp [Nat.mod_one]
  have hone : 1 % depth = 1 := Nat.mod_eq_of_lt (by omega)
  rw [hone]
  by_cases hw : n % depth + 1 = depth
  · rw [hw, Nat.mod_self, if_pos rfl]
    omega
  · rw [Nat.mod_eq_of_lt (by omega), if_neg (Nat.succ_ne_zero _)]
    omega

/-- The cell one step back from item `n + 1`'s is valid exactly when the log
reaches it, and then holds item `n`, as long as the walk stays in the ring. -/
theorem rep_back (hr : Rep depth head cell valid log) {n : Nat}
    (h : n < log.length) (hwin : log.length ≤ n + depth) :
    valid (cell (back depth ((n + 1) % depth))) ∧
      cell (back depth ((n + 1) % depth)) = log[n] := by
  rw [back_mod hr.depth_pos]
  have hcell := hr.cell_eq n h hwin
  refine ⟨?_, hcell⟩
  rw [hr.valid_iff _ (Nat.mod_lt n hr.depth_pos)]
  exact Nat.lt_of_le_of_lt (Nat.mod_le n depth) h

/-- Before the ring has filled, the cell before the first one is not valid. -/
theorem rep_back_zero (hr : Rep depth head cell valid log)
    (hlen : log.length < depth) :
    ¬ valid (cell (back depth 0)) := by
  unfold back
  rw [if_pos rfl, hr.valid_iff _ (by omega)]
  omega

/-- A valid cell holds an item of the window. -/
theorem rep_valid (hr : Rep depth head cell valid log) {i : Nat} (hi : i < depth)
    (hv : valid (cell i)) :
    ∃ n, log.length ≤ n + depth ∧ log[n]? = some (cell i) := by
  have hlt := (hr.valid_iff i hi).mp hv
  -- the last item written to the cell
  obtain ⟨k, hk⟩ : ∃ k, k = (log.length - 1 - i) / depth := ⟨_, rfl⟩
  have hlow : k * depth ≤ log.length - 1 - i := by
    rw [hk]
    exact Nat.div_mul_le_self _ _
  have hhigh : log.length - 1 - i < (k + 1) * depth := by
    rw [hk]
    exact Nat.lt_mul_of_div_lt (Nat.lt_succ_self _) hr.depth_pos
  rw [Nat.add_mul, Nat.one_mul] at hhigh
  have hn : i + k * depth < log.length := by omega
  have hmod : (i + k * depth) % depth = i := by
    rw [Nat.add_mul_mod_self_right, Nat.mod_eq_of_lt hi]
  have hcell := hr.cell_eq (i + k * depth) hn (by omega)
  rw [hmod] at hcell
  refine ⟨i + k * depth, by omega, ?_⟩
  rw [hcell]
  exact List.getElem?_eq_getElem hn

/-- Once the ring has wrapped, the cursor points at the oldest item kept. -/
theorem rep_oldest (hr : Rep depth head cell valid log)
    (hlen : depth ≤ log.length) :
    cell head = log.get ⟨log.length - depth, by have := hr.depth_pos; omega⟩ := by
  have hpos := hr.depth_pos
  rw [List.get_eq_getElem, ← hr.cell_eq (log.length - depth) (by omega) (by omega), hr.head_eq]
  congr 1
  conv => lhs; rw [← Nat.sub_add_cancel hlen]
  exact Nat.add_mod_right _ _

end Rant.Lib.Ring
