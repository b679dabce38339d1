import Rant.Lib.Incremental
/-!
# Folding a string block by block

A step function over blocks of `n` elements, as an iterated hash has it. The string may be given in pieces
with what does not fill a block carried along: it is the reader that needs `n` elements and is never done.
-/

namespace Rant.Lib

variable {α σ : Type}

/-- The `N` blocks of a string of `N * n` elements. -/
def blocksOf (n : Nat) (s : List α) : List (List α) :=
  (List.range (s.length / n)).map fun i => (s.drop (i * n)).take n

/-- The state after the blocks. -/
def chain (f : σ → List α → σ) (n : Nat) (h : σ) (s : List α) : σ := (blocksOf n s).foldl f h

/-- The reader of blocks. -/
def blockReader (f : σ → List α → σ) (n : Nat) : Reader α (List α) Empty (Option σ) where
  front b := if b.length < n then .more else .item (b.take n) n
  live h := h.isSome
  take h b := h.map fun h => f h b
  fault _ _ := none

variable {f : σ → List α → σ} {n : Nat}

theorem blockReader_steady (hn : 0 < n) : (blockReader f n).Steady where
  item := by
    intro b a k h
    have hfront : (if b.length < n then Front.more else Front.item (b.take n) n) =
        (Front.item a k : Front (List α) Empty) := h
    by_cases hlen : b.length < n
    · rw [if_pos hlen] at hfront
      cases hfront
    rw [if_neg hlen] at hfront
    obtain ⟨rfl, rfl⟩ := Front.item.inj hfront
    refine ⟨hn, Nat.not_lt.mp hlen, fun c => ?_⟩
    have hmore : ¬(b ++ c).length < n := by
      rw [List.length_append]
      omega
    show (if (b ++ c).length < n then Front.more else Front.item ((b ++ c).take n) n) = _
    rw [if_neg hmore, List.take_append_of_le_length (Nat.not_lt.mp hlen)]
  bad := fun {_} e => e.elim
  ends := fun _ e => e.elim

/-- The state and the elements that do not fill a block. -/
def absorbed (f : σ → List α → σ) (n : Nat) (h : σ) (s : List α) : Option σ × List α :=
  (blockReader f n).drained (some h) s

theorem absorbed_short {h : σ} {s : List α} (hs : s.length < n) : absorbed f n h s = (some h, s) :=
  Reader.drained_more rfl (if_pos hs)

theorem absorbed_block (hn : 0 < n) {h : σ} {b s : List α} (hb : b.length = n) :
    absorbed f n h (b ++ s) = absorbed f n (f h b) s := by
  have hlen : ¬(b ++ s).length < n := by
    rw [List.length_append]
    omega
  have hfront : (blockReader f n).front (b ++ s) = .item b n := by
    show (if (b ++ s).length < n then Front.more else Front.item ((b ++ s).take n) n) = _
    rw [if_neg hlen, ← hb, List.take_left]
  unfold absorbed
  rw [(blockReader_steady hn).drained_item rfl hfront, ← hb, List.drop_left]
  rfl

/-- What is left of the string goes in front of what comes. -/
theorem absorbed_append (hn : 0 < n) {h h' : σ} {s rest : List α} (hs : absorbed f n h s = (some h', rest))
    (t : List α) : absorbed f n h (s ++ t) = absorbed f n h' (rest ++ t) := by
  have happ := (@blockReader_steady α σ f n hn).drained_append t _ (some h) s rfl
  unfold absorbed at hs ⊢
  rw [happ, hs]
  rfl

/-- The blocks of a string that begins with a whole one. -/
theorem blocksOf_append (hn : 0 < n) {b s : List α} (hb : b.length = n) : blocksOf n (b ++ s) = b :: blocksOf n s := by
  have hcount : (b ++ s).length / n = s.length / n + 1 := by
    rw [List.length_append, hb, Nat.add_comm, Nat.add_div_right _ hn]
  unfold blocksOf
  rw [hcount, List.range_succ_eq_map, List.map_cons, List.map_map, Nat.zero_mul, List.drop_zero, ← hb, List.take_left]
  congr 1
  refine List.map_congr_left fun i _ => ?_
  show ((b ++ s).drop ((i + 1) * b.length)).take b.length = _
  rw [Nat.add_mul, Nat.one_mul, Nat.add_comm, ← List.drop_drop, List.drop_left]

/-- A string of whole blocks is folded whole. -/
theorem absorbed_chain (hn : 0 < n) : ∀ (k : Nat) (h : σ) (s : List α), s.length = k * n →
    absorbed f n h s = (some (chain f n h s), []) := by
  intro k
  induction k with
  | zero =>
    intro h s hs
    obtain rfl := List.eq_nil_of_length_eq_zero (hs.trans (Nat.zero_mul n))
    rw [absorbed_short hn]
    unfold chain blocksOf
    rw [List.length_nil, Nat.zero_div]
    rfl
  | succ k ih =>
    intro h s hs
    have hle : n ≤ s.length := by
      rw [hs, Nat.succ_mul]
      exact Nat.le_add_left _ _
    have htake : (s.take n).length = n := List.length_take_of_le hle
    have hdrop : (s.drop n).length = k * n := by
      rw [List.length_drop, hs, Nat.succ_mul, Nat.add_sub_cancel]
    rw [← List.take_append_drop n s, absorbed_block hn htake, ih _ _ hdrop]
    unfold chain
    rw [blocksOf_append hn htake, List.foldl_cons]

/-- Of any string the whole blocks are folded and the rest is left. -/
theorem absorbed_rest (hn : 0 < n) (h : σ) (s : List α) : ∃ h' rest, absorbed f n h s = (some h', rest) ∧
    rest.length = s.length % n := by
  have hle : s.length / n * n ≤ s.length := Nat.div_mul_le_self _ _
  have hfront : (s.take (s.length / n * n)).length = s.length / n * n := List.length_take_of_le hle
  have hrest : (s.drop (s.length / n * n)).length = s.length % n := by
    rw [List.length_drop, Nat.mod_eq_sub_div_mul]
  refine ⟨chain f n h (s.take (s.length / n * n)), s.drop (s.length / n * n), ?_, hrest⟩
  have happ := @absorbed_append α σ f n hn h _ _ _ (absorbed_chain hn _ h _ hfront) (s.drop (s.length / n * n))
  rw [List.take_append_drop, List.nil_append] at happ
  rw [happ]
  exact absorbed_short (hrest ▸ Nat.mod_lt _ hn)

end Rant.Lib
