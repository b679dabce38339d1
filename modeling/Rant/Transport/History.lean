import Rant.Transport.WriterInv
/-!
# What a history answers

The positions a topic reads off its ring, said of the log the ring is the tail of: the sample
that holds a seqno, the newest one, and where a lane joins.
-/

namespace Rant.Transport

open Rant.Lib

variable {frag : Nat} {t : Topic} {S : List WriterSample}

/-- A valid slot of the ring is a cached sample. -/
theorem History.slot_cached (h : History frag t S) {j : Nat} (hj : j < t.qos.keepLast)
    (hv : (t.slotAt j).valid = true) : Cached t S (t.slotAt j) := by
  obtain ⟨n, hwin, hn⟩ := Ring.rep_valid h.ring hj hv
  exact ⟨n, hwin, hn⟩

/-- The walk for the join position ends where it started or at a cached sample. -/
theorem joinFrom_spec (h : History frag t S) (want : Nat) : ∀ (n k i s : Nat), i < t.qos.keepLast →
      joinFrom t want n k i s = s ∨ ∃ x, Cached t S x ∧ joinFrom t want n k i s = x.base
  | 0, _, _, _, _ => Or.inl rfl
  | n + 1, k, i, s, hi => by
    have hj := Ring.back_lt h.ring.depth_pos hi
    unfold joinFrom
    dsimp only
    split
    next => exact Or.inl rfl
    next hv =>
      split
      next => exact Or.inl rfl
      have hv : (t.slotAt (Ring.back t.qos.keepLast i)).valid = true := by
        rw [Bool.not_eq_true', Bool.not_eq_false] at hv
        exact hv
      rcases joinFrom_spec h want n (k + 1) _ (t.slotAt (Ring.back t.qos.keepLast i)).base hj
        with heq | hx
      · exact Or.inr ⟨_, h.slot_cached hj hv, heq⟩
      · exact Or.inr hx

theorem unicastJoinSeqno_spec (h : History frag t S) :
    unicastJoinSeqno t = t.nextSeqno ∨ ∃ x, Cached t S x ∧ unicastJoinSeqno t = x.base := by
  have hhead : t.historyHead < t.qos.keepLast := by
    rw [h.ring.head_eq]
    exact Nat.mod_lt _ h.ring.depth_pos
  unfold unicastJoinSeqno
  split
  next => exact Or.inl rfl
  next => exact joinFrom_spec h _ _ _ _ _ hhead

variable {x : WriterSample}

/-- What the ring has room for is what it holds. -/
theorem cached_iff :
    Cached t S x ↔ x ∈ S.drop (S.length - t.qos.keepLast) := by
  unfold Cached
  constructor
  · rintro ⟨i, hwin, hi⟩
    refine List.mem_of_getElem? (i := i - (S.length - t.qos.keepLast)) ?_
    rw [List.getElem?_drop, Nat.add_sub_cancel' (by omega)]
    exact hi
  · intro hx
    obtain ⟨i, hi⟩ := List.mem_iff_getElem?.mp hx
    rw [List.getElem?_drop] at hi
    exact ⟨_, by omega, hi⟩

/-- The search finds a sample exactly when it is cached and has the seqno. -/
theorem sampleFind_iff (h : History frag t S) {q : Nat} :
    sampleFind t q = some x ↔ Cached t S x ∧ x.base ≤ q ∧ q < x.base + x.count := by
  refine ⟨sampleFind_some h, fun ⟨hc, hq⟩ => ?_⟩
  cases hf : sampleFind t q with
  | none => exact absurd hq (sampleFind_none h hf hc)
  | some y =>
    obtain ⟨hy, hq'⟩ := sampleFind_some h hf
    rw [h.inj hc.mem hy.mem hq hq']

/-- The newest sample ends where the seqno line stands, and the search finds it there. -/
theorem History.newest (h : History frag t S) (hx : S.getLast? = some x) :
    sampleFind t (t.nextSeqno - 1) = some x ∧ t.nextSeqno = x.base + x.count := by
  obtain ⟨a, htiles⟩ := h.tiles
  have hmem : x ∈ S := List.mem_of_getLast? hx
  have hend : t.nextSeqno = x.base + x.count := by
    refine tiles_last htiles (u := x.span) ?_
    rw [List.getLast?_map, hx]
    rfl
  have hpos := (h.samples x hmem).count_pos
  refine ⟨(sampleFind_iff h).mpr ⟨⟨S.length - 1, ?_, ?_⟩, by omega, by omega⟩, hend⟩
  · have := h.ring.depth_pos
    omega
  · rw [← List.getLast?_eq_getElem?]
    exact hx

/-- A logged sample is no newer than the newest. -/
theorem History.base_le_newest (h : History frag t S) {y : WriterSample}
    (hx : S.getLast? = some x) (hy : y ∈ S) : y.base ≤ x.base := by
  obtain ⟨a, htiles⟩ := h.tiles
  have hend := (h.newest hx).2
  have hstop := h.stop_le hy
  have hpos := (h.samples y hy).count_pos
  by_contra hlt
  have hsame : x = y := h.inj (List.mem_of_getLast? hx) hy (q := y.base) (by omega) (by omega)
  rw [hsame] at hlt
  exact hlt (Nat.le_refl _)

/-- Where history replays, a lane joins at the newest sample or before it. -/
theorem History.join_le_newest (h : History frag t S) (hr : t.reliable) (hc : 0 < t.qos.catchUp)
    (hx : S.getLast? = some x) : unicastJoinSeqno t ≤ x.base := by
  have hd := h.ring.depth_pos
  have hgo : ¬ (¬ t.reliable ∨ (t.qos.catchUp = 0 ∧ ¬ t.replaysFresh)) := by
    rintro (hn | ⟨hz, _⟩)
    · exact hn hr
    · omega
  have hlen : 0 < S.length := List.length_pos_of_mem (List.mem_of_getLast? hx)
  obtain ⟨n, hn⟩ : ∃ n, t.qos.keepLast = n + 1 := ⟨t.qos.keepLast - 1, by omega⟩
  have hhead : t.historyHead < t.qos.keepLast := by
    rw [h.ring.head_eq]
    exact Nat.mod_lt _ hd
  have hj := Ring.back_lt hd hhead
  -- the first turn of the walk takes the newest sample
  have hslot := Ring.rep_back h.ring (n := S.length - 1) (by omega) (by omega)
  rw [Nat.sub_add_cancel hlen, ← h.ring.head_eq] at hslot
  obtain ⟨hvalid, hcell⟩ := hslot
  have hx' : t.slotAt (Ring.back t.qos.keepLast t.historyHead) = x := by
    rw [List.getLast?_eq_getElem?, List.getElem?_eq_getElem (by omega)] at hx
    exact hcell.trans (Option.some.inj hx)
  rw [hx'] at hvalid
  obtain ⟨want, hwant⟩ : ∃ want, want = min t.qos.catchUp t.qos.keepLast := ⟨_, rfl⟩
  have hpos : ¬ want ≤ 0 := by omega
  have hfirst : joinFrom t want (n + 1) 0 t.historyHead t.nextSeqno =
      joinFrom t want n 1 (Ring.back t.qos.keepLast t.historyHead) x.base := by
    show (if !(t.slotAt (Ring.back t.qos.keepLast t.historyHead)).valid then _ else _) = _
    rw [hx', hvalid, if_neg Bool.noConfusion, if_neg fun hc' => hpos hc'.1]
  unfold unicastJoinSeqno
  rw [if_neg hgo, ← hwant]
  conv => lhs; arg 3; rw [hn]
  rw [hfirst]
  rcases joinFrom_spec h want n 1 _ x.base hj with heq | ⟨y, hy, heq⟩
  · exact Nat.le_of_eq heq
  · rw [heq]
    exact h.base_le_newest hx hy.mem

end Rant.Transport
