import Rant.Lib.Tiling
import Rant.Lib.Ring
import Rant.Transport.Writer
import Rant.Transport.ReaderInv
/-!
# The writer's history and what it emits

A topic's ring is the tail of a log of sealed samples (`History`): the ring
library gives the cells, and the samples' seqnos tile everything from the first
commit up to `next_seqno`. From that the search is exact (`sampleFind_spec`), a
send appends exactly the sample it committed (`writerSend_history`), and whatever
a reliable lane emits is a fragment, a descriptor or a heartbeat of the log
(`writerEmit_ok`), wherever `sent_upto` and the pending repair bits stand.
-/

namespace Rant.Transport

open Rant.Lib
open Rant.Lib.Fragment (writeAt fragment)

variable {frag : Nat} {t : Topic} {S : List WriterSample}

/-! ## The history -/

/-- The seqnos of a sample. -/
def WriterSample.span (s : WriterSample) : Span := ⟨s.base, s.count⟩

/-- The bytes of a sample: its buffer may be longer. -/
def WriterSample.bytes (s : WriterSample) : Bytes := s.sampleBuf.take s.len

/-- The log entry of a sealed sample. -/
def WriterSample.committed (s : WriterSample) : Committed where
  base := s.base
  count := s.count
  bytes := s.bytes
  desc := if s.shm then some s.desc else none

/-- A sealed sample has as many fragments as its bytes need. -/
structure SampleOk (frag : Nat) (s : WriterSample) : Prop where
  count_pos : 0 < s.count
  count_le : s.count ≤ 65535
  fits : s.len ≤ s.count * frag
  needs : (s.count - 1) * frag ≤ s.len
  room : s.len ≤ s.sampleBuf.length
  desc_len : s.shm = true → s.desc.length = shmDescBytes

/-- The topic's ring holds the last samples of the log `S`. -/
structure History (frag : Nat) (t : Topic) (S : List WriterSample) : Prop where
  ring : Ring.Rep t.qos.keepLast t.historyHead t.slotAt (fun s => s.valid = true) S
  size : t.history.length = t.qos.keepLast
  samples : ∀ s ∈ S, SampleOk frag s
  tiles : ∃ a, Tiles a (S.map WriterSample.span) t.nextSeqno
  first : ∀ h : 0 < S.length, t.firstSeqno =
    (S.get ⟨S.length - t.qos.keepLast, by have := ring.depth_pos; omega⟩).base
  haveFirst : t.haveFirst = true ↔ 0 < S.length

/-- `s` is one of the samples the ring still holds. -/
def Cached (t : Topic) (S : List WriterSample) (s : WriterSample) : Prop :=
  ∃ i, S.length ≤ i + t.qos.keepLast ∧ S[i]? = some s

variable {s : WriterSample}

theorem Cached.mem (h : Cached t S s) : s ∈ S := by
  obtain ⟨i, -, hi⟩ := h
  exact List.mem_of_getElem? hi

variable {t' : Topic}

/-- The history reads nothing else of the topic. -/
theorem History.congr (h : History frag t S) (hq : t'.qos = t.qos)
    (hh : t'.history = t.history) (hd : t'.historyHead = t.historyHead)
    (hn : t'.nextSeqno = t.nextSeqno) (hf : t'.firstSeqno = t.firstSeqno)
    (hv : t'.haveFirst = t.haveFirst) : History frag t' S := by
  have hslot : t'.slotAt = t.slotAt := by
    funext i
    unfold Topic.slotAt
    rw [hh]
  obtain ⟨h1, h2, h3, h4, h5, h6⟩ := h
  refine ⟨?_, ?_, h3, ?_, ?_, ?_⟩
  · rw [hq, hd, hslot]
    exact h1
  · rw [hh, hq]
    exact h2
  · rw [hn]
    exact h4
  · intro hpos
    rw [hf, h5 hpos]
    simp only [hq]
  · rw [hv]
    exact h6

/-- A cleared ring holds nothing. -/
theorem history_cleared (hd : 0 < t.qos.keepLast)
    (hh : t.history = List.replicate t.qos.keepLast .empty) (h0 : t.historyHead = 0)
    (hf : t.haveFirst = false) : History frag t [] := by
  have hempty : ∀ i, t.slotAt i = .empty := by
    intro i
    unfold Topic.slotAt
    rw [hh, List.getD_eq_getElem?_getD, List.getElem?_replicate]
    split <;> rfl
  refine ⟨?_, ?_, fun x hx => absurd hx List.not_mem_nil, ⟨_, rfl⟩, fun h => absurd h (by simp), ?_⟩
  · rw [h0]
    refine Ring.rep_nil hd fun i _ => ?_
    rw [hempty i]
    exact Bool.false_ne_true
  · rw [hh, List.length_replicate]
  · rw [hf]
    simp

/-! ## The search -/

/-- The search from the slot after item `n` on, with the rest of the ring to go,
finds the sample that holds `q` among the items before `n`, and nothing else. -/
theorem sampleFindFrom_spec (h : History frag t S) (q : Nat) : ∀ (k n : Nat),
    n ≤ S.length → S.length + k = n + t.qos.keepLast →
    (∀ s, sampleFindFrom t q k (n % t.qos.keepLast) = some s →
      Cached t S s ∧ s.base ≤ q ∧ q < s.base + s.count) ∧
    (sampleFindFrom t q k (n % t.qos.keepLast) = none →
      ∀ i s, i < n → S.length ≤ i + t.qos.keepLast → S[i]? = some s →
        ¬ (s.base ≤ q ∧ q < s.base + s.count))
  | 0, n, _, hk => by
    refine ⟨fun s hs => by unfold sampleFindFrom at hs; exact (by cases hs), ?_⟩
    intro _ i s hi hwin
    omega
  | k + 1, 0, _, hk => by
    -- the walk has come to the front of a ring that never filled
    have hnv := Ring.rep_back_zero h.ring (by omega)
    unfold sampleFindFrom
    rw [Nat.zero_mod]
    simp only [Bool.not_eq_true] at hnv
    simp only [hnv, Bool.not_false, if_true]
    exact ⟨fun s hs => (by cases hs), fun _ i s hi => absurd hi (Nat.not_lt_zero i)⟩
  | k + 1, m + 1, hm, hk => by
    obtain ⟨hv, hcell⟩ := Ring.rep_back h.ring (n := m) (by omega) (by omega)
    have hback := Ring.back_mod (n := m) h.ring.depth_pos
    have hcached : Cached t S S[m] := ⟨m, by omega, List.getElem?_eq_getElem _⟩
    unfold sampleFindFrom
    simp only [hv, Bool.not_true, Bool.false_eq_true, if_false]
    rw [hcell]
    by_cases hbase : S[m].base ≤ q
    · rw [if_pos hbase]
      by_cases hstop : q < S[m].base + S[m].count
      · rw [if_pos hstop]
        refine ⟨fun s hs => ?_, fun hn => (by cases hn)⟩
        rw [← Option.some.inj hs]
        exact ⟨hcached, hbase, hstop⟩
      · rw [if_neg hstop]
        refine ⟨fun s hs => (by cases hs), fun _ i s hi hwin hs => ?_⟩
        obtain ⟨hil, rfl⟩ := List.getElem?_eq_some_iff.mp hs
        -- every earlier sample ends before this one starts
        by_cases him : i = m
        · subst him
          exact fun hc => hstop hc.2
        obtain ⟨a, htiles⟩ := h.tiles
        have hle := tiles_getElem_le htiles hil (j := m) (by omega) (by omega)
        have hle' : S[i].base + S[i].count ≤ S[m].base := hle
        omega
    · rw [if_neg hbase, hback]
      have hrec := sampleFindFrom_spec h q k m (by omega) (by omega)
      refine ⟨hrec.1, fun hn i s hi hwin hs => ?_⟩
      by_cases him : i = m
      · subst him
        obtain ⟨hil, rfl⟩ := List.getElem?_eq_some_iff.mp hs
        exact fun hc => hbase hc.1
      · exact hrec.2 hn i s (by omega) hwin hs

variable {q : Nat}

/-- `i_rant_sample_find` finds the cached sample that holds the seqno. -/
theorem sampleFind_some (h : History frag t S)
    (hs : sampleFind t q = some s) : Cached t S s ∧ s.base ≤ q ∧ q < s.base + s.count := by
  unfold sampleFind at hs
  rw [h.ring.head_eq] at hs
  exact (sampleFindFrom_spec h q _ _ (Nat.le_refl _) rfl).1 s hs

/-- It finds nothing only when no cached sample holds the seqno. -/
theorem sampleFind_none (h : History frag t S) (hn : sampleFind t q = none)
    (hs : Cached t S s) : ¬ (s.base ≤ q ∧ q < s.base + s.count) := by
  unfold sampleFind at hn
  rw [h.ring.head_eq] at hn
  obtain ⟨i, hwin, hi⟩ := hs
  have hlt : i < S.length := (List.getElem?_eq_some_iff.mp hi).1
  exact (sampleFindFrom_spec h q _ _ (Nat.le_refl _) rfl).2 hn i s hlt hwin hi

/-! ## The log -/

/-- Two logged samples that share a seqno are one. -/
theorem History.inj (h : History frag t S) {s' : WriterSample} (hs : s ∈ S)
    (hs' : s' ∈ S) (hq : s.base ≤ q ∧ q < s.base + s.count)
    (hq' : s'.base ≤ q ∧ q < s'.base + s'.count) : s = s' := by
  obtain ⟨a, htiles⟩ := h.tiles
  exact tiles_inj htiles hs hs' hq hq'

/-- A logged sample ends at or before `next_seqno`. -/
theorem History.stop_le (h : History frag t S) (hs : s ∈ S) :
    s.base + s.count ≤ t.nextSeqno := by
  obtain ⟨a, htiles⟩ := h.tiles
  exact (tiles_mem htiles (List.mem_map_of_mem hs)).2.2

/-- The log a history stands for. -/
def logOf (S : List WriterSample) : List Committed := S.map WriterSample.committed

theorem mem_logOf (hs : s ∈ S) : s.committed ∈ logOf S :=
  List.mem_map_of_mem hs

theorem SampleOk.length_bytes (h : SampleOk frag s) :
    s.bytes.length = s.len := by
  unfold WriterSample.bytes
  rw [List.length_take]
  exact Nat.min_eq_left h.room

/-- A history's log is well formed. -/
theorem History.logOk (h : History frag t S) : LogOk frag (logOf S) := by
  refine ⟨?_, ?_, ?_, ?_⟩
  · intro c hc
    obtain ⟨s, hs, rfl⟩ := List.mem_map.mp hc
    exact (h.samples s hs).count_pos
  · intro c hc
    obtain ⟨s, hs, rfl⟩ := List.mem_map.mp hc
    show s.bytes.length ≤ s.count * frag
    rw [(h.samples s hs).length_bytes]
    exact (h.samples s hs).fits
  · intro c hc d hd
    obtain ⟨s, hs, rfl⟩ := List.mem_map.mp hc
    have hdesc : (if s.shm = true then some s.desc else none) = some d := hd
    split at hdesc
    next hshm =>
      rw [← Option.some.inj hdesc]
      exact (h.samples s hs).desc_len hshm
    next => exact absurd hdesc (by simp)
  · intro c hc d hd heq
    obtain ⟨s, hs, rfl⟩ := List.mem_map.mp hc
    obtain ⟨s', hs', rfl⟩ := List.mem_map.mp hd
    have hb : s.base = s'.base := heq
    have hp := (h.samples s hs).count_pos
    have hp' := (h.samples s' hs').count_pos
    rw [h.inj hs hs' (q := s.base) (by omega) (by omega)]

/-! ## Sending -/

/-- The fragment count is the ceiling of the size, at least one and at most 65535. -/
theorem fragCount_spec {len : Nat} (hF : 0 < frag) (hlen : len ≤ 65535 * frag) :
    0 < fragCount frag len ∧ fragCount frag len ≤ 65535 ∧ len ≤ fragCount frag len * frag ∧
      (fragCount frag len - 1) * frag ≤ len := by
  obtain ⟨n, hn⟩ : ∃ n, n = (len + frag - 1) / frag := ⟨_, rfl⟩
  have hlow : n * frag ≤ len + frag - 1 := by
    rw [hn]
    exact Nat.div_mul_le_self _ _
  have hhigh : len + frag - 1 < (n + 1) * frag := by
    rw [hn]
    exact Nat.lt_mul_of_div_lt (Nat.lt_succ_self _) hF
  have hcap : n < 65536 := by
    rw [hn]
    exact (Nat.div_lt_iff_lt_mul hF).mpr (by omega)
  rw [Nat.add_mul, Nat.one_mul] at hhigh
  unfold fragCount
  rw [← hn, Nat.mod_eq_of_lt hcap]
  by_cases h0 : n = 0
  · subst h0
    rw [Nat.zero_mul] at hhigh
    simp only [if_true]
    omega
  · simp only [h0, if_false]
    refine ⟨by omega, by omega, by omega, ?_⟩
    have hsub : (n - 1) * frag + frag = n * frag := by
      rw [← Nat.succ_mul]
      congr 1
      omega
    omega

/-- The sample a seal makes of the head slot. -/
def sealed (frag : Nat) (t : Topic) (slot : WriterSample) (len : Nat) (dest : Dest) :
    WriterSample :=
  { slot with
    valid := true, base := t.nextSeqno, count := fragCount frag len, len := len, dest := dest }

/-- Filling the head slot and sealing it appends the sealed sample to the log. -/
theorem writerSeal_history {slot : WriterSample} {len : Nat} (dest : Dest)
    (h : History frag t S) (hF : 0 < frag) (hF' : frag ≤ 65535) (hlen : len ≤ 65535 * frag)
    (hroom : len ≤ slot.sampleBuf.length)
    (hdesc : slot.shm = true → slot.desc.length = shmDescBytes) :
    History frag (writerSeal frag { t with history := t.history.set t.historyHead slot } len dest)
      (S ++ [sealed frag t slot len dest]) := by
  obtain ⟨hc0, hc1, hc2, hc3⟩ := fragCount_spec hF hlen
  have hpos := h.ring.depth_pos
  have hhead : t.historyHead < t.history.length := by
    rw [h.size, h.ring.head_eq]
    exact Nat.mod_lt _ hpos
  have hlen32 : len % 2 ^ 32 = len := by
    have : 65535 * frag ≤ 65535 * 65535 := Nat.mul_le_mul_left _ hF'
    omega
  obtain ⟨x, hx⟩ : ∃ x, x = sealed frag t slot len dest := ⟨_, rfl⟩
  obtain ⟨t', ht'⟩ : ∃ t', t' = writerSeal frag
    { t with history := t.history.set t.historyHead slot } len dest := ⟨_, rfl⟩
  -- the sealed sample takes the head slot
  have hhist : t'.history = t.history.set t.historyHead x := by
    rw [ht', hx]
    show (t.history.set t.historyHead slot).set t.historyHead _ = _
    rw [List.set_set]
    congr 1
    unfold Topic.slotAt
    rw [List.getD_eq_getElem?_getD, List.getElem?_set_self hhead]
    show ({ slot with valid := true, base := t.nextSeqno, count := fragCount frag len
                      len := len % 2 ^ 32, dest := dest } : WriterSample) = _
    rw [hlen32]
    rfl
  have hslot : ∀ i, i ≠ t.historyHead → t'.slotAt i = t.slotAt i := by
    intro i hi
    unfold Topic.slotAt
    rw [hhist, List.getD_eq_getElem?_getD, List.getElem?_set_ne (Ne.symm hi),
      ← List.getD_eq_getElem?_getD]
  have hslotHead : t'.slotAt t.historyHead = x := by
    unfold Topic.slotAt
    rw [hhist, List.getD_eq_getElem?_getD, List.getElem?_set_self hhead]
    rfl
  have hqos : t'.qos = t.qos := by rw [ht']; rfl
  have hnext : t'.nextSeqno = t.nextSeqno + x.count := by rw [ht', hx]; rfl
  -- so the ring holds one more, and its oldest goes when it is full
  have hring : Ring.Rep t'.qos.keepLast t'.historyHead t'.slotAt (fun s => s.valid = true)
      (S ++ [x]) := by
    rw [hqos, show t'.historyHead = (t.historyHead + 1) % t.qos.keepLast from by rw [ht']; rfl]
    exact Ring.rep_push h.ring (by rw [hx]; rfl) hslotHead hslot
  rw [← hx, ← ht']
  refine ⟨hring, ?_, ?_, ?_, ?_, ?_⟩
  · rw [hhist, List.length_set, hqos]
    exact h.size
  · intro s hs
    rcases List.mem_append.mp hs with hs | hs
    · exact h.samples s hs
    · rw [List.mem_singleton.mp hs, hx]
      exact ⟨hc0, hc1, hc2, hc3, hroom, hdesc⟩
  · obtain ⟨a, htiles⟩ := h.tiles
    refine ⟨a, ?_⟩
    rw [List.map_append, hnext]
    have hbase : x.span.base = t.nextSeqno := by rw [hx]; rfl
    have hcount : 0 < x.span.count := by rw [hx]; exact hc0
    have := tiles_snoc htiles hbase hcount
    unfold Span.stop at this
    rw [hbase] at this
    exact this
  · intro _
    have hoft : t'.firstSeqno = (if (t'.slotAt t'.historyHead).valid then t'.slotAt t'.historyHead
        else t'.slotAt 0).base := by rw [ht']; rfl
    rw [hoft]
    have hlt : t'.historyHead < t'.qos.keepLast := by
      rw [hring.head_eq]
      exact Nat.mod_lt _ hring.depth_pos
    have hvalid := hring.valid_iff _ hlt
    by_cases hfull : t'.qos.keepLast ≤ (S ++ [x]).length
    · -- wrapped: the head points at the oldest
      rw [if_pos (hvalid.mpr (by omega)), Ring.rep_oldest hring hfull]
    have hh : t'.historyHead = (S ++ [x]).length := by
      rw [hring.head_eq]
      exact Nat.mod_eq_of_lt (by omega)
    rw [if_neg (fun hv => by have := hvalid.mp hv; omega)]
    have h0 := hring.cell_eq 0 (by simp) (by omega)
    rw [Nat.zero_mod] at h0
    rw [h0, List.get_eq_getElem]
    congr 2
    show 0 = (S ++ [x]).length - t'.qos.keepLast
    omega
  · rw [show t'.haveFirst = true from by rw [ht']; rfl]
    simp

/-- A committed send filled the head slot and sealed it. -/
theorem writerSend_committed {hdr data : Bytes} {captureUs sourceUs : Nat}
    {al : Alloc} {dest : Dest}
    (h : writerSend frag t hdr data captureUs sourceUs al dest = .committed t') :
    ¬ writerTooBig frag (gather t hdr data captureUs sourceUs).length ∧
      t' = writerSeal frag
        { t with history := t.history.set t.historyHead
                   (storeSlot al (t.slotAt t.historyHead) (gather t hdr data captureUs sourceUs)) }
        (gather t hdr data captureUs sourceUs).length dest := by
  unfold writerSend at h
  split at h
  next => cases h
  split at h
  next => cases h
  split at h
  next => cases h
  split at h
  next => cases h
  next t₁ len hstore =>
    unfold writerStore at hstore
    dsimp only at hstore
    split at hstore
    next => cases hstore
    next hbig =>
      split at hstore
      next => cases hstore
      obtain ⟨ht, hlen⟩ := Prod.mk.inj (Except.ok.inj hstore)
      exact ⟨hbig, by rw [← Send.committed.inj h, ← ht, hlen]⟩

theorem writerSendShm_committed {chunk desc : Bytes}
    (h : writerSendShm frag t chunk desc = .committed t') :
    ¬ writerTooBig frag chunk.length ∧
      t' = writerSeal frag
        { t with history := t.history.set t.historyHead
                   { t.slotAt t.historyHead with shm := true, shmBuf := chunk, desc := desc } }
        chunk.length .all := by
  unfold writerSendShm at h
  split at h
  next => cases h
  next hbig =>
    split at h
    next => cases h
    exact ⟨hbig, (Send.committed.inj h).symm⟩

/-- What a committed send did: the topic is the sealed one, and its new sample carries
the gathered bytes at the seqno that was next. -/
theorem writerSend_history {hdr data : Bytes} {captureUs sourceUs : Nat} {al : Alloc} {dest : Dest}
    (h : History frag t S) (hF : 0 < frag) (hF' : frag ≤ 65535)
    (hs : writerSend frag t hdr data captureUs sourceUs al dest = .committed t') :
    ∃ s, History frag t' (S ++ [s]) ∧ s.dest = dest ∧ t'.qos = t.qos ∧
      t'.directed = t.directed ∧
      s.committed = { base := t.nextSeqno
                      count := fragCount frag (gather t hdr data captureUs sourceUs).length
                      bytes := gather t hdr data captureUs sourceUs, desc := none } := by
  obtain ⟨hbig, ht'⟩ := writerSend_committed hs
  obtain ⟨wire, hwire⟩ : ∃ wire, wire = gather t hdr data captureUs sourceUs := ⟨_, rfl⟩
  obtain ⟨slot, hslot⟩ : ∃ slot, slot = storeSlot al (t.slotAt t.historyHead) wire := ⟨_, rfl⟩
  rw [← hwire] at hbig ht' ⊢
  rw [← hslot] at ht'
  have hshm : slot.shm = false := by rw [hslot]; rfl
  have hbuf : slot.sampleBuf = slot.buf := by
    unfold WriterSample.sampleBuf
    rw [hshm]
    rfl
  have htake : slot.buf.take wire.length = wire := by
    rw [hslot]
    exact Fragment.take_writeAt_zero
  have hroom : wire.length ≤ slot.sampleBuf.length := by
    have := congrArg List.length htake
    rw [List.length_take] at this
    rw [hbuf]
    omega
  have hres := writerSeal_history dest h hF hF' (Nat.le_of_not_lt hbig) hroom
    (fun hc => Bool.noConfusion (hshm.symm.trans hc))
  refine ⟨_, by rw [ht']; exact hres, rfl, by rw [ht']; rfl, by rw [ht']; rfl, ?_⟩
  show ({ base := t.nextSeqno, count := fragCount frag wire.length
          bytes := slot.sampleBuf.take wire.length
          desc := if slot.shm then some slot.desc else none } : Committed) = _
  rw [hbuf, htake, hshm]
  rfl

/-- What a committed shared memory send did: the chunk is the sample. -/
theorem writerSendShm_history {chunk desc : Bytes} (h : History frag t S)
    (hF : 0 < frag) (hF' : frag ≤ 65535) (hdesc : desc.length = shmDescBytes)
    (hs : writerSendShm frag t chunk desc = .committed t') :
    ∃ s, History frag t' (S ++ [s]) ∧ s.dest = .all ∧ t'.qos = t.qos ∧
      t'.directed = t.directed ∧
      s.committed = { base := t.nextSeqno, count := fragCount frag chunk.length
                      bytes := chunk, desc := some desc } := by
  obtain ⟨hbig, ht'⟩ := writerSendShm_committed hs
  have hres := writerSeal_history .all h hF hF' (Nat.le_of_not_lt hbig)
    (show chunk.length ≤ { t.slotAt t.historyHead with
      shm := true, shmBuf := chunk, desc := desc }.sampleBuf.length from Nat.le_refl _)
    (fun _ => hdesc)
  refine ⟨_, by rw [ht']; exact hres, rfl, by rw [ht']; rfl, by rw [ht']; rfl, ?_⟩
  show ({ base := t.nextSeqno, count := fragCount frag chunk.length
          bytes := chunk.take chunk.length, desc := some desc } : Committed) = _
  rw [List.take_length]

/-- A seal keeps the ring's size. -/
theorem writerSeal_length (frag : Nat) (t : Topic) (len : Nat) (dest : Dest) :
    (writerSeal frag t len dest).history.length = t.history.length := by
  unfold writerSeal
  dsimp only
  exact List.length_set

/-! ## Emitting -/

/-- A submessage a writer lane may send about the log: a fragment of a logged sample, its
descriptor, or a heartbeat. -/
def SubmsgOk (frag : Nat) (L : List Committed) : Submsg → Prop
  | .data m => DataOk frag L m
  | .shm m => ShmOk L m
  | .hb _ => True

/-- What was about the log is about a longer one. -/
theorem SubmsgOk.mono {L L' : List Committed} {m : Submsg} (h : SubmsgOk frag L m)
    (hsub : ∀ c ∈ L, c ∈ L') : SubmsgOk frag L' m := by
  cases m with
  | data m =>
    obtain ⟨c, hc, hrest⟩ := h.sample
    exact ⟨c, hsub c hc, hrest⟩
  | shm m =>
    obtain ⟨c, hc, hrest⟩ := h.sample
    exact ⟨c, hsub c hc, hrest⟩
  | hb m => trivial

/-- The payload cut from a sample's buffer is the fragment of its bytes. -/
theorem payloadOf_eq (hF' : frag ≤ 65535) (i : Nat) :
    payloadOf frag s i = fragment frag s.bytes i := by
  have hlen : payloadLen frag s i = min frag (s.len - i * frag) := by
    unfold payloadLen
    split
    next h => rw [Nat.mod_eq_of_lt (by omega), Nat.min_eq_right (Nat.le_of_lt h)]
    next h => rw [Nat.mod_eq_of_lt (by omega), Nat.min_eq_left (Nat.le_of_not_lt h)]
  unfold payloadOf fragment WriterSample.bytes
  rw [hlen, List.drop_take, List.take_take]

/-- A DATA built for a seqno of a logged sample is that sample's fragment. -/
theorem mkData_ok {ask : Bool} (h : History frag t S)
    (hF' : frag ≤ 65535) (hs : s ∈ S) (hq : s.base ≤ q ∧ q < s.base + s.count) :
    SubmsgOk frag (logOf S)
      (mkData s q ((q - s.base) % 65536) (payloadOf frag s ((q - s.base) % 65536)) ask) := by
  have hok := h.samples s hs
  have hidx : (q - s.base) % 65536 = q - s.base := by
    have := hok.count_le
    exact Nat.mod_eq_of_lt (by omega)
  have hoff : (q - s.base) * frag ≤ s.bytes.length := by
    rw [hok.length_bytes]
    exact Nat.le_trans (Nat.mul_le_mul_right frag (by omega)) hok.needs
  rw [hidx, payloadOf_eq hF']
  unfold mkData
  split
  next h1 =>
    -- a single fragment carries the whole sample
    have hq0 : q - s.base = 0 := by omega
    have hall : fragment frag s.bytes 0 = s.bytes := by
      have hf := hok.fits
      rw [h1, Nat.one_mul] at hf
      unfold fragment
      rw [Nat.zero_mul, List.drop_zero]
      exact List.take_of_length_le (by rw [hok.length_bytes]; exact hf)
    rw [hq0, hall]
    refine ⟨s.committed, mem_logOf hs, ?_, ?_, h1.symm, rfl, by simp, hall.symm⟩
    · show q = s.base + 0
      omega
    · exact hok.count_pos
  next =>
    refine ⟨s.committed, mem_logOf hs, ?_, ?_, rfl, hok.length_bytes.symm, hoff, rfl⟩
    · show q = s.base + (q - s.base)
      omega
    · show q - s.base < s.count
      omega

/-- An SHM-DATA built for a logged chunk names it. -/
theorem mkShm_ok {ask : Bool} (hs : s ∈ S) (hshm : s.shm = true) :
    SubmsgOk frag (logOf S)
      (.shm { base := s.base, count := s.count, desc := s.desc, ackReq := ask }) := by
  refine ⟨s.committed, mem_logOf hs, rfl, rfl, ?_⟩
  show (if s.shm = true then some s.desc else none) = some s.desc
  exact if_pos hshm

/-- What a lane sent, if anything, is about the log. -/
def SentOk (frag : Nat) (S : List WriterSample) (out : Option Submsg) : Prop :=
  ∀ m, out = some m → SubmsgOk frag (logOf S) m

theorem sentOk_none : SentOk frag S none := fun _ h => by cases h

theorem writerHb_sentOk (frag : Nat) (S : List WriterSample) (t : Topic) (x : WriterSide) (cap now : Nat) :
    SentOk frag S (writerHb t x cap now).2 := by
  unfold writerHb
  split
  next => exact sentOk_none
  intro m hm
  rw [← Option.some.inj hm]
  trivial

theorem superseded_sentOk (t : Topic) (e : EmitEnv) (x : WriterSide) :
    SentOk frag S (superseded t e x).2 := by
  unfold superseded
  split
  next => exact sentOk_none
  next => exact writerHb_sentOk _ _ t _ _ _

variable {e : EmitEnv} {x : WriterSide}

theorem resend_sentOk {i : Nat}
    (h : History frag t S) (hF' : frag ≤ 65535) (he : e.frag = frag) (hs : s ∈ S)
    (hq : s.base ≤ x.w.nackBase + i ∧ x.w.nackBase + i < s.base + s.count) :
    SentOk frag S (resend e s i x).2 := by
  unfold resend
  split
  next hshm =>
    split
    next => exact sentOk_none
    intro m hm
    rw [← Option.some.inj hm]
    exact mkShm_ok hs hshm.2
  next =>
    dsimp only
    split
    next => exact sentOk_none
    intro m hm
    rw [← Option.some.inj hm, he]
    exact mkData_ok h hF' hs hq

/-- Whatever bits are pending, the repair loop sends nothing but the log. -/
theorem repairFrom_sentOk (h : History frag t S) (hF' : frag ≤ 65535)
    (he : e.frag = frag) : ∀ (n : Nat) (x : WriterSide) (r : Option Submsg),
      (repairFrom t e n x).2 = some r → SentOk frag S r
  | 0, x, r, hr => by cases hr
  | n + 1, x, r, hr => by
    unfold repairFrom at hr
    dsimp only at hr
    split at hr
    next =>
      split at hr
      next => exact repairFrom_sentOk h hF' he n _ r hr
      split at hr
      next =>
        rw [← Option.some.inj hr]
        exact superseded_sentOk t e x
      next s hfound =>
        obtain ⟨hcached, hq⟩ := sampleFind_some h hfound
        split at hr
        next => exact repairFrom_sentOk h hF' he n _ r hr
        next =>
          rw [← Option.some.inj hr]
          exact resend_sentOk h hF' he hcached.mem hq
    next => exact repairFrom_sentOk h hF' he n x r hr

/-- A push on the topic's own seqno line sends the fragment it found. -/
theorem push_sentOk
    (h : History frag t S) (hF' : frag ≤ 65535) (he : e.frag = frag) (hs : s ∈ S)
    (hq : s.base ≤ q ∧ q < s.base + s.count) :
    SentOk frag S (push t e false false s q x).2 := by
  unfold push
  dsimp only
  split
  next hshm =>
    split
    next => exact sentOk_none
    intro m hm
    rw [← Option.some.inj hm]
    exact mkShm_ok hs hshm.2
  next =>
    split
    next => exact sentOk_none
    intro m hm
    rw [← Option.some.inj hm, he]
    exact mkData_ok h hF' hs hq

/-- A lane on the topic's own seqno line does not pace: stage 2 pushes what the search
finds at `sent_upto`, or skips the reader past an evicted region. -/
theorem emitPush_global
    (hline : x.w.readerReliable = true ∨ t.directed = true) :
    emitPush t e x = match sampleFind t x.w.sentUpto with
      | some s => push t e false false s x.w.sentUpto x
      | none => pushEvicted t e false x := by
  have hper : ¬ (x.w.readerReliable = false ∧ t.directed = false) := by
    rintro ⟨h1, h2⟩
    rcases hline with h | h
    · exact Bool.noConfusion (h1.symm.trans h)
    · exact Bool.noConfusion (h2.symm.trans h)
  unfold emitPush
  simp only [hper, decide_false, Bool.false_eq_true, false_and, if_false]
  cases sampleFind t x.w.sentUpto with
  | none => rfl
  | some s => rfl

theorem emitNew_sentOk (h : History frag t S)
    (hF' : frag ≤ 65535) (he : e.frag = frag)
    (hline : x.w.readerReliable = true ∨ t.directed = true) :
    SentOk frag S (emitNew t e x).2 := by
  unfold emitNew
  split
  next =>
    rw [emitPush_global hline]
    split
    next s hfound =>
      obtain ⟨hcached, hq⟩ := sampleFind_some h hfound
      exact push_sentOk h hF' he hcached.mem hq
    unfold pushEvicted
    simp only [Bool.false_eq_true, if_false]
    split
    next => exact sentOk_none
    next => exact writerHb_sentOk _ _ t _ _ _
  next =>
    split
    next => exact writerHb_sentOk _ _ t x _ _
    next => exact sentOk_none

theorem emitFloor_sentOk (h : History frag t S)
    (hF' : frag ≤ 65535) (he : e.frag = frag)
    (hline : x.w.readerReliable = true ∨ t.directed = true) :
    SentOk frag S (emitFloor t e x).2 := by
  unfold emitFloor
  split
  next =>
    have hhb := writerHb_sentOk frag S t x e.cap e.now
    split
    next heq => exact sentOk_none
    next x' hb heq =>
      rw [heq] at hhb
      exact hhb
  next => exact emitNew_sentOk h hF' he hline

/-! ## What a lane never changes -/

/-- The fields set at the match and by nothing on the emit and ACKNACK paths: whether the
lane is used, and whether its reader is reliable. -/
def WriterProxy.matched (w : WriterProxy) : Bool × Bool := (w.used, w.readerReliable)

/-- The fields a lane's own progress leaves alone: `matched`, and the pending repair request,
which only the repair and ACKNACK paths touch. -/
def WriterProxy.standing (w : WriterProxy) : (Bool × Bool) × Bool × Nat × BitVec 32 :=
  (w.matched, w.hasNack, w.nackBase, w.nackBits)

theorem standing_matched {w w' : WriterProxy} (h : w'.standing = w.standing) :
    w'.matched = w.matched :=
  congrArg Prod.fst h

@[simp] theorem advanceAcked_standing (t : Topic) (p : Nat) : ∀ (n : Nat) (w : WriterProxy),
    (advanceAcked t p n w).standing = w.standing
  | 0, _ => rfl
  | n + 1, w => by
    unfold advanceAcked
    split
    next => rfl
    split
    next => rfl
    next => rw [advanceAcked_standing t p n]; rfl

@[simp] theorem advanceSent_standing (t : Topic) (p : Nat) : ∀ (n : Nat) (w : WriterProxy),
    (advanceSent t p n w).standing = w.standing
  | 0, _ => rfl
  | n + 1, w => by
    unfold advanceSent
    split
    next =>
      split
      next => rfl
      split
      next => rw [advanceSent_standing t p n]; rfl
      next => rfl
    next => rfl

@[simp] theorem laneAdvance_standing (t : Topic) (p : Nat) (w : WriterProxy) :
    (laneAdvance t p w).standing = w.standing := by
  unfold laneAdvance
  split
  next => rfl
  dsimp only
  rw [advanceSent_standing]
  split
  next => exact advanceAcked_standing t p _ w
  next => exact advanceAcked_standing t p _ w

@[simp] theorem writerHb_standing (t : Topic) (x : WriterSide) (cap now : Nat) :
    (writerHb t x cap now).1.w.standing = x.w.standing := by
  unfold writerHb
  split <;> rfl

@[simp] theorem writerAsk_standing (t : Topic) (w : WriterProxy) (now : Nat) :
    (writerAsk t w now).1.standing = w.standing := by
  have hprobe : (askProbe w now).1.standing = w.standing := by
    unfold askProbe
    split <;> rfl
  unfold writerAsk
  dsimp only
  split
  next => exact hprobe
  next => exact hprobe

@[simp] theorem pushed_standing (t : Topic) (last : Bool) (now : Nat) (x : WriterSide) :
    (pushed t last now x).1.w.standing = x.w.standing := by
  have hask : (if last = true then writerAsk t x.w now else (x.w, false)).1.standing
      = x.w.standing := by
    split
    next => exact writerAsk_standing t x.w now
    next => rfl
  unfold pushed
  split
  next =>
    obtain ⟨asked, hasked⟩ : ∃ asked, asked = if last = true then writerAsk t x.w now
      else (x.w, false) := ⟨_, rfl⟩
    rw [← hasked] at hask
    dsimp only
    rw [← hasked]
    split
    next => exact hask
    next => exact hask
  next => rfl

@[simp] theorem push_standing (t : Topic) (e : EmitEnv) (perLane tick : Bool) (s : WriterSample)
    (q : Nat) (x : WriterSide) : (push t e perLane tick s q x).1.w.standing = x.w.standing := by
  have htick : (if tick then writerTick x q e.now else x).w.standing = x.w.standing := by
    split <;> rfl
  unfold push
  dsimp only
  split
  next =>
    split
    next => rfl
    next => exact (pushed_standing _ _ _ _).trans htick
  next =>
    split
    next => rfl
    next => exact (pushed_standing _ _ _ _).trans htick

@[simp] theorem pushEvicted_standing (t : Topic) (e : EmitEnv) (perLane : Bool) (x : WriterSide) :
    (pushEvicted t e perLane x).1.w.standing = x.w.standing := by
  unfold pushEvicted
  dsimp only
  split
  next => rfl
  split
  next => rfl
  next => exact writerHb_standing t _ _ _

@[simp] theorem emitPush_standing (t : Topic) (e : EmitEnv) (x : WriterSide) :
    (emitPush t e x).1.w.standing = x.w.standing := by
  unfold emitPush
  dsimp only
  split
  next => rfl
  split
  next =>
    split
    next => exact push_standing t e _ _ _ _ x
    split
    next => exact push_standing t e _ _ _ _ x
    next => exact pushEvicted_standing t e _ x
  next => exact push_standing t e _ _ _ _ x
  next => exact pushEvicted_standing t e _ x

@[simp] theorem emitNew_standing (t : Topic) (e : EmitEnv) (x : WriterSide) :
    (emitNew t e x).1.w.standing = x.w.standing := by
  unfold emitNew
  split
  next => exact emitPush_standing t e x
  split
  next => exact writerHb_standing t x _ _
  next => rfl

@[simp] theorem emitFloor_standing (t : Topic) (e : EmitEnv) (x : WriterSide) :
    (emitFloor t e x).1.w.standing = x.w.standing := by
  unfold emitFloor
  split
  next =>
    have hhb := writerHb_standing t x e.cap e.now
    split
    next heq =>
      rw [heq] at hhb
      exact hhb
    next heq =>
      rw [heq] at hhb
      exact hhb
  next => exact emitNew_standing t e x

@[simp] theorem laneAdvance_matched (t : Topic) (p : Nat) (w : WriterProxy) :
    (laneAdvance t p w).matched = w.matched :=
  standing_matched (laneAdvance_standing t p w)

@[simp] theorem writerHb_matched (t : Topic) (x : WriterSide) (cap now : Nat) :
    (writerHb t x cap now).1.w.matched = x.w.matched :=
  standing_matched (writerHb_standing t x cap now)

@[simp] theorem repairFrom_matched (t : Topic) (e : EmitEnv) : ∀ (n : Nat) (x : WriterSide),
    (repairFrom t e n x).1.w.matched = x.w.matched
  | 0, _ => rfl
  | n + 1, x => by
    unfold repairFrom
    dsimp only
    split
    next =>
      split
      next => rw [repairFrom_matched t e n]; rfl
      split
      next =>
        unfold superseded
        split
        next => rfl
        next => exact writerHb_matched t _ _ _
      next =>
        split
        next =>
          rw [repairFrom_matched t e n]
          exact laneAdvance_matched t e.p _
        unfold resend
        dsimp only
        split <;> split <;> rfl
    next => exact repairFrom_matched t e n x

@[simp] theorem writerEmit_matched (t : Topic) (e : EmitEnv) (dormant : Bool) (x : WriterSide) :
    (writerEmit t e dormant x).1.w.matched = x.w.matched := by
  unfold writerEmit
  split
  next => rfl
  dsimp only
  split
  next =>
    have hrep := repairFrom_matched t e nackWindow { x with w := laneAdvance t e.p x.w }
    split
    next heq =>
      rw [heq] at hrep
      exact hrep.trans (laneAdvance_matched t e.p x.w)
    next x' heq =>
      rw [heq] at hrep
      exact (standing_matched (emitFloor_standing t e _)).trans (hrep.trans (laneAdvance_matched t e.p x.w))
  next => exact (standing_matched (emitFloor_standing t e _)).trans (laneAdvance_matched t e.p x.w)

@[simp] theorem writerNack_matched (t : Topic) (p : Nat) (x : WriterSide) (m : NackMsg)
    (now : Nat) : (writerNack t p x m now).w.matched = x.w.matched := by
  have hack : ∀ y : WriterSide, (nackAck t p y m now).w.matched = y.w.matched := by
    intro y
    have hadv := laneAdvance_matched t p (ackTo y.w m)
    unfold nackAck
    dsimp only
    by_cases hskip : (laneAdvance t p (ackTo y.w m)).skipHb = true
    · rw [if_pos hskip]
      exact hadv
    · rw [if_neg hskip]
      exact hadv
  have hmerge : ∀ y : WriterSide, (nackMerge y m).w.matched = y.w.matched := by
    intro y
    have hdrop : (nackDrop y.w m.base).matched = y.w.matched := by
      unfold nackDrop
      split <;> rfl
    have hadd : (nackAdd (nackDrop y.w m.base) m).matched = (nackDrop y.w m.base).matched := by
      unfold nackAdd
      split <;> rfl
    unfold nackMerge
    dsimp only
    split
    next => exact hadd.trans hdrop
    next => exact hdrop
  unfold writerNack
  split
  next => rfl
  split
  next => rfl
  dsimp only
  split
  next => split <;> rfl
  next => rw [hmerge, hack]; rfl

theorem matched_used {w w' : WriterProxy} (h : w'.matched = w.matched) : w'.used = w.used :=
  congrArg Prod.fst h

theorem matched_readerReliable {w w' : WriterProxy} (h : w'.matched = w.matched) :
    w'.readerReliable = w.readerReliable :=
  congrArg Prod.snd h

/-- Whatever a lane on the topic's own seqno line emits is about the log, wherever its
cursors and pending repair bits stand. -/
theorem writerEmit_sentOk (e : EmitEnv) (dormant : Bool) (x : WriterSide)
    (h : History frag t S) (hF' : frag ≤ 65535) (he : e.frag = frag)
    (hline : x.w.used = true → x.w.readerReliable = true ∨ t.directed = true) :
    SentOk frag S (writerEmit t e dormant x).2 := by
  unfold writerEmit
  split
  next => exact sentOk_none
  next hu =>
    have hline := hline (by
      rw [← Bool.not_eq_false]
      exact fun hc => hu (Or.inl hc))
    dsimp only
    have hadv := laneAdvance_matched t e.p x.w
    split
    next =>
      have hrep := repairFrom_matched t e nackWindow { x with w := laneAdvance t e.p x.w }
      split
      next x' r heq =>
        exact repairFrom_sentOk h hF' he nackWindow _ r (by rw [heq])
      next x' heq =>
        rw [heq] at hrep
        refine emitFloor_sentOk h hF' he ?_
        show x'.w.readerReliable = true ∨ _
        rw [matched_readerReliable hrep, matched_readerReliable hadv]
        exact hline
    next =>
      refine emitFloor_sentOk h hF' he ?_
      show (laneAdvance t e.p x.w).readerReliable = true ∨ _
      rw [matched_readerReliable hadv]
      exact hline

end Rant.Transport
