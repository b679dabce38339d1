import Rant.Lib.Run
import Rant.Transport.History
import Rant.Transport.Topics
/-!
# The topic table over its life

A slot of the topic table is defined, sends, is retired, comes back under the same or another
definition, and moves to a bigger table when the node grows. Through all of it the slot's ring
is the tail of a log: what was committed to it since it was last defined. `Table` carries that
log as a ghost, one list a slot, written from what a send was given and never from the ring.

`history_refines` is the refinement: the search answers exactly as a search of the last
`keep_last` entries of the log would, and the positions the topic computes for itself (the
floor, the head, where a lane joins) are positions of the log.
-/

namespace Rant.Transport

open Rant.Lib

/-! ## The log -/

/-- One committed sample: what it carries, and who it is for. -/
structure Entry where
  what : Committed
  dest : Dest

/-- Whether the entry has the seqno. -/
def Entry.covers (e : Entry) (q : Nat) : Prop := e.what.base ≤ q ∧ q < e.what.base + e.what.count

/-- The log entry of a sealed sample. -/
def WriterSample.entry (s : WriterSample) : Entry := { what := s.committed, dest := s.dest }

/-- What a send of these bytes commits: the gathered sample under the next seqnos. -/
def sendEntry (frag : Nat) (t : Topic) (hdr data : Bytes) (captureUs sourceUs : Nat)
    (dest : Dest) : Entry where
  what := {
    base := t.nextSeqno
    count := fragCount frag (gather t hdr data captureUs sourceUs).length
    bytes := gather t hdr data captureUs sourceUs
    desc := none }
  dest := dest

/-- What a shared memory send commits: the chunk. -/
def shmEntry (frag : Nat) (t : Topic) (chunk desc : Bytes) : Entry where
  what := {
    base := t.nextSeqno, count := fragCount frag chunk.length, bytes := chunk, desc := some desc }
  dest := .all

/-! ## The table -/

/-- The topics and, for each slot, the log since it was defined. -/
structure Table where
  topics : List Topic
  log : Nat → List Entry

/-- What may happen to the table. -/
inductive TableEvent
  | define (c : Nat) (d : TopicDef) (ok : Bool)
  | setRole (c : Nat) (role : Role)
  | retire (c : Nat)
  | reuse (c : Nat) (d : TopicDef) (changed : Bool) (version : Nat) (ok : Bool)
  | send (c : Nat) (hdr data : Bytes) (captureUs sourceUs : Nat) (al : Alloc) (dest : Dest)
  | sendShm (c : Nat) (chunk : Bytes) (desc : { d : Bytes // d.length = shmDescBytes })
  /-- `i_rant_transport_topic_fresh`. -/
  | fresh (c : Nat) (opened : Bool)
  /-- Lanes came and went, the handle's ring was linked, repairs were counted. -/
  | around (c : Nat) (sib : Option Nat) (writers readers : Nat) (lanes : List Nat)
      (stats : RepairStats)
  /-- `i_rant_transport_migrate` to a table of `n` slots. -/
  | migrate (n : Nat)

/-- The log of slot `c` becomes `l`. -/
def Table.relog (s : Table) (c : Nat) (l : List Entry) (ts : List Topic) : Table where
  topics := ts
  log i := if i = c then l else s.log i

/-- The table after a send to slot `c` that would commit `e`. -/
def Table.sent (s : Table) (c : Nat) (r : Send) (e : Entry) : Table :=
  match r with
  | .committed t => s.relog c (s.log c ++ [e]) (s.topics.set c t)
  | .skipped => s
  | .refused _ => s

/-- `i_rant_transport_topic_fresh` on the topic. -/
def Topic.freshen (t : Topic) (opened : Bool) : Topic :=
  { t with fresh := opened, freshFrom := if opened then t.nextSeqno else t.freshFrom }

/-- Whether no ring lies in the arena a migration leaves behind. -/
abbrev Table.movable (s : Table) : Prop := ∀ t ∈ s.topics, t.history ≠ [] → t.historyOwned = true

/-- One step of the table of a transport whose fragment size is `frag`. -/
def Table.step (frag : Nat) (s : Table) : TableEvent → Table
  | .define c d ok =>
    match topicDefine s.topics c d ok with
    | .ok ts => s.relog c [] ts
    | .error _ => s
  | .setRole c role =>
    match topicSetRole s.topics c role with
    | some (some ts) => { s with topics := ts }
    | _ => s
  | .retire c =>
    match topicRetire s.topics c with
    | some ts => s.relog c [] ts
    | none => s
  | .reuse c d changed version ok =>
    match topicReuse s.topics c d changed version ok with
    | .ok ts => s.relog c [] ts
    | .error _ => s
  | .send c hdr data captureUs sourceUs al dest =>
    if c < s.topics.length then
      let t := topicAt s.topics c
      s.sent c (writerSend frag t hdr data captureUs sourceUs al dest)
        (sendEntry frag t hdr data captureUs sourceUs dest)
    else s                                       -- `RANT_ERR_NO_TOPIC`
  | .sendShm c chunk desc =>
    if c < s.topics.length then
      let t := topicAt s.topics c
      s.sent c (writerSendShm frag t chunk desc.1) (shmEntry frag t chunk desc.1)
    else s
  | .fresh c opened =>
    { s with topics := s.topics.set c ((topicAt s.topics c).freshen opened) }
  | .around c sib writers readers lanes stats =>
    { s with topics := s.topics.set c { topicAt s.topics c with
        sib := sib, matchedWriters := writers, matchedReaders := readers, laneChain := lanes
        repairStats := stats } }
  | .migrate n =>
    -- the slots move whole and keep their rings; the new tail is undefined
    if s.movable then
      { s with topics := s.topics ++ List.replicate (n - s.topics.length) .undefined }
    else s

/-- A table as `i_rant_transport_init` builds it: a slot for each definition, its ring in the
arena, or `n` reserved ones. -/
def Table.init (defs : List TopicDef) (n : Nat) : Table where
  topics := if defs = [] then List.replicate n .undefined else defs.map Topic.undefined.bind
  log _ := []

/-- Where a list of events leads. -/
def Table.runs (frag : Nat) (defs : List TopicDef) (n : Nat) (es : List TableEvent) : Table :=
  run (Table.step frag) (Table.init defs n) es

/-- The entries the ring of slot `c` has room for. -/
def Table.kept (s : Table) (c : Nat) : List Entry :=
  (s.log c).drop ((s.log c).length - (topicAt s.topics c).qos.keepLast)

/-! ## The invariant -/

/-- Every ring is the tail of its slot's log. -/
def TableInv (frag : Nat) (s : Table) : Prop :=
  ∀ c, (topicAt s.topics c).history ≠ [] →
    ∃ S, History frag (topicAt s.topics c) S ∧ S.map WriterSample.entry = s.log c

theorem topicAt_set (ts : List Topic) (c i : Nat) (t : Topic) :
    topicAt (ts.set c t) i = if i = c ∧ c < ts.length then t else topicAt ts i := by
  unfold topicAt
  rw [List.getD_eq_getElem?_getD, List.getD_eq_getElem?_getD, List.getElem?_set]
  by_cases hi : c = i
  · subst hi
    by_cases hlt : c < ts.length
    · rw [if_pos rfl, if_pos hlt, if_pos ⟨rfl, hlt⟩]
      rfl
    · rw [if_pos rfl, if_neg hlt, if_neg fun h => hlt h.2, List.getElem?_eq_none (by omega)]
  · rw [if_neg hi, if_neg fun h => hi h.1.symm]

variable {frag : Nat}

variable {c : Nat} {t : Topic}

/-- The slots but `c` keep what they have, and slot `c` is good again with its new log. -/
theorem TableInv.relog {s : Table} (h : TableInv frag s) {l : List Entry}
    (ht : t.history ≠ [] →
      ∃ S, History frag t S ∧ S.map WriterSample.entry = l) :
    TableInv frag (s.relog c l (s.topics.set c t)) := by
  intro i hi
  by_cases hic : i = c
  · subst hic
    by_cases hlt : i < s.topics.length
    · have hat : topicAt (s.topics.set i t) i = t := by
        rw [topicAt_set, if_pos ⟨rfl, hlt⟩]
      have hlog : (s.relog i l (s.topics.set i t)).log i = l := if_pos rfl
      rw [hlog]
      show ∃ S, History frag (topicAt (s.topics.set i t) i) S ∧ _
      have hi : (topicAt (s.topics.set i t) i).history ≠ [] := hi
      rw [hat] at hi ⊢
      exact ht hi
    · have hat : topicAt (s.topics.set i t) i = .undefined := by
        rw [topicAt_set, if_neg fun h => hlt h.2]
        unfold topicAt
        rw [List.getD_eq_getElem?_getD, List.getElem?_eq_none (by omega)]
        rfl
      have hi : (topicAt (s.topics.set i t) i).history ≠ [] := hi
      rw [hat] at hi
      exact absurd rfl hi
  · have hat : topicAt (s.topics.set c t) i = topicAt s.topics i := by
      rw [topicAt_set, if_neg fun h => hic h.1]
    have hlog : (s.relog c l (s.topics.set c t)).log i = s.log i := if_neg hic
    rw [hlog]
    show ∃ S, History frag (topicAt (s.topics.set c t) i) S ∧ _
    have hi : (topicAt (s.topics.set c t) i).history ≠ [] := hi
    rw [hat] at hi ⊢
    exact h i hi

/-- What a step may do to every slot without touching its ring. -/
def SameRing (t t' : Topic) : Prop :=
  t'.qos = t.qos ∧ t'.history = t.history ∧ t'.historyHead = t.historyHead ∧
    t'.nextSeqno = t.nextSeqno ∧ t'.firstSeqno = t.firstSeqno ∧ t'.haveFirst = t.haveFirst

theorem SameRing.refl (t : Topic) : SameRing t t := ⟨rfl, rfl, rfl, rfl, rfl, rfl⟩

variable {t' : Topic}

theorem SameRing.trans {t'' : Topic} (h : SameRing t t') (h' : SameRing t' t'') :
    SameRing t t'' := by
  obtain ⟨h1, h2, h3, h4, h5, h6⟩ := h
  obtain ⟨g1, g2, g3, g4, g5, g6⟩ := h'
  exact ⟨g1.trans h1, g2.trans h2, g3.trans h3, g4.trans h4, g5.trans h5, g6.trans h6⟩

variable {ts : List Topic}

/-- A table whose rings are all as they were. -/
theorem TableInv.same {s : Table} (h : TableInv frag s)
    (hsame : ∀ i, SameRing (topicAt s.topics i) (topicAt ts i)) :
    TableInv frag { s with topics := ts } := by
  intro i hi
  obtain ⟨h1, h2, h3, h4, h5, h6⟩ := hsame i
  have hi : (topicAt ts i).history ≠ [] := hi
  rw [h2] at hi
  obtain ⟨S, hS, hl⟩ := h i hi
  exact ⟨S, hS.congr h1 h2 h3 h4 h5 h6, hl⟩

theorem sameRing_set (h : SameRing (topicAt ts c) t)
    (i : Nat) : SameRing (topicAt ts i) (topicAt (ts.set c t) i) := by
  rw [topicAt_set]
  split
  next hi =>
    rw [hi.1]
    exact h
  next => exact SameRing.refl _

/-- Unlinking moves `sib` only. -/
theorem topicUnlink_at (ts : List Topic) (c : Nat) : (topicUnlink ts c).length = ts.length ∧
    ∀ i, ∃ sib, topicAt (topicUnlink ts c) i = { topicAt ts i with sib := sib } := by
  have hset : ∀ (ts : List Topic) c sib i, ∃ sib',
      topicAt (ts.set c { topicAt ts c with sib := sib }) i = { topicAt ts i with sib := sib' } := by
    intro ts c sib i
    rw [topicAt_set]
    split
    next hi => exact ⟨sib, by rw [hi.1]⟩
    next => exact ⟨(topicAt ts i).sib, rfl⟩
  unfold topicUnlink
  split
  next => exact ⟨rfl, fun i => ⟨(topicAt ts i).sib, rfl⟩⟩
  next next _ =>
    dsimp only
    split
    next => exact ⟨List.length_set, hset ts c none⟩
    next u _ =>
      refine ⟨List.length_set.trans List.length_set, fun i => ?_⟩
      obtain ⟨sib, hi⟩ := hset ts c none i
      obtain ⟨sib', hi'⟩ := hset (ts.set c { topicAt ts c with sib := none }) u
        (if next = u then none else some next) i
      rw [hi']
      exact ⟨sib', by rw [hi]⟩

theorem topicUnlink_same (ts : List Topic) (c i : Nat) :
    SameRing (topicAt ts i) (topicAt (topicUnlink ts c) i) := by
  obtain ⟨sib, hi⟩ := (topicUnlink_at ts c).2 i
  rw [hi]
  exact ⟨rfl, rfl, rfl, rfl, rfl, rfl⟩

/-- A fresh binding has a cleared ring. -/
theorem bind_cleared (frag : Nat) (t : Topic) (d : TopicDef) : History frag (t.bind d) [] :=
  history_cleared (qosDefaults_keepLast_pos d.qos) rfl rfl rfl

/-- Releasing clears an arena ring and gives up an owned one. -/
theorem release_cleared {S : List WriterSample} (h : History frag t S)
    (hne : t.release.history ≠ []) : History frag t.release [] := by
  have hown : t.historyOwned = false := by
    rw [← Bool.not_eq_true]
    intro hc
    refine hne ?_
    unfold Topic.release
    dsimp only
    rw [hc]
    rfl
  refine history_cleared h.ring.depth_pos ?_ rfl rfl
  unfold Topic.release
  dsimp only
  rw [hown, if_neg Bool.noConfusion, List.map_const', h.size]

/-- A send to a slot without a ring makes none. -/
theorem sealed_length {len : Nat} {dest : Dest}
    (h : ∃ slot, t' = writerSeal frag { t with history := t.history.set t.historyHead slot } len
      dest) : t'.history.length = t.history.length := by
  obtain ⟨slot, rfl⟩ := h
  rw [writerSeal_length]
  exact List.length_set

theorem ring_of_length (h : t'.history.length = t.history.length)
    (hne : t'.history ≠ []) : t.history ≠ [] := by
  intro hc
  rw [hc] at h
  exact hne (List.length_eq_zero_iff.mp h)

/-- A committed send appends what it was given. -/
theorem sent_inv {s : Table} {r : Send} {e : Entry} (h : TableInv frag s)
    (hring : ∀ t', r = .committed t' → t'.history.length = (topicAt s.topics c).history.length)
    (hcommit : ∀ t' S, r = .committed t' → History frag (topicAt s.topics c) S →
      ∃ x : WriterSample, History frag t' (S ++ [x]) ∧ x.entry = e) :
    TableInv frag (s.sent c r e) := by
  unfold Table.sent
  split
  next t' =>
    refine h.relog fun hne => ?_
    obtain ⟨S, hS, hl⟩ := h c (ring_of_length (hring t' rfl) hne)
    obtain ⟨x, hx, he⟩ := hcommit t' S rfl hS
    refine ⟨S ++ [x], hx, ?_⟩
    rw [List.map_append, hl, List.map_singleton, he]
  next => exact h
  next => exact h

/-- A slot past the table is undefined. -/
theorem topicAt_ge (h : ts.length ≤ c) :
    topicAt ts c = .undefined := by
  unfold topicAt
  rw [List.getD_eq_getElem?_getD, List.getElem?_eq_none h]
  rfl

/-- The slots a migration carries, and the new ones. -/
theorem topicAt_append_undefined (ts : List Topic) (k i : Nat) :
    topicAt (ts ++ List.replicate k .undefined) i = topicAt ts i := by
  by_cases hi : i < ts.length
  · unfold topicAt
    rw [List.getD_eq_getElem?_getD, List.getD_eq_getElem?_getD, List.getElem?_append_left hi]
  rw [topicAt_ge (Nat.le_of_not_lt hi)]
  unfold topicAt
  rw [List.getD_eq_getElem?_getD, List.getElem?_append_right (Nat.le_of_not_lt hi),
    List.getElem?_replicate]
  split <;> rfl

/-- Every event keeps the table's invariant. -/
theorem step_table (hF : 0 < frag) (hF' : frag ≤ 65535) (s : Table) (e : TableEvent)
    (h : TableInv frag s) : TableInv frag (s.step frag e) := by
  cases e with
  | define c d ok =>
    unfold Table.step
    dsimp only
    split
    next ts hok =>
      rw [(topicDefine_ok hok).2]
      exact h.relog fun _ => ⟨[], history_cleared (qosDefaults_keepLast_pos d.qos) rfl rfl rfl, rfl⟩
    next => exact h
  | setRole c role =>
    unfold Table.step
    dsimp only
    split
    next ts hok =>
      rw [topicSetRole_ok hok]
      exact h.same (sameRing_set ⟨rfl, rfl, rfl, rfl, rfl, rfl⟩)
    next => exact h
  | retire c =>
    unfold Table.step
    dsimp only
    split
    next ts hok =>
      obtain ⟨mid, hmid⟩ : ∃ mid, mid = topicUnlink (s.topics.set c (topicAt s.topics c).park) c :=
        ⟨_, rfl⟩
      have hts : ts = mid.set c (topicAt mid c).release := by
        unfold topicRetire at hok
        split at hok
        next =>
          rw [hmid]
          exact (Option.some.inj hok).symm
        next => cases hok
      -- parked and unlinked, every ring is still what it was
      have hinv : TableInv frag { s with topics := mid } := by
        refine h.same fun i => ?_
        rw [hmid]
        have hpark : SameRing (topicAt s.topics c) (topicAt s.topics c).park :=
          ⟨rfl, rfl, rfl, rfl, rfl, rfl⟩
        exact (sameRing_set hpark i).trans (topicUnlink_same _ c i)
      rw [hts]
      refine hinv.relog (l := []) fun hne => ?_
      have hold : (topicAt mid c).history ≠ [] := by
        intro hc
        refine hne ?_
        unfold Topic.release
        dsimp only
        rw [hc]
        exact ite_self _
      obtain ⟨S, hS, -⟩ := hinv c hold
      exact ⟨[], release_cleared hS hne, rfl⟩
    next => exact h
  | reuse c d changed version ok =>
    unfold Table.step
    dsimp only
    split
    next ts hok =>
      rw [(topicReuse_ok hok).2]
      exact h.relog fun _ => ⟨[], history_cleared (qosDefaults_keepLast_pos d.qos) rfl rfl rfl, rfl⟩
    next => exact h
  | send c hdr data captureUs sourceUs al dest =>
    unfold Table.step
    dsimp only
    split
    next =>
      refine sent_inv h (fun t' hc => sealed_length ⟨_, (writerSend_committed hc).2⟩) fun t' S hc hS => ?_
      obtain ⟨x, hx, hd, -, -, hwhat⟩ := writerSend_history hS hF hF' hc
      refine ⟨x, hx, ?_⟩
      unfold WriterSample.entry
      rw [hwhat, hd]
      rfl
    next => exact h
  | sendShm c chunk desc =>
    unfold Table.step
    dsimp only
    split
    next =>
      refine sent_inv h (fun t' hc => sealed_length ⟨_, (writerSendShm_committed hc).2⟩) fun t' S hc hS => ?_
      obtain ⟨x, hx, hd, -, -, hwhat⟩ := writerSendShm_history hS hF hF' desc.2 hc
      refine ⟨x, hx, ?_⟩
      unfold WriterSample.entry
      rw [hwhat, hd]
      rfl
    next => exact h
  | fresh c opened => exact h.same (sameRing_set ⟨rfl, rfl, rfl, rfl, rfl, rfl⟩)
  | around c sib writers readers lanes stats =>
    exact h.same (sameRing_set ⟨rfl, rfl, rfl, rfl, rfl, rfl⟩)
  | migrate n =>
    unfold Table.step
    dsimp only
    split
    next =>
      refine h.same fun i => ?_
      rw [topicAt_append_undefined]
      exact SameRing.refl _
    next => exact h

theorem init_table (frag : Nat) (defs : List TopicDef) (n : Nat) :
    TableInv frag (Table.init defs n) := by
  intro c hc
  unfold Table.init at hc ⊢
  dsimp only at hc ⊢
  split at hc
  next =>
    refine absurd ?_ hc
    have := topicAt_append_undefined [] n c
    rw [List.nil_append] at this
    rw [this]
    rfl
  next hd =>
    rw [if_neg hd]
    obtain ⟨t, ht⟩ : ∃ t, t = topicAt (defs.map Topic.undefined.bind) c := ⟨_, rfl⟩
    rw [← ht] at hc ⊢
    unfold topicAt at ht
    rw [List.getD_eq_getElem?_getD, List.getElem?_map] at ht
    cases hdef : defs[c]? with
    | none =>
      rw [hdef] at ht
      rw [ht] at hc
      exact absurd rfl hc
    | some d =>
      rw [hdef] at ht
      rw [ht]
      exact ⟨[], bind_cleared frag _ d, rfl⟩

theorem runs_table (hF : 0 < frag) (hF' : frag ≤ 65535) (defs : List TopicDef) (n : Nat)
    (es : List TableEvent) : TableInv frag (Table.runs frag defs n es) :=
  run_invariant (TableInv frag) (step_table hF hF') es _ (init_table frag defs n)

/-! ## The refinement -/

/-- On every table any run leads to, the ring of every slot that has one refines the log of
what was committed to the slot: the search, the floor, the head and the join position are
those of the last `keep_last` entries. -/
theorem history_refines (frag : { f : Nat // 0 < f ∧ f ≤ 65535 }) (defs : List TopicDef) (n : Nat)
    (es : List TableEvent) (c : Nat)
    (hring : (topicAt (Table.runs frag defs n es).topics c).history ≠ []) :
    let s := Table.runs frag defs n es
    let t := topicAt s.topics c
    (∀ q e, (sampleFind t q).map WriterSample.entry = some e ↔ e ∈ s.kept c ∧ e.covers q) ∧
    (∀ i e e', (s.log c)[i]? = some e → (s.log c)[i + 1]? = some e' →
      e'.what.base = e.what.base + e.what.count) ∧
    (∀ e, (s.kept c).head? = some e → t.firstSeqno = e.what.base) ∧
    (∀ e, (s.log c).getLast? = some e → t.nextSeqno = e.what.base + e.what.count) ∧
    (unicastJoinSeqno t = t.nextSeqno ∨ ∃ e ∈ s.kept c, unicastJoinSeqno t = e.what.base) := by
  obtain ⟨S, hS, hl⟩ := runs_table frag.2.1 frag.2.2 defs n es c hring
  obtain ⟨a, htiles⟩ := hS.tiles
  have hspan : ∀ x : WriterSample, x.span = ⟨x.entry.what.base, x.entry.what.count⟩ := fun _ => rfl
  have hkept : (Table.runs frag defs n es).kept c =
      (S.drop (S.length - (topicAt (Table.runs frag defs n es).topics c).qos.keepLast)).map
        WriterSample.entry := by
    unfold Table.kept
    rw [← hl, List.length_map, List.map_drop]
  dsimp only
  rw [hkept, ← hl]
  refine ⟨fun q e => ?_, fun i e e' he he' => ?_, fun e he => ?_, fun e he => ?_, ?_⟩
  · rw [Option.map_eq_some_iff, List.mem_map]
    constructor
    · rintro ⟨x, hx, rfl⟩
      obtain ⟨hc, hq⟩ := (sampleFind_iff hS).mp hx
      exact ⟨⟨x, cached_iff.mp hc, rfl⟩, hq⟩
    · rintro ⟨⟨x, hx, rfl⟩, hq⟩
      exact ⟨x, (sampleFind_iff hS).mpr ⟨cached_iff.mpr hx, hq⟩, rfl⟩
  · rw [List.getElem?_map, Option.map_eq_some_iff] at he he'
    obtain ⟨x, hx, rfl⟩ := he
    obtain ⟨y, hy, rfl⟩ := he'
    refine tiles_next htiles (i := i) (u := x.span) (v := y.span) ?_ ?_
    · rw [List.getElem?_map, hx]
      rfl
    · rw [List.getElem?_map, hy]
      rfl
  · rw [List.head?_map, Option.map_eq_some_iff] at he
    obtain ⟨x, hx, rfl⟩ := he
    rw [List.head?_drop] at hx
    obtain ⟨hlt, rfl⟩ := List.getElem?_eq_some_iff.mp hx
    exact hS.first (by omega)
  · rw [List.getLast?_map, Option.map_eq_some_iff] at he
    obtain ⟨x, hx, rfl⟩ := he
    refine tiles_last htiles (u := x.span) ?_
    rw [List.getLast?_map, hx]
    rfl
  · rcases unicastJoinSeqno_spec hS with heq | ⟨x, hx, heq⟩
    · exact Or.inl heq
    · exact Or.inr ⟨x.entry, List.mem_map_of_mem (cached_iff.mp hx), heq⟩

/-- A topic of two samples of history, three sends into it. -/
def wrappedRun : List TableEvent :=
  let d : TopicDef := { name := [97], qos := ⟨.reliable, 2, 1, 0, 0, 0, true⟩, role := .pubOnly
                        kind := .topic, attrs := 0, prefixBytes := 0, directed := false }
  let al : Alloc := { bufOk := true, bitmapOk := true, junk := fun _ => 0 }
  [.define 0 d true, .send 0 [] [] 0 0 al .all, .send 0 [] [1, 2, 3, 4, 5] 0 0 al .all,
    .send 0 [] [6] 0 0 al .all]

/-- The ring wrapped: the empty first sample is gone and the floor is the second one's. -/
theorem history_refines_wrapped :
    (topicAt (Table.runs 4 [] 1 wrappedRun).topics 0).firstSeqno = 1 ∧
    (sampleFind (topicAt (Table.runs 4 [] 1 wrappedRun).topics 0) 0).map WriterSample.entry ≠
      some ⟨⟨0, 1, [], none⟩, .all⟩ := by
  have h := history_refines ⟨4, by decide⟩ [] 1 wrappedRun 0 (by decide)
  refine ⟨h.2.2.1 ⟨⟨1, 2, [1, 2, 3, 4, 5], none⟩, .all⟩ rfl, fun hc => ?_⟩
  have hin := ((h.1 0 _).mp hc).1
  have hkept : (Table.runs 4 [] 1 wrappedRun).kept 0 =
      [⟨⟨1, 2, [1, 2, 3, 4, 5], none⟩, .all⟩, ⟨⟨3, 1, [6], none⟩, .all⟩] := rfl
  rw [hkept] at hin
  simp at hin

end Rant.Transport
