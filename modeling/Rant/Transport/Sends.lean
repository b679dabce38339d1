import Rant.Transport.Peers
import Rant.Transport.Topics
/-!
# Sends over the whole transport

The sends of `src/transport/writer.c` statement by statement over everything they may write: the
topic's ring, a byte buffer at a time, and the lanes. An exit returns the state as it is at that
statement, so that a send which fails after its first visible change would show
(`failed_send_same`). Each send comes to what `writerSend` says of it (`sendInline_eq`).
-/

namespace Rant.Transport

open Rant.Lib.Fragment (writeAt)

/-! ## State -/

/-- What the sends read and write of `i_RantTransportState`. A lane stands under its topic and its
peer's slot. `frag` is a `u16` the build has clamped. -/
structure SendState where
  frag : Nat
  topics : List Topic
  slots : List PeerSlot
  peerShm : Nat → Bool
  lanes : Nat → Nat → WriterSide
  frag_pos : 0 < frag
  frag_lt : frag < 2 ^ 16

namespace SendState

/-- Topic `c`. -/
def topic (s : SendState) (c : Nat) : Topic := topicAt s.topics c

def modTopic (s : SendState) (c : Nat) (f : Topic → Topic) : SendState :=
  { s with topics := s.topics.modify c f }

/-- The ring slot the next send of a topic takes. -/
def headSlot (s : SendState) (c : Nat) : WriterSample := (s.topic c).slotAt (s.topic c).historyHead

def modHead (s : SendState) (c : Nat) (f : WriterSample → WriterSample) : SendState :=
  s.modTopic c fun t => { t with history := t.history.set t.historyHead (f (t.slotAt t.historyHead)) }

def setLane (s : SendState) (c p : Nat) (x : WriterSide) : SendState :=
  { s with lanes := fun c' p' => if c' = c ∧ p' = p then x else s.lanes c' p' }

end SendState

/-- What a send returns: the state it leaves, and its code. -/
abbrev Sent (α : Type) := SendState × Except SendErr α

/-- The answers of one send: `source_time` and `bulk`. -/
structure SendEnv where
  sourceUs : Nat := 0
  al : Alloc := {}

/-! ## The functions -/

/-- The loop of `i_rant_writer_commit` over the lanes of the topic. -/
def commitLanes (s : SendState) (c : Nat) (dest : Dest) : SendState :=
  (s.topic c).laneChain.foldl (fun s p =>
    s.setLane c p (commitLane (s.topic c) dest p (peerAt s.slots p).dormant (s.lanes c p))) s

/-- `i_rant_writer_commit`. -/
def sendCommit (s : SendState) (c len : Nat) (dest : Dest) : SendState :=
  commitLanes (s.modTopic c fun t => writerSeal s.frag t len dest) c dest

/-- `i_rant_writer_store` on the state: the head slot grows, then takes the bytes. -/
def sendStore (s : SendState) (c : Nat) (env : SendEnv) (hdr data : Bytes) (captureUs : Nat) :
    Sent Nat :=
  let wire := gather (s.topic c) hdr data captureUs env.sourceUs
  if writerTooBig s.frag wire.length then (s, .error .tooBig)
  else
    let need := storeNeed wire.length
    let grows := decide ((s.headSlot c).buf.length < need)
    if grows && !env.al.bufOk then (s, .error .oom)
    else
      let s := if grows then s.modHead c fun x => { x with buf := growTo env.al x.buf need } else s
      let s := s.modHead c fun x => { x with buf := writeAt x.buf 0 wire }
      (s.modHead c fun x => { x with shm := false }, .ok wire.length)

/-- `i_rant_writer_send` on the state. -/
def sendInline (s : SendState) (c : Nat) (env : SendEnv) (hdr data : Bytes) (captureUs : Nat)
    (dest : Dest) : Sent Unit :=
  if s.topics.length ≤ c then (s, .error .noTopic)
  else
    let t := s.topic c
    if writerTooBig s.frag (t.stampBytes captureUs + hdr.length + data.length) then
      (s, .error .tooBig)
    else if t.role = .subOnly ∨ t.role = .inactive then (s, .error .role)
    else if t.matchedWriters = 0 ∧ ¬ t.retainsHistory then (s, .ok ())
    else
      match sendStore s c env hdr data captureUs with
      | (s, .error e) => (s, .error e)
      | (s, .ok len) => (sendCommit s c len dest, .ok ())

/-- `i_rant_transport_send_shm`. `chunk` is what the memory at the pointer holds. -/
def sendShm (s : SendState) (c : Nat) (chunk desc : Bytes) : Sent Unit :=
  if s.topics.length ≤ c then (s, .error .noTopic)
  else if writerTooBig s.frag chunk.length then (s, .error .tooBig)
  else if (s.topic c).role = .subOnly ∨ (s.topic c).role = .inactive then (s, .error .role)
  else
    let s := s.modHead c fun x => { x with shm := true }
    let s := s.modHead c fun x => { x with shmBuf := chunk }
    let s := s.modHead c fun x => { x with desc := desc }
    (sendCommit s c chunk.length .all, .ok ())

/-- The destination of `i_rant_transport_send_to`: to an unknown peer is to nobody. -/
def destOf (slots : List PeerSlot) (peer : Nat) : Dest :=
  match peerSlot slots peer with
  | none => .none
  | some p => .slot p

/-- The sends of the transport. -/
inductive SendCall
  | send (data : Bytes)
  | sendHdr (hdr data : Bytes) (captureUs : Nat)
  | sendTo (peer : Nat) (hdr data : Bytes) (captureUs : Nat)
  | sendShm (chunk desc : Bytes)

/-- The bytes a call puts together on a topic. -/
def SendCall.total (t : Topic) : SendCall → Nat
  | .send data => t.stampBytes 0 + data.length
  | .sendHdr hdr data captureUs | .sendTo _ hdr data captureUs =>
    t.stampBytes captureUs + hdr.length + data.length
  | .sendShm chunk _ => chunk.length

/-- A send on topic `c`. -/
def SendState.call (s : SendState) (c : Nat) (env : SendEnv) : SendCall → Sent Unit
  | .send data => sendInline s c env [] data 0 .all
  | .sendHdr hdr data captureUs => sendInline s c env hdr data captureUs .all
  | .sendTo peer hdr data captureUs =>
    sendInline s c env hdr data captureUs (destOf s.slots peer)
  | .sendShm chunk desc => Rant.Transport.sendShm s c chunk desc

/-! ## No trace -/

variable {s s' : SendState} {c : Nat} {env : SendEnv} {e : SendErr}

variable {captureUs : Nat}

variable {hdr data : Bytes}

theorem sendStore_error
    (h : sendStore s c env hdr data captureUs = (s', .error e)) : s' = s := by
  unfold sendStore at h
  dsimp only at h
  split at h
  next =>
    cases h
    rfl
  split at h
  next =>
    cases h
    rfl
  next => cases h

variable {dest : Dest}

theorem sendInline_error
    (h : sendInline s c env hdr data captureUs dest = (s', .error e)) : s' = s := by
  unfold sendInline at h
  dsimp only at h
  split at h
  next =>
    cases h
    rfl
  split at h
  next =>
    cases h
    rfl
  split at h
  next =>
    cases h
    rfl
  split at h
  next => cases h
  split at h
  next s₁ e₁ hstore =>
    cases h
    exact sendStore_error hstore
  next => cases h

variable {chunk : Bytes}

variable {desc : Bytes}

theorem sendShm_error (h : sendShm s c chunk desc = (s', .error e)) :
    s' = s := by
  unfold sendShm at h
  split at h
  next =>
    cases h
    rfl
  split at h
  next =>
    cases h
    rfl
  split at h
  next =>
    cases h
    rfl
  next => cases h

/-- A send that fails leaves the transport as it was. -/
theorem failed_send_same {call : SendCall} (h : s.call c env call = (s', .error e)) : s' = s := by
  cases call with
  | send data => exact sendInline_error h
  | sendHdr hdr data captureUs => exact sendInline_error h
  | sendTo peer hdr data captureUs => exact sendInline_error h
  | sendShm chunk desc => exact sendShm_error h

/-! ## What a send comes to -/

namespace SendState

theorem modTopic_modTopic (s : SendState) (c : Nat) (f g : Topic → Topic) :
    (s.modTopic c f).modTopic c g = s.modTopic c (g ∘ f) := by
  unfold modTopic
  rw [List.modify_modify_eq]

theorem topic_modTopic (s : SendState) {c : Nat} (hc : c < s.topics.length) (f : Topic → Topic) :
    (s.modTopic c f).topic c = f (s.topic c) := by
  unfold modTopic topic topicAt
  simp [List.getElem?_eq_getElem hc]

theorem topic_modTopic_ne (s : SendState) {c c' : Nat} (hne : c' ≠ c) (f : Topic → Topic) :
    (s.modTopic c f).topic c' = s.topic c' := by
  unfold modTopic topic topicAt
  simp [Ne.symm hne]

/-- Two changes of the head slot in a row. -/
theorem modHead_modHead (s : SendState) (c : Nat) (f g : WriterSample → WriterSample) :
    (s.modHead c f).modHead c g = s.modHead c (g ∘ f) := by
  unfold modHead
  rw [modTopic_modTopic]
  congr 1
  funext t
  simp only [Function.comp_apply, Topic.slotAt, List.set_set]
  by_cases hh : t.historyHead < t.history.length
  · simp [hh]
  · rw [List.set_eq_of_length_le (by omega), List.set_eq_of_length_le (by omega)]

/-- A change of a topic that is there puts one topic in its place. -/
theorem modTopic_eq (s : SendState) {c : Nat} (hc : c < s.topics.length) (f : Topic → Topic) :
    s.modTopic c f = s.modTopic c fun _ => f (s.topic c) := by
  unfold modTopic
  congr 1
  apply List.ext_getElem?
  intro i
  simp only [List.getElem?_modify]
  by_cases hi : c = i
  · subst hi
    simp [topic, topicAt, List.getElem?_eq_getElem hc]
  · simp [hi]

end SendState

/-- The transport a send that commits `t'` leaves. -/
def sendSealed (s : SendState) (c : Nat) (t' : Topic) (dest : Dest) : SendState :=
  commitLanes (s.modTopic c fun _ => t') c dest

/-- The writes of the store into a slot come to `storeSlot`. -/
theorem sendStore_head (s : SendState) (c : Nat) (al : Alloc) (wire : Bytes) :
    (((if (s.headSlot c).buf.length < storeNeed wire.length then
        s.modHead c fun x => { x with buf := growTo al x.buf (storeNeed wire.length) } else s).modHead c
      fun x => { x with buf := writeAt x.buf 0 wire }).modHead c fun x => { x with shm := false }) =
      s.modTopic c fun t => { t with
        history := t.history.set t.historyHead
          (if (s.headSlot c).buf.length < storeNeed wire.length then
            storeSlot al (t.slotAt t.historyHead) wire
          else { t.slotAt t.historyHead with
            buf := writeAt (t.slotAt t.historyHead).buf 0 wire, shm := false }) } := by
  by_cases hgrow : (s.headSlot c).buf.length < storeNeed wire.length
  · simp only [if_pos hgrow]
    rw [SendState.modHead_modHead, SendState.modHead_modHead]
    rfl
  · simp only [if_neg hgrow]
    rw [SendState.modHead_modHead]
    rfl

/-- A buffer that is large enough does not grow. -/
theorem growTo_ge {al : Alloc} {buf : Bytes} {need : Nat} (h : need ≤ buf.length) :
    growTo al buf need = buf := by
  unfold growTo
  rw [Nat.sub_eq_zero_of_le h, List.range_zero, List.map_nil, List.append_nil]

/-- An inline send does what `writerSend` says. -/
theorem sendInline_eq (hc : c < s.topics.length) (env : SendEnv) (hdr data : Bytes)
    (captureUs : Nat) (dest : Dest) :
    sendInline s c env hdr data captureUs dest =
      match writerSend s.frag (s.topic c) hdr data captureUs env.sourceUs env.al dest with
      | .refused e => (s, .error e)
      | .skipped => (s, .ok ())
      | .committed t' => (sendSealed s c t' dest, .ok ()) := by
  unfold sendInline writerSend
  rw [if_neg (by omega)]
  dsimp only
  by_cases hbig : writerTooBig s.frag ((s.topic c).stampBytes captureUs + hdr.length + data.length)
  · rw [if_pos hbig, if_pos hbig]
  rw [if_neg hbig, if_neg hbig]
  by_cases hrole : (s.topic c).role = .subOnly ∨ (s.topic c).role = .inactive
  · rw [if_pos hrole, if_pos hrole]
  rw [if_neg hrole, if_neg hrole]
  by_cases hskip : (s.topic c).matchedWriters = 0 ∧ ¬ (s.topic c).retainsHistory
  · rw [if_pos hskip, if_pos hskip]
  rw [if_neg hskip, if_neg hskip]
  unfold sendStore writerStore
  dsimp only
  generalize gather (s.topic c) hdr data captureUs env.sourceUs = wire
  by_cases hwire : writerTooBig s.frag wire.length
  · rw [if_pos hwire, if_pos hwire]
  rw [if_neg hwire, if_neg hwire]
  by_cases hoom : (s.headSlot c).buf.length < storeNeed wire.length ∧ env.al.bufOk = false
  · have hoom' : ((s.topic c).slotAt (s.topic c).historyHead).buf.length <
        storeNeed wire.length ∧ env.al.bufOk = false := hoom
    rw [if_pos (by simp [hoom.1, hoom.2]), if_pos hoom']
  · have hoom' : ¬ (((s.topic c).slotAt (s.topic c).historyHead).buf.length <
        storeNeed wire.length ∧ env.al.bufOk = false) := hoom
    rw [if_neg (by simpa using hoom), if_neg hoom']
    dsimp only
    simp only [decide_eq_true_eq]
    rw [sendStore_head]
    unfold sendCommit sendSealed
    rw [SendState.modTopic_modTopic, SendState.modTopic_eq s hc]
    by_cases hgrow : (s.headSlot c).buf.length < storeNeed wire.length
    · simp only [if_pos hgrow]
      rfl
    simp only [if_neg hgrow]
    have hbuf : growTo env.al ((s.topic c).slotAt (s.topic c).historyHead).buf
        (storeNeed wire.length) = ((s.topic c).slotAt (s.topic c).historyHead).buf :=
      growTo_ge (Nat.le_of_not_lt hgrow)
    unfold storeSlot
    rw [hbuf]
    rfl

/-- A shared memory send does what `writerSendShm` says. -/
theorem sendShm_eq (hc : c < s.topics.length) (chunk desc : Bytes) :
    sendShm s c chunk desc =
      match writerSendShm s.frag (s.topic c) chunk desc with
      | .refused e => (s, .error e)
      | .skipped => (s, .ok ())
      | .committed t' => (sendSealed s c t' .all, .ok ()) := by
  unfold sendShm writerSendShm
  rw [if_neg (by omega)]
  by_cases hbig : writerTooBig s.frag chunk.length
  · rw [if_pos hbig, if_pos hbig]
  rw [if_neg hbig, if_neg hbig]
  by_cases hrole : (s.topic c).role = .subOnly ∨ (s.topic c).role = .inactive
  · rw [if_pos hrole, if_pos hrole]
  rw [if_neg hrole, if_neg hrole]
  dsimp only
  unfold sendCommit sendSealed
  rw [SendState.modHead_modHead, SendState.modHead_modHead]
  unfold SendState.modHead
  rw [SendState.modTopic_modTopic, SendState.modTopic_eq s hc]
  rfl

/-! ## What it leaves in the ring -/

theorem commitLanes_topics (s : SendState) (c : Nat) (dest : Dest) :
    (commitLanes s c dest).topics = s.topics := by
  have hfold : ∀ (ps : List Nat) (s' : SendState), s'.topics = s.topics →
      (ps.foldl (fun s p => s.setLane c p
        (commitLane (s.topic c) dest p (peerAt s.slots p).dormant (s.lanes c p))) s').topics =
          s.topics := by
    intro ps
    induction ps with
    | nil =>
      intro s' h
      exact h
    | cons p ps ih =>
      intro s' h
      exact ih _ h
  exact hfold _ s rfl

theorem sendSealed_topic (hc : c < s.topics.length) (t' : Topic) (dest : Dest) :
    (sendSealed s c t' dest).topic c = t' := by
  unfold sendSealed SendState.topic
  rw [commitLanes_topics]
  exact SendState.topic_modTopic s hc fun _ => t'

theorem sendSealed_topic_ne {c' : Nat} (hne : c' ≠ c) (t' : Topic) (dest : Dest) :
    (sendSealed s c t' dest).topic c' = s.topic c' := by
  unfold sendSealed SendState.topic
  rw [commitLanes_topics]
  exact SendState.topic_modTopic_ne s hne fun _ => t'

variable {t : Topic}

theorem slotAt_set_ne {i h : Nat} (hne : i ≠ h) (x : WriterSample) :
    (t.history.set h x).getD i .empty = t.slotAt i := by
  unfold Topic.slotAt
  simp [Ne.symm hne]

theorem slotAt_set_self {h : Nat} (x : WriterSample) :
    (t.history.set h x).getD h .empty = if h < t.history.length then x else .empty := by
  by_cases hh : h < t.history.length
  · simp [hh]
  · simp [hh]

/-- The seal writes the head slot only, and not where its bytes are. -/
theorem writerSeal_slot (frag : Nat) (t : Topic) (len : Nat) (dest : Dest) :
    (∀ i, i ≠ t.historyHead → (writerSeal frag t len dest).slotAt i = t.slotAt i) ∧
      ((writerSeal frag t len dest).slotAt t.historyHead).shm = (t.slotAt t.historyHead).shm := by
  constructor
  · intro i hi
    exact slotAt_set_ne hi _
  · have hset := slotAt_set_self (t := t) (h := t.historyHead)
      { t.slotAt t.historyHead with
        valid := true, base := t.nextSeqno, count := fragCount frag len, len := len % 2 ^ 32
        dest := dest }
    have hslot : (writerSeal frag t len dest).slotAt t.historyHead = _ := hset
    rw [hslot]
    split
    next => rfl
    next hh =>
      unfold Topic.slotAt
      rw [List.getD_eq_getElem?_getD, List.getElem?_eq_none (Nat.le_of_not_lt hh)]
      rfl

/-- A committed inline send replaces the head slot, by a sample of its own buffer. -/
theorem writerSend_slot {frag : Nat} {t' : Topic} {sourceUs : Nat} {al : Alloc}
    (h : writerSend frag t hdr data captureUs sourceUs al dest = .committed t') :
    (∀ i, i ≠ t.historyHead → t'.slotAt i = t.slotAt i) ∧ (t'.slotAt t.historyHead).shm = false := by
  unfold writerSend at h
  split at h
  next => cases h
  split at h
  next => cases h
  split at h
  next => cases h
  unfold writerStore at h
  dsimp only at h
  generalize gather t hdr data captureUs sourceUs = wire at h
  by_cases hbig : writerTooBig frag wire.length
  · rw [if_pos hbig] at h
    cases h
  rw [if_neg hbig] at h
  by_cases hoom : (t.slotAt t.historyHead).buf.length < storeNeed wire.length ∧ al.bufOk = false
  · rw [if_pos hoom] at h
    cases h
  rw [if_neg hoom] at h
  cases h
  obtain ⟨hother, hhead⟩ := writerSeal_slot frag { t with
    history := t.history.set t.historyHead (storeSlot al (t.slotAt t.historyHead) wire) }
    wire.length dest
  constructor
  · intro i hi
    exact (hother i hi).trans (slotAt_set_ne hi _)
  · refine hhead.trans ?_
    have hset := slotAt_set_self (t := t) (h := t.historyHead)
      (storeSlot al (t.slotAt t.historyHead) wire)
    unfold Topic.slotAt at hset ⊢
    rw [hset]
    split <;> rfl

/-- A committed shared memory send replaces the head slot. -/
theorem writerSendShm_slot {frag : Nat} {t' : Topic}
    (h : writerSendShm frag t chunk desc = .committed t') {i : Nat} (hi : i ≠ t.historyHead) :
    t'.slotAt i = t.slotAt i := by
  unfold writerSendShm at h
  split at h
  next => cases h
  split at h
  next => cases h
  cases h
  obtain ⟨hother, -⟩ := writerSeal_slot frag { t with
    history := t.history.set t.historyHead
      { t.slotAt t.historyHead with shm := true, shmBuf := chunk, desc := desc } } chunk.length .all
  exact (hother i hi).trans (slotAt_set_ne hi _)

/-- An inline send that returns well leaves every slot but the head's, and puts none into shared
memory. -/
theorem sendInline_slots
    (h : sendInline s c env hdr data captureUs dest = (s', .ok ())) :
    (∀ c' i, ¬ (c' = c ∧ i = (s.topic c).historyHead) →
      (s'.topic c').slotAt i = (s.topic c').slotAt i) ∧
    (∀ c' i, ((s'.topic c').slotAt i).shm = true → ((s.topic c').slotAt i).shm = true) := by
  by_cases hc : c < s.topics.length
  · rw [sendInline_eq hc] at h
    cases hw : writerSend s.frag (s.topic c) hdr data captureUs env.sourceUs env.al dest with
    | refused e =>
      rw [hw] at h
      cases h
    | skipped =>
      rw [hw] at h
      cases h
      exact ⟨fun _ _ _ => rfl, fun _ _ h => h⟩
    | committed t' =>
      rw [hw] at h
      cases h
      obtain ⟨hother, hhead⟩ := writerSend_slot hw
      have hslot : ∀ c' i, ¬ (c' = c ∧ i = (s.topic c).historyHead) →
          ((sendSealed s c t' dest).topic c').slotAt i = (s.topic c').slotAt i := by
        intro c' i hne
        by_cases hcc : c' = c
        · subst hcc
          rw [sendSealed_topic hc]
          exact hother i fun hi => hne ⟨rfl, hi⟩
        · rw [sendSealed_topic_ne hcc]
      refine ⟨hslot, fun c' i hshm => ?_⟩
      by_cases hat : c' = c ∧ i = (s.topic c).historyHead
      · obtain ⟨rfl, rfl⟩ := hat
        rw [sendSealed_topic hc, hhead] at hshm
        cases hshm
      · rw [hslot c' i hat] at hshm
        exact hshm
  · unfold sendInline at h
    rw [if_pos (by omega)] at h
    cases h

/-- A shared memory send that returns well leaves every slot but the head's. -/
theorem sendShm_slots (h : sendShm s c chunk desc = (s', .ok ())) :
    ∀ c' i, ¬ (c' = c ∧ i = (s.topic c).historyHead) →
      (s'.topic c').slotAt i = (s.topic c').slotAt i := by
  intro c' i hne
  by_cases hc : c < s.topics.length
  · rw [sendShm_eq hc] at h
    cases hw : writerSendShm s.frag (s.topic c) chunk desc with
    | refused e =>
      rw [hw] at h
      cases h
    | skipped =>
      rw [hw] at h
      cases h
      rfl
    | committed t' =>
      rw [hw] at h
      cases h
      by_cases hcc : c' = c
      · subst hcc
        rw [sendSealed_topic hc]
        exact writerSendShm_slot hw fun hi => hne ⟨rfl, hi⟩
      · rw [sendSealed_topic_ne hcc]
  · unfold sendShm at h
    rw [if_pos (by omega)] at h
    cases h

/-- What both sends refuse. -/
theorem sendShm_refused {e : SendErr} (h : sendShm s c chunk desc = (s', .error e)) :
    s.topics.length ≤ c ∨ writerTooBig s.frag chunk.length ∨ (s.topic c).role.pubs = false := by
  unfold sendShm at h
  split at h
  next hc => exact Or.inl hc
  split at h
  next hbig => exact Or.inr (Or.inl hbig)
  split at h
  next hrole =>
    refine Or.inr (Or.inr ?_)
    obtain hrole | hrole := hrole <;> rw [hrole] <;> rfl
  next => cases h

/-- What a shared memory send that returns well has passed. -/
theorem sendShm_taken (h : sendShm s c chunk desc = (s', .ok ())) :
    ¬ writerTooBig s.frag chunk.length ∧ (s.topic c).role.pubs = true := by
  unfold sendShm at h
  split at h
  next => cases h
  split at h
  next => cases h
  next hbig =>
    split at h
    next => cases h
    next hrole =>
      refine ⟨hbig, ?_⟩
      cases hr : (s.topic c).role with
      | pubSub => rfl
      | pubOnly => rfl
      | subOnly => exact absurd (Or.inl hr) hrole
      | inactive => exact absurd (Or.inr hr) hrole

theorem sendInline_refused {captureUs : Nat} {dest : Dest}
    (h : s.topics.length ≤ c ∨
      writerTooBig s.frag ((s.topic c).stampBytes captureUs + hdr.length + data.length) ∨
        (s.topic c).role.pubs = false) :
    ∃ e, sendInline s c env hdr data captureUs dest = (s, .error e) := by
  unfold sendInline
  by_cases hc : s.topics.length ≤ c
  · exact ⟨_, if_pos hc⟩
  rw [if_neg hc]
  dsimp only
  by_cases hbig : writerTooBig s.frag ((s.topic c).stampBytes captureUs + hdr.length + data.length)
  · exact ⟨_, if_pos hbig⟩
  rw [if_neg hbig]
  have hrole : (s.topic c).role = .subOnly ∨ (s.topic c).role = .inactive := by
    obtain h | h | h := h
    · exact absurd h hc
    · exact absurd h hbig
    · cases hr : (s.topic c).role <;> rw [hr] at h <;> simp_all [Role.pubs]
  exact ⟨_, if_pos hrole⟩

/-! ## Sizes -/

/-- The size computations of a send of `total` bytes, each in its own width, come to the numbers
they stand for. Behind the cap they are those of the growth and the seal. -/
structure SizesExact (frag total : Nat) : Prop where
  gathered : total % 2 ^ 64 = total
  cap : 65535 * frag % 2 ^ 32 = 65535 * frag
  rounded : ¬ writerTooBig frag total → (total + frag - 1) % 2 ^ 64 = total + frag - 1
  counted : ¬ writerTooBig frag total →
    (total + frag - 1) / frag % 2 ^ 16 = (total + frag - 1) / frag
  stored : ¬ writerTooBig frag total →
    total % 2 ^ 32 = total ∧ storeNeed total % 2 ^ 32 = storeNeed total

/-- Only the sum of the parts may overflow: the cap keeps everything behind it in range. -/
theorem sizesExact_iff (s : SendState) (total : Nat) :
    SizesExact s.frag total ↔ total < 2 ^ 64 := by
  have hpos := s.frag_pos
  have hlt := s.frag_lt
  constructor
  · intro h
    have := h.gathered
    omega
  · intro h
    refine ⟨Nat.mod_eq_of_lt h, Nat.mod_eq_of_lt (by omega), ?_, ?_, ?_⟩
    · intro hbig
      apply Nat.mod_eq_of_lt
      unfold writerTooBig at hbig
      omega
    · intro hbig
      apply Nat.mod_eq_of_lt
      have hbig : total ≤ 65535 * s.frag := Nat.le_of_not_lt hbig
      have hdiv : (total + s.frag - 1) / s.frag < 65536 := by
        rw [Nat.div_lt_iff_lt_mul hpos]
        omega
      exact hdiv
    · intro hbig
      have hbig : total ≤ 65535 * s.frag := Nat.le_of_not_lt hbig
      have hneed : storeNeed total ≤ total + 1 := by
        unfold storeNeed
        split <;> omega
      exact ⟨Nat.mod_eq_of_lt (by omega), Nat.mod_eq_of_lt (by omega)⟩

end Rant.Transport
