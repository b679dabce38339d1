import Rant.Discovery.Hooks
/-!
# Two cores that meet

Two cores and what each sent since neither assumed the other: a datagram may be delivered any
number of times, in any order, late, marked as any copy, or never. A core that takes the other
for judged has the younger overlay of the two, by the margin, so they never both do.

`Mesh.Inv` ties both clocks: what is in flight was `Said` by its sender, so the age in it is no more
than the true one at any later time (`Core.Said.later`). Who takes the other for judged heard an
age above its own by the margin, which makes it the younger (`Mesh.Inv.younger`); of two cores only
one can be.
-/

namespace Rant.Discovery

open Rant.Lib
open Rant.Transport (Bytes)

/-! ## The system -/

inductive Side
  | near
  | far
  deriving Repr, DecidableEq

def Side.other : Side → Side
  | .near => .far
  | .far => .near

/-- Two cores on one clock, and all that each sent. -/
structure Mesh where
  now : Nat
  core : Side → Core
  sent : Side → List Bytes

/-- The clock reading an event comes with. -/
def Event.clock : Event → Option Nat
  | .datagram _ _ _ now => some now
  | .update now _ => some now
  | .pollTargeted now _ => some now
  | .setMeta _ now => some now
  | _ => none

/-- One event at one side. -/
def Mesh.step (m : Mesh) (t : Side × Event) : Mesh where
  now := t.2.clock.getD m.now
  core s := if s = t.1 then ((m.core s).step t.2).1 else m.core s
  sent s := if s = t.1 then m.sent s ++ [((m.core s).step t.2).2] else m.sent s

/-- A datagram of the list, as it was sent or marked as a copy. -/
def copyOf (d : Bytes) (ds : List Bytes) : Prop := d ∈ ds ∨ ∃ b ∈ ds, ∃ mark, d = markCopy b mark

/-- The clock never goes back, no side changes its metadata, and what a side hears the other
sent or is of another uuid. -/
def Mesh.Fair (m : Mesh) (t : Side × Event) : Prop :=
  (∀ now, t.2.clock = some now → m.now ≤ now) ∧
    match t.2 with
    | .setMeta _ _ => False
    | .datagram _ _ d _ => copyOf d (m.sent t.1.other) ∨
        (decode d).2.uuid ≠ (m.core t.1.other).cfg.uuid
    | _ => True

/-- It takes a uuid for judged whose blob it did not judge since it has a record of it. -/
def Core.Assumes (st : Core) (uuid : Bytes) : Prop :=
  ∃ i r, st.recAt i = some r ∧ r.uuid = uuid ∧ r.metaVersion ≠ 0 ∧
    ∀ v, Mark.judged r.localId uuid v ∉ st.trace

/-- Each side takes the other for judged, and neither judged the other. -/
def Mesh.BothAssume (m : Mesh) : Prop :=
  (m.core .near).Assumes (m.core .far).cfg.uuid ∧ (m.core .far).Assumes (m.core .near).cfg.uuid

/-! ## What a core sends -/

theorem hasFlag_markFlags {flags : Nat} (h : flags < 256) (mark : CopyMark) :
    hasFlag (markFlags flags mark) flagBlob = hasFlag flags flagBlob ∧
      hasFlag (markFlags flags mark) flagBye = hasFlag flags flagBye ∧ markFlags flags mark < 256 := by
  have hall : ∀ mark ∈ [CopyMark.group, .uni, .plain], ∀ flags < 256,
      hasFlag (markFlags flags mark) flagBlob = hasFlag flags flagBlob ∧
        hasFlag (markFlags flags mark) flagBye = hasFlag flags flagBye ∧
          markFlags flags mark < 256 := by
    decide +kernel
  exact hall mark (by cases mark <;> simp) flags h

/-- The flags are the sixth byte. -/
theorem encodeBytes_flags (w : Wire) : ∃ rest, ∀ flags, hasFlag flags flagBlob = hasFlag w.flags flagBlob →
    encodeBytes { w with flags := flags } = magic ++ writeLe 1 wireVersion ++ (writeLe 1 flags ++ rest) := by
  obtain ⟨o, ho⟩ : ∃ o, o = if hasFlag w.flags flagBlob then w.overlay else [] := ⟨_, rfl⟩
  refine ⟨writeLe 2 w.domain ++ (w.uuid ++ (writeLe 4 w.version ++ (writeLe 4 w.changedAgoMs ++
    (writeLe 2 o.length ++ (writeLe 2 w.dataPort ++ (writeLe 1 (w.name.take nodeNameMax).length ++
      (w.name.take nodeNameMax ++ o))))))), fun flags hflags => ?_⟩
  unfold encodeBytes
  dsimp only
  rw [hflags, ← ho, List.append_assoc]

/-- A copy is the datagram of the marked flags. -/
theorem markCopy_encodeBytes {w : Wire} (h : w.Fits) (mark : CopyMark) :
    markCopy (encodeBytes w) mark = encodeBytes { w with flags := markFlags w.flags mark } := by
  obtain ⟨rest, hrest⟩ := encodeBytes_flags w
  obtain ⟨hblob, -, hlt⟩ := hasFlag_markFlags h.flags mark
  have hw : encodeBytes w = magic ++ writeLe 1 wireVersion ++ (writeLe 1 w.flags ++ rest) :=
    hrest w.flags rfl
  have hlen : ¬ (encodeBytes w).length ≤ 5 := by
    rw [length_encodeBytes h, show fixedLen = 37 from rfl]
    omega
  have hflags : leAt (encodeBytes w) 5 1 = w.flags :=
    (leAt_front (by rw [hw]; exact List.drop_left' rfl) h.flags).1
  unfold markCopy
  rw [if_neg hlen, hflags, hrest _ hblob, hw, List.set_append_right _ _ (Nat.le_refl 5)]
  show _ ++ UInt8.ofNat (markFlags w.flags mark) :: rest =
    _ ++ UInt8.ofNat (markFlags w.flags mark % 256) :: rest
  rw [Nat.mod_eq_of_lt hlt]

/-- What a core may have sent by the clock reading. -/
def Core.Said (st : Core) (now : Nat) (d : Bytes) : Prop :=
  d = [] ∨ ∃ w : Wire, w.Fits ∧ d = encodeBytes w ∧
    (hasFlag w.flags flagBye = true ∨
      st.started = true ∧ w.uuid = st.cfg.uuid ∧ w.changedAgoMs * 1000 ≤ now - st.changed)

variable {st : Core}

/-- A marked copy tells of its sender what the original does. -/
theorem Core.Said.copy {now : Nat} {d : Bytes} (h : st.Said now d) (mark : CopyMark) :
    st.Said now (markCopy d mark) := by
  rcases h with rfl | ⟨w, hfits, rfl, hw⟩
  · exact Or.inl rfl
  · have hf := hasFlag_markFlags hfits.flags mark
    refine Or.inr ⟨{ w with flags := markFlags w.flags mark }, ?_, markCopy_encodeBytes hfits mark, ?_⟩
    · exact ⟨hf.2.2, hfits.domain, hfits.uuid, hfits.version, hfits.changedAgoMs, hfits.dataPort,
        hfits.name, hfits.overlay⟩
    · rw [show hasFlag ({ w with flags := markFlags w.flags mark } : Wire).flags flagBye =
        hasFlag w.flags flagBye from hf.2.1]
      exact hw

/-- What a datagram of a core needs to be read back. -/
def Core.Fit (st : Core) : Prop := st.selfName.length ≤ nodeNameMax ∧ st.selfVersion < 2 ^ 32

theorem Core.Fit.of_own {st' : Core} (h : st.Fit) (hname : st'.selfName = st.selfName)
    (hversion : st'.selfVersion = st.selfVersion) : st'.Fit := by
  unfold Core.Fit
  rw [hname, hversion]
  exact h

/-- The age sent fits its field and is no more than the true one. -/
theorem changeAgeMs_le (st : Core) :
    st.changeAgeMs < 2 ^ 32 ∧ st.changeAgeMs * 1000 ≤ st.now - st.changed := by
  unfold Core.changeAgeMs
  have hmin := Nat.min_le_left (if st.now > st.changed then (st.now - st.changed) / 1000 else 0) 0xFFFFFFFF
  have hcap := Nat.min_le_right (if st.now > st.changed then (st.now - st.changed) / 1000 else 0) 0xFFFFFFFF
  refine ⟨Nat.lt_of_le_of_lt hcap (by decide), Nat.le_trans (Nat.mul_le_mul_right 1000 hmin) ?_⟩
  split
  next => exact Nat.div_mul_le_self _ 1000
  next => exact Nat.zero_le _

/-- What a core builds it may say. -/
theorem build_said (h : st.Fit) {flags : Nat} (hflags : flags < 256) (withBlob : Bool)
    (cap : Nat) {t : Nat} (hs : st.started = true ∧ st.now = t ∨ hasFlag flags flagBye = true) :
    st.Said t (st.build flags withBlob cap) := by
  obtain ⟨w, hw⟩ : ∃ w, w = st.wireOf flags withBlob := ⟨_, rfl⟩
  have hwf : w.flags = flags ||| (if withBlob then flagBlob else 0) := by rw [hw]; rfl
  have hwlt : w.flags < 256 := by
    rw [hwf]
    refine Nat.or_lt_two_pow (n := 8) hflags ?_
    cases withBlob <;> decide
  have hbye : hasFlag flags flagBye = true → hasFlag w.flags flagBye = true := by
    intro hb
    rw [hwf]
    have hall : ∀ flags < 256, ∀ b : Bool, hasFlag flags flagBye = true →
        hasFlag (flags ||| (if b then flagBlob else 0)) flagBye = true := by decide +kernel
    exact hall flags hflags withBlob hb
  unfold Core.build
  rw [← hw]
  unfold encode
  dsimp only
  obtain ⟨rest, hrest⟩ : ∃ o, o = if hasFlag w.flags flagBlob then w.overlay else [] := ⟨_, rfl⟩
  rw [← hrest]
  split
  next => exact Or.inl rfl
  next hfit =>
    have holen : rest.length ≤ 0xFFFF := by omega
    -- only a datagram with the blob has an overlay
    have hsame : encodeBytes w = encodeBytes { w with overlay := rest } := by
      unfold encodeBytes
      dsimp only
      rw [hrest]
      split <;> rfl
    refine Or.inr ⟨{ w with overlay := rest }, ⟨hwlt, ?_, ?_, ?_, ?_, ?_, ?_, holen⟩, hsame, ?_⟩
    · rw [hw]
      exact st.cfg.domainLt
    · rw [hw]
      exact st.cfg.uuidLen
    · rw [hw]
      exact h.2
    · rw [hw]
      exact (changeAgeMs_le st).1
    · rw [hw]
      exact st.cfg.dataPortLt
    · rw [hw]
      exact h.1
    · refine hs.symm.imp hbye fun hs => ⟨hs.1, ?_, ?_⟩
      · rw [hw]
        rfl
      · rw [hw, ← hs.2]
        exact (changeAgeMs_le st).2

/-! ## What an event does to what a core is -/

/-- What a core that opens becomes. -/
def Core.opened (st : Core) (now : Nat) : Core :=
  { st with now := now, started := true, changed := now }

/-- What a core is to the others moves with its clock, and once at its opening. -/
theorem own_step {A : Ground} (h : Inv A settled st) (e : Event)
    (hmeta : ∀ blob now, e ≠ .setMeta blob now) :
    (st.step e).1.own = Core.own { st with now := e.clock.getD st.now } ∨
      st.started = false ∧ ∃ now, e.clock = some now ∧ (st.step e).1.own = (st.opened now).own := by
  have h : Inv ⟨fun _ => True, st.own⟩ settled st := h.mono (fun _ _ => trivial) rfl
  cases e with
  | datagram env src d now => exact Or.inl (h.onDatagram env src d now fun _ _ => trivial).own
  | update now cap =>
    by_cases hs : st.started = true
    case neg =>
      rw [Bool.not_eq_true] at hs
      refine Or.inr ⟨hs, now, rfl, ?_⟩
      show (st.update now cap).1.own = _
      unfold Core.update
      dsimp only
      rw [hs]
      rfl
    case pos =>
      have hnow : Inv ⟨fun _ => True, Core.own { st with now := now }⟩ settled { st with now := now } :=
        h.reown rfl rfl rfl
      refine Or.inl (Eq.trans ?_ (hnow.tick now).own)
      show (st.update now cap).1.own = _
      unfold Core.update
      dsimp only
      rw [hs, Bool.not_true]
      rw [if_neg Bool.false_ne_true]
      split
      next => rfl
      split
      next => rfl
      next => split <;> rfl
  | pollTargeted now cap =>
    rw [step_pollTargeted]
    exact Or.inl (quiet_pollTargeted st now cap).own
  | setMeta blob now => exact absurd rfl (hmeta blob now)
  | setLocalSubnets nets => exact Or.inl rfl
  | solicit => exact Or.inl rfl
  | replayPeers env => exact Or.inl (h.replayPeers env).own
  | rejudge env id => exact Or.inl (h.rejudge env id).own
  | refetchUnmatched check => exact Or.inl (minor_foldl (minor_refetchAt check) _ st).quiet.own
  | migrate maxPeers metaCap hlt => exact Or.inl (minor_migrate st maxPeers metaCap hlt).quiet.own
  | leave cap => exact Or.inl rfl

/-- So what it sends to one. -/
theorem said_pollTargeted (hfit : st.Fit) (now cap : Nat) :
    ∀ a d, (st.pollTargeted now cap).2 = some (a, d) → (st.pollTargeted now cap).1.Said now d := by
  intro a d
  unfold Core.pollTargeted
  dsimp only
  split
  next => exact fun h => (by cases h)
  next hs =>
    rw [Bool.not_eq_true, Bool.not_eq_false'] at hs
    split
    next k _ =>
      intro h
      cases h
      refine build_said ?_ ?_ true cap (Or.inl ⟨hs, rfl⟩)
      · exact hfit.of_own rfl rfl
      · split <;> decide
    next =>
      split
      next => exact fun h => (by cases h)
      next i _ =>
        split
        next => exact fun h => (by cases h)
        next x _ =>
          intro h
          cases h
          have hown := ((quiet_settle { st with now := now } i oweReply).trans
            (quiet_askSent _ i now)).own
          refine build_said ?_ ?_ true cap (Or.inl ⟨?_, ?_⟩)
          · exact hfit.of_own (congrArg (·.2.2.2.1) hown) (congrArg (·.2.2.2.2.1) hown)
          · split <;> split <;> decide
          · exact (congrArg (·.1) hown).trans hs
          · exact congrArg (·.2.2.2.2.2) hown

/-- What an event sends is what its core may say. -/
theorem said_step {A : Ground} (h : Inv A settled st) (hfit : st.Fit) (e : Event) (t : Nat) :
    (st.step e).1.Said (e.clock.getD t) (st.step e).2 := by
  cases e with
  | update now cap =>
    show (st.update now cap).1.Said now (st.update now cap).2
    unfold Core.update
    dsimp only
    split
    next =>
      refine build_said ?_ ?_ true cap (Or.inl ⟨rfl, rfl⟩)
      · exact hfit.of_own rfl rfl
      split
      next =>
        unfold Core.reqFlags
        split <;> decide
      next => decide
    next hs =>
      have hs : st.started = true := by
        cases hst : st.started with
        | true => rfl
        | false =>
          rw [hst] at hs
          exact absurd rfl hs
      have hnow : Inv ⟨A.assumed, Core.own { st with now := now }⟩ settled { st with now := now } :=
        h.reown rfl rfl rfl
      have hown := (hnow.tick now).own
      obtain ⟨st', hst'⟩ : ∃ st', st' = Core.tick { st with now := now } now := ⟨_, rfl⟩
      rw [← hst'] at hown ⊢
      have hstarted : st'.started = true := (congrArg (·.1) hown).trans hs
      have hnow' : st'.now = now := congrArg (·.2.2.2.2.2) hown
      have hfit' : st'.Fit := hfit.of_own (congrArg (·.2.2.2.1) hown) (congrArg (·.2.2.2.2.1) hown)
      split
      next =>
        refine build_said ?_ ?_ true cap (Or.inl ⟨hstarted, hnow'⟩)
        · exact hfit'.of_own rfl rfl
        unfold Core.reqFlags
        split <;> decide
      next =>
        split
        next =>
          refine build_said ?_ (by decide) true cap (Or.inl ⟨hstarted, hnow'⟩)
          exact hfit'.of_own rfl rfl
        split
        next =>
          refine build_said ?_ (by decide) _ cap (Or.inl ⟨hstarted, hnow'⟩)
          exact hfit'.of_own rfl rfl
        next => exact Or.inl rfl
  | pollTargeted now cap =>
    show (st.step (.pollTargeted now cap)).1.Said now (st.step (.pollTargeted now cap)).2
    rw [step_pollTargeted]
    have hsaid := said_pollTargeted hfit now cap
    unfold Core.step
    dsimp only
    obtain ⟨o, ho⟩ : ∃ o, o = st.pollTargeted now cap := ⟨_, rfl⟩
    rw [← ho] at hsaid ⊢
    rcases o with ⟨st', _ | ⟨a, d⟩⟩
    · exact Or.inl rfl
    · exact hsaid a d rfl
  | leave cap =>
    exact build_said hfit (by decide) false cap (Or.inr (by decide))
  | datagram | setMeta | setLocalSubnets | solicit | replayPeers | rejudge | refetchUnmatched | migrate =>
    exact Or.inl rfl

/-! ## Who is younger -/

/-- The side's overlay is out since the margin after the other's, or is not out yet. -/
def Mesh.Younger (m : Mesh) (s : Side) : Prop :=
  (m.core s.other).started = true ∧ (m.core s.other).changed + judgeMarginUs <
    if (m.core s).started = true then (m.core s).changed else m.now

/-- What a side may assume of the other. -/
def Mesh.ground (m : Mesh) (s : Side) : Ground :=
  ⟨fun uuid => uuid = (m.core s.other).cfg.uuid → m.Younger s, (m.core s).own⟩

structure Mesh.Inv (m : Mesh) : Prop where
  core : ∀ s, Discovery.Inv (m.ground s) settled (m.core s)
  fit : ∀ s, (m.core s).Fit
  said : ∀ s, ∀ d ∈ m.sent s, (m.core s).Said m.now d

/-- What both sides are to each other, after the turn as before it. -/
structure Mesh.Later (m m' : Mesh) (s : Side) : Prop where
  now : m.now ≤ m'.now
  uuid : (m'.core s).cfg.uuid = (m.core s).cfg.uuid
  own : (m'.core s).started = (m.core s).started ∧ (m'.core s).changed = (m.core s).changed ∨
    (m.core s).started = false ∧ (m'.core s).started = true ∧ (m'.core s).changed = m'.now
  fit : (m.core s).Fit → (m'.core s).Fit

theorem Side.other_ne (s : Side) : s.other ≠ s := by
  cases s <;> exact fun h => (by cases h)

theorem Side.eq_or_other (s t : Side) : s = t ∨ s = t.other := by
  cases s <;> cases t <;> first | exact Or.inl rfl | exact Or.inr rfl

variable {t : Side × Event} {m : Mesh}

theorem Mesh.step_now (h : m.Fair t) : m.now ≤ (m.step t).now := by
  have hclock := h.1
  show m.now ≤ t.2.clock.getD m.now
  cases hc : t.2.clock with
  | none => exact Nat.le_refl _
  | some now => exact hclock now hc

theorem Mesh.fair_setMeta (h : m.Fair t) :
    ∀ blob now, t.2 ≠ .setMeta blob now := by
  intro blob now hc
  obtain ⟨-, h⟩ := h
  rw [hc] at h
  exact h

theorem Mesh.core_step_self (m : Mesh) (t : Side × Event) :
    (m.step t).core t.1 = ((m.core t.1).step t.2).1 := if_pos rfl

theorem Mesh.core_step_other (m : Mesh) (t : Side × Event) :
    (m.step t).core t.1.other = m.core t.1.other := if_neg t.1.other_ne

/-- Time and the versions only grow. -/
theorem Mesh.later_step (h : m.Inv) (hf : m.Fair t) (s : Side) :
    m.Later (m.step t) s := by
  have hnow := Mesh.step_now hf
  rcases s.eq_or_other t.1 with hs | hs
  · subst hs
    have hcore := m.core_step_self t
    refine ⟨hnow, ?_, ?_, ?_⟩ <;> rw [hcore]
    · rcases own_step (h.core t.1) t.2 (Mesh.fair_setMeta hf) with ho | ⟨-, now, -, ho⟩ <;>
        exact congrArg (·.2.2.1) ho
    · rcases own_step (h.core t.1) t.2 (Mesh.fair_setMeta hf) with ho | ⟨hs, now, hc, ho⟩
      · exact Or.inl ⟨congrArg (·.1) ho, congrArg (·.2.1) ho⟩
      · refine Or.inr ⟨hs, congrArg (·.1) ho, ?_⟩
        show _ = t.2.clock.getD m.now
        rw [hc]
        exact congrArg (·.2.1) ho
    · intro hfit
      rcases own_step (h.core t.1) t.2 (Mesh.fair_setMeta hf) with ho | ⟨-, now, -, ho⟩ <;>
        exact hfit.of_own (congrArg (·.2.2.2.1) ho) (congrArg (·.2.2.2.2.1) ho)
  · subst hs
    have hcore := m.core_step_other t
    refine ⟨hnow, ?_, ?_, ?_⟩ <;> rw [hcore]
    · exact Or.inl ⟨rfl, rfl⟩
    · exact id

variable {s : Side}

/-- Who was up still is, and changed when it did. -/
theorem Mesh.Later.up {m' : Mesh} (h : m.Later m' s) (hs : (m.core s).started = true) :
    (m'.core s).started = true ∧ (m'.core s).changed = (m.core s).changed := by
  rcases h.own with ⟨h1, h2⟩ | ⟨h1, -, -⟩
  · exact ⟨h1.trans hs, h2⟩
  · rw [hs] at h1
    cases h1

/-- Who is younger stays so. -/
theorem Mesh.Younger.later {m' : Mesh} (h : m.Younger s) (hl : ∀ s, m.Later m' s) :
    m'.Younger s := by
  obtain ⟨hs, hlt⟩ := h
  have hother := (hl s.other).up hs
  refine ⟨hother.1, ?_⟩
  rw [hother.2]
  have hnow := (hl s).now
  rcases (hl s).own with ⟨h1, h2⟩ | ⟨h1, h2, h3⟩
  · rw [h1, h2]
    split
    next hst =>
      rw [if_pos hst] at hlt
      exact hlt
    next hst =>
      rw [if_neg hst] at hlt
      omega
  · rw [if_pos h2, h3]
    rw [if_neg (by rw [h1]; exact Bool.false_ne_true)] at hlt
    omega

/-- What was said holds of its sender later too. -/
theorem Core.Said.later {m' : Mesh} (hl : m.Later m' s) {d : Bytes}
    (h : (m.core s).Said m.now d) : (m'.core s).Said m'.now d := by
  rcases h with h | ⟨w, hfits, hd, hw⟩
  · exact Or.inl h
  · refine Or.inr ⟨w, hfits, hd, hw.imp id ?_⟩
    rintro ⟨hs, hu, hage⟩
    have hnow := hl.now
    rcases hl.own with ⟨h1, h2⟩ | ⟨h1, -, -⟩
    · refine ⟨h1.trans hs, hu.trans hl.uuid.symm, ?_⟩
      rw [h2]
      omega
    · rw [hs] at h1
      cases h1

/-- What the other side's datagram makes a side assume: the other's age is more than its own. -/
theorem Mesh.Younger.of_said {m' : Mesh} (hl : ∀ s, m.Later m' s) {d : Bytes}
    (h : (m.core s.other).Said m.now d) (hbye : hasFlag (decode d).2.flags flagBye = false)
    (hold : (m.ground s).Older (decode d).2 m'.now) : m'.Younger s := by
  unfold Ground.Older at hold
  rcases h with rfl | ⟨w, hfits, rfl, hw⟩
  · -- nothing was sent
    have hzero : (decode []).2.changedAgoMs = 0 := rfl
    rw [hzero] at hold
    omega
  · rw [decode_encode hfits] at hbye hold
    have hage : w.changedAgoMs * 1000 >
        (if (m.core s).started && m'.now > (m.core s).changed then m'.now - (m.core s).changed else 0) +
          judgeMarginUs := hold
    rcases hw with hw | ⟨hs, -, hle⟩
    · have hbye' : hasFlag w.flags flagBye = false := hbye
      rw [hw] at hbye'
      cases hbye'
    · have hnow := (hl s).now
      have hother := (hl s.other).up hs
      refine ⟨hother.1, ?_⟩
      rw [hother.2]
      rcases (hl s).own with ⟨h1, h2⟩ | ⟨h1, h2, h3⟩
      · rw [h1, h2]
        split
        next hst =>
          rw [hst, Bool.true_and] at hage
          split at hage
          next => omega
          next hle' =>
            have hle' : ¬ m'.now > (m.core s).changed := fun hc => hle' (decide_eq_true hc)
            omega
        next => omega
      · rw [if_pos h2, h3]
        omega

/-! ## Neither assumes the other while it is assumed -/

/-- Every fair step keeps the invariant of the two. -/
theorem Mesh.Inv.step (h : m.Inv) (hf : m.Fair t) : (m.step t).Inv := by
  have hl := Mesh.later_step h hf
  have hyoung : ∀ s, ∀ uuid, (m.ground s).assumed uuid → ((m.step t).ground s).assumed uuid := by
    intro s uuid hg hu
    refine Mesh.Younger.later (hg ?_) hl
    rw [hu, (hl s.other).uuid]
  refine ⟨fun s => ?_, fun s => (hl s).fit (h.fit s), fun s d hd => ?_⟩
  · rcases s.eq_or_other t.1 with hs | hs
    · subst hs
      have hstep : Discovery.Inv ⟨((m.step t).ground t.1).assumed, (m.core t.1).own⟩ settled
          (m.core t.1) := (h.core t.1).mono (hyoung t.1) rfl
      have hnext := hstep.step t.2 ?_
      · rw [← m.core_step_self t] at hnext
        exact hnext
      · obtain ⟨s, e⟩ := t
        cases e with
        | datagram env src d now =>
          intro hbye hold hu
          rcases hf.2 with hcopy | hforeign
          · refine Mesh.Younger.of_said hl ?_ hbye hold
            rcases hcopy with hmem | ⟨b, hmem, mark, rfl⟩
            · exact h.said s.other d hmem
            · exact (h.said s.other b hmem).copy mark
          · exact absurd (hu.trans (hl s.other).uuid) hforeign
        | _ => trivial
    · subst hs
      have hsame := (h.core t.1.other).mono (B := ⟨((m.step t).ground t.1.other).assumed,
        (m.core t.1.other).own⟩) (hyoung t.1.other) rfl
      rw [← m.core_step_other t] at hsame
      exact hsame
  · rcases s.eq_or_other t.1 with hs | hs
    · subst hs
      have hsent : (m.step t).sent t.1 = m.sent t.1 ++ [((m.core t.1).step t.2).2] := if_pos rfl
      rw [hsent] at hd
      rcases List.mem_append.mp hd with hd | hd
      · exact (h.said t.1 d hd).later (hl t.1)
      · rw [List.mem_singleton.mp hd, m.core_step_self t]
        exact said_step (h.core t.1) (h.fit t.1) t.2 m.now
    · subst hs
      have hsent : (m.step t).sent t.1.other = m.sent t.1.other := if_neg t.1.other_ne
      rw [hsent] at hd
      exact (h.said t.1.other d hd).later (hl t.1.other)

/-- Who assumes is the younger. -/
theorem Mesh.Inv.younger (h : m.Inv)
    (ha : (m.core s).Assumes (m.core s.other).cfg.uuid) : m.Younger s := by
  obtain ⟨i, r, hr, hu, hv, hno⟩ := ha
  rcases ((h.core s).calm i r hr).judged hv with ⟨v, hj⟩ | hg
  · rw [hu] at hj
    exact absurd hj (hno v)
  · exact hg hu

/-- Both cannot be the younger. -/
theorem Mesh.Inv.not_both (h : m.Inv) : ¬ m.BothAssume := by
  rintro ⟨hn, hf⟩
  obtain ⟨hfar, hlt⟩ : m.Younger .near := h.younger hn
  obtain ⟨hnear, hgt⟩ : m.Younger .far := h.younger hf
  rw [if_pos (show (m.core .near).started = true from hnear)] at hlt
  rw [if_pos (show (m.core .far).started = true from hfar)] at hgt
  have hlt : (m.core .far).changed + judgeMarginUs < (m.core .near).changed := hlt
  have hgt : (m.core .near).changed + judgeMarginUs < (m.core .far).changed := hgt
  omega

theorem init_fit {cfg : Config} (h : Core.init cfg = some st) : st.Fit := by
  unfold Core.init at h
  split at h
  next => cases h
  obtain ⟨records, -, hst⟩ := Option.map_eq_some_iff.mp h
  rw [← hst]
  exact ⟨List.length_take_le _ _, show 1 < 2 ^ 32 by decide⟩

/-- A core's name and version fit the wire in every run. -/
theorem fit_runs {cfg : Config} (h : Core.init cfg = some st) (es : List Event) :
    (st.runs es).Fit := by
  refine (run_invariant (fun st => Inv (.any st) settled st ∧ st.Fit) ?_ es st
    ⟨inv_of_runs h [], init_fit h⟩).2
  rintro st e ⟨hI, hfit⟩
  refine ⟨hI.runs [e], ?_⟩
  by_cases hmeta : ∃ blob now, e = .setMeta blob now
  · obtain ⟨blob, now, rfl⟩ := hmeta
    show (st.setMeta blob now).Fit
    unfold Core.setMeta
    split
    next => exact hfit
    next => exact ⟨hfit.1, Nat.mod_lt _ (by decide)⟩
  · rcases own_step hI e (fun blob now he => hmeta ⟨blob, now, he⟩) with ho | ⟨-, now, -, ho⟩ <;>
      exact hfit.of_own (congrArg (·.2.2.2.1) ho) (congrArg (·.2.2.2.2.1) ho)

/-- Two cores, each after a run of its own, with nothing between them yet. -/
def meet (now : Nat) (near far : Core) : Mesh where
  now := now
  core s := match s with
    | .near => near
    | .far => far
  sent _ := []

/-- Two cores that have not assumed each other meet in the invariant. -/
theorem meet_inv {nearCfg farCfg : Config} {near far : Core} (hn : Core.init nearCfg = some near)
    (hf : Core.init farCfg = some far) (nearEs farEs : List Event) (now : Nat)
    (hnear : ¬ (near.runs nearEs).Assumes (far.runs farEs).cfg.uuid)
    (hfar : ¬ (far.runs farEs).Assumes (near.runs nearEs).cfg.uuid) :
    (meet now (near.runs nearEs) (far.runs farEs)).Inv := by
  have hcore : ∀ {st : Core} {A : Ground}, Inv (.any st) settled st → A.own = st.own →
      (∀ uuid, A.assumed uuid ∨ ¬ st.Assumes uuid) → Inv A settled st := by
    intro st A hI hown hA
    refine ⟨hI.store, hI.seats, fun i r hr => ?_, hI.fair, hI.told, hown.symm⟩
    have hc := hI.calm i r hr
    refine ⟨hc.want, hc.full, hc.version, fun hv => ?_⟩
    rcases hA r.uuid with ha | hno
    · exact Or.inr ha
    · refine Or.inl (Classical.byContradiction fun hj => hno ⟨i, r, hr, rfl, hv, fun v hv => hj ⟨v, hv⟩⟩)
  refine ⟨fun s => ?_, fun s => ?_, fun s d hd => (by cases hd)⟩
  · cases s with
    | near =>
      refine hcore (inv_of_runs hn nearEs) rfl fun uuid => ?_
      by_cases hu : uuid = (far.runs farEs).cfg.uuid
      · exact Or.inr (by rw [hu]; exact hnear)
      · exact Or.inl fun hc => absurd hc hu
    | far =>
      refine hcore (inv_of_runs hf farEs) rfl fun uuid => ?_
      by_cases hu : uuid = (near.runs nearEs).cfg.uuid
      · exact Or.inr (by rw [hu]; exact hfar)
      · exact Or.inl fun hc => absurd hc hu
  · cases s with
    | near => exact fit_runs hn nearEs
    | far => exact fit_runs hf farEs

/-- **Two cores never both take each other for judged**, whatever each did before, however
their datagrams are lost, delayed, reordered or doubled, and whatever else they hear. -/
theorem never_both_assume {nearCfg farCfg : Config} {near far : Core}
    (hn : Core.init nearCfg = some near) (hf : Core.init farCfg = some far)
    (nearEs farEs : List Event) (now : Nat)
    (hnear : ¬ (near.runs nearEs).Assumes (far.runs farEs).cfg.uuid)
    (hfar : ¬ (far.runs farEs).Assumes (near.runs nearEs).cfg.uuid)
    (turns : List (Side × Event))
    (hturns : Along Mesh.step Mesh.Fair (meet now (near.runs nearEs) (far.runs farEs)) turns) :
    ¬ (run Mesh.step (meet now (near.runs nearEs) (far.runs farEs)) turns).BothAssume :=
  (run_invariant_along Mesh.Inv (fun _ _ h hf => h.step hf) turns _
    (meet_inv hn hf nearEs farEs now hnear hfar) hturns).not_both

/-- A turn on the clock, in which a side hears the other or sends. -/
def Mesh.turned (m : Mesh) : Side × Event → Bool
  | (s, .datagram _ _ d now) => m.now ≤ now && (m.sent s.other).contains d
  | (_, .update now _) => m.now ≤ now
  | _ => false

theorem Mesh.fair_of_turned (h : m.turned t = true) : m.Fair t := by
  obtain ⟨s, e⟩ := t
  cases e with
  | datagram env src d at' =>
    obtain ⟨hle, hsent⟩ := Bool.and_eq_true_iff.mp h
    refine ⟨fun now hnow => ?_, Or.inl (Or.inl (List.contains_iff_mem.mp hsent))⟩
    cases hnow
    exact of_decide_eq_true hle
  | update at' cap =>
    refine ⟨fun now hnow => ?_, trivial⟩
    cases hnow
    exact of_decide_eq_true h
  | _ => cases h

/-- A node that asks its hook whom to admit. -/
def curious (tag : UInt8) : Config :=
  { lone tag with admits := true, blob := [tag], interval := 1000000 }

/-- The beacon of a tag, whose overlay it leaves out. -/
def beacon (tag : UInt8) (ageMs now : Nat) : Event :=
  .datagram {} (some ⟨[10, 0, 0, tag], 7⟩) (encodeBytes
    { uuid := List.replicate 16 tag, version := 1, changedAgoMs := ageMs, dataPort := 7 }) now

/-- The near node opens two seconds after the far one, hears its beacon, and is heard. -/
def lateOpening : List (Side × Event) :=
  [(.far, .update 5 2000), (.far, .update 600000 2000), (.far, .update 1000000 2000),
    (.near, .update 1900000 2000), (.far, .update 2000000 2000), (.near, beacon 2 1999 2000001),
    (.near, .update 2300000 2000), (.near, .update 2900000 2000), (.near, .update 3900000 2000),
    (.far, beacon 1 2000 3900001)]

/-- The younger takes the older for judged, which then takes it for no such thing. -/
theorem never_both_assume_pair : ∃ near far, Core.init (curious 1) = some near ∧
    Core.init (curious 2) = some far ∧
    ((run Mesh.step (meet 0 (near.runs []) (far.runs [])) lateOpening).core .near).Assumes
      (List.replicate 16 2) ∧
    ¬ (run Mesh.step (meet 0 (near.runs []) (far.runs [])) lateOpening).BothAssume := by
  obtain ⟨near, hn⟩ : ∃ st, Core.init (curious 1) = some st := ⟨_, rfl⟩
  obtain ⟨far, hf⟩ : ∃ st, Core.init (curious 2) = some st := ⟨_, rfl⟩
  have hrun : (Core.init (curious 1)).all fun near => (Core.init (curious 2)).all fun far =>
      Along Mesh.step (fun m t => m.turned t = true) (meet 0 (near.runs []) (far.runs []))
          lateOpening ∧
        let st := (run Mesh.step (meet 0 (near.runs []) (far.runs [])) lateOpening).core .near
        (st.recAt 0).any (fun r => r.uuid = List.replicate 16 2 ∧ r.metaVersion ≠ 0) ∧
          st.trace = [.added 1 (List.replicate 16 2), .seen 1 ⟨[10, 0, 0, 2], 7⟩ true] := by
    decide +kernel
  rw [hn, hf, Option.all_some, Option.all_some, decide_eq_true_iff] at hrun
  obtain ⟨hturns, hrec, htrace⟩ := hrun
  obtain ⟨r, hr, hjudged⟩ := (Option.any_eq_true _ _).mp hrec
  obtain ⟨huuid, hversion⟩ := of_decide_eq_true hjudged
  refine ⟨near, far, hn, hf, ⟨0, r, hr, huuid, hversion, fun v hv => ?_⟩,
    never_both_assume hn hf [] [] 0 ?_ ?_ _ ?_⟩
  · rw [htrace] at hv
    simp at hv
  · rintro ⟨i, r, hr, -⟩
    exact recAt_init hn i r hr
  · rintro ⟨i, r, hr, -⟩
    exact recAt_init hf i r hr
  · exact along_of_invariant (fun _ => True) (fun _ _ _ ht => ⟨trivial, Mesh.fair_of_turned ht⟩) _ _
      trivial hturns

end Rant.Discovery
