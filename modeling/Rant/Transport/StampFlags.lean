import Rant.Lib.Run
import Rant.Transport.InterestApply
/-!
# The stamp flag of a reader lane

A reader strips the stamp its peer prepends unless its `noTimestamp` flag says there is none, so
the flag should be the attribute of the entry that publishes to the topic now (`Publishes`). An
apply puts the flag on for every position bound to the topic that carries the attribute,
whether it publishes or is parked, and a reader that stays keeps the flag it had.

`FlagClean` is what the state before an apply has to be for the flag to come out right, and
`applyPeerInterest_flag` shows it is that exactly. `flags_follow_publisher` is the same along
any history of announces and verdicts.
-/

namespace Rant.Transport

open Rant.Lib

/-! ## Publishing entries -/

/-- An entry publishes to topic `c`: its verified name is bound to it, and the gates of kind, QoS
and schema let it in. -/
structure Publishes (ts : List Topic) (e : InterestEntry) (v : Verdict) (c : Nat) : Prop where
  pub : e.theirPub = true
  named : v.named = true
  bound : v.boundTo = c
  known : c < ts.length
  hash : (topicAt ts c).hash32 = e.hash
  current : outlived ts c = false
  present : (topicAt ts c).retired = false
  kind : e.kind = (topicAt ts c).kind.code
  qos : ((topicAt ts c).role.subs && decide (topicAt ts c).reliable && !e.reliable) = false
  readOk : v.readOk = true

/-- A position bound to topic `c` carries `RANT_ATTR_NO_TIMESTAMP`. -/
def Verdict.Carries (v : Verdict) (c : Nat) : Prop := v.noTimestamp = true ∧ v.boundTo = c

/-- An entry takes the verdict off its position: the slot was rebound, or the entry no longer
names the topic the verdict bound. -/
def Verdict.ShedBy (ts : List Topic) (v : Verdict) (cell : InterestEntry × Nat) : Prop :=
  (v.gen ≠ cell.2 ∧ v.unrefused.astate ≠ 0) ∨
    (cell.1.role ≠ .inactive ∧ v.named = true ∧ v.boundTo < ts.length ∧
      ((topicAt ts v.boundTo).hash32 ≠ cell.1.hash ∨ outlived ts v.boundTo = true))

/-! ## What one entry makes of its verdict -/

variable {ts : List Topic} {e : InterestEntry} {v : Verdict} {c : Nat}

/-- Only the name, the binding and the read gate of a verdict count. -/
theorem Publishes.congr {v' : Verdict} (h : Publishes ts e v c) (hn : v'.named = v.named)
    (hb : v'.boundTo = v.boundTo) (hr : v'.readOk = v.readOk) : Publishes ts e v' c where
  pub := h.pub
  named := hn.trans h.named
  bound := hb.trans h.bound
  known := h.known
  hash := h.hash
  current := h.current
  present := h.present
  kind := h.kind
  qos := h.qos
  readOk := hr.trans h.readOk

theorem role_of_pub (h : e.theirPub = true) : e.role ≠ .inactive := by
  intro hr
  unfold InterestEntry.theirPub at h
  rw [hr] at h
  exact absurd h Bool.false_ne_true

/-- A verdict that is still named behind its entry is the verdict before it, but for the
refusals. -/
theorem entryFate_named (h : (entryFate ts e v).verdict.named = true) :
    v.named = true ∧ (entryFate ts e v).verdict.boundTo = v.boundTo ∧
      (entryFate ts e v).verdict.readOk = v.readOk ∧ (entryFate ts e v).verdict.attrs = v.attrs := by
  unfold entryFate at h ⊢
  dsimp only at h ⊢
  split at h
  next hoff =>
    rw [if_pos hoff]
    exact ⟨h, rfl, rfl, rfl⟩
  next hlive =>
    rw [if_neg hlive]
    split at h
    next hstale =>
      rw [if_pos hstale]
      exact ⟨h, rfl, rfl, rfl⟩
    next hknown =>
      rw [if_neg hknown]
      split at h
      next => exact absurd h Bool.false_ne_true
      next hstands =>
        rw [if_neg hstands]
        split at h
        next hgone =>
          rw [if_pos hgone]
          exact ⟨h, rfl, rfl, rfl⟩
        next hpresent =>
          rw [if_neg hpresent]
          split at h
          next hkind =>
            rw [if_pos hkind]
            exact ⟨h, rfl, rfl, rfl⟩
          next hkind =>
            rw [if_neg hkind]
            exact ⟨h, rfl, rfl, rfl⟩

/-- A position with nothing to its name carries nothing. -/
theorem pending_carries (g : Nat) : ¬ ({ gen := g } : Verdict).Carries c := by
  intro h
  have hts : Nat.testBit 0 0 = true := h.1
  rw [Nat.zero_testBit] at hts
  exact absurd hts Bool.false_ne_true

/-- What an entry leaves of the attribute: it stays unless the entry dissolves the verdict. -/
theorem entryFate_carries : (entryFate ts e v).verdict.Carries c ↔ v.Carries c ∧
    ¬ (e.role ≠ .inactive ∧ v.named = true ∧ v.boundTo < ts.length ∧
      ((topicAt ts v.boundTo).hash32 ≠ e.hash ∨ outlived ts v.boundTo = true)) := by
  unfold entryFate
  dsimp only
  by_cases hoff : e.role = .inactive ∨ v.named = false
  · rw [if_pos hoff]
    refine ⟨fun h => ⟨h, ?_⟩, And.left⟩
    rintro ⟨hr, hn, -, -⟩
    rcases hoff with hoff | hoff
    · exact hr hoff
    · rw [hn] at hoff
      exact absurd hoff Bool.true_eq_false_eq_False
  · rw [if_neg hoff]
    rw [not_or] at hoff
    by_cases hstale : ts.length ≤ v.boundTo
    · rw [if_pos hstale]
      refine ⟨fun h => ⟨h, ?_⟩, And.left⟩
      rintro ⟨-, -, hlt, -⟩
      exact Nat.not_le_of_lt hlt hstale
    · rw [if_neg hstale]
      by_cases hsheds : (topicAt ts v.boundTo).hash32 ≠ e.hash ∨ outlived ts v.boundTo = true
      · rw [if_pos hsheds]
        constructor
        · intro h
          exact absurd h (pending_carries _)
        · rintro ⟨-, hno⟩
          exact absurd ⟨hoff.1, Bool.eq_true_of_not_eq_false hoff.2, Nat.lt_of_not_le hstale, hsheds⟩ hno
      · rw [if_neg hsheds]
        have hkeep : v.Carries c ↔ v.Carries c ∧ ¬ (e.role ≠ .inactive ∧ v.named = true ∧
            v.boundTo < ts.length ∧ ((topicAt ts v.boundTo).hash32 ≠ e.hash ∨ outlived ts v.boundTo = true)) :=
          ⟨fun h => ⟨h, fun hs => hsheds hs.2.2.2⟩, And.left⟩
        split
        next => exact hkeep
        split
        next => exact hkeep
        next => exact hkeep

/-- Behind the generation gate a verdict is named where it was and the generation is the same. -/
theorem regen_named {g : Nat} (h : (v.regen g).named = true) : v.gen = g ∧ v.regen g = v := by
  unfold Verdict.regen at h ⊢
  by_cases hg : v.gen = g
  · rw [if_pos hg]
    exact ⟨hg, rfl⟩
  rw [if_neg hg] at h
  split at h
  next hz =>
    -- nothing was decided, so nothing is named
    have hdet : v.detailed = false := by
      rw [← Verdict.astate_detailed, hz]
      rfl
    unfold Verdict.named at h
    dsimp only at h
    rw [hdet, Bool.false_and] at h
    exact absurd h Bool.false_ne_true
  next => exact absurd h Bool.false_ne_true

theorem regen_carries {g : Nat} : (v.regen g).Carries c ↔ v.Carries c ∧ ¬ (v.gen ≠ g ∧ v.astate ≠ 0) := by
  unfold Verdict.regen
  by_cases hg : v.gen = g
  · rw [if_pos hg]
    exact ⟨fun h => ⟨h, fun hs => hs.1 hg⟩, And.left⟩
  rw [if_neg hg]
  by_cases hz : v.astate = 0
  · rw [if_pos hz]
    exact ⟨fun h => ⟨h, fun hs => hs.2 hz⟩, And.left⟩
  rw [if_neg hz]
  constructor
  · intro h
    exact absurd h (pending_carries g)
  · rintro ⟨-, hno⟩
    exact absurd ⟨hg, hz⟩ hno

/-- What an entry makes of a position that carries the attribute. -/
theorem fate_carries (cell : InterestEntry × Nat) :
    (entryFate ts cell.1 (v.unrefused.regen cell.2)).verdict.Carries c ↔
      v.Carries c ∧ ¬ v.ShedBy ts cell := by
  rw [entryFate_carries, regen_carries]
  unfold Verdict.ShedBy
  have hcar : v.unrefused.Carries c ↔ v.Carries c := Iff.rfl
  have hgen : v.unrefused.gen = v.gen := rfl
  rw [hcar, hgen]
  by_cases hrebound : v.gen ≠ cell.2 ∧ v.unrefused.astate ≠ 0
  · constructor
    · rintro ⟨⟨-, hno⟩, -⟩
      exact absurd hrebound hno
    · rintro ⟨-, hno⟩
      exact absurd (Or.inl hrebound) hno
  · -- the gate left the binding and the name as they were, or nothing was decided
    have hsame : (v.unrefused.regen cell.2).boundTo = v.boundTo ∧
        (v.unrefused.regen cell.2).named = v.named := by
      unfold Verdict.regen
      by_cases hg : v.unrefused.gen = cell.2
      · rw [if_pos hg]
        exact ⟨rfl, rfl⟩
      rw [if_neg hg, if_pos]
      · exact ⟨rfl, rfl⟩
      · by_contra hz
        exact hrebound ⟨hg, hz⟩
    rw [hsame.1, hsame.2]
    constructor
    · rintro ⟨⟨hc, -⟩, hno⟩
      exact ⟨hc, fun h => h.elim hrebound hno⟩
    · rintro ⟨hc, hno⟩
      exact ⟨⟨hc, hrebound⟩, fun h => hno (Or.inr h)⟩

/-- An entry publishes behind the walk exactly where it published before it and its slot was not
rebound. -/
theorem fate_publishes (cell : InterestEntry × Nat) :
    Publishes ts cell.1 (entryFate ts cell.1 (v.unrefused.regen cell.2)).verdict c ↔
      v.gen = cell.2 ∧ Publishes ts cell.1 v c := by
  constructor
  · intro h
    obtain ⟨hn, hb, hr, -⟩ := entryFate_named h.named
    obtain ⟨hg, hsame⟩ := regen_named hn
    refine ⟨hg, h.congr ?_ ?_ ?_⟩
    · rw [hsame] at hn
      exact hn.trans h.named.symm
    · rw [hb, hsame]
      rfl
    · rw [hr, hsame]
      rfl
  · rintro ⟨hg, h⟩
    have hsame : v.unrefused.regen cell.2 = v.unrefused := if_pos hg
    have hu : Publishes ts cell.1 v.unrefused c := h.congr rfl rfl rfl
    rw [hsame]
    have hlive : ¬ (cell.1.role = .inactive ∨ v.unrefused.named = false) := by
      rw [not_or, hu.named]
      exact ⟨role_of_pub hu.pub, Bool.true_eq_false_eq_False⟩
    have hstands : ¬ ((topicAt ts v.unrefused.boundTo).hash32 ≠ cell.1.hash ∨
        outlived ts v.unrefused.boundTo = true) := by
      rw [not_or, hu.bound, hu.current]
      exact ⟨not_not_intro hu.hash, Bool.false_ne_true⟩
    have hpresent : ¬ (topicAt ts v.unrefused.boundTo).retired = true := by
      rw [hu.bound, hu.present]
      exact Bool.false_ne_true
    have hknown : ¬ ts.length ≤ v.unrefused.boundTo := by
      rw [hu.bound]
      exact Nat.not_le_of_lt hu.known
    have hkind : ¬ cell.1.kind ≠ (topicAt ts v.unrefused.boundTo).kind.code := by
      rw [hu.bound]
      exact not_not_intro hu.kind
    unfold entryFate
    dsimp only
    rw [if_neg hlive, if_neg hknown, if_neg hstands, if_neg hpresent, if_neg hkind]
    exact hu.congr rfl rfl rfl

/-! ## A table with other matches -/

section Rewired

variable {t t' : Topic}

theorem Rewired.role (h : Rewired t t') : t'.role = t.role := by
  obtain ⟨writers, readers, chain, rfl⟩ := h
  rfl

theorem Rewired.retired (h : Rewired t t') : t'.retired = t.retired := by
  obtain ⟨writers, readers, chain, rfl⟩ := h
  rfl

theorem Rewired.identity (h : Rewired t t') : t'.identity = t.identity := by
  obtain ⟨writers, readers, chain, rfl⟩ := h
  rfl

theorem Rewired.kind (h : Rewired t t') : t'.kind = t.kind := by
  obtain ⟨writers, readers, chain, rfl⟩ := h
  rfl

theorem Rewired.qos (h : Rewired t t') : t'.qos = t.qos := by
  obtain ⟨writers, readers, chain, rfl⟩ := h
  rfl

variable {ts' : List Topic}

theorem topicByIdentity_rewired (hlen : ts'.length = ts.length)
    (h : ∀ q, Rewired (topicAt ts q) (topicAt ts' q)) (id : Nat) :
    topicByIdentity ts' id = topicByIdentity ts id := by
  have hnamed : (fun c => !(topicAt ts' c).retired && decide ((topicAt ts' c).identity = id)) =
      fun c => !(topicAt ts c).retired && decide ((topicAt ts c).identity = id) := by
    funext c
    rw [(h c).retired, (h c).identity]
  have hlive : (fun c => decide ((topicAt ts' c).role ≠ .inactive)) =
      fun c => decide ((topicAt ts c).role ≠ .inactive) := by
    funext c
    rw [(h c).role]
  unfold topicByIdentity
  dsimp only
  rw [hlen, hnamed, hlive]

theorem outlived_rewired (hlen : ts'.length = ts.length)
    (h : ∀ q, Rewired (topicAt ts q) (topicAt ts' q)) : outlived ts' c = outlived ts c := by
  unfold outlived
  rw [topicByIdentity_rewired hlen h, (h c).role, (h c).retired, (h c).identity]

theorem Publishes.rewired (hp : Publishes ts e v c) (hlen : ts'.length = ts.length)
    (h : ∀ q, Rewired (topicAt ts q) (topicAt ts' q)) : Publishes ts' e v c where
  pub := hp.pub
  named := hp.named
  bound := hp.bound
  known := hlen ▸ hp.known
  hash := by
    unfold Topic.hash32
    rw [(h c).identity]
    exact hp.hash
  current := (outlived_rewired hlen h).trans hp.current
  present := (h c).retired.trans hp.present
  kind := hp.kind.trans (congrArg TopicKind.code (h c).kind.symm)
  qos := by
    have hq := hp.qos
    unfold Topic.reliable at hq ⊢
    rw [(h c).role, (h c).qos]
    exact hq
  readOk := hp.readOk

theorem Rewired.symm (h : Rewired t t') : Rewired t' t := by
  obtain ⟨writers, readers, chain, rfl⟩ := h
  exact ⟨t.matchedWriters, t.matchedReaders, t.laneChain, rfl⟩

end Rewired

/-! ## The maps behind the walk -/

/-- The maps an apply works on cover the list, and hold what was held. -/
theorem indexEnsure_some {vs vs' : List Verdict} {n : Nat} {ok : Bool} (h : indexEnsure vs n ok = some vs') :
    n ≤ vs'.length ∧ ∀ a, verdictAt vs' a = verdictAt vs a := by
  unfold indexEnsure at h
  split at h
  next => exact absurd h (Option.some_ne_none vs').symm
  split at h
  next hle =>
    rw [← Option.some.inj h]
    exact ⟨hle, fun _ => rfl⟩
  next hlt =>
    split at h
    next =>
      rw [← Option.some.inj h]
      constructor
      · rw [List.length_append, List.length_replicate]
        omega
      · intro a
        unfold verdictAt
        rw [List.getD_eq_getElem?_getD, List.getD_eq_getElem?_getD]
        by_cases ha : a < vs.length
        · rw [List.getElem?_append_left ha]
        rw [List.getElem?_append_right (Nat.le_of_not_lt ha), List.getElem?_replicate,
          List.getElem?_eq_none (Nat.le_of_not_lt ha)]
        split
        next => rfl
        next => rfl
    next => exact absurd h (Option.some_ne_none vs').symm

theorem verdictAt_unrefused (vs : List Verdict) (a : Nat) :
    verdictAt (vs.map Verdict.unrefused) a = (verdictAt vs a).unrefused := by
  unfold verdictAt
  rw [List.getD_eq_getElem?_getD, List.getD_eq_getElem?_getD, List.getElem?_map]
  cases vs[a]? with
  | none => rfl
  | some v => rfl

section Sifted

variable {vs vs' : List Verdict} {d post : Bytes} {n : Nat} {ok : Bool}

/-- The verdict of an entry's position behind the walk. -/
theorem sift_at (h : indexEnsure vs (frontLe 2 d) ok = some vs') {cell : InterestEntry × Nat}
    (hcell : cell ∈ interestCells d post) :
    verdictAt (sift ts (vs'.map Verdict.unrefused) (interestCells d post)).verdicts cell.1.pos =
      (entryFate ts cell.1 ((verdictAt vs cell.1.pos).unrefused.regen cell.2)).verdict := by
  obtain ⟨hcover, hheld⟩ := indexEnsure_some h
  have hlt : cell.1.pos < (vs'.map Verdict.unrefused).length := by
    rw [List.length_map]
    exact Nat.lt_of_lt_of_le (interestCells_pos hcell) hcover
  unfold sift
  rw [siftFold_at _ { verdicts := vs'.map Verdict.unrefused } (interestCells_pairwise d post) cell hcell hlt]
  dsimp only
  rw [verdictAt_unrefused, hheld]

/-- The verdict of a position without an entry behind the walk. -/
theorem sift_ne (h : indexEnsure vs (frontLe 2 d) ok = some vs') {a : Nat}
    (ha : ∀ cell ∈ interestCells d post, cell.1.pos ≠ a) :
    verdictAt (sift ts (vs'.map Verdict.unrefused) (interestCells d post)).verdicts a =
      (verdictAt vs a).unrefused := by
  unfold sift
  rw [siftFold_ne _ _ ha]
  dsimp only
  rw [verdictAt_unrefused, (indexEnsure_some h).2]

/-- What carries the attribute behind the walk: what did and was not shed. -/
theorem sift_carries (h : indexEnsure vs (frontLe 2 d) ok = some vs') (a : Nat) :
    (verdictAt (sift ts (vs'.map Verdict.unrefused) (interestCells d post)).verdicts a).Carries c ↔
      (verdictAt vs a).Carries c ∧
        ¬ ∃ cell ∈ interestCells d post, cell.1.pos = a ∧ (verdictAt vs a).ShedBy ts cell := by
  by_cases ha : ∃ cell ∈ interestCells d post, cell.1.pos = a
  · obtain ⟨cell, hcell, rfl⟩ := ha
    rw [sift_at h hcell, fate_carries]
    constructor
    · rintro ⟨hc, hno⟩
      refine ⟨hc, ?_⟩
      rintro ⟨cell', hcell', hpos, hshed⟩
      -- no two entries have one position
      have hsame := cell_unique (interestCells_pairwise d post) hcell' hcell hpos
      exact hno (hsame ▸ hshed)
    · rintro ⟨hc, hno⟩
      exact ⟨hc, fun hshed => hno ⟨cell, hcell, rfl, hshed⟩⟩
  · have hne : ∀ cell ∈ interestCells d post, cell.1.pos ≠ a := fun cell hcell hpos => ha ⟨cell, hcell, hpos⟩
    rw [sift_ne h hne]
    constructor
    · intro hc
      refine ⟨hc, ?_⟩
      rintro ⟨cell, hcell, hpos, -⟩
      exact hne cell hcell hpos
    · exact And.left

end Sifted

theorem exists_carries {vs : List Verdict} :
    (∃ v ∈ vs, v.noTimestamp = true ∧ v.boundTo = c) ↔ ∃ a, (verdictAt vs a).Carries c := by
  constructor
  · rintro ⟨v, hv, hc⟩
    obtain ⟨a, ha, rfl⟩ := List.mem_iff_getElem.mp hv
    refine ⟨a, ?_⟩
    rw [verdictAt_lt ha]
    exact hc
  · rintro ⟨a, hc⟩
    by_cases ha : a < vs.length
    · rw [verdictAt_lt ha] at hc
      exact ⟨vs[a], List.getElem_mem ha, hc⟩
    · rw [verdictAt_ge (Nat.le_of_not_lt ha)] at hc
      exact absurd hc (pending_carries 0)

/-! ## The flag behind an apply -/

/-- The flag of topic `c`'s reader is the attribute of whatever entry of the list publishes to the
topic. -/
def FlagRight (s : PeerState) (d : Bytes) (c : Nat) : Prop :=
  ∀ e ∈ interestScan d, Publishes s.lanes.topics e (verdictAt s.verdicts e.pos) c →
    (s.lanes.readerAt c).noTimestamp = (verdictAt s.verdicts e.pos).noTimestamp

/-- Before an apply: where an entry publishes to topic `c` stamped, a reader that is there has
the flag off, and any other position bound to the topic that carries the attribute is shed. -/
def FlagClean (s : PeerState) (d post : Bytes) (c : Nat) : Prop :=
  ∀ cell ∈ interestCells d post, (verdictAt s.verdicts cell.1.pos).gen = cell.2 →
    Publishes s.lanes.topics cell.1 (verdictAt s.verdicts cell.1.pos) c →
    (verdictAt s.verdicts cell.1.pos).noTimestamp = false →
    ((s.lanes.readerAt c).used = true → (s.lanes.readerAt c).noTimestamp = false) ∧
      ∀ a, (verdictAt s.verdicts a).Carries c → ∃ shed ∈ interestCells d post,
        shed.1.pos = a ∧ (verdictAt s.verdicts a).ShedBy s.lanes.topics shed

theorem stampLanes_topics : ∀ (vs : List Verdict) (s : LaneTable), (stampLanes vs s).topics = s.topics := by
  intro vs
  induction vs with
  | nil => intro s; rfl
  | cons v vs ih =>
    intro s
    exact (ih (stampLane s v)).trans (stampLane_topics s v)

/-- Where a lane's reader is used behind an apply, its flag is right exactly where the state before
was clean. -/
theorem applyPeerInterest_flag {E : MatchEnv} {ok : Bool} {s : PeerState} {d post : Bytes}
    (hwalk : interestWalk d = some post) (hc : c < s.lanes.topics.length)
    (hu : ((applyPeerInterest E ok s d).1.lanes.readerAt c).used = true) :
    FlagRight (applyPeerInterest E ok s d).1 d c ↔ FlagClean s d post c := by
  unfold applyPeerInterest at hu ⊢
  rw [hwalk] at hu ⊢
  dsimp only at hu ⊢
  cases hindex : indexEnsure s.verdicts (frontLe 2 d) ok with
  | none =>
    -- no bits, no reader
    rw [hindex] at hu
    have hw := (@rematchAll_spec E {} s.lanes).2 c hc hu
    unfold wantsReader at hw
    rw [Bool.and_false] at hw
    exact absurd hw Bool.false_ne_true
  | some vs =>
    rw [hindex] at hu
    dsimp only at hu ⊢
    obtain ⟨x, hx⟩ : ∃ x, x = sift s.lanes.topics (vs.map Verdict.unrefused) (interestCells d post) :=
      ⟨_, rfl⟩
    rw [← hx] at hu ⊢
    obtain ⟨bits, hbits⟩ : ∃ bits, bits = listBits s.lanes.topics x d := ⟨_, rfl⟩
    rw [← hbits] at hu ⊢
    obtain ⟨hstep, -⟩ := @rematchAll_spec E bits s.lanes
    obtain ⟨hrtop, hrread⟩ := rateLanes_reader x.verdicts
      (((interestSections post).rate.map (rowsOf 2)).getD []) (rematchAll E bits s.lanes)
    obtain ⟨lanes, hlanes⟩ : ∃ lanes, lanes = rateLanes x.verdicts
      (((interestSections post).rate.map (rowsOf 2)).getD []) (rematchAll E bits s.lanes) := ⟨_, rfl⟩
    rw [← hlanes] at hu hrtop hrread ⊢
    have hlen : lanes.topics.length = s.lanes.topics.length := by
      rw [hrtop]
      exact hstep.length
    have hwire : ∀ q, Rewired (topicAt s.lanes.topics q) (topicAt lanes.topics q) := by
      intro q
      rw [hrtop]
      exact hstep.topics q
    obtain ⟨hused, hflag⟩ := stampLanes_reader x.verdicts lanes (q := c) (hlen ▸ hc)
    rw [hused] at hu
    have hflag' := hflag hu
    rw [hrread, exists_carries] at hflag'
    rw [hrread] at hu
    -- the flag the matching left
    have hmatched : ((rematchAll E bits s.lanes).readerAt c).noTimestamp = true ↔
        (s.lanes.readerAt c).used = true ∧ (s.lanes.readerAt c).noTimestamp = true := by
      rcases (hstep.readers c).cases_used hu with ⟨hold, hsame⟩ | ⟨hold, hfresh, -⟩
      · rw [hsame, hold]
        exact ⟨fun h => ⟨rfl, h⟩, And.right⟩
      · rw [hfresh, hold]
        exact ⟨fun h => absurd h Bool.false_ne_true, fun h => absurd h.1 Bool.false_ne_true⟩
    rw [hmatched] at hflag'
    -- what publishes and what carries behind the walk, told before it
    have hpub : ∀ cell ∈ interestCells d post,
        (Publishes lanes.topics cell.1 (verdictAt x.verdicts cell.1.pos) c ↔
          (verdictAt s.verdicts cell.1.pos).gen = cell.2 ∧
            Publishes s.lanes.topics cell.1 (verdictAt s.verdicts cell.1.pos) c) := by
      intro cell hcell
      rw [← fate_publishes, ← sift_at hindex hcell, ← hx]
      exact ⟨fun h => h.rewired hlen.symm fun q => (hwire q).symm, fun h => h.rewired hlen hwire⟩
    have hattr : ∀ cell ∈ interestCells d post, Publishes lanes.topics cell.1 (verdictAt x.verdicts cell.1.pos) c →
        (verdictAt x.verdicts cell.1.pos).noTimestamp = (verdictAt s.verdicts cell.1.pos).noTimestamp := by
      intro cell hcell h
      have hat := @sift_at s.lanes.topics s.verdicts vs d post ok hindex cell hcell
      rw [← hx] at hat
      have hnamed := h.named
      rw [hat] at hnamed ⊢
      obtain ⟨hn, -, -, ha⟩ := entryFate_named hnamed
      unfold Verdict.noTimestamp
      rw [ha, (regen_named hn).2]
      rfl
    have hcarries : ∀ a, (verdictAt x.verdicts a).Carries c ↔ (verdictAt s.verdicts a).Carries c ∧
        ¬ ∃ cell ∈ interestCells d post, cell.1.pos = a ∧
          (verdictAt s.verdicts a).ShedBy s.lanes.topics cell := by
      intro a
      rw [hx]
      exact sift_carries hindex a
    unfold FlagRight
    dsimp only
    rw [stampLanes_topics]
    constructor
    · -- a flag that is right says what was there before
      intro hright cell hcell hgen hpubs hstamped
      have hafter := (hpub cell hcell).mpr ⟨hgen, hpubs⟩
      have hscan : cell.1 ∈ interestScan d :=
        (mem_interestScan post).mpr ⟨role_of_pub hpubs.pub, cell.2, hcell⟩
      have heq := hright cell.1 hscan hafter
      rw [hattr cell hcell hafter, hstamped] at heq
      have hoff : ¬ ((stampLanes x.verdicts lanes).readerAt c).noTimestamp = true := by
        rw [heq]
        exact Bool.false_ne_true
      rw [hflag', not_or] at hoff
      refine ⟨fun hold => Bool.eq_false_of_not_eq_true fun hts => hoff.1 ⟨hold, hts⟩, fun a ha => ?_⟩
      by_contra hkept
      exact hoff.2 ⟨a, (hcarries a).mpr ⟨ha, hkept⟩⟩
    · intro hclean e he hpubs
      obtain ⟨-, g, hcell⟩ := (mem_interestScan post).mp he
      obtain ⟨hgen, hbefore⟩ := (hpub (e, g) hcell).mp hpubs
      have hsame := hattr (e, g) hcell hpubs
      dsimp only at hgen hbefore hsame
      cases hts : (verdictAt s.verdicts e.pos).noTimestamp with
      | true =>
        -- the publishing entry carries the attribute itself
        rw [hsame, hts, hflag']
        exact Or.inr ⟨e.pos, hsame.trans hts, hpubs.bound⟩
      | false =>
        obtain ⟨hlane, hshed⟩ := hclean (e, g) hcell hgen hbefore hts
        rw [hsame, hts]
        apply Bool.eq_false_of_not_eq_true
        rw [hflag']
        rintro (⟨hold, hon⟩ | ⟨a, ha⟩)
        · rw [hlane hold] at hon
          exact absurd hon Bool.false_ne_true
        · obtain ⟨hcar, hkept⟩ := (hcarries a).mp ha
          exact hkept (hshed a hcar)

/-- A reader that is used behind an apply is on a topic we subscribe. -/
theorem applyPeerInterest_subs {E : MatchEnv} {ok : Bool} {s : PeerState} {d post : Bytes}
    (hwalk : interestWalk d = some post) (hc : c < s.lanes.topics.length)
    (hu : ((applyPeerInterest E ok s d).1.lanes.readerAt c).used = true) :
    (topicAt s.lanes.topics c).role.subs = true := by
  have hsubs : ∀ bits, ((rematchAll E bits s.lanes).readerAt c).used = true →
      (topicAt s.lanes.topics c).role.subs = true := by
    intro bits hused
    obtain ⟨hstep, hwanted⟩ := @rematchAll_spec E bits s.lanes
    have hw := hwanted c hc hused
    rw [(hstep.topics c).wantsReader] at hw
    exact (Bool.and_eq_true_iff.mp hw).1
  unfold applyPeerInterest at hu
  rw [hwalk] at hu
  dsimp only at hu
  cases hindex : indexEnsure s.verdicts (frontLe 2 d) ok with
  | none =>
    rw [hindex] at hu
    exact hsubs _ hu
  | some vs =>
    rw [hindex] at hu
    dsimp only at hu
    obtain ⟨htop, hread⟩ := rateLanes_reader
      (sift s.lanes.topics (vs.map Verdict.unrefused) (interestCells d post)).verdicts
      (((interestSections post).rate.map (rowsOf 2)).getD []) (rematchAll E
        (listBits s.lanes.topics (sift s.lanes.topics (vs.map Verdict.unrefused) (interestCells d post)) d) s.lanes)
    rw [(stampLanes_reader _ _ _).1, hread] at hu
    · exact hsubs _ hu
    · rw [htop, (@rematchAll_spec E _ s.lanes).1.length]
      exact hc

/-! ## Histories -/

/-- What comes in from the peer: a list, or the details of some of its entries. -/
inductive PeerInput
  | announce (E : MatchEnv) (ok : Bool) (d : Bytes)
  | details (check : SchemaCheck) (resp : Bytes)

/-- What an input makes of the peer. -/
def PeerState.step (s : PeerState) : PeerInput → PeerState
  | .announce E ok d => (applyPeerInterest E ok s d).1
  | .details check resp =>
    { s with verdicts := (applyPeerDetails s.lanes.topics check s.verdicts resp).verdicts }

/-- The flag of every used reader is right behind the input, where it is a list that is applied. -/
def FlagsRight (s : PeerState) : PeerInput → Prop
  | .announce E ok d => (interestWalk d).isSome → ∀ c < s.lanes.topics.length,
      ((s.step (.announce E ok d)).lanes.readerAt c).used = true → FlagRight (s.step (.announce E ok d)) d c
  | .details _ _ => True

/-- The state is clean for the input: for every topic we subscribe. -/
def FlagsClean (s : PeerState) : PeerInput → Prop
  | .announce _ _ d => ∀ post, interestWalk d = some post → ∀ c < s.lanes.topics.length,
      (topicAt s.lanes.topics c).role.subs = true → FlagClean s d post c
  | .details _ _ => True

theorem flagsRight_of_clean {s : PeerState} {i : PeerInput} (h : FlagsClean s i) : FlagsRight s i := by
  cases i with
  | announce E ok d =>
    intro hsome c hc hu
    obtain ⟨post, hwalk⟩ := Option.isSome_iff_exists.mp hsome
    exact (applyPeerInterest_flag hwalk hc hu).mpr (h post hwalk c hc (applyPeerInterest_subs hwalk hc hu))
  | details check resp => trivial

/-- Along any history of lists and details a used reader's flag is the attribute of the entry that
publishes exactly where the state before was clean for its topic, and where every state was clean
every flag is right. -/
theorem flags_follow_publisher (s : PeerState) (is : List PeerInput) :
    (Along PeerState.step FlagsClean s is → Along PeerState.step FlagsRight s is) ∧
      Along PeerState.step (fun s i => ∀ E ok d post, i = .announce E ok d → interestWalk d = some post →
        ∀ c < s.lanes.topics.length, ((s.step i).lanes.readerAt c).used = true →
          (FlagRight (s.step i) d c ↔ FlagClean s d post c)) s is := by
  constructor
  · exact along_of_invariant (fun _ => True) (fun s i _ h => ⟨trivial, flagsRight_of_clean h⟩) is s trivial
  · induction is generalizing s with
    | nil => trivial
    | cons i is ih =>
      refine ⟨?_, ih (s.step i)⟩
      rintro E ok d post rfl hwalk c hc hu
      exact applyPeerInterest_flag hwalk hc hu

/-! A peer with two topics of one name: the unstamped one is live, and then the stamped one. -/

/-- The name's topic at the peer. -/
def twin (role : Role) (noTimestamp : Bool) : Topic :=
  { Topic.undefined with
    name := [120], identity := fnv1a64 [120], role := role
    qos := ⟨.bestEffort, 1, 0, 250000, 0, 0, noTimestamp⟩ }

/-- The lists before and after the switch, and the details of one slot of the second. -/
def twinFirst : Bytes := interestEmit [twin .pubOnly true]
def twinSecond : Bytes := interestEmit [twin .inactive true, twin .pubOnly false]
def twinDetail (ts : List Topic) (slot : Nat) : Bytes :=
  ((detailReqBuild 0 1 [⟨slot, 0⟩] 64).bind fun req => detailRespond ts (fun _ => {}) 1 req 64).getD []

/-- The history: each list, its details, and the list again. -/
def twinHistory : List PeerInput :=
  [.announce {} true twinFirst, .details (fun _ _ _ _ => true) (twinDetail [twin .pubOnly true] 0),
    .announce {} true twinFirst, .announce {} true twinSecond,
    .details (fun _ _ _ _ => true) (twinDetail [twin .inactive true, twin .pubOnly false] 1),
    .announce {} true twinSecond]

/-- Our side: a subscriber of the name. -/
def twinSubscriber : PeerState := { lanes := { topics := [twin .subOnly false] } }

/-- Up to the switch every state is clean, and the flag says unstamped. -/
theorem flags_follow_publisher_first : Along PeerState.step FlagsRight twinSubscriber (twinHistory.take 3) := by
  have hpost : interestWalk twinFirst = some [0, 0, 0, 0] := by decide +kernel
  have hcells : interestCells twinFirst [0, 0, 0, 0] = [(⟨0, fnv1a64 [120] % 2 ^ 32, 1⟩, 0)] := by decide +kernel
  have hclean : ∀ s : PeerState, s.lanes.topics.length = 1 → ((verdictAt s.verdicts 0).named = true →
      (verdictAt s.verdicts 0).noTimestamp = true) → FlagsClean s (.announce {} true twinFirst) := by
    intro s _ hts post hwalk c _ _ cell hcell _ hpub hstamped
    rw [← Option.some.inj (hpost.symm.trans hwalk), hcells] at hcell
    rw [List.mem_singleton.mp hcell] at hpub hstamped
    rw [hts hpub.named] at hstamped
    exact absurd hstamped Bool.true_eq_false_eq_False
  apply (flags_follow_publisher twinSubscriber (twinHistory.take 3)).1
  refine ⟨hclean _ (by decide +kernel) (by decide +kernel), trivial, ?_, trivial⟩
  exact hclean _ (by decide +kernel) (by decide +kernel)

/-- The parked twin's attribute stays on the reader of the stamped one. -/
theorem stale_flag : ¬ ∀ (s : PeerState) (is : List PeerInput), Along PeerState.step FlagsRight s is := by
  intro h
  obtain ⟨-, -, -, -, -, hlast, -⟩ := h twinSubscriber twinHistory
  have hright := hlast (by decide +kernel) 0 (by decide +kernel) (by decide +kernel)
    ⟨1, fnv1a64 [120] % 2 ^ 32, 1⟩ (by decide +kernel) (by constructor <;> decide +kernel)
  exact absurd hright (by decide +kernel)

end Rant.Transport
