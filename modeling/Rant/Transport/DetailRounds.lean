import Rant.Transport.StampFlags
/-!
# Asking until nothing is missing

The detail exchange as the two sides run it. A response is as long as it was measured at any
capacity that holds its header (`respond_length`), it is a prefix of the answers cut at an entry
that does not fit, and the requester steps through exactly that prefix (`respond_entries`).

The requester asks for what is pending, applies the page and the list again, and asks for what
is left. A page with an entry it asked for decides that entry (`pending_lt`), so against a
responder that answers for the table it announced the rounds end with nothing missing
(`detailRounds_done`).
-/

namespace Rant.Transport

open Rant.Lib

/-! ## One response -/

variable {ts : List Topic} {schemas : Nat → MetaSchema}

/-- What is measured at a capacity is written into it. -/
theorem respond_length {cap : Nat} (hcap : detailHdr ≤ cap) (metaVersion : Nat) (req : Bytes) :
    (detailRespond ts schemas metaVersion req cap).map List.length = detailMeasure ts schemas req cap := by
  unfold detailRespond detailMeasure
  cases requestWants req with
  | none => rfl
  | some ws =>
    dsimp only
    rw [if_neg (Nat.not_lt_of_le hcap), Option.map_some, Option.map_some, List.length_append,
      length_detailHeader, length_page, answerWalk_len]

/-- A walk at the length of its own page is the same walk. -/
theorem answerWalk_sized {cap size : Nat} : ∀ (ws : List DetailWant) (len n : Nat),
    (answerWalk ts schemas cap ws len n).1 = size →
    answerWalk ts schemas size ws len n = answerWalk ts schemas cap ws len n := by
  intro ws
  induction ws with
  | nil => intro len n _; rfl
  | cons w ws ih =>
    intro len n h
    rw [answerWalk] at h ⊢
    rw [answerWalk]
    cases ha : answerFor ts schemas w with
    | none =>
      rw [ha] at h
      exact ih len n h
    | some d =>
      rw [ha] at h
      dsimp only at h ⊢
      by_cases hcut : 0 < n ∧ cap < len + d.need
      · rw [if_pos hcut] at h ⊢
        have hneed : 0 < d.need := by
          unfold Detail.need
          omega
        have hsize : len = size := h
        rw [if_pos ⟨hcut.1, by omega⟩]
      · rw [if_neg hcut] at h ⊢
        have hrest := ih (len + d.need) (n + 1) h
        have hlen := @answerWalk_len ts schemas cap ws (len + d.need) (n + 1)
        have hle : ¬ (0 < n ∧ size < len + d.need) := by
          rintro ⟨-, hlt⟩
          have hsize : (answerWalk ts schemas cap ws (len + d.need) (n + 1)).1 = size := h
          omega
        rw [if_neg hle, hrest]

/-- A response into a buffer of the size measured for one datagram is that page. -/
theorem respond_sized {metaVersion size : Nat} {req : Bytes} (h : detailRespSize ts schemas req = some size) :
    detailRespond ts schemas metaVersion req size = detailRespond ts schemas metaVersion req dgramMax ∧
      (detailRespond ts schemas metaVersion req size).map List.length = some size := by
  unfold detailRespSize at h
  have hdgram := @respond_length ts schemas dgramMax (by decide) metaVersion req
  rw [h] at hdgram
  unfold detailMeasure at h
  cases hws : requestWants req with
  | none =>
    rw [hws] at h
    exact absurd h.symm (Option.some_ne_none size)
  | some ws =>
    rw [hws, Option.map_some] at h
    have hsize := Option.some.inj h
    have hhdr : detailHdr ≤ size := by
      rw [← hsize, answerWalk_len]
      exact Nat.le_add_right _ _
    have hsame : detailRespond ts schemas metaVersion req size =
        detailRespond ts schemas metaVersion req dgramMax := by
      unfold detailRespond
      rw [hws]
      dsimp only
      rw [if_neg (Nat.not_lt_of_le hhdr), if_neg (show ¬ dgramMax < detailHdr by decide),
        answerWalk_sized ws detailHdr 0 hsize]
    exact ⟨hsame, by rw [hsame]; exact hdgram⟩

/-- The fields of a table fit the wire. -/
structure DetailFields (ts : List Topic) (schemas : Nat → MetaSchema) : Prop where
  attrs : ∀ t ∈ ts, t.attrs < 2 ^ 8
  name : ∀ t ∈ ts, t.name.length < 2 ^ 8
  hash : ∀ c, (schemas c).hash < 2 ^ 64

theorem topicAt_mem {c : Nat} (h : c < ts.length) : topicAt ts c ∈ ts := by
  unfold topicAt
  rw [List.getD_eq_getElem?_getD, List.getElem?_eq_getElem h]
  exact List.getElem_mem h

/-- An answer: the slot asked for, with its name, attributes and hash, and the wire only where the
hashes differ. -/
theorem answerFor_some {w : DetailWant} {d : Detail} (h : answerFor ts schemas w = some d) :
    w.index < ts.length ∧ (topicAt ts w.index).role ≠ .inactive ∧ (topicAt ts w.index).name ≠ [] ∧
      d.index = w.index ∧ d.attrs = (topicAt ts w.index).wireAttrs ∧ d.name = (topicAt ts w.index).name ∧
        d.schemaHash = (schemas w.index).hash ∧ d.schemaWire.length ≤ 0xFFFF ∧
          (d.schemaWire = [] ∨ (d.schemaHash ≠ w.schemaHash ∧ d.schemaWire = (schemas w.index).wire)) := by
  unfold answerFor at h
  split at h
  next => exact absurd h.symm (Option.some_ne_none d)
  next hlt =>
    split at h
    next => exact absurd h.symm (Option.some_ne_none d)
    next hlive =>
      rw [not_or] at hlive
      dsimp only at h
      rw [← Option.some.inj h]
      refine ⟨Nat.lt_of_not_le hlt, hlive.1, hlive.2, rfl, rfl, rfl, rfl, ?_, ?_⟩
      · dsimp only
        split
        next hin => exact hin.2.2
        next => exact Nat.zero_le _
      · dsimp only
        split
        next hin => exact Or.inr ⟨hin.2.1, rfl⟩
        next => exact Or.inl rfl

theorem answerFor_typed (hf : DetailFields ts schemas) {w : DetailWant} {d : Detail} (hw : w.Typed)
    (h : answerFor ts schemas w = some d) : d.Typed := by
  obtain ⟨hlt, -, -, hidx, hattrs, hname, hhash, hwire, -⟩ := answerFor_some h
  have hmem := topicAt_mem hlt
  refine ⟨hidx ▸ hw.1, ?_, hname ▸ hf.name _ hmem, hhash ▸ hf.hash _, Nat.lt_succ_of_le hwire⟩
  rw [hattrs]
  unfold Topic.wireAttrs
  apply Nat.or_lt_two_pow (hf.attrs _ hmem)
  split <;> decide

/-- A page within 32 bits of capacity is within 32 bits: a lone entry is far below. -/
theorem PageOf.small {cap : Nat} {all page : List Detail} (h : PageOf cap all page) (hcap : cap < 2 ^ 32)
    (hty : ∀ d ∈ page, d.Typed) : detailHdr + pageBytes page < 2 ^ 32 := by
  by_cases htwo : 2 ≤ page.length
  · exact Nat.lt_of_le_of_lt (h.fits htwo) hcap
  cases page with
  | nil => decide
  | cons d page =>
    have hnil : page = [] := by
      apply List.length_eq_zero_iff.mp
      rw [List.length_cons] at htwo
      omega
    obtain ⟨-, -, hname, -, hwire⟩ := hty d List.mem_cons_self
    rw [hnil]
    show detailHdr + (d.need + 0) < 2 ^ 32
    unfold Detail.need detailHdr
    omega

/-- The response to a request as it was built: a page of the answers, which the iterator yields
whole and in order. -/
theorem respond_entries (hf : DetailFields ts schemas) {domain version metaVersion reqCap cap : Nat}
    {ws : List DetailWant} {req : Bytes} (hn : ws.length < 2 ^ 16) (hty : ∀ w ∈ ws, w.Typed)
    (hreq : detailReqBuild domain version ws reqCap = some req) (hcap : detailHdr ≤ cap)
    (hmax : cap < 2 ^ 32) :
    ∃ resp page, detailRespond ts schemas metaVersion req cap = some resp ∧
      PageOf cap (ws.filterMap (answerFor ts schemas)) page ∧ detailEntries resp = page := by
  have hws := requestWants_build hn hty hreq
  have hpage := @answerWalk_pageOf ts schemas cap ws
  obtain ⟨page, hp⟩ : ∃ page, page = (answerWalk ts schemas cap ws detailHdr 0).2 := ⟨_, rfl⟩
  rw [← hp] at hpage
  obtain ⟨rest, hall, -⟩ := hpage.cut
  have hin : ∀ d ∈ page, d ∈ ws.filterMap (answerFor ts schemas) := by
    intro d hd
    rw [hall]
    exact List.mem_append_left rest hd
  have htyped : ∀ d ∈ page, d.Typed := by
    intro d hd
    obtain ⟨w, hw, ha⟩ := List.mem_filterMap.mp (hin d hd)
    exact answerFor_typed hf (hty w hw) ha
  have hcount : page.length < 2 ^ 16 := by
    have hle := List.length_filterMap_le (answerFor ts schemas) ws
    rw [hall, List.length_append] at hle
    omega
  refine ⟨detailHeader detailResp (detailDomain req) metaVersion page.length ++ page.flatMap detailBytes,
    page, ?_, hpage, ?_⟩
  · unfold detailRespond
    rw [hws]
    dsimp only
    rw [if_neg (Nat.not_lt_of_le hcap), ← hp]
  · exact detailDrain_page htyped (hpage.small hmax htyped) hcount hcount

/-! ## What is still missing -/

/-- The entries of a list that are pending and could match. -/
def pendingCount (ts : List Topic) (vs : List Verdict) (d : Bytes) : Nat :=
  (interestScan d).countP fun e => (detailWant ts none (vs.map Verdict.astate) e).isSome

/-- An entry is asked for where it is pending and a topic its hash finds is on its other side. -/
theorem detailWant_isSome {ts : List Topic} {schemas : Option (Nat → Nat)} {vs : List Verdict}
    {e : InterestEntry} : (detailWant ts schemas (vs.map Verdict.astate) e).isSome = true ↔
      (verdictAt vs e.pos).detailed = false ∧
        ∃ c, (hash32Candidates ts e.hash).2 = some c ∧ e.crosses (topicAt ts c).role = true := by
  unfold detailWant
  rw [verdictIn_astate]
  cases hdet : (verdictAt vs e.pos).detailed with
  | true => simp
  | false =>
    rw [if_neg Bool.false_ne_true]
    obtain ⟨n, o⟩ := hash32Candidates ts e.hash
    cases o with
    | none => simp
    | some c =>
      dsimp only
      unfold InterestEntry.crosses
      split
      next hx => exact ⟨fun _ => ⟨rfl, c, rfl, hx⟩, fun _ => rfl⟩
      next hx =>
        constructor
        · intro h
          exact absurd h Bool.false_ne_true
        · rintro ⟨-, q, hq, hcross⟩
          rw [← Option.some.inj hq] at hcross
          exact absurd hcross hx

/-- A want is an entry's position, and the one hash the topic has. -/
theorem detailWant_some {ts : List Topic} {schemas : Option (Nat → Nat)} {astate : List Nat}
    {e : InterestEntry} {w : Nat × Nat} (h : detailWant ts schemas astate e = some w) :
    w.1 = e.pos ∧ (w.2 = 0 ∨ ∃ f c, schemas = some f ∧ w.2 = f c) := by
  unfold detailWant at h
  by_cases hin : verdictIn astate e.pos = true
  · rw [if_pos hin] at h
    exact absurd h.symm (Option.some_ne_none w)
  rw [if_neg hin] at h
  obtain ⟨⟨n, o⟩, hcand⟩ : ∃ x, x = hash32Candidates ts e.hash := ⟨_, rfl⟩
  rw [← hcand] at h
  cases o with
  | none => exact absurd h.symm (Option.some_ne_none w)
  | some c =>
    dsimp only at h
    by_cases hcross : (e.theirPub && (topicAt ts c).role.subs || e.theirSub && (topicAt ts c).role.pubs) = true
    · rw [if_pos hcross] at h
      rw [← Option.some.inj h]
      refine ⟨rfl, ?_⟩
      dsimp only
      split
      next =>
        cases schemas with
        | none => exact Or.inl rfl
        | some f => exact Or.inr ⟨f, c, rfl, rfl⟩
      next => exact Or.inl rfl
    · rw [if_neg hcross] at h
      exact absurd h.symm (Option.some_ne_none w)

theorem hash32Candidates_rewired {ts ts' : List Topic} (hlen : ts'.length = ts.length)
    (h : ∀ q, Rewired (topicAt ts q) (topicAt ts' q)) (hash : Nat) :
    hash32Candidates ts' hash = hash32Candidates ts hash := by
  have hcand : (fun i => (topicAt ts' i).announced && decide ((topicAt ts' i).hash32 = hash)) =
      fun i => (topicAt ts i).announced && decide ((topicAt ts i).hash32 = hash) := by
    funext i
    obtain ⟨writers, readers, chain, hi⟩ := h i
    rw [hi]
    rfl
  have hlive : (fun i => decide ((topicAt ts' i).role ≠ .inactive)) =
      fun i => decide ((topicAt ts i).role ≠ .inactive) := by
    funext i
    rw [(h i).role]
  unfold hash32Candidates
  dsimp only
  rw [hlen, hcand, hlive]

/-- Where the decided positions stay decided and a pending one was decided, less is missing. -/
theorem pending_lt {ts ts' : List Topic} {vs vs' : List Verdict} {d : Bytes} {e : InterestEntry}
    (hlen : ts'.length = ts.length) (hwire : ∀ q, Rewired (topicAt ts q) (topicAt ts' q))
    (hkeep : ∀ a, (verdictAt vs a).detailed = true → (verdictAt vs' a).detailed = true)
    (he : e ∈ interestScan d) (hpend : (detailWant ts none (vs.map Verdict.astate) e).isSome = true)
    (hdone : (verdictAt vs' e.pos).detailed = true) : pendingCount ts' vs' d < pendingCount ts vs d := by
  have hless : ∀ x : InterestEntry, (detailWant ts' none (vs'.map Verdict.astate) x).isSome = true →
      (detailWant ts none (vs.map Verdict.astate) x).isSome = true := by
    intro x hx
    obtain ⟨hdet, c, hcand, hcross⟩ := detailWant_isSome.mp hx
    rw [hash32Candidates_rewired hlen hwire] at hcand
    rw [(hwire c).role] at hcross
    apply detailWant_isSome.mpr
    refine ⟨?_, c, hcand, hcross⟩
    cases hold : (verdictAt vs x.pos).detailed with
    | false => rfl
    | true =>
      rw [hkeep x.pos hold] at hdet
      exact absurd hdet Bool.true_eq_false_eq_False
  have hnot : (detailWant ts' none (vs'.map Verdict.astate) e).isSome = false := by
    apply Bool.eq_false_of_not_eq_true
    intro hx
    have hdet := (detailWant_isSome.mp hx).1
    rw [hdone] at hdet
    exact absurd hdet Bool.true_eq_false_eq_False
  unfold pendingCount
  generalize interestScan d = es at he
  induction es with
  | nil => exact absurd he List.not_mem_nil
  | cons x es ih =>
    have hle := List.countP_mono_left (l := es) fun y _ => hless y
    rw [List.countP_cons, List.countP_cons]
    rcases List.mem_cons.mp he with rfl | hin
    · rw [hpend, hnot]
      show List.countP _ es + 0 < List.countP _ es + 1
      omega
    · have hlt := ih hin
      cases hx : (detailWant ts' none (vs'.map Verdict.astate) x).isSome with
      | false =>
        show List.countP _ es + 0 < _
        omega
      | true =>
        rw [hless x hx]
        show List.countP _ es + 1 < List.countP _ es + 1
        omega

/-! ## What an apply keeps -/

/-- A verdict stands for its entry: the list gives its generation, and where it names a topic the
entry names it too. -/
def Verdict.Stands (ts : List Topic) (v : Verdict) (cell : InterestEntry × Nat) : Prop :=
  v.gen = cell.2 ∧ (cell.1.role ≠ .inactive → v.named = true → v.boundTo < ts.length →
    (topicAt ts v.boundTo).hash32 = cell.1.hash ∧ outlived ts v.boundTo = false)

/-- What an entry leaves of a verdict that stands: all but its refusals. -/
theorem entryFate_stands {e : InterestEntry} {v : Verdict} (h : e.role ≠ .inactive → v.named = true →
      v.boundTo < ts.length → (topicAt ts v.boundTo).hash32 = e.hash ∧ outlived ts v.boundTo = false) :
    (entryFate ts e v).verdict.detailed = v.detailed ∧ (entryFate ts e v).verdict.named = v.named ∧
      (entryFate ts e v).verdict.boundTo = v.boundTo ∧ (entryFate ts e v).verdict.gen = v.gen := by
  unfold entryFate
  dsimp only
  split
  next => exact ⟨rfl, rfl, rfl, rfl⟩
  next hlive =>
    split
    next => exact ⟨rfl, rfl, rfl, rfl⟩
    next hknown =>
      rw [not_or] at hlive
      obtain ⟨hhash, hcur⟩ := h hlive.1 (Bool.eq_true_of_not_eq_false hlive.2) (Nat.lt_of_not_le hknown)
      have hstands : ¬ ((topicAt ts v.boundTo).hash32 ≠ e.hash ∨ outlived ts v.boundTo = true) := by
        rw [not_or, hcur]
        exact ⟨not_not_intro hhash, Bool.false_ne_true⟩
      rw [if_neg hstands]
      split
      next => exact ⟨rfl, rfl, rfl, rfl⟩
      split
      next => exact ⟨rfl, rfl, rfl, rfl⟩
      next => exact ⟨rfl, rfl, rfl, rfl⟩

/-- Whatever an entry leaves stands for it. -/
theorem entryFate_leaves {e : InterestEntry} {v : Verdict} {g : Nat} (hg : v.gen = g) :
    (entryFate ts e v).verdict.Stands ts (e, g) := by
  have hgen : (entryFate ts e v).verdict.gen = v.gen := by
    unfold entryFate
    dsimp only
    split
    next => rfl
    split
    next => rfl
    split
    next => rfl
    split
    next => rfl
    split
    next => rfl
    next => rfl
  refine ⟨hgen.trans hg, ?_⟩
  intro hrole hnamed hlt
  obtain ⟨hn, hb, -, -⟩ := entryFate_named hnamed
  rw [hb] at hlt ⊢
  -- an entry that does not name the topic would have dissolved the verdict
  by_cases hsheds : (topicAt ts v.boundTo).hash32 ≠ e.hash ∨ outlived ts v.boundTo = true
  · have hgone : (entryFate ts e v).verdict = v.dissolve := by
      unfold entryFate
      dsimp only
      rw [if_neg, if_neg (Nat.not_le_of_lt hlt), if_pos hsheds]
      rw [not_or, hn]
      exact ⟨hrole, Bool.true_eq_false_eq_False⟩
    rw [hgone] at hnamed
    exact absurd hnamed Bool.false_ne_true
  · rw [not_or] at hsheds
    exact ⟨not_not.mp hsheds.1, Bool.eq_false_of_not_eq_true hsheds.2⟩

theorem Verdict.Stands.rewired {ts' : List Topic} {v : Verdict} {cell : InterestEntry × Nat}
    (h : v.Stands ts cell) (hlen : ts'.length = ts.length)
    (hwire : ∀ q, Rewired (topicAt ts q) (topicAt ts' q)) : v.Stands ts' cell := by
  refine ⟨h.1, fun hrole hnamed hlt => ?_⟩
  obtain ⟨hhash, hcur⟩ := h.2 hrole hnamed (hlen ▸ hlt)
  unfold Topic.hash32 at hhash ⊢
  rw [(hwire v.boundTo).identity, outlived_rewired hlen hwire]
  exact ⟨hhash, hcur⟩

theorem applyPeerInterest_topics (E : MatchEnv) (ok : Bool) (s : PeerState) (d : Bytes) :
    (applyPeerInterest E ok s d).1.lanes.topics.length = s.lanes.topics.length ∧
      ∀ q, Rewired (topicAt s.lanes.topics q) (topicAt (applyPeerInterest E ok s d).1.lanes.topics q) := by
  unfold applyPeerInterest
  cases interestWalk d with
  | none => exact ⟨rfl, fun q => Rewired.refl _⟩
  | some post =>
    dsimp only
    cases indexEnsure s.verdicts (frontLe 2 d) ok with
    | none =>
      have hstep := (@rematchAll_spec E {} s.lanes).1
      exact ⟨hstep.length, hstep.topics⟩
    | some vs =>
      dsimp only
      rw [stampLanes_topics, (rateLanes_reader _ _ _).1]
      have hstep := (@rematchAll_spec E (listBits s.lanes.topics (sift s.lanes.topics
        (vs.map Verdict.unrefused) (interestCells d post)) d) s.lanes).1
      exact ⟨hstep.length, hstep.topics⟩

/-- The maps cover the list, and every verdict stands for its entry: what an apply of the list
leaves. -/
structure Caught (d post : Bytes) (s : PeerState) : Prop where
  covers : frontLe 2 d ≤ s.verdicts.length
  stands : ∀ cell ∈ interestCells d post, (verdictAt s.verdicts cell.1.pos).Stands s.lanes.topics cell

theorem applyPeerInterest_verdicts {E : MatchEnv} {ok : Bool} {s : PeerState} {d post : Bytes} {vs : List Verdict}
    (hwalk : interestWalk d = some post) (hindex : indexEnsure s.verdicts (frontLe 2 d) ok = some vs) :
    (applyPeerInterest E ok s d).1.verdicts =
      (sift s.lanes.topics (vs.map Verdict.unrefused) (interestCells d post)).verdicts := by
  unfold applyPeerInterest
  rw [hwalk]
  dsimp only
  rw [hindex]

/-- An apply that has storage leaves the list caught. -/
theorem announce_caught {E : MatchEnv} {ok : Bool} {s : PeerState} {d post : Bytes} {vs : List Verdict}
    (hwalk : interestWalk d = some post) (hindex : indexEnsure s.verdicts (frontLe 2 d) ok = some vs) :
    Caught d post (s.step (.announce E ok d)) := by
  have hverdicts := @applyPeerInterest_verdicts E ok s d post vs hwalk hindex
  obtain ⟨hlen, hwire⟩ := applyPeerInterest_topics E ok s d
  refine ⟨?_, fun cell hcell => ?_⟩
  · show _ ≤ (applyPeerInterest E ok s d).1.verdicts.length
    rw [hverdicts]
    unfold sift
    rw [length_siftFold, List.length_map]
    exact (indexEnsure_some hindex).1
  · show Verdict.Stands (applyPeerInterest E ok s d).1.lanes.topics
      (verdictAt (applyPeerInterest E ok s d).1.verdicts cell.1.pos) cell
    rw [hverdicts, sift_at hindex hcell]
    apply Verdict.Stands.rewired _ hlen hwire
    apply entryFate_leaves
    unfold Verdict.regen
    split
    next h => exact h
    split
    next => rfl
    next => rfl

/-- Applied again over verdicts that stand, a list keeps every decision. -/
theorem announce_detailed {E : MatchEnv} {ok : Bool} {s : PeerState} {d post : Bytes} (h : Caught d post s)
    (hwalk : interestWalk d = some post) (hn : frontLe 2 d ≠ 0) (a : Nat) :
    (verdictAt (s.step (.announce E ok d)).verdicts a).detailed = (verdictAt s.verdicts a).detailed := by
  have hindex : indexEnsure s.verdicts (frontLe 2 d) ok = some s.verdicts := by
    unfold indexEnsure
    rw [if_neg hn, if_pos h.covers]
  show (verdictAt (applyPeerInterest E ok s d).1.verdicts a).detailed = _
  rw [applyPeerInterest_verdicts hwalk hindex]
  by_cases ha : ∃ cell ∈ interestCells d post, cell.1.pos = a
  · obtain ⟨cell, hcell, rfl⟩ := ha
    obtain ⟨hgen, hstands⟩ := h.stands cell hcell
    have hregen : (verdictAt s.verdicts cell.1.pos).unrefused.regen cell.2 =
        (verdictAt s.verdicts cell.1.pos).unrefused := if_pos hgen
    rw [sift_at hindex hcell, hregen]
    exact (@entryFate_stands _ cell.1 (verdictAt s.verdicts cell.1.pos).unrefused hstands).1
  · rw [sift_ne hindex fun cell hcell hpos => ha ⟨cell, hcell, hpos⟩]
    rfl

/-! ## What a page decides -/

/-- What a page leaves of a position: what it was, or the judgement of one of its entries. -/
theorem applyEntries_cases {check : SchemaCheck} (page : List Detail) (a : Nat) : ∀ m : Applied,
    verdictAt (page.foldl (applyDetail ts check) m).verdicts a = verdictAt m.verdicts a ∨
      ∃ d ∈ page, d.index = a ∧ verdictAt (page.foldl (applyDetail ts check) m).verdicts a =
        (judge ts check (verdictAt m.verdicts a) d).1 := by
  induction page with
  | nil => intro m; exact Or.inl rfl
  | cons d page ih =>
    intro m
    rw [List.foldl_cons]
    have hstep : verdictAt (applyDetail ts check m d).verdicts a = verdictAt m.verdicts a ∨
        (d.index = a ∧ (verdictAt (applyDetail ts check m d).verdicts a).detailed = true ∧
          verdictAt (applyDetail ts check m d).verdicts a = (judge ts check (verdictAt m.verdicts a) d).1) := by
      by_cases ha : a = d.index
      · subst ha
        by_cases hlt : d.index < m.verdicts.length
        · by_cases hdet : (verdictAt m.verdicts d.index).detailed = true
          · exact Or.inl (applyDetail_decided hdet d)
          · refine Or.inr ⟨rfl, applyDetail_at hlt, ?_⟩
            unfold applyDetail
            rw [if_neg (Nat.not_le_of_lt hlt), if_neg hdet]
            dsimp only
            rw [verdictAt_set hlt, if_pos rfl]
        · refine Or.inl ?_
          unfold applyDetail
          rw [if_pos (Nat.le_of_not_lt hlt)]
      · exact Or.inl (applyDetail_ne ha)
    rcases hstep with hsame | ⟨hidx, hdet, hjudge⟩
    · rcases ih (applyDetail ts check m d) with hrest | ⟨e, he, hidx, hrest⟩
      · exact Or.inl (hrest.trans hsame)
      · rw [hsame] at hrest
        exact Or.inr ⟨e, List.mem_cons_of_mem d he, hidx, hrest⟩
    · refine Or.inr ⟨d, List.mem_cons_self, hidx, ?_⟩
      rw [applyEntries_decided page hdet, hjudge]

theorem topicByIdentity_some {id c : Nat} (h : topicByIdentity ts id = some c) :
    c < ts.length ∧ (topicAt ts c).identity = id := by
  have hin : c ∈ (List.range ts.length).filter fun c =>
      !(topicAt ts c).retired && decide ((topicAt ts c).identity = id) := by
    unfold topicByIdentity at h
    dsimp only at h
    rcases Option.or_eq_some_iff.mp h with hfind | ⟨-, hhead⟩
    · exact List.mem_of_find?_eq_some hfind
    · exact List.mem_of_head? hhead
  obtain ⟨hlt, hp⟩ := List.mem_filter.mp hin
  exact ⟨List.mem_range.mp hlt, of_decide_eq_true (Bool.and_eq_true_iff.mp hp).2⟩

/-- A judgement keeps the generation, and where it names a topic that is the one its name finds. -/
theorem judge_named {check : SchemaCheck} {v : Verdict} {d : Detail} :
    (judge ts check v d).1.gen = v.gen ∧ ((judge ts check v d).1.named = true →
      topicByIdentity ts (fnv1a64 d.name) = some (judge ts check v d).1.boundTo) := by
  unfold judge
  split
  next => exact ⟨rfl, fun h => absurd h Bool.false_ne_true⟩
  split
  next => exact ⟨rfl, fun h => absurd h Bool.false_ne_true⟩
  next c hc =>
    split
    next => exact ⟨rfl, fun h => absurd h Bool.false_ne_true⟩
    next => exact ⟨rfl, fun _ => hc⟩

/-- A judged verdict stands for an entry that carries the name's hash. -/
theorem judge_stands {check : SchemaCheck} {v : Verdict} {d : Detail} {cell : InterestEntry × Nat}
    (hg : v.gen = cell.2) (hhash : cell.1.role ≠ .inactive → cell.1.hash = fnv1a64 d.name % 2 ^ 32) :
    (judge ts check v d).1.Stands ts cell := by
  obtain ⟨hgen, hbound⟩ := @judge_named ts check v d
  refine ⟨hgen.trans hg, fun hrole hnamed _ => ?_⟩
  have hfound := hbound hnamed
  obtain ⟨-, hid⟩ := topicByIdentity_some hfound
  refine ⟨?_, ?_⟩
  · unfold Topic.hash32
    rw [hid, hhash hrole]
  · unfold outlived
    rw [hid, hfound]
    simp

/-! ## Rounds -/

/-- How the requester asks in one round, and what the code around it answers meanwhile. -/
structure Asking where
  schemas : Option (Nat → Nat)
  maxWants : Nat
  domain : Nat
  version : Nat
  reqCap : Nat
  check : SchemaCheck
  E : MatchEnv
  ok : Bool
  pos : 0 < maxWants
  small : maxWants < 2 ^ 16
  fits : detailHdr + maxWants * 10 ≤ reqCap
  hash : ∀ f, schemas = some f → ∀ c, f c < 2 ^ 64

/-- The response of a node with table `R` to a request: a page of the size it measured. -/
def nodeRespond (R : List Topic) (schemas : Nat → MetaSchema) (metaVersion : Nat) (req : Bytes) : Option Bytes :=
  (detailRespSize R schemas req).bind fun size => detailRespond R schemas metaVersion req size

/-- A round: what is missing of the list `d` is asked for, and the answer and the list are
applied. Nothing missing, nothing is asked. -/
def detailRound (R : List Topic) (schemas : Nat → MetaSchema) (metaVersion : Nat) (d : Bytes) (s : PeerState)
    (x : Asking) : PeerState :=
  let ws := peerWants s.lanes.topics x.schemas s.verdicts d x.maxWants
  if ws = [] then s
  else
    match (detailReqBuild x.domain x.version ws x.reqCap).bind (nodeRespond R schemas metaVersion) with
    | none => s
    | some resp => (s.step (.details x.check resp)).step (.announce x.E x.ok d)

/-- A table as it was defined: the fields fit, and a name's topic has the name's identity. -/
structure Announcer (R : List Topic) (schemas : Nat → MetaSchema) : Prop extends DetailFields R schemas where
  small : R.length < 2 ^ 16
  identity : ∀ t ∈ R, t.announced = true → t.identity = fnv1a64 t.name

theorem mem_liveEntries : ∀ (R : List Topic) (c : Nat) {e : InterestEntry}, e ∈ liveEntries c R →
    ∃ i, i < R.length ∧ (topicAt R i).announced = true ∧ (topicAt R i).role ≠ .inactive ∧
      e = (topicAt R i).entryAt (c + i) := by
  intro R
  induction R with
  | nil => intro c e h; exact absurd h List.not_mem_nil
  | cons t R ih =>
    intro c e h
    have hshift : ∀ e ∈ liveEntries (c + 1) R, ∃ i, i < (t :: R).length ∧ (topicAt (t :: R) i).announced = true ∧
        (topicAt (t :: R) i).role ≠ .inactive ∧ e = (topicAt (t :: R) i).entryAt (c + i) := by
      intro e he
      obtain ⟨i, hi, ha, hr, rfl⟩ := ih (c + 1) he
      refine ⟨i + 1, Nat.succ_lt_succ hi, ha, hr, ?_⟩
      show (topicAt R i).entryAt (c + 1 + i) = (topicAt R i).entryAt (c + (i + 1))
      rw [Nat.add_assoc, Nat.add_comm 1 i]
    unfold liveEntries at h
    by_cases hlive : (t.announced && decide (t.role ≠ .inactive)) = true
    · rw [if_pos hlive] at h
      rcases List.mem_cons.mp h with rfl | hin
      · obtain ⟨ha, hr⟩ := Bool.and_eq_true_iff.mp hlive
        exact ⟨0, Nat.succ_pos _, ha, of_decide_eq_true hr, rfl⟩
      · exact hshift e hin
    · rw [if_neg hlive] at h
      exact hshift e h

section Rounds

variable {R : List Topic} {post : Bytes} {s : PeerState}

/-- What the list of a table says of its entries. -/
theorem announcer_entry (hR : Announcer R schemas) {e : InterestEntry} (he : e ∈ interestScan (interestEmit R)) :
    e.pos < R.length ∧ (topicAt R e.pos).announced = true ∧ (topicAt R e.pos).role ≠ .inactive ∧
      e.hash = fnv1a64 (topicAt R e.pos).name % 2 ^ 32 := by
  rw [(interestEmit_read hR.small).2] at he
  obtain ⟨i, hi, ha, hr, rfl⟩ := mem_liveEntries R 0 he
  have hpos : ((topicAt R i).entryAt (0 + i)).pos = i := Nat.zero_add i
  rw [hpos]
  refine ⟨hi, ha, hr, ?_⟩
  show (topicAt R i).identity % 2 ^ 32 = _
  rw [hR.identity _ (topicAt_mem hi) ha]

/-- What is asked for: positions of pending entries, in fields that fit, and all of them that fit
a request. -/
theorem mem_peerWants (hR : Announcer R schemas) {x : Asking} {w : DetailWant}
    (hw : w ∈ peerWants s.lanes.topics x.schemas s.verdicts (interestEmit R) x.maxWants) :
    w.Typed ∧ ∃ e ∈ interestScan (interestEmit R), w.index = e.pos ∧
      (detailWant s.lanes.topics none (s.verdicts.map Verdict.astate) e).isSome = true := by
  obtain ⟨v, hv, rfl⟩ := List.mem_map.mp hw
  unfold detailWants at hv
  obtain ⟨post, hwalk⟩ := (interestEmit_read hR.small).1
  rw [hwalk] at hv
  obtain ⟨e, he, hev⟩ := List.mem_filterMap.mp (List.mem_of_mem_take hv)
  obtain ⟨hpos, hhash⟩ := detailWant_some hev
  have hlt := (announcer_entry hR he).1
  have hsmall := hR.small
  have hidx : v.1 % 2 ^ 16 = e.pos := by
    rw [hpos]
    exact Nat.mod_eq_of_lt (by omega)
  refine ⟨⟨Nat.mod_lt _ (by decide), ?_⟩, e, he, hidx, ?_⟩
  · dsimp only
    rcases hhash with hz | ⟨f, c, hf, hc⟩
    · rw [hz]
      decide
    · rw [hc]
      exact x.hash f hf c
  · have hsome : (detailWant s.lanes.topics x.schemas (s.verdicts.map Verdict.astate) e).isSome = true := by
      rw [hev]
      rfl
    exact detailWant_isSome.mpr (detailWant_isSome.mp hsome)

theorem peerWants_ne (hR : Announcer R schemas) {x : Asking}
    (h : pendingCount s.lanes.topics s.verdicts (interestEmit R) ≠ 0) :
    peerWants s.lanes.topics x.schemas s.verdicts (interestEmit R) x.maxWants ≠ [] := by
  obtain ⟨e, he, hsome⟩ := List.countP_pos_iff.mp (Nat.pos_of_ne_zero h)
  have hsome' : (detailWant s.lanes.topics x.schemas (s.verdicts.map Verdict.astate) e).isSome = true :=
    detailWant_isSome.mpr (detailWant_isSome.mp hsome)
  obtain ⟨v, hv⟩ := Option.isSome_iff_exists.mp hsome'
  obtain ⟨post, hwalk⟩ := (interestEmit_read hR.small).1
  unfold peerWants detailWants
  rw [hwalk]
  dsimp only
  intro hnil
  have hin : v ∈ (interestScan (interestEmit R)).filterMap
      (detailWant s.lanes.topics x.schemas (s.verdicts.map Verdict.astate)) :=
    List.mem_filterMap.mpr ⟨e, he, hv⟩
  have htake := List.map_eq_nil_iff.mp hnil
  rcases List.take_eq_nil_iff.mp htake with hz | hz
  · exact absurd hz (Nat.ne_of_gt x.pos)
  · rw [hz] at hin
    exact absurd hin List.not_mem_nil

theorem length_peerWants (x : Asking) (d : Bytes) :
    (peerWants s.lanes.topics x.schemas s.verdicts d x.maxWants).length ≤ x.maxWants := by
  unfold peerWants detailWants
  rw [List.length_map]
  split
  next => exact Nat.zero_le _
  next => exact List.length_take_le _ _

/-- What a round's response is: a page that is not empty, of entries that were asked for and tell
the announced table. -/
theorem round_page (hR : Announcer R schemas) (metaVersion : Nat) {x : Asking}
    (h : peerWants s.lanes.topics x.schemas s.verdicts (interestEmit R) x.maxWants ≠ []) :
    ∃ resp page, (detailReqBuild x.domain x.version
        (peerWants s.lanes.topics x.schemas s.verdicts (interestEmit R) x.maxWants) x.reqCap).bind
          (nodeRespond R schemas metaVersion) = some resp ∧
      detailEntries resp = page ∧ page ≠ [] ∧ ∀ d ∈ page, d.name = (topicAt R d.index).name ∧
        ∃ e ∈ interestScan (interestEmit R), d.index = e.pos ∧
          (detailWant s.lanes.topics none (s.verdicts.map Verdict.astate) e).isSome = true := by
  obtain ⟨ws, hws⟩ : ∃ ws, ws = peerWants s.lanes.topics x.schemas s.verdicts (interestEmit R) x.maxWants :=
    ⟨_, rfl⟩
  have hmem : ∀ w ∈ ws, w.Typed ∧ ∃ e ∈ interestScan (interestEmit R), w.index = e.pos ∧
      (detailWant s.lanes.topics none (s.verdicts.map Verdict.astate) e).isSome = true := by
    intro w hw
    rw [hws] at hw
    exact mem_peerWants hR hw
  have hlen : ws.length ≤ x.maxWants := by
    rw [hws]
    exact length_peerWants x _
  rw [← hws] at h ⊢
  have hsmall := x.small
  have hfits := x.fits
  obtain ⟨req, hreq⟩ : ∃ req, detailReqBuild x.domain x.version ws x.reqCap = some req := by
    unfold detailReqBuild
    rw [if_neg (by omega)]
    exact ⟨_, rfl⟩
  obtain ⟨resp, page, hresp, hpage, hentries⟩ := @respond_entries R schemas hR.toDetailFields x.domain x.version
    metaVersion x.reqCap dgramMax ws req (by omega) (fun w hw => (hmem w hw).1) hreq (by decide) (by decide)
  have hwants := requestWants_build (by omega) (fun w hw => (hmem w hw).1) hreq
  obtain ⟨size, hsize⟩ : ∃ size, detailRespSize R schemas req = some size := by
    unfold detailRespSize detailMeasure
    rw [hwants]
    exact ⟨_, rfl⟩
  refine ⟨resp, page, ?_, hentries, ?_, ?_⟩
  · rw [hreq, Option.bind_some]
    unfold nodeRespond
    rw [hsize, Option.bind_some, (respond_sized hsize).1]
    exact hresp
  · -- every slot asked for is advertised, so the answers are not empty
    intro hnil
    obtain ⟨rest, hall, hcut⟩ := hpage.cut
    obtain ⟨w, ws', hcons⟩ := List.exists_cons_of_ne_nil h
    have hw : w ∈ ws := by
      rw [hcons]
      exact List.mem_cons_self
    obtain ⟨e, he, hidx, -⟩ := (hmem w hw).2
    obtain ⟨hlt, hann, hrole, -⟩ := announcer_entry hR he
    rw [← hidx] at hlt hann hrole
    have hname : (topicAt R w.index).name ≠ [] := by
      unfold Topic.announced at hann
      exact of_decide_eq_true (Bool.and_eq_true_iff.mp hann).1
    have hsome : ∃ d, answerFor R schemas w = some d := by
      unfold answerFor
      rw [if_neg (Nat.not_le_of_lt hlt), if_neg (not_or.mpr ⟨hrole, hname⟩)]
      exact ⟨_, rfl⟩
    obtain ⟨d, hd⟩ := hsome
    have hin : d ∈ ws.filterMap (answerFor R schemas) := List.mem_filterMap.mpr ⟨w, hw, hd⟩
    rw [hnil, List.nil_append] at hall
    rw [hall] at hin
    obtain ⟨first, more, hmore⟩ := List.exists_cons_of_ne_nil (List.ne_nil_of_mem hin)
    exact (hcut first (by rw [hmore]; rfl)).1 hnil
  · intro d hd
    obtain ⟨rest, hall, -⟩ := hpage.cut
    have hin : d ∈ ws.filterMap (answerFor R schemas) := by
      rw [hall]
      exact List.mem_append_left rest hd
    obtain ⟨w, hw, ha⟩ := List.mem_filterMap.mp hin
    obtain ⟨-, -, -, hidx, -, hname, -⟩ := answerFor_some ha
    obtain ⟨e, he, hpos, hpend⟩ := (hmem w hw).2
    exact ⟨by rw [hname, hidx], e, he, hidx.trans hpos, hpend⟩

/-- A round from a caught list: the list stays caught, and less is missing where something was. -/
theorem detailRound_step (hR : Announcer R schemas) (hwalk : interestWalk (interestEmit R) = some post)
    (h : Caught (interestEmit R) post s) (metaVersion : Nat) (x : Asking) :
    Caught (interestEmit R) post (detailRound R schemas metaVersion (interestEmit R) s x) ∧
      (pendingCount s.lanes.topics s.verdicts (interestEmit R) ≠ 0 →
        pendingCount (detailRound R schemas metaVersion (interestEmit R) s x).lanes.topics
          (detailRound R schemas metaVersion (interestEmit R) s x).verdicts (interestEmit R) <
          pendingCount s.lanes.topics s.verdicts (interestEmit R)) := by
  unfold detailRound
  dsimp only
  by_cases hnil : peerWants s.lanes.topics x.schemas s.verdicts (interestEmit R) x.maxWants = []
  · rw [if_pos hnil]
    exact ⟨h, fun hz => absurd hnil (peerWants_ne hR hz)⟩
  rw [if_neg hnil]
  obtain ⟨resp, page, hresp, hentries, hne, hpage⟩ := round_page hR metaVersion hnil
  rw [hresp]
  dsimp only
  obtain ⟨s', hs'⟩ : ∃ s', s' = s.step (.details x.check resp) := ⟨_, rfl⟩
  have hlanes : s'.lanes = s.lanes := by
    rw [hs']
    rfl
  have hverdicts : s'.verdicts =
      (page.foldl (applyDetail s.lanes.topics x.check) { verdicts := s.verdicts }).verdicts := by
    rw [hs', ← hentries]
    rfl
  rw [← hs']
  -- the page keeps the list caught
  have hcaught : Caught (interestEmit R) post s' := by
    constructor
    · rw [hverdicts, length_applyEntries]
      exact h.covers
    · intro cell hcell
      rw [hlanes, hverdicts]
      rcases applyEntries_cases page cell.1.pos { verdicts := s.verdicts } with hsame | ⟨d, hd, hidx, hjudge⟩
      · rw [hsame]
        exact h.stands cell hcell
      · rw [hjudge]
        apply judge_stands (h.stands cell hcell).1
        intro hrole
        have hscan : cell.1 ∈ interestScan (interestEmit R) :=
          (mem_interestScan post).mpr ⟨hrole, cell.2, hcell⟩
        rw [(hpage d hd).1, hidx]
        exact (announcer_entry hR hscan).2.2.2
  obtain ⟨d, hd⟩ := List.exists_mem_of_ne_nil page hne
  obtain ⟨-, e, he, hidx, hpend⟩ := hpage d hd
  have hpos : e.pos < frontLe 2 (interestEmit R) := by
    obtain ⟨-, g, hcell⟩ := (mem_interestScan post).mp he
    exact interestCells_pos hcell
  have hn : frontLe 2 (interestEmit R) ≠ 0 := Nat.ne_of_gt (Nat.lt_of_le_of_lt (Nat.zero_le _) hpos)
  have hindex : indexEnsure s'.verdicts (frontLe 2 (interestEmit R)) x.ok = some s'.verdicts := by
    unfold indexEnsure
    rw [if_neg hn, if_pos hcaught.covers]
  refine ⟨announce_caught hwalk hindex, fun _ => ?_⟩
  have hdet := @announce_detailed x.E x.ok s' _ post hcaught hwalk hn
  obtain ⟨hlen, hwire⟩ := applyPeerInterest_topics x.E x.ok s' (interestEmit R)
  rw [hlanes] at hlen hwire
  apply pending_lt hlen hwire _ he hpend
  · rw [← hidx]
    show (verdictAt (s'.step (.announce x.E x.ok (interestEmit R))).verdicts d.index).detailed = true
    rw [hdet, hverdicts]
    apply applyEntries_at page hd
    dsimp only
    rw [hidx]
    exact Nat.lt_of_lt_of_le hpos h.covers
  · intro a ha
    show (verdictAt (s'.step (.announce x.E x.ok (interestEmit R))).verdicts a).detailed = true
    rw [hdet, hverdicts, applyEntries_decided page ha]
    exact ha

/-- As many rounds as entries are missing leave nothing missing. -/
theorem detailRounds_done (hR : Announcer R schemas) (hwalk : interestWalk (interestEmit R) = some post)
    (metaVersion : Nat) : ∀ (xs : List Asking) {s : PeerState}, Caught (interestEmit R) post s →
    pendingCount s.lanes.topics s.verdicts (interestEmit R) ≤ xs.length →
    pendingCount (xs.foldl (detailRound R schemas metaVersion (interestEmit R)) s).lanes.topics
      (xs.foldl (detailRound R schemas metaVersion (interestEmit R)) s).verdicts (interestEmit R) = 0 := by
  intro xs
  induction xs with
  | nil =>
    intro s _ hle
    exact Nat.le_zero.mp hle
  | cons x xs ih =>
    intro s h hle
    obtain ⟨hcaught, hlt⟩ := detailRound_step hR hwalk h metaVersion x
    rw [List.foldl_cons]
    apply ih hcaught
    rw [List.length_cons] at hle
    by_cases hz : pendingCount s.lanes.topics s.verdicts (interestEmit R) = 0
    · -- nothing to ask for: the round changes nothing
      have hnil : peerWants s.lanes.topics x.schemas s.verdicts (interestEmit R) x.maxWants = [] := by
        by_contra hne
        obtain ⟨w, hw⟩ := List.exists_mem_of_ne_nil _ hne
        obtain ⟨-, e, he, -, hpend⟩ := mem_peerWants hR hw
        have hpos : 0 < pendingCount s.lanes.topics s.verdicts (interestEmit R) :=
          List.countP_pos_iff.mpr ⟨e, he, hpend⟩
        exact absurd hz (Nat.ne_of_gt hpos)
      have hsame : detailRound R schemas metaVersion (interestEmit R) s x = s := by
        unfold detailRound
        dsimp only
        rw [if_pos hnil]
      rw [hsame, hz]
      exact Nat.zero_le _
    · have hdown := hlt hz
      omega

end Rounds

/-- A page that speaks of a pending entry the maps cover decides it, whoever sent it. -/
theorem applyPeerDetails_progress {check : SchemaCheck} {vs : List Verdict} {d resp : Bytes}
    {e : InterestEntry} {x : Detail} (he : e ∈ interestScan d)
    (hpend : (detailWant ts none (vs.map Verdict.astate) e).isSome = true)
    (hx : x ∈ detailEntries resp) (hidx : x.index = e.pos) (hlt : e.pos < vs.length) :
    pendingCount ts (applyPeerDetails ts check vs resp).verdicts d < pendingCount ts vs d := by
  apply pending_lt rfl (fun q => Rewired.refl _) _ he hpend
  · rw [← hidx]
    apply applyEntries_at (detailEntries resp) hx
    rw [hidx]
    exact hlt
  · intro a ha
    rw [applyPeerDetails_decided ha]
    exact ha

/-! ## Pages past 32 bits

The iterator's offset has 32 bits. A capacity of 4 GiB and more takes pages it does not step
through: behind the wrap it reads an entry out of the first entry's wire. -/

/-- An entry of zeros. -/
theorem detailBytes_zero : detailBytes ⟨0, 0, [], 0, []⟩ = List.replicate 14 0 := by decide

/-- A page of one entry over and over, past the wrap. -/
theorem detailEntries_wrapped {d : Detail} (hd : d.Typed) (hname : d.name ≠ []) {k m a z domain metaVersion : Nat}
    (hlen : detailHdr + k * d.need < 2 ^ 32) (hwire : d.schemaWire = List.replicate (a + (14 + z)) 0)
    (hoff : detailHdr + (k + 1) * d.need = 2 ^ 32 + (detailHdr + (14 + d.name.length) + a))
    (ha : detailHdr + (14 + d.name.length) + a < 2 ^ 32) (hcount : k + (m + 2) < 2 ^ 16) :
    detailEntries (detailHeader detailResp domain metaVersion (k + (m + 2)) ++
      (List.replicate (k + (m + 2)) d).flatMap detailBytes) ≠ List.replicate (k + (m + 2)) d := by
  obtain ⟨hdr, hhdr⟩ : ∃ hdr, hdr = detailHeader detailResp domain metaVersion (k + (m + 2)) := ⟨_, rfl⟩
  obtain ⟨resp, hresp⟩ : ∃ resp, resp = hdr ++ (List.replicate (k + (m + 2)) d).flatMap detailBytes := ⟨_, rfl⟩
  have hhlen : hdr.length = detailHdr := by
    rw [hhdr]
    exact length_detailHeader _ _ _ _
  have hbytes : pageBytes (List.replicate k d) = k * d.need := by
    unfold pageBytes
    rw [List.map_replicate, List.sum_replicate_nat]
  -- the calls before the wrap
  have hfirst : resp = hdr ++ ((List.replicate k d).flatMap detailBytes ++
      (detailBytes d ++ (List.replicate (m + 1) d).flatMap detailBytes)) := by
    rw [hresp, List.replicate_add, List.flatMap_append, List.replicate_succ, List.flatMap_cons]
  have hdrain := detailDrain_entries (List.replicate k d) hdr
    (detailBytes d ++ (List.replicate (m + 1) d).flatMap detailBytes) (2 ^ 16 - k) (m + 2)
    (fun e he => List.eq_of_mem_replicate he ▸ hd) (by rw [hbytes, hhlen]; exact hlen)
  rw [← hfirst, hbytes, hhlen, List.length_replicate, Nat.sub_add_cancel (by omega), Nat.add_comm (m + 2) k]
    at hdrain
  -- the call that wraps
  have hpre : (hdr ++ (List.replicate k d).flatMap detailBytes).length = detailHdr + k * d.need := by
    rw [List.length_append, length_page, hbytes, hhlen]
  have hat := detailAt_bytes hd (hdr ++ (List.replicate k d).flatMap detailBytes)
    ((List.replicate (m + 1) d).flatMap detailBytes)
  rw [hpre, List.append_assoc, ← hfirst] at hat
  have hwrap : (detailHdr + k * d.need + d.need) % 2 ^ 32 = detailHdr + (14 + d.name.length) + a := by
    rw [Nat.add_assoc, ← Nat.succ_mul, hoff, Nat.add_mod_left, Nat.mod_eq_of_lt ha]
  rw [hwrap] at hat
  have hstep := detailNext_some (Nat.succ_ne_zero (m + 1)) hat
  -- the call behind it, in the zeros of the first entry's wire
  obtain ⟨front, hfront, hflen⟩ : ∃ front, detailBytes d = front ++ d.schemaWire ∧ front.length = 14 + d.name.length := by
    refine ⟨writeLe 2 d.index ++ ([UInt8.ofNat d.attrs, UInt8.ofNat d.name.length] ++ (d.name ++
      (writeLe 8 d.schemaHash ++ writeLe 2 d.schemaWire.length))), ?_, ?_⟩
    · unfold detailBytes
      simp only [List.append_assoc]
    · simp only [List.length_append, length_writeLe, List.length_cons, List.length_nil]
      omega
  have hzeros : resp = (hdr ++ (front ++ List.replicate a 0)) ++ (detailBytes ⟨0, 0, [], 0, []⟩ ++
      (List.replicate z 0 ++ (List.replicate (k + (m + 1)) d).flatMap detailBytes)) := by
    have hsucc : k + (m + 2) = (k + (m + 1)) + 1 := by omega
    rw [hresp, hsucc, List.replicate_succ, List.flatMap_cons, hfront, hwire, List.replicate_add,
      List.replicate_add, detailBytes_zero]
    simp only [List.append_assoc]
  have hzlen : (hdr ++ (front ++ List.replicate a 0)).length = detailHdr + (14 + d.name.length) + a := by
    rw [List.length_append, List.length_append, List.length_replicate, hhlen, hflen]
    omega
  have hzero : (⟨0, 0, [], 0, []⟩ : Detail).Typed := by constructor <;> decide
  have hatz := detailAt_bytes hzero (hdr ++ (front ++ List.replicate a 0))
    (List.replicate z 0 ++ (List.replicate (k + (m + 1)) d).flatMap detailBytes)
  rw [hzlen, ← hzeros] at hatz
  have hstepz := detailNext_some (Nat.succ_ne_zero m) hatz
  -- so an entry without a name is among what is yielded
  intro heq
  have hstart : detailEntries resp = detailDrain resp (2 ^ 16) (atEntry (k + (m + 2)) detailHdr) := by
    have hkind : detailKind resp = detailResp := by
      rw [hresp, hhdr]
      exact detailKind_header _ _ _ _ _ (by decide)
    have hcnt : frontLe 2 (resp.drop 12) = k + (m + 2) := by
      rw [hresp, hhdr, detailCount_header]
      exact Nat.mod_eq_of_lt hcount
    have hst : detailStart resp {} = atEntry (k + (m + 2)) detailHdr := by
      unfold detailStart
      rw [if_neg Bool.false_ne_true, hkind, if_neg (not_not_intro rfl), hcnt]
    have hnext : detailNext resp {} = detailNext resp (atEntry (k + (m + 2)) detailHdr) := by
      unfold detailNext
      rw [hst]
      rfl
    unfold detailEntries
    rw [show (2 : Nat) ^ 16 = 65535 + 1 from rfl, detailDrain, detailDrain, hnext]
  rw [← hhdr, ← hresp, hstart, hdrain] at heq
  obtain ⟨n, hn⟩ : ∃ n, 2 ^ 16 - k = n + 1 + 1 := ⟨2 ^ 16 - k - 2, by omega⟩
  rw [hn, detailDrain, hstep] at heq
  dsimp only at heq
  rw [Nat.succ_sub_one, detailDrain, hstepz] at heq
  dsimp only at heq
  have hin : (⟨0, 0, [], 0, []⟩ : Detail) ∈ List.replicate (k + (m + 2)) d := by
    rw [← heq]
    exact List.mem_append_right _ (List.mem_cons_of_mem _ List.mem_cons_self)
  have hsame := List.eq_of_mem_replicate hin
  rw [← hsame] at hname
  exact hname rfl

/-! ## The exchange -/

/-- At every capacity from a header up to 4 GiB a response is measured as it is written, is a
prefix of the answers and is yielded whole. A page that speaks of a pending entry with storage
makes progress, and against the announced table the rounds end with nothing missing. -/
theorem detail_exchange :
    (∀ ts schemas metaVersion req cap, detailHdr ≤ cap →
      (detailRespond ts schemas metaVersion req cap).map List.length = detailMeasure ts schemas req cap) ∧
    (∀ ts schemas metaVersion req size, detailRespSize ts schemas req = some size →
      (detailRespond ts schemas metaVersion req size).map List.length = some size) ∧
    (∀ ts schemas, DetailFields ts schemas → ∀ domain version metaVersion reqCap cap ws req,
      ws.length < 2 ^ 16 → (∀ w ∈ ws, w.Typed) → detailReqBuild domain version ws reqCap = some req →
      detailHdr ≤ cap → cap < 2 ^ 32 → ∃ resp page, detailRespond ts schemas metaVersion req cap = some resp ∧
        PageOf cap (ws.filterMap (answerFor ts schemas)) page ∧ detailEntries resp = page) ∧
    (∀ ts check vs d resp, ∀ e ∈ interestScan d, ∀ x ∈ detailEntries resp,
      (detailWant ts none (vs.map Verdict.astate) e).isSome = true → x.index = e.pos → e.pos < vs.length →
      pendingCount ts (applyPeerDetails ts check vs resp).verdicts d < pendingCount ts vs d) ∧
    (∀ R schemas, Announcer R schemas → ∀ post, interestWalk (interestEmit R) = some post →
      ∀ s, Caught (interestEmit R) post s → ∀ (metaVersion : Nat) (xs : List Asking),
        pendingCount s.lanes.topics s.verdicts (interestEmit R) ≤ xs.length →
        pendingCount (xs.foldl (detailRound R schemas metaVersion (interestEmit R)) s).lanes.topics
          (xs.foldl (detailRound R schemas metaVersion (interestEmit R)) s).verdicts (interestEmit R) = 0) := by
  refine ⟨?_, ?_, ?_, ?_, ?_⟩
  · intro ts schemas metaVersion req cap hcap
    exact respond_length hcap metaVersion req
  · intro ts schemas metaVersion req size h
    exact (respond_sized h).2
  · intro ts schemas hf domain version metaVersion reqCap cap ws req hn hty hreq hcap hmax
    exact respond_entries hf hn hty hreq hcap hmax
  · intro ts check vs d resp e he x hx hpend hidx hlt
    exact applyPeerDetails_progress he hpend hx hidx hlt
  · intro R schemas hR post hwalk s hs metaVersion xs hle
    exact detailRounds_done hR hwalk metaVersion xs hs hle

/-- Two topics announced, and how a subscriber of the first asks. -/
def pairTable : List Topic :=
  [twin .pubOnly false, { twin .pubOnly false with name := [121], identity := fnv1a64 [121] }]

def pairAsking : Asking where
  schemas := none
  maxWants := 1
  domain := 0
  version := 1
  reqCap := 64
  check := fun _ _ _ _ => true
  E := {}
  ok := true
  pos := Nat.one_pos
  small := Nat.le_of_ble_eq_true rfl
  fits := Nat.le_of_ble_eq_true rfl
  hash := fun f h => absurd h.symm (Option.some_ne_none f)

/-- One round, and nothing is missing. -/
theorem detail_exchange_pair :
    pendingCount (detailRound pairTable (fun _ => {}) 1 (interestEmit pairTable)
        (twinSubscriber.step (.announce {} true (interestEmit pairTable))) pairAsking).lanes.topics
      (detailRound pairTable (fun _ => {}) 1 (interestEmit pairTable)
        (twinSubscriber.step (.announce {} true (interestEmit pairTable))) pairAsking).verdicts
      (interestEmit pairTable) = 0 := by
  have hR : Announcer pairTable fun _ => {} := by
    refine ⟨⟨?_, ?_, ?_⟩, ?_, ?_⟩
    · decide +kernel
    · decide +kernel
    · intro c
      show 0 < 2 ^ 64
      decide
    · decide +kernel
    · decide +kernel
  obtain ⟨post, hwalk⟩ := (interestEmit_read hR.small).1
  have hindex : indexEnsure twinSubscriber.verdicts (frontLe 2 (interestEmit pairTable)) true =
      some [{}, {}] := by decide +kernel
  have hcaught := @announce_caught {} true twinSubscriber _ post _ hwalk hindex
  exact detail_exchange.2.2.2.2 pairTable (fun _ => {}) hR post hwalk _ hcaught 1 [pairAsking] (by decide +kernel)

/-- A table whose one name and wire are as long as they get. -/
def wideTopic : Topic := { twin .pubOnly false with name := List.replicate 64 1 }
def wideSchema (wire : Bytes) : Nat → MetaSchema := fun _ => ⟨1, wire⟩

/-- Below a header's capacity nothing is written of what is measured; past 4 GiB the iterator
loses its place; and without storage for the verdicts a page makes no progress. -/
theorem detail_exchange_limits :
    (¬ ∀ ts schemas metaVersion req cap,
      (detailRespond ts schemas metaVersion req cap).map List.length = detailMeasure ts schemas req cap) ∧
    (¬ ∀ ts schemas metaVersion ws req cap resp page, (∀ w ∈ ws, w.Typed) →
      detailReqBuild 0 0 ws (2 ^ 20) = some req → detailHdr ≤ cap →
      detailRespond ts schemas metaVersion req cap = some resp →
      PageOf cap (ws.filterMap (answerFor ts schemas)) page → detailEntries resp = page) ∧
    (¬ ∀ ts check vs d resp, ∀ e ∈ interestScan d, ∀ x ∈ detailEntries resp,
      (detailWant ts none (vs.map Verdict.astate) e).isSome = true → x.index = e.pos →
      pendingCount ts (applyPeerDetails ts check vs resp).verdicts d < pendingCount ts vs d) := by
  refine ⟨?_, ?_, ?_⟩
  · intro h
    have hsmall := h [] (fun _ => {}) 0 (detailHeader detailReq 0 0 0) 13
    exact absurd hsmall (by decide +kernel)
  · intro h
    obtain ⟨wire, hwire⟩ : ∃ wire : Bytes, wire = List.replicate (59606 + (14 + 5915)) 0 := ⟨_, rfl⟩
    have hwlen : wire.length = 65535 := by
      rw [hwire, List.length_replicate]
    obtain ⟨d, hd⟩ : ∃ d : Detail, d = ⟨0, 0, List.replicate 64 1, 1, wire⟩ := ⟨_, rfl⟩
    have hanswer : answerFor [wideTopic] (wideSchema wire) ⟨0, 0⟩ = some d := by
      have hle : wire.length ≤ 0xFFFF := Nat.le_of_eq hwlen
      unfold answerFor
      rw [if_neg (by decide), if_neg (by decide)]
      dsimp only
      have hone : (wideSchema wire 0).hash ≠ 0 ∧ (wideSchema wire 0).hash ≠ 0 ∧
          (wideSchema wire 0).wire.length ≤ 0xFFFF := ⟨Nat.one_ne_zero, Nat.one_ne_zero, hle⟩
      rw [if_pos hone, hd]
      rfl
    have hdname : d.name.length = 64 := by
      rw [hd]
      rfl
    have hneed : d.need = 65613 := by
      rw [hd]
      unfold Detail.need
      dsimp only
      rw [hwlen]
      rfl
    have htyped : d.Typed := by
      rw [hd]
      refine ⟨Nat.two_pow_pos 16, Nat.two_pow_pos 8, ?_, ?_, ?_⟩
      · show 64 < 2 ^ 8
        decide
      · show 1 < 2 ^ 64
        decide
      · show wire.length < 2 ^ 16
        rw [hwlen]
        decide
    obtain ⟨ws, hws⟩ : ∃ ws : List DetailWant, ws = List.replicate (65459 + (74 + 2)) ⟨0, 0⟩ := ⟨_, rfl⟩
    have hwslen : ws.length = 65535 := by
      rw [hws, List.length_replicate]
    have htys : ∀ w ∈ ws, w.Typed := by
      intro w hw
      rw [hws] at hw
      rw [List.eq_of_mem_replicate hw]
      exact ⟨by decide, by decide⟩
    have hall : ws.filterMap (answerFor [wideTopic] (wideSchema wire)) =
        List.replicate (65459 + (74 + 2)) d := by
      rw [hws]
      exact List.filterMap_replicate_of_some hanswer
    obtain ⟨req, hreq⟩ : ∃ req, detailReqBuild 0 0 ws (2 ^ 20) = some req := by
      unfold detailReqBuild detailHdr
      rw [hwslen, if_neg (by decide)]
      exact ⟨_, rfl⟩
    have hpage := @answerWalk_pageOf [wideTopic] (wideSchema wire) (2 ^ 33) ws
    obtain ⟨page, hp⟩ : ∃ page, page = (answerWalk [wideTopic] (wideSchema wire) (2 ^ 33) ws detailHdr 0).2 :=
      ⟨_, rfl⟩
    rw [← hp] at hpage
    -- the capacity takes every answer
    have hpall : page = List.replicate (65459 + (74 + 2)) d := by
      obtain ⟨rest, hsplit, hcut⟩ := hpage.cut
      rw [hall] at hsplit
      cases rest with
      | nil => rw [hsplit, List.append_nil]
      | cons x rest =>
        have hx := (hcut x rfl).2
        have hxd : x = d := by
          apply List.eq_of_mem_replicate (n := 65459 + (74 + 2))
          rw [hsplit]
          exact List.mem_append_right _ List.mem_cons_self
        have htotal := congrArg pageBytes hsplit
        unfold pageBytes at htotal hx
        rw [List.map_replicate, List.sum_replicate_nat, List.map_append, List.sum_append_nat, List.map_cons,
          List.sum_cons, hxd, hneed] at htotal
        rw [hxd, hneed] at hx
        unfold detailHdr at hx
        omega
    have hresp : detailRespond [wideTopic] (wideSchema wire) 0 req (2 ^ 33) = some
        (detailHeader detailResp (detailDomain req) 0 (65459 + (74 + 2)) ++
          (List.replicate (65459 + (74 + 2)) d).flatMap detailBytes) := by
      unfold detailRespond
      rw [requestWants_build (by rw [hwslen]; decide) htys hreq]
      dsimp only
      rw [if_neg (by decide), ← hp, hpall, List.length_replicate]
    have heq := h [wideTopic] (wideSchema wire) 0 ws req (2 ^ 33) _ page htys hreq (by decide) hresp hpage
    rw [hpall] at heq
    refine detailEntries_wrapped (a := 59606) (z := 5915) htyped ?_ ?_ ?_ ?_ ?_ ?_ heq
    · intro hnil
      rw [hnil] at hdname
      exact absurd hdname (Nat.succ_ne_zero 63).symm
    · rw [hneed]
      decide
    · rw [hd]
      exact hwire
    · rw [hneed, hdname]
      unfold detailHdr
      omega
    · rw [hdname]
      decide
    · decide
  · intro h
    have hstuck := h twinSubscriber.lanes.topics (fun _ _ _ _ => true) [] twinFirst (twinDetail [twin .pubOnly true] 0)
      ⟨0, fnv1a64 [120] % 2 ^ 32, 1⟩ (by decide +kernel) ⟨0, 1, [120], 0, []⟩ (by decide +kernel)
      (by decide +kernel) rfl
    exact absurd hstuck (by decide +kernel)

end Rant.Transport
