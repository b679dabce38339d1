import Rant.Node.Paging
/-!
# What paging assembles

A list assembled at a version is to be the list the responder's table had when it advertised
that version. The responder labels its pages with the last version advertised and builds them
from the table as it is, so inside an advertise hold the pages of one version may be of two
tables (`mixed_pages`). As long as every page answered is also a page of the advertised list,
and the version does not wrap, what is marked assembled is the advertised list, every page is
copied inside the buffer of its own total, and what a reader is given of an external interest
is whole (`paging_assembles`).

The requester side rests on two facts: only pages of the version held are taken, and that
version only moves forward while the slot is held. So the buffer is either the list assembled
at the version held or a prefix of it that nobody reads.
-/

namespace Rant.Node

open Rant.Lib
open Rant.Transport

namespace Paging

/-! ## The property -/

/-- What was assembled is what was advertised. -/
structure Assembles (s : Paging) : Prop where
  /-- A version marked assembled comes with its list. -/
  marks : ∀ m ∈ s.marks, m.2 = s.blobs m.1
  /-- A page is copied inside the buffer of the total it names. -/
  writes : ∀ w ∈ s.writes, w.offset + w.len ≤ w.total ∧ w.total ≤ w.cap
  /-- A paged interest is read whole or not at all, at the version held and at one just judged. -/
  whole : ∀ sl o b, s.req.slot = some sl → o.external = true → ∀ v, 0 < v → s.req.version ≤ v →
    interestOf sl.extra (some o) v = some b → b = s.blobs v

/-! ## Two tables in one list -/

/-- A node of the default datagram size. -/
def pagingCfg : PagingCfg :=
  ⟨0, 1390, 6, Nat.le_of_ble_eq_true rfl, Nat.le_of_ble_eq_true rfl, Nat.le_of_ble_eq_true rfl⟩

/-- `n` reliable topics of one role. -/
def wideTable (n : Nat) (role : Role) : List Topic :=
  List.replicate n { Topic.undefined with
    name := [97], identity := 5, role := role, qos := ⟨.reliable, 1, 0, 0, 0, 0, false⟩ }

/-- 280 subscribers, whose list takes two pages. -/
def subscribers : TopicTable :=
  ⟨wideTable 280 .subOnly, by unfold wideTable; rw [List.length_replicate]; decide⟩

/-- The same topics after their roles flipped. -/
def flipped : TopicTable :=
  ⟨wideTable 280 .pubSub, by unfold wideTable; rw [List.length_replicate]; decide⟩

/-- The first page is fetched, the roles flip inside a hold, and the second page is fetched. -/
def heldFlip : List PagingEvent :=
  [.change subscribers true, .announce, .hear 0 .loan true true, .ask true, .answer 0 true,
    .page 0 true 0 false, .hold, .change flipped true, .ask true, .answer 1 true,
    .page 1 true 0 false]

/-- The list assembled is half of each. -/
theorem mixed_pages : ¬ (run (step pagingCfg) (init pagingCfg) heldFlip).Assembles := by
  intro h
  obtain ⟨s, hs⟩ : ∃ s, s = run (step pagingCfg) (init pagingCfg) heldFlip := ⟨_, rfl⟩
  have hmixed : (s.marks.any fun m => m.2 != s.blobs m.1) = true := by
    rw [hs]
    decide +kernel
  rw [← hs] at h
  obtain ⟨m, hm, hne⟩ := List.any_eq_true.mp hmixed
  exact bne_iff_ne.mp hne (h.marks m hm)

/-! ## When lists are assembled right -/

/-- Two lists of one length that agree on the page at an offset. -/
def AgreeAt (c : PagingCfg) (new old : Bytes) (offset : Nat) : Prop :=
  new.length = old.length ∧
    (new.drop offset).take (c.dgramMax - interestRespHeadBytes) =
      (old.drop offset).take (c.dgramMax - interestRespHeadBytes)

/-- The condition: the version does not wrap, and where a page is asked for, the list of the
table as it is agrees with the one advertised. -/
def Sound (c : PagingCfg) (s : Paging) : PagingEvent → Prop
  | .change _ _ => s.resp.announceHold = 0 → s.resp.version + 1 < 2 ^ 32
  | .release _ => s.resp.announceHold = 1 → s.resp.pending = true → s.resp.version + 1 < 2 ^ 32
  | .answer i _ => ∀ req offset, s.asks[i]? = some req → interestReqOffset req = some offset →
      AgreeAt c s.resp.table.interest (s.blobs s.resp.version) offset
  | _ => True

/-- The scratch of a slot that holds the peer at version `held`. -/
structure ExtraOk (blobs : Nat → Bytes) (held : Nat) (ex : PeerExtra) : Prop where
  le_held : ex.interestVersion ≤ held
  fetch_le : ex.fetchVersion ≤ held
  fetching : ex.fetchVersion ≠ 0 → ex.interestVersion < ex.fetchVersion ∧
    ex.fetchLen = (blobs ex.fetchVersion).length ∧ ex.fetchCursor ≤ ex.fetchLen ∧
    (ex.buf.getD []).take ex.fetchCursor = (blobs ex.fetchVersion).take ex.fetchCursor
  done : ex.interestVersion ≠ 0 → ex.fetchVersion = 0 →
    (ex.buf.getD []).take ex.fetchLen = blobs ex.interestVersion

/-- The invariant. -/
structure Inv (c : PagingCfg) (s : Paging) : Prop where
  version_pos : 0 < s.resp.version
  version_lt : s.resp.version < 2 ^ 32
  blob_pos : ∀ v, 0 < v → v ≤ s.resp.version → 0 < (s.blobs v).length
  blob_lt : ∀ v, (s.blobs v).length < 2 ^ 32
  announces : ∀ a ∈ s.announces, 0 < a.1 ∧ a.1 ≤ s.resp.version
  pages : ∀ d ∈ s.pages, ∃ v offset, 0 < v ∧ v ≤ s.resp.version ∧
    d = pageDgram c v (pageAt c.dgramMax (s.blobs v) offset)
  held_le : s.req.version ≤ s.resp.version
  extra : ∀ sl, s.req.slot = some sl → ExtraOk s.blobs s.req.version sl.extra
  marks : ∀ m ∈ s.marks, m.2 = s.blobs m.1 ∧ m.1 ≤ s.resp.version
  writes : ∀ w ∈ s.writes, w.offset + w.len ≤ w.total ∧ w.total ≤ w.cap

variable {c : PagingCfg} {s : Paging}

/-- What the invariant says. -/
theorem Inv.assembles (h : Inv c s) : s.Assembles := by
  refine ⟨fun m hm => (h.marks m hm).1, h.writes, fun sl o b hsl ho v hpos hv hb => ?_⟩
  have hex := h.extra sl hsl
  unfold interestOf at hb
  dsimp only at hb
  rw [ho, if_neg (by simp)] at hb
  split at hb
  next => cases hb
  next buf hbuf =>
    split at hb
    next hver =>
      have hle := hex.le_held
      -- at the version held no fetch is under way
      have hidle : sl.extra.fetchVersion = 0 := by
        by_contra hne
        have hlt := (hex.fetching hne).1
        have := hex.fetch_le
        omega
      have hdone := hex.done (by omega) hidle
      rw [hbuf, hver] at hdone
      rw [← Option.some.inj hb]
      exact hdone
    next => cases hb

/-! ### Pages -/

theorem pageAt_inside (dgramMax : Nat) (blob : Bytes) (offset : Nat) :
    let p := pageAt dgramMax blob offset
    p.total = blob.length ∧ p.offset + p.chunk.length ≤ p.total ∧
      p.chunk.length ≤ dgramMax - interestRespHeadBytes ∧
      p.chunk = (blob.drop p.offset).take p.chunk.length := by
  dsimp only
  unfold pageAt
  dsimp only
  refine ⟨rfl, ?_, ?_, ?_⟩
  · rw [List.length_take, List.length_drop]
    omega
  · exact List.length_take_le _ _
  · rw [List.length_take, ← List.take_take, List.take_length]

/-- Lists that agree at an offset have the same page there. -/
theorem AgreeAt.pageAt {new old : Bytes} {offset : Nat} (h : AgreeAt c new old offset) :
    pageAt c.dgramMax new offset = pageAt c.dgramMax old offset := by
  obtain ⟨hlen, hpage⟩ := h
  unfold Node.pageAt
  dsimp only
  rw [hlen]
  rcases Nat.le_total offset old.length with hle | hge
  · rw [Nat.min_eq_left hle, hpage]
  · rw [Nat.min_eq_right hge, List.drop_of_length_le (Nat.le_of_eq hlen), List.drop_length]

/-- A page in flight is parsed as it was built. -/
theorem pageDgram_parse (v : Nat) (hv : v < 2 ^ 32) {p : InterestPage} (ht : p.total < 2 ^ 32)
    (hin : p.offset + p.chunk.length ≤ p.total)
    (hl : p.chunk.length ≤ c.dgramMax - interestRespHeadBytes) :
    detailDomain (pageDgram c v p) = c.domain ∧ detailMetaVersion (pageDgram c v p) = v ∧
      interestRespParse (pageDgram c v p) = some p := by
  have hmax := c.dgramMax_lt
  refine ⟨?_, ?_, interestResp_parse _ _ p ht hin (by omega)⟩
  · unfold pageDgram interestRespHead
    simp only [List.append_assoc]
    rw [detailDomain_header, Nat.mod_eq_of_lt c.domain_lt]
  · unfold pageDgram interestRespHead
    simp only [List.append_assoc]
    rw [detailMetaVersion_header, Nat.mod_eq_of_lt hv]

/-- A copy of the next piece lengthens the prefix. -/
theorem take_writeAt {buf blob chunk : Bytes} {off : Nat} (hfit : off + chunk.length ≤ buf.length)
    (hpre : buf.take off = blob.take off) (hchunk : chunk = (blob.drop off).take chunk.length) :
    (Fragment.writeAt buf off chunk).take (off + chunk.length) = blob.take (off + chunk.length) := by
  have hlen : (buf.take off ++ chunk).length = off + chunk.length := by
    rw [List.length_append, List.length_take]
    omega
  unfold Fragment.writeAt
  rw [← hlen, List.take_left, hlen, hpre, List.take_add]
  exact congrArg _ hchunk

/-- A fetch under way at version `v`. -/
structure Fetching (blob : Bytes) (v : Nat) (ex : PeerExtra) : Prop where
  version : ex.fetchVersion = v
  older : ex.interestVersion < v
  len : ex.fetchLen = blob.length
  cursor : ex.fetchCursor ≤ ex.fetchLen
  pre : (ex.buf.getD []).take ex.fetchCursor = blob.take ex.fetchCursor

variable {blobs : Nat → Bytes} {ex : PeerExtra}

variable {v : Nat}

theorem Fetching.extraOk (h : Fetching (blobs v) v ex)
    (hv : 0 < v) : ExtraOk blobs v ex := by
  have hfv := h.version
  refine ⟨Nat.le_of_lt h.older, Nat.le_of_eq hfv, fun _ => ?_, fun _ h0 => ?_⟩
  · rw [hfv]
    exact ⟨h.older, h.len, h.cursor, h.pre⟩
  · omega

theorem fetchFor_fetching {total : Nat} (h : ExtraOk blobs v ex) (holder : ex.interestVersion < v)
    (ht : total = (blobs v).length) :
    Fetching (blobs v) v (fetchFor ex v total) := by
  unfold fetchFor
  split
  next => exact ⟨rfl, holder, ht, Nat.zero_le _, rfl⟩
  next hfv =>
    rw [not_not] at hfv
    split
    next => exact ⟨hfv, holder, ht, Nat.zero_le _, rfl⟩
    obtain ⟨-, hlen, hcur, hpre⟩ := h.fetching (by omega)
    rw [hfv] at hlen hpre
    exact ⟨hfv, holder, hlen, hcur, hpre⟩

/-- A buffer that grew has the room, and starts with what it held. -/
theorem growBuf_spec (buf : Option Bytes) {total : Nat} (ht : 0 < total) (fill : UInt8) :
    ∃ b, growBuf buf total fill = some b ∧ total ≤ b.length ∧
      ∃ rest, b = buf.getD [] ++ rest := by
  unfold growBuf
  dsimp only
  split
  next =>
    refine ⟨_, rfl, ?_, _, rfl⟩
    rw [List.length_append, List.length_replicate]
    omega
  next hge =>
    cases buf with
    | none => exact absurd ht hge
    | some b => exact ⟨b, rfl, Nat.le_of_not_lt hge, [], (List.append_nil b).symm⟩

/-- What a page comes to is right: the scratch, the list if it completed one, and the copy. -/
structure PagedOk (blobs : Nat → Bytes) (held : Nat) (p : Paged) : Prop where
  extra : ExtraOk blobs held p.extra
  done : ∀ b, p.done = some b → b = blobs held
  write : ∀ w, p.write = some w → w.offset + w.len ≤ w.total ∧ w.total ≤ w.cap

variable {held : Nat}

theorem PagedOk.quiet
    (h : ExtraOk blobs held ex) : PagedOk blobs held ⟨ex, none, none⟩ :=
  ⟨h, fun _ hb => (by cases hb), fun _ hw => (by cases hw)⟩

theorem pageStored_ok {total : Nat} (h : Fetching (blobs v) v ex) (hv : 0 < v)
    (ht : total = (blobs v).length) {write : Option PageWrite}
    (hw : ∀ w, write = some w → w.offset + w.len ≤ w.total ∧ w.total ≤ w.cap) :
    PagedOk blobs v (pageStored ex v total write) := by
  have hlen := h.len
  have hcur := h.cursor
  unfold pageStored
  split
  next =>
    refine ⟨?_, fun _ hb => (by cases hb), hw⟩
    dsimp only
    split
    next =>
      have h' : Fetching (blobs v) v { ex with interestDue := true } :=
        ⟨h.version, h.older, h.len, h.cursor, h.pre⟩
      exact h'.extraOk hv
    next => exact h.extraOk hv
  next hfull =>
    -- the cursor is at the end of the list
    have hend : ex.fetchCursor = (blobs v).length := by omega
    have hwhole : (ex.buf.getD []).take total = blobs v := by
      rw [ht, ← hend, h.pre, hend, List.take_length]
    refine ⟨⟨Nat.le_refl v, Nat.zero_le v, fun hz => absurd rfl hz, fun _ _ => ?_⟩,
      fun b hb => ?_, hw⟩
    · show (ex.buf.getD []).take ex.fetchLen = blobs v
      rw [hlen, ← ht]
      exact hwhole
    · rw [← Option.some.inj hb]
      exact hwhole

/-- The page at the cursor, stored, leaves more of the advertised list, or all of it. -/
theorem storePage_ok (h : Fetching (blobs v) v ex) (hv : 0 < v) {q : InterestPage}
    (hpos : 0 < q.total) (ht : q.total = (blobs v).length)
    (hin : q.offset + q.chunk.length ≤ q.total)
    (hchunk : q.chunk = ((blobs v).drop q.offset).take q.chunk.length)
    (hoff : q.offset = ex.fetchCursor) (grow : Bool) (fill : UInt8) :
    PagedOk blobs v (storePage ex v q grow fill) := by
  have hlen := h.len
  obtain ⟨b, hb, hroom, rest, hrest⟩ := growBuf_spec ex.buf hpos fill
  have hpre : b.take q.offset = (blobs v).take q.offset := by
    have hp := h.pre
    rw [← hoff] at hp
    have hshort : q.offset ≤ (ex.buf.getD []).length := by
      have hl := congrArg List.length hp
      rw [List.length_take, List.length_take] at hl
      omega
    rw [hrest, List.take_append_of_le_length hshort]
    exact hp
  unfold storePage
  split
  next => exact PagedOk.quiet (h.extraOk hv)
  next =>
  dsimp only
  rw [hb]
  split
  next =>
    have hf : Fetching (blobs v) v { ex with buf := some b } := by
      refine ⟨h.version, h.older, h.len, h.cursor, ?_⟩
      show b.take ex.fetchCursor = _
      rw [← hoff]
      exact hpre
    have hno : ∀ w : PageWrite, (none : Option PageWrite) = some w →
        w.offset + w.len ≤ w.total ∧ w.total ≤ w.cap := fun _ hw => (by cases hw)
    exact pageStored_ok hf hv ht hno
  next =>
    have hfit : q.offset + q.chunk.length ≤ b.length := Nat.le_trans hin hroom
    have hf : Fetching (blobs v) v { ex with
        buf := some (Fragment.writeAt b q.offset q.chunk)
        fetchCursor := ex.fetchCursor + q.chunk.length } := by
      refine ⟨h.version, h.older, h.len, ?_, ?_⟩
      · show ex.fetchCursor + q.chunk.length ≤ ex.fetchLen
        omega
      · show (Fragment.writeAt b q.offset q.chunk).take (ex.fetchCursor + q.chunk.length) = _
        rw [← hoff]
        exact take_writeAt hfit hpre hchunk
    refine pageStored_ok hf hv ht fun w hw => ?_
    rw [← Option.some.inj hw]
    exact ⟨hin, hroom⟩

/-- A genuine page is taken rightly. -/
theorem applyInterestPage_ok (hex : ExtraOk blobs held ex) (hv : 0 < v)
    (hlt : v < 2 ^ 32) (hpos : 0 < (blobs v).length) (hblob : (blobs v).length < 2 ^ 32)
    {resp : Bytes} {offset : Nat}
    (hresp : resp = pageDgram c v (pageAt c.dgramMax (blobs v) offset)) (grow : Bool)
    (fill : UInt8) : PagedOk blobs held (applyInterestPage c ex held resp grow fill) := by
  obtain ⟨q, hq⟩ : ∃ q, q = pageAt c.dgramMax (blobs v) offset := ⟨_, rfl⟩
  obtain ⟨htotal, hin, hmax, hchunk⟩ := pageAt_inside c.dgramMax (blobs v) offset
  rw [← hq] at htotal hin hmax hchunk hresp
  obtain ⟨hdomain, hversion, hparse⟩ := pageDgram_parse v hlt (by omega) hin hmax
  rw [← hresp] at hdomain hversion hparse
  unfold applyInterestPage
  split
  next => exact PagedOk.quiet hex
  rw [hparse, hversion]
  dsimp only
  split
  next => exact PagedOk.quiet hex
  next hheld =>
  rw [not_or, not_not] at hheld
  obtain ⟨-, rfl⟩ := hheld
  split
  next => exact PagedOk.quiet hex
  next hdup =>
  -- a version assembled has its list in the buffer, so this one is not
  have holder : ex.interestVersion < v := by
    by_contra hge
    have hle := hex.le_held
    have hfle := hex.fetch_le
    have hver : ex.interestVersion = v := by omega
    have hidle : ex.fetchVersion = 0 := by
      by_contra hne
      have := (hex.fetching hne).1
      omega
    have hdone := hex.done (by omega) hidle
    cases hbuf : ex.buf with
    | none =>
      rw [hbuf, hver, Option.getD_none, List.take_nil] at hdone
      rw [← hdone] at hpos
      exact absurd hpos (Nat.lt_irrefl 0)
    | some buf =>
      rw [hbuf] at hdup
      exact hdup ⟨rfl, hver⟩
  have hf := fetchFor_fetching hex holder htotal
  split
  next =>
    have hf' : Fetching (blobs v) v { fetchFor ex v q.total with interestDue := true } :=
      ⟨hf.version, hf.older, hf.len, hf.cursor, hf.pre⟩
    exact PagedOk.quiet (hf'.extraOk hv)
  next hoff =>
    rw [not_not] at hoff
    exact storePage_ok hf hv (by omega) htotal hin hchunk hoff grow fill

/-! ### Steps -/

/-- The requester and the ghosts of the two others stand. -/
theorem Inv.setResp (h : Inv c s) {r : Responder} (hv : r.version = s.resp.version) :
    Inv c { s with resp := r } :=
  ⟨hv ▸ h.version_pos, hv ▸ h.version_lt, fun v h0 hle => h.blob_pos v h0 (hv ▸ hle), h.blob_lt,
    fun a ha => hv ▸ h.announces a ha, fun d hd => by rw [hv]; exact h.pages d hd,
    hv ▸ h.held_le, h.extra, fun m hm => hv ▸ h.marks m hm, h.writes⟩

/-- The scratch reads no blob past the version held. -/
theorem ExtraOk.congr {blobs' : Nat → Bytes} (h : ExtraOk blobs held ex)
    (hb : ∀ v, v ≤ held → blobs' v = blobs v) :
    ExtraOk blobs' held ex := by
  refine ⟨h.le_held, h.fetch_le, fun hne => ?_, fun hne hidle => ?_⟩
  · rw [hb _ h.fetch_le]
    exact h.fetching hne
  · rw [hb _ h.le_held]
    exact h.done hne hidle

theorem buildMeta_same (c : PagingCfg) (r : Responder) (ok : Bool) :
    (buildMeta c r ok).version = r.version ∧ (buildMeta c r ok).table = r.table := by
  unfold buildMeta
  dsimp only
  split
  next => split <;> exact ⟨rfl, rfl⟩
  next => split <;> exact ⟨rfl, rfl⟩

/-- An announce of the table as it is: a version nobody has seen. -/
theorem Inv.advertise (h : Inv c s) (ok : Bool) (hw : s.resp.version + 1 < 2 ^ 32) :
    Inv c (s.advertise c ok) := by
  obtain ⟨hmeta, htable⟩ := buildMeta_same c s.resp ok
  have hver : (readvertise c s.resp ok).version = s.resp.version + 1 := by
    unfold readvertise
    dsimp only
    rw [hmeta]
    exact Nat.mod_eq_of_lt hw
  have htable : (readvertise c s.resp ok).table = s.resp.table := htable
  obtain ⟨hmin, hmax⟩ := length_interestEmit s.resp.table.1
  have hsize := s.resp.table.2
  have hold : ∀ v, v ≤ s.resp.version → (s.advertise c ok).blobs v = s.blobs v := by
    intro v hv
    show (if v = (readvertise c s.resp ok).version then _ else s.blobs v) = s.blobs v
    rw [hver, if_neg (by omega)]
  have hblob : ∀ v, (s.advertise c ok).blobs v = s.blobs v ∨
      (s.advertise c ok).blobs v = interestEmit s.resp.table.1 := by
    intro v
    by_cases hv : v = (readvertise c s.resp ok).version
    · refine Or.inr ?_
      show (if v = (readvertise c s.resp ok).version then
        (readvertise c s.resp ok).table.interest else s.blobs v) = _
      rw [if_pos hv, htable]
    · exact Or.inl (if_neg hv)
  have hv' : (s.advertise c ok).resp.version = s.resp.version + 1 := hver
  refine ⟨by omega, by omega, fun v h0 hle => ?_, fun v => ?_, fun a ha => ?_, fun d hd => ?_, ?_,
    fun sl hsl => ?_, fun m hm => ?_, h.writes⟩
  · rcases Nat.lt_or_ge s.resp.version v with hlt | hge
    · have hvv : v = (readvertise c s.resp ok).version := by omega
      show 0 < (if v = (readvertise c s.resp ok).version then
        (readvertise c s.resp ok).table.interest else s.blobs v).length
      rw [if_pos hvv, htable]
      exact Nat.lt_of_lt_of_le (by decide) hmin
    · rw [hold v hge]
      exact h.blob_pos v h0 hge
  · rcases hblob v with heq | heq
    · rw [heq]
      exact h.blob_lt v
    · rw [heq]
      omega
  · have := h.announces a ha
    omega
  · obtain ⟨v, offset, h0, hle, hd⟩ := h.pages d hd
    refine ⟨v, offset, h0, by omega, ?_⟩
    rw [hold v hle]
    exact hd
  · have := h.held_le
    exact Nat.le_trans this (by omega)
  · have hex := h.extra sl hsl
    exact hex.congr fun v hv => hold v (Nat.le_trans hv h.held_le)
  · obtain ⟨hm1, hm2⟩ := h.marks m hm
    refine ⟨?_, by omega⟩
    rw [hold _ hm2]
    exact hm1

/-- What the requester holds changes, with its scratch right. -/
theorem Inv.setReq (h : Inv c s) {r : Requester} (hle : r.version ≤ s.resp.version)
    (hex : ∀ sl, r.slot = some sl → ExtraOk s.blobs r.version sl.extra) :
    Inv c { s with req := r } :=
  ⟨h.version_pos, h.version_lt, h.blob_pos, h.blob_lt, h.announces, h.pages, hle, hex, h.marks,
    h.writes⟩

/-- The scratch of a fresh slot. -/
theorem ExtraOk.fresh (blobs : Nat → Bytes) (held : Nat) :
    ExtraOk blobs held { added := true } :=
  ⟨Nat.zero_le _, Nat.zero_le _, fun h => absurd rfl h, fun h => absurd rfl h⟩

theorem ExtraOk.mono {held' : Nat} (h : ExtraOk blobs held ex)
    (hle : held ≤ held') : ExtraOk blobs held' ex :=
  ⟨Nat.le_trans h.le_held hle, Nat.le_trans h.fetch_le hle, h.fetching, h.done⟩

/-- Neither of the two flags is a fetch's. -/
theorem ExtraOk.flags (h : ExtraOk blobs held ex) (added due : Bool) :
    ExtraOk blobs held { ex with added := added, interestDue := due } :=
  ⟨h.le_held, h.fetch_le, h.fetching, h.done⟩

theorem ExtraOk.check (h : ExtraOk blobs held ex) (o : Option Overlay)
    (version : Nat) :
    ExtraOk blobs held (interestCheck ex o version) := by
  unfold interestCheck
  split
  next => exact h
  split
  next => exact h
  next => exact h.flags ex.added true

theorem Inv.hear (h : Inv c s) {o : Overlay} (hv : v ≤ s.resp.version)
    (verdict : Admit) (seated stored : Bool) :
    Inv c { s with req := Node.hear s.req v o verdict seated stored } := by
  have hnone : ∀ w : Nat, ∀ sl, (⟨w, none⟩ : Requester).slot = some sl →
      ExtraOk s.blobs w sl.extra := fun _ _ hsl => (by cases hsl)
  unfold Node.hear
  split
  next => exact h
  next hnew =>
  split
  next => exact h.setReq hv (hnone v)
  split
  next hslot =>
    split
    next => exact h.setReq hv (hnone v)
    split
    next => exact h.setReq (Nat.zero_le _) (hnone 0)
    refine h.setReq hv fun sl hsl => ?_
    rw [← Option.some.inj hsl]
    exact (ExtraOk.fresh s.blobs v).check (some o) v
  next sl hslot =>
    split
    next => exact h
    refine h.setReq hv fun sl' hsl => ?_
    rw [← Option.some.inj hsl]
    have hle : s.req.version ≤ v := by
      rw [not_or] at hnew
      omega
    exact (((h.extra sl hslot).mono hle).flags true sl.extra.interestDue).check (some o) v

theorem Inv.ask (h : Inv c s) (reached : Bool) :
    Inv c { s with
      req := (requestNext c s.req reached).1
      asks := s.asks ++ (requestNext c s.req reached).2.toList } := by
  have hreq : (requestNext c s.req reached).1 = s.req ∨ ∃ sl, s.req.slot = some sl ∧
      (requestNext c s.req reached).1 =
        { s.req with slot := some { sl with extra := { sl.extra with interestDue := false } } } := by
    unfold requestNext
    split
    next => exact Or.inl rfl
    next sl hsl =>
      split
      next => exact Or.inl rfl
      refine Or.inr ⟨sl, hsl, ?_⟩
      dsimp only
      split
      next => rfl
      next => split <;> rfl
  have hstep : Inv c { s with req := (requestNext c s.req reached).1 } := by
    rcases hreq with heq | ⟨sl, hsl, heq⟩
    · rw [heq]
      exact h
    · rw [heq]
      refine h.setReq h.held_le fun sl' hsl' => ?_
      rw [← Option.some.inj hsl']
      exact (h.extra sl hsl).flags sl.extra.added false
  exact ⟨hstep.version_pos, hstep.version_lt, hstep.blob_pos, hstep.blob_lt, hstep.announces,
    hstep.pages, hstep.held_le, hstep.extra, hstep.marks, hstep.writes⟩

theorem Inv.answer (h : Inv c s) {i : Nat} {ok : Bool} (hsound : s.Sound c (.answer i ok)) :
    Inv c (s.step c (.answer i ok)) := by
  unfold step
  dsimp only
  split
  next => exact h
  next req hreq =>
  split
  next => exact h
  next d hd =>
    refine ⟨h.version_pos, h.version_lt, h.blob_pos, h.blob_lt, h.announces, fun e he => ?_,
      h.held_le, h.extra, h.marks, h.writes⟩
    rcases List.mem_append.mp he with he | he
    · exact h.pages e he
    · rw [List.mem_singleton.mp he]
      unfold interestRespond at hd
      split at hd
      next => cases hd
      split at hd
      next => cases hd
      next offset hoffset =>
        split at hd
        next =>
          refine ⟨s.resp.version, offset, h.version_pos, Nat.le_refl _, ?_⟩
          rw [← (hsound req offset hreq hoffset).pageAt]
          exact (Option.some.inj hd).symm
        next => cases hd

theorem Inv.page (h : Inv c s) (i : Nat) (grow : Bool) (fill : UInt8) (back : Bool) :
    Inv c (s.step c (.page i grow fill back)) := by
  unfold step
  dsimp only
  split
  next d sl hd hsl =>
    obtain ⟨v, offset, h0, hle, hform⟩ := h.pages d (List.mem_of_getElem? hd)
    have hok : PagedOk s.blobs s.req.version
        (applyInterestPage c sl.extra s.req.version d grow fill) :=
      applyInterestPage_ok (h.extra sl hsl) h0 (Nat.lt_of_le_of_lt hle h.version_lt)
        (h.blob_pos v h0 hle) (h.blob_lt v) hform grow fill
    refine ⟨h.version_pos, h.version_lt, h.blob_pos, h.blob_lt, h.announces, h.pages, h.held_le,
      fun sl' hsl' => ?_, fun m hm => ?_, fun w hw => ?_⟩
    · have hsl' : (if back && (applyInterestPage c sl.extra s.req.version d grow fill).done.isSome
          then none
          else some { sl with
            extra := (applyInterestPage c sl.extra s.req.version d grow fill).extra }) =
          some sl' := hsl'
      split at hsl'
      next => cases hsl'
      next =>
        rw [← Option.some.inj hsl']
        exact hok.extra
    · rcases List.mem_append.mp hm with hm | hm
      · exact h.marks m hm
      · obtain ⟨b, hb, rfl⟩ := List.mem_map.mp hm
        exact ⟨hok.done b (Option.mem_toList.mp hb), h.held_le⟩
    · rcases List.mem_append.mp hw with hw | hw
      · exact h.writes w hw
      · exact hok.write w (Option.mem_toList.mp hw)
  next => exact h

/-- Every event under the condition. -/
theorem Inv.step (h : Inv c s) (e : PagingEvent) (hsound : s.Sound c e) : Inv c (s.step c e) := by
  cases e with
  | change t ok =>
    have htable : Inv c { s with resp := { s.resp with table := t } } := h.setResp rfl
    unfold Paging.step
    dsimp only
    split
    next => exact h.setResp rfl
    next hhold => exact htable.advertise ok (hsound (Nat.eq_zero_of_not_pos hhold))
  | drift t => exact h.setResp rfl
  | hold => exact h.setResp rfl
  | release ok =>
    unfold Paging.step
    dsimp only
    split
    next => exact h
    next hhold =>
      have hless : Inv c { s with resp := { s.resp with
          announceHold := s.resp.announceHold - 1 } } := h.setResp rfl
      split
      next hlast =>
        -- only the last hold that goes advertises
        have hone : s.resp.announceHold = 1 := by omega
        have hidle : Inv c { s with resp := { s.resp with
          announceHold := s.resp.announceHold - 1, pending := false } } := h.setResp rfl
        exact hidle.advertise ok (hsound hone hlast.2)
      next => exact hless
  | announce =>
    refine ⟨h.version_pos, h.version_lt, h.blob_pos, h.blob_lt, fun a ha => ?_, h.pages, h.held_le,
      h.extra, h.marks, h.writes⟩
    rcases List.mem_append.mp ha with ha | ha
    · exact h.announces a ha
    · rw [List.mem_singleton.mp ha]
      exact ⟨h.version_pos, Nat.le_refl _⟩
  | answer i ok => exact h.answer hsound
  | hear i verdict seated stored =>
    unfold Paging.step
    dsimp only
    split
    next => exact h
    next v o hi => exact h.hear (h.announces _ (List.mem_of_getElem? hi)).2 verdict seated stored
  | assume i =>
    unfold Paging.step
    dsimp only
    split
    next => exact h
    next v o hi =>
      split
      next hnone =>
        refine h.setReq (h.announces _ (List.mem_of_getElem? hi)).2 fun sl hsl => ?_
        have hsl : s.req.slot = some sl := hsl
        rw [hsl] at hnone
        cases hnone
      next => exact h
  | seat =>
    unfold Paging.step
    dsimp only
    split
    next =>
      refine h.setReq (Nat.zero_le _) fun sl hsl => ?_
      rw [← Option.some.inj hsl]
      exact ExtraOk.fresh s.blobs 0
    next => exact h
  | giveBack => exact h.setReq h.held_le fun sl hsl => (by cases hsl)
  | gone => exact h.setReq (Nat.zero_le _) fun sl hsl => (by cases hsl)
  | ask reached => exact h.ask reached
  | rearm =>
    unfold Paging.step
    dsimp only
    split
    next => exact h
    next sl hsl =>
      split
      next =>
        refine h.setReq h.held_le fun sl' hsl' => ?_
        rw [← Option.some.inj hsl']
        exact (h.extra sl hsl).check sl.overlay s.req.version
      next => exact h
  | page i grow fill back => exact h.page i grow fill back

theorem Inv.init (c : PagingCfg) : Inv c (init c) := by
  obtain ⟨hmin, hmax⟩ := length_interestEmit []
  refine ⟨Nat.one_pos, Nat.one_lt_two_pow (by decide), fun v h0 hle => ?_, fun v => ?_,
    fun _ ha => absurd ha List.not_mem_nil, fun _ hd => absurd hd List.not_mem_nil,
    Nat.zero_le _, fun sl hsl => (by cases hsl), fun _ hm => absurd hm List.not_mem_nil,
    fun _ hw => absurd hw List.not_mem_nil⟩
  · have hone : v = 1 := Nat.le_antisymm hle h0
    show 0 < (if v = 1 then interestEmit [] else []).length
    rw [if_pos hone]
    omega
  · show (if v = 1 then interestEmit [] else []).length < 2 ^ 32
    split
    next => exact Nat.lt_of_le_of_lt hmax (by decide)
    next => exact Nat.two_pow_pos 32

/-- In every run whose steps meet the condition, paging assembles what was advertised. -/
theorem paging_assembles (c : PagingCfg) (es : List PagingEvent)
    (h : Along (step c) (Sound c) (init c) es) : (run (step c) (init c) es).Assembles := by
  have hinv := run_invariant_along (Inv c) (fun s e hs he => hs.step e he) es (init c) (Inv.init c) h
  exact hinv.assembles

/-- A node whose pages hold eight bytes. -/
def narrowCfg : PagingCfg :=
  ⟨0, interestRespHeadBytes + 8, 6, Nat.le_of_ble_eq_true rfl, Nat.le_of_ble_eq_true rfl,
    Nat.le_of_ble_eq_true rfl⟩

/-- Three subscribers, whose list takes three pages. -/
def three : TopicTable := ⟨wideTable 3 .subOnly, by decide⟩

/-- It is advertised and fetched page by page. -/
def threePages : List PagingEvent :=
  [.change three true, .announce, .hear 0 .loan true true, .ask true, .answer 0 true,
    .page 0 true 0 false, .ask true, .answer 1 true, .page 1 true 0 false, .ask true,
    .answer 2 true, .page 2 true 0 false]

theorem Sound.answer {i : Nat} {ok : Bool} (h : s.resp.table.interest = s.blobs s.resp.version) :
    s.Sound c (.answer i ok) := by
  intro req offset _ _
  rw [h]
  exact ⟨rfl, rfl⟩

/-- The list assembled is the one advertised. -/
theorem paging_assembles_three :
    (run (step narrowCfg) (init narrowCfg) threePages).Assembles ∧
      (run (step narrowCfg) (init narrowCfg) threePages).marks = [(2, three.interest)] := by
  refine ⟨paging_assembles narrowCfg threePages ⟨?_, trivial, trivial, trivial, ?_, trivial,
    trivial, ?_, trivial, trivial, ?_, trivial, trivial⟩, by decide +kernel⟩
  · intro _
    decide
  · exact Sound.answer (by decide +kernel)
  · exact Sound.answer (by decide +kernel)
  · exact Sound.answer (by decide +kernel)

end Paging

end Rant.Node
