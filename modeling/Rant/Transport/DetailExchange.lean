import Rant.Transport.DetailCodec
import Rant.Transport.InterestCodec
/-!
# The detail exchange's datagrams

The other two kinds of the `uDTL` codec of `src/transport/core.c`: a request lists slots of the
responder's table with the requester's schema hashes, a response answers the advertised ones.
One walk measures a response and writes it (`answerWalk`), and stops at the first entry that
does not fit unless it is alone. The requester steps through a response with `detailNext`, which
trusts nothing in it. What the walk wrote the steps yield, whole entries in order
(`detailDrain_page`).
-/

namespace Rant.Transport

open Rant.Lib

/-- `RANT_DETAIL_REQ` and `RANT_DETAIL_RESP`. -/
def detailReq : Nat := 1
def detailResp : Nat := 2

/-- `RANT_DGRAM_MAX`. -/
def dgramMax : Nat := 1390

/-! ## Requests -/

/-- `i_RantDetailWant`. -/
structure DetailWant where
  index : Nat
  schemaHash : Nat
  deriving Repr, DecidableEq

/-- The 10 bytes of a want. -/
def wantBytes (w : DetailWant) : Bytes := writeLe 2 w.index ++ writeLe 8 w.schemaHash

/-- `i_rant_detail_req_build` into a buffer of `cap` bytes, `none` where it does not fit. -/
def detailReqBuild (domain metaVersion : Nat) (wants : List DetailWant) (cap : Nat) : Option Bytes :=
  if cap < detailHdr + wants.length * 10 then none
  else some (detailHeader detailReq domain metaVersion wants.length ++ wants.flatMap wantBytes)

/-- The `n` wants a request carries. -/
def readWants : Nat → Bytes → List DetailWant
  | 0, _ => []
  | n + 1, p => ⟨frontLe 2 p, frontLe 8 (p.drop 2)⟩ :: readWants n (p.drop 10)

/-- The wants of a request, `none` where it is not one or is cut short. -/
def requestWants (req : Bytes) : Option (List DetailWant) :=
  if detailKind req ≠ detailReq then none
  else
    let n := frontLe 2 (req.drop 12)
    if req.length < detailHdr + n * 10 then none else some (readWants n (req.drop detailHdr))

/-! ## Responses -/

/-- `i_RantMetaSchema`: what is known of a topic's schema, zeros where nothing is. -/
structure MetaSchema where
  hash : Nat := 0
  wire : Bytes := []
  deriving Repr, DecidableEq

/-- `i_RantDetail`. -/
structure Detail where
  index : Nat
  attrs : Nat
  name : Bytes
  schemaHash : Nat
  schemaWire : Bytes
  deriving Repr, DecidableEq

/-- The attribute byte a topic advertises. -/
def Topic.wireAttrs (t : Topic) : Nat := t.attrs ||| if t.qos.noTimestamp then 1 else 0

/-- The answer to one want: nothing for a slot that is not advertised, and the wire only where
the hashes differ. -/
def answerFor (ts : List Topic) (schemas : Nat → MetaSchema) (w : DetailWant) : Option Detail :=
  if ts.length ≤ w.index then none                                  -- unknown: not advertised
  else if (topicAt ts w.index).role = .inactive ∨ (topicAt ts w.index).name = [] then none
  else
    let hash := (schemas w.index).hash
    let inline := hash ≠ 0 ∧ hash ≠ w.schemaHash ∧ (schemas w.index).wire.length ≤ 0xFFFF
    some { index := w.index, attrs := (topicAt ts w.index).wireAttrs, name := (topicAt ts w.index).name
           schemaHash := hash, schemaWire := if inline then (schemas w.index).wire else [] }

/-- An entry of a response. -/
def detailBytes (d : Detail) : Bytes :=
  writeLe 2 d.index ++ ([UInt8.ofNat d.attrs, UInt8.ofNat d.name.length] ++ (d.name ++
    (writeLe 8 d.schemaHash ++ (writeLe 2 d.schemaWire.length ++ d.schemaWire))))

/-- What an entry takes of a response. -/
def Detail.need (d : Detail) : Nat := 2 + 1 + 1 + d.name.length + 8 + 2 + d.schemaWire.length

/-- The walk of `i_rant_detail_answer` from `n` entries of `len` bytes on: the length at its
end, and the entries. -/
def answerWalk (ts : List Topic) (schemas : Nat → MetaSchema) (cap : Nat) :
    List DetailWant → Nat → Nat → Nat × List Detail
  | [], len, _ => (len, [])
  | w :: ws, len, n =>
    match answerFor ts schemas w with
    | none => answerWalk ts schemas cap ws len n
    | some d =>
      -- one datagram per response, but always at least one entry
      if 0 < n ∧ cap < len + d.need then (len, [])
      else
        let rest := answerWalk ts schemas cap ws (len + d.need) (n + 1)
        (rest.1, d :: rest.2)

/-- `i_rant_detail_answer` without a buffer: the length of the page, `none` for a malformed
request. -/
def detailMeasure (ts : List Topic) (schemas : Nat → MetaSchema) (req : Bytes) (cap : Nat) : Option Nat :=
  (requestWants req).map fun ws => (answerWalk ts schemas cap ws detailHdr 0).1

/-- `i_rant_transport_detail_resp_size`. -/
def detailRespSize (ts : List Topic) (schemas : Nat → MetaSchema) (req : Bytes) : Option Nat :=
  detailMeasure ts schemas req dgramMax

/-- `i_rant_transport_detail_respond`: the page as it was written. -/
def detailRespond (ts : List Topic) (schemas : Nat → MetaSchema) (metaVersion : Nat) (req : Bytes)
    (cap : Nat) : Option Bytes :=
  match requestWants req with
  | none => none
  | some ws =>
    if cap < detailHdr then none
    else
      let page := (answerWalk ts schemas cap ws detailHdr 0).2
      some (detailHeader detailResp (detailDomain req) metaVersion page.length ++ page.flatMap detailBytes)

/-! ## Stepping through a response -/

/-- `i_RantDetailIter`. -/
structure DetailIter where
  started : Bool := false
  left : Nat := 0
  off : Nat := 0
  deriving Repr, DecidableEq

/-- The iterator at an entry. -/
def atEntry (left off : Nat) : DetailIter := { started := true, left := left, off := off }

/-- The first call reads the header. -/
def detailStart (resp : Bytes) (it : DetailIter) : DetailIter :=
  if it.started then it
  else atEntry (if detailKind resp ≠ detailResp then 0 else frontLe 2 (resp.drop 12)) detailHdr

/-- An entry of a response at offset `off`, as far as its lengths stay inside, with where the
next one is in 32 bits. -/
def detailAt (resp : Bytes) (off : Nat) : Option (Detail × Nat) :=
  if resp.length < off + 4 then none
  else
    let nlen := (resp.getD (off + 3) 0).toNat
    if resp.length < off + 4 + nlen + 10 then none
    else
      let wlen := frontLe 2 (resp.drop (off + 4 + nlen + 8))
      if resp.length < off + 4 + nlen + 10 + wlen then none
      else
        some ({ index := frontLe 2 (resp.drop off), attrs := (resp.getD (off + 2) 0).toNat
                name := (resp.drop (off + 4)).take nlen
                schemaHash := frontLe 8 (resp.drop (off + 4 + nlen))
                schemaWire := (resp.drop (off + 4 + nlen + 10)).take wlen },
          (off + 4 + nlen + 10 + wlen) % 2 ^ 32)

/-- `i_rant_detail_next`. -/
def detailNext (resp : Bytes) (it : DetailIter) : Option Detail × DetailIter :=
  let it := detailStart resp it
  if it.left = 0 then (none, it)
  else
    match detailAt resp it.off with
    | none => (none, { it with left := 0 })                           -- truncated: stop
    | some (d, off) => (some d, atEntry (it.left - 1) off)

/-- The entries of calls until one yields nothing, `n` calls at most. -/
def detailDrain (resp : Bytes) : Nat → DetailIter → List Detail
  | 0, _ => []
  | n + 1, it =>
    match detailNext resp it with
    | (none, _) => []
    | (some d, it) => d :: detailDrain resp n it

/-- The entries of a response: its count bounds the calls that yield. -/
def detailEntries (resp : Bytes) : List Detail := detailDrain resp (2 ^ 16) {}

/-! ## Requests are read as built -/

variable {ts : List Topic} {schemas : Nat → MetaSchema}

/-- The fields of a want fit their types. -/
def DetailWant.Typed (w : DetailWant) : Prop := w.index < 2 ^ 16 ∧ w.schemaHash < 2 ^ 64

theorem length_wantBytes (w : DetailWant) : (wantBytes w).length = 10 := by
  simp [wantBytes]

theorem readWants_flatMap : ∀ ws : List DetailWant, (∀ w ∈ ws, w.Typed) →
    readWants ws.length (ws.flatMap wantBytes) = ws := by
  intro ws
  induction ws with
  | nil => intro _; rfl
  | cons w ws ih =>
    intro h
    obtain ⟨hi, hh⟩ := h w List.mem_cons_self
    have hrest := ih fun w' hw' => h w' (List.mem_cons_of_mem w hw')
    have hform : (w :: ws).flatMap wantBytes =
        writeLe 2 w.index ++ (writeLe 8 w.schemaHash ++ ws.flatMap wantBytes) := by
      rw [List.flatMap_cons, wantBytes, List.append_assoc]
    have hidx : w.index % 256 ^ 2 = w.index := Nat.mod_eq_of_lt hi
    have hhash : w.schemaHash % 256 ^ 8 = w.schemaHash := Nat.mod_eq_of_lt hh
    rw [List.length_cons, hform, readWants, frontLe_append, drop_writeLe, frontLe_append, hidx, hhash,
      show (10 : Nat) = 2 + 8 from rfl, ← List.drop_drop, drop_writeLe, drop_writeLe, hrest]

/-- The count of a header. -/
theorem detailCount_header (kind domain metaVersion n : Nat) (rest : Bytes) :
    frontLe 2 ((detailHeader kind domain metaVersion n ++ rest).drop 12) = n % 2 ^ 16 := by
  have hform : detailHeader kind domain metaVersion n ++ rest =
      ([0x75, 0x44, 0x54, 0x4C, UInt8.ofNat kind, 2] ++ writeLe 2 domain ++ writeLe 4 metaVersion) ++
        (writeLe 2 n ++ rest) := by
    unfold detailHeader
    rw [List.append_assoc]
  have hdrop : (detailHeader kind domain metaVersion n ++ rest).drop 12 = writeLe 2 n ++ rest := by
    rw [hform]
    apply List.drop_left'
    simp
  rw [hdrop, frontLe_append]
  rfl

theorem drop_detailHeader (kind domain metaVersion n : Nat) (rest : Bytes) :
    (detailHeader kind domain metaVersion n ++ rest).drop detailHdr = rest := by
  apply List.drop_left'
  exact length_detailHeader _ _ _ _

/-- A request is read as it was built. -/
theorem requestWants_build {domain metaVersion cap : Nat} {ws : List DetailWant} {req : Bytes}
    (hn : ws.length < 2 ^ 16) (hty : ∀ w ∈ ws, w.Typed)
    (h : detailReqBuild domain metaVersion ws cap = some req) : requestWants req = some ws := by
  unfold detailReqBuild at h
  split at h
  next => exact absurd h (Option.some_ne_none req).symm
  rw [← Option.some.inj h]
  have hkind := detailKind_header detailReq domain metaVersion ws.length (ws.flatMap wantBytes) (by decide)
  have hcount := detailCount_header detailReq domain metaVersion ws.length (ws.flatMap wantBytes)
  rw [Nat.mod_eq_of_lt hn] at hcount
  have hlen : ¬ (detailHeader detailReq domain metaVersion ws.length ++ ws.flatMap wantBytes).length <
      detailHdr + ws.length * 10 := by
    rw [List.length_append, length_detailHeader, length_rows wantBytes length_wantBytes]
    exact Nat.lt_irrefl _
  unfold requestWants
  dsimp only
  rw [hkind, hcount, drop_detailHeader, readWants_flatMap ws hty, if_neg (not_not_intro rfl), if_neg hlen]

/-! ## What is measured is written -/

theorem length_detailBytes (d : Detail) : (detailBytes d).length = d.need := by
  unfold detailBytes Detail.need
  simp only [List.length_append, length_writeLe, List.length_cons, List.length_nil]
  omega

/-- The bytes of some entries. -/
def pageBytes (page : List Detail) : Nat := (page.map Detail.need).sum

theorem length_page (page : List Detail) : (page.flatMap detailBytes).length = pageBytes page := by
  induction page with
  | nil => rfl
  | cons d page ih =>
    rw [List.flatMap_cons, List.length_append, length_detailBytes, ih]
    rfl

/-- The walk's length is that of its entries. -/
theorem answerWalk_len (cap : Nat) : ∀ (ws : List DetailWant) (len n : Nat),
    (answerWalk ts schemas cap ws len n).1 = len + pageBytes (answerWalk ts schemas cap ws len n).2 := by
  intro ws
  induction ws with
  | nil => intro len n; rfl
  | cons w ws ih =>
    intro len n
    rw [answerWalk]
    cases answerFor ts schemas w with
    | none => exact ih len n
    | some d =>
      dsimp only
      by_cases hcut : 0 < n ∧ cap < len + d.need
      · rw [if_pos hcut]
        rfl
      rw [if_neg hcut]
      have hrec := ih (len + d.need) (n + 1)
      dsimp only
      rw [hrec]
      unfold pageBytes
      rw [List.map_cons, List.sum_cons]
      omega

/-- What a page is of all the answers: a prefix of them, cut only before an entry that does not
fit behind the ones there, and over the capacity only with a single entry. -/
structure PageOf (cap : Nat) (all page : List Detail) : Prop where
  cut : ∃ rest, all = page ++ rest ∧ ∀ d, rest.head? = some d →
    page ≠ [] ∧ cap < detailHdr + pageBytes page + d.need
  fits : 2 ≤ page.length → detailHdr + pageBytes page ≤ cap

/-- The walk answers the first of what is wanted, up to the one that has no room. -/
theorem answerWalk_page {cap : Nat} : ∀ (ws : List DetailWant) (len n : Nat), ∃ rest,
    ws.filterMap (answerFor ts schemas) = (answerWalk ts schemas cap ws len n).2 ++ rest ∧
    (∀ d, rest.head? = some d → (0 < n ∨ (answerWalk ts schemas cap ws len n).2 ≠ []) ∧
      cap < len + pageBytes (answerWalk ts schemas cap ws len n).2 + d.need) ∧
    (2 ≤ n + (answerWalk ts schemas cap ws len n).2.length →
      (answerWalk ts schemas cap ws len n).2 ≠ [] →
        len + pageBytes (answerWalk ts schemas cap ws len n).2 ≤ cap) := by
  intro ws
  induction ws with
  | nil =>
    intro len n
    refine ⟨[], rfl, ?_, ?_⟩
    · intro d hd
      exact absurd hd (Option.some_ne_none d).symm
    · intro _ hne
      exact absurd rfl hne
  | cons w ws ih =>
    intro len n
    rw [answerWalk, List.filterMap_cons]
    cases answerFor ts schemas w with
    | none => exact ih len n
    | some d =>
      dsimp only
      by_cases hcut : 0 < n ∧ cap < len + d.need
      · -- the entry does not fit behind the ones there
        rw [if_pos hcut]
        refine ⟨d :: ws.filterMap (answerFor ts schemas), rfl, ?_, ?_⟩
        · intro e he
          rw [← Option.some.inj he]
          refine ⟨Or.inl hcut.1, ?_⟩
          show cap < len + 0 + d.need
          omega
        · intro _ hne
          exact absurd rfl hne
      · rw [if_neg hcut]
        obtain ⟨rest, hall, hnext, hfits⟩ := ih (len + d.need) (n + 1)
        have hbytes : pageBytes (d :: (answerWalk ts schemas cap ws (len + d.need) (n + 1)).2) =
            d.need + pageBytes (answerWalk ts schemas cap ws (len + d.need) (n + 1)).2 := by
          unfold pageBytes
          rw [List.map_cons, List.sum_cons]
        dsimp only
        rw [hbytes, hall]
        refine ⟨rest, rfl, ?_, ?_⟩
        · intro e he
          have hcap := (hnext e he).2
          exact ⟨Or.inr (List.cons_ne_nil _ _), by omega⟩
        · intro htwo _
          rw [List.length_cons] at htwo
          by_cases hempty : (answerWalk ts schemas cap ws (len + d.need) (n + 1)).2 = []
          · rw [hempty] at htwo ⊢
            have hn : 0 < n := by
              rw [List.length_nil] at htwo
              omega
            have hle : ¬ cap < len + d.need := fun hc => hcut ⟨hn, hc⟩
            show len + (d.need + 0) ≤ cap
            omega
          · have hlen := hfits (by omega) hempty
            omega

/-- The page of a walk from an empty response. -/
theorem answerWalk_pageOf (cap : Nat) (ws : List DetailWant) :
    PageOf cap (ws.filterMap (answerFor ts schemas)) (answerWalk ts schemas cap ws detailHdr 0).2 := by
  obtain ⟨rest, hall, hnext, hfits⟩ := @answerWalk_page ts schemas cap ws detailHdr 0
  refine ⟨⟨rest, hall, ?_⟩, ?_⟩
  · intro d hd
    obtain ⟨hne, hcap⟩ := hnext d hd
    exact ⟨hne.resolve_left (Nat.lt_irrefl 0), hcap⟩
  · intro htwo
    apply hfits
    · omega
    · intro hc
      rw [hc, List.length_nil] at htwo
      omega

/-! ## What is written is stepped through -/

/-- The fields of an entry fit their types. -/
structure Detail.Typed (d : Detail) : Prop where
  index : d.index < 2 ^ 16
  attrs : d.attrs < 2 ^ 8
  name : d.name.length < 2 ^ 8
  hash : d.schemaHash < 2 ^ 64
  wire : d.schemaWire.length < 2 ^ 16

/-- An entry is read where it was written. -/
theorem detailAt_bytes {d : Detail} (hd : d.Typed) (pre rest : Bytes) :
    detailAt (pre ++ (detailBytes d ++ rest)) pre.length = some (d, (pre.length + d.need) % 2 ^ 32) := by
  obtain ⟨resp, hresp⟩ : ∃ resp, resp = pre ++ (detailBytes d ++ rest) := ⟨_, rfl⟩
  obtain ⟨idx, attrs, name, hash, wire⟩ := d
  obtain ⟨hidx, hattrs, hname, hhash, hwire⟩ := hd
  dsimp only at hidx hattrs hname hhash hwire
  have hat : resp.drop pre.length = writeLe 2 idx ++ ([UInt8.ofNat attrs, UInt8.ofNat name.length] ++
      (name ++ (writeLe 8 hash ++ (writeLe 2 wire.length ++ (wire ++ rest))))) := by
    rw [hresp, List.drop_left]
    simp only [detailBytes, List.append_assoc]
  have hname' : resp.drop (pre.length + 4) =
      name ++ (writeLe 8 hash ++ (writeLe 2 wire.length ++ (wire ++ rest))) := by
    rw [← List.drop_drop, hat, show (4 : Nat) = 2 + 2 from rfl, ← List.drop_drop, drop_writeLe]
    rfl
  have hhash' : resp.drop (pre.length + 4 + name.length) =
      writeLe 8 hash ++ (writeLe 2 wire.length ++ (wire ++ rest)) := by
    rw [← List.drop_drop, hname', List.drop_left]
  have hwlen : resp.drop (pre.length + 4 + name.length + 8) = writeLe 2 wire.length ++ (wire ++ rest) := by
    rw [← List.drop_drop, hhash', drop_writeLe]
  have hwire' : resp.drop (pre.length + 4 + name.length + 10) = wire ++ rest := by
    rw [show pre.length + 4 + name.length + 10 = pre.length + 4 + name.length + 8 + 2 from rfl,
      ← List.drop_drop, hwlen, drop_writeLe]
  have hbyte : ∀ k, resp.getD (pre.length + k) 0 = (resp.drop pre.length).getD k 0 := by
    intro k
    rw [List.getD_eq_getElem?_getD, List.getD_eq_getElem?_getD, List.getElem?_drop]
  have hattr : (resp.getD (pre.length + 2) 0).toNat = attrs := by
    rw [hbyte, hat, List.getD_eq_getElem?_getD, List.getElem?_append_right (by simp)]
    simp
    exact hattrs
  have hnlen : (resp.getD (pre.length + 3) 0).toNat = name.length := by
    rw [hbyte, hat, List.getD_eq_getElem?_getD, List.getElem?_append_right (by simp)]
    simp
    exact hname
  have hfidx : frontLe 2 (resp.drop pre.length) = idx := by
    rw [hat, frontLe_append]
    exact Nat.mod_eq_of_lt hidx
  have hfhash : frontLe 8 (resp.drop (pre.length + 4 + name.length)) = hash := by
    rw [hhash', frontLe_append]
    exact Nat.mod_eq_of_lt hhash
  have hfwlen : frontLe 2 (resp.drop (pre.length + 4 + name.length + 8)) = wire.length := by
    rw [hwlen, frontLe_append]
    exact Nat.mod_eq_of_lt hwire
  have hlen : resp.length = pre.length + (4 + name.length + 10 + wire.length + rest.length) := by
    rw [hresp, List.length_append, List.length_append, length_detailBytes]
    unfold Detail.need
    dsimp only
  rw [← hresp]
  unfold detailAt
  dsimp only
  have hend : pre.length + Detail.need ⟨idx, attrs, name, hash, wire⟩ =
      pre.length + 4 + name.length + 10 + wire.length := by
    unfold Detail.need
    dsimp only
    omega
  rw [hattr, hnlen, hfidx, hfhash, hfwlen, hname', hwire', List.take_left, List.take_left, hend,
    if_neg (by omega), if_neg (by omega), if_neg (by omega)]

theorem detailNext_some {resp : Bytes} {left off off' : Nat} {d : Detail} (hl : left ≠ 0)
    (h : detailAt resp off = some (d, off')) :
    detailNext resp (atEntry left off) = (some d, atEntry (left - 1) off') := by
  have hstart : detailStart resp (atEntry left off) = atEntry left off := rfl
  have hleft : ¬ (atEntry left off).left = 0 := hl
  have hoff : (atEntry left off).off = off := rfl
  unfold detailNext
  dsimp only
  rw [hstart, if_neg hleft, hoff, h]
  rfl

/-- Calls over the entries of a page yield them, and are then behind them. -/
theorem detailDrain_entries : ∀ (page : List Detail) (pre rest : Bytes) (n left : Nat),
    (∀ d ∈ page, d.Typed) → pre.length + pageBytes page < 2 ^ 32 →
    detailDrain (pre ++ (page.flatMap detailBytes ++ rest)) (n + page.length)
        (atEntry (left + page.length) pre.length) =
      page ++ detailDrain (pre ++ (page.flatMap detailBytes ++ rest)) n
        (atEntry left (pre.length + pageBytes page)) := by
  intro page
  induction page with
  | nil => intro pre rest n left _ _; rfl
  | cons d page ih =>
    intro pre rest n left hty hlen
    have hbytes : pageBytes (d :: page) = d.need + pageBytes page := by
      unfold pageBytes
      rw [List.map_cons, List.sum_cons]
    rw [hbytes] at hlen ⊢
    have hat := detailAt_bytes (hty d List.mem_cons_self) pre (page.flatMap detailBytes ++ rest)
    have hoff : (pre.length + d.need) % 2 ^ 32 = (pre ++ detailBytes d).length := by
      rw [List.length_append, length_detailBytes]
      exact Nat.mod_eq_of_lt (by omega)
    rw [hoff] at hat
    have hstep := detailNext_some (Nat.succ_ne_zero (left + page.length)) hat
    have hrest := ih (pre ++ detailBytes d) rest n left (fun e he => hty e (List.mem_cons_of_mem d he))
      (by rw [List.length_append, length_detailBytes]; omega)
    rw [List.append_assoc] at hrest
    have hend : (pre ++ detailBytes d).length + pageBytes page = pre.length + (d.need + pageBytes page) := by
      rw [List.length_append, length_detailBytes, Nat.add_assoc]
    rw [hend] at hrest
    rw [List.flatMap_cons, List.append_assoc, List.length_cons, ← Nat.add_assoc, ← Nat.add_assoc, detailDrain,
      hstep]
    dsimp only
    rw [Nat.succ_sub_one, hrest, List.cons_append]

/-- A page of less than 4 GiB is stepped through whole. -/
theorem detailDrain_page {domain metaVersion n : Nat} {page : List Detail} (hty : ∀ d ∈ page, d.Typed)
    (hlen : detailHdr + pageBytes page < 2 ^ 32) (hcount : page.length < 2 ^ 16) (hn : page.length < n) :
    detailDrain (detailHeader detailResp domain metaVersion page.length ++ page.flatMap detailBytes) n {} =
      page := by
  obtain ⟨hdr, hhdr⟩ : ∃ hdr, hdr = detailHeader detailResp domain metaVersion page.length := ⟨_, rfl⟩
  have hhlen : hdr.length = detailHdr := by
    rw [hhdr]
    exact length_detailHeader _ _ _ _
  have hkind : detailKind (hdr ++ page.flatMap detailBytes) = detailResp := by
    rw [hhdr]
    exact detailKind_header _ _ _ _ _ (by decide)
  have hcnt : frontLe 2 ((hdr ++ page.flatMap detailBytes).drop 12) = page.length := by
    rw [hhdr, detailCount_header]
    exact Nat.mod_eq_of_lt hcount
  have hstart : detailStart (hdr ++ page.flatMap detailBytes) {} = atEntry page.length hdr.length := by
    unfold detailStart
    rw [if_neg Bool.false_ne_true, hkind, if_neg (not_not_intro rfl), hcnt, hhlen]
  have hfirst : detailNext (hdr ++ page.flatMap detailBytes) {} =
      detailNext (hdr ++ page.flatMap detailBytes) (atEntry page.length hdr.length) := by
    unfold detailNext
    rw [hstart]
    rfl
  have hdrain := detailDrain_entries page hdr [] (n - page.length) 0 hty (by rw [hhlen]; exact hlen)
  have hstop : ∀ (k off : Nat), detailDrain (hdr ++ page.flatMap detailBytes) k (atEntry 0 off) = [] := by
    intro k off
    cases k with
    | zero => rfl
    | succ k => rfl
  rw [List.append_nil, hstop, List.append_nil, Nat.sub_add_cancel (Nat.le_of_lt hn), Nat.zero_add] at hdrain
  rw [← hhdr]
  cases n with
  | zero => omega
  | succ n =>
    rw [detailDrain] at hdrain ⊢
    rw [hfirst]
    exact hdrain

end Rant.Transport
