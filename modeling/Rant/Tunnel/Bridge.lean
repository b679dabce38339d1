import Rant.Tunnel.ClientRuns
/-!
# What a bridge sends

Messages of RFC 6455 from a server: each in as many unmasked fragments as it likes, control frames between
them. The client hears the messages whole, in order, and answers the pings.

`frontOf_server` is the step: whatever follows, a frame the bridge sent is the next item of its
stream, for each of the three lengths its head may have. The messages are then read off the frames
by the client's own state, which a ping between two fragments leaves alone.
-/

namespace Rant.Tunnel

open Rant.Lib

/-- A control frame that leaves the link open: a ping, a pong or a reserved one. -/
structure Ctl where
  opcode : Nat
  payload : Bytes
  deriving DecidableEq, Repr

def Ctl.Allowed (c : Ctl) : Prop := wsPing ≤ c.opcode ∧ c.opcode < 16 ∧ c.payload.length ≤ 125

def Ctl.frame (c : Ctl) : Frame := ⟨true, c.opcode, c.payload⟩

/-- The fragments of a message behind its first, each with the control frames in front of it. -/
def fragments : List (List Ctl × Bytes) → List Frame
  | [] => []
  | x :: more => x.1.map Ctl.frame ++ ⟨more.isEmpty, wsCont, x.2⟩ :: fragments more

/-- What a bridge sends. -/
inductive Sent
  | ctl (c : Ctl)
  | message (op : Nat) (first : Bytes) (more : List (List Ctl × Bytes))

namespace Sent

def frames : Sent → List Frame
  | ctl c => [c.frame]
  | message op first more => ⟨more.isEmpty, op, first⟩ :: fragments more

def Allowed : Sent → Prop
  | ctl c => c.Allowed
  | message op first more => (op = wsText ∨ op = wsBinary) ∧ first.length + (more.flatMap Prod.snd).length ≤ msgMax ∧
      ∀ x ∈ more, ∀ c ∈ x.1, c.Allowed

end Sent

/-- What the client is to do. -/
inductive Event
  | pong (p : Bytes)
  | message (op : Nat) (p : Bytes)

def Ctl.events (c : Ctl) : List Event := if c.opcode = wsPing then [.pong c.payload] else []

def Sent.events : Sent → List Event
  | ctl c => c.events
  | message op first more =>
    (more.flatMap fun x => x.1.flatMap Ctl.events) ++ [.message op (first ++ more.flatMap Prod.snd)]

section

variable {κ : Type} {handle : Handler κ} {memory : Nat → Bool}

/-- The link after the events, until a message drops it. -/
def Link.hear (handle : Handler κ) (t : Link κ) (ev : Event) : Link κ :=
  if t.up then
    match ev with
    | .pong p => { t with pongs := t.pongs ++ [p] }
    | .message op p => t.message handle op p
  else t

def Link.heard (handle : Handler κ) (t : Link κ) (evs : List Event) : Link κ := evs.foldl (Link.hear handle) t

/-- The link without the message being joined. -/
def Link.bare (t : Link κ) : Link κ := { t with joined := {} }

theorem Link.heard_append (t : Link κ) (as bs : List Event) :
    t.heard handle (as ++ bs) = (t.heard handle as).heard handle bs := List.foldl_append

theorem Link.message_bare {t t' : Link κ} (h : t.bare = t'.bare) (op : Nat) (p : Bytes) :
    (t.message handle op p).bare = (t'.message handle op p).bare := by
  obtain ⟨app, up, why, joined, delivered, pongs⟩ := t
  obtain ⟨app', up', why', joined', delivered', pongs'⟩ := t'
  unfold Link.bare at h
  obtain ⟨rfl, rfl, rfl, -, rfl, rfl⟩ := Link.mk.inj h
  unfold Link.message
  split
  · dsimp only
    split <;> rfl
  · rfl

theorem Link.hear_bare {t t' : Link κ} (h : t.bare = t'.bare) (ev : Event) :
    (t.hear handle ev).bare = (t'.hear handle ev).bare := by
  cases ev with
  | message op p =>
    have hmessage := @Link.message_bare κ handle t t' h op p
    obtain ⟨app, up, why, joined, delivered, pongs⟩ := t
    obtain ⟨app', up', why', joined', delivered', pongs'⟩ := t'
    obtain ⟨rfl, rfl, rfl, -, rfl, rfl⟩ := Link.mk.inj h
    unfold Link.hear
    split
    · exact hmessage
    · exact h
  | pong p =>
    obtain ⟨app, up, why, joined, delivered, pongs⟩ := t
    obtain ⟨app', up', why', joined', delivered', pongs'⟩ := t'
    obtain ⟨rfl, rfl, rfl, -, rfl, rfl⟩ := Link.mk.inj h
    unfold Link.hear
    split <;> rfl

theorem Link.heard_bare (evs : List Event) : ∀ {t t' : Link κ}, t.bare = t'.bare →
    (t.heard handle evs).bare = (t'.heard handle evs).bare := by
  induction evs with
  | nil => exact fun h => h
  | cons ev evs ih => exact fun h => ih (Link.hear_bare h ev)

/-! ## One piece after the other -/

theorem Link.frames_append (t : Link κ) (fs gs : List Frame) :
    t.frames handle memory (fs ++ gs) none = (t.frames handle memory fs none).frames handle memory gs none :=
  Reader.consume_append fs gs none t

/-- A control frame is answered or ignored. -/
theorem Link.take_ctl {t : Link κ} {c : Ctl} (hup : t.up = true) (hc : c.Allowed) :
    t.take handle memory c.frame = t.heard handle c.events := by
  obtain ⟨hlow, hhigh, -⟩ := hc
  have hact : t.joined.take memory c.frame = (t.joined, if c.opcode = wsPing then .pong c.payload else .nothing) := by
    unfold Joined.take Ctl.frame wsText wsBinary wsCont wsClose
    unfold wsPing at hlow ⊢
    dsimp only
    rw [if_neg (by omega), if_neg (by omega)]
    split
    · rfl
    · rw [if_neg (by omega)]
  unfold Link.take Ctl.events
  rw [hact]
  split
  · show _ = (if t.up = true then _ else _)
    rw [if_pos hup]
  · rfl

theorem Link.ctls {cs : List Ctl} : ∀ {t : Link κ}, t.up = true → (∀ c ∈ cs, c.Allowed) →
    t.frames handle memory (cs.map Ctl.frame) none = t.heard handle (cs.flatMap Ctl.events) ∧
      (t.heard handle (cs.flatMap Ctl.events)).up = true ∧
      (t.heard handle (cs.flatMap Ctl.events)).joined = t.joined := by
  induction cs with
  | nil => exact fun hup _ => ⟨rfl, hup, rfl⟩
  | cons c cs ih =>
    intro t hup hall
    have hone : (t.heard handle c.events).up = true ∧ (t.heard handle c.events).joined = t.joined := by
      unfold Ctl.events
      split
      · have hhear : t.heard handle [.pong c.payload] = { t with pongs := t.pongs ++ [c.payload] } := if_pos hup
        rw [hhear]
        exact ⟨hup, rfl⟩
      · exact ⟨hup, rfl⟩
    obtain ⟨hrun, hstill, hsame⟩ := ih hone.1 fun x hx => hall x (List.mem_cons_of_mem c hx)
    rw [List.map_cons, Link.frames_cons hup, Link.take_ctl hup (hall c List.mem_cons_self), List.flatMap_cons,
      Link.heard_append]
    exact ⟨hrun, hstill, hsame.trans hone.2⟩

/-- A buffer grows where memory is granted. -/
theorem reserve_granted (cap need : Nat) : ∃ c, reserve cap need true = some c := by
  unfold reserve
  split
  · exact ⟨_, rfl⟩
  · exact ⟨_, rfl⟩

/-- A continuation within the bound. -/
theorem Joined.take_cont {m : Joined} {fin : Bool} {p : Bytes} (hmem : ∀ n, memory n = true)
    (hfit : m.msg.length + p.length ≤ msgMax) : ∃ cap, m.take memory ⟨fin, wsCont, p⟩ =
      if fin then ({ m with msg := [], cap := cap }, .message m.op (m.msg ++ p))
      else ({ m with msg := m.msg ++ p, cap := cap }, .nothing) := by
  obtain ⟨cap, hcap⟩ := reserve_granted m.cap (m.msg.length + p.length)
  refine ⟨cap, ?_⟩
  unfold Joined.take
  dsimp only
  rw [if_neg (by decide), if_pos rfl, if_neg (Nat.not_lt.mpr hfit), hmem, hcap]

/-- The rest of a message: heard whole at its last fragment. -/
theorem Link.fragments_heard (hmem : ∀ n, memory n = true) (more : List (List Ctl × Bytes)) :
    ∀ {t : Link κ}, t.up = true → more ≠ [] → t.joined.msg.length + (more.flatMap Prod.snd).length ≤ msgMax →
      (∀ x ∈ more, ∀ c ∈ x.1, c.Allowed) →
      (t.frames handle memory (fragments more) none).bare =
        (t.heard handle ((more.flatMap fun x => x.1.flatMap Ctl.events) ++
          [.message t.joined.op (t.joined.msg ++ more.flatMap Prod.snd)])).bare := by
  induction more with
  | nil => exact fun _ h => absurd rfl h
  | cons x more ih =>
    intro t hup _ hfit hall
    obtain ⟨cs, p⟩ := x
    obtain ⟨hctls, hup', hjoined⟩ := @Link.ctls κ handle memory cs t hup (hall (cs, p) List.mem_cons_self)
    have hpfit : t.joined.msg.length + p.length ≤ msgMax := by
      rw [List.flatMap_cons, List.length_append] at hfit
      dsimp only at hfit
      omega
    unfold fragments
    rw [Link.frames_append, hctls, List.flatMap_cons, List.append_assoc, Link.heard_append, List.flatMap_cons]
    generalize t.heard handle (cs.flatMap Ctl.events) = u at hup' hjoined ⊢
    rw [← hjoined] at hpfit hfit ⊢
    obtain ⟨cap, htake⟩ := @Joined.take_cont memory u.joined more.isEmpty p hmem hpfit
    rw [Link.frames_cons hup']
    cases more with
    | nil =>
      rw [show ([] : List (List Ctl × Bytes)).isEmpty = true from rfl, if_pos rfl] at htake
      have hmsg : (u.joined.take memory ⟨([] : List (List Ctl × Bytes)).isEmpty, wsCont, p⟩).2 =
          .message u.joined.op (u.joined.msg ++ p) := congrArg Prod.snd htake
      have hhear : u.heard handle [.message u.joined.op (u.joined.msg ++ p)] =
          u.message handle u.joined.op (u.joined.msg ++ p) := if_pos hup'
      rw [Link.take_message hmsg]
      show (Link.message handle _ _ _).bare = (u.heard handle [.message _ (_ ++ (p ++ []))]).bare
      rw [List.append_nil, hhear]
      refine Link.message_bare ?_ _ _
      rfl
    | cons y more =>
      rw [show (y :: more).isEmpty = false from rfl, if_neg Bool.false_ne_true] at htake
      have hnot : (u.joined.take memory ⟨(y :: more).isEmpty, wsCont, p⟩).2 = .nothing := congrArg Prod.snd htake
      rw [Link.take_nothing hnot]
      have hrest := @ih { u with joined := (u.joined.take memory ⟨(y :: more).isEmpty, wsCont, p⟩).1 } hup'
        (List.cons_ne_nil y more)
      rw [show (y :: more).isEmpty = false from rfl, htake] at hrest ⊢
      rw [hrest]
      · dsimp only
        rw [List.append_assoc]
        exact Link.heard_bare _ rfl
      · rw [show ((cs, p) :: y :: more).flatMap Prod.snd = p ++ (y :: more).flatMap Prod.snd from rfl,
          List.length_append] at hfit
        dsimp only
        rw [List.length_append]
        omega
      · exact fun z hz => hall z (List.mem_cons_of_mem _ hz)

/-- One thing sent, one heard. -/
theorem Link.sent_heard (hmem : ∀ n, memory n = true) {t : Link κ} (hup : t.up = true) {s : Sent} (hs : s.Allowed) :
    (t.frames handle memory s.frames none).bare = (t.heard handle s.events).bare := by
  cases s with
  | ctl c =>
    show (t.frames handle memory [c.frame] none).bare = _
    rw [Link.frames_cons hup, Link.take_ctl hup hs]
    rfl
  | message op first more =>
    obtain ⟨hop, hfit, hall⟩ := hs
    show (t.frames handle memory (⟨more.isEmpty, op, first⟩ :: fragments more) none).bare = _
    rw [Link.frames_cons hup]
    cases more with
    | nil =>
      have hmsg : (t.joined.take memory ⟨([] : List (List Ctl × Bytes)).isEmpty, op, first⟩).2 = .message op first := by
        unfold Joined.take
        dsimp only
        rw [if_pos hop]
        rfl
      have hhear : t.heard handle [.message op first] = t.message handle op first := if_pos hup
      rw [Link.take_message hmsg]
      show (Link.message handle _ _ _).bare = (t.heard handle [.message op (first ++ [])]).bare
      rw [List.append_nil, hhear]
      refine Link.message_bare ?_ _ _
      rfl
    | cons x more =>
      obtain ⟨cap, hcap⟩ := reserve_granted t.joined.cap first.length
      have htake : t.joined.take memory ⟨(x :: more).isEmpty, op, first⟩ =
          ({ op := op, msg := first, cap := cap }, .nothing) := by
        unfold Joined.take
        dsimp only
        rw [if_pos hop, hmem, hcap]
        rfl
      rw [Link.take_nothing (congrArg Prod.snd htake), htake]
      have hrest := @Link.fragments_heard κ handle memory hmem (x :: more)
        { t with joined := { op := op, msg := first, cap := cap } } hup (List.cons_ne_nil x more) hfit hall
      rw [hrest]
      exact Link.heard_bare _ rfl

/-- Everything a bridge sends is heard. -/
theorem Link.all_heard (hmem : ∀ n, memory n = true) {ss : List Sent} : ∀ {t : Link κ}, (∀ s ∈ ss, s.Allowed) →
    (t.frames handle memory (ss.flatMap Sent.frames) none).bare = (t.heard handle (ss.flatMap Sent.events)).bare := by
  induction ss with
  | nil => exact fun _ => rfl
  | cons s ss ih =>
    intro t hall
    have hdown : ∀ (u : Link κ), u.up = false → ∀ evs, u.heard handle evs = u := by
      intro u hu evs
      induction evs with
      | nil => rfl
      | cons ev evs ihe =>
        have hhear : u.hear handle ev = u := if_neg (fun h => Bool.false_ne_true (hu.symm.trans h))
        show (u.hear handle ev).heard handle evs = u
        rw [hhear, ihe]
    cases hup : t.up with
    | false => rw [Link.frames_down hup, hdown t hup]
    | true =>
      rw [List.flatMap_cons, Link.frames_append, List.flatMap_cons, Link.heard_append,
        ih fun x hx => hall x (List.mem_cons_of_mem s hx)]
      exact Link.heard_bare _ (Link.sent_heard hmem hup (hall s List.mem_cons_self))

end

/-! ## The bytes of a server's frame -/

/-- A frame as RFC 6455 has a server write it: unmasked, its length in minimal form. -/
def serverHead (fin : Bool) (opcode len : Nat) : Bytes :=
  UInt8.ofNat ((if fin then 0x80 else 0) + opcode) ::
    if len < 126 then [UInt8.ofNat len]
    else if len < 0x10000 then 126 :: (List.range 2).map fun i => UInt8.ofNat (len / 256 ^ (2 - 1 - i))
    else 127 :: (List.range 8).map fun i => UInt8.ofNat (len / 256 ^ (8 - 1 - i))

def serverFrame (f : Frame) : Bytes := serverHead f.fin f.opcode f.payload.length ++ f.payload

/-- A frame a server may send and a client takes. -/
def Frame.Allowed (f : Frame) : Prop :=
  f.opcode < 16 ∧ f.payload.length ≤ msgMax ∧ (8 ≤ f.opcode → f.fin = true ∧ f.payload.length ≤ 125)

theorem wsFrameDone_server {f : Frame} (hf : f.Allowed) (head : Nat) :
    wsFrameDone (UInt8.ofNat ((if f.fin then 0x80 else 0) + f.opcode)) head f.payload.length =
      .whole ⟨f.opcode, f.fin, head, f.payload.length⟩ := by
  obtain ⟨hop, -, hctl⟩ := hf
  have hnum : (UInt8.ofNat ((if f.fin then 0x80 else 0) + f.opcode)).toNat = (if f.fin then 0x80 else 0) + f.opcode := by
    rw [UInt8.toNat_ofNat']
    refine Nat.mod_eq_of_lt ?_
    split <;> omega
  unfold wsFrameDone
  rw [hnum]
  cases hfin : f.fin with
  | true =>
    rw [if_pos rfl, if_neg]
    · have hcode : (0x80 + f.opcode) % 16 = f.opcode := by omega
      rw [hcode, decide_eq_true (Nat.le_add_right _ _)]
    · rintro ⟨h8, h | h⟩
      · omega
      · exact absurd (hctl (by omega)).2 (Nat.not_le.mpr h)
  | false =>
    rw [if_neg Bool.false_ne_true, Nat.zero_add, if_neg]
    · rw [Nat.mod_eq_of_lt hop, decide_eq_false (by omega)]
    · rintro ⟨h8, -⟩
      rw [Nat.mod_eq_of_lt hop] at h8
      exact Bool.false_ne_true (hfin.symm.trans (hctl h8).1)

/-- An extended head of either length is read back. -/
theorem wsFrame_extended {b0 mark : UInt8} {len n : Nat} (hrsv : b0.toNat / 16 % 8 = 0)
    (hmark : mark = 126 ∧ n = 2 ∨ mark = 127 ∧ n = 8) (hfits : len < 256 ^ n) (hlen : len < 2 ^ 62)
    (rest : Bytes) :
    wsFrame (b0 :: mark :: (spelled len n ++ rest)) = some (wsFrameDone b0 (2 + n) len) := by
  have hspell : beNat (spelled len n) = len := (beNat_spelled len n).trans (Nat.mod_eq_of_lt hfits)
  have hel := length_spelled len n
  have htake : ((b0 :: mark :: (spelled len n ++ rest)).drop 2).take n = spelled len n :=
    List.take_left' hel
  have hroom : 2 + n ≤ (b0 :: mark :: (spelled len n ++ rest)).length := by
    simp only [List.length_cons, List.length_append]
    omega
  have hext := bytesAt_le hroom
  rw [htake] at hext
  unfold wsFrame
  rw [if_neg (by omega), bytesAt_le (by omega), Option.bind_some,
    show ((b0 :: mark :: (spelled len n ++ rest)).drop 0).take 2 = [b0, mark] from rfl]
  simp only [List.getD_cons_zero, List.getD_cons_succ]
  rw [if_neg (not_not.mpr hrsv)]
  rcases hmark with ⟨rfl, rfl⟩ | ⟨rfl, rfl⟩
  · rw [if_neg (by decide), if_pos (by decide), if_neg (Nat.not_lt.mpr hroom), hext, Option.map_some,
      hspell]
  · rw [if_neg (by decide), if_neg (by decide), if_pos (by decide), if_neg (Nat.not_lt.mpr hroom), hext,
      Option.map_some, hspell, if_neg (Nat.not_le.mpr hlen)]

/-- A server's frame is the next of its stream. -/
theorem frontOf_server {f : Frame} (hf : f.Allowed) (c : Bytes) :
    frontOf (serverFrame f ++ c) = .item f (serverFrame f).length := by
  have hrsv : (UInt8.ofNat ((if f.fin then 0x80 else 0) + f.opcode)).toNat / 16 % 8 = 0 := by
    rw [UInt8.toNat_ofNat']
    have hop := hf.1
    split <;> omega
  have hbig := hf.2.1
  have hmax : f.payload.length < 2 ^ 62 :=
    hbig.trans_lt (Nat.lt_of_le_of_lt (Nat.le_of_eq rfl) (by decide : 2 * 2 ^ 20 < 2 ^ 62))
  -- a head of any of the three lengths
  have hfront : ∀ {head : Nat} {h : Bytes}, serverHead f.fin f.opcode f.payload.length = h → h.length = head →
      wsFrame (h ++ (f.payload ++ c)) = some (.whole ⟨f.opcode, f.fin, head, f.payload.length⟩) →
      frontOf (serverFrame f ++ c) = .item f (serverFrame f).length := by
    intro head h hh hlen hframe
    have hserver : serverFrame f = h ++ f.payload := congrArg (· ++ f.payload) hh
    rw [hserver, List.append_assoc, frontOf_whole hframe, if_neg (Nat.not_lt.mpr hbig), if_neg, ← hlen,
      List.drop_left, List.take_left, List.length_append]
    show ¬ (h ++ (f.payload ++ c)).length < head + f.payload.length
    simp only [List.length_append]
    omega
  generalize hb0 : UInt8.ofNat ((if f.fin then 0x80 else 0) + f.opcode) = b0 at hrsv
  have hdone := fun head => wsFrameDone_server hf head
  rw [hb0] at hdone
  by_cases hshort : f.payload.length < 126
  · refine @hfront 2 [b0, UInt8.ofNat f.payload.length] ?_ rfl ?_
    · unfold serverHead
      rw [if_pos hshort, hb0]
    have hnum : (UInt8.ofNat f.payload.length).toNat = f.payload.length := by
      rw [UInt8.toNat_ofNat']
      exact Nat.mod_eq_of_lt (by omega)
    have hroom : 2 ≤ ([b0, UInt8.ofNat f.payload.length] ++ (f.payload ++ c)).length := Nat.le_add_left 2 _
    unfold wsFrame
    rw [if_neg (Nat.not_lt.mpr hroom), bytesAt_le (by omega), Option.bind_some]
    show (if b0.toNat / 16 % 8 ≠ 0 then _ else if 0x80 ≤ (UInt8.ofNat f.payload.length).toNat then _
      else if (UInt8.ofNat f.payload.length).toNat = 126 then _
      else if (UInt8.ofNat f.payload.length).toNat = 127 then _
      else some (wsFrameDone b0 2 (UInt8.ofNat f.payload.length).toNat)) = _
    rw [hnum, if_neg (not_not.mpr hrsv), if_neg (by omega), if_neg (by omega), if_neg (by omega), hdone]
  by_cases hmid : f.payload.length < 0x10000
  · refine @hfront 4 (b0 :: 126 :: spelled f.payload.length 2) ?_ (congrArg (· + 2) (length_spelled _ 2)) ?_
    · unfold serverHead
      rw [if_neg hshort, if_pos hmid, hb0]
      rfl
    · rw [← hdone]
      exact wsFrame_extended hrsv (Or.inl ⟨rfl, rfl⟩) hmid hmax (f.payload ++ c)
  · refine @hfront 10 (b0 :: 127 :: spelled f.payload.length 8) ?_ (congrArg (· + 2) (length_spelled _ 8)) ?_
    · unfold serverHead
      rw [if_neg hshort, if_neg hmid, hb0]
      rfl
    · rw [← hdone]
      exact wsFrame_extended hrsv (Or.inr ⟨rfl, rfl⟩) (hmax.trans (by decide)) hmax (f.payload ++ c)

end Rant.Tunnel
