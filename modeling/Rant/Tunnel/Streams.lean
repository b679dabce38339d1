import Rant.Tunnel.Bridge
/-!
# Streams heard whole

What a bridge sends is heard whole however it is cut. Any other stream is read inside its bytes and alike
under every cut, except where its end comes in one call with a message, or where a continuation comes that
continues nothing after a message that was continued.
-/

namespace Rant.Tunnel

open Rant.Lib

/-- The bytes of what a bridge sends. -/
def sentBytes (ss : List Sent) : Bytes := (ss.flatMap Sent.frames).flatMap serverFrame

theorem Ctl.frame_allowed {c : Ctl} (hc : c.Allowed) : c.frame.Allowed := by
  obtain ⟨-, hop, hlen⟩ := hc
  have hmax : 125 ≤ msgMax := by decide
  exact ⟨hop, hlen.trans hmax, fun _ => ⟨rfl, hlen⟩⟩

theorem fragments_allowed {more : List (List Ctl × Bytes)} : (more.flatMap Prod.snd).length ≤ msgMax →
    (∀ x ∈ more, ∀ c ∈ x.1, c.Allowed) → ∀ f ∈ fragments more, f.Allowed := by
  induction more with
  | nil => exact fun _ _ f hf => absurd hf List.not_mem_nil
  | cons x more ih =>
    intro hfit hall f hf
    rw [List.flatMap_cons, List.length_append] at hfit
    obtain hf | hf := List.mem_append.mp hf
    · obtain ⟨c, hc, rfl⟩ := List.mem_map.mp hf
      exact Ctl.frame_allowed (hall x List.mem_cons_self c hc)
    obtain rfl | hf := List.mem_cons.mp hf
    · exact ⟨Nat.zero_lt_succ 15, by dsimp only; omega, fun h => absurd h (Nat.not_succ_le_zero 7)⟩
    · exact ih (by omega) (fun y hy => hall y (List.mem_cons_of_mem x hy)) f hf

theorem Sent.frames_allowed {s : Sent} (hs : s.Allowed) : ∀ f ∈ s.frames, f.Allowed := by
  cases s with
  | ctl c =>
    intro f hf
    obtain rfl := List.mem_singleton.mp hf
    exact Ctl.frame_allowed hs
  | message op first more =>
    obtain ⟨hop, hfit, hall⟩ := hs
    have hsmall : op < 8 := by
      unfold wsText wsBinary at hop
      omega
    intro f hf
    obtain rfl | hf := List.mem_cons.mp hf
    · exact ⟨by dsimp only; omega, by dsimp only; omega, fun h => absurd hsmall (Nat.not_lt.mpr h)⟩
    · exact fragments_allowed (by omega) hall f hf

section

variable {κ : Type}

/-- A link before any byte of its stream. -/
structure Link.Fresh (t : Link κ) : Prop where
  up : t.up = true
  why : t.why = none
  idle : t.joined.msg = []

variable {handle : Handler κ} {memory : Nat → Bool} {t : Link κ}

theorem sent_items {ss : List Sent} (hss : ∀ s ∈ ss, s.Allowed) :
    Reader.items frontOf (sentBytes ss) = (ss.flatMap Sent.frames, none) := by
  have hread : ∀ f ∈ ss.flatMap Sent.frames, ∀ c, (frameReader (fun (u : Unit) _ _ => (u, false)) fun _ => true).front
      (serverFrame f ++ c) = .item f (serverFrame f).length := by
    intro f hf c
    obtain ⟨s, hs, hf⟩ := List.mem_flatMap.mp hf
    exact frontOf_server (Sent.frames_allowed (hss s hs) f hf) c
  have hitems := @Reader.Steady.items_encoded _ _ _ _ _ (frameReader_steady (fun (u : Unit) _ _ => (u, false)) fun _ => true)
    serverFrame (ss.flatMap Sent.frames) [] hread
  rw [List.append_nil] at hitems
  refine hitems.trans ?_
  rw [show Reader.items _ ([] : Bytes) = ([], none) from rfl, List.append_nil]

/-- A message is begun by the frames and not ended. -/
def begun (fs : List Frame) : Bool :=
  fs.foldl (fun b f =>
    if (f.opcode = wsText ∨ f.opcode = wsBinary) ∧ f.fin = false then true
    else if f.opcode = wsCont ∧ f.fin = true then false else b) false

/-- A stream is read inside its bytes, and alike under every cut. -/
structure StreamRight (handle : Handler κ) (memory : Nat → Bool) (t : Link κ) (bytes : Bytes) (ended : Bool) : Prop where
  /-- Every read is inside the bytes received. -/
  inside : ∀ rs, CutsOf rs bytes ended → ∃ x, tunnelReads handle memory (t, []) rs = some x
  /-- The messages, and whether the link is dropped as malformed or too big, are those of any other cut. -/
  cuts : ∀ rs rs' x x', CutsOf rs bytes ended → CutsOf rs' bytes ended →
    tunnelReads handle memory (t, []) rs = some x → tunnelReads handle memory (t, []) rs' = some x' →
    x.1.delivered = x'.1.delivered ∧ faultWhy x.1.why = faultWhy x'.1.why
  /-- A continuation with no message begun is not delivered. -/
  orphans : ∀ pre f post, (Reader.items frontOf bytes).1 = pre ++ f :: post → f.opcode = wsCont → f.fin = true →
    begun pre = false →
    (t.frames handle memory (pre ++ [f]) none).delivered = (t.frames handle memory pre none).delivered

/-- No message is delivered under the opcode the client kept. -/
def Joined.Idle (memory : Nat → Bool) (m : Joined) (f : Frame) : Prop :=
  ¬(m.op = wsText ∨ m.op = wsBinary) ∨ msgMax < m.msg.length + f.payload.length ∨
    reserve m.cap (m.msg.length + f.payload.length) (memory (m.msg.length + f.payload.length)) = none

/-- The end of the stream comes after no message and no fault, and a continuation with no message begun
finds no opcode kept of one that was. -/
def StreamClean (handle : Handler κ) (memory : Nat → Bool) (t : Link κ) (bytes : Bytes) (ended : Bool) : Prop :=
  (ended = true → speaks memory t.joined (Reader.items frontOf bytes).1 (Reader.items frontOf bytes).2 = false) ∧
  ∀ pre f post, (Reader.items frontOf bytes).1 = pre ++ f :: post → f.opcode = wsCont → f.fin = true →
    begun pre = false → (t.frames handle memory pre none).up = true →
    (t.frames handle memory pre none).joined.Idle memory f

/-- A final continuation is delivered unless the client is idle. -/
theorem orphan_iff {f : Frame} (hop : f.opcode = wsCont) (hfin : f.fin = true) (hup : t.up = true) :
    (t.frames handle memory [f] none).delivered = t.delivered ↔ t.joined.Idle memory f := by
  have hone : t.frames handle memory [f] none = t.take handle memory f := by
    rw [Link.frames_cons hup]
    rfl
  have hcont : t.joined.take memory f =
      if msgMax < t.joined.msg.length + f.payload.length then (t.joined, .drop .tooBig)
      else (reserve t.joined.cap (t.joined.msg.length + f.payload.length)
        (memory (t.joined.msg.length + f.payload.length))).elim (t.joined, .drop .tooBig) fun cap =>
          ({ t.joined with msg := [], cap := cap }, .message t.joined.op (t.joined.msg ++ f.payload)) := by
    unfold Joined.take
    rw [hop, hfin, if_neg (by decide), if_pos rfl]
    split
    · rfl
    · cases reserve t.joined.cap (t.joined.msg.length + f.payload.length)
        (memory (t.joined.msg.length + f.payload.length)) with
      | none => rfl
      | some cap => rfl
  rw [hone]
  unfold Joined.Idle
  by_cases hbig : msgMax < t.joined.msg.length + f.payload.length
  · rw [if_pos hbig] at hcont
    rw [Link.take_drop (congrArg Prod.snd hcont)]
    exact ⟨fun _ => Or.inr (Or.inl hbig), fun _ => rfl⟩
  rw [if_neg hbig] at hcont
  cases hres : reserve t.joined.cap (t.joined.msg.length + f.payload.length)
      (memory (t.joined.msg.length + f.payload.length)) with
  | none =>
    rw [hres] at hcont
    rw [Link.take_drop (congrArg Prod.snd hcont)]
    exact ⟨fun _ => Or.inr (Or.inr rfl), fun _ => rfl⟩
  | some cap =>
    rw [hres] at hcont
    rw [Link.take_message (congrArg Prod.snd hcont), Link.message_delivered]
    by_cases hdata : t.joined.op = wsText ∨ t.joined.op = wsBinary
    · rw [if_pos hdata]
      refine ⟨fun h => ?_, fun h => ?_⟩
      · have hlen := congrArg List.length h
        simp only [List.length_append, List.length_cons, List.length_nil] at hlen
        omega
      · obtain h | h | h := h
        · exact absurd hdata h
        · exact absurd h hbig
        · exact absurd h (Option.some_ne_none cap)
    · rw [if_neg hdata]
      exact ⟨fun _ => Or.inl hdata, fun _ => rfl⟩

theorem Link.frames_snoc (pre : List Frame) (f : Frame) (hup : (t.frames handle memory pre none).up = false) :
    t.frames handle memory (pre ++ [f]) none = t.frames handle memory pre none := by
  rw [Link.frames_append, Link.frames_down hup]

/-- A stream that does not speak changes no message and no fault, as far as it is read. -/
theorem silent_after (ht : t.Fresh) {front back : Bytes}
    (h : speaks memory t.joined (Reader.items frontOf (front ++ back)).1 (Reader.items frontOf (front ++ back)).2 = false) :
    (t.after handle memory front).1.delivered = t.delivered ∧
      faultWhy (t.after handle memory front).1.why = false := by
  have hspeaks := @speaks_iff κ handle memory (Reader.items frontOf (front ++ back)).1
    (Reader.items frontOf (front ++ back)).2 t ht.up ht.why
  rw [← Link.after_frames] at hspeaks
  have hnot : ¬((t.after handle memory (front ++ back)).1.delivered ≠ t.delivered ∨
      faultWhy (t.after handle memory (front ++ back)).1.why = true) := fun hs =>
    Bool.false_ne_true (h.symm.trans (hspeaks.mpr hs))
  obtain ⟨hsame, hfault⟩ := not_or.mp hnot
  have hkeep := @Link.frames_keeps κ handle memory (Reader.items frontOf front).1 (Reader.items frontOf front).2 t
    fun _ => ht.why
  rw [← Link.after_frames] at hkeep
  obtain ⟨⟨more, hmore⟩, hwhy⟩ := hkeep
  have hrest := @Link.after_frames κ handle memory (t.after handle memory front).1
    ((t.after handle memory front).2 ++ back)
  rw [← Link.after_append] at hrest
  obtain ⟨⟨last, hlast⟩, -⟩ := @Link.frames_keeps κ handle memory
    (Reader.items frontOf ((t.after handle memory front).2 ++ back)).1
    (Reader.items frontOf ((t.after handle memory front).2 ++ back)).2 (t.after handle memory front).1 hwhy
  rw [← hrest] at hlast
  refine ⟨?_, ?_⟩
  · have hlen : (t.delivered ++ more ++ last).length = t.delivered.length := by
      rw [← hmore, ← hlast]
      exact congrArg List.length (Decidable.of_not_not hsame)
    rw [List.length_append, List.length_append] at hlen
    have hnil : more = [] := List.eq_nil_of_length_eq_zero (by omega)
    rw [hmore, hnil, List.append_nil]
  · cases hup : (t.after handle memory front).1.up with
    | true =>
      rw [hwhy hup]
      rfl
    | false =>
      have hstays : t.after handle memory (front ++ back) = t.after handle memory front := by
        rw [Link.after_append, Link.after_empty hup, List.nil_append, Link.after_down hup]
        exact Prod.ext rfl (Link.after_empty hup).symm
      rw [hstays] at hfault
      exact Bool.eq_false_iff.mpr hfault

/-- The end of the link leaves the messages, and is no fault of a link that was up. -/
theorem ended_seen (ht : t.Fresh) (front : Bytes) {x : Link κ × Bytes}
    (hx : x = if (t.after handle memory front).1.up = true
      then ((t.after handle memory front).1.drop .ended, []) else t.after handle memory front) :
    x.1.delivered = (t.after handle memory front).1.delivered ∧
      faultWhy x.1.why = faultWhy (t.after handle memory front).1.why := by
  have hkeep := @Link.frames_keeps κ handle memory (Reader.items frontOf front).1 (Reader.items frontOf front).2 t
    fun _ => ht.why
  rw [← Link.after_frames] at hkeep
  cases hup : (t.after handle memory front).1.up with
  | true =>
    rw [if_pos hup] at hx
    rw [hx, hkeep.2 hup]
    exact ⟨rfl, rfl⟩
  | false =>
    rw [if_neg (fun h => Bool.false_ne_true (hup.symm.trans h))] at hx
    rw [hx]
    exact ⟨rfl, rfl⟩

/-- A stream is right exactly where it is clean. -/
theorem stream_right_iff (ht : t.Fresh) (bytes : Bytes) (ended : Bool) :
    StreamRight handle memory t bytes ended ↔ StreamClean handle memory t bytes ended := by
  have hstart : (t, ([] : Bytes)) = t.after handle memory [] := (Link.after_nil t).symm
  refine ⟨fun h => ⟨fun hended => ?_, fun pre f post hitems hop hfin hbegun hup => ?_⟩, fun h => ⟨?_, ?_, ?_⟩⟩
  · subst hended
    refine Bool.eq_false_iff.mpr fun hspeaks => ?_
    -- the whole stream before its end, and with it
    obtain ⟨hcut, hrun⟩ := @reads_two κ handle memory t ht.up bytes []
    obtain ⟨hcut', hrun'⟩ := @reads_two κ handle memory t ht.up [] bytes
    rw [List.append_nil] at hcut
    obtain ⟨hsame, hfault⟩ := h.cuts _ _ _ _ hcut hcut' hrun hrun'
    obtain ⟨hd, hf⟩ := @ended_seen κ handle memory t ht bytes _ rfl
    obtain ⟨hd', hf'⟩ := @ended_seen κ handle memory t ht [] _ rfl
    rw [hd, hd', Link.after_nil] at hsame
    rw [hf, hf', Link.after_nil, ht.why] at hfault
    rw [@speaks_iff κ handle memory _ _ t ht.up ht.why, ← Link.after_frames] at hspeaks
    obtain hspeaks | hspeaks := hspeaks
    · exact hspeaks hsame
    · exact Bool.false_ne_true (hfault.symm.trans hspeaks)
  · refine (@orphan_iff κ handle memory _ f hop hfin hup).mp ?_
    rw [← Link.frames_append]
    exact h.orphans pre f post hitems hop hfin hbegun
  · intro rs hcut
    obtain ⟨front, back, -, -, hrun⟩ := @reads_cut κ handle memory rs bytes ended t [] hcut
    exact ⟨_, hstart ▸ hrun⟩
  · intro rs rs' x x' hcut hcut' hx hx'
    obtain ⟨front, back, hbytes, hback, hrun⟩ := @reads_cut κ handle memory rs bytes ended t [] hcut
    obtain ⟨front', back', hbytes', hback', hrun'⟩ := @reads_cut κ handle memory rs' bytes ended t [] hcut'
    rw [← hstart] at hrun hrun'
    have heq := Option.some.inj (hx.symm.trans hrun)
    have heq' := Option.some.inj (hx'.symm.trans hrun')
    rw [List.nil_append] at heq heq'
    cases ended with
    | false =>
      rw [if_neg (fun h => Bool.false_ne_true h.1)] at heq heq'
      rw [hback rfl, List.append_nil] at hbytes
      rw [hback' rfl, List.append_nil] at hbytes'
      rw [heq, heq', ← hbytes, ← hbytes']
      exact ⟨rfl, rfl⟩
    | true =>
      have hsilent := h.1 rfl
      simp only [true_and] at heq heq'
      obtain ⟨hd, hf⟩ := ended_seen ht front heq
      obtain ⟨hd', hf'⟩ := ended_seen ht front' heq'
      obtain ⟨hs, hq⟩ := @silent_after κ handle memory t ht front back (hbytes ▸ hsilent)
      obtain ⟨hs', hq'⟩ := @silent_after κ handle memory t ht front' back' (hbytes' ▸ hsilent)
      rw [hd, hd', hf, hf', hs, hs', hq, hq']
      exact ⟨rfl, rfl⟩
  · intro pre f post hitems hop hfin hbegun
    cases hup : (t.frames handle memory pre none).up with
    | false => rw [Link.frames_snoc pre f hup]
    | true =>
      rw [Link.frames_append]
      exact (orphan_iff hop hfin hup).mpr (h.2 pre f post hitems hop hfin hbegun hup)

end

/-- What a bridge sends is heard whole under every cut: the messages with their opcodes in order, the pings
answered, until a message makes the client drop the link. Any other stream is read
alike under every cut exactly where it is clean. -/
theorem frames_chunking {κ : Type} (handle : Handler κ) (memory : Nat → Bool) (t : Link κ) (ht : t.Fresh) :
    (∀ ss : List Sent, (∀ n, memory n = true) → (∀ s ∈ ss, s.Allowed) → ∀ rs, CutsOf rs (sentBytes ss) false →
      ∃ x, tunnelReads handle memory (t, []) rs = some x ∧
        x.1.bare = (t.heard handle (ss.flatMap Sent.events)).bare) ∧
    ∀ (bytes : Bytes) (ended : Bool),
      StreamRight handle memory t bytes ended ↔ StreamClean handle memory t bytes ended := by
  refine ⟨fun ss hmem hss rs hcut => ?_, fun bytes ended => stream_right_iff ht bytes ended⟩
  obtain ⟨front, back, hbytes, hback, hrun⟩ := @reads_cut κ handle memory rs _ false t [] hcut
  rw [if_neg (fun h => Bool.false_ne_true h.1), Link.after_nil, List.nil_append] at hrun
  rw [hback rfl, List.append_nil] at hbytes
  refine ⟨_, hrun, ?_⟩
  rw [Link.after_frames, ← hbytes, sent_items hss]
  exact Link.all_heard hmem hss

/-- A client with nothing to do. -/
def idleClient : Link Unit := { app := () }

/-- A message in two fragments with a ping between them. -/
def pinged : Sent := .message wsText [97] [([⟨wsPing, [1]⟩], [98])]

/-- It is heard whole, cut in a head and in the ping's. -/
theorem frames_chunking_one : ∃ x, tunnelReads (fun u _ _ => (u, false)) (fun _ => true) (idleClient, [])
      [⟨[1], false⟩, ⟨[1, 97, 137], false⟩, ⟨[1, 1, 128, 1, 98], false⟩] = some x ∧
    x.1.bare = (idleClient.heard (fun u _ _ => (u, false)) [.pong [1], .message wsText [97, 98]]).bare := by
  refine (frames_chunking (fun u _ _ => (u, false)) (fun _ => true) idleClient ⟨rfl, rfl, rfl⟩).1
    [pinged] (fun _ => rfl) (fun s hs => ?_) _ ⟨_, rfl, _, rfl, _, rfl, rfl, rfl⟩
  rw [List.mem_singleton.mp hs]
  refine ⟨Or.inl rfl, by decide, ?_⟩
  simp [wsPing, Ctl.Allowed]

/-- The continuation of nothing is delivered as a text of its own, and a text that comes in one call with
the end of the link is lost. -/
theorem frames_chunking_fails :
    ¬StreamRight (fun u _ _ => (u, false)) (fun _ => true) idleClient [1, 1, 97, 128, 1, 98, 128, 1, 99] false ∧
    ¬StreamRight (fun u _ _ => (u, false)) (fun _ => true) idleClient [129, 1, 97] true := by
  refine ⟨fun h => ?_, fun h => ?_⟩
  · have horphan := h.orphans [⟨false, 1, [97]⟩, ⟨true, 0, [98]⟩] ⟨true, 0, [99]⟩ [] (by decide +kernel) rfl rfl
      (by decide +kernel)
    have hlen := congrArg List.length horphan
    exact absurd hlen (by decide +kernel)
  · have hlate := h.cuts [⟨[129, 1, 97], false⟩, ⟨[], true⟩] [⟨[129, 1, 97], true⟩] _ _
      (@reads_two Unit (fun u _ _ => (u, false)) (fun _ => true) idleClient rfl [129, 1, 97] []).1
      (by unfold CutsOf; exact ⟨rfl, rfl, rfl⟩) rfl rfl
    have hlen := congrArg List.length hlate.1
    exact absurd hlen (by decide +kernel)

end Rant.Tunnel
