import Rant.Tunnel.Client
/-!
# Streams from the bridge, however they are cut

A stream is a string of bytes that may end in the link's end. Its frames do the same to the client
whichever way it is cut into reads, but two slips of the source show: the bytes that come in one call
with the end of the link are thrown away unread, and a continuation with no message begun is delivered
under the opcode of the last message that was.
-/

namespace Rant.Tunnel

open Rant.Lib

section

variable {κ : Type} {handle : Handler κ} {memory : Nat → Bool}

/-! ## Reads -/

/-- The reads a stream was cut into: its end, if it has one, comes with the last of them. -/
def CutsOf : List ReadIn → Bytes → Bool → Prop
  | [], bytes, ended => bytes = [] ∧ ended = false
  | r :: rs, bytes, ended =>
    if r.done then rs = [] ∧ bytes = r.bytes ∧ ended = true
    else ∃ rest, bytes = r.bytes ++ rest ∧ CutsOf rs rest ended

/-- The link after the frames of `b`, and what is left of them. -/
def Link.after (handle : Handler κ) (memory : Nat → Bool) (t : Link κ) (b : Bytes) : Link κ × Bytes :=
  (frameReader handle memory).drained t b

theorem Link.after_append (t : Link κ) (b c : Bytes) :
    t.after handle memory (b ++ c) = (t.after handle memory b).1.after handle memory ((t.after handle memory b).2 ++ c) :=
  (frameReader_steady handle memory).drained_append c _ t b rfl

theorem Link.after_down {t : Link κ} (h : t.up = false) (b : Bytes) : t.after handle memory b = (t, []) :=
  Reader.drained_dead h b

theorem Link.after_empty {t : Link κ} {b : Bytes} (h : (t.after handle memory b).1.up = false) :
    (t.after handle memory b).2 = [] :=
  (frameReader_steady handle memory).drained_empty _ t b rfl h

theorem Link.after_nil (t : Link κ) : t.after handle memory [] = (t, []) := by
  cases h : t.up with
  | false => exact Link.after_down h []
  | true => exact Reader.drained_more h rfl

/-- Every cut of a stream is read inside its bytes. It leads where the stream leads that was read before
the end came, and the end then drops a link that is still up. -/
theorem reads_cut : ∀ (rs : List ReadIn) (bytes : Bytes) (ended : Bool) (t : Link κ) (b : Bytes),
    CutsOf rs bytes ended → ∃ front back, bytes = front ++ back ∧ (ended = false → back = []) ∧
      tunnelReads handle memory (t.after handle memory b) rs =
        some (if ended = true ∧ (t.after handle memory (b ++ front)).1.up = true
          then ((t.after handle memory (b ++ front)).1.drop .ended, [])
          else t.after handle memory (b ++ front)) := by
  intro rs
  induction rs with
  | nil =>
    rintro bytes ended t b ⟨rfl, rfl⟩
    refine ⟨[], [], rfl, fun _ => rfl, ?_⟩
    rw [if_neg (fun h => Bool.false_ne_true h.1), List.append_nil]
    rfl
  | cons r rs ih =>
    intro bytes ended t b hcut
    unfold CutsOf at hcut
    unfold tunnelReads tunnelRead
    by_cases hdone : r.done = true
    · rw [if_pos hdone] at hcut
      obtain ⟨rfl, rfl, rfl⟩ := hcut
      refine ⟨[], r.bytes, rfl, fun h => absurd h (fun h => Bool.false_ne_true h.symm), ?_⟩
      rw [List.append_nil]
      cases hup : (t.after handle memory b).1.up with
      | false =>
        rw [if_pos rfl, if_neg (fun h => Bool.false_ne_true h.2)]
        rfl
      | true =>
        rw [if_neg (fun h => Bool.false_ne_true h.symm), if_pos hdone, if_pos ⟨rfl, rfl⟩]
        rfl
    · rw [if_neg hdone] at hcut
      obtain ⟨rest, rfl, hrest⟩ := hcut
      obtain ⟨front, back, rfl, hback, hrun⟩ := ih rest ended t (b ++ r.bytes) hrest
      refine ⟨r.bytes ++ front, back, (List.append_assoc _ _ _).symm, hback, ?_⟩
      rw [← List.append_assoc, ← hrun]
      cases hup : (t.after handle memory b).1.up with
      | false =>
        have hsame : t.after handle memory (b ++ r.bytes) = t.after handle memory b := by
          rw [Link.after_append, Link.after_empty hup, List.nil_append, Link.after_down hup]
          exact Prod.ext rfl (Link.after_empty hup).symm
        rw [if_pos rfl, Option.bind_some, hsame]
      | true =>
        rw [if_neg (fun h => Bool.false_ne_true h.symm), if_neg hdone, tunnelFrames_eq, Option.bind_some,
          Link.after_append]
        rfl

/-- The front of a stream in one read, its end with the rest of the bytes. -/
theorem reads_two {t : Link κ} (hup : t.up = true) (front back : Bytes) :
    CutsOf [⟨front, false⟩, ⟨back, true⟩] (front ++ back) true ∧
    tunnelReads handle memory (t, []) [⟨front, false⟩, ⟨back, true⟩] =
      some (if (t.after handle memory front).1.up = true
        then ((t.after handle memory front).1.drop .ended, []) else t.after handle memory front) := by
  refine ⟨?_, ?_⟩
  · unfold CutsOf
    rw [if_neg Bool.false_ne_true]
    refine ⟨back, rfl, ?_⟩
    unfold CutsOf
    rw [if_pos rfl]
    exact ⟨rfl, rfl, rfl⟩
  · have hfirst : tunnelRead handle memory (t, []) ⟨front, false⟩ = some (t.after handle memory front) := by
      unfold tunnelRead
      rw [if_neg (fun h => Bool.false_ne_true (h.symm.trans hup)), if_neg Bool.false_ne_true, tunnelFrames_eq]
      rfl
    unfold tunnelReads
    rw [hfirst, Option.bind_some]
    unfold tunnelReads tunnelRead
    cases h : (t.after handle memory front).1.up with
    | false =>
      rw [if_pos rfl, if_neg Bool.false_ne_true]
      rfl
    | true =>
      rw [if_neg (fun h => Bool.false_ne_true h.symm), if_pos rfl, if_pos rfl]
      rfl

/-! ## What a frame does -/

/-- The link after a list of frames. -/
def Link.frames (handle : Handler κ) (memory : Nat → Bool) (t : Link κ) (fs : List Frame) (e : Option Why) : Link κ :=
  (frameReader handle memory).consume t fs e

theorem Link.after_frames (t : Link κ) (b : Bytes) :
    (t.after handle memory b).1 = t.frames handle memory (Reader.items frontOf b).1 (Reader.items frontOf b).2 :=
  (frameReader_steady handle memory).drained_state _ t b rfl

variable {t : Link κ} {f : Frame}

theorem Link.frames_cons (hup : t.up = true) (f : Frame) (fs : List Frame) (e : Option Why) :
    t.frames handle memory (f :: fs) e = (t.take handle memory f).frames handle memory fs e := by
  unfold Link.frames
  conv_lhs => unfold Reader.consume
  exact if_pos hup

theorem Link.frames_down (hdown : t.up = false) (fs : List Frame) (e : Option Why) :
    t.frames handle memory fs e = t := Reader.consume_dead hdown fs e

theorem Link.take_nothing (h : (t.joined.take memory f).2 = .nothing) :
    t.take handle memory f = { t with joined := (t.joined.take memory f).1 } := by
  unfold Link.take
  dsimp only
  rw [h]

theorem Link.take_pong {p : Bytes} (h : (t.joined.take memory f).2 = .pong p) :
    t.take handle memory f = { t with joined := (t.joined.take memory f).1, pongs := t.pongs ++ [p] } := by
  unfold Link.take
  dsimp only
  rw [h]

theorem Link.take_drop {why : Why} (h : (t.joined.take memory f).2 = .drop why) :
    t.take handle memory f = Link.drop { t with joined := (t.joined.take memory f).1 } why := by
  unfold Link.take
  dsimp only
  rw [h]

theorem Link.take_message {op : Nat} {p : Bytes} (h : (t.joined.take memory f).2 = .message op p) :
    t.take handle memory f = Link.message handle { t with joined := (t.joined.take memory f).1 } op p := by
  unfold Link.take
  dsimp only
  rw [h]

/-- A message is handed on under a data opcode and otherwise leaves no trace. -/
theorem Link.message_delivered (op : Nat) (p : Bytes) :
    (t.message handle op p).delivered = if op = wsText ∨ op = wsBinary then t.delivered ++ [(op, p)] else t.delivered := by
  unfold Link.message
  split
  · dsimp only
    split <;> rfl
  · rfl

theorem Link.message_other {op : Nat} (h : ¬(op = wsText ∨ op = wsBinary)) (p : Bytes) :
    t.message handle op p = t := if_neg h

theorem Link.message_why (hwhy : t.why = none) (op : Nat) (p : Bytes) :
    (t.message handle op p).up = true → (t.message handle op p).why = none := by
  unfold Link.message
  split
  · dsimp only
    split
    · exact fun h => absurd h Bool.false_ne_true
    · exact fun _ => hwhy
  · exact fun _ => hwhy

/-- What a frame never does: take back a message, or leave a link up that has a reason to be down. -/
theorem Link.take_keeps (hwhy : t.why = none) :
    (∃ more, (t.take handle memory f).delivered = t.delivered ++ more) ∧
      ((t.take handle memory f).up = true → (t.take handle memory f).why = none) := by
  cases h : (t.joined.take memory f).2 with
  | nothing =>
    rw [Link.take_nothing h]
    exact ⟨⟨[], (List.append_nil _).symm⟩, fun _ => hwhy⟩
  | pong p =>
    rw [Link.take_pong h]
    exact ⟨⟨[], (List.append_nil _).symm⟩, fun _ => hwhy⟩
  | drop why =>
    rw [Link.take_drop h]
    exact ⟨⟨[], (List.append_nil _).symm⟩, fun h => absurd h Bool.false_ne_true⟩
  | message op p =>
    rw [Link.take_message h]
    refine ⟨?_, Link.message_why (t := { t with joined := (t.joined.take memory f).1 }) hwhy op p⟩
    rw [Link.message_delivered]
    split
    · exact ⟨[(op, p)], rfl⟩
    · exact ⟨[], (List.append_nil _).symm⟩

/-- Nor does a list of frames. -/
theorem Link.frames_keeps (fs : List Frame) (e : Option Why) : ∀ {t : Link κ}, (t.up = true → t.why = none) →
    (∃ more, (t.frames handle memory fs e).delivered = t.delivered ++ more) ∧
      ((t.frames handle memory fs e).up = true → (t.frames handle memory fs e).why = none) := by
  induction fs with
  | nil =>
    intro t hwhy
    unfold Link.frames Reader.consume
    cases e with
    | none => exact ⟨⟨[], (List.append_nil _).symm⟩, hwhy⟩
    | some e =>
      dsimp only
      split
      · exact ⟨⟨[], (List.append_nil _).symm⟩, fun h => absurd h Bool.false_ne_true⟩
      · exact ⟨⟨[], (List.append_nil _).symm⟩, hwhy⟩
  | cons f fs ih =>
    intro t hwhy
    cases hup : t.up with
    | false =>
      rw [Link.frames_down hup]
      exact ⟨⟨[], (List.append_nil _).symm⟩, hwhy⟩
    | true =>
      rw [Link.frames_cons hup]
      obtain ⟨⟨more, hmore⟩, hkeep⟩ := @Link.take_keeps κ handle memory t f (hwhy hup)
      obtain ⟨⟨rest, hrest⟩, hlast⟩ := ih hkeep
      exact ⟨⟨more ++ rest, by rw [hrest, hmore, List.append_assoc]⟩, hlast⟩

/-! ## Frames that speak -/

/-- The link was dropped as malformed or too big. -/
def faultWhy (e : Option Why) : Bool := decide (e = some .malformed ∨ e = some .tooBig)

/-- A message of a data opcode or a fault among the frames, before a frame that drops the link. -/
def speaks (memory : Nat → Bool) : Joined → List Frame → Option Why → Bool
  | _, [], e => faultWhy e
  | m, f :: fs, e =>
    match (m.take memory f).2 with
    | .message op _ => decide (op = wsText ∨ op = wsBinary) || speaks memory (m.take memory f).1 fs e
    | .drop why => faultWhy (some why)
    | _ => speaks memory (m.take memory f).1 fs e

/-- They are told by the frames alone. -/
theorem speaks_iff (fs : List Frame) (e : Option Why) : ∀ {t : Link κ}, t.up = true → t.why = none →
    (speaks memory t.joined fs e = true ↔
      (t.frames handle memory fs e).delivered ≠ t.delivered ∨ faultWhy (t.frames handle memory fs e).why = true) := by
  induction fs with
  | nil =>
    intro t hup hwhy
    unfold Link.frames Reader.consume speaks
    cases e with
    | none =>
      rw [hwhy]
      exact ⟨fun h => absurd h Bool.false_ne_true, fun h => h.elim (fun h => absurd rfl h) id⟩
    | some e =>
      have hfault : (if (frameReader handle memory).live t = true then (frameReader handle memory).fault t e else t) =
          t.drop e := if_pos hup
      dsimp only
      rw [hfault]
      exact ⟨Or.inr, fun h => h.elim (fun h => absurd rfl h) id⟩
  | cons f fs ih =>
    intro t hup hwhy
    rw [Link.frames_cons hup]
    unfold speaks
    cases h : (t.joined.take memory f).2 with
    | nothing =>
      rw [Link.take_nothing h]
      exact @ih { t with joined := (t.joined.take memory f).1 } hup hwhy
    | pong p =>
      rw [Link.take_pong h]
      exact @ih { t with joined := (t.joined.take memory f).1, pongs := t.pongs ++ [p] } hup hwhy
    | drop why =>
      rw [Link.take_drop h, Link.frames_down rfl]
      exact ⟨Or.inr, fun h => h.elim (fun h => absurd rfl h) id⟩
    | message op p =>
      rw [Link.take_message h]
      dsimp only
      by_cases hop : op = wsText ∨ op = wsBinary
      · rw [decide_eq_true hop, Bool.true_or]
        refine ⟨fun _ => Or.inl fun hsame => ?_, fun _ => rfl⟩
        have hkeep := @Link.message_why κ handle { t with joined := (t.joined.take memory f).1 } hwhy op p
        obtain ⟨⟨more, hmore⟩, -⟩ := @Link.frames_keeps κ handle memory fs e _ hkeep
        rw [hmore, Link.message_delivered, if_pos hop] at hsame
        have hlen := congrArg List.length hsame
        simp only [List.length_append, List.length_cons, List.length_nil] at hlen
        omega
      · rw [decide_eq_false hop, Bool.false_or, Link.message_other hop]
        exact @ih { t with joined := (t.joined.take memory f).1 } hup hwhy

end

end Rant.Tunnel
