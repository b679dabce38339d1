import Rant.Lib.Keyed
import Rant.Discovery.DueQueue
import Rant.Discovery.Deadlines
import Rant.Discovery.Edits
/-!
# Targeted sends

A driver polls `i_rant_discovery_poll_targeted` until it sends nothing. `drained`: that ends
after the loose replies and the records due at that time are each sent to once, because a
send takes its record out of the queue or moves it past the time. Over a run an ask is sent at
most `RANT_DISCOVERY_ASK_TRIES` times, and `RANT_DISCOVERY_ASK_RETRY_US` apart but where other
work owed to the record brings the next send forward: a record has one due time for all it
is owed.
-/

namespace Rant.Discovery

open Rant.Lib
open Rant.Transport (Bytes)

/-! ## The pace of the asks -/

/-- The ask owed to the record at a place: its sends, when the last went out, and whether
anything was owed to the record since. -/
structure Asked where
  sends : Nat
  last : Nat
  joined : Bool
  deriving Repr, DecidableEq

/-- A mark follows the marks before it, of the place `i`: no send is one too many or too soon. -/
def askNext (i : Nat) (o : Option Asked) : AskMark → Option Asked
  | .began j => o.map fun a => if j = i then ⟨0, 0, false⟩ else a
  | .owed j => o.map fun a => if j = i then { a with joined := true } else a
  | .sent j now => o.bind fun a =>
    if j ≠ i then some a
    else if a.sends < askTriesMax ∧ (a.sends = 0 ∨ a.joined = true ∨ a.last + askRetryUs ≤ now) then
      some ⟨a.sends + 1, now, false⟩
    else none

/-- The asks of a place, none where one was sent once too often or too soon. Before the first
began none may be sent. -/
def paced (i : Nat) (l : List AskMark) : Option Asked :=
  l.foldl (askNext i) (some ⟨askTriesMax, 0, false⟩)

/-- How a place is paced up to the last ask. -/
theorem paced_append (i : Nat) (l : List AskMark) (m : AskMark) :
    paced i (l ++ [m]) = askNext i (paced i l) m := by
  unfold paced
  rw [List.foldl_append]
  rfl

/-- What a mark is about. -/
def AskMark.place : AskMark → Nat
  | .began i => i
  | .owed i => i
  | .sent i _ => i

variable {i : Nat}

theorem askNext_other {m : AskMark} (h : m.place ≠ i) (o : Option Asked) :
    askNext i o m = o := by
  cases o with
  | none => cases m <;> rfl
  | some a =>
    cases m with
    | began j => exact congrArg some (if_neg h)
    | owed j => exact congrArg some (if_neg h)
    | sent j now => exact if_pos h

/-- A record is owed no more sends than are left to it, and none before its time. -/
def Asked.Covers (a : Asked) (x : Rec) : Prop :=
  1 ≤ x.askTries ∧ a.sends + x.askTries ≤ askTriesMax ∧
    (a.sends = 0 ∨ a.joined = true ∨ a.last + askRetryUs ≤ x.due)

/-- Every ask was sent in time, and those owed are covered by what is left of them. -/
def Core.Paced (st : Core) : Prop :=
  ∀ i, ∃ a, paced i st.asks = some a ∧
    ∀ x, st.recAt i = some x → x.owed.ask = true → a.Covers x

variable {st : Core}

variable {st' : Core}

/-- The records that owe an ask after a write owed it before, with no more sends left and at
the same time. -/
theorem Core.Paced.mono (h : st.Paced) (hasks : st'.asks = st.asks)
    (hrec : ∀ i x', st'.recAt i = some x' → x'.owed.ask = true → ∃ x, st.recAt i = some x ∧
      x.owed.ask = true ∧ (x'.askTries = x.askTries ∨ x'.askTries = 1) ∧ x'.due = x.due) :
    st'.Paced := by
  intro i
  obtain ⟨a, ha, hcov⟩ := h i
  refine ⟨a, by rw [hasks]; exact ha, fun x' hx' hask => ?_⟩
  obtain ⟨x, hx, hxask, htries, hdue⟩ := hrec i x' hx' hask
  obtain ⟨hpos, hle, htime⟩ := hcov x hx hxask
  refine ⟨?_, ?_, by rw [hdue]; exact htime⟩
  · rcases htries with ht | ht <;> omega
  · rcases htries with ht | ht <;> omega

/-- A mark about the place of a record, and the record written with it. -/
theorem Core.Paced.mark (h : st.Paced) {m : AskMark} (hasks : st'.asks = st.asks ++ [m])
    (hother : ∀ j, j ≠ m.place → st'.recAt j = st.recAt j)
    (hself : ∀ a, paced m.place st.asks = some a →
      (∀ x, st.recAt m.place = some x → x.owed.ask = true → a.Covers x) →
      ∃ a', askNext m.place (some a) m = some a' ∧
        ∀ x', st'.recAt m.place = some x' → x'.owed.ask = true → a'.Covers x') : st'.Paced := by
  intro j
  obtain ⟨a, ha, hcov⟩ := h j
  rw [hasks, paced_append, ha]
  by_cases hj : j = m.place
  · subst hj
    exact hself a ha hcov
  · refine ⟨a, askNext_other (Ne.symm hj) _, fun x hx => ?_⟩
    rw [hother j hj] at hx
    exact hcov x hx

/-- A write that keeps what is owed keeps the pace, or ends it early. -/
theorem Core.Paced.modRec (h : st.Paced) (i : Nat) {f : Rec → Rec}
    (hf : ∀ x, (f x).owed = x.owed ∧ ((f x).askTries = x.askTries ∨ (f x).askTries = 1) ∧
      (f x).due = x.due) : (st.modRec i f).Paced := by
  refine h.mono rfl fun j x' hx' hask => ?_
  rw [recAt_modRec] at hx'
  split at hx'
  next hj =>
    obtain ⟨x, hx, rfl⟩ := Option.map_eq_some_iff.mp hx'
    exact ⟨x, hx, by rw [← (hf x).1]; exact hask, (hf x).2.1, (hf x).2.2⟩
  next => exact ⟨x', hx', hask, Or.inl rfl, rfl⟩

variable {x : Rec}

theorem bond_owed {y : Rec} (h : x.bond = y.bond) :
    x.owed = y.owed ∧ x.askTries = y.askTries ∧ x.due = y.due :=
  ⟨congrArg (fun b => b.2.2.2.1) h, congrArg (fun b => b.2.2.2.2.1) h, congrArg (fun b => b.2.2.2.2.2) h⟩

variable {o : Owed}

theorem ask_of_clear {p : Owed} (h : (o.clear p).ask = true) : o.ask = true := by
  unfold Owed.ask Owed.clear at *
  simp only [Bool.or_eq_true, Bool.and_eq_true] at h ⊢
  rcases h with h | h <;> simp [h.1]

/-- A debt settled is one record's. -/
theorem recAt_settle_cases {j : Nat} {bits : Owed} {x' : Rec}
    (hx' : (st.settle i bits).recAt j = some x') :
    ∃ x, st.recAt j = some x ∧ (x' = x ∨ x' = { x with owed := x.owed.clear bits }) := by
  by_cases hj : j = i
  · subst hj
    cases hr : st.recAt j with
    | none =>
      have hsame : st.settle j bits = st := by
        unfold Core.settle Records.settle
        have hget : st.records.get j = none := hr
        rw [hget]
      rw [hsame, hr] at hx'
      cases hx'
    | some x =>
      rw [Core.recAt_settle hr, Option.some_inj] at hx'
      exact ⟨x, rfl, Or.inr hx'.symm⟩
  · rw [recAt_settle_ne st i bits hj] at hx'
    exact ⟨x', hx', Or.inl rfl⟩

/-- Settling debts keeps the pace. -/
theorem Core.Paced.settle (h : st.Paced) (i : Nat) (bits : Owed) : (st.settle i bits).Paced := by
  refine h.mono rfl fun j x' hx' hask => ?_
  obtain ⟨x, hx, rfl | rfl⟩ := recAt_settle_cases hx'
  · exact ⟨x', hx, hask, Or.inl rfl, rfl⟩
  · exact ⟨x, hx, ask_of_clear hask, Or.inl rfl, rfl⟩

/-- What `owe` leaves of the record it owes to. -/
theorem get_owe {r : Records} (hx : r.get i = some x) (bits : Owed) (due : Nat) :
    ∃ d, (r.owe i bits due).get i = some { x with owed := x.owed.or bits, due := d } := by
  unfold Records.owe
  rw [hx]
  dsimp only
  cases hb : bits.any with
  | false =>
    have hor : x.owed.or bits = x.owed := by
      revert hb
      obtain ⟨a, b, c⟩ := bits
      unfold Owed.any Owed.or
      cases a <;> cases b <;> cases c <;> simp
    exact ⟨x.due, by rw [hor]; exact hx⟩
  | true =>
    rw [Bool.not_true, if_neg Bool.false_ne_true]
    split
    next => exact ⟨due, Records.get_modify_self hx _⟩
    next => exact ⟨Nat.min due x.due, Records.get_modify_self hx _⟩

theorem recAt_owe_ne (st : Core) (i : Nat) (bits : Owed) (due : Nat) {j : Nat} (hj : j ≠ i) :
    (st.owe i bits due).recAt j = st.recAt j := by
  show (st.records.owe i bits due).get j = st.records.get j
  unfold Records.owe
  split
  next => rfl
  next x _ =>
    split
    next => rfl
    split
    next => exact (Records.get_modify ..).trans (if_neg hj)
    next => exact (Records.get_modify ..).trans (if_neg hj)

/-- Work owed to a record covered so far. -/
theorem Core.Paced.owe (h : st.Paced) (i : Nat) {bits : Owed} (due : Nat)
    (hbits : ∀ x, st.recAt i = some x → (x.owed.or bits).ask = true → x.owed.ask = true) :
    (st.owe i bits due).Paced := by
  refine h.mark (m := .owed i) rfl (fun j hj => recAt_owe_ne st i bits due hj) fun a ha hcov => ?_
  refine ⟨{ a with joined := true }, congrArg some (if_pos rfl), fun x' hx' hask => ?_⟩
  have hx'' : (st.records.owe i bits due).get i = some x' := hx'
  cases hr : st.recAt i with
  | none =>
    have hsame : st.records.owe i bits due = st.records := by
      unfold Records.owe
      have hget : st.records.get i = none := hr
      rw [hget]
    rw [hsame] at hx''
    exact absurd (hx''.symm.trans hr) (Option.some_ne_none x')
  | some x =>
    obtain ⟨d, hd⟩ := get_owe hr bits due
    rw [hd, Option.some_inj] at hx''
    subst hx''
    obtain ⟨hpos, hle, -⟩ := hcov x hr (hbits x hr hask)
    exact ⟨hpos, hle, Or.inr (Or.inl rfl)⟩

/-- An ask that begins, or joins one owed. -/
theorem Core.Paced.ask (h : st.Paced) (i : Nat) (bits : Owed) (now : Nat) :
    (st.ask i bits now).Paced := by
  unfold Core.ask
  cases hr : st.recAt i with
  | none => exact h
  | some x =>
    dsimp only
    split
    next => exact h
    cases hask : x.owed.ask with
    | true =>
      refine h.owe i now fun y hy _ => ?_
      rw [hr, Option.some_inj] at hy
      exact hy ▸ hask
    | false =>
      rw [if_neg Bool.false_ne_true]
      intro j
      obtain ⟨a, ha, hcov⟩ := h j
      show ∃ a, paced j (st.asks ++ [.began i] ++ [.owed i]) = some a ∧ _
      rw [paced_append, paced_append, ha]
      by_cases hj : j = i
      · subst hj
        refine ⟨⟨0, 0, true⟩, by simp [askNext], fun x' hx' _ => ?_⟩
        obtain ⟨d, hd⟩ := get_owe (r := (st.modRec j fun x =>
          { x with askTries := if x.askMissed then 1 else askTriesMax }).records)
          (Core.recAt_modRec_self hr _) bits now
        have hx'' := hd.symm.trans hx'
        cases hx''
        refine ⟨?_, ?_, Or.inl rfl⟩
        · show 1 ≤ if x.askMissed then 1 else askTriesMax
          split <;> decide
        · show 0 + (if x.askMissed then 1 else askTriesMax) ≤ askTriesMax
          split <;> decide
      · rw [askNext_other (m := .began i) (Ne.symm hj), askNext_other (m := .owed i) (Ne.symm hj)]
        refine ⟨a, rfl, fun x' hx' hask' => hcov x' ?_ hask'⟩
        rw [recAt_owe_ne _ i bits now hj] at hx'
        exact (Core.recAt_modRec_ne hj _).symm.trans hx'

theorem due_requeue (hr : st.recAt i = some x) (hany : x.owed.any = true)
    (due : Nat) : (st.records.requeue i due).get i = some { x with due := due } ∧
      (st.records.requeue i due).due = st.records.due.erase i ++ [i] ∧
        ∀ j, j ≠ i → (st.records.requeue i due).get j = st.recAt j := by
  have hget : st.records.get i = some x := hr
  unfold Records.requeue
  rw [hget]
  dsimp only
  rw [hany, Bool.not_true, if_neg Bool.false_ne_true]
  exact ⟨Records.get_modify_self hget _, rfl, fun j hj => (Records.get_modify ..).trans (if_neg hj)⟩

theorem any_of_ask (h : o.ask = true) : o.any = true := by
  unfold Owed.ask at h
  unfold Owed.any
  rw [Bool.or_assoc, h, Bool.or_true]

variable {now : Nat}

/-- An ask that is due is sent: once less is left, or none. -/
theorem Core.Paced.askSent (h : st.Paced)
    (hdue : ∀ x, st.recAt i = some x → x.due ≤ now) : (st.askSent i now).Paced := by
  unfold Core.askSent
  cases hr : st.recAt i with
  | none => exact h
  | some x =>
    dsimp only
    cases hask : x.owed.ask with
    | false => exact h
    | true =>
      rw [Bool.not_true, if_neg Bool.false_ne_true]
      have hr' : (st.noteAsk (.sent i now)).recAt i = some x := hr
      -- the send is in time, since what covers the record is due
      have hnext : ∀ a, a.Covers x → askNext i (some a) (.sent i now) =
          some ⟨a.sends + 1, now, false⟩ := by
        intro a hcov
        obtain ⟨hpos, hle, htime⟩ := hcov
        have hlt : a.sends < askTriesMax := by omega
        have hpace : a.sends = 0 ∨ a.joined = true ∨ a.last + askRetryUs ≤ now :=
          htime.imp_right (Or.imp_right fun hlast => hlast.trans (hdue x hr))
        show (if i ≠ i then some a else _) = _
        rw [if_neg (not_not_intro rfl), if_pos ⟨hlt, hpace⟩]
      split
      next htries =>
        have hmod : ((st.noteAsk (.sent i now)).modRec i fun x =>
            { x with askTries := x.askTries - 1 }).recAt i = some { x with askTries := x.askTries - 1 } :=
          Core.recAt_modRec_self hr' _
        obtain ⟨hself, -, hother⟩ := due_requeue hmod (any_of_ask hask) (now + askRetryUs)
        refine h.mark (m := .sent i now) rfl (fun j hj => ?_) fun a _ hcov => ?_
        · exact (hother j hj).trans (Core.recAt_modRec_ne hj _)
        · obtain ⟨hpos, hle, -⟩ := hcov x hr hask
          refine ⟨_, hnext a (hcov x hr hask), fun x' hx' _ => ?_⟩
          have hx'' := hself.symm.trans hx'
          cases hx''
          refine ⟨?_, ?_, Or.inr (Or.inr (Nat.le_refl _))⟩
          · exact Nat.le_sub_of_add_le htries
          · show a.sends + 1 + (x.askTries - 1) ≤ askTriesMax
            omega
      next =>
        have hmod : ((st.noteAsk (.sent i now)).modRec i fun x => { x with askMissed := true }).recAt i =
            some { x with askMissed := true } := Core.recAt_modRec_self hr' _
        have hset := Core.recAt_settle hmod oweAsk
        have hsent : (((st.noteAsk (.sent i now)).modRec i fun x =>
            { x with askMissed := true }).settle i oweAsk).Paced := by
          refine h.mark (m := .sent i now) rfl (fun j hj => ?_) fun a _ hcov => ?_
          · rw [recAt_settle_ne _ i oweAsk hj]
            exact Core.recAt_modRec_ne hj _
          · refine ⟨_, hnext a (hcov x hr hask), fun x' hx' hask' => ?_⟩
            have hx'' := hset.symm.trans hx'
            cases hx''
            revert hask'
            show (x.owed.clear oweAsk).ask = true → _
            unfold Owed.ask Owed.clear oweAsk
            simp
        split
        next =>
          unfold Core.refetchDone
          rw [hset]
          dsimp only
          split
          next => exact hsent
          have hre := hsent.modRec i (f := fun x => { x with refetch := false })
            fun _ => ⟨rfl, Or.inl rfl, rfl⟩
          split
          next => exact hre.mono rfl fun j y hy hyask => ⟨y, hy, hyask, Or.inl rfl, rfl⟩
          next => exact hre
        next => exact hsent

/-! ## Every write keeps them -/

theorem queued_ask (h : st.records.Queued) (i : Nat) (bits : Owed) (now : Nat) :
    (st.ask i bits now).records.Queued := by
  rcases st.ask_cases i bits now with heq | heq | heq <;> rw [heq]
  · exact h
  · exact h.owe i bits now
  · exact (h.modify i (f := fun x =>
      { x with askTries := if x.askMissed then 1 else askTriesMax }) fun _ => rfl).owe i bits now

theorem queued_refetchDone (h : st.records.Queued) (i : Nat) : (st.refetchDone i).records.Queued := by
  rcases st.refetchDone_cases i with heq | heq | heq <;> rw [heq]
  · exact h
  · exact h.modify i fun _ => rfl
  · exact h.modify i fun _ => rfl

theorem queued_askSent (h : st.records.Queued) (i now : Nat) : (st.askSent i now).records.Queued := by
  rcases st.askSent_cases i now with heq | ⟨st', rfl, heq⟩ | ⟨st', rfl, heq⟩
  · rw [heq]
    exact h
  · rw [heq]
    exact (h.modify i (f := fun x => { x with askTries := x.askTries - 1 }) fun _ => rfl).requeue i _
  · have hset := (h.modify i (f := fun x => { x with askMissed := true }) fun _ => rfl).settle i oweAsk
    rcases heq with heq | heq <;> rw [heq]
    · exact hset
    · exact queued_refetchDone hset i

/-- The debts of a core: its queue and the pace of its asks. -/
structure Core.Debts (st : Core) : Prop where
  queued : st.records.Queued
  paced : st.Paced

theorem Core.Paced.same (h : st.Paced) (hasks : st'.asks = st.asks)
    (hrec : ∀ i x, st'.recAt i = some x → st.recAt i = some x ∨ x.owed.ask = false) : st'.Paced := by
  refine h.mono hasks fun i x hx hask => ?_
  rcases hrec i x hx with hx' | hno
  · exact ⟨x, hx', hask, Or.inl rfl, rfl⟩
  · exact absurd (hno.symm.trans hask) Bool.false_ne_true

/-- Every write keeps the debts in order. -/
theorem Core.Debts.edit {a b : Core} (hedit : Edit a b) (h : a.Debts) : b.Debts := by
  obtain ⟨hq, hp⟩ := h
  cases hedit with
  | rest hr hs ha _ =>
    exact ⟨hr ▸ hq, hp.same ha fun i x hx => Or.inl (by unfold Core.recAt at hx ⊢; rwa [hr] at hx)⟩
  | modRec i f hf =>
    refine ⟨hq.modify i fun x => (bond_owed (hf x).1).1, hp.modRec i fun x => ?_⟩
    obtain ⟨howed, htries, hdue⟩ := bond_owed (hf x).1
    exact ⟨howed, Or.inl htries, hdue⟩
  | once i =>
    exact ⟨hq.modify i fun _ => rfl, hp.modRec i fun _ => ⟨rfl, Or.inr rfl, rfl⟩⟩
  | modSlot s f hf => exact ⟨hq, hp.same rfl fun i x hx => Or.inl hx⟩
  | slotBind s i =>
    have hslot : (a.modSlot s fun slot => { blobCap := slot.blobCap, holder := some i }).Paced :=
      hp.same rfl fun i x hx => Or.inl hx
    exact ⟨hq.modify i fun _ => rfl, hslot.modRec i fun _ => ⟨rfl, Or.inl rfl, rfl⟩⟩
  | setState i state =>
    refine ⟨hq.setState i state, hp.mono rfl fun j x' hx' hask => ?_⟩
    have hget : (a.records.setState i state).get j = some x' := hx'
    rw [Records.get_setState] at hget
    split at hget
    next =>
      obtain ⟨x, hx, rfl⟩ := Option.map_eq_some_iff.mp hget
      exact ⟨x, hx, hask, Or.inl rfl, rfl⟩
    next => exact ⟨x', hget, hask, Or.inl rfl, rfl⟩
  | settle i bits => exact ⟨hq.settle i bits, hp.settle i bits⟩
  | oweReply i due =>
    refine ⟨hq.owe i oweReply due, hp.owe i due fun x _ hor => ?_⟩
    revert hor
    unfold Owed.ask Owed.or oweReply
    simp
  | ask i bits now hb => exact ⟨queued_ask hq i bits now, hp.ask i bits now⟩
  | askSent i now hdue => exact ⟨queued_askSent hq i now, hp.askSent hdue⟩
  | remove i =>
    refine ⟨hq.remove i, hp.same rfl fun j x hx => Or.inl ?_⟩
    rcases Records.get_remove a.records i j with ⟨hnone, -⟩ | ⟨-, hsame⟩
    · exact absurd (hnone.symm.trans hx) (Option.some_ne_none x).symm
    · exact hsame.symm.trans hx
  | add mem uuid =>
    refine ⟨hq.add mem uuid, hp.same rfl fun j x hx => ?_⟩
    rcases get_add hx with hsame | ⟨id, rfl⟩
    · exact Or.inl hsame
    · exact Or.inr rfl
  | grow cfg _ max n =>
    exact ⟨hq.congr (fun _ => rfl) (Nat.le_refl _) rfl rfl, hp.same rfl fun i x hx => Or.inl hx⟩

/-- The locator a datagram writes and the path it leaves. -/
theorem Core.Debts.located (h : st.Debts) (i : Nat) (addr : Addr) :
    (st.modRec i fun y => { y with addr := addr }).Debts :=
  ⟨h.queued.modify i fun _ => rfl, h.paced.modRec i fun _ => ⟨rfl, Or.inl rfl, rfl⟩⟩

theorem Core.Debts.heardAt (h : st.Debts) (i : Nat) (src : Option Addr) (now : Nat) :
    (st.heardAt i src now).Debts := by
  unfold Core.heardAt
  split
  next => exact h
  split
  next => exact h
  next s _ =>
    unfold Core.heardFrom
    split
    next => exact h
    next a =>
      dsimp only
      split
      next => exact ⟨h.queued, h.paced.same rfl fun i x hx => Or.inl hx⟩
      next => exact ⟨h.queued, h.paced.same rfl fun i x hx => Or.inl hx⟩

theorem Core.Debts.edits {a b : Core} (h : a.Debts) (g : Edits a b) : b.Debts :=
  g.keeps (P := Core.Debts) (fun _ _ e => Core.Debts.edit e) h

/-- A datagram of a record keeps the debts in order. -/
theorem Core.Debts.hear (h : st.Debts) (env : Env) (i : Nat) (w : Wire) (src : Option Addr)
    (addr : Addr) (haveBlob : Bool) (tooBig : Nat) (first : Bool) (now : Nat) :
    (st.hear env i w src addr haveBlob tooBig first now).Debts := by
  obtain ⟨st₁, x, st₂, h₁, -, h₂, h₃, -⟩ := edits_hear st env i w src addr haveBlob tooBig first now
  exact ((((h.edits h₁).located i _).edits h₂).heardAt i src now).edits h₃

theorem Core.Debts.arrive (h : st.Debts) (env : Env) (w : Wire) (src : Option Addr) (haveBlob : Bool)
    (tooBig now : Nat) : (st.arrive env w src haveBlob tooBig now).Debts := by
  unfold Core.arrive
  dsimp only
  split
  next =>
    have hleft := h.edits (minor_leftNote st w.uuid now).edits
    split
    next i _ => exact (hleft.edits (edits_peerGone _ i)).edits (minor_offerOpened _ now).edits
    next => exact hleft.edits (minor_offerOpened _ now).edits
  next =>
    split
    next => exact h
    split
    next => exact h
    next ip _ =>
      split
      next i _ => exact h.hear env i w src _ haveBlob tooBig false now
      have hmeet := h.edits (edits_meetStranger st env w ⟨ip, w.dataPort⟩ haveBlob)
      split
      next st' i v heq =>
        rw [heq] at hmeet
        exact hmeet.hear env i w src _ haveBlob tooBig true now
      next st' v heq =>
        rw [heq] at hmeet
        exact hmeet.edits (minor_stranger st' w _ v now).edits

/-- So does every event. -/
theorem Core.Debts.step (h : st.Debts) (e : Event) : (st.step e).1.Debts := by
  by_cases he : ∃ env src d now, e = .datagram env src d now
  · obtain ⟨env, src, d, now, rfl⟩ := he
    have hclock : Core.Debts { st with now := now } := h.edits (edits_rest rfl rfl rfl rfl)
    show (st.onDatagram env src d now).Debts
    unfold Core.onDatagram
    dsimp only
    split
    next => exact hclock
    split
    next => exact hclock.edits (minor_wireMismatch _ src _).edits
    split
    next => exact hclock
    next => exact hclock.arrive env _ _ _ _ now
  · exact h.edits (edits_step st e fun env src d now heq => he ⟨env, src, d, now, heq⟩)

/-! ## Draining -/

/-- Where the loose replies due at a time go. -/
def Core.looseDue (st : Core) (now : Nat) : List Addr :=
  (st.loose.filter fun l => l.due ≤ now).map Loose.addr

/-- Where the record at a place is, if it is due. -/
def Core.dueAddr (st : Core) (now i : Nat) : Option Addr :=
  match st.recAt i with
  | none => none
  | some x => if x.due ≤ now then some x.addr else none

/-- Where the records due at a time are, in the order of the queue. -/
def Core.recsDue (st : Core) (now : Nat) : List Addr := st.records.due.filterMap (st.dueAddr now)

/-- A driver's loop: it polls at one time until nothing is sent. -/
def Core.drain (now cap : Nat) : Nat → Core → Core × List (Addr × Bytes)
  | 0, st => (st, [])
  | n + 1, st =>
    match st.pollTargeted now cap with
    | (st, none) => (st, [])
    | (st, some (a, d)) =>
      if d = [] then (st, [])
      else
        let r := Core.drain now cap n st
        (r.1, (a, d) :: r.2)

/-- A buffer holds the datagrams of a core. -/
def Core.Fits (st : Core) (cap : Nat) : Prop :=
  st.selfBlob.length ≤ 0xFFFF ∧
    fixedLen + (st.selfName.take nodeNameMax).length + st.selfBlob.length ≤ cap

/-- What a poll leaves of a core. -/
def Core.said (st : Core) : Bool × Bytes × Bytes := (st.started, st.selfName, st.selfBlob)

variable {cap : Nat}

/-- Whether a datagram fits is a matter of what is said. -/
theorem Core.Fits.said (h : st.Fits cap) (hs : st'.said = st.said) :
    st'.Fits cap := by
  have hname : st'.selfName = st.selfName := congrArg (fun s => s.2.1) hs
  have hblob : st'.selfBlob = st.selfBlob := congrArg (fun s => s.2.2) hs
  unfold Core.Fits
  rw [hname, hblob]
  exact h

theorem hasFlag_blob (flags : Nat) : hasFlag (flags ||| flagBlob) flagBlob = true := by
  have hand : (flags ||| flagBlob) &&& flagBlob = flags &&& flagBlob ||| flagBlob :=
    Nat.and_or_distrib_right ..
  have hle : flagBlob ≤ flags &&& flagBlob ||| flagBlob := Nat.right_le_or
  unfold hasFlag
  rw [hand]
  exact decide_eq_true fun h0 => absurd (h0 ▸ hle) (by decide)

/-- What fits is built. -/
theorem build_fits (h : st.Fits cap) (flags : Nat) : st.build flags true cap ≠ [] := by
  unfold Core.build encode
  have hflag : hasFlag (st.wireOf flags true).flags flagBlob = true := hasFlag_blob flags
  dsimp only
  rw [hflag, if_pos rfl, if_neg]
  · unfold encodeBytes magic
    exact List.cons_ne_nil _ _
  · rintro (hlong | hlong)
    · exact absurd h.1 (Nat.not_le.mpr hlong)
    · exact absurd h.2 (Nat.not_le.mpr hlong)

/-- A record leaves the queue with its last debt. -/
theorem due_settle {r : Records} (hx : r.get i = some x) (bits : Owed) :
    (r.settle i bits).due =
      if x.owed.meets bits = true ∧ (x.owed.clear bits).any = false then r.due.erase i else r.due := by
  unfold Records.settle
  rw [hx]
  dsimp only
  cases x.owed.meets bits with
  | false =>
    rw [Bool.not_false, if_pos rfl, if_neg fun hc => Bool.false_ne_true hc.1]
  | true =>
    rw [Bool.not_true, if_neg Bool.false_ne_true]
    cases (x.owed.clear bits).any with
    | false =>
      rw [if_neg Bool.false_ne_true, if_pos ⟨rfl, rfl⟩]
      rfl
    | true =>
      rw [if_pos rfl, if_neg fun hc => Bool.false_ne_true hc.2.symm]
      rfl

/-- What a send leaves of the queue and the other records. -/
structure Sent (st st' : Core) (i now : Nat) : Prop where
  others : ∀ j, j ≠ i → st'.recAt j = st.recAt j
  due : st'.records.due = st.records.due.erase i ∨
    st'.records.due = st.records.due.erase i ++ [i] ∧ ∀ x, st'.recAt i = some x → now < x.due
  loose : st'.loose = st.loose
  said : st'.said = st.said

theorem said_refetchDone (st : Core) (i : Nat) : (st.refetchDone i).said = st.said ∧
    (st.refetchDone i).loose = st.loose ∧ (st.refetchDone i).records.due = st.records.due ∧
      ∀ j, j ≠ i → (st.refetchDone i).recAt j = st.recAt j := by
  rcases st.refetchDone_cases i with h | h | h <;> rw [h]
  · exact ⟨rfl, rfl, rfl, fun _ _ => rfl⟩
  · exact ⟨rfl, rfl, rfl, fun j hj => Core.recAt_modRec_ne hj _⟩
  · exact ⟨rfl, rfl, rfl, fun j hj => Core.recAt_modRec_ne hj _⟩

theorem Owed.clear_reply (o : Owed) : (o.clear oweReply).reply = false := by
  unfold Owed.clear oweReply
  exact Bool.and_false _

/-- A debt without an ask is a reply. -/
theorem Owed.reply_left (hany : o.any = true) (hask : (o.clear oweReply).ask = false) :
    o.meets oweReply = true ∧ (o.clear oweReply).any = false := by
  revert hask hany
  obtain ⟨a, b, c⟩ := o
  unfold Owed.any Owed.ask Owed.meets Owed.clear oweReply
  cases a <;> cases b <;> cases c <;> simp

/-- A debt without a reply is an ask. -/
theorem Owed.ask_left (hask : o.ask = true) (hreply : o.reply = false) :
    o.meets oweAsk = true ∧ (o.clear oweAsk).any = false := by
  revert hask hreply
  obtain ⟨a, b, c⟩ := o
  unfold Owed.any Owed.ask Owed.meets Owed.clear oweAsk
  cases a <;> cases b <;> cases c <;> simp

/-- The last send of an ask. -/
theorem sent_missed (hr : st.recAt i = some x) (hask : x.owed.ask = true)
    (hreply : x.owed.reply = false) (now : Nat) :
    Sent st ((st.modRec i fun x => { x with askMissed := true }).settle i oweAsk) i now := by
  have hmod := Core.recAt_modRec_self hr fun x => { x with askMissed := true }
  have hlast := due_settle (r := (st.modRec i fun x => { x with askMissed := true }).records) hmod
    oweAsk
  refine ⟨fun j hj => ?_, Or.inl (hlast.trans (if_pos (Owed.ask_left hask hreply))), rfl, rfl⟩
  exact (recAt_settle_ne _ i oweAsk hj).trans (Core.recAt_modRec_ne hj _)

/-- A send that leaves tries. -/
theorem sent_again (hr : st.recAt i = some x) (hask : x.owed.ask = true)
    (now : Nat) : Sent st { st.modRec i fun x => { x with askTries := x.askTries - 1 } with
      records := (st.modRec i fun x => { x with askTries := x.askTries - 1 }).records.requeue i
        (now + askRetryUs) } i now := by
  have hmod := Core.recAt_modRec_self hr fun x => { x with askTries := x.askTries - 1 }
  obtain ⟨hself, hq, hne⟩ := due_requeue hmod (any_of_ask hask) (now + askRetryUs)
  refine ⟨fun j hj => (hne j hj).trans (Core.recAt_modRec_ne hj _), Or.inr ⟨hq, fun y hy => ?_⟩,
    rfl, rfl⟩
  have hy' := hself.symm.trans hy
  cases hy'
  exact Nat.lt_add_of_pos_right (by decide)

theorem Sent.refetchDone (h : Sent st st' i now)
    (hgone : st'.records.due = st.records.due.erase i) : Sent st (st'.refetchDone i) i now := by
  obtain ⟨hsaid, hloose, hd, ho⟩ := said_refetchDone st' i
  exact ⟨fun j hj => (ho j hj).trans (h.others j hj), Or.inl (hd.trans hgone),
    hloose.trans h.loose, hsaid.trans h.said⟩

/-- An ask sent moves its record back in the queue, or off it. -/
theorem sent_askSent (hr : st.recAt i = some x) (hask : x.owed.ask = true)
    (hreply : x.owed.reply = false) (now : Nat) : Sent st (st.askSent i now) i now := by
  have hr' : (st.noteAsk (.sent i now)).recAt i = some x := hr
  have hback : ∀ {st' : Core}, Sent (st.noteAsk (.sent i now)) st' i now → Sent st st' i now :=
    fun h => ⟨h.others, h.due, h.loose, h.said⟩
  unfold Core.askSent
  rw [hr]
  dsimp only
  rw [hask, Bool.not_true, if_neg Bool.false_ne_true]
  split
  next => exact hback (sent_again hr' hask now)
  have hmiss := hback (sent_missed hr' hask hreply now)
  have hmod := Core.recAt_modRec_self hr' fun x => { x with askMissed := true }
  have hlast := due_settle (r := ((st.noteAsk (.sent i now)).modRec i
    fun x => { x with askMissed := true }).records) hmod oweAsk
  split
  next => exact hmiss.refetchDone (hlast.trans (if_pos (Owed.ask_left hask hreply)))
  next => exact hmiss

/-- The send of a record, its reply settled first. -/
theorem sent_record (hr : st.recAt i = some x) (hany : x.owed.any = true)
    (now : Nat) : Sent st ((st.settle i oweReply).askSent i now) i now := by
  have hset := Core.recAt_settle hr oweReply
  have hdue := due_settle (r := st.records) hr oweReply
  have hothers := fun j (hj : j ≠ i) => recAt_settle_ne st i oweReply hj
  cases hask : (x.owed.clear oweReply).ask with
  | false =>
    have hstay : (st.settle i oweReply).askSent i now = st.settle i oweReply := by
      unfold Core.askSent
      rw [hset]
      dsimp only
      rw [hask, Bool.not_false, if_pos rfl]
    rw [hstay]
    exact ⟨hothers, Or.inl (hdue.trans (if_pos (Owed.reply_left hany hask))), rfl, rfl⟩
  | true =>
    have hkeep : (st.settle i oweReply).records.due = st.records.due := by
      refine hdue.trans (if_neg fun hc => ?_)
      exact Bool.false_ne_true (hc.2.symm.trans (any_of_ask hask))
    have h := sent_askSent hset hask (Owed.clear_reply _) now
    refine ⟨fun j hj => (h.others j hj).trans (hothers j hj), ?_, h.loose, h.said⟩
    rw [← hkeep]
    exact h.due

/-- The send goes to the record's locator when it is due. -/
theorem dueAddr_some (hr : st.recAt i = some x) (hdue : x.due ≤ now) :
    st.dueAddr now i = some x.addr := by
  unfold Core.dueAddr
  rw [hr]
  exact if_pos hdue

theorem dueAddr_none (h : ∀ x, st.recAt i = some x → now < x.due) :
    st.dueAddr now i = none := by
  unfold Core.dueAddr
  cases hr : st.recAt i with
  | none => rfl
  | some x => exact if_neg (Nat.not_le.mpr (h x hr))

theorem not_due (h : (!(st.recAt i).any fun x => x.due ≤ now) = true) :
    ∀ x, st.recAt i = some x → now < x.due := by
  intro x hx
  rw [hx, Option.any_some, Bool.not_eq_true'] at h
  exact Nat.not_le.mp (of_decide_eq_false h)

/-- A due record that is sent to is the first of those due, and the others stay. -/
theorem recsDue_sent (h : Sent st st' i now) (hn : st.records.due.Nodup)
    (hr : st.recAt i = some x)
    (hfind : (st.records.due.find? fun i => (st.recAt i).any fun x => x.due ≤ now) = some i) :
    st.recsDue now = x.addr :: st'.recsDue now := by
  obtain ⟨hdue, l₁, l₂, hl, hbefore⟩ := List.find?_eq_some_iff_append.mp hfind
  rw [hr, Option.any_some, decide_eq_true_iff] at hdue
  have hfirst : l₁.filterMap (st.dueAddr now) = [] :=
    List.filterMap_eq_nil_iff.mpr fun j hj => dueAddr_none (not_due (hbefore j hj))
  rw [hl, List.nodup_append, List.nodup_cons] at hn
  have hni₁ : i ∉ l₁ := fun hi => hn.2.2 i hi i List.mem_cons_self rfl
  have hni₂ : i ∉ l₂ := hn.2.1.1
  have herase : st.records.due.erase i = l₁ ++ l₂ := by
    rw [hl, List.erase_append_right _ hni₁, List.erase_cons_head]
  have hsame : (l₁ ++ l₂).filterMap (st'.dueAddr now) = l₂.filterMap (st.dueAddr now) := by
    have hcongr : (l₁ ++ l₂).filterMap (st'.dueAddr now) = (l₁ ++ l₂).filterMap (st.dueAddr now) := by
      refine List.filterMap_congr fun j hj => ?_
      have hji : j ≠ i := by
        rintro rfl
        exact (List.mem_append.mp hj).elim hni₁ hni₂
      unfold Core.dueAddr
      rw [h.others j hji]
    rw [hcongr, List.filterMap_append, hfirst, List.nil_append]
  have hrest : st'.recsDue now = l₂.filterMap (st.dueAddr now) := by
    unfold Core.recsDue
    rcases h.due with hq | ⟨hq, hlate⟩
    · rw [hq, herase, hsame]
    · have hnone : [i].filterMap (st'.dueAddr now) = [] := by
        refine List.filterMap_eq_nil_iff.mpr fun j hj => ?_
        rw [List.mem_singleton.mp hj]
        exact dueAddr_none hlate
      rw [hq, herase, List.filterMap_append, hsame, hnone, List.append_nil]
  rw [hrest]
  unfold Core.recsDue
  rw [hl, List.filterMap_append, hfirst, List.nil_append, List.filterMap_cons_some (dueAddr_some hr hdue)]

theorem build_nil (flags : Nat) : st.build flags true cap = [] ↔ ¬ st.Fits cap := by
  constructor
  · intro h hfits
    exact build_fits hfits flags h
  · intro h
    unfold Core.build encode
    have hflag : hasFlag (st.wireOf flags true).flags flagBlob = true := hasFlag_blob flags
    dsimp only
    rw [hflag, if_pos rfl, if_pos]
    by_cases hlong : (st.wireOf flags true).overlay.length > 0xFFFF
    · exact Or.inl hlong
    · exact Or.inr (Nat.not_le.mp fun hcap => h ⟨Nat.not_lt.mp hlong, hcap⟩)

/-- One poll of a core that started: it sends to one of those due, or none is. -/
theorem poll_cases (h : st.Debts) (hs : st.started = true) (now cap : Nat) :
    (∃ st' a d, st.pollTargeted now cap = (st', some (a, d)) ∧ st'.Debts ∧ st'.said = st.said ∧
      (d = [] ↔ ¬ st.Fits cap) ∧
      (st.looseDue now ++ st.recsDue now).Perm (a :: (st'.looseDue now ++ st'.recsDue now))) ∨
    st.looseDue now ++ st.recsDue now = [] ∧ (st.pollTargeted now cap).2 = none := by
  have hclock : Core.Debts { st with now := now } := h.edits (edits_rest rfl rfl rfl rfl)
  have hdebts : (st.pollTargeted now cap).1.Debts := h.edits (edits_pollTargeted st now cap)
  revert hdebts
  unfold Core.pollTargeted
  dsimp only
  rw [if_neg (Core.not_shut hs)]
  cases hloose : st.loose.findIdx? fun l => l.due ≤ now with
  | some k =>
    intro hdebts
    obtain ⟨hk, hdue, -⟩ := List.findIdx?_eq_some_iff_getElem.mp hloose
    have hget : st.loose[k]? = some st.loose[k] := List.getElem?_eq_getElem hk
    have hl : st.loose.getD k ⟨{}, false, 0⟩ = st.loose[k] := by
      rw [List.getD_eq_getElem?_getD, hget]
      rfl
    refine Or.inl ⟨_, _, _, rfl, hdebts, rfl, build_nil _, ?_⟩
    have hperm := (fillHole_perm hget st.loose[k]).filter fun l => l.due ≤ now
    rw [List.filter_cons_of_pos (p := fun l : Loose => decide (l.due ≤ now)) hdue] at hperm
    have hmap := hperm.map Loose.addr
    rw [hl]
    exact hmap.append_right _
  | none =>
    have hempty : st.looseDue now = [] := by
      unfold Core.looseDue
      rw [List.filter_eq_nil_iff.mpr, List.map_nil]
      intro l hl
      rw [List.findIdx?_eq_none_iff.mp hloose l hl]
      exact Bool.false_ne_true
    cases hfind : st.records.due.find? fun i => (Core.recAt { st with now := now } i).any
      fun x => x.due ≤ now with
    | none =>
      intro _
      refine Or.inr ⟨?_, rfl⟩
      rw [hempty, List.nil_append]
      refine List.filterMap_eq_nil_iff.mpr fun i hi => dueAddr_none (not_due ?_)
      have hno := List.find?_eq_none.mp hfind i hi
      rw [Bool.not_eq_true']
      exact Bool.eq_false_iff.mpr hno
    | some i =>
      dsimp only
      obtain ⟨x, hx, hany⟩ := h.queued.owing (List.mem_of_find?_eq_some hfind)
      have hr : Core.recAt { st with now := now } i = some x := hx
      rw [hr]
      intro hdebts
      have hsent := sent_record hr hany now
      refine Or.inl ⟨_, _, _, rfl, hdebts, hsent.said, ?_, ?_⟩
      · refine (build_nil _).trans (not_congr ⟨fun hf => hf.said hsent.said.symm, fun hf => ?_⟩)
        exact hf.said hsent.said
      · have hrecs := recsDue_sent hsent h.queued.dueNodup hr hfind
        have hloose' : Core.looseDue ((Core.settle { st with now := now } i oweReply).askSent i now) now =
            [] := by
          unfold Core.looseDue
          rw [hsent.loose]
          exact hempty
        rw [hempty, hloose', List.nil_append, List.nil_append]
        exact List.Perm.of_eq hrecs

theorem started_said (h : st'.said = st.said) : st'.started = st.started :=
  congrArg (fun s => s.1) h

/-- A poll that sends nothing sets the clock alone. -/
theorem pollTargeted_idle (h : st.pollTargeted now cap = (st', none)) :
    st' = { st with now := now } := by
  unfold Core.pollTargeted at h
  dsimp only at h
  split at h
  next => exact (congrArg Prod.fst h).symm
  split at h
  next => cases congrArg Prod.snd h
  split at h
  next => exact (congrArg Prod.fst h).symm
  split at h
  next => exact (congrArg Prod.fst h).symm
  next => cases congrArg Prod.snd h

/-- A poll reads no clock but its own. -/
theorem pollTargeted_clock (st : Core) (now cap : Nat) :
    (Core.pollTargeted { st with now := now } now cap).2 = (st.pollTargeted now cap).2 := rfl

/-- A driver's loop sends no more than is due, and all of it, once each, where the buffer holds
a datagram. -/
theorem drain_spec (now cap : Nat) : ∀ (n : Nat) (st : Core), st.Debts → st.started = true →
    (st.drain now cap n).2.length ≤ (st.looseDue now ++ st.recsDue now).length ∧
      (st.Fits cap → (st.looseDue now ++ st.recsDue now).length ≤ n →
        ((st.drain now cap n).2.map Prod.fst).Perm (st.looseDue now ++ st.recsDue now) ∧
          ((st.drain now cap n).1.pollTargeted now cap).2 = none)
  | 0, st, h, hs => by
    refine ⟨Nat.zero_le _, fun _ hn => ?_⟩
    have hnil := List.eq_nil_of_length_eq_zero (Nat.le_zero.mp hn)
    rw [hnil]
    refine ⟨List.Perm.refl [], ?_⟩
    rcases poll_cases h hs now cap with ⟨st', a, d, -, -, -, -, hperm⟩ | ⟨-, hnone⟩
    · rw [hnil] at hperm
      exact absurd hperm.symm.eq_nil (List.cons_ne_nil _ _)
    · exact hnone
  | n + 1, st, h, hs => by
    rw [Core.drain]
    rcases poll_cases h hs now cap with ⟨st', a, d, hpoll, hdebts, hsaid, hnil, hperm⟩ | ⟨hnil, hnone⟩
    · have hs' : st'.started = true := (started_said hsaid).trans hs
      have ih := drain_spec now cap n st' hdebts hs'
      have hlen := hperm.length_eq
      rw [List.length_cons] at hlen
      rw [hpoll]
      dsimp only
      by_cases hd : d = []
      · rw [if_pos hd]
        exact ⟨Nat.zero_le _, fun hfits => absurd hfits (hnil.mp hd)⟩
      rw [if_neg hd]
      refine ⟨?_, fun hfits hn => ?_⟩
      · rw [hlen]
        exact Nat.succ_le_succ ih.1
      · rw [hlen] at hn
        obtain ⟨hrest, hend⟩ := ih.2 (hfits.said hsaid) (Nat.le_of_succ_le_succ hn)
        exact ⟨(hrest.cons a).trans hperm.symm, hend⟩
    · rcases hpoll : st.pollTargeted now cap with ⟨st', _ | ⟨a, d⟩⟩
      · dsimp only
        rw [hnil]
        refine ⟨Nat.zero_le _, fun _ _ => ⟨List.Perm.refl [], ?_⟩⟩
        rw [pollTargeted_idle hpoll]
        exact (pollTargeted_clock st now cap).trans hnone
      · rw [hpoll] at hnone
        cases hnone

/-- The debts of a core, and how they are paid. -/
structure Core.Drains (st : Core) : Prop where
  /-- The queue holds each record that owes something, once, and no other. -/
  queue : st.records.due.Nodup ∧ ∀ i, i ∈ st.records.due ↔
    ∃ x, st.recAt i = some x ∧ x.owed.any = true
  /-- No ask was sent too often or too soon, and what is left to one owed is within the bound. -/
  asks : st.Paced
  /-- Nothing goes out before the opening. -/
  opening : st.started = false → ∀ now cap, (st.pollTargeted now cap).2 = none
  bound : st.started = true → ∀ now cap n,
    (st.drain now cap n).2.length ≤ (st.looseDue now ++ st.recsDue now).length
  /-- Each of those due is sent to once, and then nothing is. -/
  once : st.started = true → ∀ now cap n, st.Fits cap →
    (st.looseDue now ++ st.recsDue now).length ≤ n →
      ((st.drain now cap n).2.map Prod.fst).Perm (st.looseDue now ++ st.recsDue now) ∧
        ((st.drain now cap n).1.pollTargeted now cap).2 = none

/-- Debts in order drain. -/
theorem Core.Debts.drains (h : st.Debts) : st.Drains := by
  refine ⟨⟨h.queued.dueNodup, fun i => ?_⟩, h.paced, fun hs now cap => ?_, fun hs now cap n => ?_,
    fun hs now cap n => ?_⟩
  · exact ⟨h.queued.owing, fun ⟨x, hx, hany⟩ => (h.queued.mem_some hx).mpr hany⟩
  · unfold Core.pollTargeted
    dsimp only
    rw [hs, Bool.not_false, if_pos rfl]
  · exact (drain_spec now cap n st h hs).1
  · exact (drain_spec now cap n st h hs).2

theorem debts_init {cfg : Config} (h : Core.init cfg = some st) : st.Debts := by
  unfold Core.init at h
  split at h
  next => cases h
  obtain ⟨records, hrecords, rfl⟩ := Option.map_eq_some_iff.mp h
  refine ⟨Records.queued_init hrecords, fun i => ⟨_, rfl, fun x hx => ?_⟩⟩
  exact absurd (((Records.get_init hrecords).2 i).symm.trans hx) (Option.some_ne_none x).symm

/-- In every state a core reaches its debts are in order, and a driver's loop pays those due. -/
theorem drained (cfg : Config) (st : Core) (es : List Event) (h : Core.init cfg = some st) :
    (st.runs es).Drains :=
  (run_invariant Core.Debts (fun _ e hs => hs.step e) es st (debts_init h)).drains

/-- Peer 2 advertises a blob, and solicits between the first two sends of its fetch. -/
def advertises (flags now : Nat) : Event :=
  .datagram {} (some ⟨[10, 0, 0, 2], 7⟩)
    (encodeBytes { flags := flags, uuid := List.replicate 16 2, version := 1 }) now

def hurried : List Event :=
  [.update 1 2000, advertises 0 2, .pollTargeted 3 2000, advertises (flagReq ||| flagUni) 4,
    .pollTargeted 5 2000]

theorem drained_hurried : ∃ st, Core.init crowded = some st ∧ (st.runs hurried).Drains := by
  obtain ⟨st, hst⟩ : ∃ st, Core.init crowded = some st := ⟨_, rfl⟩
  exact ⟨st, hst, drained crowded st hurried hst⟩

/-- The reply owed at 4 brings the fetch's second send forward to 5, two microseconds after the
first, and what is due before the opening is not sent to. -/
theorem ask_brought_forward :
    (¬ ∀ (cfg : Config) (st : Core) (es : List Event), Core.init cfg = some st →
      ∀ i t u before between, (st.runs es).asks = before ++ .sent i t :: between ++ [.sent i u] →
        .began i ∉ between → t + askRetryUs ≤ u) ∧
    ¬ ∀ (cfg : Config) (st : Core) (es : List Event), Core.init cfg = some st →
      ∀ now cap n, (st.runs es).Fits cap →
        ((st.runs es).looseDue now ++ (st.runs es).recsDue now).length ≤ n →
          (((st.runs es).drain now cap n).2.map Prod.fst).Perm
            ((st.runs es).looseDue now ++ (st.runs es).recsDue now) := by
  obtain ⟨st, hst⟩ : ∃ st, Core.init crowded = some st := ⟨_, rfl⟩
  constructor
  · intro h
    have hrun : (Core.init crowded).all fun st => (st.runs hurried).asks =
        [.began 0, .owed 0] ++ .sent 0 3 :: [.owed 0] ++ [.sent 0 5] := by decide +kernel
    rw [hst, Option.all_some, decide_eq_true_iff] at hrun
    have hlate := h crowded st hurried hst 0 3 5 _ _ hrun (by simp)
    exact absurd hlate (by decide)
  · intro h
    have hrun : (Core.init crowded).all fun st =>
        (st.runs [advertises (flagReq ||| flagUni) 4]).looseDue 4 = [] &&
          (st.runs [advertises (flagReq ||| flagUni) 4]).recsDue 4 = [⟨[10, 0, 0, 2], 0⟩] &&
            ((st.runs [advertises (flagReq ||| flagUni) 4]).drain 4 2000 1).2 = [] &&
              (st.runs [advertises (flagReq ||| flagUni) 4]).selfBlob = [] &&
                (st.runs [advertises (flagReq ||| flagUni) 4]).selfName = [] := by decide +kernel
    rw [hst, Option.all_some] at hrun
    simp only [Bool.and_eq_true, decide_eq_true_iff] at hrun
    obtain ⟨⟨⟨⟨hloose, hrecs⟩, hnone⟩, hblob⟩, hname⟩ := hrun
    have hfits : (st.runs [advertises (flagReq ||| flagUni) 4]).Fits 2000 := by
      unfold Core.Fits
      rw [hblob, hname]
      decide
    have hsent := h crowded st [advertises (flagReq ||| flagUni) 4] hst 4 2000 1 hfits
      (by rw [hloose, hrecs]; decide)
    rw [hloose, hrecs, hnone] at hsent
    exact absurd hsent.length_eq (by decide)

end Rant.Discovery
