import Rant.Patterns.Flushes
/-!
# The flushes of a run

A caller watched over a run: every request a flush handed over, the calls that ended, and what
was handed over when a datagram was last built for a lane. Whatever happens, a queued request is
handed over once at most, in order, to a lane that reaches its target, before its call ended. It
stays in the history until the next datagram for its provider as long as no flush and no other
send takes more room than the ring has left (`Roomy`), and not in every run: a flush of three
calls into a ring of two loses the first unsent (`flush_overwrites`).
-/

namespace Rant.Patterns

open Rant.Lib
open Rant.Transport
open ReqChannel (How)

variable {frag : Nat}

/-! ## What is watched -/

/-- A request a flush handed over: the entry, the caller its turn found, the step it was in and
the calls that had ended by then. -/
structure Handing where
  entry : Pending
  caller : Caller
  step : Nat
  ended : List Nat

namespace Handing

def serial (h : Handing) : Nat := h.entry.serial

/-- What it was sent as. -/
def posting (h : Handing) : Posting := Caller.flushPosting h.caller.isTask h.caller.chan h.entry

def base (h : Handing) : Nat := h.caller.chan.req.nextSeqno

/-- How many samples were committed before it. -/
def index (h : Handing) : Nat := h.caller.chan.sent.length

def slot (h : Handing) : Dest := h.caller.chan.destOf h.posting.dest

/-- `x` is the request as a sample. -/
structure Holds (h : Handing) (x : WriterSample) : Prop where
  base : x.base = h.base
  dest : x.dest = h.slot
  bytes : ∃ stamp, x.committed.bytes = stamp ++ fnHeader h.entry.callId .call ++ h.posting.body

/-- It waited in its queue, its call had not ended, and a lane reached its target. -/
structure Sound (h : Handing) : Prop where
  waited : h.entry ∈ h.caller.pending ∧ h.entry.queuedReq.isSome = true
  undecided : h.serial ∉ h.ended
  reached : h.caller.chan.Reaches h.posting.dest

end Handing

/-- The caller and what is watched. `built` is how many requests were handed over when a lane
last built a submessage. -/
structure Watched where
  caller : Caller
  handed : List Handing
  ended : List Nat
  steps : Nat
  built : Nat → Nat

/-- Whether the event builds a submessage for lane `q`. -/
def Caller.builds (frag : Nat) (s : Caller) : CallerEvent → Nat → Bool
  | .emit p shm cap nowUs, q => q == p &&
      (writerEmit s.chan.req ⟨frag, p, shm, cap, nowUs⟩ (peerAt s.chan.peers p).dormant
        (s.chan.side p)).2.isSome
  | _, _ => false

/-- The requests a step hands over. -/
def Caller.hands (frag : Nat) (s : Caller) (e : CallerEvent) (step : Nat) (ended : List Nat) :
    List Handing :=
  match s.flushing e with
  | none => []
  | some x => (x.1.turns frag x.2).map fun y => ⟨y.2, y.1, step, ended⟩

namespace Watched

def init (c : CallerCfg) (isTask : Bool) : Watched := ⟨Caller.init c isTask, [], [], 0, fun _ => 0⟩

def step (frag : Nat) (w : Watched) (e : CallerEvent) : Watched :=
  let s := w.caller.step frag e
  { caller := s
    handed := w.handed ++ w.caller.hands frag e w.steps w.ended
    ended := w.ended ++ (w.caller.pending.map Pending.serial).filter fun k =>
      !(s.pending.map Pending.serial).contains k
    steps := w.steps + 1
    built := fun q => if w.caller.builds frag e q then w.handed.length else w.built q }

/-- Handed over once, in order, while undecided, to a lane that reaches the target. -/
structure FlushedOnce (frag : Nat) (w : Watched) : Prop where
  sound : ∀ h ∈ w.handed, h.Sound
  once : (w.handed.map Handing.serial).Nodup
  /-- Nor is it sent as a call that did not wait is. -/
  direct : ∀ h ∈ w.handed, ∀ x ∈ w.caller.posting, x.serial ≠ some h.serial
  /-- One flush hands over older calls first. -/
  order : w.handed.Pairwise fun h g => h.step = g.step → h.serial < g.serial
  /-- A flush ends, and then nothing that it may send is left. -/
  ends : ∀ e s₀ how, w.caller.flushing e = some (s₀, how) → s₀.chan.matchCount ≠ 0 →
    Caller.pickFrom (s₀.flushQueued frag how).chan (s₀.flushQueued frag how).pending = none

/-- Request `k` of those handed over is awaited on channel `c`: its call has not ended, and a
lane it is for has built nothing since. -/
def Awaited (w : Watched) (c : ReqChannel) (k : Nat) (h : Handing) : Prop :=
  w.handed[k]? = some h ∧ (∃ p ∈ w.caller.pending, p.serial = h.serial) ∧
    ∃ q, (c.lanes q).used = true ∧ h.slot.admits q ∧ c.joined q ≤ h.base ∧ w.built q ≤ k

/-- What is awaited is still in the history. -/
def Kept (w : Watched) : Prop :=
  ∀ k h, w.Awaited w.caller.chan k h →
    ∃ x, sampleFind w.caller.chan.req h.base = some x ∧ h.Holds x

/-- The ring has room for `n` more samples and what is awaited. -/
def Room (w : Watched) (c : ReqChannel) (n : Nat) : Prop :=
  ∀ k h, w.Awaited c k h → c.sent.length + n ≤ h.index + c.req.qos.keepLast

/-- The flush of `s` fits: no more calls than the ring has room for, and no send is refused. -/
structure FlushFits (frag : Nat) (w : Watched) (s : Caller) (how : Nat → How) : Prop where
  few : s.pending.countP (Caller.flushable s.chan) ≤ s.chan.req.qos.keepLast
  room : w.Room s.chan (s.pending.countP (Caller.flushable s.chan))
  fits : ∀ p ∈ s.pending, Caller.flushable s.chan p = true →
    s.chan.Fits frag (p.queuedReq.getD []).length
  granted : ∀ n, n < s.pending.length → (how n).al.bufOk = true

/-- The condition. A send that fits has room, and so has a flush. -/
structure Roomy (frag : Nat) (w : Watched) (e : CallerEvent) : Prop where
  send : ∀ i how x, e = .send i how → w.caller.posting[i]? = some x →
    w.caller.chan.Fits frag x.body.length → w.Room w.caller.chan 1
  flush : ∀ s₀ how, w.caller.flushing e = some (s₀, how) → s₀.chan.matchCount ≠ 0 →
    w.FlushFits frag s₀ how

end Watched

/-! ## Handed over once -/

/-- The invariant of every run. -/
structure Watching (frag : Nat) (w : Watched) : Prop where
  base : ChanBase frag w.caller.chan
  sorted : Sorted w.caller.pending
  old : ∀ p ∈ w.caller.pending, p.serial < w.caller.calls
  posted : ∀ x ∈ w.caller.posting, ∀ k, x.serial = some k → k < w.caller.calls ∧
    (∀ p ∈ w.caller.pending, p.serial = k → p.queuedReq = none) ∧ ∀ h ∈ w.handed, h.serial ≠ k
  handed : ∀ h ∈ w.handed, h.serial < w.caller.calls ∧ h.step < w.steps ∧
    ∀ p ∈ w.caller.pending, p.serial = h.serial → p.queuedReq = none
  ended : ∀ k ∈ w.ended, k < w.caller.calls ∧ ∀ p ∈ w.caller.pending, p.serial ≠ k
  sound : ∀ h ∈ w.handed, h.Sound
  once : (w.handed.map Handing.serial).Nodup
  order : w.handed.Pairwise fun h g => h.step = g.step → h.serial < g.serial

/-- What the invariant says. -/
theorem Watching.flushedOnce {w : Watched} (h : Watching frag w) (hF : 0 < frag)
    (hF' : frag ≤ 65535) : w.FlushedOnce frag := by
  refine ⟨h.sound, h.once, fun g hg x hx hxg => ?_, h.order, fun e s₀ how hflush => ?_⟩
  · exact (h.posted x hx g.serial hxg).2.2 g hg rfl
  · have hs : Sorted s₀.pending := by
      obtain ⟨⟨c, hform, -⟩, -⟩ := step_flushing frag hflush
      rw [hform]
      exact h.sorted
    exact (flushQueued_spec hF hF' how (base_flushing h.base hflush) hs).2

theorem Watching.init (c : CallerCfg) (isTask : Bool) : Watching c.frag (Watched.init c isTask) where
  base := ChanBase.init c isTask
  sorted := List.Pairwise.nil
  old _ hp := absurd hp List.not_mem_nil
  posted _ hx := absurd hx List.not_mem_nil
  handed _ hh := absurd hh List.not_mem_nil
  ended _ hk := absurd hk List.not_mem_nil
  sound _ hh := absurd hh List.not_mem_nil
  once := List.nodup_nil
  order := List.Pairwise.nil

variable {w : Watched}

variable {e : CallerEvent}

theorem ended_step {k : Nat} (h : k ∈ (w.step frag e).ended) : k ∈ w.ended ∨
    (∃ p ∈ w.caller.pending, p.serial = k) ∧ ∀ p ∈ (w.caller.step frag e).pending, p.serial ≠ k := by
  rcases List.mem_append.mp h with h | h
  · exact Or.inl h
  · obtain ⟨hmem, hnot⟩ := List.mem_filter.mp h
    obtain ⟨p, hp, rfl⟩ := List.mem_map.mp hmem
    refine Or.inr ⟨⟨p, hp, rfl⟩, fun q hq hqp => ?_⟩
    rw [Bool.not_eq_true', ← Bool.not_eq_true, List.contains_iff_mem] at hnot
    exact hnot (List.mem_map.mpr ⟨q, hq, hqp⟩)

/-- A step that adds no entry, and hands over what waited. -/
theorem Watching.trims (h : Watching frag w) {new : List Handing}
    (hbase : ChanBase frag (w.caller.step frag e).chan)
    (ht : Trims w.caller (w.caller.step frag e))
    (hhands : w.caller.hands frag e w.steps w.ended = new)
    (hnew : ∀ g ∈ new, g.entry ∈ w.caller.pending ∧ g.entry.queuedReq.isSome = true ∧
      g.step = w.steps ∧ g.Sound ∧
        ∀ p ∈ (w.caller.step frag e).pending, p.serial = g.serial → p.queuedReq = none)
    (horder : (new.map Handing.serial).Pairwise (· < ·)) : Watching frag (w.step frag e) := by
  have hhanded : (w.step frag e).handed = w.handed ++ new := by rw [← hhands]; rfl
  -- what is handed over now was not before
  have hfresh : ∀ g ∈ new, ∀ f ∈ w.handed, f.serial ≠ g.serial := by
    intro g hg f hf heq
    obtain ⟨hmem, hsome, -⟩ := hnew g hg
    rw [(h.handed f hf).2.2 g.entry hmem heq.symm] at hsome
    cases hsome
  have hdone : ∀ k, (∀ p ∈ w.caller.pending, p.serial = k → p.queuedReq = none) →
      ∀ p ∈ (w.step frag e).caller.pending, p.serial = k → p.queuedReq = none := by
    intro k hk p hp hpk
    obtain ⟨q, hq, hqp, hkeep⟩ := ht.queued p hp
    exact hkeep (hk q hq (hqp.trans hpk))
  have hcalls : (w.step frag e).caller.calls = w.caller.calls := ht.calls
  refine ⟨hbase, ?_, fun p hp => ?_, fun x hx k hk => ?_, fun g hg => ?_, fun k hk => ?_,
    fun g hg => ?_, ?_, ?_⟩
  · exact List.Pairwise.sublist ht.serials h.sorted
  · obtain ⟨q, hq, hqp, -⟩ := ht.queued p hp
    rw [hcalls, ← hqp]
    exact h.old q hq
  · rcases ht.posting x hx with hx | hnone
    · obtain ⟨hlt, hqueue, hold⟩ := h.posted x hx k hk
      refine ⟨hcalls ▸ hlt, hdone k hqueue, fun g hg heq => ?_⟩
      rw [hhanded] at hg
      rcases List.mem_append.mp hg with hg | hg
      · exact hold g hg heq
      · obtain ⟨hmem, hsome, -⟩ := hnew g hg
        rw [hqueue g.entry hmem heq] at hsome
        cases hsome
    · rw [hnone] at hk
      cases hk
  · rw [hhanded] at hg
    rcases List.mem_append.mp hg with hg | hg
    · obtain ⟨hlt, hstep, hqueue⟩ := h.handed g hg
      exact ⟨hcalls ▸ hlt, Nat.lt_succ_of_lt hstep, hdone g.serial hqueue⟩
    · obtain ⟨hmem, -, hstep, -, hqueue⟩ := hnew g hg
      refine ⟨hcalls ▸ h.old g.entry hmem, ?_, hqueue⟩
      rw [hstep]
      exact Nat.lt_succ_self _
  · rw [hcalls]
    rcases ended_step hk with hk | ⟨⟨p, hp, rfl⟩, hgone⟩
    · obtain ⟨hlt, hnot⟩ := h.ended k hk
      refine ⟨hlt, fun p hp hpk => ?_⟩
      obtain ⟨q, hq, hqp, -⟩ := ht.queued p hp
      exact hnot q hq (hqp.trans hpk)
    · exact ⟨h.old p hp, hgone⟩
  · rw [hhanded] at hg
    rcases List.mem_append.mp hg with hg | hg
    · exact h.sound g hg
    · exact (hnew g hg).2.2.2.1
  · rw [hhanded, List.map_append, List.nodup_append]
    refine ⟨h.once, horder.imp Nat.ne_of_lt, fun a ha b hb => ?_⟩
    obtain ⟨f, hf, rfl⟩ := List.mem_map.mp ha
    obtain ⟨g, hg, rfl⟩ := List.mem_map.mp hb
    exact hfresh g hg f hf
  · have hnewer : new.Pairwise fun g f => g.step = f.step → g.serial < f.serial := by
      refine List.Pairwise.imp (fun hlt => ?_) (List.pairwise_map.mp horder)
      exact fun _ => hlt
    rw [hhanded, List.pairwise_append]
    refine ⟨h.order, hnewer, fun f hf g hg heq => ?_⟩
    have hlt := (h.handed f hf).2.1
    rw [heq, (hnew g hg).2.2.1] at hlt
    exact absurd hlt (Nat.lt_irrefl _)

/-- A call hands over nothing, and its entry is new. -/
theorem Watching.call (h : Watching frag w) (hbase : ∀ e, ChanBase frag (w.caller.step frag e).chan)
    (req : Bytes) (o : Caller.CallOpts) (ok queueOk : Bool) :
    Watching frag (w.step frag (.call req o ok queueOk)) := by
  obtain ⟨w', hw'⟩ : ∃ w', w' = w.step frag (.call req o ok queueOk) := ⟨_, rfl⟩
  obtain ⟨s', hs'⟩ : ∃ s', s' = w.caller.call req o ok queueOk := ⟨_, rfl⟩
  have hcaller : w'.caller = s' := by rw [hw', hs']; rfl
  have hhanded : w'.handed = w.handed := by
    rw [hw']
    exact List.append_nil _
  have hended : ∀ k ∈ w'.ended, k ∈ w.ended ∨
      (∃ p ∈ w.caller.pending, p.serial = k) ∧ ∀ p ∈ s'.pending, p.serial ≠ k := by
    intro k hk
    rw [hw'] at hk
    rw [hs']
    exact ended_step hk
  have hsteps : w'.steps = w.steps + 1 := by rw [hw']; rfl
  have hchan : ChanBase frag w'.caller.chan := by
    rw [hw']
    exact hbase _
  have hold : ∀ p ∈ w.caller.pending, p.serial ≠ w.caller.calls := fun p hp =>
    Nat.ne_of_lt (h.old p hp)
  obtain ⟨hcalls, hpend, hpost, hsorted⟩ : w.caller.calls ≤ s'.calls ∧
      (∀ p ∈ s'.pending, p ∈ w.caller.pending ∨
        p.serial = w.caller.calls ∧ w.caller.calls < s'.calls) ∧
      (∀ x ∈ s'.posting, x ∈ w.caller.posting ∨ x.serial = some w.caller.calls ∧
        w.caller.calls < s'.calls ∧
          ∀ p ∈ s'.pending, p.serial = w.caller.calls → p.queuedReq = none) ∧ Sorted s'.pending := by
    rcases (call_cases w.caller req o ok queueOk).2 with
      hsame | ⟨hcalls, ⟨hpend, hpost⟩ | ⟨p, hp, hpend, hpost⟩⟩
    · rw [hs', hsame]
      exact ⟨Nat.le_refl _, fun p hp => Or.inl hp, fun x hx => Or.inl hx, h.sorted⟩
    · rw [← hs'] at hcalls hpend hpost
      rw [hcalls, hpend, hpost]
      exact ⟨Nat.le_succ _, fun p hp => Or.inl hp, fun x hx => Or.inl hx, h.sorted⟩
    · rw [← hs'] at hcalls hpend hpost
      have hlt : w.caller.calls < s'.calls := by
        rw [hcalls]
        exact Nat.lt_succ_self _
      refine ⟨Nat.le_of_lt hlt, fun q hq => ?_, fun x hx => ?_, ?_⟩
      · rw [hpend] at hq
        rcases List.mem_cons.mp hq with rfl | hq
        · exact Or.inr ⟨hp, hlt⟩
        · exact Or.inl hq
      · rcases hpost with hpost | ⟨hnone, y, hy, hpost⟩
        · rw [hpost] at hx
          exact Or.inl hx
        · rw [hpost] at hx
          rcases List.mem_append.mp hx with hx | hx
          · exact Or.inl hx
          · rw [List.mem_singleton.mp hx]
            refine Or.inr ⟨hy, hlt, fun q hq hqs => ?_⟩
            rw [hpend] at hq
            rcases List.mem_cons.mp hq with rfl | hq
            · exact hnone
            · exact absurd hqs (hold q hq)
      · unfold Sorted
        rw [hpend, List.map_cons, List.pairwise_cons]
        refine ⟨fun k hk => ?_, h.sorted⟩
        obtain ⟨q, hq, rfl⟩ := List.mem_map.mp hk
        rw [hp]
        exact h.old q hq
  -- an older call stands where it stood
  have hkeep : ∀ k, k < w.caller.calls → ∀ p ∈ s'.pending, p.serial = k → p ∈ w.caller.pending := by
    intro k hk p hp hpk
    rcases hpend p hp with hp | ⟨hnew, -⟩
    · exact hp
    · rw [← hpk, hnew] at hk
      exact absurd hk (Nat.lt_irrefl _)
  rw [← hw']
  refine ⟨hchan, hcaller ▸ hsorted, fun p hp => ?_, fun x hx k hk => ?_, fun g hg => ?_,
    fun k hk => ?_, ?_, ?_, ?_⟩
  · rw [hcaller] at hp ⊢
    rcases hpend p hp with hp | ⟨hnew, hlt⟩
    · exact Nat.lt_of_lt_of_le (h.old p hp) hcalls
    · rw [hnew]
      exact hlt
  · rw [hcaller] at hx ⊢
    rw [hhanded]
    rcases hpost x hx with hx | ⟨hnew, hlt, hnone⟩
    · obtain ⟨hlt, hqueue, hhand⟩ := h.posted x hx k hk
      exact ⟨Nat.lt_of_lt_of_le hlt hcalls, fun p hp hpk => hqueue p (hkeep k hlt p hp hpk) hpk, hhand⟩
    · obtain rfl : w.caller.calls = k := Option.some.inj (hnew.symm.trans hk)
      exact ⟨hlt, hnone, fun g hg => Nat.ne_of_lt (h.handed g hg).1⟩
  · rw [hhanded] at hg
    rw [hcaller, hsteps]
    obtain ⟨hlt, hstep, hqueue⟩ := h.handed g hg
    exact ⟨Nat.lt_of_lt_of_le hlt hcalls, Nat.lt_succ_of_lt hstep,
      fun p hp hpk => hqueue p (hkeep _ hlt p hp hpk) hpk⟩
  · rw [hcaller]
    rcases hended k hk with hk | ⟨⟨p, hp, rfl⟩, hgone⟩
    · obtain ⟨hlt, hnot⟩ := h.ended k hk
      exact ⟨Nat.lt_of_lt_of_le hlt hcalls, fun p hp hpk => hnot p (hkeep k hlt p hp hpk) hpk⟩
    · exact ⟨Nat.lt_of_lt_of_le (h.old p hp) hcalls, hgone⟩
  · rw [hhanded]
    exact h.sound
  · rw [hhanded]
    exact h.once
  · rw [hhanded]
    exact h.order

/-- An entry that is there after a step was there before, or is of a call just made. -/
theorem Watching.pending_step (h : Watching frag w) (hF : 0 < frag) (hF' : frag ≤ 65535)
    (e : CallerEvent) : ∀ p ∈ (w.caller.step frag e).pending, p.serial < w.caller.calls →
      ∃ q ∈ w.caller.pending, q.serial = p.serial := by
  intro p hp hold
  by_cases hcall : ∃ req o ok queueOk, e = .call req o ok queueOk
  · obtain ⟨req, o, ok, queueOk, rfl⟩ := hcall
    have hp : p ∈ (w.caller.call req o ok queueOk).pending := hp
    rcases (call_cases w.caller req o ok queueOk).2 with hsame | ⟨-, ⟨hpend, -⟩ | ⟨q, hq, hpend, -⟩⟩
    · rw [hsame] at hp
      exact ⟨p, hp, rfl⟩
    · rw [hpend] at hp
      exact ⟨p, hp, rfl⟩
    · rw [hpend] at hp
      rcases List.mem_cons.mp hp with rfl | hp
      · rw [hq] at hold
        exact absurd hold (Nat.lt_irrefl _)
      · exact ⟨p, hp, rfl⟩
  · have ht := Trims.step hF hF' h.base h.sorted fun req o ok queueOk heq =>
      hcall ⟨req, o, ok, queueOk, heq⟩
    obtain ⟨q, hq, hqp, -⟩ := ht.queued p hp
    exact ⟨q, hq, hqp⟩

/-- Every step keeps the invariant. -/
theorem Watching.step (h : Watching frag w) (hF : 0 < frag) (hF' : frag ≤ 65535)
    (e : CallerEvent) : Watching frag (w.step frag e) := by
  have hbase : ∀ e, ChanBase frag (w.caller.step frag e).chan := h.base.step hF hF' h.sorted
  by_cases hcall : ∃ req o ok queueOk, e = .call req o ok queueOk
  · obtain ⟨req, o, ok, queueOk, rfl⟩ := hcall
    exact h.call hbase req o ok queueOk
  have htrims : Trims w.caller (w.caller.step frag e) :=
    Trims.step hF hF' h.base h.sorted fun req o ok queueOk heq => hcall ⟨req, o, ok, queueOk, heq⟩
  cases hflush : w.caller.flushing e with
  | none =>
    have hnone : w.caller.hands frag e w.steps w.ended = [] := by
      unfold Caller.hands
      rw [hflush]
    refine h.trims (hbase e) htrims hnone (fun _ hg => absurd hg List.not_mem_nil)
      List.Pairwise.nil
  | some x =>
    obtain ⟨s₀, how⟩ := x
    obtain ⟨⟨c, hform, -⟩, -, ht⟩ := step_flushing frag hflush
    have hpend : s₀.pending = w.caller.pending := by rw [hform]
    have hbase₀ := base_flushing h.base hflush
    have hs : Sorted s₀.pending := by
      rw [hpend]
      exact h.sorted
    obtain ⟨hflushed, -⟩ := flushQueued_spec hF hF' how hbase₀ hs
    have hhands : w.caller.hands frag e w.steps w.ended =
        (s₀.turns frag how).map fun y => ⟨y.2, y.1, w.steps, w.ended⟩ := by
      unfold Caller.hands
      rw [hflush]
    have hserials : ((s₀.turns frag how).map fun y => (⟨y.2, y.1, w.steps, w.ended⟩ : Handing)).map
        Handing.serial = (s₀.turns frag how).map fun y => y.2.serial := List.map_map
    refine h.trims (hbase e) htrims hhands (fun g hg => ?_) ?_
    · obtain ⟨⟨t, p⟩, htp, rfl⟩ := List.mem_map.mp hg
      obtain ⟨hmem, hflushable, hwaits, hbase', hsame⟩ := hflushed.turn t p htp
      have hmatched : s₀.chan.matchCount ≠ 0 := by
        intro hzero
        unfold Caller.turns at htp
        rw [if_pos hzero] at htp
        exact absurd htp List.not_mem_nil
      have hsome : p.queuedReq.isSome = true := (Bool.and_eq_true_iff.mp hflushable).1
      have hpending : p ∈ w.caller.pending := by
        rw [← hpend]
        exact hmem
      refine ⟨hpending, hsome, rfl, ⟨⟨hwaits, hsome⟩, fun hend => ?_, ?_⟩, fun q hq hqp => ?_⟩
      · exact (h.ended p.serial hend).2 p hpending rfl
      · refine hbase'.reaches ?_ ?_
        · rw [hsame.matchCount]
          exact hmatched
        · rw [hsame.flushable]
          exact hflushable
      · obtain ⟨r, hr, hrq, hkeep⟩ := ht.queued q hq
        refine hkeep ?_
        rcases hflushed.left r hr with ⟨-, hnot⟩ | ⟨-, hnone⟩
        · exact absurd (List.mem_map.mpr ⟨(t, p), htp, (hrq.trans hqp).symm⟩) hnot
        · exact hnone
    · rw [hserials]
      exact hflushed.order

/-! ## Kept in the history -/

/-- The request stands in the log `S`, where it was committed. -/
def Handing.Stored (h : Handing) (S : List WriterSample) : Prop :=
  ∃ x, S[h.index]? = some x ∧ h.Holds x

theorem Handing.Stored.mono {h : Handing} {S S' : List WriterSample} (hs : h.Stored S)
    (hp : S <+: S') : h.Stored S' := by
  obtain ⟨x, hx, hh⟩ := hs
  obtain ⟨T, rfl⟩ := hp
  refine ⟨x, ?_, hh⟩
  rw [List.getElem?_append_left (List.getElem?_eq_some_iff.mp hx).1]
  exact hx

/-- What was stored has its seqnos. -/
theorem Handing.Stored.base_lt {h : Handing} {t : Topic} {S : List WriterSample}
    (hs : h.Stored S) (hist : History frag t S) : h.base < t.nextSeqno := by
  obtain ⟨x, hx, hh⟩ := hs
  have hmem := List.mem_of_getElem? hx
  have hpos := (hist.samples x hmem).count_pos
  have hstop := hist.stop_le hmem
  have := hh.base
  omega

/-- A send that is made leaves one more sample, where anyone is matched. -/
theorem post_stores {c c' : ReqChannel} {x : Posting} {how : How} {S : List WriterSample}
    (h : History frag c.req S) (hF : 0 < frag) (hF' : frag ≤ 65535)
    (hc : c.post frag x how = some c') : c' = c ∧ c.matchCount = 0 ∨
      ∃ y, History frag c'.req (S ++ [y]) ∧ c'.sent.length = c.sent.length + 1 ∧
        y.base = c.req.nextSeqno ∧ y.dest = c.destOf x.dest ∧
          ∃ stamp, y.committed.bytes = stamp ++ fnHeader x.callId x.op ++ x.body := by
  rcases post_cases h hF hF' hc with hskip | ⟨t, y, desc, rfl, hist, hdest, hwhat, -⟩
  · exact Or.inl hskip
  · refine Or.inr ⟨y, hist, List.length_append, congrArg Committed.base hwhat, hdest, ?_⟩
    have hbytes : y.committed.bytes = _ := congrArg Committed.bytes hwhat
    rw [hbytes]
    unfold gather
    exact ⟨_, rfl⟩

/-- A send that is made fits. -/
theorem post_fits {c c' : ReqChannel} {x : Posting} {how : How}
    (hc : c.post frag x how = some c') : c.Fits frag x.body.length := by
  intro hbig
  have hlen := length_fnHeader x.callId x.op
  have hgather := length_request c x how.sourceUs
  have hrefused : ∃ e, c.reqSend frag x how = .refused e := by
    unfold ReqChannel.reqSend
    dsimp only
    split
    next =>
      unfold channelSend writerSendShm
      dsimp only
      rw [hgather, if_pos hbig]
      exact ⟨_, rfl⟩
    next =>
      unfold writerSend
      rw [hlen, if_pos hbig]
      exact ⟨_, rfl⟩
  obtain ⟨e, he⟩ := hrefused
  unfold ReqChannel.post at hc
  rw [he] at hc
  cases hc

/-- The log after the turns of a flush none of whose sends is refused. -/
theorem flushFrom_log (hF : 0 < frag) (hF' : frag ≤ 65535) (how : Nat → How) :
    ∀ (n : Nat) (s : Caller) (S : List WriterSample), ChanBase frag s.chan →
      s.chan.matchCount ≠ 0 → History frag s.chan.req S → S.length = s.chan.sent.length →
      (∀ p ∈ s.pending, Caller.flushable s.chan p = true →
        s.chan.Fits frag (p.queuedReq.getD []).length) →
      (∀ m, m < n → (how m).al.bufOk = true) →
        ∃ S', S <+: S' ∧ History frag (Caller.flushFrom frag how n s).chan.req S' ∧
          S'.length = (Caller.flushFrom frag how n s).chan.sent.length ∧
          S'.length = S.length + (Caller.turnsFrom frag how n s).length ∧
          ∀ t p, (t, p) ∈ Caller.turnsFrom frag how n s → S.length ≤ t.chan.sent.length ∧
            ∀ step ended, Handing.Stored ⟨p, t, step, ended⟩ S' := by
  intro n
  induction n with
  | zero =>
    intro s S _ _ hist hlen _ _
    exact ⟨S, List.prefix_refl S, hist, hlen, rfl, fun _ _ h => absurd h List.not_mem_nil⟩
  | succ n ih =>
    intro s S hbase hm hist hlen hfits hal
    unfold Caller.turnsFrom Caller.flushFrom
    cases hpick : Caller.pickFrom s.chan s.pending with
    | none => exact ⟨S, List.prefix_refl S, hist, hlen, rfl, fun _ _ h => absurd h List.not_mem_nil⟩
    | some i =>
      obtain ⟨f, p, r, hl, rfl, hp, hr⟩ := pickFrom_last hpick
      have hget : s.pending[f.length]? = some p := by
        rw [hl, List.getElem?_append_right (Nat.le_refl _), Nat.sub_self]
        rfl
      dsimp only
      rw [hget]
      dsimp only
      have hmem : p ∈ s.pending := List.mem_of_getElem? hget
      have hfit : s.chan.Fits frag (Caller.flushPosting s.isTask s.chan p).body.length :=
        hfits p hmem hp
      -- the turn's send is one sample more, and the rest follows from there
      obtain ⟨c', hc'⟩ := hbase.post_some hfit (hal n (Nat.lt_succ_self n))
      obtain ⟨y, hist', hsent, hbasey, hdest, hbytes⟩ :=
        (post_stores hist hF hF' hc').resolve_left fun hskip => hm hskip.2
      have hchan : (s.flushOne frag f.length p (how n)).chan = c' := by
        show (s.chan.post frag (Caller.flushPosting s.isTask s.chan p) (how n)).getD s.chan = c'
        rw [hc']
        rfl
      obtain ⟨hbase', hsame⟩ := chan_flushOne hbase hF hF' f.length p (how n)
      have hpend := pending_flushOne frag hl (how n)
      obtain ⟨S', hpre, hhist, hlen', hcount, hturns⟩ :=
        ih (s.flushOne frag f.length p (how n)) (S ++ [y]) hbase' (hsame.matchCount ▸ hm)
          (by rw [hchan]; exact hist')
          (by rw [hchan, hsent, List.length_append, hlen]; rfl)
          -- what is left to flush was there before the turn
          (fun q hq hflush => by
            rw [hpend] at hq
            rw [hsame.flushable] at hflush
            have hold : q ∈ s.pending := by
              rw [hl]
              rcases List.mem_append.mp hq with hq | hq
              · exact List.mem_append_left _ hq
              rcases List.mem_cons.mp hq with rfl | hq
              · exact absurd hflush Bool.false_ne_true
              · exact List.mem_append_right _ (List.mem_cons_of_mem _ hq)
            have := hfits q hold hflush
            unfold ReqChannel.Fits at this ⊢
            rw [hsame.stampBytes]
            exact this)
          fun m hlt => hal m (Nat.lt_succ_of_lt hlt)
      rw [List.length_append, List.length_singleton] at hcount
      have hpre' : S <+: S' := (List.prefix_append S [y]).trans hpre
      refine ⟨S', hpre', hhist, hlen', ?_, fun t q htq => ?_⟩
      · rw [hcount, List.length_cons]
        omega
      · rcases List.mem_cons.mp htq with heq | htq
        · cases heq
          refine ⟨Nat.le_of_eq hlen, fun step ended => ?_⟩
          refine Handing.Stored.mono ⟨y, ?_, ⟨hbasey, hdest, hbytes⟩⟩ hpre
          show (S ++ [y])[s.chan.sent.length]? = some y
          rw [← hlen, List.getElem?_concat_length]
        · obtain ⟨hle, hstored⟩ := hturns t q htq
          rw [List.length_append] at hle
          exact ⟨by omega, hstored⟩

/-- The invariant of the runs whose steps have room. -/
structure Keeping (frag : Nat) (w : Watched) : Prop where
  log : ∃ S, History frag w.caller.chan.req S ∧ S.length = w.caller.chan.sent.length ∧
    ∀ h ∈ w.handed, h.Stored S
  room : w.Room w.caller.chan 0

/-- What it says. -/
theorem Keeping.kept (h : Keeping frag w) : w.Kept := by
  intro k g hg
  obtain ⟨S, hist, hlen, hstored⟩ := h.log
  obtain ⟨x, hx, hh⟩ := hstored g (List.mem_of_getElem? hg.1)
  have hroom := h.room k g hg
  have hpos := (hist.samples x (List.mem_of_getElem? hx)).count_pos
  have hbase := hh.base
  refine ⟨x, (sampleFind_iff hist).mpr ⟨⟨g.index, by omega, hx⟩, ?_, ?_⟩, hh⟩ <;> omega

theorem Keeping.init (c : CallerCfg) (isTask : Bool) : Keeping c.frag (Watched.init c isTask) where
  log := ⟨[], history_cleared c.keep_pos c.history_eq c.head_eq c.first_eq, rfl,
    fun _ hh => absurd hh List.not_mem_nil⟩
  room := fun _ _ hg => absurd (List.mem_of_getElem? hg.1) List.not_mem_nil

/-- An older request that is awaited after a step was awaited before it. -/
theorem Watched.Awaited.back {c c' : ReqChannel} {k : Nat} {h : Handing}
    (hw : Watching frag w) (hF : 0 < frag) (hF' : frag ≤ 65535)
    (ha : (w.step frag e).Awaited c' k h) (hk : w.handed[k]? = some h)
    (hbase : h.base < w.caller.chan.req.nextSeqno)
    (hlanes : ∀ q, (c'.lanes q).used = true → (c.lanes q).used = true ∧ c'.joined q = c.joined q ∨
      c'.joined q = w.caller.chan.req.nextSeqno) : w.Awaited c k h := by
  obtain ⟨-, ⟨p, hp, hps⟩, q, hused, hadm, hjoin, hbuilt⟩ := ha
  refine ⟨hk, ?_, q, ?_⟩
  · have hold : p.serial < w.caller.calls := by
      rw [hps]
      exact (hw.handed h (List.mem_of_getElem? hk)).1
    obtain ⟨r, hr, hrp⟩ := hw.pending_step hF hF' e p hp hold
    exact ⟨r, hr, hrp.trans hps⟩
  · have hlt := (List.getElem?_eq_some_iff.mp hk).1
    have hbuilt : (if w.caller.builds frag e q then w.handed.length else w.built q) ≤ k := hbuilt
    split at hbuilt
    next => exact absurd hbuilt (Nat.not_le_of_lt hlt)
    rcases hlanes q hused with ⟨hu, hj⟩ | hj
    · exact ⟨hu, hadm, hj ▸ hjoin, hbuilt⟩
    · rw [hj] at hjoin
      exact absurd hbase (Nat.not_lt_of_le hjoin)

/-- A step that hands over nothing and sends nothing. -/
theorem Keeping.quiet (h : Keeping frag w) (hw : Watching frag w) (hF : 0 < frag)
    (hF' : frag ≤ 65535) (hhands : w.caller.hands frag e w.steps w.ended = [])
    (hq : Quiet w.caller.chan (w.caller.step frag e).chan) : Keeping frag (w.step frag e) := by
  obtain ⟨S, hist, hlen, hstored⟩ := h.log
  have hhanded : (w.step frag e).handed = w.handed := by
    show w.handed ++ w.caller.hands frag e w.steps w.ended = w.handed
    rw [hhands, List.append_nil]
  have hlog := hq.log
  refine ⟨⟨S, hist.congr hlog.qos hlog.history hlog.head hlog.next hlog.first hlog.have_first,
    hlen.trans (congrArg List.length hq.sent.symm), ?_⟩, fun k g hg => ?_⟩
  · rw [hhanded]
    exact hstored
  · have hk : w.handed[k]? = some g := hhanded ▸ hg.1
    have hbase := (hstored g (List.mem_of_getElem? hk)).base_lt hist
    have hroom := h.room k g (hg.back hw hF hF' hk hbase hq.lanes)
    show (w.caller.step frag e).chan.sent.length + 0 ≤
      g.index + (w.caller.step frag e).chan.req.qos.keepLast
    rw [hq.sent, hlog.qos]
    exact hroom

/-- A send outside the lock. -/
theorem Keeping.send (h : Keeping frag w) (hw : Watching frag w) (hF : 0 < frag)
    (hF' : frag ≤ 65535) (i : Nat) (how : How) (hroomy : w.Roomy frag (.send i how)) :
    Keeping frag (w.step frag (.send i how)) := by
  have hself : Quiet w.caller.chan w.caller.chan := Quiet.of_eq rfl rfl rfl rfl
  have hquiet : (w.caller.sendPosted frag i how).chan = w.caller.chan →
      Keeping frag (w.step frag (.send i how)) := by
    intro hsame
    refine h.quiet hw hF hF' rfl ?_
    show Quiet w.caller.chan (w.caller.sendPosted frag i how).chan
    rw [hsame]
    exact hself
  rcases sendPosted_chan frag w.caller i how with hsame | ⟨x, c', hx, hpost, hchan⟩
  · exact hquiet hsame
  obtain ⟨S, hist, hlen, hstored⟩ := h.log
  rcases post_stores hist hF hF' hpost with ⟨hskip, -⟩ | ⟨y, hist', hsent, -⟩
  · exact hquiet (hchan.trans hskip)
  have hsame := post_same hist hF hF' hpost
  have hhanded : (w.step frag (.send i how)).handed = w.handed := List.append_nil _
  have hstep : (w.step frag (.send i how)).caller.chan = c' := hchan
  refine ⟨⟨S ++ [y], ?_, ?_, ?_⟩, fun k g hg => ?_⟩
  · rw [hstep]
    exact hist'
  · rw [hstep, hsent, List.length_append, hlen]
    rfl
  · rw [hhanded]
    exact fun g hg => (hstored g hg).mono (List.prefix_append S [y])
  · have hk : w.handed[k]? = some g := hhanded ▸ hg.1
    have hbase := (hstored g (List.mem_of_getElem? hk)).base_lt hist
    rw [hstep] at hg ⊢
    have hback : w.Awaited w.caller.chan k g := hg.back hw hF hF' hk hbase fun q hq =>
      Or.inl ⟨(hsame.used q).symm.trans hq, congrFun hsame.joined q⟩
    have hroom := hroomy.send i how x rfl hx (post_fits hpost) k g hback
    rw [hsent, hsame.qos]
    exact hroom

/-- A step that flushes. -/
theorem Keeping.flush (h : Keeping frag w) (hw : Watching frag w) (hF : 0 < frag)
    (hF' : frag ≤ 65535) {s₀ : Caller} {how : Nat → How}
    (hflush : w.caller.flushing e = some (s₀, how)) (hroomy : w.Roomy frag e) :
    Keeping frag (w.step frag e) := by
  obtain ⟨⟨c, hform, hq⟩, hchan, -⟩ := step_flushing frag hflush
  have hbase₀ := base_flushing hw.base hflush
  have hc : s₀.chan = c := by rw [hform]
  rw [← hc] at hq
  have hhands : w.caller.hands frag e w.steps w.ended =
      (s₀.turns frag how).map fun y => ⟨y.2, y.1, w.steps, w.ended⟩ := by
    unfold Caller.hands
    rw [hflush]
  by_cases hm : s₀.chan.matchCount = 0
  · -- still no provider
    have hturns : s₀.turns frag how = [] := if_pos hm
    have hsame : s₀.flushQueued frag how = s₀ := if_pos hm
    refine h.quiet hw hF hF' ?_ ?_
    · rw [hhands, hturns]
      rfl
    · rw [hchan, hsame]
      exact hq
  have hs : Sorted s₀.pending := by
    rw [hform]
    exact hw.sorted
  have hflushed := (flushQueued_spec hF hF' how hbase₀ hs).1
  obtain ⟨hfew, hroom, hfits, hal⟩ := hroomy.flush s₀ how hflush hm
  obtain ⟨S, hist, hlen, hstored⟩ := h.log
  have hlog := hq.log
  have hist₀ : History frag s₀.chan.req S :=
    hist.congr hlog.qos hlog.history hlog.head hlog.next hlog.first hlog.have_first
  have hlen₀ : S.length = s₀.chan.sent.length := by
    rw [hq.sent]
    exact hlen
  have hturns : s₀.turns frag how = Caller.turnsFrom frag how s₀.pending.length s₀ := if_neg hm
  have hqueue : s₀.flushQueued frag how = Caller.flushFrom frag how s₀.pending.length s₀ := if_neg hm
  obtain ⟨S', hpre, hist', hlen', hcount, hnew⟩ :=
    flushFrom_log hF hF' how s₀.pending.length s₀ S hbase₀ hm hist₀ hlen₀ hfits hal
  rw [← hqueue, ← hchan] at hist' hlen'
  rw [← hturns] at hcount hnew
  have hfew' := hflushed.count
  have hkeep : (w.caller.step frag e).chan.req.qos = s₀.chan.req.qos := by
    rw [hchan]
    exact hflushed.same.qos
  have hhanded : (w.step frag e).handed =
      w.handed ++ (s₀.turns frag how).map fun y => ⟨y.2, y.1, w.steps, w.ended⟩ := by
    rw [← hhands]
    rfl
  refine ⟨⟨S', hist', hlen', fun g hg => ?_⟩, fun k g hg => ?_⟩
  · rw [hhanded] at hg
    rcases List.mem_append.mp hg with hg | hg
    · exact (hstored g hg).mono hpre
    · obtain ⟨⟨t, p⟩, htp, rfl⟩ := List.mem_map.mp hg
      exact (hnew t p htp).2 _ _
  · show (w.caller.step frag e).chan.sent.length + 0 ≤
      g.index + (w.caller.step frag e).chan.req.qos.keepLast
    rw [hkeep]
    have hgot := hg.1
    rw [hhanded] at hgot
    by_cases hk : k < w.handed.length
    · rw [List.getElem?_append_left hk] at hgot
      have hbase := (hstored g (List.mem_of_getElem? hgot)).base_lt hist
      -- a request of before: the flush leaves it the room it needs
      have hback : w.Awaited s₀.chan k g := by
        refine hg.back hw hF hF' hgot hbase fun q hused => Or.inl ?_
        have hused : ((w.caller.step frag e).chan.lanes q).used = true := hused
        show (s₀.chan.lanes q).used = true ∧ (w.caller.step frag e).chan.joined q = s₀.chan.joined q
        rw [hchan] at hused ⊢
        exact ⟨(hflushed.same.used q).symm.trans hused, congrFun hflushed.same.joined q⟩
      have := hroom k g hback
      omega
    -- one of the flush, which sends no more than the ring keeps
    · rw [List.getElem?_append_right (Nat.le_of_not_lt hk)] at hgot
      obtain ⟨⟨t, p⟩, htp, rfl⟩ := List.mem_map.mp (List.mem_of_getElem? hgot)
      have hindex : S.length ≤ Handing.index ⟨p, t, w.steps, w.ended⟩ := (hnew t p htp).1
      show _ ≤ Handing.index ⟨p, t, w.steps, w.ended⟩ + _
      omega

/-- Every step under its condition. -/
theorem Keeping.step (h : Keeping frag w) (hw : Watching frag w) (hF : 0 < frag)
    (hF' : frag ≤ 65535) (e : CallerEvent) (hroomy : w.Roomy frag e) :
    Keeping frag (w.step frag e) := by
  cases hflush : w.caller.flushing e with
  | some x => exact h.flush hw hF hF' hflush hroomy
  | none =>
    by_cases hsend : ∃ i how, e = .send i how
    · obtain ⟨i, how, rfl⟩ := hsend
      exact h.send hw hF hF' i how hroomy
    refine h.quiet hw hF hF' ?_ ?_
    · unfold Caller.hands
      rw [hflush]
    · exact (step_quiet hw.base hflush fun i how heq => hsend ⟨i, how, heq⟩).2

/-! ## Runs -/

/-- In every run what waits is flushed once, and in a run whose every step has room, what a
flush handed over is in the history when the next datagram for its provider is built. -/
theorem flushes_keep (c : CallerCfg) (isTask : Bool) (es : List CallerEvent) :
    (run (Watched.step c.frag) (Watched.init c isTask) es).FlushedOnce c.frag ∧
      (Along (Watched.step c.frag) (Watched.Roomy c.frag) (Watched.init c isTask) es →
        (run (Watched.step c.frag) (Watched.init c isTask) es).Kept) := by
  have hwatching : Watching c.frag (run (Watched.step c.frag) (Watched.init c isTask) es) :=
    run_invariant (Watching c.frag) (fun w e hw => hw.step c.frag_pos c.frag_le e) es _
      (Watching.init c isTask)
  refine ⟨hwatching.flushedOnce c.frag_pos c.frag_le, fun halong => ?_⟩
  have hboth := run_invariant_along (fun w => Watching c.frag w ∧ Keeping c.frag w)
    (fun w e hw he => ⟨hw.1.step c.frag_pos c.frag_le e,
      hw.2.step hw.1 c.frag_pos c.frag_le e he⟩) es _
    ⟨Watching.init c isTask, Keeping.init c isTask⟩ halong
  exact hboth.2.kept

/-! ## Where it is lost -/

/-- A call that names no provider. -/
def waitingCall (body : Bytes) : CallerEvent := .call body ⟨0, 0, 1000, false⟩ true true

def CallerEvent.sends : CallerEvent → Bool
  | .send .. => true
  | _ => false

/-- What can be run of `Roomy`, where nothing is sent outside the lock. -/
def Watched.Spacious (frag : Nat) (w : Watched) (e : CallerEvent) : Prop :=
  e.sends = false ∧ ∀ x ∈ w.caller.flushing e, x.1.chan.matchCount ≠ 0 →
    x.1.pending.countP (Caller.flushable x.1.chan) ≤ x.1.chan.req.qos.keepLast ∧
    (∀ h ∈ w.handed, (∃ p ∈ w.caller.pending, p.serial = h.serial) →
      x.1.chan.sent.length + x.1.pending.countP (Caller.flushable x.1.chan) ≤
        h.index + x.1.chan.req.qos.keepLast) ∧
    (∀ p ∈ x.1.pending, x.1.chan.Fits frag (p.queuedReq.getD []).length) ∧
    ∀ n < x.1.pending.length, (x.2 n).al.bufOk = true

instance (w : Watched) (e : CallerEvent) : Decidable (w.Spacious frag e) :=
  inferInstanceAs (Decidable (_ ∧ _))

theorem Watched.Spacious.roomy {w : Watched} (h : w.Spacious frag e) :
    w.Roomy frag e where
  send i how _ he := by
    rw [he] at h
    cases h.1
  flush _ _ hflush hmatch := by
    obtain ⟨hfew, hroom, hfits, hgranted⟩ := h.2 _ hflush hmatch
    exact ⟨hfew, fun k g hk => hroom g (List.mem_of_getElem? hk.1) hk.2.1, fun p hp _ => hfits p hp,
      hgranted⟩

/-- Two calls wait until their provider matches and answers, and a third until it matches again. -/
def flushTwiceRun : List CallerEvent :=
  [.peerAdd 7, waitingCall [1], waitingCall [2], .interest 7 true true fun _ => granted,
    .emit 0 false 1400 0, .answered 1, .answered 2, .interest 7 false true fun _ => granted,
    waitingCall [3], .interest 7 true true fun _ => granted]

theorem flushes_keep_twice :
    (run (Watched.step reqCfg.frag) (Watched.init reqCfg true) flushTwiceRun).FlushedOnce
      reqCfg.frag ∧
    (run (Watched.step reqCfg.frag) (Watched.init reqCfg true) flushTwiceRun).Kept ∧
    (run (Watched.step reqCfg.frag) (Watched.init reqCfg true) flushTwiceRun).handed.map
      Handing.serial = [0, 1, 2] := by
  obtain ⟨honce, hkept⟩ := flushes_keep reqCfg true flushTwiceRun
  have hrun : Along (Watched.step reqCfg.frag) (Watched.Spacious reqCfg.frag)
      (Watched.init reqCfg true) flushTwiceRun := by decide +kernel
  refine ⟨honce, hkept ?_, by decide +kernel⟩
  exact along_of_invariant (fun _ => True) (fun _ _ _ hp => ⟨trivial, hp.roomy⟩) _ _ trivial hrun

/-- Three calls wait, and their provider matches. -/
def overwriteRun : List CallerEvent :=
  [.peerAdd 7, waitingCall [1], waitingCall [2], waitingCall [3],
    .interest 7 true true fun _ => granted]

/-- The flush sends all three into a ring of two, and the first is gone before anything was
built for its lane. -/
theorem flush_overwrites :
    ¬ (run (Watched.step reqCfg.frag) (Watched.init reqCfg true) overwriteRun).Kept := by
  intro hkept
  obtain ⟨w, hw⟩ : ∃ w, w = run (Watched.step reqCfg.frag) (Watched.init reqCfg true) overwriteRun :=
    ⟨_, rfl⟩
  have hfirst : w.handed[0]?.map (fun h => (h.serial, h.base, decide (h.slot = .slot 0))) =
      some (0, 0, true) := by
    rw [hw]
    decide +kernel
  have hpending : w.caller.pending.map Pending.serial = [2, 1, 0] := by
    rw [hw]
    decide +kernel
  have hlane : (w.caller.chan.lanes 0).used = true ∧ w.caller.chan.joined 0 = 0 ∧ w.built 0 = 0 := by
    rw [hw]
    decide +kernel
  have hgone : (sampleFind w.caller.chan.req 0).isNone = true := by
    rw [hw]
    decide +kernel
  rw [← hw] at hkept
  obtain ⟨h, hh, hkey⟩ := Option.map_eq_some_iff.mp hfirst
  have hserial : h.serial = 0 := congrArg Prod.fst hkey
  have hbase : h.base = 0 := congrArg (·.2.1) hkey
  have hslot : h.slot = .slot 0 := of_decide_eq_true (congrArg (·.2.2) hkey)
  obtain ⟨p, hp, hps⟩ : ∃ p ∈ w.caller.pending, p.serial = h.serial := by
    refine List.mem_map.mp ?_
    rw [hpending, hserial]
    exact List.mem_cons_of_mem _ (List.mem_cons_of_mem _ List.mem_cons_self)
  obtain ⟨x, hx, -⟩ := hkept 0 h ⟨hh, ⟨p, hp, hps⟩, 0, hlane.1, Or.inr hslot,
    Nat.le_of_eq (hlane.2.1.trans hbase.symm), Nat.le_of_eq hlane.2.2⟩
  rw [hbase] at hx
  rw [hx] at hgone
  cases hgone

end Rant.Patterns
