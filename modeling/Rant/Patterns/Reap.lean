import Rant.Lib.Linked
import Mathlib.Logic.Function.Iterate
import Mathlib.Data.List.Perm.Subperm
import Rant.Patterns.Handling
import Rant.Patterns.Requests
/-!
# Reaping calls under their callbacks

`i_rant_func_reap`, `i_rant_func_reap_severed` and the loops of retire and refresh fail pending
calls, and run the response callback of each as they do. The pass stands on a link: the head of
the list, or the next of the last entry it left in. A callback may make calls, which are pushed
at the head, and cancel calls, which takes a queued one out of the list, fails it in turn and
frees it.

The machine takes the small steps of one pass. Cells are named by the order of their
allocation, so a freed one is never named again and every look at one is a `fault`. What the
callbacks do is a script: entry `n` is what the `n`th callback that runs does.
-/

namespace Rant.Patterns

open Rant.Lib

/-- `RANT_CALL_TIMEOUT` and `RANT_CALL_NO_PROVIDER`. -/
def callTimeout : UInt8 := 3
def callNoProvider : UInt8 := 7

/-- `i_RantPending`, as a pass reads it. `queued` is whether it holds its request. -/
structure Cell where
  callId : Nat
  dest : Nat
  deadlineUs : Nat
  queued : Bool
  sync : Bool
  deriving DecidableEq, Repr, Inhabited

/-- One thing a callback does. -/
inductive CallbackAct
  /-- `rant_function_call_async`: a new entry, queued or sent, with the deadline it gets.
  `kept` is false where its send is refused or its bytes find no memory. -/
  | call (dest deadlineUs : Nat) (queued kept : Bool)
  /-- `rant_function_cancel`. -/
  | cancel (callId : Nat)
  deriving DecidableEq, Repr

/-- `which`: `RANT__REAP_EXPIRED`, `RANT__REAP_ALL`, `RANT__REAP_SENT`. -/
inductive Which
  | expired
  | all
  | sent
  deriving DecidableEq, Repr

/-- What walks the list. -/
inductive Pass
  /-- `i_rant_func_reap`. -/
  | reap (now : Nat) (failStatus : UInt8) (which : Which) (dest : Nat) (park : Bool)
  /-- `i_rant_func_reap_severed`: `up` is whether the peer's lane still is. -/
  | severed (peer : Nat) (up : Bool)
  /-- The loops of retire and refresh: reap all, until the list is empty. -/
  | loop
  deriving DecidableEq, Repr

namespace Pass

/-- Whether the pass fails the entry. -/
def selects : Pass → Cell → Bool
  | .reap now _ which dest _, c =>
    if dest ≠ 0 then c.dest == dest
    else
      match which with
      | .all => true
      | .sent => !c.queued
      | .expired => decide (c.deadlineUs ≤ now)
  | .severed peer up, c => c.dest == peer && !c.queued && !up
  | .loop, _ => true

/-- The outcome it gets. A call still queued at its deadline never had a provider. -/
def status : Pass → Cell → UInt8
  | .reap _ failStatus _ _ _, c =>
    if failStatus = callTimeout ∧ c.queued then callNoProvider else failStatus
  | .severed _ _, _ => callCancelled
  | .loop, _ => callCancelled

/-- Whether the outcome may park on a handle's queue. -/
def parks : Pass → Bool
  | .reap _ _ _ _ park => park
  | .severed _ _ => true
  | .loop => false

end Pass

/-- One outcome: of which call, and whether the pass gave it or a cancel did. -/
structure Outcome where
  cell : Nat
  status : UInt8
  byPass : Bool
  deriving DecidableEq, Repr

/-- A callback that is out: the entry it is of, and what it still does. -/
structure Frame where
  cell : Nat
  acts : List CallbackAct
  deriving DecidableEq, Repr

/-- A pass in progress. `pos` is where it stands, `stack` the callbacks out, innermost first.
`made` counts the cells, `runs` the callbacks that ran. -/
structure Reaping where
  pass : Pass
  queue : Bool
  script : Nat → List CallbackAct
  cells : Nat → Cell
  made : Nat
  links : Links Nat
  nextCallId : Nat
  parked : List Nat := []
  outcomes : List Outcome := []
  freed : List Nat := []
  fault : Bool := false
  pos : Option Nat := none
  stack : List Frame := []
  runs : Nat := 0
  soonest : Nat := 0
  «over» : Bool := false

namespace Reaping

variable (s : Reaping)

/-- A look at cells, or a write to them. -/
def touch (l : List Nat) : Reaping :=
  { s with fault := s.fault || l.any fun a => s.freed.contains a }

/-- `i_rant_func_free_pending`, and the free. -/
def free (a : Nat) : Reaping := { s.touch [a] with freed := a :: s.freed }

/-- `i_rant_func_fail_pending` of an entry that was unlinked: parked as a record, or its
callback runs, which for a blocking call only copies the answer out. -/
def fail (a : Nat) (st : UInt8) (park byPass : Bool) : Reaping :=
  let s : Reaping := { s.touch [a] with
    outcomes := s.outcomes ++ [{ cell := a, status := st, byPass := byPass }] }
  if park && !(s.cells a).sync && s.queue then { s with parked := a :: s.parked }
  else if (s.cells a).sync then { s with stack := { cell := a, acts := [] } :: s.stack }
  else { s with stack := { cell := a, acts := s.script s.runs } :: s.stack, runs := s.runs + 1 }

/-- The entry that has the call id, with the link that names it. -/
def findPending (callId : Nat) : List Nat × Option (Option Nat) :=
  s.links.seek (fun a => (s.cells a).callId == callId) s.made none

/-- `i_rant_function_call_id`, from a callback: the lock is held. -/
def call (dest deadlineUs : Nat) (queued kept : Bool) : Reaping :=
  let a := s.made
  let c : Cell := { callId := s.nextCallId, dest := dest, deadlineUs := deadlineUs, queued := queued
                    sync := false }
  let linked := { s with
    cells := fun b => if b = a then c else s.cells b
    made := a + 1
    nextCallId := (s.nextCallId + 1) % 2 ^ 32
    links := s.links.push a }
  if kept then linked
  else ({ linked with links := linked.links.assign none (linked.links.next a) }.touch [a]).free a

/-- `rant_function_cancel`: a queued call ends here, a sent one is left to its provider. -/
def cancel (callId : Nat) : Reaping :=
  let r := s.findPending callId
  let s := s.touch r.1
  match r.2 with
  | none => s
  | some link =>
    match s.links.target link with
    | none => s
    | some a =>
      if (s.cells a).queued then
        { s with links := s.links.assign link (s.links.next a) }.fail a callCancelled true false
      else s

/-- What a callback does next. -/
def act : CallbackAct → Reaping
  | .call dest deadlineUs queued kept => s.call dest deadlineUs queued kept
  | .cancel callId => s.cancel callId

/-- The end of the list. The loops start over until it is empty. -/
def finish : Reaping :=
  if s.pass = .loop ∧ s.links.head ≠ none then { s with pos := none, soonest := 0 }
  else { s with «over» := true }

/-- One turn of the pass. -/
def turn : Reaping :=
  let s := s.touch s.pos.toList
  match s.links.target s.pos with
  | none => s.finish
  | some a =>
    let s := s.touch [a]
    if s.pass.selects (s.cells a) then
      { s with links := s.links.assign s.pos (s.links.next a) }.fail a (s.pass.status (s.cells a))
        s.pass.parks true
    else
      { s with
        soonest := if s.soonest = 0 ∨ (s.cells a).deadlineUs < s.soonest then (s.cells a).deadlineUs
          else s.soonest
        pos := some a }

/-- One step: of the innermost callback, else of the pass. A callback that is back is freed,
but a blocking call's entry is its caller's to free. -/
def step : Reaping :=
  if s.over then s
  else
    match s.stack with
    | [] => s.turn
    | f :: rest =>
      match f.acts with
      | [] =>
        if (s.cells f.cell).sync then { s with stack := rest }
        else { s with stack := rest }.free f.cell
      | x :: acts => { s with stack := { f with acts := acts } :: rest }.act x

/-- The pass about to start over the entries `l`, newest first. -/
def start (pass : Pass) (queue : Bool) (script : Nat → List CallbackAct) (l : List Cell)
    (nextCallId : Nat) : Reaping where
  pass := pass
  queue := queue
  script := script
  cells := fun a => l.getD a default
  made := l.length
  links := { head := if l = [] then none else some 0
             next := fun a => if a + 1 < l.length then some (a + 1) else none }
  nextCallId := nextCallId

/-- The state after `n` steps. -/
def after (n : Nat) : Reaping := Nat.iterate step n s

/-! ## The invariant -/

/-- The list of the pass is `l₁ ++ l₂`, and the pass stands after `l₁`: what was there at the
start and is in `l₁` was looked at and left in. `base` is how many were there. -/
structure Inv (base : Nat) (s : Reaping) (l₁ l₂ : List Nat) : Prop where
  holds : s.links.Holds (l₁ ++ l₂)
  nodup : (l₁ ++ l₂).Nodup
  pos : s.pos = l₁.getLast?
  live : ∀ a ∈ l₁ ++ l₂, a < s.made ∧ a ∉ s.freed ∧ a ∉ s.outcomes.map Outcome.cell
  freed : ∀ a ∈ s.freed, a < s.made
  failed : ∀ a ∈ s.outcomes.map Outcome.cell, a < s.made
  frames : ∀ f ∈ s.stack, f.cell ∈ s.outcomes.map Outcome.cell ∧ f.cell ∉ s.freed
  stack : (s.stack.map Frame.cell).Nodup
  once : (s.outcomes.map Outcome.cell).Nodup
  intact : s.fault = false
  left : ∀ a ∈ l₁, a < base → s.pass.selects (s.cells a) = false
  known : ∀ a, a < base → a ∈ l₁ ++ l₂ ∨ a ∈ s.outcomes.map Outcome.cell
  own : ∀ o ∈ s.outcomes, o.byPass = true → s.pass.selects (s.cells o.cell) = true
  loop : s.pass = .loop → l₁ = []
  «over» : s.over = true → l₂ = []
  base_le : base ≤ s.made

section

variable {base : Nat} {s : Reaping} {l₁ l₂ : List Nat}

/-- Cells that are not freed may be looked at. -/
theorem touch_eq {l : List Nat} (h : ∀ a ∈ l, a ∉ s.freed) : s.touch l = s := by
  have hno : (l.any fun a => s.freed.contains a) = false := by
    rw [List.any_eq_false]
    intro a ha hc
    exact h a ha (List.contains_iff_mem.mp hc)
  unfold touch
  rw [hno, Bool.or_false]

/-- The list is no longer than what was allocated. -/
theorem Inv.length_le (h : s.Inv base l₁ l₂) : (l₁ ++ l₂).length ≤ s.made := by
  have hsub : (l₁ ++ l₂).Subperm (List.range s.made) :=
    h.nodup.subperm fun a ha => List.mem_range.mpr (h.live a ha).1
  have := hsub.length_le
  rwa [List.length_range] at this

/-- An entry out of the list, failed. -/
theorem Inv.fail (h : s.Inv base l₁ l₂) {m₁ m₂ l₁' l₂' : List Nat} {a : Nat}
    (hl : l₁ ++ l₂ = m₁ ++ a :: m₂) (hl' : l₁' ++ l₂' = m₁ ++ m₂) (hpos : s.pos = l₁'.getLast?)
    (hsub : ∀ b ∈ l₁', b ∈ l₁) (hover : s.over = false) (st : UInt8) (park : Bool) {byPass : Bool}
    (hown : byPass = true → s.pass.selects (s.cells a) = true) :
    (Reaping.fail { s with links := s.links.assign m₁.getLast? (s.links.next a) } a st park
      byPass).Inv base l₁' l₂' := by
  have hmem : ∀ b ∈ m₁ ++ m₂, b ∈ l₁ ++ l₂ := by
    intro b hb
    rw [hl]
    rcases List.mem_append.mp hb with hb | hb
    · exact List.mem_append_left _ hb
    · exact List.mem_append_right _ (List.mem_cons_of_mem a hb)
  have ha : a ∈ l₁ ++ l₂ := by
    rw [hl]
    exact List.mem_append_right _ List.mem_cons_self
  have hn := h.nodup
  have hh := h.holds
  rw [hl] at hn hh
  have hsplit := List.nodup_middle.mp hn
  rw [List.nodup_cons] at hsplit
  obtain ⟨halt, hafree, haout⟩ := h.live a ha
  have htouch : Reaping.touch { s with links := s.links.assign m₁.getLast? (s.links.next a) } [a] =
      { s with links := s.links.assign m₁.getLast? (s.links.next a) } := by
    refine touch_eq fun b hb => ?_
    rw [List.mem_singleton.mp hb]
    exact hafree
  -- the parts that do not depend on where the outcome goes
  have hcells : (s.outcomes ++ [({ cell := a, status := st, byPass := byPass } : Outcome)]).map Outcome.cell =
      s.outcomes.map Outcome.cell ++ [a] := by
    rw [List.map_append]
    rfl
  have hlive : ∀ b ∈ l₁' ++ l₂', b < s.made ∧ b ∉ s.freed ∧
      b ∉ (s.outcomes ++ [({ cell := a, status := st, byPass := byPass } : Outcome)]).map Outcome.cell := by
    intro b hb
    rw [hl'] at hb
    obtain ⟨h1, h2, h3⟩ := h.live b (hmem b hb)
    refine ⟨h1, h2, ?_⟩
    rw [hcells, List.mem_append, not_or]
    refine ⟨h3, fun hba => ?_⟩
    rw [List.mem_singleton.mp hba] at hb
    exact hsplit.1 hb
  have hbase : Inv base { s with
      links := s.links.assign m₁.getLast? (s.links.next a)
      outcomes := s.outcomes ++ [({ cell := a, status := st, byPass := byPass } : Outcome)] } l₁' l₂' := by
    constructor
    · rw [hl']
      exact hh.unlink hn
    · rw [hl']
      exact hsplit.2
    · exact hpos
    · exact hlive
    · exact h.freed
    · intro b hb
      rw [hcells] at hb
      rcases List.mem_append.mp hb with hb | hb
      · exact h.failed b hb
      · rw [List.mem_singleton.mp hb]
        exact halt
    · intro f hf
      obtain ⟨h1, h2⟩ := h.frames f hf
      refine ⟨?_, h2⟩
      rw [hcells]
      exact List.mem_append_left _ h1
    · exact h.stack
    · rw [hcells]
      exact List.nodup_append.mpr ⟨h.once, List.nodup_singleton a, fun b hb c hc hbc => haout (by
        rw [List.mem_singleton.mp hc] at hbc
        exact hbc ▸ hb)⟩
    · exact h.intact
    · intro b hb
      exact h.left b (hsub b hb)
    · intro b hb
      rw [hl', hcells]
      rcases h.known b hb with hb | hb
      · rw [hl] at hb
        rcases List.mem_append.mp hb with hb | hb
        · exact Or.inl (List.mem_append_left _ hb)
        · rcases List.mem_cons.mp hb with rfl | hb
          · exact Or.inr (List.mem_append_right _ (List.mem_singleton_self b))
          · exact Or.inl (List.mem_append_right _ hb)
      · exact Or.inr (List.mem_append_left _ hb)
    · intro o ho
      rcases List.mem_append.mp ho with ho | ho
      · exact h.own o ho
      · rw [List.mem_singleton.mp ho]
        exact hown
    · intro hloop
      have hnil := h.loop hloop
      rw [hnil] at hsub
      exact List.eq_nil_iff_forall_not_mem.mpr fun b hb => absurd (hsub b hb) List.not_mem_nil
    · intro hyes
      exact absurd (hover.symm.trans hyes) Bool.false_ne_true
    · exact h.base_le
  have hframe : ∀ acts runs, Inv base { s with
      links := s.links.assign m₁.getLast? (s.links.next a)
      outcomes := s.outcomes ++ [({ cell := a, status := st, byPass := byPass } : Outcome)]
      stack := { cell := a, acts := acts } :: s.stack, runs := runs } l₁' l₂' := by
    intro acts runs
    refine { hbase with frames := ?_, stack := ?_ }
    · intro f hf
      rcases List.mem_cons.mp hf with rfl | hf
      · refine ⟨?_, hafree⟩
        rw [hcells]
        exact List.mem_append_right _ (List.mem_singleton_self a)
      · exact hbase.frames f hf
    · show (a :: s.stack.map Frame.cell).Nodup
      rw [List.nodup_cons]
      refine ⟨fun hmem => ?_, h.stack⟩
      obtain ⟨f, hf, hfa⟩ := List.mem_map.mp hmem
      exact haout (hfa ▸ (h.frames f hf).1)
  unfold Reaping.fail
  rw [htouch]
  dsimp only
  split
  next => exact { hbase with }
  split
  next => exact hframe [] s.runs
  next => exact hframe _ _

/-! ## The steps -/

/-- Where a call at the head goes: ahead of a pass that stands at the head, else behind it. -/
def pushed (a : Nat) (l₁ l₂ : List Nat) : List Nat × List Nat :=
  if l₁ = [] then ([], a :: l₂) else (a :: l₁, l₂)

theorem pushed_append (a : Nat) (l₁ l₂ : List Nat) :
    (pushed a l₁ l₂).1 ++ (pushed a l₁ l₂).2 = a :: (l₁ ++ l₂) := by
  unfold pushed
  split
  next h => rw [h]; rfl
  next => rfl

theorem Inv.fresh (h : s.Inv base l₁ l₂) : s.made ∉ l₁ ++ l₂ := fun hmem =>
  Nat.lt_irrefl _ (h.live s.made hmem).1

/-- A cell that is allocated is on no list yet. -/
theorem Inv.alloc (h : s.Inv base l₁ l₂) (c : Cell) (nextCallId : Nat) :
    Inv base { s with
      cells := fun b => if b = s.made then c else s.cells b
      made := s.made + 1, nextCallId := nextCallId } l₁ l₂ := by
  have hcell : ∀ {b : Nat}, b < s.made → (if b = s.made then c else s.cells b) = s.cells b :=
    fun hb => if_neg (Nat.ne_of_lt hb)
  refine { h with
    live := fun b hb => ⟨Nat.lt_succ_of_lt (h.live b hb).1, (h.live b hb).2⟩
    freed := fun b hb => Nat.lt_succ_of_lt (h.freed b hb)
    failed := fun b hb => Nat.lt_succ_of_lt (h.failed b hb)
    left := fun b hb hbase => ?_
    own := fun o ho hby => ?_
    base_le := Nat.le_succ_of_le h.base_le }
  · show s.pass.selects (if b = s.made then c else s.cells b) = false
    rw [hcell (Nat.lt_of_lt_of_le hbase h.base_le)]
    exact h.left b hb hbase
  · show s.pass.selects (if o.cell = s.made then c else s.cells o.cell) = true
    rw [hcell (h.failed _ (List.mem_map_of_mem ho))]
    exact h.own o ho hby

/-- A call that is kept is one more entry, one that is not is gone again. -/
theorem Inv.call (h : s.Inv base l₁ l₂) (hover : s.over = false) (dest deadlineUs : Nat)
    (queued : Bool) :
    (s.call dest deadlineUs queued true).Inv base (pushed s.made l₁ l₂).1 (pushed s.made l₁ l₂).2 ∧
      (s.call dest deadlineUs queued false).Inv base l₁ l₂ := by
  have hnf : s.made ∉ s.freed := fun hmem => Nat.lt_irrefl _ (h.freed _ hmem)
  have hmade := h.alloc { callId := s.nextCallId, dest := dest, deadlineUs := deadlineUs
                          queued := queued, sync := false } ((s.nextCallId + 1) % 2 ^ 32)
  constructor
  · unfold Reaping.call
    dsimp only
    rw [if_pos rfl]
    refine { hmade with
      holds := ?_, nodup := ?_, pos := ?_, live := fun b hb => ?_, left := fun b hb hbase => ?_
      known := fun b hb => ?_, loop := fun hloop => ?_
      «over» := fun hyes => absurd (hover.symm.trans hyes) Bool.false_ne_true }
    · rw [pushed_append]
      exact h.holds.push h.fresh
    · rw [pushed_append, List.nodup_cons]
      exact ⟨h.fresh, h.nodup⟩
    · show s.pos = _
      rw [h.pos]
      unfold pushed
      split
      next hnil => rw [hnil]
      next hne =>
        obtain ⟨b, m, hm⟩ := List.exists_cons_of_ne_nil hne
        rw [hm, List.getLast?_cons_cons]
    · rw [pushed_append] at hb
      rcases List.mem_cons.mp hb with rfl | hb
      · exact ⟨Nat.lt_succ_self _, hnf, fun hmem => Nat.lt_irrefl _ (h.failed _ hmem)⟩
      · exact hmade.live b hb
    · refine hmade.left b ?_ hbase
      unfold pushed at hb
      split at hb
      next => cases hb
      rcases List.mem_cons.mp hb with rfl | hb
      · exact absurd h.base_le (Nat.not_le.mpr hbase)
      · exact hb
    · rw [pushed_append]
      exact (h.known b hb).imp_left (List.mem_cons_of_mem _)
    · unfold pushed
      rw [if_pos (h.loop hloop)]
  -- pushed, then taken out by its own pointer: the list is the old one
  · unfold Reaping.call
    dsimp only
    rw [if_neg Bool.false_ne_true]
    rw [touch_eq (l := [s.made]) fun b hb => by rw [List.mem_singleton.mp hb]; exact hnf]
    unfold Reaping.free
    rw [touch_eq (l := [s.made]) fun b hb => by rw [List.mem_singleton.mp hb]; exact hnf]
    have hkept : ∀ {b}, b < s.made → b ∉ s.freed → b ∉ s.made :: s.freed := fun hlt hb hc =>
      (List.mem_cons.mp hc).elim (Nat.ne_of_lt hlt) hb
    refine { hmade with
      holds := ?_
      live := fun b hb => ⟨(hmade.live b hb).1, hkept (h.live b hb).1 (h.live b hb).2.1,
        (h.live b hb).2.2⟩
      freed := fun b hb => ?_
      frames := fun f hf => ⟨(h.frames f hf).1,
        hkept (h.failed _ (h.frames f hf).1) (h.frames f hf).2⟩ }
    · have hfrom : Links.From s.links.next ((s.links.push s.made).next s.made) (l₁ ++ l₂) := by
        unfold Links.push
        dsimp only
        rw [if_pos rfl]
        exact h.holds
      refine hfrom.congr fun b hb => ?_
      show (if b = s.made then s.links.head else s.links.next b) = s.links.next b
      exact if_neg (Nat.ne_of_lt (h.live b hb).1)
    · rcases List.mem_cons.mp hb with rfl | hb
      · exact Nat.lt_succ_self _
      · exact hmade.freed b hb

/-- The entry a cancel would take out of the list. -/
def cancels (s : Reaping) (callId : Nat) : Option Nat :=
  ((s.findPending callId).2.bind s.links.target).filter fun a => (s.cells a).queued

/-- A cancel of an entry other than the one the pass stands on. -/
theorem Inv.cancel (h : s.Inv base l₁ l₂) (hover : s.over = false) {callId : Nat}
    (hclear : ∀ a, s.cancels callId = some a → s.pos ≠ some a) :
    s.cancel callId = s ∨
      ∃ a l₁' l₂', a ∈ l₁ ++ l₂ ∧ (s.cancel callId).Inv base l₁' l₂' ∧
        ∃ t, s.cancel callId = Reaping.fail t a callCancelled true false ∧ t.made = s.made ∧
          t.outcomes = s.outcomes := by
  unfold Reaping.cancel
  unfold cancels at hclear
  dsimp only
  have hseek := h.holds.seek (fun a => (s.cells a).callId == callId) h.length_le
  rcases hseek with ⟨m₁, a, m₂, hl, -, -, hs⟩ | ⟨-, hs⟩
  · have hfind : s.findPending callId = (m₁ ++ [a], some m₁.getLast?) := hs
    have htarget : s.links.target m₁.getLast? = some a := by
      have hh := h.holds
      rw [hl] at hh
      exact hh.target_mid.1
    have hmem : ∀ b ∈ m₁ ++ [a], b ∈ l₁ ++ l₂ := by
      intro b hb
      rw [hl]
      rcases List.mem_append.mp hb with hb | hb
      · exact List.mem_append_left _ hb
      · exact List.mem_append_right _ (List.mem_singleton.mp hb ▸ List.mem_cons_self)
    rw [hfind] at hclear ⊢
    rw [touch_eq fun b hb => (h.live b (hmem b hb)).2.1]
    dsimp only
    rw [htarget]
    dsimp only
    split
    next hq =>
      have hpos : s.pos ≠ some a := by
        refine hclear a ?_
        rw [Option.bind_some, htarget, Option.filter_some, if_pos hq]
      have hne : ∀ m, l₁ ≠ m ++ [a] := by
        intro m hm
        rw [h.pos, hm, List.getLast?_concat] at hpos
        exact hpos rfl
      have ha : a ∈ l₁ ++ l₂ := hmem a (List.mem_append_right _ (List.mem_singleton_self a))
      refine Or.inr ⟨a, ?_⟩
      -- on which side of the pass the entry is
      rcases List.append_eq_append_iff.mp hl with ⟨c, hm₁, hl₂⟩ | ⟨c, hl₁, hc⟩
      · refine ⟨l₁, c ++ m₂, ha, ?_, _, rfl, rfl, rfl⟩
        refine h.fail hl ?_ h.pos (fun _ hb => hb) hover callCancelled true
          (fun hby => Bool.noConfusion hby)
        rw [hm₁, List.append_assoc]
      · cases c with
        | nil =>
          rw [List.append_nil] at hl₁
          refine ⟨l₁, m₂, ha, ?_, _, rfl, rfl, rfl⟩
          refine h.fail hl ?_ h.pos (fun _ hb => hb) hover callCancelled true
            (fun hby => Bool.noConfusion hby)
          rw [hl₁]
        | cons x c =>
          obtain ⟨rfl, hm₂⟩ := List.cons.inj hc
          have hcne : c ≠ [] := by
            intro hc
            rw [hc] at hl₁
            exact hne m₁ hl₁
          refine ⟨m₁ ++ c, l₂, ha, ?_, _, rfl, rfl, rfl⟩
          refine h.fail hl ?_ ?_ ?_ hover callCancelled true (fun hby => Bool.noConfusion hby)
          · rw [hm₂]
            exact List.append_assoc m₁ c l₂
          · rw [h.pos, hl₁, List.getLast?_append, List.getLast?_append]
            obtain ⟨y, c', hc'⟩ := List.exists_cons_of_ne_nil hcne
            rw [hc', List.getLast?_cons_cons]
          · intro b hb
            rw [hl₁]
            rcases List.mem_append.mp hb with hb | hb
            · exact List.mem_append_left _ hb
            · exact List.mem_append_right _ (List.mem_cons_of_mem a hb)
    next => exact Or.inl rfl
  · have hfind : s.findPending callId = (l₁ ++ l₂, none) := hs
    rw [hfind, touch_eq fun b hb => (h.live b hb).2.1]
    exact Or.inl rfl

/-- A callback that is back. -/
theorem Inv.return (h : s.Inv base l₁ l₂) {f : Frame} {rest : List Frame}
    (hs : s.stack = f :: rest) :
    Inv base { s with stack := rest } l₁ l₂ ∧ (Reaping.free { s with stack := rest } f.cell).Inv base
      l₁ l₂ := by
  have hmem : ∀ g ∈ rest, g ∈ s.stack := by
    intro g hg
    rw [hs]
    exact List.mem_cons_of_mem f hg
  have hf := h.frames f (by rw [hs]; exact List.mem_cons_self)
  have hn := h.stack
  rw [hs, List.map_cons, List.nodup_cons] at hn
  have hpop : Inv base { s with stack := rest } l₁ l₂ :=
    { h with frames := fun g hg => h.frames g (hmem g hg), stack := hn.2 }
  refine ⟨hpop, ?_⟩
  have htouch : Reaping.touch { s with stack := rest } [f.cell] = { s with stack := rest } :=
    touch_eq fun b hb => by
      rw [List.mem_singleton.mp hb]
      exact hf.2
  unfold Reaping.free
  rw [htouch]
  refine { hpop with live := ?_, freed := ?_, frames := ?_ }
  · intro b hb
    obtain ⟨h1, h2, h3⟩ := h.live b hb
    refine ⟨h1, ?_, h3⟩
    show b ∉ f.cell :: s.freed
    rw [List.mem_cons, not_or]
    exact ⟨fun hbf => h3 (hbf ▸ hf.1), h2⟩
  · intro b hb
    rcases List.mem_cons.mp hb with rfl | hb
    · exact h.failed _ hf.1
    · exact h.freed b hb
  · intro g hg
    obtain ⟨h1, h2⟩ := h.frames g (hmem g hg)
    refine ⟨h1, ?_⟩
    show g.cell ∉ f.cell :: s.freed
    rw [List.mem_cons, not_or]
    exact ⟨fun hgf => hn.1 (List.mem_map.mpr ⟨g, hg, hgf⟩), h2⟩

/-- A turn of the pass: it ends, leaves the next entry in, or fails it. -/
theorem Inv.turn (h : s.Inv base l₁ l₂) (hover : s.over = false) :
    (l₂ = [] ∧ s.turn = { s with «over» := true } ∧ s.turn.Inv base l₁ []) ∨
      ∃ a m, l₂ = a :: m ∧
        ((s.turn.Inv base (l₁ ++ [a]) m ∧ s.turn.stack = s.stack ∧ s.turn.made = s.made ∧
            s.turn.outcomes = s.outcomes) ∨
          (s.turn.Inv base l₁ m ∧ ∃ t st park, s.turn = Reaping.fail t a st park true ∧
            t.made = s.made ∧ t.outcomes = s.outcomes)) := by
  have hpos : ∀ b ∈ s.pos.toList, b ∉ s.freed := by
    intro b hb
    rw [h.pos] at hb
    have hbl : b ∈ l₁ := List.mem_of_getLast? (Option.mem_toList.mp hb)
    exact (h.live b (List.mem_append_left _ hbl)).2.1
  unfold Reaping.turn
  rw [touch_eq hpos]
  dsimp only
  cases l₂ with
  | nil =>
    have hend : s.links.target s.pos = none := by
      have hh := h.holds
      rw [List.append_nil] at hh
      rw [h.pos]
      exact hh.end
    rw [hend]
    dsimp only
    -- a looping pass ends on an empty list alone
    have hhead : ¬ (s.pass = .loop ∧ s.links.head ≠ none) := by
      rintro ⟨hloop, hne⟩
      have hh := h.holds
      rw [h.loop hloop] at hh
      exact hne hh
    unfold finish
    rw [if_neg hhead]
    exact Or.inl ⟨rfl, rfl, { h with «over» := fun _ => rfl }⟩
  | cons a m =>
    have hmid := h.holds.target_mid
    rw [h.pos, hmid.1]
    dsimp only
    have ha : a ∈ l₁ ++ a :: m := List.mem_append_right _ List.mem_cons_self
    rw [touch_eq (l := [a]) fun b hb => by
      rw [List.mem_singleton.mp hb]
      exact (h.live a ha).2.1]
    refine Or.inr ⟨a, m, rfl, ?_⟩
    split
    next hsel =>
      have hfail := h.fail rfl rfl h.pos (fun _ hb => hb) hover (s.pass.status (s.cells a))
        s.pass.parks (fun _ : true = true => hsel)
      rw [← h.pos] at hfail
      exact Or.inr ⟨hfail, _, _, _, rfl, rfl, rfl⟩
    next hsel =>
      refine Or.inl ⟨?_, rfl, rfl, rfl⟩
      have happ : l₁ ++ [a] ++ m = l₁ ++ a :: m := by
        rw [List.append_assoc]
        rfl
      refine { h with holds := ?_, nodup := ?_, pos := ?_, live := ?_, left := ?_, known := ?_,
                      loop := ?_, «over» := ?_ }
      · rw [happ]
        exact h.holds
      · rw [happ]
        exact h.nodup
      · rw [List.getLast?_concat]
      · rw [happ]
        exact h.live
      · intro b hb hbase
        rcases List.mem_append.mp hb with hb | hb
        · exact h.left b hb hbase
        · rw [List.mem_singleton.mp hb]
          exact Bool.not_eq_true _ ▸ hsel
      · rw [happ]
        exact h.known
      · intro hloop
        have hloop' : s.pass = .loop := hloop
        rw [hloop'] at hsel
        exact absurd rfl hsel
      · intro hyes
        exact absurd (hover.symm.trans hyes) Bool.false_ne_true

/-! ## Runs -/

/-- The condition of a step: no callback cancels the queued entry the pass stands on. -/
def Clear (s : Reaping) : Prop :=
  ∀ f rest callId acts, s.stack = f :: rest → f.acts = .cancel callId :: acts →
    ∀ a, s.cancels callId = some a → s.pos ≠ some a

/-- What is still to be done without another outcome. -/
def acts (s : Reaping) : Nat := (s.stack.map fun f => f.acts.length).sum

@[simp] theorem outcomes_fail (s : Reaping) (a : Nat) (st : UInt8) (park byPass : Bool) :
    (s.fail a st park byPass).outcomes =
      s.outcomes ++ [{ cell := a, status := st, byPass := byPass }] := by
  unfold Reaping.fail
  dsimp only
  split
  next => rfl
  next => split <;> rfl

theorem made_fail (s : Reaping) (a : Nat) (st : UInt8) (park byPass : Bool) :
    (s.fail a st park byPass).made = s.made := by
  unfold Reaping.fail
  dsimp only
  split
  next => rfl
  next => split <;> rfl

/-- A step keeps the invariant, and is one of: an outcome more; the same outcomes and less to do
in the callbacks; the same to do and a callback less; a turn that moves on; the end. -/
theorem Inv.step (h : s.Inv base l₁ l₂) (hover : s.over = false) (hclear : s.Clear) :
    ∃ l₁' l₂', s.step.Inv base l₁' l₂' ∧ s.made ≤ s.step.made ∧
      (s.step.outcomes.length = s.outcomes.length + 1 ∨
        s.step.outcomes = s.outcomes ∧
          (s.step.acts < s.acts ∨
            s.step.acts = s.acts ∧
              (s.step.stack.length < s.stack.length ∨
                s.step.stack.length = s.stack.length ∧
                  (l₂'.length < l₂.length ∨ s.step.over = true)))) := by
  unfold Reaping.step
  rw [if_neg (by rw [hover]; exact Bool.false_ne_true)]
  -- no callback runs: the pass itself moves
  cases hs : s.stack with
  | nil =>
    dsimp only
    rcases h.turn hover with ⟨hnil, heq, hinv⟩ | ⟨a, m, rfl, ⟨hinv, hst, hm, ho⟩ | ⟨hinv, t, st, park,
      heq, hm, ho⟩⟩
    · refine ⟨l₁, [], hinv, ?_, Or.inr ?_⟩
      · rw [heq]
      · rw [heq]
        exact ⟨rfl, Or.inr ⟨rfl, Or.inr ⟨congrArg List.length hs, Or.inr rfl⟩⟩⟩
    · refine ⟨l₁ ++ [a], m, hinv, Nat.le_of_eq hm.symm, Or.inr ⟨ho, Or.inr ⟨?_, Or.inr ⟨?_, ?_⟩⟩⟩⟩
      · unfold acts
        rw [hst]
      · rw [hst, hs]
      · exact Or.inl (Nat.lt_succ_self _)
    · refine ⟨l₁, m, hinv, ?_, Or.inl ?_⟩
      · rw [heq, made_fail, hm]
      · rw [heq, outcomes_fail, ho, List.length_append]
        rfl
  | cons f rest =>
    dsimp only
    have hacts : s.acts = f.acts.length + (rest.map fun f => f.acts.length).sum := by
      unfold acts
      rw [hs]
      rfl
    -- the innermost callback returns, or makes its next act
    cases hf : f.acts with
    | nil =>
      rw [hf] at hacts
      obtain ⟨hpop, hfree⟩ := h.return hs
      have hless : rest.length < (f :: rest).length := Nat.lt_succ_self _
      dsimp only
      split
      next =>
        refine ⟨l₁, l₂, hpop, Nat.le_refl _, Or.inr ⟨rfl, Or.inr ⟨?_, Or.inl hless⟩⟩⟩
        rw [hacts]
        exact (Nat.zero_add _).symm
      next =>
        refine ⟨l₁, l₂, hfree, Nat.le_refl _, Or.inr ⟨rfl, Or.inr ⟨?_, Or.inl hless⟩⟩⟩
        rw [hacts]
        exact (Nat.zero_add _).symm
    | cons x acts' =>
      -- the act leaves the callback's list, and the rest as it is
      have hpart : Inv base { s with stack := { f with acts := acts' } :: rest } l₁ l₂ := by
        refine { h with frames := ?_, stack := ?_ }
        · intro g hg
          rcases List.mem_cons.mp hg with rfl | hg
          · exact h.frames f (by rw [hs]; exact List.mem_cons_self)
          · exact h.frames g (by rw [hs]; exact List.mem_cons_of_mem f hg)
        · have hn := h.stack
          rw [hs] at hn
          exact hn
      have hless : Reaping.acts { s with stack := { f with acts := acts' } :: rest } < s.acts := by
        rw [hacts, hf]
        show acts'.length + (rest.map fun f => f.acts.length).sum < _
        rw [List.length_cons]
        omega
      dsimp only
      cases x with
      | call dest deadlineUs queued kept =>
        obtain ⟨hkept, hgone⟩ := hpart.call hover dest deadlineUs queued
        cases kept with
        | true =>
          exact ⟨_, _, hkept, Nat.le_succ _, Or.inr ⟨rfl, Or.inl hless⟩⟩
        | false =>
          exact ⟨_, _, hgone, Nat.le_succ _, Or.inr ⟨rfl, Or.inl hless⟩⟩
      | cancel callId =>
        rcases hpart.cancel hover (hclear f rest callId acts' hs hf) with heq | ⟨a, l₁', l₂', -, hinv,
          t, heq, hm, ho⟩
        · refine ⟨l₁, l₂, ?_, ?_, Or.inr ⟨?_, Or.inl ?_⟩⟩
          · show (Reaping.cancel _ callId).Inv base l₁ l₂
            rw [heq]
            exact hpart
          · show s.made ≤ (Reaping.cancel _ callId).made
            rw [heq]
          · show (Reaping.cancel _ callId).outcomes = _
            rw [heq]
          · show (Reaping.cancel _ callId).acts < _
            rw [heq]
            exact hless
        · refine ⟨l₁', l₂', hinv, ?_, Or.inl ?_⟩
          · show s.made ≤ (Reaping.cancel _ callId).made
            rw [heq, made_fail, hm]
          · show (Reaping.cancel _ callId).outcomes.length = _
            rw [heq, outcomes_fail, ho, List.length_append]
            rfl

end

theorem after_step (s : Reaping) (n : Nat) : s.after (n + 1) = (s.after n).step :=
  Function.iterate_succ_apply' step n s

theorem step_over {s : Reaping} (h : s.over = true) : s.step = s := by
  unfold Reaping.step
  rw [if_pos h]

/-- A pass that is over stays as it is. -/
theorem after_over {s : Reaping} {n : Nat} (h : (s.after n).over = true) : ∀ m, s.after (n + m) = s.after n
  | 0 => rfl
  | m + 1 => by
    rw [← Nat.add_assoc, after_step, after_over h m, step_over h]

/-- Along a run every cancel of which is clear, the invariant holds. -/
theorem Inv.after {base : Nat} {s : Reaping} {l₁ l₂ : List Nat} (h : s.Inv base l₁ l₂)
    (hclear : ∀ n, (s.after n).Clear) :
    ∀ n, ∃ l₁' l₂', (s.after n).Inv base l₁' l₂'
  | 0 => ⟨l₁, l₂, h⟩
  | n + 1 => by
    obtain ⟨m₁, m₂, hn⟩ := h.after hclear n
    rw [after_step]
    cases hover : (s.after n).over with
    | true =>
      rw [step_over hover]
      exact ⟨m₁, m₂, hn⟩
    | false =>
      obtain ⟨l₁', l₂', hinv, -⟩ := hn.step hover (hclear n)
      exact ⟨l₁', l₂', hinv⟩

/-- Every outcome is of a cell of its own. -/
theorem Inv.outcomes_le {base : Nat} {s : Reaping} {l₁ l₂ : List Nat} (h : s.Inv base l₁ l₂) : s.outcomes.length ≤ s.made := by
  have hsub : (s.outcomes.map Outcome.cell).Subperm (List.range s.made) :=
    h.once.subperm fun a ha => List.mem_range.mpr (h.failed a ha)
  have hlen := hsub.length_le
  rwa [List.length_map, List.length_range] at hlen

/-- Where the callbacks make so many calls and no more, the pass ends. -/
theorem Inv.ends {base B : Nat} {s : Reaping} {l₁ l₂ : List Nat} (h : s.Inv base l₁ l₂)
    (hclear : ∀ n, (s.after n).Clear) (hB : ∀ n, (s.after n).made ≤ B) :
    ∃ n, (s.after n).over = true := by
  cases hover : s.over with
  | true => exact ⟨0, hover⟩
  | false =>
    obtain ⟨l₁', l₂', hinv, -, hless⟩ := h.step hover (hclear 0)
    cases hover' : s.step.over with
    | true => exact ⟨1, hover'⟩
    | false =>
      have hcount : s.step.outcomes.length ≤ B := Nat.le_trans hinv.outcomes_le (hB 1)
      obtain ⟨n, hn⟩ := Inv.ends (B := B) hinv (fun n => hclear (n + 1)) (fun n => hB (n + 1))
      exact ⟨n + 1, hn⟩
termination_by (B - s.outcomes.length, s.acts, s.stack.length, l₂.length)
decreasing_by
  rcases hless with hone | ⟨ho, hacts | ⟨hacts, hst | ⟨hst, hlen | hend⟩⟩⟩
  · exact Prod.Lex.left _ _ (by omega)
  · rw [ho]
    exact Prod.Lex.right _ (Prod.Lex.left _ _ hacts)
  · rw [ho, hacts]
    exact Prod.Lex.right _ (Prod.Lex.right _ (Prod.Lex.left _ _ hst))
  · rw [ho, hacts, hst]
    exact Prod.Lex.right _ (Prod.Lex.right _ (Prod.Lex.right _ hlen))
  · exact absurd (hover'.symm.trans hend) Bool.false_ne_true

section

variable {base : Nat} {s : Reaping} {l₁ l₂ : List Nat}

theorem Inv.made_mono (h : s.Inv base l₁ l₂) (hclear : ∀ n, (s.after n).Clear) (n : Nat) :
    ∀ m, (s.after n).made ≤ (s.after (n + m)).made
  | 0 => Nat.le_refl _
  | m + 1 => by
    refine Nat.le_trans (h.made_mono hclear n m) ?_
    rw [← Nat.add_assoc, after_step]
    cases hover : (s.after (n + m)).over with
    | true => rw [step_over hover]
    | false =>
      obtain ⟨_, _, hinv⟩ := h.after hclear (n + m)
      obtain ⟨_, _, -, hle, -⟩ := hinv.step hover (hclear (n + m))
      exact hle

/-- A pass that ends had so many calls made in it and no more. -/
theorem Inv.bounded (h : s.Inv base l₁ l₂) (hclear : ∀ n, (s.after n).Clear)
    (hend : ∃ n, (s.after n).over = true) : ∃ B, ∀ n, (s.after n).made ≤ B := by
  obtain ⟨k, hk⟩ := hend
  refine ⟨(s.after k).made, fun n => ?_⟩
  rcases Nat.le_total n k with hle | hle
  · obtain ⟨m, rfl⟩ := Nat.exists_eq_add_of_le hle
    exact h.made_mono hclear n m
  · obtain ⟨m, rfl⟩ := Nat.exists_eq_add_of_le hle
    rw [after_over hk m]

end

/-! ## What a pass does not change -/

/-- The pass is the same, and so is every entry there was. -/
structure Keeps (s t : Reaping) : Prop where
  pass : t.pass = s.pass
  made : s.made ≤ t.made
  cells : ∀ a, a < s.made → t.cells a = s.cells a

theorem Keeps.trans {s t u : Reaping} (h : s.Keeps t) (h' : t.Keeps u) : s.Keeps u :=
  ⟨h'.pass.trans h.pass, Nat.le_trans h.made h'.made,
    fun a ha => (h'.cells a (Nat.lt_of_lt_of_le ha h.made)).trans (h.cells a ha)⟩

theorem keeps_fail (s : Reaping) (a : Nat) (st : UInt8) (park byPass : Bool) :
    s.Keeps (s.fail a st park byPass) := by
  unfold Reaping.fail
  dsimp only
  split
  next => exact ⟨rfl, Nat.le_refl _, fun _ _ => rfl⟩
  next => split <;> exact ⟨rfl, Nat.le_refl _, fun _ _ => rfl⟩

theorem keeps_call (s : Reaping) (dest deadlineUs : Nat) (queued kept : Bool) :
    s.Keeps (s.call dest deadlineUs queued kept) := by
  unfold Reaping.call
  dsimp only
  split <;> exact ⟨rfl, Nat.le_succ _, fun a ha => if_neg (Nat.ne_of_lt ha)⟩

theorem keeps_cancel (s : Reaping) (callId : Nat) : s.Keeps (s.cancel callId) := by
  have hsame : s.Keeps (s.touch (s.findPending callId).1) :=
    ⟨rfl, Nat.le_refl _, fun _ _ => rfl⟩
  unfold Reaping.cancel
  dsimp only
  split
  next => exact hsame
  split
  next => exact hsame
  split
  next =>
    refine hsame.trans (Keeps.trans ?_ (keeps_fail ..))
    exact ⟨rfl, Nat.le_refl _, fun _ _ => rfl⟩
  next => exact hsame

theorem keeps_turn (s : Reaping) : s.Keeps s.turn := by
  have hsame : s.Keeps (s.touch s.pos.toList) := ⟨rfl, Nat.le_refl _, fun _ _ => rfl⟩
  unfold Reaping.turn
  dsimp only
  split
  next =>
    refine hsame.trans ?_
    unfold finish
    split <;> exact ⟨rfl, Nat.le_refl _, fun _ _ => rfl⟩
  next =>
    split
    next =>
      refine hsame.trans (Keeps.trans ?_ (keeps_fail ..))
      exact ⟨rfl, Nat.le_refl _, fun _ _ => rfl⟩
    next => exact ⟨rfl, Nat.le_refl _, fun _ _ => rfl⟩

theorem keeps_step (s : Reaping) : s.Keeps s.step := by
  unfold Reaping.step
  split
  next => exact ⟨rfl, Nat.le_refl _, fun _ _ => rfl⟩
  split
  next => exact keeps_turn s
  split
  next => split <;> exact ⟨rfl, Nat.le_refl _, fun _ _ => rfl⟩
  next x acts _ =>
    cases x with
    | call dest deadlineUs queued kept =>
      refine Keeps.trans ?_ (keeps_call ..)
      exact ⟨rfl, Nat.le_refl _, fun _ _ => rfl⟩
    | cancel callId =>
      refine Keeps.trans ?_ (keeps_cancel ..)
      exact ⟨rfl, Nat.le_refl _, fun _ _ => rfl⟩

theorem keeps_after (s : Reaping) : ∀ n, s.Keeps (s.after n)
  | 0 => ⟨rfl, Nat.le_refl _, fun _ _ => rfl⟩
  | n + 1 => by
    rw [after_step]
    exact (keeps_after s n).trans (keeps_step _)

/-! ## The property -/

/-- A pass, or the loops over it, tolerates what its callbacks do. `base` is how many calls were
pending at its start. -/
structure Tolerates (base : Nat) (s : Reaping) : Prop where
  ends : ∃ n, (s.after n).over = true
  /-- No freed entry is ever looked at. -/
  intact : ∀ n, (s.after n).fault = false
  /-- No call is failed twice, -/
  once : ∀ n, ((s.after n).outcomes.map Outcome.cell).Nodup
  /-- every one the pass selects is, -/
  failed : ∀ n, (s.after n).over = true → ∀ a, a < base → s.pass.selects (s.cells a) = true →
    a ∈ (s.after n).outcomes.map Outcome.cell
  /-- and the pass fails no other. -/
  own : ∀ n, ∀ o ∈ (s.after n).outcomes, o.byPass = true →
    s.pass.selects ((s.after n).cells o.cell) = true
  /-- The loops leave an empty list. -/
  emptied : s.pass = .loop → ∀ n, (s.after n).over = true → (s.after n).links.head = none

theorem Inv.tolerates {base : Nat} {s : Reaping} {l₁ l₂ : List Nat} (h : s.Inv base l₁ l₂)
    (hclear : ∀ n, (s.after n).Clear) (hend : ∃ n, (s.after n).over = true) : s.Tolerates base where
  ends := hend
  intact n := by
    obtain ⟨_, _, hn⟩ := h.after hclear n
    exact hn.intact
  once n := by
    obtain ⟨_, _, hn⟩ := h.after hclear n
    exact hn.once
  failed n hover a ha hsel := by
    obtain ⟨m₁, m₂, hn⟩ := h.after hclear n
    have hkeep := keeps_after s n
    rcases hn.known a ha with hmem | hmem
    · rw [hn.over hover, List.append_nil] at hmem
      have hleft := hn.left a hmem ha
      rw [hkeep.pass, hkeep.cells a (Nat.lt_of_lt_of_le ha h.base_le), hsel] at hleft
      cases hleft
    · exact hmem
  own n o ho hby := by
    obtain ⟨_, _, hn⟩ := h.after hclear n
    have hsel := hn.own o ho hby
    rw [(keeps_after s n).pass] at hsel
    exact hsel
  emptied hloop n hover := by
    obtain ⟨m₁, m₂, hn⟩ := h.after hclear n
    have hh := hn.holds
    rw [hn.over hover, hn.loop ((keeps_after s n).pass.trans hloop)] at hh
    exact hh

/-- The cells of the start, in a row. -/
theorem from_range (n : Nat) : ∀ m i, i + m = n →
    Links.From (fun a => if a + 1 < n then some (a + 1) else none)
      (if m = 0 then none else some i) (List.range' i m)
  | 0, _, _ => rfl
  | m + 1, i, h => by
    refine ⟨rfl, ?_⟩
    have ih := from_range n m (i + 1) (by omega)
    dsimp only
    by_cases hm : m = 0
    · rw [if_neg (by omega)]
      rw [if_pos hm] at ih
      exact ih
    · rw [if_pos (by omega)]
      rw [if_neg hm] at ih
      exact ih

theorem inv_start (pass : Pass) (queue : Bool) (script : Nat → List CallbackAct) (l : List Cell)
    (nextCallId : Nat) :
    (start pass queue script l nextCallId).Inv l.length [] (List.range' 0 l.length) where
  holds := by
    have h := from_range l.length l.length 0 (Nat.zero_add _)
    show Links.From _ (if l = [] then none else some 0) _
    by_cases hl : l = []
    · rw [if_pos hl]
      rw [if_pos (List.length_eq_zero_iff.mpr hl)] at h
      exact h
    · rw [if_neg hl]
      rw [if_neg fun h0 => hl (List.length_eq_zero_iff.mp h0)] at h
      exact h
  nodup := List.nodup_range'
  pos := rfl
  live a ha := by
    refine ⟨?_, List.not_mem_nil, List.not_mem_nil⟩
    have hlt := (List.mem_range'_1.mp ha).2
    rwa [Nat.zero_add] at hlt
  freed _ ha := absurd ha List.not_mem_nil
  failed _ ha := absurd ha List.not_mem_nil
  frames _ hf := absurd hf List.not_mem_nil
  stack := List.nodup_nil
  once := List.nodup_nil
  intact := rfl
  left _ ha := absurd ha List.not_mem_nil
  known a ha := Or.inl (List.mem_range'_1.mpr ⟨Nat.zero_le a, by rw [Nat.zero_add]; exact ha⟩)
  own _ ho := absurd ho List.not_mem_nil
  loop _ := rfl
  «over» h := Bool.noConfusion h
  base_le := Nat.le_refl _

/-- Of every list of pending calls, every pass over it and every behaviour of the callbacks that
never cancels the entry the pass stands on: it tolerates them exactly when they make so many
calls and no more. -/
theorem reap_tolerates_iff (pass : Pass) (queue : Bool) (script : Nat → List CallbackAct)
    (l : List Cell) (nextCallId : Nat)
    (hclear : ∀ n, ((start pass queue script l nextCallId).after n).Clear) :
    (start pass queue script l nextCallId).Tolerates l.length ↔
      ∃ B, ∀ n, ((start pass queue script l nextCallId).after n).made ≤ B := by
  have hinv := inv_start pass queue script l nextCallId
  constructor
  · intro h
    exact hinv.bounded hclear h.ends
  · rintro ⟨B, hB⟩
    exact hinv.tolerates hclear (hinv.ends hclear hB)

/-- Call 2 is past its deadline, and its callback makes another call and cancels call 1. -/
def recalling : Reaping :=
  start (.reap 10 callTimeout .expired 0 true) false
    (fun n => if n = 0 then [.call 0 20 true true, .cancel 1] else [])
    [⟨2, 7, 5, false, false⟩, ⟨1, 0, 100, true, false⟩] 3

theorem reap_tolerates_iff_recalling : recalling.Tolerates 2 := by
  have hover : (recalling.after 7).over = true := by decide +kernel
  have hsteps : ∀ m ≤ 7, (recalling.after m).made ≤ 3 ∧
      ((recalling.after m).pos = none ∨ (recalling.after m).stack = []) := by decide +kernel
  have hall : ∀ n, ∃ m ≤ 7, recalling.after n = recalling.after m := fun n =>
    (le_total n 7).elim (fun h => ⟨n, h, rfl⟩) fun h =>
      ⟨7, le_rfl, by rw [← Nat.add_sub_of_le h, after_over hover]⟩
  refine (reap_tolerates_iff _ _ _ [⟨2, 7, 5, false, false⟩, ⟨1, 0, 100, true, false⟩] 3
    fun n => ?_).mpr ⟨3, fun n => ?_⟩
  · obtain ⟨m, hm, heq⟩ := hall n
    intro f rest callId acts hstack _ a _
    rcases (hsteps m hm).2 with hpos | hnone
    · exact ((congrArg pos heq).trans hpos).trans_ne (Option.some_ne_none a).symm
    · cases (hnone.symm.trans (congrArg stack heq).symm).trans hstack
  · obtain ⟨m, hm, heq⟩ := hall n
    exact (congrArg made heq).trans_le (hsteps m hm).1

/-- Call 2 is queued and has time left, the older call 1 is past its deadline, and its callback
cancels call 2. The pass stands on call 2, which is freed, and reads its next. -/
theorem cancel_under_pass :
    ¬ (start (.reap 10 callTimeout .expired 0 true) false
      (fun n => if n = 0 then [.cancel 2] else [])
      [⟨2, 0, 100, true, false⟩, ⟨1, 7, 5, false, false⟩] 3).Tolerates 2 := by
  intro h
  have hintact := h.intact 6
  revert hintact
  decide +kernel

end Reaping

end Rant.Patterns
