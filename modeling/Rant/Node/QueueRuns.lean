import Rant.Node.QueuePush
/-!
# The ring over whole runs

A run keeps beside the ring what it stored and what left it. What was stored is what left and what is
held, in order (`Right`): each record comes out whole, once, in the order of the pushes. A step is
`StepRight` where a push gave up nothing there was room for and a viewed record stayed where it was.
Every step is, in a run whose pushes do not meet the skewed state (`ring_runs`).
-/

namespace Rant.Node

open Rant.Lib

namespace MsgQueue

variable {q : MsgQueue} {r : QBytes} {rs : List QBytes}

theorem peek_fields (q : MsgQueue) : q.peek.cap = q.cap ∧ q.peek.viewing = q.viewing := by
  unfold peek
  split
  · exact ⟨rfl, rfl⟩
  · exact ⟨rfl, rfl⟩

/-- A record that is out holds the tail. -/
theorem viewed_norm (h : Held q rs) (hview : q.viewing = true) : q.norm q.tail = q.tail := by
  unfold norm
  rw [(h.viewed hview).2]
  rfl

/-- A view released keeps what is held. -/
theorem Held.unviewed (h : Held q rs) : Held { q with viewing := false } rs :=
  h.reflag q.dropped q.parked false fun hv => absurd hv Bool.false_ne_true

/-- The oldest record goes out. -/
theorem view_held (h : Held q (r :: rs)) : Held { q.peek with viewing := true } (r :: rs) :=
  (peek_held h).reflag q.peek.dropped q.peek.parked true fun _ =>
    ⟨List.cons_ne_nil _ _, @wrapsAt_placed q.peek r q.peek.tail (peek_tail h) (h.recs r List.mem_cons_self)⟩

end MsgQueue

open MsgQueue (Held Offered PushedRight Skewed Room)

/-- What was stored is what left and what is held, each record once and in order, and the counts of
the ring are those of what it holds. -/
structure QueueRun.Right (s : QueueRun) : Prop where
  ordered : s.accepted = s.gone ++ s.q.records
  counted : s.q.count = s.q.records.length
  summed : s.q.bytes = (s.q.records.map List.length).sum

/-- What one event does. A push ends, gives up only what there is no room for beside the records held
and no growth for, oldest first and never the viewed one, stores the record whole and in the last
place, and reports what it dropped. A record that stays out stays where it is, byte by byte. -/
structure QueueRun.StepRight (s : QueueRun) (op : QueueOp) (s' : QueueRun) : Prop where
  pushed : ∀ p grants junk, op = .push p grants junk → ∃ out n, s.q.push p grants junk = some out ∧
    Offered p grants junk 0 [] s.q out ∧ PushedRight p s.q s.q.records [] out n
  viewed : s.q.viewing = true → s'.q.viewing = true →
    s'.q.cap = s.q.cap ∧ s'.q.tail = s.q.tail ∧ s'.q.oldest = s.q.oldest

/-- The size of a pushed record has 32 bits, and a push that finds the ring skewed can grow it. -/
def QueueOp.Meets (q : MsgQueue) (op : QueueOp) : Prop :=
  ∀ p grants junk, op = .push p grants junk → p.Sized ∧
    (Skewed q p.need → (q.grow ((q.bytes + p.need) % 2 ^ 32) p.need (grants 0) junk).isSome = true)

/-- A run whose events all meet the condition. -/
def QueueRun.Fair : QueueRun → List QueueOp → Prop
  | _, [] => True
  | s, op :: ops => op.Meets s.q ∧ ∀ s', s.step op = some s' → QueueRun.Fair s' ops

/-- A run with every state and every step right. -/
def QueueRun.Follows : QueueRun → List QueueOp → Prop
  | s, [] => s.Right
  | s, op :: ops => s.Right ∧ ∃ s', s.step op = some s' ∧ s.StepRight op s' ∧ QueueRun.Follows s' ops

/-- What a run keeps. -/
structure QueueRun.Kept (s : QueueRun) (rs : List QBytes) : Prop where
  held : Held s.q rs
  ordered : s.accepted = s.gone ++ rs
  bounded : s.q.cap < 2 ^ 32

namespace QueueRun

variable {s : QueueRun} {rs : List QBytes}

theorem Kept.right (h : s.Kept rs) : s.Right := by
  have hrecords := h.held.records
  refine ⟨hrecords ▸ h.ordered, hrecords ▸ h.held.count, ?_⟩
  rw [hrecords, h.held.bytes, List.length_flatten]

/-- A push keeps the books whether it stores, evicts, parks or refuses. -/
theorem Kept.push {p : QPut} {grants : Nat → Bool} {junk : Nat → UInt8} (h : s.Kept rs)
    (hmeets : QueueOp.Meets s.q (.push p grants junk)) :
    ∃ s' rs', s.step (.push p grants junk) = some s' ∧ s.StepRight (.push p grants junk) s' ∧ s'.Kept rs' := by
  obtain ⟨hsized, hclear⟩ := hmeets p grants junk rfl
  obtain ⟨out, hout, ho⟩ := MsgQueue.pushFrom_offered hsized grants junk (2 ^ 32 + s.q.count + 1) 0 [] s.q rs
    h.held h.bounded (by omega) hclear
  obtain ⟨n, hn⟩ := ho.right hsized h.held
  refine ⟨_, _, congrArg (Option.map _) hout, ⟨fun p' grants' junk' heq => ?_, fun hv hv' => ?_⟩, hn.held, ?_,
    hn.bounded h.bounded⟩
  · obtain ⟨rfl, rfl, rfl⟩ := QueueOp.push.inj heq
    exact ⟨out, n, hout, ho, h.held.records.symm ▸ hn⟩
  · obtain ⟨rfl, htail, hcap⟩ := hn.pinned hv
    refine ⟨hcap, htail, ?_⟩
    obtain ⟨hne, -⟩ := h.held.viewed hv
    cases rs with
    | nil => exact absurd rfl hne
    | cons r rs => exact hn.held.oldest.trans h.held.oldest.symm
  · show s.accepted ++ out.stored.toList = (s.gone ++ out.evicted) ++ (rs.drop n ++ out.stored.toList)
    rw [h.ordered, hn.evicted, List.nil_append, ← List.append_assoc, List.append_assoc s.gone,
      List.append_assoc s.gone, List.take_append_drop]
    exact (List.append_assoc ..).symm

/-- So does every operation. -/
theorem Kept.step (h : s.Kept rs) {op : QueueOp} (hmeets : op.Meets s.q) :
    ∃ s' rs', s.step op = some s' ∧ s.StepRight op s' ∧ s'.Kept rs' := by
  -- an operation that pushes nothing owes the viewed record alone
  have hother : ∀ {op : QueueOp} {s' : QueueRun}, (∀ p grants junk, op ≠ .push p grants junk) →
      (s.q.viewing = true → s'.q.viewing = true →
        s'.q.cap = s.q.cap ∧ s'.q.tail = s.q.tail ∧ s'.q.oldest = s.q.oldest) → s.StepRight op s' :=
    fun hne hv => ⟨fun p grants junk heq => absurd heq (hne p grants junk), hv⟩
  cases op with
  | push p grants junk => exact h.push hmeets
  | peek =>
    have hpeek := MsgQueue.peek_held h.held
    obtain ⟨hcap, hviewing⟩ := MsgQueue.peek_fields s.q
    refine ⟨_, rs, rfl, hother (fun _ _ _ heq => QueueOp.noConfusion heq) fun hv _ => ⟨hcap, ?_, ?_⟩, hpeek,
      h.ordered, hcap.symm ▸ h.bounded⟩
    · show s.q.peek.tail = s.q.tail
      unfold MsgQueue.peek
      split
      · rfl
      · exact MsgQueue.viewed_norm h.held hv
    · obtain ⟨hne, -⟩ := h.held.viewed hv
      cases rs with
      | nil => exact absurd rfl hne
      | cons r rs => exact hpeek.oldest.trans h.held.oldest.symm
  | view =>
    dsimp only [QueueRun.step]
    split
    · exact ⟨s, rs, rfl, hother (fun _ _ _ heq => QueueOp.noConfusion heq) fun _ _ => ⟨rfl, rfl, rfl⟩, h⟩
    · rename_i hfree
      rw [not_or, Bool.not_eq_true] at hfree
      obtain ⟨hview, hcount⟩ := hfree
      cases rs with
      | nil => exact absurd h.held.count hcount
      | cons r rs =>
        exact ⟨_, _, rfl, hother (fun _ _ _ heq => QueueOp.noConfusion heq)
          fun hv => absurd (hview.symm.trans hv) Bool.false_ne_true, MsgQueue.view_held h.held, h.ordered,
          show s.q.peek.cap < 2 ^ 32 from (MsgQueue.peek_fields s.q).1.symm ▸ h.bounded⟩
  | release =>
    dsimp only [QueueRun.step, MsgQueue.release]
    cases hview : s.q.viewing with
    | false =>
      refine ⟨_, rs, rfl, hother (fun _ _ _ heq => QueueOp.noConfusion heq) fun hv => ?_, h.held, ?_, h.bounded⟩
      · exact absurd (hview.symm.trans hv) Bool.false_ne_true
      · exact h.ordered.trans (congrArg (· ++ rs) (List.append_nil s.gone).symm)
    | true =>
      obtain ⟨hne, -⟩ := h.held.viewed hview
      cases rs with
      | nil => exact absurd rfl hne
      | cons r rs =>
        have hpop := MsgQueue.pop_held h.held.unviewed rfl
        refine ⟨_, rs, rfl, hother (fun _ _ _ heq => QueueOp.noConfusion heq) fun _ hv' => ?_, hpop, ?_, ?_⟩
        · have hviewing := (MsgQueue.pop_fields { s.q with viewing := false }).2.2.1
          exact absurd (hviewing.symm.trans hv') Bool.false_ne_true
        · show s.accepted = s.gone ++ [s.q.oldest] ++ rs
          rw [h.held.oldest, List.append_assoc]
          exact h.ordered
        · exact (MsgQueue.pop_cap { s.q with viewing := false }).symm ▸ h.bounded
  | retried still =>
    exact ⟨_, rs, rfl, hother (fun _ _ _ heq => QueueOp.noConfusion heq) fun _ _ => ⟨rfl, rfl, rfl⟩,
      h.held.flags s.q.dropped still, h.ordered, h.bounded⟩
  | drop =>
    dsimp only [QueueRun.step]
    split
    · exact ⟨s, rs, rfl, hother (fun _ _ _ heq => QueueOp.noConfusion heq) fun _ _ => ⟨rfl, rfl, rfl⟩, h⟩
    · rename_i hfree
      rw [not_or, Bool.not_eq_true] at hfree
      obtain ⟨hview, hcount⟩ := hfree
      cases rs with
      | nil =>
        rw [h.held.count] at hcount
        exact absurd (Nat.zero_le 1) hcount
      | cons r rs =>
        refine ⟨_, rs, rfl, hother (fun _ _ _ heq => QueueOp.noConfusion heq)
          fun hv => absurd (hview.symm.trans hv) Bool.false_ne_true, MsgQueue.pop_held h.held hview, ?_, ?_⟩
        · show s.accepted = s.gone ++ [s.q.oldest] ++ rs
          rw [h.held.oldest, List.append_assoc]
          exact h.ordered
        · exact (MsgQueue.pop_cap s.q).symm ▸ h.bounded

/-- So does every run of them. -/
theorem Kept.follows (ops : List QueueOp) : ∀ {s : QueueRun} {rs : List QBytes}, s.Kept rs → s.Fair ops →
    s.Follows ops := by
  induction ops with
  | nil => exact fun h _ => h.right
  | cons op ops ih =>
    intro s rs h hfair
    obtain ⟨s', rs', hstep, hright, hkept⟩ := h.step hfair.1
    exact ⟨h.right, s', hstep, hright, ih hkept (hfair.2 s' hstep)⟩

/-- A ring as `i_rant_node_queue_ensure` makes it. -/
def fresh (buf : QBytes) (limit : Nat) (reliable silent : Bool) : QueueRun :=
  { q := { buf := buf, capLimit := limit, reliable := reliable, silent := silent } }

/-- In a run from a fresh ring whose pushes do not meet the skewed state, every state and every step
is right. -/
theorem ring_runs (buf : QBytes) (limit : Nat) (reliable silent : Bool) (hbuf : buf.length < 2 ^ 32)
    (ops : List QueueOp) (hfair : (fresh buf limit reliable silent).Fair ops) :
    (fresh buf limit reliable silent).Follows ops :=
  @Kept.follows ops (fresh buf limit reliable silent) []
    ⟨⟨rfl, rfl, fun _ h => absurd h List.not_mem_nil, Or.inl rfl, fun hv => absurd hv Bool.false_ne_true⟩, rfl, hbuf⟩
    hfair

instance (q : MsgQueue) (need : Nat) : Decidable (Skewed q need) :=
  inferInstanceAs (Decidable (∃ top ∈ q.wrapFrom q.count q.tail, _))

instance (q : MsgQueue) : (op : QueueOp) → Decidable (op.Meets q)
  | .push p grants junk =>
    decidable_of_iff (p.payloadOff + (p.hdr.length + p.data.length) + 7 < 2 ^ 32 ∧ (Skewed q p.need →
        (q.grow ((q.bytes + p.need) % 2 ^ 32) p.need (grants 0) junk).isSome = true))
      ⟨fun h p' grants' junk' heq => by
        obtain ⟨rfl, rfl, rfl⟩ := QueueOp.push.inj heq
        exact h, fun h => h p grants junk rfl⟩
  | .peek | .view | .release | .retried .. | .drop => .isTrue fun _ _ _ heq => QueueOp.noConfusion heq

instance decFair : ∀ (ops : List QueueOp) (s : QueueRun), Decidable (s.Fair ops)
  | [], _ => .isTrue trivial
  | op :: ops, s =>
    have := decFair ops
    inferInstanceAs (Decidable (op.Meets s.q ∧ ∀ s' ∈ s.step op, QueueRun.Fair s' ops))

/-- A push of zeros that finds no memory to grow. -/
def pushes (n : Nat) : QueueOp := .push { data := List.replicate n 0 } (fun _ => false) fun _ => 0

/-- On a ring of 200 the third message wraps, the fourth drops the oldest, and the last comes while
the oldest is out. -/
theorem ring_runs_one : (fresh (List.replicate 200 0) 200 false false).Follows
    [pushes 56, pushes 8, .view, .release, pushes 56, pushes 8, .view, pushes 8, .release] :=
  ring_runs _ _ _ _ (by rw [List.length_replicate]; decide) _ (by decide +kernel)

/-- The events one after the other. -/
def runs : QueueRun → List QueueOp → Option QueueRun
  | s, [] => some s
  | s, op :: ops => (s.step op).bind fun s' => runs s' ops

/-- A run is right up to its last step. -/
theorem Follows.last {op : QueueOp} : ∀ {ops : List QueueOp} {s : QueueRun}, s.Follows (ops ++ [op]) →
    ∃ s₁ s₂, s.runs ops = some s₁ ∧ s₁.StepRight op s₂
  | [], s, h => by
    obtain ⟨-, s', -, hright, -⟩ := h
    exact ⟨s, s', rfl, hright⟩
  | _ :: _, s, h => by
    obtain ⟨-, s', hstep, -, hrest⟩ := h
    obtain ⟨s₁, s₂, hruns, hright⟩ := hrest.last
    refine ⟨s₁, s₂, ?_, hright⟩
    unfold runs
    rw [hstep]
    exact hruns

/-- Where the tail still stands at the wrap, a reliable ring refuses a record there is room for. -/
theorem room_refused : ¬∀ ops : List QueueOp, (fresh (List.replicate 200 0) 200 true false).Follows ops := by
  intro hall
  have hlast := (hall ([pushes 56, pushes 8, .view, .release, pushes 56, .view, .release] ++ [pushes 24])).last
  obtain ⟨s₁, s₂, hruns, hright⟩ := hlast
  have hfacts : ((fresh (List.replicate 200 0) 200 true false).runs
      [pushes 56, pushes 8, .view, .release, pushes 56, .view, .release]).map
      (fun s => (s.q.reliable, (s.q.fit 64).isSome,
        (s.q.grow ((s.q.bytes + 64) % 2 ^ 32) 64 false fun _ => 0).isSome, decide (Room s.q 64))) =
      some (true, false, false, true) := by decide +kernel
  rw [hruns] at hfacts
  obtain ⟨hrel, hfit, hgrow, hroom⟩ : s₁.q.reliable = true ∧ (s₁.q.fit 64).isSome = false ∧
      (s₁.q.grow ((s₁.q.bytes + 64) % 2 ^ 32) 64 false fun _ => 0).isSome = false ∧
      decide (Room s₁.q 64) = true := by
    have h := Option.some.inj hfacts
    exact ⟨congrArg Prod.fst h, congrArg (fun x => x.2.1) h, congrArg (fun x => x.2.2.1) h,
      congrArg (fun x => x.2.2.2) h⟩
  have hneed : ({ data := List.replicate 24 0 } : QPut).need = 64 := by decide
  obtain ⟨out, n, -, ho, -⟩ := hright.pushed _ _ _ rfl
  generalize hp : ({ data := List.replicate 24 0 } : QPut) = p at ho hneed
  cases ho with
  | store hstore =>
    rw [hneed] at hstore
    rw [hstore] at hfit
    exact Bool.false_ne_true hfit.symm
  | grow hgrown =>
    rw [hneed] at hgrown
    rw [hgrown] at hgrow
    exact Bool.false_ne_true hgrow.symm
  | refuse hnone =>
    rw [hneed] at hnone
    exact hnone (of_decide_eq_true hroom)
  | evict hnone =>
    rw [hneed] at hnone
    exact hnone (of_decide_eq_true hroom)
  | drop hnone =>
    rw [hneed] at hnone
    exact hnone (of_decide_eq_true hroom)

end QueueRun

end Rant.Node
