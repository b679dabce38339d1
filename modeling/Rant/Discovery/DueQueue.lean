import Rant.Discovery.Store
/-!
# The due queue

`Queued`: the due queue holds each record that owes something once and no other, and the free
list only FREE places. It asks nothing of who the records are, so every operation of the store
keeps it, whatever uuid it adds.
-/

namespace Rant.Discovery

open Rant.Lib
open Rant.Transport (Bytes)

namespace Records

structure Queued (r : Records) : Prop where
  dueNodup : r.due.Nodup
  memDue : ∀ i, i ∈ r.due ↔ ((r.get i).any fun x => x.owed.any) = true
  freeNodup : r.free.Nodup
  freeNone : ∀ i ∈ r.free, i < r.cap ∧ r.get i = none

variable {r : Records}

/-- A record written that owes as the queue says, where the others owe as before. -/
theorem Queued.write (h : r.Queued) {i : Nat} {x : Rec} (hx : r.get i = some x) (f : Rec → Rec)
    {due : List Nat} (hn : due.Nodup) (hi : i ∈ due ↔ (f x).owed.any = true)
    (hj : ∀ j, j ≠ i → (j ∈ due ↔ j ∈ r.due)) : Queued { r.modify i f with due := due } := by
  have hget : ∀ j, Records.get { r.modify i f with due := due } j =
      if j = i then (r.get j).map f else r.get j := get_modify r i f
  refine ⟨hn, fun j => ?_, h.freeNodup, fun j hfree => ?_⟩
  · rw [hget]
    by_cases hij : j = i
    · subst hij
      rw [if_pos rfl, hx]
      exact hi
    · rw [if_neg hij]
      exact (hj j hij).trans (h.memDue j)
  · have hfree' := h.freeNone j hfree
    refine ⟨lt_of_lt_of_eq hfree'.1 (cap_modify r i f).symm, ?_⟩
    rw [hget, hfree'.2]
    split <;> rfl

/-- A record written that owes what it owed. -/
theorem Queued.modify (h : r.Queued) (i : Nat) {f : Rec → Rec} (hf : ∀ x, (f x).owed = x.owed) :
    (r.modify i f).Queued := by
  refine ⟨h.dueNodup, fun j => ?_, h.freeNodup, fun j hj => ?_⟩
  · rw [get_modify]
    split
    next hij =>
      subst hij
      refine (h.memDue j).trans ?_
      cases r.get j with
      | none => exact Iff.rfl
      | some x => rw [Option.map_some, Option.any_some, Option.any_some, hf x]
    next => exact h.memDue j
  · have hj' := h.freeNone j hj
    refine ⟨lt_of_lt_of_eq hj'.1 (cap_modify r i f).symm, ?_⟩
    rw [get_modify, hj'.2]
    split <;> rfl

/-- A record is queued while it owes. -/
theorem Queued.mem_some (h : r.Queued) {i : Nat} {x : Rec} (hx : r.get i = some x) :
    i ∈ r.due ↔ x.owed.any = true := by
  rw [h.memDue i, hx]
  exact Iff.rfl

/-- A member of the queue is a record that owes something. -/
theorem Queued.owing (h : r.Queued) {i : Nat} (hi : i ∈ r.due) :
    ∃ x, r.get i = some x ∧ x.owed.any = true :=
  (Option.any_eq_true _ _).mp ((h.memDue i).mp hi)

theorem Owed.any_or {o p : Owed} (h : p.any = true) : (o.or p).any = true := by
  unfold Owed.any Owed.or at *
  simp only [Bool.or_eq_true] at h ⊢
  rcases h with (h | h) | h <;> simp [h]

/-- A debt queues its record once, in the order of the due times. -/
theorem Queued.owe (h : r.Queued) (i : Nat) (bits : Owed) (due : Nat) :
    (r.owe i bits due).Queued := by
  unfold Records.owe
  cases hx : r.get i with
  | none => exact h
  | some x =>
    dsimp only
    cases hb : bits.any with
    | false => exact h
    | true =>
      rw [Bool.not_true, if_neg Bool.false_ne_true]
      cases ho : x.owed.any with
      | false =>
        rw [Bool.not_false, if_pos rfl]
        have hnot : i ∉ r.due := fun hi => by
          rw [h.mem_some hx, ho] at hi
          exact Bool.false_ne_true hi
        refine h.write hx _ ?_ ?_ fun j hij => ?_
        · refine List.nodup_append.mpr ⟨h.dueNodup, List.pairwise_singleton _ i, ?_⟩
          rintro j hj k hk rfl
          exact hnot (List.mem_singleton.mp hk ▸ hj)
        · exact ⟨fun _ => Owed.any_or hb, fun _ => List.mem_append_right _ List.mem_cons_self⟩
        · simp [hij]
      | true =>
        rw [Bool.not_true, if_neg Bool.false_ne_true]
        refine h.write hx _ h.dueNodup ?_ fun j _ => Iff.rfl
        exact ⟨fun _ => Owed.any_or hb, fun _ => (h.mem_some hx).mpr ho⟩

/-- The last debt settled takes the record from the queue. -/
theorem Queued.settle (h : r.Queued) (i : Nat) (bits : Owed) : (r.settle i bits).Queued := by
  unfold Records.settle
  cases hx : r.get i with
  | none => exact h
  | some x =>
    dsimp only
    cases hm : x.owed.meets bits with
    | false => exact h
    | true =>
      rw [Bool.not_true, if_neg Bool.false_ne_true]
      have hin : i ∈ r.due := by
        rw [h.mem_some hx]
        unfold Owed.meets at hm
        unfold Owed.any
        simp only [Bool.or_eq_true, Bool.and_eq_true] at hm ⊢
        rcases hm with (hm | hm) | hm <;> simp [hm.1]
      split
      next hany => exact h.write hx _ h.dueNodup ⟨fun _ => hany, fun _ => hin⟩ fun j _ => Iff.rfl
      next hany =>
        refine h.write hx _ (h.dueNodup.erase i) ?_ fun j hij => ?_
        · exact ⟨fun hi => absurd hi h.dueNodup.not_mem_erase, fun hi => absurd hi hany⟩
        · exact List.mem_erase_of_ne hij

/-- A record due later moves behind who is due before it. -/
theorem Queued.requeue (h : r.Queued) (i due : Nat) : (r.requeue i due).Queued := by
  unfold Records.requeue
  cases hx : r.get i with
  | none => exact h
  | some x =>
    dsimp only
    cases ho : x.owed.any with
    | false => exact h
    | true =>
      rw [Bool.not_true, if_neg Bool.false_ne_true]
      refine h.write hx _ ?_ ?_ fun j hij => ?_
      · refine List.nodup_append.mpr ⟨h.dueNodup.erase i, List.pairwise_singleton _ i, ?_⟩
        rintro j hj k hk rfl
        exact h.dueNodup.not_mem_erase (List.mem_singleton.mp hk ▸ hj)
      · exact ⟨fun _ => ho, fun _ => List.mem_append_right _ List.mem_cons_self⟩
      · rw [List.mem_append, List.mem_erase_of_ne hij, List.mem_singleton]
        exact ⟨fun hj => hj.resolve_right hij, Or.inl⟩

theorem Queued.setState (h : r.Queued) (i : Nat) (state : RecState) :
    (r.setState i state).Queued := by
  unfold Records.setState
  cases hx : r.get i with
  | none => exact h
  | some x =>
    dsimp only
    split
    next => exact h
    next =>
      have hm := h.modify i (f := fun x => { x with state := state }) fun _ => rfl
      exact ⟨hm.dueNodup, hm.memDue, hm.freeNodup, hm.freeNone⟩

/-- The records, the queue and the free list are all it asks of. -/
theorem Queued.congr {r' : Records} (h : r.Queued) (hget : ∀ i, r'.get i = r.get i)
    (hcap : r.cap ≤ r'.cap) (hdue : r'.due = r.due) (hfree : r'.free = r.free) : r'.Queued := by
  refine ⟨hdue ▸ h.dueNodup, fun i => ?_, hfree ▸ h.freeNodup, fun i hi => ?_⟩
  · rw [hdue, hget]
    exact h.memDue i
  · have hi' := h.freeNone i (hfree ▸ hi)
    rw [hget]
    exact ⟨hi'.1.trans_le hcap, hi'.2⟩

theorem Queued.extend (h : r.Queued) (n : Nat) : (r.extend n).Queued := by
  refine ⟨h.dueNodup, fun i => ?_, ?_, fun i hi => ?_⟩
  · rw [get_extend]
    exact h.memDue i
  · refine List.nodup_append.mpr ⟨List.nodup_range', h.freeNodup, ?_⟩
    rintro i hi j hj rfl
    have hlow := (List.mem_range'_1.mp hi).1
    exact absurd (h.freeNone i hj).1 (Nat.not_lt.mpr hlow)
  · rw [cap_extend, get_extend]
    rcases List.mem_append.mp hi with hi | hi
    · have hrange := List.mem_range'_1.mp hi
      refine ⟨hrange.2, ?_⟩
      cases hx : r.get i with
      | none => rfl
      | some x => exact absurd (get_lt hx) (Nat.not_lt.mpr hrange.1)
    · have hi' := h.freeNone i hi
      exact ⟨Nat.lt_add_right n hi'.1, hi'.2⟩

theorem Queued.grow {r' : Records} {mem : Mem} (h : r.Queued) (hg : r.grow mem = some r') :
    r'.Queued := by
  unfold Records.grow at hg
  split at hg
  next => cases hg
  split at hg
  next => cases hg
  split at hg
  next => cases hg
  have he := h.extend (r.grownCap - r.cap)
  dsimp only at hg
  split at hg
  next =>
    cases hg
    exact he.congr (fun _ => rfl) (Nat.le_refl _) rfl rfl
  next =>
    cases hg
    exact he

/-- A record added owes nothing yet. -/
theorem Queued.addAt (h : r.Queued) {i : Nat} {free : List Nat} (hfree : r.free = i :: free)
    (uuid : Bytes) : (r.addAt i free uuid).Queued := by
  have hi := h.freeNone i (by rw [hfree]; exact List.mem_cons_self)
  have hn := h.freeNodup
  rw [hfree] at hn
  have hget : ∀ j, (r.addAt i free uuid).get j =
      if j = i then some { uuid := uuid, localId := r.takenId } else r.get j := by
    intro j
    have hput := get_put r i (some { uuid := uuid, localId := r.takenId }) j
    by_cases hij : j = i
    · rw [if_pos ⟨hij, hi.1⟩] at hput
      rw [if_pos hij]
      exact hput
    · rw [if_neg fun hc => hij hc.1] at hput
      rw [if_neg hij]
      exact hput
  refine ⟨h.dueNodup, fun j => ?_, (List.nodup_cons.mp hn).2, fun j hj => ?_⟩
  · rw [hget]
    split
    next hij =>
      subst hij
      refine (h.memDue j).trans ?_
      rw [hi.2]
      exact Iff.rfl
    next => exact h.memDue j
  · have hj' := h.freeNone j (by rw [hfree]; exact List.mem_cons_of_mem i hj)
    refine ⟨lt_of_lt_of_eq hj'.1 (cap_put r i _).symm, ?_⟩
    rw [hget, if_neg]
    · exact hj'.2
    · rintro rfl
      exact (List.nodup_cons.mp hn).1 hj

theorem Queued.add (h : r.Queued) (mem : Mem) (uuid : Bytes) : (r.add mem uuid).1.Queued := by
  unfold Records.add
  have hgrown : (if r.free = [] then (r.grow mem).getD r else r).Queued := by
    split
    next =>
      cases hg : r.grow mem with
      | none => exact h
      | some r' => exact h.grow hg
    next => exact h
  generalize (if r.free = [] then (r.grow mem).getD r else r) = s at hgrown ⊢
  dsimp only
  split
  next => exact hgrown
  next i free hfree => exact hgrown.addAt hfree uuid

/-- A record that goes leaves the queue. -/
theorem Queued.remove (h : r.Queued) (i : Nat) : (r.remove i).Queued := by
  unfold Records.remove
  cases hx : r.get i with
  | none => exact h
  | some x =>
    dsimp only
    have hs := h.settle i oweAll
    have hcap := (settle_owes r i oweAll).cap
    have hget : ∀ j, ((r.settle i oweAll).put i none).get j =
        if j = i then none else (r.settle i oweAll).get j := by
      intro j
      rw [get_put, hcap]
      by_cases hij : j = i
      · rw [if_pos ⟨hij, get_lt hx⟩, if_pos hij]
      · rw [if_neg fun hc => hij hc.1, if_neg hij]
    have hfree : (r.settle i oweAll).free = r.free := (settle_owes r i oweAll).free
    have hnot : i ∉ (r.settle i oweAll).free := by
      rw [hfree]
      intro hi
      exact absurd ((h.freeNone i hi).2.symm.trans hx) (Option.some_ne_none x).symm
    refine ⟨hs.dueNodup, fun j => ?_, List.nodup_cons.mpr ⟨hnot, hs.freeNodup⟩, fun j hj => ?_⟩
    · show j ∈ (r.settle i oweAll).due ↔
        ((((r.settle i oweAll).put i none).get j).any fun x => x.owed.any) = true
      rw [hget]
      split
      next hij =>
        subst hij
        refine ⟨fun hj => ?_, fun hj => absurd hj Bool.false_ne_true⟩
        obtain ⟨y, hy, hany⟩ := hs.owing hj
        rw [get_settle hx] at hy
        cases hy
        revert hany
        show ((x.owed.clear oweAll).any = true) → _
        unfold Owed.any Owed.clear oweAll
        simp
      next => exact hs.memDue j
    · show j < ((r.settle i oweAll).put i none).cap ∧ ((r.settle i oweAll).put i none).get j = none
      rw [hget, cap_put]
      rcases List.mem_cons.mp hj with rfl | hj
      · exact ⟨lt_of_lt_of_eq (get_lt hx) hcap.symm, if_pos rfl⟩
      · have hj' := hs.freeNone j hj
        refine ⟨hj'.1, ?_⟩
        split
        next => rfl
        next => exact hj'.2

theorem queued_init {reserve max : Nat} {hooked : Bool} (h : Records.init reserve max hooked = some r) :
    r.Queued := by
  have hwf := init_wf h
  refine ⟨?_, fun i => ?_, hwf.freeNodup, fun i hi => (hwf.memFree i).mp hi⟩
  · unfold Records.init at h
    split at h
    next => cases h
    next =>
      cases h
      exact List.nodup_nil
  · rw [(get_init h).2]
    unfold Records.init at h
    split at h
    next => cases h
    next =>
      cases h
      simp

end Records

end Rant.Discovery
