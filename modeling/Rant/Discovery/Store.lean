import Rant.Discovery.Records
/-!
# The record store's invariant

`WF`: both indexes chain exactly the records, the free list holds exactly the FREE places,
`live` counts the ACTIVE records and no two records share a uuid. Each operation keeps it,
and is described by what it does to `get`.

The indexes are chains in buckets, by the library of chains: a removal takes a place off its two
chains, an addition puts one on, and growing makes all of them anew from the table. `Owes` is what
the due queue's operations leave of a record, so none of them has to be shown to keep `WF` again.
-/

namespace Rant.Discovery

open Rant.Lib
open Rant.Transport (Bytes)

namespace Records

/-- An ACTIVE record. -/
def alive (x : Option Rec) : Bool := x.any fun x => x.state = .active

structure WF (r : Records) : Prop where
  uuidPos : 0 < r.uuidHeads.length
  idPos : 0 < r.idHeads.length
  byUuid : Chained r.uuidHeads (fun x => r.uuidBucket x.uuid) r.get
  byId : Chained r.idHeads (fun x => r.idBucket x.localId) r.get
  freeNodup : r.free.Nodup
  memFree : ∀ i, i ∈ r.free ↔ i < r.cap ∧ r.get i = none
  live : r.live = r.recs.countP alive
  uuids : ∀ i j x y, r.get i = some x → r.get j = some y → x.uuid = y.uuid → i = j

/-! ## Reading what was written -/

variable {r : Records} {i : Nat} {x : Rec}

theorem get_lt (h : r.get i = some x) : i < r.cap := by
  by_contra hge
  unfold get at h
  rw [List.getElem?_eq_none (Nat.le_of_not_lt hge)] at h
  cases h

theorem recs_of_get (h : r.get i = some x) :
    r.recs[i]? = some (some x) := by
  unfold get at h
  exact Option.join_eq_some_iff.mp h

/-- A write of one place is read there and nowhere else. -/
theorem get_put (r : Records) (i : Nat) (x : Option Rec) (j : Nat) :
    (r.put i x).get j = if j = i ∧ i < r.cap then x else r.get j := by
  unfold get put cap
  rw [List.getElem?_set]
  by_cases hij : i = j
  · subst hij
    by_cases hlt : i < r.recs.length
    · simp [hlt]
    · simp [hlt]
  · simp [hij, Ne.symm hij]

/-- A rewrite of a record is read at its place and nowhere else. -/
theorem get_modify (r : Records) (i : Nat) (f : Rec → Rec) (j : Nat) :
    (r.modify i f).get j = if j = i then (r.get j).map f else r.get j := by
  unfold get modify
  rw [List.getElem?_modify]
  by_cases hij : i = j
  · subst hij
    cases r.recs[i]? with
    | none => simp
    | some x => cases x <;> simp
  · simp [hij, Ne.symm hij]

theorem get_modify_self (h : r.get i = some x) (f : Rec → Rec) :
    (r.modify i f).get i = some (f x) := by
  rw [get_modify, if_pos rfl, h]
  rfl

@[simp] theorem cap_modify (r : Records) (i : Nat) (f : Rec → Rec) :
    (r.modify i f).cap = r.cap := List.length_modify ..

@[simp] theorem cap_put (r : Records) (i : Nat) (x : Option Rec) : (r.put i x).cap = r.cap :=
  List.length_set ..

/-- A change of a record that is there is a write of its place. -/
theorem modify_eq_put (h : r.get i = some x) (f : Rec → Rec) :
    r.modify i f = r.put i (some (f x)) := by
  unfold modify put
  have hrecs : r.recs.modify i (Option.map f) = r.recs.set i (some (f x)) := by
    refine List.ext_getElem? fun j => ?_
    rw [List.getElem?_modify, List.getElem?_set]
    by_cases hij : i = j
    · subst hij
      have hlt := get_lt h
      unfold cap at hlt
      rw [recs_of_get h, if_pos rfl, if_pos hlt]
      simp
    · simp [hij]
  rw [hrecs]

/-- A write counts the record it brings and not the one it drops. -/
theorem countP_put (x : Option Rec) (h : i < r.cap) :
    (r.put i x).recs.countP alive + (alive (r.get i)).toNat =
      r.recs.countP alive + (alive x).toNat := by
  have hget : alive (r.get i) = alive (r.recs.get ⟨i, h⟩) := by
    unfold get
    rw [List.getElem?_eq_getElem h]
    rfl
  have hle : alive (r.recs.get ⟨i, h⟩) = true → 0 < r.recs.countP alive := fun hp =>
    List.countP_pos_iff.mpr ⟨_, List.getElem_mem h, hp⟩
  unfold put
  rw [List.countP_set h, hget]
  cases hp : alive (r.recs.get ⟨i, h⟩) with
  | true =>
    have := hle hp
    cases hx : alive x <;> simp <;> omega
  | false => cases hx : alive x <;> simp

/-! ## Buckets -/

theorem uuidBucket_lt (h : 0 < r.uuidHeads.length) (u : Bytes) :
    r.uuidBucket u < r.uuidHeads.length := by
  have : r.uuidBucket u ≤ r.uuidHeads.length - 1 := Nat.and_le_right
  omega

theorem idBucket_lt (h : 0 < r.idHeads.length) (id : Nat) :
    r.idBucket id < r.idHeads.length := by
  have : r.idBucket id ≤ r.idHeads.length - 1 := Nat.and_le_right
  omega

theorem buckets_pos (cap : Nat) : 0 < buckets cap := by
  have : ∀ k n, 0 < n → 0 < bucketsFrom cap k n := by
    intro k
    induction k with
    | zero => intro n hn; exact hn
    | succ k ih =>
      intro n hn
      unfold bucketsFrom
      split
      next => exact ih _ (by omega)
      next => exact hn
  exact this 16 4 (by omega)

/-! ## Changes that keep who a record is -/

/-- Who a record is. -/
def idOf (x : Rec) : Bytes × Nat := (x.uuid, x.localId)

/-- Who it is, and whether it is live. -/
def keyOf (x : Rec) : (Bytes × Nat) × RecState := (idOf x, x.state)

/-- The table is what its places hold, in order. -/
theorem recs_eq (r : Records) : r.recs = (List.range r.cap).map r.get := by
  refine List.ext_getElem? fun i => ?_
  rw [List.getElem?_map]
  by_cases hi : i < r.cap
  · rw [List.getElem?_range hi]
    unfold cap at hi
    show r.recs[i]? = some r.recs[i]?.join
    rw [List.getElem?_eq_getElem hi]
    rfl
  · rw [List.getElem?_eq_none (Nat.le_of_not_lt hi),
      List.getElem?_eq_none (by rw [List.length_range]; omega)]
    rfl

variable {r' : Records}

/-- A store whose records changed, but not who they are. -/
theorem WF.same (h : r.WF) (hcap : r'.cap = r.cap)
    (hu : r'.uuidHeads = r.uuidHeads) (hi : r'.idHeads = r.idHeads) (hf : r'.free = r.free)
    (hl : r'.live = r'.recs.countP alive) (hid : ∀ i, (r'.get i).map idOf = (r.get i).map idOf) :
    r'.WF := by
  have hnone : ∀ i, r'.get i = none ↔ r.get i = none := by
    intro i
    rw [← Option.map_eq_none_iff, hid i, Option.map_eq_none_iff]
  constructor
  · rw [hu]; exact h.uuidPos
  · rw [hi]; exact h.idPos
  · have hb : (fun x => r'.uuidBucket x.uuid) = fun x : Rec => r.uuidBucket x.uuid := by
      unfold uuidBucket
      rw [hu]
    rw [hu, hb]
    refine h.byUuid.congr fun i => ?_
    have := congrArg (Option.map fun k : Bytes × Nat => r.uuidBucket k.1) (hid i)
    rw [Option.map_map, Option.map_map] at this
    exact this
  · have hb : (fun x => r'.idBucket x.localId) = fun x : Rec => r.idBucket x.localId := by
      unfold idBucket
      rw [hi]
    rw [hi, hb]
    refine h.byId.congr fun i => ?_
    have := congrArg (Option.map fun k : Bytes × Nat => r.idBucket k.2) (hid i)
    rw [Option.map_map, Option.map_map] at this
    exact this
  · rw [hf]; exact h.freeNodup
  · intro i
    rw [hf, hcap, hnone i]
    exact h.memFree i
  · exact hl
  · intro i j x y hx hy huu
    have hxk := hid i
    have hyk := hid j
    rw [hx] at hxk
    rw [hy] at hyk
    obtain ⟨x', hx', hxx⟩ := Option.map_eq_some_iff.mp hxk.symm
    obtain ⟨y', hy', hyy⟩ := Option.map_eq_some_iff.mp hyk.symm
    refine h.uuids i j x' y' hx' hy' ?_
    have h1 : x'.uuid = x.uuid := congrArg (fun k => k.1) hxx
    have h2 : y'.uuid = y.uuid := congrArg (fun k => k.1) hyy
    rw [h1, h2, huu]

/-- A store whose records changed, but not who they are nor which of them live. -/
theorem WF.congr (h : r.WF) (hcap : r'.cap = r.cap)
    (hu : r'.uuidHeads = r.uuidHeads) (hi : r'.idHeads = r.idHeads) (hf : r'.free = r.free)
    (hl : r'.live = r.live) (hkey : ∀ i, (r'.get i).map keyOf = (r.get i).map keyOf) : r'.WF := by
  refine h.same hcap hu hi hf ?_ fun i => ?_
  · have halive : ∀ i, alive (r'.get i) = alive (r.get i) := by
      intro i
      have := congrArg (Option.any fun k : (Bytes × Nat) × RecState => k.2 = .active) (hkey i)
      rw [Option.any_map, Option.any_map] at this
      exact this
    rw [hl, h.live, recs_eq r, recs_eq r', hcap, List.countP_map, List.countP_map]
    congr 1
    funext i
    exact (halive i).symm
  · have := congrArg (Option.map Prod.fst) (hkey i)
    rw [Option.map_map, Option.map_map] at this
    exact this

/-- A rewrite that keeps who a record is keeps the store well formed. -/
theorem WF.modify (h : r.WF) (i : Nat) (f : Rec → Rec)
    (hf : ∀ x, r.get i = some x → keyOf (f x) = keyOf x) : (r.modify i f).WF := by
  refine h.congr (cap_modify r i f) rfl rfl rfl rfl fun j => ?_
  rw [get_modify]
  split
  next hj =>
    subst hj
    cases hx : r.get j with
    | none => rfl
    | some x => exact congrArg some (hf x hx)
  next => rfl

/-! ## The operations -/

/-- What `owe`, `settle` and `requeue` do: the store knows each record as before, and the
records differ in what they owe alone. -/
structure Owes (r r' : Records) : Prop where
  cap : r'.cap = r.cap
  uuidHeads : r'.uuidHeads = r.uuidHeads
  idHeads : r'.idHeads = r.idHeads
  free : r'.free = r.free
  live : r'.live = r.live
  nextId : r'.nextId = r.nextId
  max : r'.max = r.max
  hooked : r'.hooked = r.hooked
  get : ∀ i, (r.get i = none ∧ r'.get i = none) ∨
    ∃ x owed due, r.get i = some x ∧ r'.get i = some { x with owed := owed, due := due }

theorem Owes.refl (r : Records) : Owes r r := by
  refine ⟨rfl, rfl, rfl, rfl, rfl, rfl, rfl, rfl, fun i => ?_⟩
  cases hx : r.get i with
  | none => exact Or.inl ⟨rfl, rfl⟩
  | some x => exact Or.inr ⟨x, x.owed, x.due, rfl, rfl⟩

/-- A record's debts and due time written, and the queue made anew. -/
theorem owes_modify (hx : r.get i = some x) (owed : Owed)
    (due : Nat) (queue : List Nat) {f : Rec → Rec} (hf : f x = { x with owed := owed, due := due }) :
    Owes r { r.modify i f with due := queue } := by
  refine ⟨cap_modify r i f, rfl, rfl, rfl, rfl, rfl, rfl, rfl, fun j => ?_⟩
  show _ ∨ ∃ _ _ _, _ ∧ (r.modify i f).get j = _
  by_cases hj : j = i
  · subst hj
    exact Or.inr ⟨x, owed, due, hx, by rw [get_modify_self hx, hf]⟩
  have hget : (r.modify i f).get j = r.get j := by rw [get_modify, if_neg hj]
  cases hy : r.get j with
  | none => exact Or.inl ⟨rfl, hget.trans hy⟩
  | some y => exact Or.inr ⟨y, y.owed, y.due, rfl, hget.trans hy⟩

theorem owe_owes (r : Records) (i : Nat) (bits : Owed) (due : Nat) : Owes r (r.owe i bits due) := by
  unfold owe
  split
  next => exact Owes.refl r
  next x hx =>
    split
    next => exact Owes.refl r
    split
    next => exact owes_modify hx (x.owed.or bits) due _ rfl
    next => exact owes_modify hx (x.owed.or bits) (Nat.min due x.due) r.due rfl

theorem settle_owes (r : Records) (i : Nat) (bits : Owed) : Owes r (r.settle i bits) := by
  unfold settle
  split
  next => exact Owes.refl r
  next x hx =>
    split
    next => exact Owes.refl r
    dsimp only
    split
    next => exact owes_modify hx (x.owed.clear bits) x.due r.due rfl
    next => exact owes_modify hx (x.owed.clear bits) x.due _ rfl

/-- What was not owed is not cleared. -/
theorem Owed.clear_of_not_meets {o p : Owed} (h : o.meets p = false) : o.clear p = o := by
  obtain ⟨a, b, c⟩ := o
  obtain ⟨a', b', c'⟩ := p
  revert h
  cases a <;> cases b <;> cases c <;> cases a' <;> cases b' <;> cases c' <;> decide

/-- What a record settled owes no more. -/
theorem get_settle (hx : r.get i = some x) (bits : Owed) :
    (r.settle i bits).get i = some { x with owed := x.owed.clear bits } := by
  unfold Records.settle
  rw [hx]
  dsimp only
  cases hm : x.owed.meets bits with
  | false => rw [Bool.not_false, if_pos rfl, hx, Owed.clear_of_not_meets hm]
  | true =>
    rw [Bool.not_true, if_neg Bool.false_ne_true]
    have hmod := get_modify_self hx fun x => { x with owed := x.owed.clear bits }
    split
    next => exact hmod
    next => exact hmod

theorem requeue_owes (r : Records) (i due : Nat) : Owes r (r.requeue i due) := by
  unfold requeue
  split
  next => exact Owes.refl r
  next x hx =>
    split
    next => exact Owes.refl r
    next => exact owes_modify hx x.owed due _ rfl

/-- Debts are no part of the store's shape. -/
theorem WF.owes (h : r.WF) (ho : Owes r r') : r'.WF := by
  refine h.congr ho.cap ho.uuidHeads ho.idHeads ho.free ho.live fun i => ?_
  rcases ho.get i with ⟨h1, h2⟩ | ⟨x, owed, due, h1, h2⟩
  · rw [h1, h2]
  · rw [h1, h2]
    rfl

/-- A state written is that of one record. -/
theorem get_setState (r : Records) (i : Nat) (state : RecState) (j : Nat) :
    (r.setState i state).get j =
      if j = i then (r.get j).map fun x => { x with state := state } else r.get j := by
  unfold setState
  split
  next hx =>
    split
    next hj => rw [hj, hx]; rfl
    next => rfl
  next x hx =>
    split
    next hs =>
      split
      next hj =>
        rw [hj, hx, ← hs]
        rfl
      next => rfl
    next =>
      show (r.modify i _).get j = _
      exact get_modify r i _ j

theorem cap_setState (r : Records) (i : Nat) (state : RecState) : (r.setState i state).cap = r.cap := by
  unfold setState
  split
  next => rfl
  split
  next => rfl
  next => exact cap_modify r i _

/-- A record that comes or drops is counted, and no list changes. -/
theorem WF.setState (h : r.WF) (i : Nat) (state : RecState) :
    (r.setState i state).WF := by
  refine h.same (cap_setState r i state) ?_ ?_ ?_ ?_ fun j => ?_
  · unfold Records.setState
    split <;> [rfl; skip]
    split <;> rfl
  · unfold Records.setState
    split <;> [rfl; skip]
    split <;> rfl
  · unfold Records.setState
    split <;> [rfl; skip]
    split <;> rfl
  · unfold Records.setState
    split
    next => exact h.live
    next x hx =>
      split
      next => exact h.live
      next hs =>
        have hlive := h.live
        have hcount := countP_put (some { x with state := state }) (get_lt hx)
        rw [← modify_eq_put hx fun x => { x with state := state }, hx] at hcount
        cases state with
        | active =>
          have hx' : alive (some x) = false := by simp [alive, hs]
          rw [hx', show alive (some { x with state := RecState.active }) = true from rfl] at hcount
          simp only [Bool.toNat_false, Bool.toNat_true] at hcount
          show r.live + 1 = (r.modify i fun x => { x with state := .active }).recs.countP alive
          omega
        | dropped =>
          have hx' : alive (some x) = true := by
            cases hxs : x.state with
            | active => simp [alive, hxs]
            | dropped => exact absurd hxs hs
          rw [hx', show alive (some { x with state := RecState.dropped }) = false from rfl] at hcount
          simp only [Bool.toNat_false, Bool.toNat_true] at hcount
          show r.live - 1 = (r.modify i fun x => { x with state := .dropped }).recs.countP alive
          omega
  · rw [get_setState]
    split
    next =>
      rw [Option.map_map]
      rfl
    next => rfl

/-! ## Adding and removing -/

theorem replicate_empty (nb b : Nat) : (List.replicate nb ([] : List Nat)).getD b [] = [] := by
  rw [List.getD_eq_getElem?_getD, List.getElem?_replicate]
  split <;> rfl

/-- Nobody is known at first. -/
theorem get_init {reserve max : Nat} {hooked : Bool}
    (h : init reserve max hooked = some r) : r.nextId = 1 ∧ ∀ i, r.get i = none := by
  unfold init at h
  split at h
  next => cases h
  cases h
  refine ⟨rfl, fun i => ?_⟩
  show (List.replicate reserve (none : Option Rec))[i]?.join = none
  rw [List.getElem?_replicate]
  split <;> rfl

/-- A fresh store is well formed. -/
theorem init_wf {reserve max : Nat} {hooked : Bool}
    (h : init reserve max hooked = some r) : r.WF := by
  obtain ⟨-, hnone⟩ := get_init h
  unfold init at h
  split at h
  next => cases h
  cases h
  have hget : ∀ i : Nat, (List.replicate reserve (none : Option Rec))[i]?.join = none := hnone
  have hpos : 0 < (List.replicate (buckets reserve) ([] : List Nat)).length := by
    rw [List.length_replicate]
    exact buckets_pos reserve
  have hchained : ∀ bucket : Rec → Nat,
      Chained (List.replicate (buckets reserve) []) bucket
        fun i => (List.replicate reserve (none : Option Rec))[i]?.join := by
    intro bucket
    refine ⟨fun b => by rw [replicate_empty]; exact List.nodup_nil, fun b i => ?_⟩
    rw [replicate_empty, hget i]
    simp
  refine ⟨hpos, hpos, hchained _, hchained _, List.nodup_range, fun i => ?_, ?_, ?_⟩
  · show i ∈ List.range reserve ↔ i < (List.replicate reserve none).length ∧ _
    rw [List.mem_range, List.length_replicate]
    exact (and_iff_left (hget i)).symm
  · show 0 = (List.replicate reserve (none : Option Rec)).countP alive
    rw [List.countP_replicate, if_neg (by decide)]
  · intro i j x y hx
    have hx' : (List.replicate reserve (none : Option Rec))[i]?.join = some x := hx
    rw [hget i] at hx'
    cases hx'

variable {uuid : Bytes}

/-- A record where none was, who shares its uuid with none. -/
theorem WF.addAt (h : r.WF) {free : List Nat}
    (hf : r.free = i :: free) (hu : ∀ j x, r.get j = some x → x.uuid ≠ uuid) :
    r.get i = none ∧ (r.addAt i free uuid).WF ∧
      ∀ j, (r.addAt i free uuid).get j =
        if j = i then some { uuid := uuid, localId := r.takenId } else r.get j := by
  obtain ⟨hlt, hnone⟩ := (h.memFree i).mp (by rw [hf]; exact List.mem_cons_self)
  have hget : ∀ j, (r.addAt i free uuid).get j =
      if j = i then some { uuid := uuid, localId := r.takenId } else r.get j := by
    intro j
    show (r.put i _).get j = _
    rw [get_put]
    by_cases hj : j = i
    · rw [if_pos ⟨hj, hlt⟩, if_pos hj]
    · rw [if_neg (fun hc => hj hc.1), if_neg hj]
  refine ⟨hnone, ⟨?_, ?_, ?_, ?_, ?_, ?_, ?_, ?_⟩, hget⟩
  · show 0 < (push _ _ _).length
    rw [length_push]
    exact h.uuidPos
  · show 0 < (push _ _ _).length
    rw [length_push]
    exact h.idPos
  -- the heads are as many as before, so every bucket is where it was
  · have hb : (fun x => (r.addAt i free uuid).uuidBucket x.uuid) =
        fun x : Rec => r.uuidBucket x.uuid := by
      funext x
      show _ &&& ((push _ _ _).length - 1) = _
      rw [length_push]
      rfl
    rw [hb]
    exact h.byUuid.push hnone (uuidBucket_lt h.uuidPos _) hget
  · have hb : (fun x => (r.addAt i free uuid).idBucket x.localId) =
        fun x : Rec => r.idBucket x.localId := by
      funext x
      show _ &&& ((push _ _ _).length - 1) = _
      rw [length_push]
      rfl
    rw [hb]
    exact h.byId.push hnone (idBucket_lt h.idPos _) hget
  -- the free list loses its head, and only that place is taken
  · have := h.freeNodup
    rw [hf] at this
    exact (List.nodup_cons.mp this).2
  · intro j
    rw [hget j]
    show j ∈ free ↔ j < (r.put i _).cap ∧ _
    rw [cap_put]
    have hmem := h.memFree j
    have hnd := h.freeNodup
    rw [hf] at hmem hnd
    by_cases hj : j = i
    · subst hj
      rw [if_pos rfl]
      exact ⟨fun hm => absurd hm (List.nodup_cons.mp hnd).1, fun hc => (by cases hc.2)⟩
    · rw [if_neg hj, ← hmem, List.mem_cons, or_iff_right hj]
  · show r.live + 1 = (r.put i (some { uuid := uuid, localId := r.takenId })).recs.countP alive
    have hcount := countP_put (r := r) (some { uuid := uuid, localId := r.takenId }) hlt
    have hlive := h.live
    rw [hnone, show alive (some { uuid := uuid, localId := r.takenId }) = true from rfl,
      show alive none = false from rfl] at hcount
    simp only [Bool.toNat_false, Bool.toNat_true] at hcount
    omega
  -- no other record has the new one's uuid
  · intro j k x y hx hy huu
    rw [hget] at hx hy
    split at hx
    next hj =>
      split at hy
      next hk => exact hj.trans hk.symm
      next hk =>
        cases hx
        exact absurd huu.symm (hu k y hy)
    next hj =>
      split at hy
      next hk =>
        cases hy
        exact absurd huu (hu j x hx)
      next hk => exact h.uuids j k x y hx hy huu

/-- More places hold nothing. -/
theorem get_extend (r : Records) (n : Nat) (i : Nat) : (r.extend n).get i = r.get i := by
  show (r.recs ++ List.replicate n none)[i]?.join = r.recs[i]?.join
  by_cases hi : i < r.recs.length
  · rw [List.getElem?_append_left hi]
  · rw [List.getElem?_append_right (Nat.le_of_not_lt hi), List.getElem?_replicate,
      List.getElem?_eq_none (Nat.le_of_not_lt hi)]
    split <;> rfl

theorem cap_extend (r : Records) (n : Nat) : (r.extend n).cap = r.cap + n := by
  show (r.recs ++ List.replicate n none).length = _
  rw [List.length_append, List.length_replicate]
  rfl

theorem WF.extend (h : r.WF) (n : Nat) : (r.extend n).WF := by
  have hget : (r.extend n).get = r.get := funext (get_extend r n)
  refine ⟨h.uuidPos, h.idPos, ?_, ?_, ?_, ?_, ?_, ?_⟩
  · rw [hget]; exact h.byUuid
  · rw [hget]; exact h.byId
  · refine List.nodup_append.mpr ⟨List.nodup_range', h.freeNodup, ?_⟩
    rintro i hi j hj rfl
    have := (List.mem_range'_1.mp hi).1
    have := ((h.memFree i).mp hj).1
    omega
  · intro i
    rw [cap_extend, get_extend]
    show i ∈ List.range' r.cap n ++ r.free ↔ _
    rw [List.mem_append, List.mem_range'_1, h.memFree i]
    constructor
    · rintro (⟨h1, h2⟩ | ⟨h1, h2⟩)
      · refine ⟨h2, ?_⟩
        cases hx : r.get i with
        | none => rfl
        | some x =>
          have := get_lt hx
          omega
      · exact ⟨by omega, h2⟩
    · rintro ⟨h1, h2⟩
      by_cases hi : i < r.cap
      · exact Or.inr ⟨hi, h2⟩
      · exact Or.inl ⟨by omega, h1⟩
  · show r.live = (r.recs ++ List.replicate n none).countP alive
    rw [List.countP_append, List.countP_replicate, if_neg (by decide), h.live]
    rfl
  · intro i j x y hx hy
    rw [get_extend] at hx hy
    exact h.uuids i j x y hx hy

/-- The chains made anew hold what the table holds. -/
theorem WF.rehash (h : r.WF) {nb : Nat} (hnb : 0 < nb) : (r.rehash nb).WF := by
  have hall : ∀ i x, r.get i = some x → i ∈ List.range r.cap := fun i x hx =>
    List.mem_range.mpr (get_lt hx)
  have hlen : ∀ bucket : Rec → Nat,
      (relink bucket r.get (List.replicate nb []) (List.range r.cap)).length = nb := by
    intro bucket
    rw [length_relink, List.length_replicate]
  refine ⟨?_, ?_, ?_, ?_, h.freeNodup, h.memFree, h.live, h.uuids⟩
  · exact lt_of_lt_of_eq hnb (hlen _).symm
  · exact lt_of_lt_of_eq hnb (hlen _).symm
  · have hb : (fun x => (r.rehash nb).uuidBucket x.uuid) = fun x : Rec =>
        { r with uuidHeads := List.replicate nb [], idHeads := List.replicate nb [] }.uuidBucket
          x.uuid := by
      funext x
      show _ &&& ((relink _ r.get (List.replicate nb []) (List.range r.cap)).length - 1) =
        _ &&& ((List.replicate nb ([] : List Nat)).length - 1)
      rw [length_relink]
    rw [hb]
    exact chained_relink (fun i x _ => uuidBucket_lt (by simpa using hnb) _) (replicate_empty nb)
      List.nodup_range hall
  · have hb : (fun x => (r.rehash nb).idBucket x.localId) = fun x : Rec =>
        { r with uuidHeads := List.replicate nb [], idHeads := List.replicate nb [] }.idBucket
          x.localId := by
      funext x
      show _ &&& ((relink _ r.get (List.replicate nb []) (List.range r.cap)).length - 1) =
        _ &&& ((List.replicate nb ([] : List Nat)).length - 1)
      rw [length_relink]
    rw [hb]
    exact chained_relink (fun i x _ => idBucket_lt (by simpa using hnb) _) (replicate_empty nb)
      List.nodup_range hall

/-- Growing moves no record. -/
theorem get_grow {mem : Mem} (hg : r.grow mem = some r') (i : Nat) :
    r'.get i = r.get i := by
  unfold Records.grow at hg
  split at hg
  next => cases hg
  split at hg
  next => cases hg
  split at hg
  next => cases hg
  dsimp only at hg
  split at hg
  next =>
    cases hg
    exact get_extend r _ i
  next =>
    cases hg
    exact get_extend r _ i

/-- A store that grew holds the same records. -/
theorem WF.grow {mem : Mem} (h : r.WF) (hg : r.grow mem = some r') :
    r'.WF ∧ (∀ i, r'.get i = r.get i) ∧ r'.nextId = r.nextId := by
  unfold Records.grow at hg
  split at hg
  next => cases hg
  split at hg
  next => cases hg
  split at hg
  next => cases hg
  dsimp only at hg
  have he := h.extend (r.grownCap - r.cap)
  split at hg
  next =>
    cases hg
    exact ⟨he.rehash (buckets_pos _), get_extend r _, rfl⟩
  next =>
    cases hg
    exact ⟨he, get_extend r _, rfl⟩

/-- What a record added is, and that a store that is full holds the records it held. -/
theorem WF.add (h : r.WF) (mem : Mem)
    (hu : ∀ j x, r.get j = some x → x.uuid ≠ uuid) :
    ((r.add mem uuid).2 = none ∧ (r.add mem uuid).1.WF ∧ (r.add mem uuid).1.nextId = r.nextId ∧
        ∀ j, (r.add mem uuid).1.get j = r.get j) ∨
      ∃ i, (r.add mem uuid).2 = some i ∧ r.get i = none ∧ (r.add mem uuid).1.WF ∧
        (r.add mem uuid).1.nextId = (r.takenId + 1) % 2 ^ 32 ∧
        ∀ j, (r.add mem uuid).1.get j =
          if j = i then some { uuid := uuid, localId := r.takenId } else r.get j := by
  unfold Records.add
  obtain ⟨s, hs⟩ : ∃ s, s = if r.free = [] then (r.grow mem).getD r else r := ⟨_, rfl⟩
  have hstore : s.WF ∧ (∀ i, s.get i = r.get i) ∧ s.nextId = r.nextId := by
    rw [hs]
    split
    next =>
      cases hg : r.grow mem with
      | none => exact ⟨h, fun _ => rfl, rfl⟩
      | some r' =>
        exact h.grow hg
    next => exact ⟨h, fun _ => rfl, rfl⟩
  obtain ⟨hswf, hsget, hsnext⟩ := hstore
  dsimp only
  rw [← hs]
  split
  next => exact Or.inl ⟨rfl, hswf, hsnext, hsget⟩
  next i free hf =>
    have hid : s.takenId = r.takenId := by
      unfold takenId
      rw [hsnext]
    obtain ⟨hnone, hwf, hget⟩ := hswf.addAt hf fun j x hx => hu j x ((hsget j).symm.trans hx)
    refine Or.inr ⟨i, rfl, (hsget i).symm.trans hnone, hwf, ?_, fun j => ?_⟩
    · show (s.takenId + 1) % 2 ^ 32 = _
      rw [hid]
    · show (s.addAt i free uuid).get j = _
      rw [hget j, hid, hsget j]

/-- Where no record is found, none has the uuid. -/
theorem WF.find_none (h : r.WF) (hf : r.find uuid = none) :
    ∀ j x, r.get j = some x → x.uuid ≠ uuid := by
  intro j x hx huu
  have := h.byUuid.search_none hf hx (by rw [huu])
  simp [huu] at this

/-- What a lookup finds is a record of that uuid. -/
theorem find_some (h : r.find uuid = some i) :
    ∃ x, r.get i = some x ∧ x.uuid = uuid := by
  obtain ⟨x, hx, hp⟩ := search_some h
  exact ⟨x, hx, of_decide_eq_true hp⟩

/-- A removal empties one place. -/
theorem get_remove (r : Records) (i j : Nat) :
    (r.remove i).get j = none ∧ j = i ∨ j ≠ i ∧ (r.remove i).get j = r.get j := by
  by_cases hj : j = i
  · subst hj
    refine Or.inl ⟨?_, rfl⟩
    unfold remove
    split
    next hx => exact hx
    next x hx =>
      show ((r.settle j oweAll).put j none).get j = none
      rw [get_put]
      have ho := settle_owes r j oweAll
      have hlt := get_lt hx
      rw [if_pos ⟨rfl, by rw [ho.cap]; exact hlt⟩]
  · refine Or.inr ⟨hj, ?_⟩
    unfold remove
    split
    next => rfl
    next x hx =>
      show ((r.settle i oweAll).put i none).get j = _
      rw [get_put, if_neg (fun hc => hj hc.1)]
      -- another record owes what it did
      unfold settle
      rw [hx]
      dsimp only
      split
      next => rfl
      split
      next => rw [get_modify, if_neg hj]
      next =>
        show (r.modify i _).get j = _
        rw [get_modify, if_neg hj]

/-- The chains lose one place, which is free again. -/
theorem WF.remove (h : r.WF) (i : Nat) : (r.remove i).WF := by
  have hget := get_remove r i
  unfold Records.remove at hget ⊢
  split
  next => exact h
  next x hx =>
    rw [hx] at hget
    dsimp only at hget
    -- what the record was owed is dropped first, which moves no chain
    have ho := settle_owes r i oweAll
    have hs := h.owes ho
    obtain ⟨s, hseq⟩ : ∃ s, s = r.settle i oweAll := ⟨_, rfl⟩
    rw [← hseq] at ho hs hget ⊢
    obtain ⟨y, hy, hyid, hyst⟩ : ∃ y, s.get i = some y ∧ idOf y = idOf x ∧ y.state = x.state := by
      rcases ho.get i with ⟨h1, -⟩ | ⟨x', owed, due, h1, h2⟩
      · rw [hx] at h1
        cases h1
      · rw [hx] at h1
        cases h1
        exact ⟨_, h2, rfl, rfl⟩
    have hlt : i < s.cap := get_lt hy
    have hput : ∀ j, (s.put i none).get j = if j = i then none else s.get j := by
      intro j
      rw [get_put]
      by_cases hj : j = i
      · rw [if_pos ⟨hj, hlt⟩, if_pos hj]
      · rw [if_neg (fun hc => hj hc.1), if_neg hj]
    have hyu : y.uuid = x.uuid := congrArg Prod.fst hyid
    have hyi : y.localId = x.localId := congrArg Prod.snd hyid
    refine ⟨?_, ?_, ?_, ?_, ?_, ?_, ?_, ?_⟩
    · show 0 < (unlink _ _ _).length
      rw [length_unlink]
      exact hs.uuidPos
    · show 0 < (unlink _ _ _).length
      rw [length_unlink]
      exact hs.idPos
    · have hb : ∀ z : Rec, _ &&& ((unlink s.uuidHeads (s.uuidBucket x.uuid) i).length - 1) =
          s.uuidBucket z.uuid := fun z => by rw [length_unlink]; rfl
      have hc := hs.byUuid.unlink hy (uuidBucket_lt hs.uuidPos _) hput
      rw [hyu] at hc
      exact ⟨hc.nodup, fun b j => (hc.mem b j).trans
        (exists_congr fun z => and_congr_right fun _ => by rw [← hb z]; exact Iff.rfl)⟩
    · have hb : ∀ z : Rec, _ &&& ((unlink s.idHeads (s.idBucket x.localId) i).length - 1) =
          s.idBucket z.localId := fun z => by rw [length_unlink]; rfl
      have hc := hs.byId.unlink hy (idBucket_lt hs.idPos _) hput
      rw [hyi] at hc
      exact ⟨hc.nodup, fun b j => (hc.mem b j).trans
        (exists_congr fun z => and_congr_right fun _ => by rw [← hb z]; exact Iff.rfl)⟩
    -- the place was taken, so the free list did not have it
    · refine List.nodup_cons.mpr ⟨fun hm => ?_, hs.freeNodup⟩
      have := ((hs.memFree i).mp hm).2
      rw [hy] at this
      cases this
    · intro j
      show j ∈ i :: s.free ↔ j < (s.put i none).cap ∧ (s.put i none).get j = none
      rw [List.mem_cons, cap_put, hput, hs.memFree j]
      by_cases hj : j = i
      · subst hj
        simp [hlt]
      · simp [hj]
    · show (if x.state = .active then s.live - 1 else s.live) = (s.put i none).recs.countP alive
      have hcount := countP_put none hlt
      have hlive := hs.live
      rw [hy, show alive none = false from rfl] at hcount
      -- only an active record was counted
      cases hxs : x.state with
      | active =>
        have hya : alive (some y) = true := by simp [alive, hyst, hxs]
        rw [hya] at hcount
        simp only [Bool.toNat_false, Bool.toNat_true] at hcount
        rw [if_pos rfl]
        omega
      | dropped =>
        have hya : alive (some y) = false := by simp [alive, hyst, hxs]
        rw [hya] at hcount
        simp only [Bool.toNat_false] at hcount
        rw [if_neg (by decide)]
        omega
    · intro j k y z hy' hz' huu
      have h1 : (s.put i none).get j = some y := hy'
      have h2 : (s.put i none).get k = some z := hz'
      rw [hput] at h1 h2
      split at h1
      next => cases h1
      split at h2
      next => cases h2
      next => exact hs.uuids j k y z h1 h2 huu

end Records

end Rant.Discovery
