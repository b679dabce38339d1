import Rant.Patterns.Owner
/-!
# A variable owner against its reference machine

What an owner is for is said by a machine of two optional values: the source, which the sets
write, and the forced value over it. What is observed is the forced value where there is one,
else the source. The owner keeps the two in `store` and `shadow`, whose meaning flips with the
flag, and three entry points write them: `rant_variable_set`, the local force and unforce, and
the ops of the set channel.

An op of which a buffer write finds no memory should leave the owner and the machine as they
were. The code does so but for three steps (`Spared` excludes them): it goes on into a force
whose save of the source failed, it leaves a force whose copy back failed, and leaving a force
that came before any value keeps `has_value`. `owner_refines_iff`: over the life of a
definition the owner is its machine exactly as long as no such step was taken.
-/

namespace Rant.Patterns

open Rant.Lib
open Rant.Transport (Bytes Topic)

/-! ## The machine -/

/-- A write as a writer means it. -/
inductive Write
  | set (val : Bytes)
  | force (val : Bytes)
  | unforce
  deriving Repr, DecidableEq

/-- The reference machine. -/
structure Reference where
  source : Option Bytes := none
  forced : Option Bytes := none
  deriving Repr, DecidableEq

namespace Reference

/-- The forced value if present, else the source. -/
def observed (r : Reference) : Option Bytes := r.forced <|> r.source

def write (r : Reference) : Write → Reference
  | .set val => { r with source := some val }
  | .force val => { r with forced := some val }
  | .unforce => { r with forced := none }

end Reference

/-! ## The ops -/

/-- One call or message at an owner, with the answers its buffer writes get: `okShadow` the
save of the source, `ok` the other one. -/
inductive VarOp
  | set (val : Bytes) (nowUs wallUs : Nat) (ok : Bool)
  | force (val : Bytes) (nowUs wallUs : Nat) (okShadow ok : Bool)
  | unforce (nowUs wallUs : Nat) (ok : Bool)
  | remote (m : Msg) (okShadow ok : Bool)
  deriving Repr, DecidableEq

namespace VarOp

/-- What the op asks for. Nothing where an owner takes no notice by design: an empty remote
value, and a force it does not allow. -/
def asks (allowForce : Bool) : VarOp → Option Write
  | .set val _ _ _ => some (.set val)
  | .force val _ _ _ _ => if allowForce then some (.force val) else none
  | .unforce _ _ _ => if allowForce then some .unforce else none
  | .remote m _ _ =>
    if m.header.headD 0 &&& setOpUnforce ≠ 0 then some .unforce
    else if m.data = [] then none
    else if m.header.headD 0 &&& setOpForce ≠ 0 then
      if allowForce then some (.force m.data) else none
    else some (.set m.data)

def ok : VarOp → Bool
  | .set _ _ _ ok | .force _ _ _ _ ok | .unforce _ _ ok | .remote _ _ ok => ok

def okShadow : VarOp → Bool
  | .force _ _ _ okShadow _ | .remote _ okShadow _ => okShadow
  | _ => true

def origin : VarOp → Origin
  | .set _ nowUs wallUs _ | .force _ nowUs wallUs _ _ | .unforce nowUs wallUs _ =>
    ⟨0, nowUs, wallUs⟩
  | .remote m _ _ => ⟨m.publisherId, m.recvUs, m.writtenUs⟩

/-- Whether a buffer write of the op fails, at an owner forced or not. A force that is entered
makes two, an unforce of nothing none. -/
def starved (forced : Bool) (e : VarOp) : Write → Bool
  | .set _ => !e.ok
  | .force _ => !e.ok || (!forced && !e.okShadow)
  | .unforce => forced && !e.ok

end VarOp

/-- The owner through one op: each entry point's own code. -/
def Variable.step (v : Variable) : VarOp → Variable
  | .set val nowUs wallUs ok => (v.setStart val nowUs wallUs ok).1
  | .force val nowUs wallUs okShadow ok => (v.ownerForce val ⟨0, nowUs, wallUs⟩ okShadow ok).1
  | .unforce nowUs wallUs ok =>
    if v.allowForce then (v.ownerUnforce ⟨0, nowUs, wallUs⟩ ok).1 else v
  | .remote m okShadow ok => (v.onSet m okShadow ok).1

/-- The machine through one op: a starved one does nothing. -/
def Reference.step (allowForce : Bool) (r : Reference) (e : VarOp) : Reference :=
  match e.asks allowForce with
  | none => r
  | some w => if e.starved r.forced.isSome w then r else r.write w

/-- Owner and machine side by side. -/
def Variable.beside (allowForce : Bool) (s : Variable × Reference) (e : VarOp) :
    Variable × Reference :=
  (s.1.step e, s.2.step allowForce e)

/-! ## What refinement asks -/

/-- The owner shows what the machine observes. -/
structure Refines (v : Variable) (r : Reference) : Prop where
  value : (if v.hasValue then some v.store else none) = r.observed
  forced : v.forced = r.forced.isSome

/-- The value, the flag and the count: what a failed op must leave as it is. -/
def Variable.kept (v : Variable) : Bool × Bytes × Bool × Nat :=
  (v.hasValue, v.store, v.forced, v.writeSeq)

/-- One step does what the machine says: it ends in the observed state, an op that found no
memory left value, flag and count alone, and so did a set under a force. -/
structure Faithful (allowForce : Bool) (s : Variable × Reference) (e : VarOp) : Prop where
  refines : Refines (s.1.step e) (s.2.step allowForce e)
  starved : ∀ w, e.asks allowForce = some w → e.starved s.1.forced w = true →
    (s.1.step e).kept = s.1.kept
  absorbed : ∀ val, e.asks allowForce = some (.set val) → s.1.forced = true →
    (s.1.step e).kept = s.1.kept

/-- The steps on which the owner is its machine: no force is entered over a failed save, and
one is left only with memory for the copy back and a value to go back to. -/
def Spared (allowForce : Bool) (r : Reference) (e : VarOp) : Prop :=
  match e.asks allowForce with
  | some (.force _) => r.forced = none → e.ok = true → e.okShadow = true
  | some .unforce => r.forced ≠ none → e.ok = true ∧ r.source ≠ none
  | _ => True

/-- A force is noticed where it is allowed only. -/
theorem VarOp.asks_force {a : Bool} {e : VarOp} {val : Bytes}
    (h : e.asks a = some (.force val)) : a = true := by
  cases a with
  | true => rfl
  | false =>
    cases e with
    | set => cases h
    | force => cases h
    | unforce => cases h
    | remote m okShadow ok =>
      simp only [VarOp.asks, Bool.false_eq_true, if_false] at h
      split at h
      next => cases h
      split at h
      next => cases h
      split at h <;> cases h

/-! ## The entry points are three copies of one logic -/

namespace Variable

/-- The local set stores as a remote one does; only its publish is its own. -/
theorem setStart_fst (v : Variable) (val : Bytes) (nowUs wallUs : Nat) (ok : Bool) :
    (v.setStart val nowUs wallUs ok).1 = (v.ownerApply val ⟨0, nowUs, wallUs⟩ ok).1 := by
  unfold setStart ownerApply
  split
  next => rfl
  next => split <;> rfl

/-- A force that is not allowed is refused or ignored. -/
theorem ownerForce_refused {v : Variable} (h : v.allowForce = false) (val : Bytes) (o : Origin)
    (okShadow ok : Bool) : (v.ownerForce val o okShadow ok).1 = v := by
  unfold ownerForce
  rw [if_pos h]

/-- What the owner does for a write it takes notice of. -/
def perform (v : Variable) (o : Origin) (okShadow ok : Bool) : Option Write → Variable
  | none => v
  | some (.set val) => (v.ownerApply val o ok).1
  | some (.force val) => (v.ownerForce val o okShadow ok).1
  | some .unforce => (v.ownerUnforce o ok).1

theorem perform_force (v : Variable) (val : Bytes) (o : Origin) (okShadow ok : Bool) :
    (v.ownerForce val o okShadow ok).1 =
      v.perform o okShadow ok (if v.allowForce then some (.force val) else none) := by
  cases h : v.allowForce with
  | true => rfl
  | false => exact ownerForce_refused h ..

/-- Each entry point does what the op asks for. -/
theorem step_asks (v : Variable) (e : VarOp) :
    v.step e = v.perform e.origin e.okShadow e.ok (e.asks v.allowForce) := by
  cases e with
  | set val nowUs wallUs ok => exact setStart_fst ..
  | force val nowUs wallUs okShadow ok => exact perform_force ..
  | unforce nowUs wallUs ok =>
    simp only [step, VarOp.asks]
    split <;> rfl
  | remote m okShadow ok =>
    simp only [step, onSet, VarOp.asks]
    split
    next => rfl
    by_cases hdata : m.data = []
    · -- an empty value is no write
      simp only [hdata, ne_eq, not_true_eq_false, if_false, if_true, ite_self]
      rfl
    · simp only [hdata, ne_eq, not_false_eq_true, if_true, if_false]
      split
      next => exact perform_force ..
      next => rfl

end Variable

/-! ## One write -/

/-- Owner and machine in step: the shadow is the source under a force, and the store of an
owner that never had a value is empty. -/
structure Beside (v : Variable) (r : Reference) : Prop where
  refines : Refines v r
  shadow : v.forced = true → v.shadow = r.source.getD []
  fresh : v.hasValue = false → v.store = []

/-- What refinement reads of a variable. -/
theorem Beside.congr {v w : Variable} {r : Reference} (h : Beside v r) (hk : w.kept = v.kept)
    (hs : w.forced = true → w.shadow = v.shadow) : Beside w r := by
  have hv : w.hasValue = v.hasValue := congrArg Prod.fst hk
  have ht : w.store = v.store := congrArg (fun x => x.2.1) hk
  have hf : w.forced = v.forced := congrArg (fun x => x.2.2.1) hk
  refine ⟨⟨?_, hf.trans h.refines.forced⟩, fun hw => ?_, fun hw => ?_⟩
  · rw [hv, ht]
    exact h.refines.value
  · rw [hs hw, h.shadow (hf ▸ hw)]
  · rw [ht, h.fresh (hv ▸ hw)]

/-- The store is the source where nothing is forced. -/
theorem Beside.store_eq {v : Variable} {r : Reference} (h : Beside v r) (hf : v.forced = false) :
    v.store = r.source.getD [] := by
  have hr : r.forced = none := by
    have := h.refines.forced
    rw [hf] at this
    exact Option.isNone_iff_eq_none.mp (by rw [← Option.not_isSome, ← this]; rfl)
  have hval := h.refines.value
  rw [Reference.observed, hr] at hval
  cases hv : v.hasValue with
  | true =>
    rw [hv, if_pos rfl] at hval
    rw [← (show some v.store = r.source from hval)]
    rfl
  | false =>
    rw [hv] at hval
    rw [← (show none = r.source from hval), h.fresh hv]
    rfl

/-- A counted write is seen in the count. -/
theorem Variable.bump_ne (seq : Nat) : Variable.bump seq ≠ seq := by
  unfold Variable.bump
  omega

namespace Variable

theorem ownerApply_forced {v : Variable} (h : v.forced = true) (val : Bytes) (o : Origin)
    (ok : Bool) :
    (v.ownerApply val o ok).1 = { v with shadow := if ok then val else v.shadow } := by
  unfold ownerApply
  rw [if_pos h]

theorem ownerApply_full {v : Variable} (h : v.forced = false) (val : Bytes) (o : Origin) :
    (v.ownerApply val o false).1 = v := by
  unfold ownerApply
  rw [if_neg (by rw [h]; exact Bool.false_ne_true), if_pos rfl]

theorem ownerApply_stored {v : Variable} (h : v.forced = false) (val : Bytes) (o : Origin) :
    (v.ownerApply val o true).1 =
      { v with store := val, hasValue := true, writeSeq := bump v.writeSeq }.wrote o := by
  unfold ownerApply
  rw [if_neg (by rw [h]; exact Bool.false_ne_true), if_neg (by decide)]
  exact notify_fst ..

/-- A force that finds no memory for its value may have saved the source: nothing reads the
shadow of a variable that is not forced. -/
theorem ownerForce_full {v : Variable} (h : v.allowForce = true) (val : Bytes) (o : Origin)
    (okShadow : Bool) :
    (v.ownerForce val o okShadow false).1 =
      if v.forced = false ∧ okShadow then { v with shadow := v.store } else v := by
  unfold ownerForce
  rw [if_neg (by rw [h]; exact Bool.noConfusion), if_pos rfl]

theorem ownerForce_stored {v : Variable} (h : v.allowForce = true) (val : Bytes) (o : Origin)
    (okShadow : Bool) :
    (v.ownerForce val o okShadow true).1 =
      { v with
        shadow := if v.forced = false ∧ okShadow then v.store else v.shadow
        store := val, forced := true, hasValue := true, writeSeq := bump v.writeSeq
        forcedBy := o.source }.wrote o := by
  unfold ownerForce
  rw [if_neg (by rw [h]; exact Bool.noConfusion), if_neg (by decide)]
  dsimp only
  rw [notify_fst]
  split <;> rfl

theorem ownerUnforce_idle {v : Variable} (h : v.forced = false) (o : Origin) (ok : Bool) :
    (v.ownerUnforce o ok).1 = v := by
  unfold ownerUnforce
  rw [if_pos h]

theorem ownerUnforce_forced {v : Variable} (h : v.forced = true) (o : Origin) (ok : Bool) :
    (v.ownerUnforce o ok).1 =
      { v with
        forced := false, store := if ok then v.shadow else v.store
        writeSeq := bump v.writeSeq }.wrote o := by
  unfold ownerUnforce
  rw [if_neg (by rw [h]; exact Bool.noConfusion)]
  exact notify_fst ..

end Variable

section

variable {v : Variable} {r : Reference}

/-- The machine has a forced value exactly under the flag. -/
theorem Beside.forced_none (h : Beside v r) : v.forced = false ↔ r.forced = none := by
  rw [h.refines.forced]
  cases r.forced <;> simp

theorem Beside.hasValue_forced (h : Beside v r) (hf : v.forced = true) : v.hasValue = true := by
  have hval := h.refines.value
  have hr := h.refines.forced
  rw [hf] at hr
  obtain ⟨val, hval'⟩ := Option.isSome_iff_exists.mp hr.symm
  rw [Reference.observed, hval'] at hval
  cases hv : v.hasValue with
  | true => rfl
  | false =>
    rw [hv] at hval
    cases hval

/-- A plain set. -/
theorem Beside.set (h : Beside v r) (val : Bytes) (o : Origin) (ok : Bool) :
    Beside (v.ownerApply val o ok).1 (if !ok then r else r.write (.set val)) ∧
      (ok = false ∨ v.forced = true → (v.ownerApply val o ok).1.kept = v.kept) := by
  cases hf : v.forced with
  | true =>
    rw [Variable.ownerApply_forced hf]
    refine ⟨?_, fun _ => rfl⟩
    have hr := h.refines
    obtain ⟨x, hx⟩ : ∃ x, r.forced = some x :=
      Option.isSome_iff_exists.mp (h.refines.forced.symm.trans hf)
    cases ok with
    | false => exact h.congr rfl fun _ => rfl
    | true =>
      refine ⟨⟨?_, hr.forced⟩, fun _ => rfl, h.fresh⟩
      have hval := hr.value
      simp only [Reference.observed, hx, Reference.write] at hval ⊢
      exact hval
  | false =>
    have hr : r.forced = none := h.forced_none.mp hf
    cases ok with
    | false =>
      rw [Variable.ownerApply_full hf]
      exact ⟨h, fun _ => rfl⟩
    | true =>
      rw [Variable.ownerApply_stored hf]
      refine ⟨⟨⟨?_, ?_⟩, fun hw => ?_, fun hw => ?_⟩, fun hno => ?_⟩
      · simp [Reference.observed, Reference.write, hr, Variable.wrote]
      · exact h.refines.forced
      · exact absurd (hf.symm.trans hw) Bool.false_ne_true
      · cases hw
      · rcases hno with hno | hno <;> cases hno

/-- A force the owner allows. -/
theorem Beside.force (h : Beside v r) (ha : v.allowForce = true) (val : Bytes) (o : Origin)
    {okShadow ok : Bool} (hsave : v.forced = false → ok = true → okShadow = true) :
    Beside (v.ownerForce val o okShadow ok).1
        (if !ok || (!v.forced && !okShadow) then r else r.write (.force val)) ∧
      (ok = false ∨ v.forced = false ∧ okShadow = false →
        (v.ownerForce val o okShadow ok).1.kept = v.kept) := by
  cases ok with
  | false =>
    rw [Variable.ownerForce_full ha]
    have hkept : (if v.forced = false ∧ okShadow = true then { v with shadow := v.store }
        else v).kept = v.kept := by split <;> rfl
    refine ⟨h.congr hkept fun hw => ?_, fun _ => hkept⟩
    have hf : v.forced = true := (congrArg (fun x => x.2.2.1) hkept).symm.trans hw
    rw [if_neg fun hno => Bool.noConfusion (hf.symm.trans hno.1)]
  | true =>
    have hno : (!true || (!v.forced && !okShadow)) = false := by
      cases hf : v.forced with
      | true => rfl
      | false => rw [hsave hf rfl]; rfl
    rw [hno, if_neg Bool.false_ne_true, Variable.ownerForce_stored ha]
    refine ⟨⟨⟨rfl, rfl⟩, fun _ => ?_, fun hw => ?_⟩, fun hstarved => ?_⟩
    · show (if v.forced = false ∧ okShadow = true then v.store else v.shadow) = r.source.getD []
      cases hf : v.forced with
      | true => rw [if_neg fun hx => Bool.noConfusion hx.1, h.shadow hf]
      | false => rw [if_pos ⟨rfl, hsave hf rfl⟩, h.store_eq hf]
    · cases hw
    · rcases hstarved with hs | ⟨hf, hs⟩
      · cases hs
      · rw [hsave hf rfl] at hs
        cases hs

/-- An unforce. -/
theorem Beside.unforce (h : Beside v r) (o : Origin) {ok : Bool}
    (hback : v.forced = true → ok = true ∧ r.source ≠ none) :
    Beside (v.ownerUnforce o ok).1 (if v.forced && !ok then r else r.write .unforce) ∧
      (v.forced = true ∧ ok = false → (v.ownerUnforce o ok).1.kept = v.kept) := by
  cases hf : v.forced with
  | false =>
    rw [Variable.ownerUnforce_idle hf]
    refine ⟨?_, fun _ => rfl⟩
    have hr : r.write .unforce = r := by
      have hnone := h.forced_none.mp hf
      cases r
      cases hnone
      rfl
    rw [Bool.false_and, if_neg Bool.false_ne_true, hr]
    exact h
  | true =>
    obtain ⟨rfl, hsource⟩ := hback hf
    obtain ⟨x, hx⟩ := Option.ne_none_iff_exists'.mp hsource
    rw [Variable.ownerUnforce_forced hf]
    refine ⟨⟨⟨?_, rfl⟩, fun hw => ?_, fun hw => ?_⟩, fun hno => ?_⟩
    · have hv := h.hasValue_forced hf
      have hs := h.shadow hf
      simp [Variable.wrote, Reference.observed, Reference.write, hv, hs, hx]
    · cases hw
    · exact absurd ((h.hasValue_forced hf).symm.trans hw) Bool.true_eq_false.mp
    · cases hno.2

end

/-! ## One op, and a whole life -/

/-- An op leaves `allow_force` as the definition was opened. -/
theorem Variable.allowForce_step (v : Variable) (e : VarOp) :
    (v.step e).allowForce = v.allowForce := by
  rw [Variable.step_asks]
  cases he : e.asks v.allowForce with
  | none => rfl
  | some w =>
    cases w with
    | set val =>
      show (v.ownerApply val e.origin e.ok).1.allowForce = _
      cases hf : v.forced with
      | true => rw [ownerApply_forced hf]
      | false =>
        cases e.ok with
        | true => rw [ownerApply_stored hf]; rfl
        | false => rw [ownerApply_full hf]
    | force val =>
      show (v.ownerForce val e.origin e.okShadow e.ok).1.allowForce = _
      cases ha : v.allowForce with
      | false => rw [ownerForce_refused ha, ha]
      | true =>
        cases e.ok with
        | true => rw [ownerForce_stored ha]; exact ha
        | false => rw [ownerForce_full ha]; split <;> exact ha
    | unforce =>
      show (v.ownerUnforce e.origin e.ok).1.allowForce = _
      cases hf : v.forced with
      | true => rw [ownerUnforce_forced hf]; rfl
      | false => rw [ownerUnforce_idle hf]

/-- The pair a run is in. -/
structure InStep (allowForce : Bool) (s : Variable × Reference) : Prop where
  allow : s.1.allowForce = allowForce
  beside : Beside s.1 s.2

theorem InStep.step {a : Bool} {s : Variable × Reference} (h : InStep a s) (e : VarOp)
    (hp : Spared a s.2 e) : InStep a (Variable.beside a s e) ∧ Faithful a s e := by
  obtain ⟨v, r⟩ := s
  obtain ⟨rfl, hb⟩ := h
  have hforced := hb.refines.forced
  suffices hmain : Beside (v.step e) (r.step v.allowForce e) ∧
      (∀ w, e.asks v.allowForce = some w → e.starved v.forced w = true ∨
        (∃ val, w = .set val) ∧ v.forced = true → (v.step e).kept = v.kept) by
    exact ⟨⟨v.allowForce_step e, hmain.1⟩, hmain.1.refines,
      fun w hw hs => hmain.2 w hw (Or.inl hs),
      fun val hw hf => hmain.2 _ hw (Or.inr ⟨⟨val, rfl⟩, hf⟩)⟩
  unfold Spared at hp
  rw [Variable.step_asks, Reference.step]
  cases he : e.asks v.allowForce with
  | none => exact ⟨hb, fun w hw => by cases hw⟩
  | some w =>
    rw [he] at hp
    rw [← hforced]
    cases w with
    | set val =>
      obtain ⟨h1, h2⟩ := hb.set val e.origin e.ok
      refine ⟨h1, fun w hw hs => h2 ?_⟩
      cases hw
      rcases hs with hs | hs
      · exact Or.inl (by simpa [VarOp.starved] using hs)
      · exact Or.inr hs.2
    | force val =>
      have ha : v.allowForce = true := VarOp.asks_force he
      have hsave : v.forced = false → e.ok = true → e.okShadow = true :=
        fun hf => hp (hb.forced_none.mp hf)
      obtain ⟨h1, h2⟩ := hb.force ha val e.origin hsave
      refine ⟨h1, fun w hw hs => h2 ?_⟩
      cases hw
      rcases hs with hs | ⟨⟨val', hs⟩, -⟩
      · simpa [VarOp.starved] using hs
      · cases hs
    | unforce =>
      have hback : v.forced = true → e.ok = true ∧ r.source ≠ none :=
        fun hf => hp fun hn => by rw [hb.forced_none.mpr hn] at hf; cases hf
      obtain ⟨h1, h2⟩ := hb.unforce e.origin hback
      refine ⟨h1, fun w hw hs => h2 ?_⟩
      cases hw
      rcases hs with hs | ⟨⟨val', hs⟩, -⟩
      · simpa [VarOp.starved] using hs
      · cases hs

/-- A counted write that ends in the same count is none. -/
theorem Variable.kept_counted {v w : Variable} (h : w.writeSeq = Variable.bump v.writeSeq) :
    w.kept ≠ v.kept := by
  intro hk
  exact Variable.bump_ne v.writeSeq (h.symm.trans (congrArg (fun x => x.2.2.2) hk))

/-- A step that is not spared is seen: in the count of an op that found no memory, or in a
value where there is none. -/
theorem InStep.spared {a : Bool} {s : Variable × Reference} (h : InStep a s) {e : VarOp}
    (hq : Faithful a s e) : Spared a s.2 e := by
  obtain ⟨v, r⟩ := s
  obtain ⟨rfl, hb⟩ := h
  replace hb : Beside v r := hb
  obtain ⟨hrefines, hstarved, -⟩ := hq
  dsimp only at hrefines hstarved
  rw [Variable.step_asks] at hrefines hstarved
  unfold Spared
  rw [Reference.step] at hrefines
  cases he : e.asks v.allowForce with
  | none => trivial
  | some w =>
    rw [he] at hrefines hstarved
    cases w with
    | set => trivial
    | force val =>
      intro hr hok
      have hf := hb.forced_none.mpr hr
      cases hs : e.okShadow with
      | true => rfl
      | false =>
        refine absurd (hstarved _ rfl ?_) (Variable.kept_counted ?_)
        · simp [VarOp.starved, hf, hs]
        · show (v.ownerForce val e.origin e.okShadow e.ok).1.writeSeq = _
          rw [hok, Variable.ownerForce_stored (VarOp.asks_force he)]
          rfl
    | unforce =>
      intro hr
      have hf : v.forced = true := by
        cases hf : v.forced with
        | true => rfl
        | false => exact absurd (hb.forced_none.mp hf) hr
      have hok : e.ok = true := by
        cases hok : e.ok with
        | true => rfl
        | false =>
          refine absurd (hstarved _ rfl ?_) (Variable.kept_counted ?_)
          · simp [VarOp.starved, hf, hok]
          · show (v.ownerUnforce e.origin e.ok).1.writeSeq = _
            rw [Variable.ownerUnforce_forced hf]
            rfl
      refine ⟨hok, fun hnone => ?_⟩
      have hval := hrefines.value
      dsimp only at hval
      rw [← hb.refines.forced, hf] at hval
      simp [Variable.perform, Variable.ownerUnforce_forced hf, Variable.wrote, VarOp.starved,
        hok, hb.hasValue_forced hf, Reference.observed, Reference.write] at hval
      exact Option.some_ne_none _ (hval.trans hnone)

/-- A definition that was just opened shows what the fresh machine observes: nothing. -/
theorem inStep_opened (t : Topic) (o : VarOpts) (changed : Bool) (version : Nat) :
    InStep o.allowForce ((Owner.opened t o changed version).v, {}) :=
  ⟨rfl, ⟨rfl, rfl⟩, fun h => Bool.noConfusion h, fun _ => rfl⟩

/-- Over the life of a definition the owner is its reference machine at every step exactly as
long as every step was spared: which it was, the ops and the machine alone say. -/
theorem owner_refines_iff (t : Topic) (o : VarOpts) (changed : Bool) (version : Nat)
    (es : List VarOp) :
    Along (Variable.beside o.allowForce) (Faithful o.allowForce)
        ((Owner.opened t o changed version).v, {}) es ↔
      Along (Reference.step o.allowForce) (Spared o.allowForce) {} es := by
  have hsides := along_iff (InStep o.allowForce) (fun s e h hp => h.step e hp)
    (fun s e h hq => h.spared hq) es _ (inStep_opened t o changed version)
  exact hsides.trans (along_map Prod.snd fun s e => rfl)

/-- A definition that allows force. -/
def forceable : VarOpts := ⟨[97], 0, 0, true, false, 0⟩

/-- A force before any value, then its unforce: the machine has no value again, the owner says
it has one, an empty one, and publishes it. -/
theorem force_first_keeps_value :
    ¬ Along (Variable.beside true) (Faithful true)
      ((Owner.opened .undefined forceable false 0).v, {})
      [.force [2] 0 0 true true, .unforce 0 0 true] := by
  intro h
  have hval : some [] = none := h.2.1.refines.value
  cases hval

end Rant.Patterns
