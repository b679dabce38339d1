import Mathlib.Logic.Relation
import Rant.Discovery.Life
/-!
# The writes

Every handler is a chain of a few kinds of write. `Edit` is one write and `Edits` a chain, so
that what must hold of the records' debts and locators is checked against the writes alone,
not against each handler.
-/

namespace Rant.Discovery

open Rant.Transport (Bytes)

/-- What most writes leave of a record: whose it is, where it is and what it is owed. -/
def Rec.bond (x : Rec) : Bytes × Nat × Addr × Owed × Nat × Nat :=
  (x.uuid, x.localId, x.addr, x.owed, x.askTries, x.due)

/-- One write of the records, the slots or the asks. -/
inductive Edit : Core → Core → Prop
  /-- The rest of the core is written. -/
  | rest {st st' : Core} (hr : st'.records = st.records) (hs : st'.slots = st.slots)
      (ha : st'.asks = st.asks) (hi : st'.cfg.interval = st.cfg.interval) : Edit st st'
  /-- A record is, which may lose its slot. -/
  | modRec (st : Core) (i : Nat) (f : Rec → Rec)
      (hf : ∀ x, (f x).bond = x.bond ∧ ((f x).slot = x.slot ∨ (f x).slot = none)) :
      Edit st (st.modRec i f)
  /-- An ask is left one send. -/
  | once (st : Core) (i : Nat) : Edit st (st.modRec i fun x => { x with askTries := 1 })
  /-- A slot is, but for its paths. -/
  | modSlot (st : Core) (s : Nat) (f : Slot → Slot) (hf : ∀ slot, (f slot).paths = slot.paths) :
      Edit st (st.modSlot s f)
  | slotBind (st : Core) (s i : Nat) : Edit st (st.slotBind s i)
  | setState (st : Core) (i : Nat) (state : RecState) :
      Edit st { st with records := st.records.setState i state }
  | settle (st : Core) (i : Nat) (bits : Owed) : Edit st (st.settle i bits)
  | oweReply (st : Core) (i due : Nat) : Edit st (st.owe i oweReply due)
  | ask (st : Core) (i : Nat) (bits : Owed) (now : Nat) (hb : bits.ask = true) :
      Edit st (st.ask i bits now)
  | askSent (st : Core) (i now : Nat) (hdue : ∀ x, st.recAt i = some x → x.due ≤ now) :
      Edit st (st.askSent i now)
  | remove (st : Core) (i : Nat) : Edit st { st with records := st.records.remove i }
  | add (st : Core) (mem : Records.Mem) (uuid : Bytes) :
      Edit st { st with records := (st.records.add mem uuid).1 }
  /-- A migration's bound on the records and its fresh slots. -/
  | grow (st : Core) (cfg : Config) (hi : cfg.interval = st.cfg.interval) (max n : Nat) :
      Edit st { st with
        cfg := cfg
        records := { st.records with max := max }
        metaCap := cfg.blobCap
        slots := st.slots ++ List.replicate n (Slot.reset cfg) }

/-- A chain of writes. -/
def Edits : Core → Core → Prop := Relation.ReflTransGen Edit

theorem Edit.edits {st st' : Core} (h : Edit st st') : Edits st st' := Relation.ReflTransGen.single h

theorem Edits.trans {a b c : Core} (h : Edits a b) (g : Edits b c) : Edits a c :=
  Relation.ReflTransGen.trans h g

theorem Edits.refl (st : Core) : Edits st st := Relation.ReflTransGen.refl

/-- What every write keeps, a chain keeps. -/
theorem Edits.keeps {P : Core → Prop} (hP : ∀ a b, Edit a b → P a → P b) {st st' : Core}
    (h : Edits st st') (hst : P st) : P st' := by
  induction h with
  | refl => exact hst
  | tail _ hlast ih => exact hP _ _ hlast ih

variable {st : Core}

/-! ## Chains of a kind -/

theorem edits_rest {st' : Core} (hr : st'.records = st.records) (hs : st'.slots = st.slots)
    (ha : st'.asks = st.asks) (hi : st'.cfg.interval = st.cfg.interval) : Edits st st' :=
  (Edit.rest hr hs ha hi).edits

theorem edits_modRec (st : Core) (i : Nat) {f : Rec → Rec} (hf : ∀ x, (f x).bond = x.bond)
    (hs : ∀ x, (f x).slot = x.slot) : Edits st (st.modRec i f) :=
  (Edit.modRec st i f fun x => ⟨hf x, Or.inl (hs x)⟩).edits

theorem edits_note (st : Core) (m : Mark) : Edits st (st.note m) := edits_rest rfl rfl rfl rfl

theorem edits_settle (st : Core) (i : Nat) (bits : Owed) : Edits st (st.settle i bits) :=
  (Edit.settle st i bits).edits

theorem edits_ask (st : Core) (i : Nat) {bits : Owed} (hb : bits.ask = true) (now : Nat) :
    Edits st (st.ask i bits now) :=
  (Edit.ask st i bits now hb).edits

theorem edits_foldl {α : Type} {f : Core → α → Core} (hf : ∀ st a, Edits st (f st a)) (l : List α)
    (st : Core) : Edits st (l.foldl f st) := by
  induction l generalizing st with
  | nil => exact Edits.refl st
  | cons a l ih => exact (hf st a).trans (ih (f st a))

theorem edits_ite {c : Prop} [Decidable c] {a b : Core} (ha : Edits st a) (hb : Edits st b) :
    Edits st (if c then a else b) := by
  split
  next => exact ha
  next => exact hb

end Rant.Discovery
