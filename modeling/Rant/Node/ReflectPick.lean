import Rant.Node.Reflect
import Rant.Serialize.Preorder
/-!
# Adopting a declaration

`i_rant_node_core_reflect_pick`: the schema and the reliability a handle takes from the mesh. A
reader takes the provider's, a writer the widest there is: the scan keeps a declaration until one
comes whose type it is a subset of. A subset of a subset is one, so no declaration is strictly
wider than what is left.
-/

namespace Rant.Node

open Rant.Lib
open Rant.Serialize (Schema Bytes compile subset subset_trans)

/-! ## The pick -/

/-- A discovery slot: its id, whether it is ACTIVE, whether the transport has it, its tables. -/
structure MeshPeer where
  id : Nat
  active : Bool
  added : Bool
  refl : Reflect

/-- What the mesh table says of an entity. The provider is a peer's id, `none` for `RANT_SELF`. -/
structure MeshEntity where
  generation : Nat
  provider : Option (Option Nat × Nat)

/-- What a pick answers. -/
structure Picked where
  found : Bool := false
  schema : Option Schema := none
  reliable : Bool := false
  generation : Nat := 0

/-- The tables, folded where they are dirty. -/
def Reflect.current (r : Reflect) (self : Bool) : Reflect := if r.dirty then r.fold self else r

/-- `i_rant_reflect_which`: 0 the primary, 1 the response, 2 the progress channel. -/
def Reflect.which (r : Reflect) (e : PeerEntity) (which : Nat) : Option RantChannel :=
  let idx := if which = 1 then e.rsp else if which = 2 then e.prg else e.primary
  if idx ≠ none16 then some (r.channel idx) else none

/-- The best declaration so far, with its hash, and whether a subscriber asks for reliability. -/
structure Scan where
  best : Option (Schema × Nat) := none
  reliable : Bool := false
  found : Bool := false

/-- One declaration is looked at. -/
def Scan.see (s : Scan) (ch : RantChannel) : Scan :=
  let s := { s with found := true, reliable := s.reliable || (ch.role.subs && ch.reliable) }
  match ch.schema with
  | none => s
  | some sc =>
    match s.best with
    | none => { s with best := some (sc, ch.schemaHash) }
    | some (best, hash) =>
      if ch.schemaHash ≠ hash ∧ subset best sc = true then { s with best := some (sc, ch.schemaHash) }
      else s

/-- The scan of one node's entities. -/
def Scan.table (kind : EntityKind) (id which : Nat) (s : Scan) (r : Reflect) : Scan :=
  r.ent.foldl (fun s e =>
    if e.kind = kind ∧ e.id = id then
      match r.which e which with
      | some ch => s.see ch
      | none => s
    else s) s

/-- The node's reflection state. -/
structure Mesh where
  peers : List MeshPeer
  self : Reflect

namespace Mesh

variable (c : Mesh)

/-- `i_rant_node_core_reflect_of`. -/
def reflectOf : Option Nat → Option Reflect
  | none => some c.self
  | some id => (c.peers.find? fun p => p.id == id && p.added).map (·.refl)

/-- The tables the scan goes over: the live peers in slot order, then our own. -/
def tables : List Reflect :=
  (c.peers.filter fun p => p.active && p.added).map (·.refl.current false) ++ [c.self.current true]

/-- `i_rant_node_core_reflect_pick` of the entity the mesh table has as `m`. -/
def reflectPick (m : Option MeshEntity) (kind : EntityKind) (name : Bytes) (which : Nat)
    (writer : Bool) : Picked :=
  match m with
  | none => {}
  | some m =>
    -- a reader takes the provider's declaration for this channel
    let provided : Option RantChannel :=
      if writer then none
      else
        match m.provider with
        | none => none
        | some (peer, slot) =>
          match c.reflectOf peer with
          | none => none
          | some r => r.which (r.ent.getD slot {}) which
    match provided with
    | some ch => ⟨true, ch.schema, ch.reliable, m.generation⟩
    | none =>
      let s := c.tables.foldl (Scan.table kind (topicId name) which) {}
      ⟨s.found, s.best.map (·.1), s.reliable, m.generation⟩

/-- The live declarations of an entity's channel, in the order they are seen. -/
def declarations (kind : EntityKind) (name : Bytes) (which : Nat) : List RantChannel :=
  c.tables.flatMap fun r =>
    (r.ent.filter fun e => e.kind = kind ∧ e.id = topicId name).filterMap (r.which · which)

end Mesh

/-! ## The scan -/

/-- The scan over tables is the scan over what they declare. -/
theorem table_eq (kind : EntityKind) (name : Bytes) (which : Nat) (s : Scan) (r : Reflect) :
    s.table kind (topicId name) which r =
      ((r.ent.filter fun e => e.kind = kind ∧ e.id = topicId name).filterMap (r.which · which)).foldl
        Scan.see s := by
  unfold Scan.table
  induction r.ent generalizing s with
  | nil => rfl
  | cons e es ih =>
    rw [List.foldl_cons, ih]
    by_cases he : e.kind = kind ∧ e.id = topicId name
    · rw [if_pos he, List.filter_cons, if_pos (decide_eq_true he)]
      cases hw : r.which e which with
      | none => simp only [List.filterMap_cons, hw]
      | some ch => simp only [List.filterMap_cons, hw, List.foldl_cons]
    · rw [if_neg he, List.filter_cons, if_neg (by rw [decide_eq_true_eq]; exact he)]

theorem tables_eq (kind : EntityKind) (name : Bytes) (which : Nat) (rs : List Reflect) (s : Scan) :
    rs.foldl (Scan.table kind (topicId name) which) s =
      (rs.flatMap fun r => (r.ent.filter fun e => e.kind = kind ∧ e.id = topicId name).filterMap
        (r.which · which)).foldl Scan.see s := by
  induction rs generalizing s with
  | nil => rfl
  | cons r rs ih => rw [List.foldl_cons, ih, List.flatMap_cons, List.foldl_append, table_eq]

/-- A writer's pick is the scan of the declarations. -/
theorem pick_writer (c : Mesh) (m : MeshEntity) (kind : EntityKind) (name : Bytes) (which : Nat) :
    c.reflectPick (some m) kind name which true =
      { found := ((c.declarations kind name which).foldl Scan.see {}).found
        schema := ((c.declarations kind name which).foldl Scan.see {}).best.map (·.1)
        reliable := ((c.declarations kind name which).foldl Scan.see {}).reliable
        generation := m.generation } := by
  unfold Mesh.declarations
  rw [← tables_eq]
  rfl

/-- One schema for each hash, as the intern table has them. -/
def OneSchema (l : List RantChannel) : Prop :=
  ∀ x ∈ l, ∀ y ∈ l, ∀ s t, x.schema = some s → y.schema = some t → x.schemaHash = y.schemaHash → s = t

/-- What the scan keeps of the declarations it saw. -/
structure Seen (l : List RantChannel) (s : Scan) : Prop where
  best : ∀ sc h, s.best = some (sc, h) → ∃ ch ∈ l, ch.schema = some sc ∧ ch.schemaHash = h
  none : s.best = none → ∀ ch ∈ l, ch.schema = none
  widest : ∀ sc h, s.best = some (sc, h) → ∀ ch ∈ l, ∀ t, ch.schema = some t →
    subset sc t = true → t = sc ∨ subset t sc = true
  reliable : s.reliable = true ↔ ∃ ch ∈ l, ch.role.subs = true ∧ ch.reliable = true

theorem seen_start : Seen [] {} where
  best := fun _ _ h => absurd h.symm (Option.some_ne_none _)
  none := fun _ _ h => absurd h List.not_mem_nil
  widest := fun _ _ h => absurd h.symm (Option.some_ne_none _)
  reliable := by
    refine iff_of_false Bool.false_ne_true ?_
    rintro ⟨ch, hch, -⟩
    exact List.not_mem_nil hch

theorem see_reliable (s : Scan) (ch : RantChannel) :
    (s.see ch).reliable = (s.reliable || (ch.role.subs && ch.reliable)) := by
  unfold Scan.see
  dsimp only
  split
  next => rfl
  split
  next => rfl
  next => split <;> rfl

/-- What a declaration leaves of the best so far. -/
theorem see_best (s : Scan) (ch : RantChannel) :
    (ch.schema = none ∧ (s.see ch).best = s.best) ∨
    (∃ sc, ch.schema = some sc ∧ s.best = none ∧ (s.see ch).best = some (sc, ch.schemaHash)) ∨
    ∃ sc b h, ch.schema = some sc ∧ s.best = some (b, h) ∧
      ((ch.schemaHash ≠ h ∧ subset b sc = true ∧ (s.see ch).best = some (sc, ch.schemaHash)) ∨
        (¬ (ch.schemaHash ≠ h ∧ subset b sc = true) ∧ (s.see ch).best = some (b, h))) := by
  unfold Scan.see
  dsimp only
  cases ch.schema with
  | none => exact Or.inl ⟨rfl, rfl⟩
  | some sc =>
    refine Or.inr ?_
    cases hb : s.best with
    | none => exact Or.inl ⟨sc, rfl, rfl, rfl⟩
    | some b =>
      refine Or.inr ⟨sc, b.1, b.2, rfl, rfl, ?_⟩
      dsimp only
      split
      next hwider => exact Or.inl ⟨hwider.1, hwider.2, rfl⟩
      next hno => exact Or.inr ⟨hno, rfl⟩

/-- One declaration more. -/
theorem seen_step {l : List RantChannel} {s : Scan} {ch : RantChannel} (h : Seen l s)
    (hone : OneSchema (l ++ [ch])) : Seen (l ++ [ch]) (s.see ch) := by
  have hch : ch ∈ l ++ [ch] := List.mem_append_right l List.mem_cons_self
  have hold : ∀ {x}, x ∈ l → x ∈ l ++ [ch] := fun hx => List.mem_append_left _ hx
  have hrel : (s.see ch).reliable = true ↔
      ∃ x ∈ l ++ [ch], x.role.subs = true ∧ x.reliable = true := by
    rw [see_reliable, Bool.or_eq_true, Bool.and_eq_true, h.reliable]
    constructor
    · rintro (⟨x, hx, hr⟩ | hr)
      · exact ⟨x, hold hx, hr⟩
      · exact ⟨ch, hch, hr⟩
    · rintro ⟨x, hx, hr⟩
      rcases List.mem_append.mp hx with hx | hx
      · exact Or.inl ⟨x, hx, hr⟩
      · rw [List.mem_singleton.mp hx] at hr
        exact Or.inr hr
  rcases see_best s ch with ⟨hnone, hbest⟩ | ⟨sc, hsc, hempty, hbest⟩ |
    ⟨sc, b, hash, hsc, hsb, ⟨hne, hsub, hbest⟩ | ⟨hno, hbest⟩⟩
  · -- an untyped declaration
    refine ⟨fun t k hk => ?_, fun hk x hx => ?_, fun t k hk x hx u hu hsub => ?_, hrel⟩
    · obtain ⟨x, hx, hxs⟩ := h.best t k (hbest ▸ hk)
      exact ⟨x, hold hx, hxs⟩
    · rcases List.mem_append.mp hx with hx | hx
      · exact h.none (hbest ▸ hk) x hx
      · rw [List.mem_singleton.mp hx]
        exact hnone
    · rcases List.mem_append.mp hx with hx | hx
      · exact h.widest t k (hbest ▸ hk) x hx u hu hsub
      · rw [List.mem_singleton.mp hx, hnone] at hu
        exact absurd hu.symm (Option.some_ne_none u)
  · -- the first typed one
    refine ⟨fun t k hk => ?_, fun hk => ?_, fun t k hk x hx u hu hsub => ?_, hrel⟩
    · obtain ⟨rfl, rfl⟩ := Prod.mk.inj (Option.some.inj (hbest.symm.trans hk))
      exact ⟨ch, hch, hsc, rfl⟩
    · exact absurd (hbest.symm.trans hk) (Option.some_ne_none _)
    · obtain ⟨rfl, rfl⟩ := Prod.mk.inj (Option.some.inj (hbest.symm.trans hk))
      rcases List.mem_append.mp hx with hx | hx
      · exact absurd (hu.symm.trans (h.none hempty x hx)) (Option.some_ne_none u)
      · rw [List.mem_singleton.mp hx] at hu
        exact Or.inl (Option.some.inj (hu.symm.trans hsc))
  · -- a wider one: what was wider than it was wider than the best before
    refine ⟨fun t k hk => ?_, fun hk => ?_, fun t k hk x hx u hu hwider => ?_, hrel⟩
    · obtain ⟨rfl, rfl⟩ := Prod.mk.inj (Option.some.inj (hbest.symm.trans hk))
      exact ⟨ch, hch, hsc, rfl⟩
    · exact absurd (hbest.symm.trans hk) (Option.some_ne_none _)
    · obtain ⟨rfl, rfl⟩ := Prod.mk.inj (Option.some.inj (hbest.symm.trans hk))
      rcases List.mem_append.mp hx with hx | hx
      · rcases h.widest b hash hsb x hx u hu (subset_trans hsub hwider) with rfl | hback
        · exact Or.inr hsub
        · exact Or.inr (subset_trans hback hsub)
      · rw [List.mem_singleton.mp hx] at hu
        exact Or.inl (Option.some.inj (hu.symm.trans hsc))
  · -- one that is not wider, or the same again
    refine ⟨fun t k hk => ?_, fun hk => ?_, fun t k hk x hx u hu hwider => ?_, hrel⟩
    · obtain ⟨rfl, rfl⟩ := Prod.mk.inj (Option.some.inj (hbest.symm.trans hk))
      obtain ⟨x, hx, hxs⟩ := h.best b hash hsb
      exact ⟨x, hold hx, hxs⟩
    · exact absurd (hbest.symm.trans hk) (Option.some_ne_none _)
    · obtain ⟨rfl, rfl⟩ := Prod.mk.inj (Option.some.inj (hbest.symm.trans hk))
      rcases List.mem_append.mp hx with hx | hx
      · exact h.widest b hash hsb x hx u hu hwider
      · rw [List.mem_singleton.mp hx, hsc] at hu
        obtain rfl := Option.some.inj hu
        obtain ⟨y, hy, hys, hyh⟩ := h.best b hash hsb
        have hhash : ch.schemaHash = hash := by
          by_contra hne
          exact hno ⟨hne, hwider⟩
        exact Or.inl (hone ch hch y (hold hy) sc b hsc hys (hhash.trans hyh.symm))

/-- The scan of all declarations. -/
theorem seen_all : ∀ {l : List RantChannel} {f : List RantChannel} {s : Scan}, Seen f s →
    OneSchema (f ++ l) → Seen (f ++ l) (l.foldl Scan.see s)
  | [], f, s, h, _ => by
    rw [List.append_nil]
    exact h
  | ch :: l, f, s, h, hone => by
    have hsplit : f ++ ch :: l = f ++ [ch] ++ l := by
      rw [List.append_assoc]
      rfl
    rw [hsplit] at hone ⊢
    refine seen_all (seen_step h fun x hx y hy => ?_) hone
    exact hone x (List.mem_append_left l hx) y (List.mem_append_left l hy)

/-! ## The widest declaration -/

/-- What a pick tells a writer of the declarations `l`. -/
structure Widest (l : List RantChannel) (p : Picked) : Prop where
  declared : ∀ sc, p.schema = some sc → ∃ ch ∈ l, ch.schema = some sc
  typed : p.schema = none → ∀ ch ∈ l, ch.schema = none
  widest : ∀ sc, p.schema = some sc → ∀ ch ∈ l, ∀ t, ch.schema = some t →
    ¬ (subset sc t = true ∧ subset t sc = false)
  /-- A superset of all is met by one that is a superset of it, or is the pick. -/
  superset : ∀ ch ∈ l, ∀ t, ch.schema = some t →
    (∀ x ∈ l, ∀ sc, x.schema = some sc → subset sc t = true) →
      ∃ x ∈ l, ∃ sc, x.schema = some sc ∧ p.schema = some sc ∧ (sc = t ∨ subset t sc = true)
  unique : ∀ ch ∈ l, ∀ t, ch.schema = some t →
    (∀ x ∈ l, ∀ sc, x.schema = some sc → x.schemaHash ≠ ch.schemaHash →
      subset sc t = true ∧ subset t sc = false) →
      ∃ x ∈ l, x.schemaHash = ch.schemaHash ∧ p.schema = some t
  reliable : p.reliable = true ↔ ∃ ch ∈ l, ch.role.subs = true ∧ ch.reliable = true

/-- The schema a writer adopts is the widest declaration. -/
theorem reflectPick_widest (c : Mesh) (m : MeshEntity) (kind : EntityKind) (name : Bytes)
    (which : Nat) (hone : OneSchema (c.declarations kind name which)) :
    Widest (c.declarations kind name which) (c.reflectPick (some m) kind name which true) := by
  rw [pick_writer]
  generalize c.declarations kind name which = l at hone
  have h : Seen l (l.foldl Scan.see {}) := seen_all seen_start hone
  generalize l.foldl Scan.see {} = s at h
  have hbest : ∀ sc, s.best.map (·.1) = some sc → ∃ k, s.best = some (sc, k) := by
    intro sc hsc
    obtain ⟨⟨b, k⟩, hb, rfl⟩ := Option.map_eq_some_iff.mp hsc
    exact ⟨k, hb⟩
  have hsome : ∀ ch ∈ l, ∀ t, ch.schema = some t → ∃ sc k, s.best = some (sc, k) := by
    intro ch hch t ht
    cases hb : s.best with
    | none => exact absurd (ht.symm.trans (h.none hb ch hch)) (Option.some_ne_none t)
    | some b => exact ⟨b.1, b.2, rfl⟩
  constructor
  · intro sc hsc
    obtain ⟨k, hk⟩ := hbest sc hsc
    obtain ⟨ch, hch, hs, -⟩ := h.best sc k hk
    exact ⟨ch, hch, hs⟩
  · intro hnone
    exact h.none (Option.map_eq_none_iff.mp hnone)
  · rintro sc hsc ch hch t ht ⟨hsub, hback⟩
    obtain ⟨k, hk⟩ := hbest sc hsc
    rcases h.widest sc k hk ch hch t ht hsub with rfl | hb
    · exact absurd (hback.symm.trans hsub) Bool.false_ne_true
    · exact absurd (hback.symm.trans hb) Bool.false_ne_true
  · intro ch hch t ht hall
    obtain ⟨sc, k, hk⟩ := hsome ch hch t ht
    obtain ⟨x, hx, hxs, -⟩ := h.best sc k hk
    refine ⟨x, hx, sc, hxs, by rw [hk]; rfl, ?_⟩
    rcases h.widest sc k hk ch hch t ht (hall x hx sc hxs) with rfl | hb
    · exact Or.inl rfl
    · exact Or.inr hb
  · intro ch hch t ht hall
    obtain ⟨sc, k, hk⟩ := hsome ch hch t ht
    obtain ⟨x, hx, hxs, hxk⟩ := h.best sc k hk
    have hpick : s.best.map (·.1) = some sc := by
      rw [hk]
      rfl
    by_cases hhash : x.schemaHash = ch.schemaHash
    · obtain rfl := hone x hx ch hch sc t hxs ht hhash
      exact ⟨x, hx, hhash, hpick⟩
    obtain ⟨hsub, hback⟩ := hall x hx sc hxs hhash
    rcases h.widest sc k hk ch hch t ht hsub with rfl | hb
    · exact absurd (hback.symm.trans hsub) Bool.false_ne_true
    · exact absurd (hback.symm.trans hb) Bool.false_ne_true
  · exact h.reliable

/-! ## Types as wide as each other -/

/-- A declaration of `s`. -/
def declares (s : Schema) : RantChannel :=
  { schema := some s, schemaHash := schemaHash s, role := .subOnly, reliable := true, present := true
    entity := 0 }

/-- Peers that declare one topic each, of the empty name. -/
def declaring (l : List Schema) : Mesh where
  peers := l.mapIdx fun i s =>
    ⟨i + 1, true, true, { chan := [declares s], ent := [{ id := topicId [], primary := 0 }] }⟩
  self := {}

theorem declarations_pair (s t : Schema) :
    (declaring [s, t]).declarations .topic [] 0 = [declares s, declares t] := rfl

/-- The second of two that read each other is picked. -/
theorem pick_pair (m : MeshEntity) {s t : Schema} (hne : schemaHash t ≠ schemaHash s)
    (hsub : subset s t = true) :
    ((declaring [s, t]).reflectPick (some m) .topic [] 0 true).schema = some t := by
  rw [pick_writer, declarations_pair]
  show (((Scan.see {} (declares s)).see (declares t)).best.map (·.1)) = some t
  rcases see_best (Scan.see {} (declares s)) (declares t) with
    ⟨hnone, -⟩ | ⟨sc, -, hempty, -⟩ | ⟨sc, b, h, hsc, hb, hcase⟩
  · exact absurd hnone (Option.some_ne_none t)
  · exact absurd hempty (Option.some_ne_none _)
  · obtain ⟨rfl, rfl⟩ := Prod.mk.inj (Option.some.inj hb)
    rcases hcase with ⟨-, -, hbest⟩ | ⟨hno, -⟩
    · rw [hbest]
      exact hsc.symm
    · obtain rfl := Option.some.inj hsc
      exact absurd ⟨hne, hsub⟩ hno

/-- `struct A { a: u8, b: u8 }` and the same with the fields the other way round. -/
def abWire : Bytes := [8, 1, 65, 12, 2, 1, 97, 0, 1, 98, 0]
def baWire : Bytes := [8, 1, 65, 12, 2, 1, 98, 0, 1, 97, 0]

/-- Two schemas that read each other and hash apart. -/
theorem ab_ba : ∃ s t, compile abWire = some s ∧ compile baWire = some t ∧ subset s t = true ∧
    subset t s = true ∧ schemaHash s ≠ schemaHash t := by
  obtain ⟨s, hs⟩ : ∃ s, compile abWire = some s := Option.isSome_iff_exists.mp (by decide +kernel)
  obtain ⟨t, ht⟩ : ∃ t, compile baWire = some t := Option.isSome_iff_exists.mp (by decide +kernel)
  have hall : ((compile abWire).bind fun s => (compile baWire).map fun t =>
      subset s t && subset t s && schemaHash s != schemaHash t) = some true := by
    decide +kernel
  rw [hs, ht, Option.bind_some, Option.map_some, Option.some.injEq, Bool.and_eq_true,
    Bool.and_eq_true, bne_iff_ne] at hall
  obtain ⟨⟨hst, hts⟩, hne⟩ := hall
  exact ⟨s, t, hs, ht, hst, hts, hne⟩

theorem reflectPick_widest_pair : ∃ s t, compile abWire = some s ∧ compile baWire = some t ∧
    (declaring [s, t]).declarations .topic [] 0 = [declares s, declares t] ∧
    Widest ((declaring [s, t]).declarations .topic [] 0)
      ((declaring [s, t]).reflectPick (some ⟨7, none⟩) .topic [] 0 true) := by
  obtain ⟨s, t, hs, ht, -, -, hne⟩ := ab_ba
  refine ⟨s, t, hs, ht, declarations_pair s t, reflectPick_widest _ _ _ _ _ ?_⟩
  rw [declarations_pair]
  intro x hx y hy u v hu hv hh
  have hpick : ∀ {z w}, z ∈ [declares s, declares t] → z.schema = some w →
      z = declares w ∧ (w = s ∨ w = t) := by
    intro z w hz hw
    rw [List.mem_cons, List.mem_singleton] at hz
    rcases hz with rfl | rfl
    · obtain rfl := Option.some.inj hw
      exact ⟨rfl, Or.inl rfl⟩
    · obtain rfl := Option.some.inj hw
      exact ⟨rfl, Or.inr rfl⟩
  obtain ⟨rfl, hus⟩ := hpick hx hu
  obtain ⟨rfl, hvs⟩ := hpick hy hv
  have hh : schemaHash u = schemaHash v := hh
  rcases hus with rfl | rfl <;> rcases hvs with rfl | rfl
  · rfl
  · exact absurd hh hne
  · exact absurd hh.symm hne
  · rfl

/-- Both read each other, so the order of the peers says which is picked. -/
theorem pick_by_order : ∃ s t, compile abWire = some s ∧ compile baWire = some t ∧
    subset s t = true ∧ subset t s = true ∧ schemaHash s ≠ schemaHash t ∧
    ((declaring [s, t]).reflectPick (some ⟨0, none⟩) .topic [] 0 true).schema = some t ∧
    ((declaring [t, s]).reflectPick (some ⟨0, none⟩) .topic [] 0 true).schema = some s := by
  obtain ⟨s, t, hs, ht, hst, hts, hne⟩ := ab_ba
  exact ⟨s, t, hs, ht, hst, hts, hne, pick_pair _ hne.symm hst, pick_pair _ hne hts⟩

end Rant.Node
