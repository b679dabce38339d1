import Rant.Serialize.DefaultTree
/-!
# The wire check and the parse

`i_rant_schema_wire_why` and `i_rant_schema_parse` over the same bytes. Both count a type's
rows in 32 bits and both run the measuring walk; the parse then flattens the type, and there
the walks differ twice. A struct of a bare or alias root is refused one level earlier than
it is measured, and a type of 2^32 rows or more is counted short, so its rows find no room.
-/

namespace Rant.Serialize

open Rant.Lib

/-! ## The two entry points -/

/-- `i_rant_schema_wire_fields`: the rows, counted in 32 bits. -/
def wireCount (w : Bytes) : Except String Nat := (wireFields w).map (· % 2 ^ 32)

/-- `i_rant_schema_wire_why`: what is wrong with the wire, `none` if nothing is. -/
def wireWhy (w : Bytes) : Option String :=
  if w = [] then some "the wire is empty"
  else
    match wireCount w with
    | .error why => some why
    | .ok n => if 0xFFFF < n then some "a schema has at most 65535 fields" else none

/-- What the measuring walk finds of the root's type: the size and the frames that
`i_rant_schema_wire_fields` adds up. -/
def wireMeasure (w : Bytes) : Option TypeLen := do
  let (_, pos) ← rdU8 w 0
  let (rl, pos) ← rdU8 w pos
  let pos ← rdSkip w pos rl
  let (t, _, _) ← (rdType w (w.length + 1) pos 0 (rl ≠ 0)).toOption
  some t

/-- `i_rant_schema_parse`, its allocation granted. -/
def schemaParse (w : Bytes) : Option Schema :=
  if w = [] then none
  else
    match wireCount w with
    | .error _ => none
    | .ok total => if 0xFFFF < total then none else compileRows w total

/-! ## Over a schema of the grammar -/

theorem wireFields_nil : ¬ ∃ n, wireFields [] = .ok n := by
  intro ⟨n, h⟩
  cases h

variable {sc : SchemaTy}

variable {w : Bytes}

theorem wireFields_denotes (hd : Denotes w sc) :
    wireFields w = .ok sc.rows :=
  wireFields_iff.mpr ⟨sc, hd.1, by simpa [At] using hd.2, rfl⟩

theorem ne_nil_of_denotes (hd : Denotes w sc) : w ≠ [] := by
  rintro rfl
  exact wireFields_nil ⟨_, wireFields_denotes hd⟩

/-- The two entry points over a wire that denotes nothing. -/
theorem refused (h : ¬ ∃ sc, Denotes w sc) :
    wireWhy w ≠ none ∧ schemaParse w = none := by
  unfold wireWhy schemaParse wireCount
  cases hw : wireFields w with
  | ok n =>
    obtain ⟨sc, hok, hat, -⟩ := wireFields_iff.mp hw
    exact absurd ⟨sc, hok, by simpa [At] using hat⟩ h
  | error e =>
    constructor
    · split
      · simp
      · simp [Except.map]
    · split <;> rfl

mutual
/-- A type `D` levels in has no struct past the last level. -/
theorem Ty.structDepth_le : ∀ (ty : Ty) (D : Nat) (named : Bool), ty.Ok D named →
    ty.structDepth = 0 ∨ D + ty.structDepth ≤ maxDepth
  | .named _ ty, D, _, hok => Ty.structDepth_le ty D true hok.2.2.2
  | .arr _ e, D, _, hok => by
    have he := Ty.structDepth_le e (D + 1) false hok.2.2.1
    rw [Ty.structDepth]
    split <;> omega
  | .varr e, D, _, hok => by
    have he := Ty.structDepth_le e (D + 1) false hok.2.1
    rw [Ty.structDepth]
    split <;> omega
  | .struct ms, D, _, hok => by
    have hms := Members.structDepth_le ms (D + 1) hok.2.2.2.1
    have hd := hok.2.1
    rw [Ty.structDepth]
    omega
  | .scalar _, _, _, _ => Or.inl rfl
  | .str _, _, _, _ => Or.inl rfl
  | .vstr, _, _, _ => Or.inl rfl
  | .map, _, _, _ => Or.inl rfl
  | .enum _ _, _, _, _ => Or.inl rfl
theorem Members.structDepth_le : ∀ (ms : Members) (D : Nat), ms.Ok D →
    ms.structDepth = 0 ∨ D + ms.structDepth ≤ maxDepth
  | .nil, _, _ => Or.inl rfl
  | .cons _ ty rest, D, hok => by
    have hty := Ty.structDepth_le ty D false hok.2.1
    have hrest := Members.structDepth_le rest D hok.2.2
    rw [Members.structDepth]
    omega
end

variable {T : Nat → Field}

/-- A row in front of shallow rows. -/
theorem ArraysShallow.cons {i n : Nat} (h : ArraysShallow T (i + 1) n)
    (hi : (T i).kind.isArray = true → (T i).depth < maxDepth) : ArraysShallow T i n := by
  intro j hlo hhi hk
  by_cases hj : j = i
  · subst hj
    exact hi hk
  · exact h j (by omega) hhi hk

theorem shallow_leaf {ty : Ty} {D i n q : Nat} {named : Bool}
    (hok : ty.Ok D named) (hty : ty.isLeaf = true) (hrows : ty.Rows T i q)
    (hnext : n = i + 1 + ty.rows) : ArraysShallow T i n := by
  have hn : n = i + 1 := by
    cases ty <;> first
      | exact hnext
      | cases hty
  intro j hlo hhi hk
  obtain rfl : j = i := by omega
  rw [(ty.measure_of_leafOk hok hty hrows).1, (Ty.leaf_kind hty hok).2] at hk
  cases hk

mutual
/-- The measuring walk refuses an array nested too deep, so no row of one lies at the limit. -/
theorem Ty.arrays_shallow : ∀ (ty : Ty) (D : Nat) (named : Bool)
    (i n d q : Nat) (p : Option Nat) (base size : Nat) (var : Bool), ty.Ok D named →
    ty.Rows T i q → Laid T false i n d p base size var → n = i + 1 + ty.rows → d ≤ D →
    ArraysShallow T i n
  | .named _ ty, D, _, i, n, d, _, p, base, size, var, hok, hrows, hl, hnext, hd =>
    Ty.arrays_shallow ty D true i n d _ p base size var hok.2.2.2 hrows hl hnext hd
  | .arr _ e, D, _, i, n, d, _, _, _, _, _, hok, hrows, hl, hnext, hd => by
    obtain ⟨hh, _, _, -, hrec⟩ := hl.array_inv (by rw [hrows.1]; rfl)
    have hrest := Ty.arrays_shallow e (D + 1) false (i + 1) n (d + 1) _ _ _ _ _ hok.2.2.1
      hrows.2.2.2.2 hrec (by rw [hnext, Ty.rows]; omega) (by omega)
    exact hrest.cons (by rw [hh.depth]; exact fun _ => Nat.lt_of_le_of_lt hd hok.1)
  | .varr e, D, _, i, n, d, _, _, _, _, _, hok, hrows, hl, hnext, hd => by
    obtain ⟨hh, _, _, -, hrec⟩ := hl.array_inv (by rw [hrows.1]; rfl)
    have hrest := Ty.arrays_shallow e (D + 1) false (i + 1) n (d + 1) _ _ _ _ _ hok.2.1
      hrows.2.2.2 hrec (by rw [hnext, Ty.rows]; omega) (by omega)
    exact hrest.cons (by rw [hh.depth]; exact fun _ => Nat.lt_of_le_of_lt hd hok.1)
  | .struct ms, D, _, i, n, d, _, _, _, _, _, hok, hrows, hl, hnext, hd => by
    obtain ⟨-, hrec⟩ := hl.struct_inv hrows.1
    have hrest := Members.arrays_shallow ms (D + 1) (i + 1) n (d + 1) _ _ _ _ _ hok.2.2.2.1
      hrows.2 hrec hnext (by omega)
    exact hrest.cons fun hc => by rw [hrows.1] at hc; cases hc
  | .scalar _, _, _, _, _, _, _, _, _, _, _, hok, hrows, _, hnext, _
  | .str _, _, _, _, _, _, _, _, _, _, _, hok, hrows, _, hnext, _
  | .vstr, _, _, _, _, _, _, _, _, _, _, hok, hrows, _, hnext, _
  | .map, _, _, _, _, _, _, _, _, _, _, hok, hrows, _, hnext, _
  | .enum _ _, _, _, _, _, _, _, _, _, _, _, hok, hrows, _, hnext, _ =>
    shallow_leaf hok rfl hrows hnext
theorem Members.arrays_shallow : ∀ (ms : Members) (D i n d q : Nat)
    (p : Option Nat) (base size : Nat) (var : Bool), ms.Ok D → ms.Rows T i q →
    Laid T true i n d p base size var → n = i + ms.rows → d ≤ D → ArraysShallow T i n
  | .nil, _, i, n, _, _, _, _, _, _, _, _, _, hnext, _ => fun j hlo hhi _ => by
    rw [Members.rows] at hnext
    omega
  | .cons _ ty rest, D, i, n, d, _, p, _, _, _, hok, hrows, hl, hnext, hd => by
    obtain ⟨-, hrow, htrows, hrrows⟩ := hrows
    rw [Members.rows] at hnext
    cases hl with
    | nil => omega
    | cons hfst hrest =>
      obtain rfl := hfst.head.next.symm.trans hrow.next
      have h1 := Ty.arrays_shallow ty D false i _ d _ p _ _ _ hok.2.1 htrows hfst rfl hd
      have h2 := Members.arrays_shallow rest D _ n d _ p _ _ _ hok.2.2 hrrows hrest (by omega) hd
      intro j hlo hhi hk
      by_cases hj : j < i + 1 + ty.rows
      · exact h1 j hlo hj hk
      · exact h2 j (by omega) hhi hk
end

/-- What the parse builds of a schema of the grammar. -/
structure ParsedAs (w : Bytes) (sc : SchemaTy) (s : Schema) : Prop where
  wire : s.wire = w
  name : s.name = sc.name
  valueRoot : s.valueRoot = decide (sc.ty.kind ≠ .struct)
  nfields : s.fields.length = sc.rows
  size : s.size = sc.ty.measure.size
  msgMin : s.msgMin = sc.ty.measure.size + sc.ty.measure.frames
  typed : ∀ j, j < s.fields.length → RowTyped w (rowOf s.fields j)
  built : ∃ t₀, Built s t₀ ∧ schemaPlace t₀ s.size = some (s.fields, s.nVar, s.msgMin)

/-- Placing leaves a row's type where it stands. -/
theorem rowTyped_same {t u : Table} (h : SameTable t u) (j : Nat)
    (ht : RowTyped w (rowOf t j)) : RowTyped w (rowOf u j) := by
  have := h.row j
  unfold SameRow at this
  rw [this]
  exact ht

/-- What the parse makes of the emitted rows of a root. -/
def placedSchema (w : Bytes) (sc : SchemaTy) (total : Nat) (e : Emitted) : Option Schema :=
  if e.tbl.length ≠ total then none
  else (schemaPlace e.tbl e.size).bind fun x =>
    some { wire := w, name := sc.name, size := e.size, msgMin := x.2.2, nVar := x.2.1
           valueRoot := decide (sc.ty.kind ≠ .struct), fields := x.1 }

/-- The header of a wire that denotes a schema. -/
theorem compileRows_header (hd : Denotes w sc) (total : Nat) :
    At w sc.typePos sc.ty.encode ∧ compileRows w total =
      (if sc.ty.kind = .struct then
          (emitStruct (emitType w total (w.length + 1)) w total [] (sc.typePos + 1) 0 none 0).map
            Prod.fst
        else if total = 0 then none
        else emitType w total (w.length + 1) [fieldInit [] 0 none 0] sc.typePos 0 0 0).bind
        (placedSchema w sc total) := by
  obtain ⟨h₁, h₂, h₃, hname, hty⟩ := schema_header hd.1 (by simpa [At] using hd.2)
  have h₄ := (rdU8_le (rdU8_kind hty)).2.2
  refine ⟨hty, ?_⟩
  unfold compileRows
  simp only [Option.bind_eq_bind, h₁, h₂, h₃, h₄, Option.bind_some, ne_eq, not_true_eq_false,
    if_false, kind_code_struct, nameAt_eq hname]
  by_cases hk : sc.ty.kind = .struct
  · simp only [if_pos hk]
    rfl
  simp only [if_neg hk]
  by_cases ht : total = 0
  · simp only [if_pos ht]
    rfl
  · simp only [if_neg ht]
    rfl

/-- A struct root: the flattening walk goes through where its rows find room. -/
theorem compileRows_struct {ms : Members} (hd : Denotes w sc) (hs : sc.ty = .struct ms)
    (total : Nat) :
    (total < sc.rows → compileRows w total = none) ∧
    (total = sc.rows → ∃ s, compileRows w total = some s ∧ ParsedAs w sc s) := by
  obtain ⟨hat, hrun⟩ := compileRows_header hd total
  have hk : sc.ty.kind = .struct := by rw [hs]; rfl
  have hrows : sc.rows = ms.rows := by rw [SchemaTy.rows, if_pos hk, hs, Ty.rows]
  have hok := hd.1.ty
  have hle := hat.le
  rw [hs] at hat hok hle
  obtain ⟨-, -, hlen, hms, hfit⟩ := hok
  rw [Ty.encode] at hle
  simp only [List.length_append, length_writeLe] at hle
  rw [Ty.encode, at_append, at_append] at hat
  simp only [length_writeLe] at hat
  have hnf := rdU8_iff.mpr ⟨rfl, hlen, hat.2.1⟩
  -- the members' structs lie one level deeper than their rows
  have hem : Emittable ms.structDepth 0 := by
    have := ms.structDepth_le 1 hms
    unfold Emittable
    omega
  have htree := emitType_tree w total (w.length + 1)
  obtain ⟨hgo, hstop⟩ := @emitMembers_tree w total _ _ htree 0 1 none ms [] (sc.typePos + 1 + 1) 0
    false (by omega) hms hat.2.2 (Nat.zero_le _)
  rw [if_pos hk] at hrun
  simp only [emitStruct, hnf, Option.bind_eq_bind, Option.bind_some,
    if_neg (show ¬ maxDepth ≤ 0 by decide)] at hrun
  constructor
  · intro hlt
    rw [hstop (by intro hc; simp only [List.length_nil] at hc; omega)] at hrun
    exact hrun
  · intro heq
    obtain ⟨e, v, he, hl, hp, hsz, hv⟩ := hgo ⟨hem, by simp only [List.length_nil]; omega⟩
    obtain ⟨-, hlaid, nf', mpos', hnf', hsp⟩ := emitStruct_laid (emitType_laid w total (w.length + 1))
      (show emitStruct (emitType w total (w.length + 1)) w total [] (sc.typePos + 1) 0 none 0 =
        some (⟨e.tbl, e.pos, e.size - 0⟩, v) by
          simp only [emitStruct, hnf, Option.bind_eq_bind, Option.bind_some,
            if_neg (show ¬ maxDepth ≤ 0 by decide), he])
    have hnf'' := hnf.symm.trans hnf'
    simp only [Option.some.injEq, Prod.mk.injEq] at hnf''
    obtain ⟨rfl, rfl⟩ := hnf''
    obtain ⟨hrw, -, -⟩ := ms.rows_core _ _ _ _ _ hms hat.2.2 hsp
    rw [he] at hrun
    simp only [Nat.zero_add, Nat.sub_zero, List.length_nil] at hl hsz hrun hlaid hrw hsp
    have hsh := ms.arrays_shallow 1 0 _ 0 _ none 0 _ _ hms hrw hlaid (by omega) (Nat.zero_le 1)
    rw [hsz] at hlaid
    obtain ⟨t, ord, hplace, htl⟩ := schemaPlace_members hms hfit hrw hl hlaid
    simp only [Option.bind_some, Option.map_some, placedSchema] at hrun
    rw [if_neg (by omega), hsz, hplace] at hrun
    have hmeasure : sc.ty.measure.size = ms.measure.size := by rw [hs]; rfl
    have hframes : sc.ty.measure.frames = ms.measure.frames := by rw [hs]; rfl
    have hplaced := schemaPlace_placed hlaid hplace
    refine ⟨_, hrun, ⟨rfl, rfl, rfl, ?_, ?_, ?_, ?_, e.tbl, ⟨⟨v, ?_⟩, ⟨_, _, _, hsp, ?_, ?_⟩, ?_,
      hplaced, hsh⟩, hplace⟩⟩
    · exact htl.trans (hl.trans hrows.symm)
    · exact hmeasure.symm
    · rw [hmeasure, hframes]
    · intro j hj
      dsimp only at hj
      refine rowTyped_same hplaced.same j ?_
      exact ms.rows_typed 1 0 _ hms hat.2.2 hrw j (Nat.zero_le j) (by omega)
    · simpa [hk] using hlaid
    · simp [hk]
    · exact (rdU8_le hnf).2.1
    · simp [hk]

/-- A bare or alias root: it goes through where, on top, no struct lies on the last level the
measuring walk takes. -/
theorem compileRows_value (hd : Denotes w sc) (hs : sc.ty.kind ≠ .struct)
    (total : Nat) :
    (total < sc.rows ∨ maxDepth ≤ sc.ty.structDepth → compileRows w total = none) ∧
    (total = sc.rows → sc.ty.structDepth < maxDepth →
      ∃ s, compileRows w total = some s ∧ ParsedAs w sc s) := by
  obtain ⟨hat, hrun⟩ := compileRows_header hd total
  have hrows : sc.rows = 1 + sc.ty.rows := by rw [SchemaTy.rows, if_neg hs]
  have hle := hat.le
  rw [if_neg hs] at hrun
  by_cases ht : total = 0
  · rw [if_pos ht] at hrun
    exact ⟨fun _ => hrun, fun hc => absurd hc (by omega)⟩
  rw [if_neg ht] at hrun
  have hlen : ([fieldInit [] 0 none 0] : Table).length = 1 := rfl
  obtain ⟨hgo, hstop⟩ := emitType_tree w total (w.length + 1) sc.ty 0 _ [fieldInit [] 0 none 0]
    sc.typePos 0 0 0 (by omega) hd.1.ty hat (by simp) (by rw [hlen]; omega)
  have hgoes : Goes sc.ty 0 total [fieldInit [] 0 none 0] ↔
      sc.ty.structDepth < maxDepth ∧ sc.rows ≤ total := by
    unfold Goes Emittable
    rw [hlen, hrows]
    have : 0 < maxDepth := by decide
    omega
  rw [hgoes] at hgo hstop
  constructor
  · intro h
    rw [hstop (by omega)] at hrun
    exact hrun
  · intro heq hdepth
    obtain ⟨e, he, hl, hp, hsz, hv⟩ := hgo ⟨hdepth, by omega⟩
    obtain ⟨-, hname, hlaid, hsp⟩ := emitType_laid w total (w.length + 1) _ _ _ _ _ _ he hlen []
      none rfl
    obtain ⟨hrow, hrw⟩ := sc.ty.rows_spelled hd.1.ty hat hsp
    rw [hlen] at hl
    rw [hsz] at hlaid
    have hsh := sc.ty.arrays_shallow 0 _ 0 _ 0 _ none 0 _ _ hd.1.ty hrw.rows hlaid hrw.next
      (Nat.le_refl 0)
    obtain ⟨t, ord, hplace, htl⟩ := schemaPlace_ty hd.1.ty hd.1.fits hrw.rows hl hlaid
    rw [he] at hrun
    simp only [Option.bind_some, placedSchema] at hrun
    rw [if_neg (by omega), hsz, hplace] at hrun
    have hplaced := schemaPlace_placed hlaid hplace
    refine ⟨_, hrun, ⟨rfl, rfl, rfl, ?_, rfl, rfl, ?_, e.tbl, ⟨⟨(rowOf e.tbl 0).var, ?_⟩,
      ⟨_, _, _, hsp, ?_, ?_⟩, fun _ => hname, hplaced, hsh⟩, hplace⟩⟩
    · exact htl.trans (hl.trans hrows.symm)
    · intro j hj
      dsimp only at hj
      refine rowTyped_same hplaced.same j ?_
      by_cases h0 : j = 0
      · subst h0
        exact ⟨sc.ty, 0, _, hd.1.ty, by rw [hrow.typeOff]; exact hat⟩
      · exact sc.ty.rows_typed 0 _ 0 _ hd.1.ty hat hrw.rows j (by omega) (by omega)
    · simpa [hs] using hlaid
    · simp [hs]
    · exact hat.1

/-! ## Where the check and the parse agree -/

/-- The check reports nothing exactly where the parse succeeds, and then the rows and the
default message it measured are those of the schema parsed. -/
structure Agrees (w : Bytes) : Prop where
  accepts : wireWhy w = none ↔ (schemaParse w).isSome = true
  measures : ∀ s, schemaParse w = some s → ∃ t, wireCount w = .ok s.fields.length ∧
    wireMeasure w = some t ∧ s.msgMin = t.size + t.frames

/-- A schema whose rows are emitted where they are counted: a struct root, or no struct on the
last level; and a count that the table's limit refuses when it does not fit 32 bits. -/
def SchemaTy.EmitsCounted (sc : SchemaTy) : Prop :=
  sc.rows % 2 ^ 32 ≤ 0xFFFF →
    sc.rows < 2 ^ 32 ∧ (sc.ty.kind = .struct ∨ sc.ty.structDepth < maxDepth)

theorem wireCount_denotes (hd : Denotes w sc) :
    wireCount w = .ok (sc.rows % 2 ^ 32) := by
  rw [wireCount, wireFields_denotes hd]
  rfl

theorem wireMeasure_denotes (hd : Denotes w sc) :
    wireMeasure w = some sc.ty.measure := by
  obtain ⟨h₁, h₂, h₃, hname, hty⟩ := schema_header hd.1 (by simpa [At] using hd.2)
  have h₅ := (rdType_iff hty.1).mpr ⟨sc.ty, hd.1.ty, hty, rfl⟩
  simp only [wireMeasure, Option.bind_eq_bind, h₁, h₂, h₃, Option.bind_some, h₅, Except.toOption,
    treeAnswer]

/-- What the check says of a wire of the grammar. -/
theorem wireWhy_denotes (hd : Denotes w sc) :
    wireWhy w = none ↔ sc.rows % 2 ^ 32 ≤ 0xFFFF := by
  unfold wireWhy
  rw [if_neg (ne_nil_of_denotes hd), wireCount_denotes hd]
  dsimp only
  split
  next h => simp; omega
  next h => simp; omega

theorem schemaParse_denotes (hd : Denotes w sc) :
    schemaParse w = if 0xFFFF < sc.rows % 2 ^ 32 then none
      else compileRows w (sc.rows % 2 ^ 32) := by
  unfold schemaParse
  rw [if_neg (ne_nil_of_denotes hd), wireCount_denotes hd]

/-- The rows are emitted where they are all counted and no struct lies too deep. -/
theorem compileRows_counted (hd : Denotes w sc) :
    (sc.rows < 2 ^ 32 ∧ (sc.ty.kind = .struct ∨ sc.ty.structDepth < maxDepth) →
      ∃ s, compileRows w (sc.rows % 2 ^ 32) = some s ∧ ParsedAs w sc s) ∧
    (¬ (sc.rows < 2 ^ 32 ∧ (sc.ty.kind = .struct ∨ sc.ty.structDepth < maxDepth)) →
      compileRows w (sc.rows % 2 ^ 32) = none) := by
  have hlt := Nat.mod_lt sc.rows (show 0 < 2 ^ 32 by decide)
  by_cases hk : sc.ty.kind = .struct
  · obtain ⟨ms, hms⟩ : ∃ ms, sc.ty = .struct ms := by
      cases hty : sc.ty with
      | struct ms => exact ⟨ms, rfl⟩
      | scalar k =>
        have hok := hd.1.ty
        rw [hty] at hk hok
        obtain rfl : k = .struct := hk
        exact absurd hok (Nat.lt_irrefl 0)
      | _ =>
        rw [hty] at hk
        exact absurd hk (by simp [Ty.kind])
    obtain ⟨hstop, hgo⟩ := compileRows_struct hd hms (sc.rows % 2 ^ 32)
    refine ⟨fun h => hgo (Nat.mod_eq_of_lt h.1), fun h => hstop ?_⟩
    have hrows : ¬ sc.rows < 2 ^ 32 := fun hr => h ⟨hr, Or.inl hk⟩
    omega
  · obtain ⟨hstop, hgo⟩ := compileRows_value hd hk (sc.rows % 2 ^ 32)
    refine ⟨fun h => hgo (Nat.mod_eq_of_lt h.1) (h.2.resolve_left hk), fun h => hstop ?_⟩
    by_cases hrows : sc.rows < 2 ^ 32
    · right
      by_contra hc
      exact h ⟨hrows, Or.inr (Nat.not_le.mp hc)⟩
    · left
      omega

/-- A wire that opens with a schema of the grammar. -/
theorem agrees_denotes (hd : Denotes w sc) :
    Agrees w ↔ sc.EmitsCounted := by
  have hwhy := wireWhy_denotes hd
  have hparse := schemaParse_denotes hd
  obtain ⟨hgo, hstop⟩ := compileRows_counted hd
  by_cases hsmall : sc.rows % 2 ^ 32 ≤ 0xFFFF
  · rw [if_neg (by omega)] at hparse
    constructor
    · intro h _
      by_contra hc
      have hs := h.accepts.mp (hwhy.mpr hsmall)
      rw [hparse, hstop hc] at hs
      exact absurd hs (by simp)
    · intro h
      obtain ⟨s, hs, hp⟩ := hgo (h hsmall)
      refine ⟨?_, fun s' hs' => ?_⟩
      · rw [hwhy, hparse, hs]
        exact ⟨fun _ => rfl, fun _ => hsmall⟩
      · obtain rfl := Option.some.inj (hs.symm.trans (hparse.symm.trans hs'))
        refine ⟨_, ?_, wireMeasure_denotes hd, hp.msgMin⟩
        rw [hp.nfields, wireCount_denotes hd, Nat.mod_eq_of_lt (h hsmall).1]
  · rw [if_pos (by omega)] at hparse
    constructor
    · intro _ hc
      exact absurd hc hsmall
    · intro _
      refine ⟨?_, fun s hs => ?_⟩
      · rw [hwhy, hparse]
        exact ⟨fun hc => absurd hc hsmall, fun hc => absurd hc (by simp)⟩
      · rw [hparse] at hs
        exact absurd hs.symm (Option.some_ne_none s)

/-- The wire check is the parse exactly where the schema's rows are emitted as counted. -/
theorem wire_check_iff (w : Bytes) : Agrees w ↔ ∀ sc, Denotes w sc → sc.EmitsCounted := by
  constructor
  · intro h sc hd
    exact (agrees_denotes hd).mp h
  · intro h
    by_cases hd : ∃ sc, Denotes w sc
    · obtain ⟨sc, hd⟩ := hd
      exact (agrees_denotes hd).mpr (h sc hd)
    obtain ⟨hwhy, hparse⟩ := refused hd
    refine ⟨by simp [hwhy, hparse], fun s hs => ?_⟩
    rw [hparse] at hs
    exact absurd hs.symm (Option.some_ne_none s)

/-- Seven anonymous arrays around the struct `P { x u8 }`: the check reports nothing, and the
parse fails. -/
def deepRoot : Bytes := [8, 0, 15, 15, 15, 15, 15, 15, 15, 18, 1, 80, 12, 1, 1, 120, 0]

theorem deep_root_parts : ¬ Agrees deepRoot := by
  intro h
  have hs := h.accepts.mp (by decide +kernel)
  exact absurd hs (by decide +kernel)

/-- The parse is the compile, a schema of 2^32 rows or more refused by both. -/
theorem schemaParse_eq (w : Bytes) : schemaParse w = compile w := by
  rw [show compile w = (wireFields w).toOption.bind fun total =>
    if 0xFFFF < total then none else compileRows w total from rfl]
  by_cases hd : ∃ sc, Denotes w sc
  · obtain ⟨sc, hd⟩ := hd
    rw [schemaParse_denotes hd, wireFields_denotes hd]
    simp only [Except.toOption, Option.bind_some]
    by_cases hrows : sc.rows < 2 ^ 32
    · rw [Nat.mod_eq_of_lt hrows]
    · rw [(compileRows_counted hd).2 (fun hc => hrows hc.1),
        if_pos (show 0xFFFF < sc.rows by omega)]
      exact ite_self none
  · rw [(refused hd).2]
    cases hw : wireFields w with
    | error e => rfl
    | ok n =>
      obtain ⟨sc, hok, hat, -⟩ := wireFields_iff.mp hw
      exact absurd ⟨sc, hok, by simpa [At] using hat⟩ hd

/-- What a compiled schema is: the one its wire denotes, with the defaults of its rows. -/
theorem compile_parsed {s : Schema} (h : compile w = some s) :
    ∃ sc, Denotes w sc ∧ ParsedAs w sc s := by
  rw [← schemaParse_eq] at h
  by_cases hd : ∃ sc, Denotes w sc
  · obtain ⟨sc, hd⟩ := hd
    rw [schemaParse_denotes hd] at h
    by_cases hsmall : 0xFFFF < sc.rows % 2 ^ 32
    · rw [if_pos hsmall] at h
      exact absurd h.symm (Option.some_ne_none s)
    rw [if_neg hsmall] at h
    obtain ⟨hgo, hstop⟩ := compileRows_counted hd
    by_cases hc : sc.rows < 2 ^ 32 ∧ (sc.ty.kind = .struct ∨ sc.ty.structDepth < maxDepth)
    · obtain ⟨s', hs', hp⟩ := hgo hc
      obtain rfl := Option.some.inj (hs'.symm.trans h)
      exact ⟨sc, hd, hp⟩
    · rw [hstop hc] at h
      exact absurd h.symm (Option.some_ne_none s)
  · rw [(refused hd).2] at h
    exact absurd h.symm (Option.some_ne_none s)

/-- A compiled schema is built over a layout, which the placing pass turned into its table. -/
theorem compile_placed {s : Schema} (h : compile w = some s) :
    s.wire = w ∧ ∃ t₀, Built s t₀ ∧ schemaPlace t₀ s.size = some (s.fields, s.nVar, s.msgMin) := by
  obtain ⟨sc, -, hp⟩ := compile_parsed h
  exact ⟨hp.wire, hp.built⟩

theorem compile_built {s : Schema} (h : compile w = some s) :
    s.wire = w ∧ ∃ t₀, Built s t₀ := by
  obtain ⟨hw, t₀, hb, -⟩ := compile_placed h
  exact ⟨hw, t₀, hb⟩

/-! ## Which wires are canonical

The parser reads a schema of the grammar off the front of a wire and looks at nothing behind
it, and it refuses two kinds of schemas the grammar has. A wire is the spelling of what it
denotes where these two never come apart. -/

end Rant.Serialize
