import Rant.Serialize.Types
/-!
# Compiling a schema's wire bytes

`i_rant_schema_compile` of `src/serialize/schema.c`: the measuring pass that checks every
rule of the grammar (`rdType`), the pass that flattens the type into the row table
(`emitType`), and the placing pass that gives every framed row its ordinal and every
record its default length (`schemaPlace`).

The bounds checked reader is a position into the wire and `none` once it ran short. The
two recursive passes carry a fuel of one per wire byte: each call consumes at least its
kind byte, so it never runs out before the wire does.
-/

namespace Rant.Serialize

open Rant.Lib

/-! ## The reader over wire bytes -/

/-- `i_rant_rd_u8`. -/
def rdU8 (w : Bytes) (pos : Nat) : Option (Nat × Nat) := (readLe w pos 1).map (·, pos + 1)

/-- `i_rant_rd_u16`. -/
def rdU16 (w : Bytes) (pos : Nat) : Option (Nat × Nat) := (readLe w pos 2).map (·, pos + 2)

/-- `i_rant_rd_skip`. -/
def rdSkip (w : Bytes) (pos k : Nat) : Option Nat :=
  if w.length < pos + k then none else some (pos + k)

/-- The bytes of a name at `pos`. -/
def nameAt (w : Bytes) (pos len : Nat) : Bytes := (w.drop pos).take len

/-- The option table of an enum, `n` options of `[value][u8 namelen][name]`. -/
def skipOptions (w : Bytes) (bs : Nat) : Nat → Nat → Option Nat
  | 0, pos => some pos
  | n + 1, pos => do
    let pos ← rdSkip w pos bs
    let (nl, pos) ← rdU8 w pos
    let pos ← rdSkip w pos nl
    skipOptions w bs n pos

/-! ## Measuring -/

/-- Why a wire is refused: the first rule broken, `none` when it merely ran short. -/
abbrev Why := Option String

/-- A read of the measuring pass, which has no reason of its own. -/
def orShort {α : Type} : Option α → Except Why α
  | some a => .ok a
  | none => .error none

/-- `i_rant_rd_refuse`. -/
def refuse {α : Type} (why : String) : Except Why α := .error (some why)

/-- `i_TypeLen`: what a type occupies. -/
structure TypeLen where
  size : Nat := 0
  frames : Nat := 0
  body : Nat := 0
  var : Bool := false
  deriving Repr, DecidableEq

/-- `i_rant_arr_dmin`: the default payload of an array. -/
def arrDmin (kind : Kind) (count : Nat) (elemVar : Bool) (elemBody : Nat) : Nat :=
  if elemVar = false ∨ kind = .varr then (if elemVar then 4 else 0)
  else 4 + (4 + elemBody) * count

/-- `i_rant_peek_kind`: the kind byte at `pos` with any names peeled off, `none` if the
wire runs out. -/
def peekKind (w : Bytes) : Nat → Nat → Option Nat
  | 0, _ => none
  | n + 1, pos => do
    let (k, _) ← rdU8 w pos
    if k ≠ 18 then some k
    else
      let (nl, _) ← rdU8 w (pos + 1)
      peekKind w n (pos + 2 + nl)

/-- The members of a struct: the loop of `i_rant_rd_type`'s struct case. `rd` measures
one member's type. The answer is the sums, the rows counted and the position. -/
def rdMembers (rd : Nat → Except Why (TypeLen × Nat × Nat)) (w : Bytes) :
    Nat → TypeLen → Nat → Nat → Except Why (TypeLen × Nat × Nat)
  | 0, acc, rows, pos => .ok (acc, rows, pos)
  | n + 1, acc, rows, pos => do
    let (nl, pos) ← orShort (rdU8 w pos)
    let pos ← orShort (rdSkip w pos nl)
    let (m, r, pos) ← rd pos
    rdMembers rd w n
      { acc with
        size := acc.size + m.size, frames := acc.frames + m.frames, var := acc.var || m.var }
      (rows + 1 + r) pos

/-- The switch of `i_rant_rd_type` on the kind byte `k`, the position past it. `rd`
measures a nested type, and a NAMED's inner one. -/
def rdBody (rd : Nat → Nat → Bool → Except Why (TypeLen × Nat × Nat)) (w : Bytes)
    (k pos depth : Nat) (named : Bool) : Except Why (TypeLen × Nat × Nat) :=
  match Kind.ofByte k with
  | some .arr | some .varr =>
    if maxDepth ≤ depth then refuse "arrays nest too deep"
    else do
      let (count, pos) ← if k = 11 then orShort (rdU16 w pos) else .ok (0, pos)
      let peeked ← orShort (peekKind w (w.length + 1) pos)
      if peeked = 0xFF then .error none
      else
        let (e, rows, pos) ← rd pos (depth + 1) false
        if e.var = false ∧ e.size = 0 then refuse "an array element cannot be empty"
        else if k = 11 ∧ e.var = false then
          if u32Max < count * e.size then refuse "an array is too large"
          else .ok ({ size := count * e.size }, rows + 1, pos)
        else
          let body := arrDmin (if k = 11 then .arr else .varr) count e.var e.body
          if u32Max < 4 + body then refuse "an array's default is too large"
          else .ok ({ frames := 4 + body, body := body, var := true }, rows + 1, pos)
  | some .enum =>
    if named = false then refuse "an enum needs a name"
    else do
      let (b, pos) ← orShort (rdU8 w pos)
      let (opts, pos) ← orShort (rdU16 w pos)
      match Kind.ofByte b with
      | some backing =>
        if backing.backingOk = false then refuse "an enum is backed by an integer"
        else
          let pos ← orShort (skipOptions w backing.scalarSize opts pos)
          .ok ({ size := backing.scalarSize }, 0, pos)
      | none => refuse "an enum is backed by an integer"
  | some .str => do
    let (cap, pos) ← orShort (rdU16 w pos)
    .ok ({ size := 2 + cap }, 0, pos)
  | some .vstr | some .map => .ok ({ frames := 4, var := true }, 0, pos)
  | some .struct =>
    if named = false then refuse "a struct needs a name"
    else if maxDepth ≤ depth then refuse "structs nest too deep"
    else do
      let (nf, pos) ← orShort (rdU8 w pos)
      let (m, rows, pos) ← rdMembers (fun pos => rd pos (depth + 1) false) w nf {} 0 pos
      if u32Max < m.size then refuse "a struct is too large"
      else if u32Max < m.size + m.frames then refuse "a struct's default is too large"
      else .ok ({ m with body := m.size + m.frames }, rows, pos)
  | some .named => do
    let (nl, pos) ← orShort (rdU8 w pos)
    if nl = 0 then .error none                   -- a name is required
    else
      let pos ← orShort (rdSkip w pos nl)
      if readLe w pos 1 = some 18 then refuse "a name cannot stand for another name"
      else rd pos depth true
  | some scalar => .ok ({ size := scalar.scalarSize }, 0, pos)
  | none => refuse "an unknown type kind"

/-- `i_rant_rd_type`: measures the type at `pos` and counts the rows it flattens to,
beside its own. `named` says a name wraps it, which a struct and an enum require. -/
def rdType (w : Bytes) : Nat → Nat → Nat → Bool → Except Why (TypeLen × Nat × Nat)
  | 0, _, _, _ => .error none
  | n + 1, pos, depth, named => do
    let (k, pos) ← orShort (rdU8 w pos)
    rdBody (rdType w n) w k pos depth named

/-- The text of a refusal. -/
def Why.text (why : Why) : String := why.getD "the wire is malformed"

/-- `i_rant_schema_wire_fields`: counts every row of the root. -/
def wireFields (w : Bytes) : Except String Nat := do
  let malformed : Except String Nat := .error (Why.text none)
  match rdU8 w 0 with
  | none => malformed
  | some (ver, pos) =>
    if ver ≠ wireVersion then malformed
    else
      match rdU8 w pos with
      | none => malformed
      | some (rl, pos) =>
        match rdSkip w pos rl with
        | none => malformed
        | some pos =>
          match readLe w pos 1 with
          | none => malformed
          | some k =>
            if k = 18 then .error "a root's name rides the header"
            else
              match rdType w (w.length + 1) pos 0 (rl ≠ 0) with
              | .error why => .error why.text
              | .ok (t, rows, _) =>
                if u32Max < t.size + t.frames then .error "the default message is too large"
                -- a bare or alias root is the first row itself
                else .ok (if k = 12 then rows else 1 + rows)

/-! ## Flattening -/

/-- `i_rant_field_init`. -/
def fieldInit (name : Bytes) (depth : Nat) (parent : Option Nat) (offset : Nat) : Field :=
  { name, depth, parent, offset }

/-- The table so far, the wire position and the fixed size of what was emitted. -/
structure Emitted where
  tbl : Table
  pos : Nat
  size : Nat

/-- The members of a struct: the loop of `i_rant_emit_struct`. `emit` fills one member's
row and emits what it flattens to. -/
def emitMembers (emit : Table → Nat → Nat → Nat → Nat → Option Emitted) (w : Bytes) (total : Nat)
    (depth : Nat) (parent : Option Nat) :
    Nat → Table → Nat → Nat → Bool → Option (Emitted × Bool)
  | 0, tbl, pos, running, var => some (⟨tbl, pos, running⟩, var)
  | n + 1, tbl, pos, running, var => do
    let (fl, pos) ← rdU8 w pos
    let name := nameAt w pos fl
    let pos ← rdSkip w pos fl
    if total ≤ tbl.length then none
    else
      let idx := tbl.length
      let e ← emit (tbl ++ [fieldInit name depth parent running]) pos idx depth running
      emitMembers emit w total depth parent n e.tbl e.pos (running + e.size)
        (var || (rowOf e.tbl idx).var)

/-- `i_rant_emit_struct`: emits the members of the struct body at `pos`. -/
def emitStruct (emit : Table → Nat → Nat → Nat → Nat → Option Emitted) (w : Bytes) (total : Nat)
    (tbl : Table) (pos depth : Nat) (parent : Option Nat) (base : Nat) :
    Option (Emitted × Bool) := do
  let (nf, pos) ← rdU8 w pos
  if maxDepth ≤ depth then none
  else
    let (e, var) ← emitMembers emit w total depth parent nf tbl pos base false
    some (⟨e.tbl, e.pos, e.size - base⟩, var)

/-- The name tag of a type, if a NAMED wraps it, and the kind byte. -/
def typeTag (w : Bytes) (pos : Nat) : Option (Bytes × Nat × Nat) := do
  let (k, pos) ← rdU8 w pos
  if k ≠ 18 then some ([], k, pos)
  else
    let (nl, pos) ← rdU8 w pos
    let tn := nameAt w pos nl
    let pos ← rdSkip w pos nl
    if nl = 0 then none
    else
      let (k, pos) ← rdU8 w pos
      if k = 18 then none else some (tn, k, pos)

/-- Row `idx` as the end of `i_rant_emit_type` leaves it. -/
def fillRow (tbl : Table) (idx kpos pos : Nat) (typeName : Bytes) (kind : Kind) (size : Nat)
    (var : Bool) (count strCap : Nat) (backing : Kind) : Table :=
  tbl.set idx { rowOf tbl idx with
    typeOff := kpos, typeName := typeName, kind := kind, typeLen := pos - kpos, size := size
    var := var, next := tbl.length, count := count, strCap := strCap, backing := backing }

/-- The switch of `i_rant_emit_type` on the kind byte `k`, the position past it. `emit`
fills a nested row. -/
def emitBody (emit : Table → Nat → Nat → Nat → Nat → Option Emitted) (w : Bytes) (total : Nat)
    (tbl : Table) (kpos idx depth base : Nat) (tn : Bytes) (k pos : Nat) : Option Emitted :=
  match Kind.ofByte k with
  | some .struct => do
    let (e, var) ← emitStruct emit w total tbl pos (depth + 1) (some idx) base
    some ⟨fillRow e.tbl idx kpos e.pos tn .struct e.size var 0 0 .u8, e.pos, e.size⟩
  | some .arr => do
    let (count, pos) ← rdU16 w pos
    if total ≤ tbl.length then none
    else
      -- the element row, offsets from its start
      let row := fieldInit [] (depth + 1) (some idx) 0
      let e ← emit (tbl ++ [row]) pos tbl.length (depth + 1) 0
      let var := (rowOf e.tbl tbl.length).var
      if var = false ∧ e.size = 0 then none
      else if var = false ∧ u32Max < count * e.size then none
      else
        let size := if var then 0 else count * e.size
        some ⟨fillRow e.tbl idx kpos e.pos tn .arr size var count 0 .u8, e.pos, size⟩
  | some .varr =>
    if total ≤ tbl.length then none
    else do
      let row := fieldInit [] (depth + 1) (some idx) 0
      let e ← emit (tbl ++ [row]) pos tbl.length (depth + 1) 0
      if (rowOf e.tbl tbl.length).var = false ∧ e.size = 0 then none
      else some ⟨fillRow e.tbl idx kpos e.pos tn .varr 0 true 0 0 .u8, e.pos, 0⟩
  | some .str => do
    let (cap, pos) ← rdU16 w pos
    some ⟨fillRow tbl idx kpos pos tn .str (2 + cap) false 0 cap .u8, pos, 2 + cap⟩
  | some .enum => do
    let (b, pos) ← rdU8 w pos
    let (opts, pos) ← rdU16 w pos
    match Kind.ofByte b with
    | none => none
    | some backing =>
      if backing.backingOk = false then none
      else
        let pos ← skipOptions w backing.scalarSize opts pos
        let size := backing.scalarSize
        some ⟨fillRow tbl idx kpos pos tn .enum size false opts 0 backing, pos, size⟩
  | some .vstr => some ⟨fillRow tbl idx kpos pos tn .vstr 0 true 0 0 .u8, pos, 0⟩
  | some .map => some ⟨fillRow tbl idx kpos pos tn .map 0 true 0 0 .u8, pos, 0⟩
  | some .named => none
  | some k =>
    some ⟨fillRow tbl idx kpos pos tn k k.scalarSize false 0 0 .u8, pos, k.scalarSize⟩
  | none => none

/-- `i_rant_emit_type`: fills row `idx` from the type at `kpos` and emits the rows it
flattens to. `base` is where the row's storage starts. -/
def emitType (w : Bytes) (total : Nat) : Nat → Table → Nat → Nat → Nat → Nat → Option Emitted
  | 0, _, _, _, _, _ => none
  | n + 1, tbl, kpos, idx, depth, base => do
    let (tn, k, pos) ← typeTag w kpos
    emitBody (emitType w total n) w total tbl kpos idx depth base tn k pos

/-! ## Placing -/

/-- The nearest array around a row: its parent when that is an array, else the parent's. -/
def nearestArray (t : Table) (parent : Option Nat) : Option Nat :=
  match parent with
  | none => none
  | some p => if (rowOf t p).kind.isArray then some p else (rowOf t p).arrParent

/-- Row `i` with the arrays around it. -/
def placedRow (t : Table) (i : Nat) : Field :=
  { rowOf t i with
    arrParent := nearestArray t (rowOf t i).parent
    arrDepth := match nearestArray t (rowOf t i).parent with
      | none => 0
      | some a => (rowOf t a).arrDepth + 1 }

/-- One more frame in the record of row `r`. -/
def bumpFrames (t : Table) (r : Nat) : Table :=
  t.set r { rowOf t r with nVar := (rowOf t r).nVar + 1 }

/-- One row of the first loop of `i_rant_schema_place`: its enclosing arrays, and for a
framed row the next ordinal of its record. A frame has no static offset. -/
def placeRow (t : Table) (ord i : Nat) : Table × Nat :=
  let f := placedRow t i
  if rowFramed t f then
    match rowRecord f with
    | none => (t.set i { f with offset := 0, varOrd := ord }, ord + 1)
    | some r =>
      (bumpFrames (t.set i { f with offset := 0, varOrd := (rowOf t r).nVar }) r, ord)
  else (t.set i f, ord)

/-- The first loop of `i_rant_schema_place`. -/
def placeRows (t : Table) (ord : Nat) : Nat → Nat → Table × Nat
  | 0, _ => (t, ord)
  | n + 1, i =>
    let r := placeRow t ord i
    placeRows r.1 r.2 n (i + 1)

/-- A variable row's default body, `none` for a struct that is not an element: its
frames join its record. -/
def defaultBody (t : Table) (i : Nat) : Option Nat :=
  let f := rowOf t i
  if f.kind = .struct then
    match f.parent with
    | none => none
    | some p => if (rowOf t p).kind = .struct then none else some (f.size + f.dmin)
  else if f.kind.isArray then
    some (arrDmin f.kind f.count (rowOf t (i + 1)).var (rowOf t (i + 1)).dmin)
  else some 0

/-- One row of the second loop: its default body, and its frame's share of its record's.
`none` when a default would pass 4 GB. -/
def placeMin (t : Table) (root i : Nat) : Option (Table × Nat) :=
  let f := rowOf t i
  if f.var = false then some (t, root)
  else
    match defaultBody t i with
    | none => some (t, root)
    | some d =>
      if u32Max < d then none
      else
        let t := t.set i { f with dmin := d }
        if rowFramed t f then
          match rowRecord f with
          | none => some (t, root + 4 + d)
          | some r =>
            let acc := (rowOf t r).dmin + 4 + d
            if u32Max < acc then none else some (t.set r { rowOf t r with dmin := acc }, root)
        else some (t, root)

/-- The second loop of `i_rant_schema_place`, children first. -/
def placeMins : Nat → Table → Nat → Option (Table × Nat)
  | 0, t, root => some (t, root)
  | i + 1, t, root => do
    let (t, root) ← placeMin t root i
    placeMins i t root

/-- `i_rant_schema_place`: the placed table, the message's frames and the default
message's length. -/
def schemaPlace (t : Table) (size : Nat) : Option (Table × Nat × Nat) := do
  let (t, ord) := placeRows t 0 t.length 0
  let (t, root) ← placeMins t.length t 0
  if u32Max < size + root then none else some (t, ord, size + root)

/-- `i_rant_schema_compile` past the count of its rows. -/
def compileRows (w : Bytes) (total : Nat) : Option Schema := do
  let (ver, pos) ← rdU8 w 0
  if ver ≠ wireVersion then none
  else
    let (rl, pos) ← rdU8 w pos
    let name := nameAt w pos rl
    let pos ← rdSkip w pos rl
    let k ← readLe w pos 1
    let emit := emitType w total (w.length + 1)
    let e ←
      if k = 12 then (emitStruct emit w total [] (pos + 1) 0 none 0).map Prod.fst
      else if total = 0 then none
      else emit [fieldInit [] 0 none 0] pos 0 0 0
    if e.tbl.length ≠ total then none
    else
      let (fields, nVar, msgMin) ← schemaPlace e.tbl e.size
      some { wire := w, name, size := e.size, msgMin, nVar, valueRoot := k ≠ 12, fields }

/-- `i_rant_schema_compile` and, with it, `i_rant_schema_parse` where memory suffices. -/
def compile (w : Bytes) : Option Schema := do
  let total ← (wireFields w).toOption
  if 0xFFFF < total then none else compileRows w total

end Rant.Serialize
