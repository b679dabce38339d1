import Rant.Lib.Endian
/-!
# The schema layer's data model

The flat row table of `src/serialize/internal.h`, in the source's words. A type is one
row, its members and its array element are the rows right after it, depth first, so a
type's rows are the range `[row, next)`. A row index is a `Nat` and the source's
`0xFFFF` ("no parent") is `none`.

Two kinds of memory are told apart. A message is whatever bytes arrived, so every read
of it goes through `readLe`, which is `none` outside: the model of a reader returns
`none` exactly when the source would have read outside the bytes it was given. The
table is the compiler's own, so a row is read with `Schema.row`.
-/

namespace Rant.Serialize

open Rant.Lib

/-- A byte string. -/
abbrev Bytes := List UInt8

/-- `RANT_SCHEMA_WIRE_VERSION`. -/
def wireVersion : Nat := 8

/-- `RANT_SCHEMA_MAX_DEPTH`: the nesting the parser accepts. -/
def maxDepth : Nat := 8

/-- The largest `uint32_t`. -/
def u32Max : Nat := 0xFFFFFFFF

/-! ## Kinds -/

/-- `RantSchemaTypeKind`, in the order of its wire bytes. -/
inductive Kind
  | u8 | u16 | u32 | u64
  | i8 | i16 | i32 | i64
  | f32 | f64 | bool
  | arr | struct | str | vstr | varr | map | enum | named
  deriving Repr, DecidableEq

/-- The kind of a wire byte. -/
def Kind.ofByte : Nat → Option Kind
  | 0 => some .u8 | 1 => some .u16 | 2 => some .u32 | 3 => some .u64
  | 4 => some .i8 | 5 => some .i16 | 6 => some .i32 | 7 => some .i64
  | 8 => some .f32 | 9 => some .f64 | 10 => some .bool
  | 11 => some .arr | 12 => some .struct | 13 => some .str | 14 => some .vstr
  | 15 => some .varr | 16 => some .map | 17 => some .enum | 18 => some .named
  | _ => none

/-- `rant_schema_scalar_size`: the bytes of a fixed scalar, 0 for any other kind. -/
def Kind.scalarSize : Kind → Nat
  | .u8 | .i8 | .bool => 1
  | .u16 | .i16 => 2
  | .u32 | .i32 | .f32 => 4
  | .u64 | .i64 | .f64 => 8
  | .arr | .struct | .str | .vstr | .varr | .map | .enum | .named => 0

/-- `i_rant_enum_backing_ok`: an enum is backed by an integer. -/
def Kind.backingOk : Kind → Bool
  | .u8 | .u16 | .u32 | .u64 | .i8 | .i16 | .i32 | .i64 => true
  | .f32 | .f64 | .bool | .arr | .struct | .str | .vstr | .varr | .map | .enum | .named => false

/-- Whether the kind is one of the two arrays. -/
def Kind.isArray : Kind → Bool
  | .arr | .varr => true
  | _ => false

theorem Kind.isArray_iff {k : Kind} : k.isArray = true ↔ k = .arr ∨ k = .varr := by
  cases k <;> simp [Kind.isArray]

/-! ## The table -/

/-- `i_Field`: one row of the flat table. -/
structure Field where
  name : Bytes := []
  typeName : Bytes := []
  /-- From the start of the nearest enclosing element or the message. -/
  offset : Nat := 0
  /-- Fixed bytes: a struct counts its fixed members, 0 if variable. -/
  size : Nat := 0
  /-- A variable row's default body: a framed payload or a whole record. -/
  dmin : Nat := 0
  typeOff : Nat := 0
  typeLen : Nat := 0
  count : Nat := 0
  depth : Nat := 0
  parent : Option Nat := none
  /-- The row just past this row's subtree. -/
  next : Nat := 0
  /-- The nearest enclosing array. -/
  arrParent : Option Nat := none
  /-- The arrays around this row, one index each. -/
  arrDepth : Nat := 0
  strCap : Nat := 0
  /-- A framed row: its frame's ordinal in its record. -/
  varOrd : Nat := 0
  /-- A variable struct element: the frames of its record. -/
  nVar : Nat := 0
  kind : Kind := .u8
  backing : Kind := .u8
  /-- The type has no static size. -/
  var : Bool := false
  deriving Repr, DecidableEq, Inhabited

/-- A row table under construction or finished. -/
abbrev Table := List Field

/-- Row `i`. -/
def rowOf (t : Table) (i : Nat) : Field := t.getD i default

/-- `RantSchema`. `hash` and the handle's place in its block are left out. -/
structure Schema where
  wire : Bytes
  name : Bytes
  /-- The fixed section's size. -/
  size : Nat
  /-- The default message's length. -/
  msgMin : Nat
  /-- The frames of the message record. -/
  nVar : Nat
  /-- A bare or alias root, not a struct. -/
  valueRoot : Bool
  fields : Table
  deriving Repr, DecidableEq

/-- `nfields`. -/
def Schema.nfields (s : Schema) : Nat := s.fields.length

/-- Row `i`. -/
def Schema.row (s : Schema) (i : Nat) : Field := rowOf s.fields i

/-- `i_rant_row_framed`: a variable row that is neither a struct nor an array element
rides a frame of its record. -/
def rowFramed (t : Table) (f : Field) : Bool :=
  f.var && f.kind ≠ .struct &&
    match f.parent with
    | none => true
    | some p => !(rowOf t p).kind.isArray

/-- `i_rant_row_record`: the record a row's frame or fixed bytes belong to, its nearest
array's element, or `none` for the message. -/
def rowRecord (f : Field) : Option Nat := f.arrParent.map (· + 1)

/-! ## The fixed size numbers -/

/-- An `n` byte number read as two's complement. -/
def signed (n v : Nat) : Int := if v < 2 ^ (8 * n - 1) then v else (v : Int) - 2 ^ (8 * n)

/-- The low `n` bytes of an integer, the C cast to an unsigned type. -/
def unsignedOf (n : Nat) (v : Int) : Nat := (v % 2 ^ (8 * n)).toNat

end Rant.Serialize
