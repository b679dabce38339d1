import Rant.Lib.Wp
import Rant.Lib.Fragment
import Rant.Serialize.Names
import Rant.Serialize.WireCheck
/-!
# The schema text

The DSL half of `src/serialize/text.c`: the type writer, the lexer, the recursive parser over
them and the registry it defines names in. A text is its bytes, and what stands past its end
reads as 0. The parser's state is one record: where it reads and the first refusal (`i_RantDsl`),
the type writer it fills, the registry, and how many times it asked for room. Whether such a
request is granted is `Env.room`, so that memory may run out at any of them: a request the
spare capacity serves is one that is granted. The standard types are `Env.std`, any table.

Left out is what only a doc parse records, and the place past its used bytes of a buffer.
-/

namespace Rant.Serialize

open Rant.Lib

/-! ## The state -/

/-- `i_RantSchemaBuilder`: the type writer, its used bytes and the failure it latched. -/
structure Builder where
  buf : Bytes := []
  err : Int := 0
  /-- Open structs, with where each one's field count stands and what it counts. -/
  depth : Nat := 0
  countPos : List Nat := List.replicate maxDepth 0
  fieldCount : List Nat := List.replicate maxDepth 0

/-- `i_RantDef`: a name and its type, by their places in the arena. -/
structure Def where
  noff : Nat
  nlen : Nat
  toff : Nat
  tlen : Nat

/-- `i_RantRegistry`. -/
structure Registry where
  arena : Builder := {}
  defs : List Def := []
  owned : List Schema := []
  recDepth : Nat := 0
  standalone : Bool := false

/-- `i_RantDsl`: the text ahead, the first refusal and where, and whether a definition's body
is read. -/
structure Dsl where
  p : Bytes
  err : Option (Bytes × String) := none
  body : Bool := false

/-- The state of a parse. -/
structure Parse where
  d : Dsl
  b : Builder
  defs : Registry
  asks : Nat := 0

/-- What a parse is given: which requests for room are granted, and the standard types. -/
structure Env where
  room : Nat → Bool
  std : Bytes → Option Bytes

/-- A step of the parser. -/
abbrev Parser (α : Type) := StateT Parse Option α

/-! ## The type writer -/

/-- A reserve and the bytes it was for. -/
def Builder.write (b : Builder) (room : Bool) (bs : Bytes) : Builder :=
  if b.err ≠ 0 then b else if room then { b with buf := b.buf ++ bs } else { b with err := -1 }

/-- `i_rant_schema_builder_count`. -/
def Builder.count (b : Builder) : Builder :=
  if b.err ≠ 0 ∨ b.depth = 0 then b
  else
    let c := b.fieldCount.getD (b.depth - 1) 0
    if 255 ≤ c then { b with err := -5 }
    else { b with fieldCount := b.fieldCount.set (b.depth - 1) (c + 1) }

/-- `i_rant_schema_builder_close_struct`. -/
def Builder.closeStruct (b : Builder) : Builder :=
  if b.err ≠ 0 then b
  else if b.depth = 0 then { b with err := -3 }
  else
    { b with
      depth := b.depth - 1
      buf := b.buf.set (b.countPos.getD (b.depth - 1) 0)
        (UInt8.ofNat (b.fieldCount.getD (b.depth - 1) 0)) }

/-- `i_rant_schema_builder_enum_finish`. -/
def Builder.enumFinish (b : Builder) (countPos count : Nat) : Builder :=
  if b.err ≠ 0 then b else { b with buf := Fragment.writeAt b.buf countPos (writeLe 2 count) }

/-- `i_rant_builder_why`. -/
def builderWhy (err : Int) : String :=
  if err = -2 then "structs nest too deep"
  else if err = -4 then "a name is at most 255 characters"
  else if err = -5 then "a struct has at most 255 fields"
  else "out of memory"

variable (E : Env)

/-- One request for room. -/
def Env.ask : Parser Bool := fun s => some (E.room s.asks, { s with asks := s.asks + 1 })

/-- `i_rant_schema_builder_put` and its kin: bytes at the end of the writer. -/
def builderPut (bs : Bytes) : Parser Unit := do
  let room ← E.ask
  modify fun s => { s with b := s.b.write room bs }

/-- `i_rant_schema_builder_put_raw` into the writer. -/
def builderPutRaw (bs : Bytes) : Parser Unit := if bs = [] then pure () else builderPut E bs

/-- `i_rant_schema_builder_put_name`. -/
def builderPutName (name : Bytes) : Parser Unit := do
  let s ← get
  if s.b.depth = 0 then
    -- a type on its own carries no field name
    if name = [] then pure () else modify fun s => { s with b := { s.b with err := -4 } }
  else if 255 < name.length then modify fun s => { s with b := { s.b with err := -4 } }
  else builderPut E (UInt8.ofNat name.length :: name)

/-- `i_rant_schema_builder_open_struct`. -/
def builderOpenStruct : Parser Unit := do
  let s ← get
  if s.b.err ≠ 0 then pure ()
  else if maxDepth ≤ s.b.depth then modify fun s => { s with b := { s.b with err := -2 } }
  else
    builderPut E (byte 12)
    modify fun s => { s with b := { s.b with countPos := s.b.countPos.set s.b.depth s.b.buf.length } }
    builderPut E (byte 0)
    modify fun s => { s with b :=
      { s.b with fieldCount := s.b.fieldCount.set s.b.depth 0, depth := s.b.depth + 1 } }

/-- `i_rant_schema_builder_begin`. -/
def builderBegin : Parser Builder := do
  let room ← E.ask
  pure { err := if room then 0 else -1 }

/-- `i_rant_schema_builder_enum_open`: the head, and where the count goes. -/
def enumOpen (backing : Kind) : Parser Nat := do
  builderPut E (byte 17)
  builderPut E (byte backing.code)
  let s ← get
  builderPut E (writeLe 2 0)
  pure s.b.buf.length

/-- `i_rant_schema_builder_enum_add`. -/
def enumAdd (backing : Kind) (value : Int) (name : Bytes) : Parser Unit := do
  let s ← get
  if s.b.err ≠ 0 then pure ()
  else if 255 < name.length then modify fun s => { s with b := { s.b with err := -4 } }
  else
    builderPut E (writeLe backing.scalarSize (value % 2 ^ 64).toNat)
    builderPut E (UInt8.ofNat name.length :: name)

/-! ## The lexer -/

/-- `i_rant_dsl_ws`: the text past blanks and comments. -/
def skipBlank : Bool → Bytes → Bytes
  | _, [] => []
  | true, c :: p => if c = 0 then c :: p else if c = 10 then skipBlank false p else skipBlank true p
  | false, c :: p =>
    if c = 32 ∨ c = 9 ∨ c = 13 ∨ c = 10 then skipBlank false p
    else if c = 45 ∧ p.headD 0 = 45 then skipBlank true p
    else c :: p

/-- `i_rant_ident_len`. -/
def identLen (p : Bytes) : Nat :=
  if isUpper (p.headD 0) || isLower (p.headD 0) || p.headD 0 = 95 then
    (p.takeWhile fun c => isUpper c || isLower c || isDigit c || c = 95).length
  else 0

/-- `i_rant_dsl_kind`: the kind a word names. -/
def dslKind (word : Bytes) : Option Kind :=
  if word = [117, 56] then some .u8
  else if word = [117, 49, 54] then some .u16
  else if word = [117, 51, 50] then some .u32
  else if word = [117, 54, 52] then some .u64
  else if word = [105, 56] then some .i8
  else if word = [105, 49, 54] then some .i16
  else if word = [105, 51, 50] then some .i32
  else if word = [105, 54, 52] then some .i64
  else if word = [102, 51, 50] then some .f32
  else if word = [102, 54, 52] then some .f64
  else if word = [98, 111, 111, 108] then some .bool
  else none

/-- The digit loop of `i_rant_dsl_count`. -/
def countLoop : Nat → Bytes → Option (Nat × Bytes)
  | v, [] => some (v, [])
  | v, c :: p =>
    if isDigit c then
      let v := v * 10 + (c.toNat - 48)
      if 0xFFFF < v then none else countLoop v p
    else some (v, c :: p)

/-- The digit loop of `i_rant_dsl_enum_value`, in 64 bits. -/
def valueLoop (lim : Nat) : Nat → Bytes → Option (Nat × Bytes)
  | v, [] => some (v, [])
  | v, c :: p =>
    if isDigit c then
      let v := (v * 10 + (c.toNat - 48)) % 2 ^ 64
      if lim < v then none else valueLoop lim v p
    else some (v, c :: p)

/-- `INT64_MAX`. -/
def i64Max : Nat := 0x7FFFFFFFFFFFFFFF

/-- `i_rant_dsl_enum_value`: the value and the text past it, `none` where it refuses. -/
def enumValue (p : Bytes) : Option (Int × Bytes) :=
  let neg : Bool := p.headD 0 = 45
  let digits := if neg then p.drop 1 else p
  let lim := if neg then i64Max + 1 else i64Max
  if isDigit (digits.headD 0) then
    (valueLoop lim 0 digits).map fun x => (if neg then -(x.1 : Int) else (x.1 : Int), x.2)
  else none

/-- `i_rant_enum_val_fits`. -/
def enumValFits : Kind → Int → Bool
  | .u8, v => 0 ≤ v ∧ v ≤ 0xFF
  | .u16, v => 0 ≤ v ∧ v ≤ 0xFFFF
  | .u32, v => 0 ≤ v ∧ v ≤ 0xFFFFFFFF
  | .u64, v => 0 ≤ v
  | .i8, v => -128 ≤ v ∧ v ≤ 127
  | .i16, v => -32768 ≤ v ∧ v ≤ 32767
  | .i32, v => -2147483648 ≤ v ∧ v ≤ 2147483647
  | .i64, _ => true
  | _, _ => false

/-- `v + 1` in `int64_t`: past the largest it is the smallest. -/
def i64Succ (v : Int) : Int := if v = i64Max then -(i64Max + 1) else v + 1

/-! ## Over the text -/

/-- `i_rant_dsl_fail`: the first refusal is the one reported. -/
def dslFail (at_ : Bytes) (why : String) : Parser Unit := modify fun s =>
  { s with d := { s.d with err := some (s.d.err.getD (at_, why)) } }

/-- The text moves on. -/
def dslMove (p : Bytes) : Parser Unit := modify fun s => { s with d := { s.d with p } }

def dslWs : Parser Unit := modify fun s => { s with d := { s.d with p := skipBlank false s.d.p } }

/-- `i_rant_dsl_ident`. -/
def dslIdent : Parser (Option Bytes) := do
  let s ← get
  let n := identLen s.d.p
  if n = 0 then
    dslFail s.d.p "expected a name"
    pure none
  else if 255 < n then
    dslFail s.d.p (builderWhy (-4))
    pure none
  else
    dslMove (s.d.p.drop n)
    pure (some (s.d.p.take n))

/-- What `i_rant_dsl_expect` misses. -/
def expectWhy (c : UInt8) : String :=
  if c = 123 then "expected \x7b" else if c = 125 then "expected \x7d"
  else if c = 60 then "expected <" else if c = 62 then "expected >"
  else if c = 93 then "expected ]" else "expected : after the field name"

/-- `i_rant_dsl_expect`. -/
def dslExpect (c : UInt8) : Parser Bool := do
  let s ← get
  if s.d.p.headD 0 = c then
    dslMove (s.d.p.drop 1)
    pure true
  else
    dslFail s.d.p (expectWhy c)
    pure false

/-- `i_rant_dsl_count`. -/
def dslCount : Parser (Option Nat) := do
  let s ← get
  match countLoop 0 s.d.p with
  | none =>
    dslFail s.d.p "a count is 1 to 65535"
    pure none
  | some (v, p) =>
    dslMove p
    if v = 0 then
      dslFail s.d.p "a count is 1 to 65535"
      pure none
    else pure (some v)

/-! ## Enums -/

/-- `i_rant_dsl_option_taken`, `pos` where the next option stands. -/
def optionTaken (buf : Bytes) (vsize : Nat) (name : Bytes) : Nat → Nat → Bool
  | 0, _ => false
  | n + 1, pos =>
    let l := (buf.getD (pos + vsize) 0).toNat
    if l = name.length ∧ nameAt buf (pos + vsize + 1) l = name then true
    else optionTaken buf vsize name n (pos + vsize + 1 + l)

/-- An option's value in `i_rant_dsl_enum`: the one written, else the next. -/
def dslOptionValue (next : Int) : Parser (Option Int) := do
  let s ← get
  if s.d.p.headD 0 = 61 then
    dslMove (s.d.p.drop 1)
    dslWs
    let s ← get
    match enumValue s.d.p with
    | none =>
      dslFail s.d.p "an enum value is a whole number that fits i64"
      pure none
    | some (v, p) =>
      dslMove p
      pure (some v)
  else pure (some next)

/-- One option of `i_rant_dsl_enum`, `none` where it returns: the next value. -/
def dslOption (backing : Kind) (countPos count : Nat) (next : Int) : Parser (Option Int) := do
  let s ← get
  let vat := s.d.p
  match ← dslIdent with
  | none => pure none
  | some vname =>
    match typeNormalize vname 256 with
    | none =>
      dslFail vat "an option name needs a letter"
      pure none
    | some vwire =>
      let s ← get
      if s.b.err = 0 ∧ optionTaken s.b.buf backing.scalarSize vwire count (countPos + 2) then
        dslFail vat "two options of one enum spell the same wire name"
        pure none
      else
        dslWs
        match ← dslOptionValue next with
        | none => pure none
        | some v =>
          if enumValFits backing v = false then
            let s ← get
            dslFail s.d.p "an enum value does not fit the backing kind"
            pure none
          else
            enumAdd E backing v vwire
            dslWs
            let s ← get
            if s.d.p.headD 0 = 44 then dslMove (s.d.p.drop 1)
            pure (some (i64Succ v))

/-- The loop of `i_rant_dsl_enum`: how many options it streamed, in 16 bits, `none` where it
returns before the end. -/
def dslOptions (backing : Kind) (countPos : Nat) : Nat → Nat → Int → Parser (Option Nat)
  | 0, _, _ => fun _ => none
  | n + 1, count, next => do
    dslWs
    let s ← get
    if s.d.p.headD 0 = 125 ∨ s.d.p.headD 0 = 0 ∨ s.d.err.isSome ∨ s.b.err ≠ 0 then
      pure (some count)
    else
      match ← dslOption E backing countPos count next with
      | none => pure none
      | some next => dslOptions backing countPos n ((count + 1) % 65536) next

/-- `i_rant_dsl_enum`, past the word `enum`. -/
def dslEnum : Parser Unit := do
  dslWs
  if ← dslExpect 60 then
    dslWs
    match ← dslIdent with
    | none => pure ()
    | some word =>
      match (dslKind word).filter Kind.backingOk with
      | none =>
        let s ← get
        dslFail s.d.p "an enum backing is an integer kind"
      | some backing =>
        dslWs
        if ← dslExpect 62 then
          dslWs
          if ← dslExpect 123 then
            let countPos ← enumOpen E backing
            let s ← get
            match ← dslOptions E backing countPos (s.d.p.length + 1) 0 0 with
            | none => pure ()
            | some count =>
              if ← dslExpect 125 then
                modify fun s => { s with b := s.b.enumFinish countPos count }

end Rant.Serialize
