import Rant.Serialize.Dsl
import Rant.Serialize.Match
/-!
# Definitions and the compile

The recursive half of the parser of `src/serialize/text.c`: a type, the fields of a struct,
the names a text defines or refers to, and `i_rant_registry_compile` over them. A type and
the fields recur into each other and into the text of a standard type, so `fieldType` and
`fields` take fuel, and resolving a name takes how many standard types may still nest.
-/

namespace Rant.Serialize

open Rant.Lib

variable (E : Env)

/-! ## Reading the type bytes written -/

/-- The option loop of `i_rant_skip_type`. -/
def skipTypeOptions (w : Bytes) (bs : Nat) : Nat → Nat → Nat
  | 0, pos => min pos w.length
  | n + 1, pos =>
    if w.length < pos + bs + 1 then w.length
    else skipTypeOptions w bs n (pos + bs + 1 + (w.getD (pos + bs) 0).toNat)

/-- The member loop of `i_rant_skip_type`. -/
def skipTypeMembers (skip : Nat → Nat) (w : Bytes) : Nat → Nat → Nat
  | 0, pos => pos
  | n + 1, pos =>
    if w.length ≤ pos then w.length
    else
      let pos := pos + 1 + (w.getD pos 0).toNat
      if w.length < pos then w.length else skipTypeMembers skip w n (skip pos)

/-- `i_rant_skip_type` with as many calls as bytes: every call starts past the one around it,
and one past the end answers the end. -/
def skipTypeFuel (w : Bytes) : Nat → Nat → Nat
  | 0, _ => w.length
  | n + 1, pos =>
    if w.length ≤ pos then w.length
    else
      let k := (w.getD pos 0).toNat
      let pos := pos + 1
      match Kind.ofByte k with
      | some .named =>
        if w.length ≤ pos then w.length
        else skipTypeFuel w n (pos + 1 + (w.getD pos 0).toNat)
      | some .str => min (pos + 2) w.length
      | some .arr => skipTypeFuel w n (min (pos + 2) w.length)
      | some .varr => skipTypeFuel w n pos
      | some .enum =>
        if w.length < pos + 3 then w.length
        else
          skipTypeOptions w (sizeOfByte (w.getD pos 0).toNat)
            ((readLe w (pos + 1) 2).getD 0) (pos + 3)
      | some .struct =>
        if w.length ≤ pos then w.length
        else skipTypeMembers (skipTypeFuel w n) w (w.getD pos 0).toNat (pos + 1)
      | _ => pos

/-- `i_rant_skip_type`. -/
def skipType (w : Bytes) (pos : Nat) : Nat := skipTypeFuel w w.length pos

/-- `i_rant_dsl_name_taken`, `pos` where the next field stands. -/
def nameTaken (buf : Bytes) (mine : Nat) : Nat → Nat → Bool
  | 0, _ => false
  | n + 1, pos =>
    if pos < mine then
      let l := (buf.getD pos 0).toNat
      let nl := (buf.getD mine 0).toNat
      if l = nl ∧ nameAt buf (pos + 1) l = nameAt buf (mine + 1) nl then true
      else nameTaken buf mine n (skipType buf (pos + 1 + l))
    else false

/-! ## Definitions -/

/-- `i_rant_defs_find`: where a defined name's type stands. -/
def defsFind (r : Registry) (name : Bytes) : Option (Nat × Nat) :=
  (r.defs.find? fun d => d.nlen = name.length ∧ nameAt r.arena.buf d.noff d.nlen = name).map
    fun d => (d.toff, d.tlen)

/-- `i_rant_schema_builder_put_raw` into the arena. -/
def arenaPutRaw (bs : Bytes) : Parser Unit :=
  if bs = [] then pure ()
  else do
    let room ← E.ask
    modify fun s => { s with defs := { s.defs with arena := s.defs.arena.write room bs } }

/-- `i_rant_defs_add_bytes`. -/
def defsAddBytes (name type : Bytes) : Parser Bool := do
  if name.length = 0 ∨ 255 < name.length ∨ type.length = 0 then pure false
  else
    if ← E.ask then
      let s ← get
      let noff := s.defs.arena.buf.length % 2 ^ 32
      arenaPutRaw E name
      let s ← get
      let toff := s.defs.arena.buf.length % 2 ^ 32
      arenaPutRaw E type
      let s ← get
      if s.defs.arena.err ≠ 0 then pure false
      else
        let d : Def := { noff, nlen := name.length, toff, tlen := type.length % 2 ^ 32 }
        modify fun s => { s with defs := { s.defs with defs := s.defs.defs ++ [d] } }
        pure true
    else pure false

/-- A writer of its own around `x`, begun and freed. -/
def withBuilder {α : Type} (x : Parser α) : Parser (α × Builder) := do
  let outer ← get
  let sb ← builderBegin E
  modify fun s => { s with b := sb }
  let a ← x
  let s ← get
  modify fun s => { s with b := outer.b }
  pure (a, s.b)

/-- A text of its own around `x`. -/
def withText {α : Type} (d : Dsl) (x : Parser α) : Parser (α × Dsl) := do
  let outer ← get
  modify fun s => { s with d }
  let a ← x
  let s ← get
  modify fun s => { s with d := outer.d }
  pure (a, s.d)

/-- `i_rant_dsl_splice_array`: the type written from `head` on becomes an array of itself. -/
def spliceArray (head : Nat) (count : Option Nat) : Parser Unit := do
  let s ← get
  if s.b.err ≠ 0 then pure ()
  else if ← E.ask then
    let front := match count with
      | none => byte 15
      | some n => byte 11 ++ writeLe 2 n
    modify fun s => { s with b :=
      { s.b with buf := s.b.buf.take head ++ front ++ s.b.buf.drop head } }
  else modify fun s => { s with b := { s.b with err := -1 } }

/-- `i_rant_dsl_suffix`: the outer `none` where none was read, the inner one for `[]`. -/
def dslSuffix : Parser (Option (Option Nat)) := do
  dslWs
  let s ← get
  if s.d.p.headD 0 ≠ 91 then pure none
  else
    dslMove (s.d.p.drop 1)
    dslWs
    let s ← get
    if s.d.p.headD 0 = 93 then
      dslMove (s.d.p.drop 1)
      pure (some none)
    else
      match ← dslCount with
      | none => pure none
      | some n =>
        dslWs
        if ← dslExpect 93 then pure (some (some n)) else pure none

/-- What an array of a body is told. -/
def namelessWhy (k : UInt8) : String :=
  if k = 17 then "an enum needs a name: define it as Name = enum<u8> \x7b \x7d"
  else "a struct needs a name: define it as Name \x7b \x7d"

/-- The suffix loop at the end of `i_rant_dsl_field_type`. -/
def suffixes (head : Nat) (at_ : Bytes) : Nat → Parser Unit
  | 0 => fun _ => none
  | n + 1 => do
    match ← dslSuffix with
    | none => pure ()
    | some count =>
      let s ← get
      if s.d.err.isSome then pure ()
      else
        let k := s.b.buf.getD head 0
        if k = 12 ∨ k = 17 then dslFail at_ (namelessWhy k)
        else
          spliceArray E head count
          suffixes head at_ n

/-! ## Types -/

section
variable (ref : Bytes → Parser (Option (Nat × Nat)))

/-- `i_rant_dsl_word_type`, where `ref` resolves a name. -/
def wordType (tname at_ : Bytes) (body : Bool) : Parser Unit := do
  if tname = [109, 97, 112] then builderPut E (byte 16)
  else if tname = [101, 110, 117, 109] then
    if body = false then dslFail at_ (namelessWhy 17) else dslEnum E
  else if tname = [115, 116, 114, 105, 110, 103] then
    dslWs
    let s ← get
    if s.d.p.headD 0 ≠ 60 then builderPut E (byte 14)
    else
      dslMove (s.d.p.drop 1)
      dslWs
      match ← dslCount with
      | none => pure ()
      | some cap =>
        dslWs
        if ← dslExpect 62 then
          builderPut E (byte 13)
          builderPut E (writeLe 2 cap)
  else
    match dslKind tname with
    | some k => builderPut E (byte k.code)
    | none =>
      match typeNormalize tname 256 with
      | none => dslFail at_ "a type name needs a letter"
      | some twire =>
        match ← ref twire with
        | none => dslFail at_ "unknown type"
        | some (toff, tlen) =>
          builderPut E (byte 18)
          builderPut E (byte twire.length)
          builderPutRaw E twire
          let s ← get
          builderPutRaw E (nameAt s.defs.arena.buf toff tlen)

mutual
/-- `i_rant_dsl_field_type`. -/
def fieldType : Nat → Bytes → Parser Unit
  | 0, _ => fun _ => none
  | n + 1, name => do
    let s ← get
    let body := s.d.body
    modify fun s => { s with d := { s.d with body := false } }
    dslWs
    let s ← get
    let at_ := s.d.p
    modify fun s => { s with b := s.b.count }
    builderPutName E name
    let s ← get
    let head := s.b.buf.length
    let done ← (if s.d.p.headD 0 = 123 then
        if body = false then do
          dslFail at_ (namelessWhy 12)
          pure false
        else do
          dslMove (s.d.p.drop 1)
          builderOpenStruct E
          fields n
          if ← dslExpect 125 then
            modify fun s => { s with b := s.b.closeStruct }
            pure true
          else pure false
      else do
        match ← dslIdent with
        | none => pure false
        | some tname =>
          wordType E ref tname at_ body
          pure true : Parser Bool)
    let s ← get
    if done = false ∨ s.d.err.isSome ∨ s.b.err ≠ 0 ∨ s.b.buf.length ≤ head then pure ()
    else suffixes E head at_ (s.d.p.length + 1)
/-- `i_rant_dsl_fields`. -/
def fields : Nat → Parser Unit
  | 0 => fun _ => none
  | n + 1 => do
    dslWs
    let s ← get
    if s.d.p.headD 0 = 125 ∨ s.d.p.headD 0 = 0 ∨ s.d.err.isSome ∨ s.b.err ≠ 0 then pure ()
    else
      let at_ := s.d.p
      match ← dslIdent with
      | none => pure ()
      | some name =>
        match nameNormalize name 256 with
        | none => dslFail at_ "a field name needs a letter"
        | some wire =>
          dslWs
          if ← dslExpect 58 then
            let s ← get
            let first := s.b.countPos.getD (s.b.depth - 1) 0 + 1
            let mine := s.b.buf.length
            fieldType n wire
            let s ← get
            if s.d.err.isSome then pure ()
            else if s.b.err = 0 ∧ nameTaken s.b.buf mine mine first then
              dslFail at_ "two fields of one struct spell the same wire name"
            else
              dslWs
              let s ← get
              if s.d.p.headD 0 = 44 then dslMove (s.d.p.drop 1)
              fields n
end

/-- `i_rant_defs_add_text`, past the check on how deep it stands. -/
def addText (name text : Bytes) : Parser Bool := do
  modify fun s => { s with defs := { s.defs with recDepth := s.defs.recDepth + 1 } }
  let (((), sb), sd) ← withText { p := text, body := true } (withBuilder E (do
    fieldType E ref (text.length + 1) []
    dslWs
    let s ← get
    if s.d.p.headD 0 ≠ 0 then dslFail s.d.p "a type on its own ends the text"))
  let ok ← (if sd.err.isNone ∧ sb.err = 0 ∧ sb.buf ≠ [] then defsAddBytes E name sb.buf
    else pure false : Parser Bool)
  modify fun s => { s with defs := { s.defs with recDepth := s.defs.recDepth - 1 } }
  pure ok

end

/-- `i_rant_dsl_ref` and `i_rant_defs_add_text`, with so many standard types left to nest. -/
def dslRef : Nat → Bytes → Parser (Option (Nat × Nat))
  | k, name => do
    let s ← get
    match defsFind s.defs name with
    | some t => pure (some t)
    | none =>
      match if s.defs.standalone then none else E.std name with
      | none => pure none
      | some text =>
        if 8 ≤ s.defs.recDepth then pure none
        else
          match k with
          | 0 => fun _ => none
          | k + 1 =>
            if ← addText E (dslRef k) name text then
              let s ← get
              pure (defsFind s.defs name)
            else pure none

/-! ## Statements -/

/-- `i_rant_wire_around`. -/
def wireAround (name type : Bytes) : Parser (Option Bytes) := do
  if ← E.ask then pure (some (byte wireVersion ++ (byte name.length ++ (name ++ type))))
  else pure none

/-- `i_rant_dsl_def`: where the type stands in the arena. -/
def dslDef (ref : Bytes → Parser (Option (Nat × Nat))) (name nameAt_ : Bytes) :
    Parser (Option (Nat × Nat)) := do
  let s ← get
  let isStruct : Bool := s.d.p.headD 0 = 123
  let old ← ref name
  let s ← get
  dslMove (s.d.p.drop 1)
  dslWs
  let s ← get
  let at_ := s.d.p
  let ((), sb) ← withBuilder E (if isStruct then do
      builderOpenStruct E
      fields E ref (at_.length + 1)
      if ← dslExpect 125 then modify fun s => { s with b := s.b.closeStruct }
    else do
      modify fun s => { s with d := { s.d with body := true } }
      fieldType E ref (at_.length + 1) []
      let s ← get
      if s.d.err.isNone ∧ s.b.err = 0 ∧ s.b.buf.head? = some 12 then
        dslFail at_ "a struct is defined as Name \x7b \x7d"
      let s ← get
      if s.d.err.isNone ∧ s.b.err = 0 ∧ s.b.buf.head? = some 18 then
        dslFail at_ "a name cannot stand for another name")
  let s ← get
  if s.d.err.isNone ∧ sb.err ≠ 0 then dslFail at_ (builderWhy sb.err)
  let s ← get
  if s.d.err.isSome ∨ sb.buf = [] then pure old
  else
    match old with
    | some (toff, tlen) =>
      -- redefining is fine if identical
      if tlen = sb.buf.length ∧ nameAt s.defs.arena.buf toff tlen = sb.buf then pure old
      else
        dslFail nameAt_ "the name is already defined with another shape"
        pure old
    | none =>
      let why ← (do
        match ← wireAround E name sb.buf with
        | none => pure (some (builderWhy (-1)))
        | some w => pure (wireWhy w) : Parser (Option String))
      match why with
      | some why =>
        dslFail nameAt_ why
        pure none
      | none =>
        let ok ← defsAddBytes E name sb.buf
        let s ← get
        let found := if ok then defsFind s.defs name else none
        if found.isNone then dslFail nameAt_ (builderWhy (-1))
        pure found

/-- What the statements of a text leave for the root: a type on its own in the writer, or the
last definition's name and place. -/
inductive Root
  | empty
  | type
  | named (name : Bytes) (place : Option (Nat × Nat))

/-- The head of a statement: the name a definition follows, `some none` for a type on its own
and `none` where it is no name. -/
def statementHead : Parser (Option (Option Bytes)) := do
  let s ← get
  if s.d.p.headD 0 = 123 then pure (some none)
  else
    match ← dslIdent with
    | none => pure none
    | some word =>
      dslWs
      let s ← get
      if s.d.p.headD 0 = 123 ∨ s.d.p.headD 0 = 61 then pure (some (some word))
      else pure (some none)

/-- The statement loop of `i_rant_registry_compile_rec`. -/
def statements (ref : Bytes → Parser (Option (Nat × Nat))) : Nat → Root → Parser Root
  | 0, _ => fun _ => none
  | n + 1, root => do
    let s ← get
    if s.d.err.isSome then pure root
    else
      dslWs
      let s ← get
      if s.d.p.headD 0 = 0 then pure root
      else
        let at_ := s.d.p
        match ← statementHead with
        | none => pure root
        | some (some word) =>
          match typeNormalize word 256 with
          | none =>
            dslFail at_ "a type name needs a letter"
            pure root
          | some twire =>
            let place ← dslDef E ref twire at_
            statements ref n (.named twire place)
        | some none =>
          dslMove at_
          fieldType E ref (at_.length + 1) []
          dslWs
          let s ← get
          if s.d.p.headD 0 ≠ 0 then dslFail s.d.p "a type on its own ends the text"
          pure .type

/-- `i_rant_registry_parse`: one schema per shape. -/
def registryParse (wire : Bytes) : Parser (Option Schema) := do
  let s ← get
  match s.defs.owned.find? fun o => o.wire = wire with
  | some o => pure (some o)
  | none =>
    if ← E.ask then
      match schemaParse wire with
      | none => pure none
      | some o =>
        if ← E.ask then
          modify fun s => { s with defs := { s.defs with owned := s.defs.owned ++ [o] } }
          pure (some o)
        else pure none
    else pure none

/-- The root's name and type, a bare reference taking the name it refers to. -/
def rootOf (s : Parse) : Root → Bytes × Bytes
  | .empty => ([], [])
  | .type =>
    let type := s.b.buf
    let nl := (type.getD 1 0).toNat
    if 2 ≤ type.length ∧ type.headD 0 = 18 ∧ 2 + nl ≤ type.length then
      (nameAt type 2 nl, type.drop (2 + nl))
    else ([], type)
  | .named name place =>
    match place with
    | none => (name, [])
    | some (toff, tlen) => (name, nameAt s.defs.arena.buf toff tlen)

/-- `i_rant_registry_compile_rec` up to the end of the text. -/
def compileBody (text : Bytes) : Parser (Option Schema) := do
  let root ← builderBegin E
  modify fun s => { s with b := root }
  let s ← get
  if s.defs.arena.err ≠ 0 then dslFail text (builderWhy s.defs.arena.err)
  if root.err ≠ 0 then dslFail text (builderWhy root.err)
  let root ← statements E (dslRef E 8) (text.length + 1) .empty
  let s ← get
  if s.d.err.isNone ∧ s.b.err ≠ 0 then dslFail s.d.p (builderWhy s.b.err)
  let s ← get
  if s.d.err.isNone ∧ s.defs.arena.err ≠ 0 then dslFail s.d.p (builderWhy s.defs.arena.err)
  let s ← get
  let (name, type) := rootOf s root
  if s.d.err.isNone ∧ type = [] then dslFail s.d.p "the text is empty"
  let s ← get
  if s.d.err.isSome then pure none
  else
    match ← wireAround E name type with
    | none =>
      dslFail s.d.p (builderWhy (-1))
      pure none
    | some w =>
      match ← registryParse E w with
      | some o => pure (some o)
      | none =>
        match wireWhy w with
        | some why =>
          dslFail text why
          pure none
        | none =>
          dslFail s.d.p (builderWhy (-1))
          pure none

/-- What a compile returns: the schema, or the first refusal and the text from there on. -/
structure Compiled where
  schema : Option Schema
  err : Option (Bytes × String)
  registry : Registry

/-- `i_rant_registry_compile`: a failed text leaves no definition behind. The outer `none` when
it did not end. -/
def registryCompile (r : Registry) (text : Bytes) : Option Compiled :=
  (compileBody E text { d := { p := text }, b := {}, defs := r }).map fun x =>
    match x.1 with
    | some o => { schema := some o, err := none, registry := x.2.defs }
    | none =>
      { schema := none, err := x.2.d.err
        registry := { x.2.defs with
          arena := { x.2.defs.arena with
            buf := x.2.defs.arena.buf.take r.arena.buf.length, err := 0 }
          defs := x.2.defs.defs.take r.defs.length } }

end Rant.Serialize
