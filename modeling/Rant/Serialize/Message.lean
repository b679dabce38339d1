import Rant.Serialize.Compile
/-!
# Reading a message

`src/serialize/message.c`, the reading half: where a value sits (`resolve`), whether a
message is one of the schema's (`validate`), and the getters.

Every function answers in `Option`: `none` when a read fell outside the message or a
walk did not end, which is what the source must never do. A refusal of the source
(its `0` or `NULL`) is an answer like any other. A getter's mismatch yields the source's
zero value. A message is bytes the caller holds, so the checks of a `NULL` one are left
out.
-/

namespace Rant.Serialize

open Rant.Lib

/-- `i_rant_le_r32`. -/
abbrev le32 (msg : Bytes) (off : Nat) : Option Nat := readLe msg off 4

/-- `i_Span`: a row's bytes, a variable row's payload or an element. -/
structure Span where
  off : Nat
  len : Nat
  deriving Repr, DecidableEq

/-- The first byte past the span. -/
def Span.stop (s : Span) : Nat := s.off + s.len

/-- The whole message. -/
def wholeOf (msg : Bytes) : Span := ⟨0, msg.length⟩

/-- `i_Carry`: lengths that carry a value, a frame's length word when `count` is 0, else
the ends `lo .. count - 1` of the table at `pos`. -/
structure Carry where
  pos : Nat
  lo : Nat
  count : Nat
  deriving Repr, DecidableEq

/-- The room of `i_Carriers`. -/
def carryRoom : Nat := 2 * maxDepth + 2

/-- `i_rant_carry`: one more length, refused past the room. A reader collects none. -/
def carry (cr : Option (List Carry)) (c : Carry) : Option (Option (List Carry)) :=
  match cr with
  | none => some none
  | some l => if carryRoom ≤ l.length then none else some (some (l ++ [c]))

/-! ## Records -/

/-- The fixed bytes of a record. -/
def Schema.recSize (s : Schema) : Option Nat → Nat
  | none => s.size
  | some r => (s.row r).size

/-- The frames of a record. -/
def Schema.recFrames (s : Schema) : Option Nat → Nat
  | none => s.nVar
  | some r => (s.row r).nVar

/-- `rant_schema_msg_len`'s hop over the message record's frames. -/
def msgLenFrom (msg : Bytes) : Nat → Nat → Option Nat
  | 0, total => some (if total ≤ u32Max then total else 0)
  | n + 1, total =>
    if msg.length < total + 4 then some 0
    else
      match le32 msg total with
      | none => none
      | some len =>
        if msg.length < total + 4 + len then some 0 else msgLenFrom msg n (total + 4 + len)

/-- `rant_schema_msg_len`: the live length of the message at the front of a buffer, 0 when
malformed. -/
def msgLen (s : Schema) (buf : Bytes) : Option Nat :=
  if buf.length < s.size then some 0 else msgLenFrom buf s.nVar s.size

/-- The hop of `i_rant_record_frame` to the frame `ord` hops on. -/
def frameFrom (msg : Bytes) (stop : Nat) : Nat → Nat → Option (Option Span)
  | ord, pos =>
    if stop < pos + 4 then some none
    else
      match le32 msg pos with
      | none => none
      | some len =>
        if stop < pos + 4 + len then some none
        else
          match ord with
          | 0 => some (some ⟨pos + 4, len⟩)
          | ord + 1 => frameFrom msg stop ord (pos + 4 + len)

/-- `i_rant_record_frame`: frame `ord` of record `r` laid out over `rg`. -/
def recordFrame (s : Schema) (msg : Bytes) (rg : Span) (r : Option Nat) (ord : Nat) :
    Option (Option Span) :=
  if s.recFrames r ≤ ord then some none
  else frameFrom msg rg.stop ord (rg.off + s.recSize r)

/-- A located span and the lengths that carry it. -/
abbrev Found := Span × Option (List Carry)

/-- A found span with one more carrier, refused past the room. -/
def carried (sp : Span) (cr : Option (List Carry)) (c : Carry) : Option Found :=
  (carry cr c).map (sp, ·)

/-- `i_rant_locate`: row `f` inside the region `rg` of record `r`, the region itself when
`f` is that element, its frame when it is framed, else its fixed bytes. -/
def locate (s : Schema) (msg : Bytes) (rg : Span) (r : Option Nat) (f : Nat)
    (cr : Option (List Carry)) : Option (Option Found) :=
  if r = some f then
    some (if rg.len < (s.row f).size then none else some (rg, cr))
  else if rowFramed s.fields (s.row f) then
    match recordFrame s msg rg r (s.row f).varOrd with
    | none => none
    | some none => some none
    | some (some sp) => some (carried sp cr ⟨sp.off - 4, 0, 0⟩)
  else if rg.len < (s.row f).offset + (s.row f).size then some none
  else some (some (⟨rg.off + (s.row f).offset, (s.row f).size⟩, cr))

/-! ## Arrays -/

/-- `i_rant_array_live`: the live count of array row `a` over its span. A variable element
array opens with `[u32 count][u32 end]*count`. -/
def arrayLive (s : Schema) (msg : Bytes) (a : Nat) (sp : Span) : Option (Option Nat) :=
  if (s.row (a + 1)).var = false then
    some (some (if (s.row a).kind = .arr then (s.row a).count
      else sp.len / (s.row (a + 1)).size))
  else if sp.len < 4 then some none
  else
    match le32 msg sp.off with
    | none => none
    | some count =>
      if (s.row a).kind = .arr ∧ count ≠ (s.row a).count then some none
      else if sp.len < 4 + 4 * count then some none
      else some (some count)

/-- The end `i` of the table at `tab`: where body `i` starts when `i` counts from the one
before it. -/
def tableEnd (msg : Bytes) (tab : Nat) : Nat → Option Nat
  | 0 => some 0
  | i + 1 => le32 msg (tab + 4 * i)

/-- `i_rant_array_elem`: element `i` of array row `a` over its span. -/
def arrayElem (s : Schema) (msg : Bytes) (a : Nat) (sp : Span) (i : Nat)
    (cr : Option (List Carry)) : Option (Option Found) :=
  match arrayLive s msg a sp with
  | none => none
  | some none => some none
  | some (some count) =>
    if count ≤ i then some none
    else if (s.row (a + 1)).var = false then
      some (some (⟨sp.off + i * (s.row (a + 1)).size, (s.row (a + 1)).size⟩, cr))
    else
      let tab := sp.off + 4
      match tableEnd msg tab i, tableEnd msg tab (i + 1) with
      | some lo, some hi =>
        if hi < lo ∨ sp.len - 4 - 4 * count < hi then some none
        else some (carried ⟨tab + 4 * count + lo, hi - lo⟩ cr ⟨sp.off, i, count⟩)
      | _, _ => none

/-! ## Paths -/

/-- The arrays around a row, outermost first: the chain loop of `i_rant_resolve`, `none`
past its room. -/
def chainFrom (s : Schema) : Nat → Option Nat → List Nat → Option (List Nat)
  | _, none, acc => some acc
  | 0, some _, _ => none
  | n + 1, some a, acc => chainFrom s n (s.row a).arrParent (a :: acc)

/-- `chainFrom` from row `f`'s own arrays. -/
def chainOf (s : Schema) (f : Nat) : Option (List Nat) :=
  chainFrom s (maxDepth + 1) (s.row f).arrParent []

/-- The descent of `i_rant_resolve` through the arrays `as` at the indices `es`, from the
region `rg` of record `r`. -/
def descend (s : Schema) (msg : Bytes) : List Nat → List Nat → Span → Option Nat →
    Option (List Carry) → Option (Option (Span × Option Nat × Option (List Carry)))
  | a :: as, e :: es, rg, r, cr =>
    match locate s msg rg r a cr with
    | none => none
    | some none => some none
    | some (some (sp, cr)) =>
      match arrayElem s msg a sp e cr with
      | none => none
      | some none => some none
      | some (some (rg, cr)) => descend s msg as es rg (some (a + 1)) cr
  | _, _, rg, r, cr => some (some (rg, r, cr))

/-- `i_rant_resolve`: where row `f` sits, given one index per enclosing array. A message here is
the bytes held: the source refuses a `NULL` one in every reader, while `rant_schema_validate`
takes it where the schema is fixed and of size zero. -/
def resolve (s : Schema) (msg : Bytes) (f : Nat) (elems : List Nat)
    (cr : Option (List Carry)) : Option (Option Found) :=
  if elems.length ≠ (s.row f).arrDepth then some none
  else
    match chainOf s f with
    | none => some none
    | some chain =>
      match descend s msg chain elems (wholeOf msg) none cr with
      | none => none
      | some none => some none
      | some (some (rg, r, cr)) => locate s msg rg r f cr

/-! ## Names and paths -/

/-- The state of `i_rant_name_normalize`: the output so far, newest first, whether a word
starts here, and the character before. -/
structure NameState where
  out : Bytes := []
  boundary : Bool := true
  prev : UInt8 := 0

def isUpper (c : UInt8) : Bool := 65 ≤ c && c ≤ 90
def isLower (c : UInt8) : Bool := 97 ≤ c && c ≤ 122
def isDigit (c : UInt8) : Bool := 48 ≤ c && c ≤ 57

/-- One character of a field name, `next` the one after it: `i_rant_name_normalize` with
`as_type` 0, `none` when the result does not fit `cap`. -/
def nameStep (cap : Nat) (st : NameState) (c next : UInt8) : Option NameState :=
  if !isUpper c && !isLower c && !isDigit c then some { st with boundary := true }
  else
    let boundary := st.boundary || (isUpper c && (isLower st.prev || isDigit st.prev ||
      (isUpper st.prev && isLower next)))
    let joint := boundary && !st.out.isEmpty
    if cap ≤ st.out.length + 1 + joint.toNat then none
    else
      let out := if joint then 95 :: st.out else st.out
      let c' := if isUpper c then c + 32 else c
      some { out := c' :: out, boundary := false, prev := c }

/-- The character loop of `i_rant_name_normalize`. -/
def nameLoop (cap : Nat) : Bytes → NameState → Option NameState
  | [], st => some st
  | c :: cs, st => do
    let st ← nameStep cap st c (cs.headD 0)
    nameLoop cap cs st

/-- `i_rant_name_normalize` of a field name: its snake_case wire spelling. -/
def nameNormalize (name : Bytes) (cap : Nat) : Option Bytes := do
  let st ← nameLoop cap name {}
  let out := st.out.reverse
  match out with
  | [] => none
  | c :: _ => if isDigit c then none else some out

/-- Whether a path character ends a name. -/
def endsName (c : UInt8) : Bool := c = 46 || c = 91

/-- An index of a path verbatim, past its opening bracket and through the closing one. -/
def indexText (path : Bytes) : Bytes :=
  let idx := path.takeWhile (· ≠ 93)
  if idx.length < path.length then idx ++ [93] else idx

/-- `i_rant_path_normalize`: each name in its wire spelling, indices and dots as given.
`cap` is the room left, the fuel one per character and one. -/
def pathNormalize : Nat → Bytes → Nat → Option (Option Bytes)
  | 0, _, _ => none
  | _ + 1, [], _ => some (some [])
  | n + 1, c :: cs, cap =>
    if c = 46 then
      if cap ≤ 1 then some none else (pathNormalize n cs (cap - 1)).map (·.map (c :: ·))
    else if c = 91 then
      let idx := indexText cs
      if cap ≤ idx.length + 1 then some none
      else (pathNormalize n (cs.drop idx.length) (cap - 1 - idx.length)).map (·.map (c :: idx ++ ·))
    else
      let seg := (c :: cs).takeWhile (!endsName ·)
      if 255 < seg.length then some none
      else
        match nameNormalize seg cap with
        | none => some none
        | some out =>
          (pathNormalize n ((c :: cs).drop seg.length) (cap - out.length)).map (·.map (out ++ ·))

/-- The loop of `i_rant_schema_child` over the rows `[j, stop)`, `none` when it did not
end. -/
def childFrom (s : Schema) (name : Bytes) : Nat → Nat → Nat → Option (Option Nat)
  | 0, _, _ => none
  | n + 1, j, stop =>
    if j < stop then
      if (s.row j).name = name then some (some j) else childFrom s name n (s.row j).next stop
    else some none

/-- `i_rant_schema_child`: the child of row `p` named `name`, or of the root. -/
def schemaChild (s : Schema) (p : Option Nat) (name : Bytes) : Option (Option Nat) :=
  match p with
  | none => childFrom s name (s.nfields + 1) 0 s.nfields
  | some p => childFrom s name (s.nfields + 1) (p + 1) (s.row p).next

/-- A name under an array steps into its element 0 first, with `room` left for indices. -/
def intoElems (s : Schema) : Nat → Nat → List Nat → Option (Nat × List Nat)
  | 0, cur, got => if (s.row cur).kind.isArray then none else some (cur, got)
  | room + 1, cur, got =>
    if (s.row cur).kind.isArray then intoElems s room (cur + 1) (got ++ [0]) else some (cur, got)

/-- A decimal index that fits 32 bits. -/
def indexOf (digits : Bytes) : Option Nat :=
  let v := digits.foldl (fun acc d => acc * 10 + (d.toNat - 48)) 0
  if digits.isEmpty ∨ u32Max < v then none else some v

/-- One `[N]` step after a name, `path` past its bracket: the index and what follows it. -/
def indexStep (path : Bytes) : Option (Nat × Bytes) :=
  let digits := path.takeWhile isDigit
  match indexOf digits, path.drop digits.length with
  | some idx, 93 :: rest => some (idx, rest)
  | _, _ => none

/-- The `[N]` steps after a name, with `room` left for indices: the inner loop of
`i_rant_schema_field_by_path`. -/
def indexSteps (s : Schema) : Nat → Nat → List Nat → Bytes → Option (Nat × List Nat × Bytes)
  | room, cur, got, 91 :: path =>
    match indexStep path, room with
    | some (idx, rest), room + 1 =>
      if (s.row cur).kind.isArray = false then none
      else indexSteps s room (cur + 1) (got ++ [idx]) rest
    | _, _ => none
  | _, cur, got, path => some (cur, got, path)

/-- Where the walk looks for a name next: under the root, or under the struct `cur` leads
to. -/
def pathParent (s : Schema) (cur : Option Nat) (got : List Nat) (seg : Bytes) :
    Option (Option Nat × List Nat) :=
  match cur with
  | none => some (none, got)
  | some cur => do
    let (cur, got) ← intoElems s (maxDepth - got.length) cur got
    if (s.row cur).kind ≠ .struct ∨ seg.isEmpty then none else some (some cur, got)

/-- The walk of `i_rant_schema_field_by_path` over a normalized path, `cur` the row
reached so far, `none` when it did not end. -/
def pathWalk (s : Schema) : Nat → Option Nat → List Nat → Bytes → Option (Option (Nat × List Nat))
  | 0, _, _, _ => none
  | n + 1, cur, got, path =>
    let seg := path.takeWhile (!endsName ·)
    match pathParent s cur got seg with
    | none => some none
    | some (parent, got) =>
      match schemaChild s parent seg with
      | none => none
      | some none => some none
      | some (some cur) =>
        match indexSteps s (maxDepth - got.length) cur got (path.drop seg.length) with
        | none => some none
        | some (cur, got, []) =>
          some (if got.length = (s.row cur).arrDepth then some (cur, got) else none)
        | some (cur, got, 46 :: rest) => pathWalk s n (some cur) got rest
        | some (_, _, _ :: _) => some none

/-- `i_rant_schema_field_by_path`: the row a path names and its indices, outermost first. -/
def fieldByPath (s : Schema) (path : Bytes) : Option (Option (Nat × List Nat)) :=
  match pathNormalize (path.length + 1) path 512 with
  | none => none
  | some none => some none
  | some (some wire) => pathWalk s (wire.length + 1) none [] wire

/-- `i_rant_schema_read_lookup`. -/
def readLookup (s : Schema) (msg : Bytes) (path : Bytes) (cr : Option (List Carry)) :
    Option (Option (Nat × Found)) :=
  match fieldByPath s path with
  | none => none
  | some none => some none
  | some (some (f, elems)) => (resolve s msg f elems cr).map (·.map (f, ·))

/-! ## Validating -/

/-- The element loop of `i_rant_valid_payload`: `n` bodies from end `k` on, the last body
having ended at `prev`. The answer is whether they are valid and fill the payload. -/
def validBodies (msg : Bytes) (check : Span → Option Bool) (sp : Span) (tab bodies : Nat) :
    Nat → Nat → Nat → Option Bool
  | 0, _, prev => some (bodies + prev = sp.stop)
  | n + 1, k, prev =>
    match le32 msg (tab + 4 * k) with
    | none => none
    | some stop =>
      if stop < prev then some false
      else if sp.stop < bodies + stop then some false
      else
        match check ⟨bodies + prev, stop - prev⟩ with
        | none => none
        | some false => some false
        | some true => validBodies msg check sp tab bodies n (k + 1) stop

/-- The walk of `i_rant_record_row` over the rows `[k, last)` for the row of frame `ord`,
`none` when it did not end. -/
def recordRowFrom (s : Schema) (last ord : Nat) : Nat → Nat → Option (Option Nat)
  | 0, _ => none
  | n + 1, k =>
    if k < last then
      if rowFramed s.fields (s.row k) then
        if (s.row k).varOrd = ord then some (some k) else recordRowFrom s last ord n (s.row k).next
      else if (s.row k).kind = .arr then recordRowFrom s last ord n (s.row k).next
      else recordRowFrom s last ord n (k + 1)
    else some none

/-- `i_rant_record_row`: the row of frame `ord`, looked for from the cursor on and then
from the record's first row. -/
def recordRow (s : Schema) (first last cur ord : Nat) : Option (Option Nat) :=
  match recordRowFrom s last ord (s.nfields + 1) cur with
  | none => none
  | some (some k) => some (some k)
  | some none => recordRowFrom s last ord (s.nfields + 1) first

/-- The first row of a record's members. -/
def recFirst : Option Nat → Nat
  | none => 0
  | some r => r + 1

/-- The row past a record's members. -/
def Schema.recLast (s : Schema) : Option Nat → Nat
  | none => s.nfields
  | some r => (s.row r).next

/-- The frame loop of `i_rant_valid_record`: the frames `ord .. ord + n - 1` from `pos` on. -/
def validFrames (s : Schema) (msg : Bytes) (pay : Nat → Span → Option Bool) (r : Option Nat)
    (stop : Nat) : Nat → Nat → Nat → Nat → Option Bool
  | 0, _, _, pos => some (pos = stop)
  | n + 1, ord, cur, pos =>
    if stop < pos + 4 then some false
    else
      match le32 msg pos with
      | none => none
      | some len =>
        if stop < pos + 4 + len then some false
        else
          match recordRow s (recFirst r) (s.recLast r) cur ord with
          | none => none
          | some none => validFrames s msg pay r stop n (ord + 1) cur (pos + 4 + len)
          | some (some f) =>
            match pay f ⟨pos + 4, len⟩ with
            | none => none
            | some false => some false
            | some true => validFrames s msg pay r stop n (ord + 1) (s.row f).next (pos + 4 + len)

/-- `i_rant_valid_record` over a check of the payloads: a record's fixed part and frames
consume `rg` exactly and every frame it declares holds a valid payload. -/
def validRecord (s : Schema) (msg : Bytes) (pay : Nat → Span → Option Bool) (r : Option Nat)
    (rg : Span) : Option Bool :=
  if rg.stop < rg.off + s.recSize r then some false
  else validFrames s msg pay r rg.stop (s.recFrames r) 0 (recFirst r) (rg.off + s.recSize r)

/-- `i_rant_valid_payload`: a variable row's payload. Its element rows come after it, so
a fuel of the table's length is enough. -/
def validPayload (s : Schema) (msg : Bytes) : Nat → Nat → Span → Option Bool
  | 0, _, _ => none
  | n + 1, f, sp =>
    if (s.row f).kind.isArray = false then some true   -- string and map bytes
    else if (s.row (f + 1)).var = false then some (sp.len % (s.row (f + 1)).size = 0)
    else
      match arrayLive s msg f sp with
      | none => none
      | some none => some false
      | some (some count) =>
        let check := fun body =>
          if (s.row (f + 1)).kind = .struct
          then validRecord s msg (validPayload s msg n) (some (f + 1)) body
          else validPayload s msg n (f + 1) body
        validBodies msg check sp (sp.off + 4) (sp.off + 4 + 4 * count) count 0 0

/-- `rant_schema_validate`. -/
def validate (s : Schema) (msg : Bytes) : Option Bool :=
  if s.nVar = 0 then some (msg.length = s.size)
  else validRecord s msg (validPayload s msg s.nfields) none (wholeOf msg)

/-! ## Values -/

/-- `i_rant_schema_read_uint`. -/
def readUint (kind : Kind) (msg : Bytes) (off : Nat) : Option Nat :=
  match kind with
  | .u8 | .u16 | .u32 | .u64 | .bool => readLe msg off kind.scalarSize
  | _ => some 0

/-- `i_rant_schema_read_int`. -/
def readInt (kind : Kind) (msg : Bytes) (off : Nat) : Option Int :=
  match kind with
  | .i8 | .i16 | .i32 | .i64 => (readLe msg off kind.scalarSize).map (signed kind.scalarSize)
  | _ => some 0

/-- `i_rant_enum_read_val`: the backing integer widened to 64 bits. -/
def enumReadVal (backing : Kind) (msg : Bytes) (off : Nat) : Option Int :=
  match backing with
  | .u8 | .u16 | .u32 => (readLe msg off backing.scalarSize).map Int.ofNat
  | .u64 | .i8 | .i16 | .i32 | .i64 =>
    (readLe msg off backing.scalarSize).map (signed backing.scalarSize)
  | _ => some 0

/-- The bits of a floating point field, whose value `i_rant_schema_read_f64` copies. -/
def readFloat (kind : Kind) (msg : Bytes) (off : Nat) : Option Nat :=
  match kind with
  | .f32 | .f64 => readLe msg off kind.scalarSize
  | _ => some 0

/-- The bytes of a span, `none` outside the message. -/
def bytesAt (msg : Bytes) (sp : Span) : Option Bytes :=
  if msg.length < sp.stop then none else some ((msg.drop sp.off).take sp.len)

/-- `i_rant_schema_str_view`: one slot's live string, its length clamped to the cap. -/
def strView (msg : Bytes) (off cap : Nat) : Option Bytes :=
  match readLe msg off 2 with
  | none => none
  | some len => bytesAt msg ⟨off + 2, min len cap⟩

/-- `i_rant_array_packed`: an array's whole packed elements when they are fixed. -/
def arrayPacked (s : Schema) (msg : Bytes) (f : Nat) (sp : Span) : Option Bytes :=
  if (s.row f).kind.isArray = false ∨ (s.row (f + 1)).var then some []
  else bytesAt msg ⟨sp.off, sp.len - sp.len % (s.row (f + 1)).size⟩

/-- `rant_map_count` of a map body. -/
def mapCount (map : Bytes) : Nat :=
  if map.length < 2 then 0 else (readLe map 0 2).getD 0

/-- `RantValue`: what a reader found. The union's three members are the constructors, a
floating point value as its bits. -/
inductive Value
  | uint (v : Nat)
  | int (v : Int)
  | float (bits : Nat)
  | bytes (b : Bytes)
  | array (count : Nat) (packed : Bytes)
  | map (count : Nat) (b : Bytes)
  deriving Repr, DecidableEq

/-- The value of row `f` at the span `resolve` found: the switch of `rant_get_value_at`. -/
def valueAt (s : Schema) (msg : Bytes) (f : Nat) (sp : Span) : Option (Option Value) :=
  match (s.row f).kind with
  | .u8 | .u16 | .u32 | .u64 | .bool =>
    (readUint (s.row f).kind msg sp.off).map (some ∘ Value.uint)
  | .i8 | .i16 | .i32 | .i64 => (readInt (s.row f).kind msg sp.off).map (some ∘ Value.int)
  | .f32 | .f64 => (readFloat (s.row f).kind msg sp.off).map (some ∘ Value.float)
  | .struct => (bytesAt msg ⟨sp.off, (s.row f).size⟩).map (some ∘ Value.bytes)
  | .str => (strView msg sp.off (s.row f).strCap).map (some ∘ Value.bytes)
  | .vstr => (bytesAt msg sp).map (some ∘ Value.bytes)
  | .arr | .varr =>
    match arrayLive s msg f sp with
    | none => none
    | some none => some none
    | some (some count) => (arrayPacked s msg f sp).map (some ∘ Value.array count)
  | .map => (bytesAt msg sp).map fun b => some (Value.map (mapCount b) b)
  | .enum => (enumReadVal (s.row f).backing msg sp.off).map (some ∘ Value.int)
  | .named => some none

/-- `rant_get_value_at`: row `f` at the indices `elems`, the inner `none` a refusal. -/
def getValueAt (s : Schema) (msg : Bytes) (f : Nat) (elems : List Nat) :
    Option (Option Value) :=
  if s.nfields ≤ f then some none
  else
    match resolve s msg f elems none with
    | none => none
    | some none => some none
    | some (some (sp, _)) => valueAt s msg f sp

/-- A getter by path: `read` on the row and span the path leads to, `zero` where it leads
nowhere. -/
def getBy {α : Type} (zero : α) (read : Nat → Span → Option α) (s : Schema) (msg path : Bytes) :
    Option α :=
  match readLookup s msg path none with
  | none => none
  | some none => some zero
  | some (some (f, sp, _)) => read f sp

/-- `rant_get_uint`. An enum's value is its 64 bit pattern. -/
def getUint (s : Schema) (msg path : Bytes) : Option Nat :=
  getBy 0 (fun f sp =>
    if (s.row f).kind = .enum then (enumReadVal (s.row f).backing msg sp.off).map (unsignedOf 8)
    else readUint (s.row f).kind msg sp.off) s msg path

/-- `rant_get_int`. -/
def getInt (s : Schema) (msg path : Bytes) : Option Int :=
  getBy 0 (fun f sp =>
    if (s.row f).kind = .enum then enumReadVal (s.row f).backing msg sp.off
    else readInt (s.row f).kind msg sp.off) s msg path

/-- `rant_get_f64`, as the field's bits. -/
def getF64 (s : Schema) (msg path : Bytes) : Option Nat :=
  getBy 0 (fun f sp => readFloat (s.row f).kind msg sp.off) s msg path

/-- `rant_get_f32`, as the field's bits. -/
def getF32 (s : Schema) (msg path : Bytes) : Option Nat :=
  getBy 0 (fun f sp => if (s.row f).kind ≠ .f32 then some 0 else readFloat .f32 msg sp.off) s msg path

/-- `rant_get_array`. -/
def getArray (s : Schema) (msg path : Bytes) : Option Bytes :=
  getBy [] (fun f sp => arrayPacked s msg f sp) s msg path

/-- `rant_get_array_count`. -/
def getArrayCount (s : Schema) (msg path : Bytes) : Option Nat :=
  getBy 0 (fun f sp =>
    if (s.row f).kind.isArray = false then some 0
    else (arrayLive s msg f sp).map (·.getD 0)) s msg path

/-- `rant_get_string`. -/
def getString (s : Schema) (msg path : Bytes) : Option Bytes :=
  getBy [] (fun f sp =>
    if (s.row f).kind = .vstr then bytesAt msg sp
    else if (s.row f).kind ≠ .str then some []
    else strView msg sp.off (s.row f).strCap) s msg path

/-- `rant_get_map`. -/
def getMap (s : Schema) (msg path : Bytes) : Option Bytes :=
  getBy [] (fun f sp => if (s.row f).kind ≠ .map then some [] else bytesAt msg sp) s msg path

/-- The start of an enum's option table in the wire, past an optional name tag. -/
def optionsPos (s : Schema) (f : Nat) : Option Nat :=
  match readLe s.wire (s.row f).typeOff 1 with
  | none => none
  | some 18 => (readLe s.wire ((s.row f).typeOff + 1) 1).map ((s.row f).typeOff + 2 + · + 4)
  | some _ => some ((s.row f).typeOff + 4)

/-- `rant_schema_enum_variant`'s hop from the option at `pos` to the one `i` further on,
and its read, in a wire that ends at `stop`. -/
def enumVariantFrom (w : Bytes) (backing : Kind) (stop : Nat) :
    Nat → Nat → Option (Option (Int × Bytes))
  | i, pos =>
    if stop < pos + backing.scalarSize + 1 then some none
    else
      match readLe w (pos + backing.scalarSize) 1 with
      | none => none
      | some nl =>
        match i with
        | i + 1 => enumVariantFrom w backing stop i (pos + backing.scalarSize + 1 + nl)
        | 0 =>
          if stop < pos + backing.scalarSize + 1 + nl then some none
          else
            match enumReadVal backing w pos, bytesAt w ⟨pos + backing.scalarSize + 1, nl⟩ with
            | some v, some name => some (some (v, name))
            | _, _ => none

/-- `rant_schema_enum_variant`: option `i` of enum row `f`. -/
def enumVariant (s : Schema) (f i : Nat) : Option (Option (Int × Bytes)) :=
  if (s.row f).kind ≠ .enum ∨ (s.row f).count ≤ i then some none
  else
    match optionsPos s f with
    | none => none
    | some pos =>
      enumVariantFrom s.wire (s.row f).backing ((s.row f).typeOff + (s.row f).typeLen) i pos

/-- `rant_enum_name_of`'s loop: the name of a value among the `n` options from `i` on. -/
def enumNameFrom (s : Schema) (f : Nat) (v : Int) : Nat → Nat → Option Bytes
  | 0, _ => some []
  | n + 1, i =>
    match enumVariant s f i with
    | none => none
    | some (some (w, name)) => if w = v then some name else enumNameFrom s f v n (i + 1)
    | some none => enumNameFrom s f v n (i + 1)

/-- `rant_get_enum`: the current option's name, empty when the number has none. -/
def getEnum (s : Schema) (msg path : Bytes) : Option Bytes :=
  getBy [] (fun f sp =>
    if (s.row f).kind ≠ .enum then some []
    else
      match enumReadVal (s.row f).backing msg sp.off with
      | none => none
      | some v => enumNameFrom s f v (s.row f).count 0) s msg path

end Rant.Serialize
