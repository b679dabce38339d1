import Rant.Serialize.Message
/-!
# Reader and writer compatibility

`src/serialize/match.c`: whether a reader's schema is a subset of a publisher's, decided
over the two wires (`typeCmp`), and the rebased view, the reader's own table at the
publisher's offsets and frames (`rebase`). The reason a refusal spells out is left out.
-/

namespace Rant.Serialize

open Rant.Lib

/-- `i_rant_schema_find`: a top level field by name, the first of that name. -/
def schemaFind (s : Schema) (name : Bytes) : Option Nat :=
  (List.range s.nfields).find? fun i => (s.row i).depth = 0 ∧ (s.row i).name = name

/-- `i_rant_rd_type_name`: consumes a NAMED wrapper if present, with its name. -/
def rdTypeName (w : Bytes) (pos : Nat) : Option (Bytes × Nat) :=
  if readLe w pos 1 = some 18 then do
    let (nl, pos) ← rdU8 w (pos + 1)
    let nm := nameAt w pos nl
    let pos ← rdSkip w pos nl
    some (nm, pos)
  else some ([], pos)

/-- The bytes of a scalar kind's byte, 0 for any other. -/
def sizeOfByte (b : Nat) : Nat :=
  match Kind.ofByte b with
  | some k => k.scalarSize
  | none => 0

/-- `i_rant_rd_skip_enum`. -/
def rdSkipEnum (w : Bytes) (backing pos : Nat) : Option Nat := do
  let (n, pos) ← rdU16 w pos
  skipOptions w (sizeOfByte backing) n pos

/-- The members of the two structs: the loop of `i_rant_type_cmp`'s struct case. -/
def membersCmp (cmp : Nat → Nat → Option (Nat × Nat)) (wa wb : Bytes) :
    Nat → Nat → Nat → Option (Nat × Nat)
  | 0, pa, pb => some (pa, pb)
  | n + 1, pa, pb => do
    let (la, pa) ← rdU8 wa pa
    let (lb, pb) ← rdU8 wb pb
    let na := nameAt wa pa la
    let nb := nameAt wb pb lb
    let pa ← rdSkip wa pa la
    let pb ← rdSkip wb pb lb
    if la ≠ lb ∨ na ≠ nb then none
    else
      let (pa, pb) ← cmp pa pb
      membersCmp cmp wa wb n pa pb

/-- The switch of `i_rant_type_cmp` on a kind byte both share, the positions past it.
`cmp` compares nested types. -/
def bodyCmp (cmp : Nat → Nat → Option (Nat × Nat)) (wa wb : Bytes) (k pa pb : Nat) :
    Option (Nat × Nat) :=
  match Kind.ofByte k with
  | some .str => do
    let (ca, pa) ← rdU16 wa pa
    let (cb, pb) ← rdU16 wb pb
    if ca ≠ cb then none else some (pa, pb)
  | some .arr => do
    let (ca, pa) ← rdU16 wa pa
    let (cb, pb) ← rdU16 wb pb
    if ca ≠ cb then none else cmp pa pb
  | some .varr => cmp pa pb
  | some .vstr | some .map => some (pa, pb)
  | some .enum => do
    -- the backing width only, names are advisory
    let (ba, pa) ← rdU8 wa pa
    let (bb, pb) ← rdU8 wb pb
    let pa ← rdSkipEnum wa ba pa
    let pb ← rdSkipEnum wb bb pb
    if ba ≠ bb then none else some (pa, pb)
  | some .struct => do
    let (nfa, pa) ← rdU8 wa pa
    let (nfb, pb) ← rdU8 wb pb
    if nfa ≠ nfb then none else membersCmp cmp wa wb nfa pa pb
  | _ => if sizeOfByte k ≠ 0 then some (pa, pb) else none

/-- `i_rant_type_cmp`: can a reader declaring the type at `pa` read a writer's type at
`pb`, and where the two types end. Names narrow, everything else compares exactly. `room`
is the depth left. -/
def typeCmp (wa wb : Bytes) : Nat → Nat → Nat → Option (Nat × Nat)
  | 0, _, _ => none
  | room + 1, pa, pb => do
    let (na, pa) ← rdTypeName wa pa
    let (nb, pb) ← rdTypeName wb pb
    if na ≠ [] ∧ na ≠ nb then none
    else
      let (ka, pa) ← rdU8 wa pa
      let (kb, pb) ← rdU8 wb pb
      if ka ≠ kb then none else bodyCmp (typeCmp wa wb room) wa wb ka pa pb

/-- `i_rant_field_cmp`: the two fields' types, compared from the wire. -/
def fieldCmp (sa : Schema) (a : Nat) (sb : Schema) (b : Nat) : Bool :=
  (typeCmp sa.wire sb.wire (maxDepth + 2) (sa.row a).typeOff (sb.row b).typeOff).isSome

/-- `rant_schema_subset`. -/
def subset (sub pub : Schema) : Bool :=
  if sub.valueRoot || pub.valueRoot then
    -- a bare root: the two roots are the types
    sub.valueRoot == pub.valueRoot && (sub.name = [] || sub.name = pub.name) && fieldCmp sub 0 pub 0
  else if sub.name ≠ pub.name then false
  else
    (List.range sub.nfields).all fun i =>
      if (sub.row i).depth ≠ 0 then true          -- members ride their struct
      else
        match schemaFind pub (sub.row i).name with
        | none => false
        | some b => fieldCmp sub i pub b

/-- Row `f` at row `p`'s place. -/
def Field.placedAt (f p : Field) : Field := { f with offset := p.offset, varOrd := p.varOrd }

/-- The rows `i .. i + n - 1` at the places of the publisher's rows from `j` on: the inner
loop of `i_rant_schema_rebase`. -/
def rebaseRows (pub : Schema) (i j : Nat) : Nat → Table → Option Table
  | 0, t => some t
  | n + 1, t =>
    match rebaseRows pub i j n t with
    | none => none
    | some t =>
      if pub.nfields ≤ j + n then none
      else some (t.set (i + n) ((rowOf t (i + n)).placedAt (pub.row (j + n))))

/-- The loop of `i_rant_schema_rebase` over the top level fields from row `i` on, the
outer `none` when it did not end. -/
def rebaseFrom (pub : Schema) : Nat → Table → Nat → Option (Option Table)
  | 0, _, _ => none
  | n + 1, t, i =>
    if i < t.length then
      match schemaFind pub (rowOf t i).name with
      | none => some none
      | some j =>
        if (rowOf t i).depth ≠ 0 then some none
        else
          match rebaseRows pub i j ((rowOf t i).next - i) t with
          | none => some none
          | some t' => rebaseFrom pub n t' (rowOf t i).next
    else some (some t)

/-- `i_rant_schema_rebase`, where memory suffices: the reader's schema parsed again, with
the publisher's layout and bounds. -/
def rebase (sub pub : Schema) : Option Schema :=
  if subset sub pub = false then none
  else
    match compile sub.wire with
    | none => none
    | some r =>
      match rebaseFrom pub (r.nfields + 1) r.fields 0 with
      | some (some t) =>
        some { r with fields := t, size := pub.size, nVar := pub.nVar, msgMin := pub.msgMin }
      | _ => none

end Rant.Serialize
