import Rant.Serialize.EnumRun
import Rant.Serialize.DefaultValue
/-!
# The schema of an enum

A wire whose root is an enum compiles to one row, and `rant_schema_enum_variant` over that row
gives back each option of the wire with the value its bits hold (`enumVariant_wire`).
-/

namespace Rant.Serialize

open Rant.Lib

/-! ## The row -/

/-- The row of an enum root. -/
def enumRow (k : Kind) (count pos len : Nat) : Field :=
  { kind := .enum, backing := k, count, typeOff := pos, typeLen := len, size := k.scalarSize
    next := 1 }

section
variable {w name : Bytes} {k : Kind} {opts : List (Nat × Bytes)}

theorem enum_ok (h : Denotes w ⟨name, .enum k opts⟩) : k.backingOk = true ∧ opts.length < 65536 ∧
    ∀ o ∈ opts, o.1 < 256 ^ k.scalarSize ∧ o.2.length < 256 := h.1.ty.2

/-- The options follow the kind, the backing and the count. -/
theorem enum_at (h : Denotes w ⟨name, .enum k opts⟩) : At w (1 + 1 + name.length) (byte 17) ∧
    At w (1 + 1 + name.length + 1) (byte k.code) ∧
    At w (1 + 1 + name.length + 1 + 1) (writeLe 2 opts.length) ∧
    At w (1 + 1 + name.length + 1 + 1 + 2) (opts.flatMap (encodeOption k.scalarSize)) := by
  obtain ⟨hat, -⟩ := compileRows_header h 1
  rw [Ty.encode, at_append, at_append, at_append] at hat
  simp only [length_writeLe] at hat
  exact hat

/-- The emitted row of an enum root. -/
theorem emitType_enum (h : Denotes w ⟨name, .enum k opts⟩) :
    emitType w 1 (w.length + 1) [fieldInit [] 0 none 0] (1 + 1 + name.length) 0 0 0 =
      some ⟨[enumRow k opts.length (1 + 1 + name.length) (Ty.enum k opts).encode.length],
        1 + 1 + name.length + (Ty.enum k opts).encode.length, k.scalarSize⟩ := by
  obtain ⟨hk, hn, hopts⟩ := enum_ok h
  have htag := typeTag_core h.1.ty (compileRows_header h 1).1
  obtain ⟨-, hb, hc, ho⟩ := enum_at h
  have h₁ := rdU8_iff.mpr ⟨rfl, k.code_lt, hb⟩
  have h₂ := rdU16_iff.mpr ⟨rfl, hn, hc⟩
  have h₃ := skipOptions_complete (fun o ho => (hopts o ho).2) ho
  have hint : ¬ k.backingOk = false := by simp [hk]
  have hend : 1 + 1 + name.length + (Ty.enum k opts).encode.length =
      1 + 1 + name.length + 1 + 1 + 2 + (opts.flatMap (encodeOption k.scalarSize)).length := by
    simp only [Ty.encode, List.length_append, length_writeLe]
    omega
  have hlen : 1 + 1 + name.length + 1 + 1 + 2 +
      (opts.flatMap (encodeOption k.scalarSize)).length - (1 + 1 + name.length) =
      (Ty.enum k opts).encode.length := by omega
  have hrow : fillRow [fieldInit [] 0 none 0] 0 (1 + 1 + name.length) (1 + 1 + name.length + 1 + 1 +
      2 + (opts.flatMap (encodeOption k.scalarSize)).length) [] .enum k.scalarSize false opts.length
      0 k = [enumRow k opts.length (1 + 1 + name.length) (Ty.enum k opts).encode.length] := by
    unfold fillRow
    rw [hlen]
    rfl
  rw [emitType, show typeTag w (1 + 1 + name.length) =
    some ([], Kind.code .enum, 1 + 1 + name.length + 1) from htag]
  simp only [Option.bind_eq_bind, Option.bind_some, emitBody, Kind.ofByte_code, h₁, h₂, h₃,
    if_neg hint, hrow, hend]

/-- An enum root compiles to its row. -/
theorem compile_enum (h : Denotes w ⟨name, .enum k opts⟩) :
    ∃ s, schemaParse w = some s ∧ s.wire = w ∧ s.name = name ∧ s.fields =
      [enumRow k opts.length (1 + 1 + name.length) (Ty.enum k opts).encode.length] := by
  have hrows : (SchemaTy.mk name (.enum k opts)).rows = 1 := rfl
  have hplace : ∀ r : Field, placedRow [r] 0 = r → r.var = false → k.scalarSize ≤ u32Max →
      schemaPlace [r] k.scalarSize = some ([r], 0, k.scalarSize) := by
    intro r hrow hv hs
    have hnot : rowFramed [r] r = false := by simp [rowFramed, hv]
    have hfixed : placeMin [r] 0 0 = some ([r], 0) := by simp [placeMin, rowOf, hv]
    simp only [schemaPlace, List.length_singleton, placeRows, placeRow, hrow, hnot, placeMins,
      hfixed, Option.bind_eq_bind, Option.bind_some, Bool.false_eq_true, if_false,
      List.set_cons_zero, Nat.add_zero, if_neg (Nat.not_lt.mpr hs)]
  have hsize : k.scalarSize ≤ u32Max := by
    cases k <;> decide
  rw [schemaParse_denotes h, hrows, (compileRows_header h _).2]
  rw [if_neg (by decide), if_neg (by intro hc; cases hc), if_neg (by decide)]
  rw [show (SchemaTy.mk name (.enum k opts)).typePos = 1 + 1 + name.length from rfl,
    show 1 % 2 ^ 32 = 1 from rfl, emitType_enum h]
  simp only [Option.bind_some, placedSchema, List.length_singleton, ne_eq, not_true_eq_false,
    if_false]
  rw [hplace _ rfl rfl hsize]
  exact ⟨_, rfl, rfl, rfl, rfl⟩

end

/-! ## The options read back -/

/-- The value some bits hold in a backing integer, widened to 64 bits. -/
def bitsValue (k : Kind) (v : Nat) : Int :=
  match k with
  | .u8 | .u16 | .u32 => Int.ofNat v
  | _ => signed k.scalarSize v

/-- A value that fits the backing and 64 bits is what its bits hold. -/
theorem bitsValue_bitsOf {k : Kind} (hk : k.backingOk = true) {v : Int} (h64 : InI64 v)
    (hv : InBacking k v) : bitsValue k (bitsOf k.scalarSize v) = v := by
  unfold InI64 i64Max at h64
  cases k <;> first
    | exact absurd hk (by decide)
    | (simp only [InBacking, Kind.isSigned, Kind.scalarSize] at hv
       simp only [bitsValue, bitsOf, signed, Kind.scalarSize]
       simp at hv ⊢
       omega)

section
variable {w : Bytes} {k : Kind}

theorem enumReadVal_at (hk : k.backingOk = true) {pos v : Nat} (hv : v < 256 ^ k.scalarSize)
    (hat : At w pos (writeLe k.scalarSize v)) : enumReadVal k w pos = some (bitsValue k v) := by
  have hread := readLe_at hat hv
  cases k <;> first
    | exact absurd hk (by decide)
    | (simp only [enumReadVal, hread, Option.map_some]; rfl)

/-- The hops over the options reach each of them. -/
theorem enumVariantFrom_at (hk : k.backingOk = true) {stop : Nat} (hstop : stop ≤ w.length) :
    ∀ (opts : List (Nat × Bytes)) (i pos : Nat), i < opts.length →
    (∀ o ∈ opts, o.1 < 256 ^ k.scalarSize ∧ o.2.length < 256) →
    At w pos (opts.flatMap (encodeOption k.scalarSize)) →
    pos + (opts.flatMap (encodeOption k.scalarSize)).length = stop →
    enumVariantFrom w k stop i pos = some (opts[i]?.map fun o => (bitsValue k o.1, o.2))
  | [], _, _, hi, _, _, _ => absurd hi (Nat.not_lt_zero _)
  | o :: opts, i, pos, hi, hall, hat, hend => by
    rw [List.flatMap_cons, at_append, length_encodeOption] at hat
    rw [List.flatMap_cons, List.length_append, length_encodeOption] at hend
    obtain ⟨hopt, hrest⟩ := hat
    obtain ⟨hv, hl⟩ := hall o List.mem_cons_self
    rw [encodeOption, at_append, at_append, length_writeLe, length_writeLe] at hopt
    obtain ⟨hval, hlen, hname⟩ := hopt
    have hnl := readLe_at hlen (by simpa using hl)
    unfold enumVariantFrom
    rw [if_neg (by omega), hnl]
    cases i with
    | zero =>
      dsimp only
      rw [if_neg (by omega), enumReadVal_at hk hv hval, bytesAt_at hname]
      rfl
    | succ i =>
      dsimp only
      rw [show pos + k.scalarSize + 1 + o.2.length = pos + (k.scalarSize + 1 + o.2.length) by omega,
        enumVariantFrom_at hk hstop opts i _ (Nat.lt_of_succ_lt_succ hi)
          (fun o' ho' => hall o' (List.mem_cons_of_mem _ ho')) hrest (by omega)]
      rfl

/-- The compiled enum's options are those of its wire, in order, and no others. -/
theorem enumVariant_wire {name : Bytes} {opts : List (Nat × Bytes)} {s : Schema}
    (h : Denotes w ⟨name, .enum k opts⟩) (hs : schemaParse w = some s) (i : Nat) :
    enumVariant s 0 i = some (opts[i]?.map fun o => (bitsValue k o.1, o.2)) := by
  obtain ⟨s', hs', hw, -, hfields⟩ := compile_enum h
  obtain rfl := Option.some.inj (hs'.symm.trans hs)
  obtain ⟨hk, -, hopts⟩ := enum_ok h
  obtain ⟨hkind, -, -, hat⟩ := enum_at h
  have hrow : s'.row 0 =
      enumRow k opts.length (1 + 1 + name.length) (Ty.enum k opts).encode.length := by
    rw [Schema.row, hfields]
    rfl
  have hpos : optionsPos s' 0 = some (1 + 1 + name.length + 4) := by
    unfold optionsPos
    rw [hrow, hw, show (enumRow k opts.length (1 + 1 + name.length) _).typeOff =
      1 + 1 + name.length from rfl, readLe_at hkind (by decide)]
    rfl
  have hle := (compileRows_header h 1).1.le
  unfold enumVariant
  rw [hrow, hpos, hw]
  split
  next hi =>
    have hle : opts.length ≤ i := hi.resolve_left fun hne => hne rfl
    rw [List.getElem?_eq_none hle]
    rfl
  next hi =>
    have hlt : i < opts.length := Nat.lt_of_not_le fun hge => hi (Or.inr hge)
    refine enumVariantFrom_at hk hle opts i _ hlt hopts hat ?_
    dsimp only [enumRow]
    simp only [SchemaTy.typePos, Ty.encode, List.length_append, length_writeLe]
    omega

end

end Rant.Serialize
