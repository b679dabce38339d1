import Rant.Serialize.Layout
/-!
# The wire grammar

The types the schema wire spells, as trees: `Ty` is the `type` of the grammar in
`spec/schema.md` and `encode` its bytes. A tree is `Ok` where the grammar's rules and the
32 bit limits hold of it. The measuring walk `rdType` accepts exactly the encodings of such
trees, and what it measures is what the tree says: its fixed size, its default frames and
the rows it flattens to.
-/

namespace Rant.Serialize

open Rant.Lib

/-! ## Bytes at a position -/

/-- The bytes `bs` stand at `pos`. -/
def At (w : Bytes) (pos : Nat) (bs : Bytes) : Prop := pos ≤ w.length ∧ bs <+: w.drop pos

theorem At.le {w : Bytes} {pos : Nat} {bs : Bytes} (h : At w pos bs) :
    pos + bs.length ≤ w.length := by
  have := h.2.length_le
  rw [List.length_drop] at this
  have := h.1
  omega

theorem at_append {w : Bytes} {pos : Nat} {a b : Bytes} :
    At w pos (a ++ b) ↔ At w pos a ∧ At w (pos + a.length) b := by
  constructor
  · intro h
    obtain ⟨rest, hrest⟩ := h.2
    have hle := h.le
    rw [List.length_append] at hle
    refine ⟨⟨h.1, ⟨b ++ rest, by rw [← hrest, List.append_assoc]⟩⟩, ⟨by omega, rest, ?_⟩⟩
    rw [← List.drop_drop, ← hrest, List.append_assoc, List.drop_left]
  · rintro ⟨ha, hb⟩
    obtain ⟨ra, hra⟩ := ha.2
    obtain ⟨rb, hrb⟩ := hb.2
    refine ⟨ha.1, ⟨rb, ?_⟩⟩
    rw [← List.drop_drop, ← hra, List.drop_left] at hrb
    rw [List.append_assoc, hrb, hra]

theorem at_nil {w : Bytes} {pos : Nat} (h : pos ≤ w.length) : At w pos [] :=
  ⟨h, List.nil_prefix⟩

theorem at_take {w : Bytes} {pos k : Nat} (h : pos + k ≤ w.length) :
    At w pos ((w.drop pos).take k) :=
  ⟨by omega, List.take_prefix k _⟩

/-- What stands at a position is what a drop and a take read there. -/
theorem At.eq {w : Bytes} {pos : Nat} {bs : Bytes} (h : At w pos bs) :
    (w.drop pos).take bs.length = bs := by
  obtain ⟨rest, hrest⟩ := h.2
  rw [← hrest, List.take_left]

theorem At.get {w : Bytes} {pos : Nat} {bs : Bytes} (h : At w pos bs) {i : Nat}
    (hi : i < bs.length) : w[pos + i]? = bs[i]? := by
  obtain ⟨rest, hrest⟩ := h.2
  rw [← List.getElem?_drop, ← hrest, List.getElem?_append_left hi]

/-- The number at a position is the one its bytes spell. -/
theorem readLe_at {w : Bytes} {pos n v : Nat} (h : At w pos (writeLe n v)) (hv : v < 256 ^ n) :
    readLe w pos n = some v := by
  have hsame : readLe w pos n = readLe (writeLe n v ++ []) 0 n := by
    apply readLe_congr
    intro k hk
    rw [h.get (by rw [length_writeLe]; exact hk), Nat.zero_add, List.append_nil]
  rw [hsame, readLe_writeLe, Nat.mod_eq_of_lt hv]

/-- The bytes of a number that was read. -/
theorem writeLe_of_readLe {w : Bytes} : ∀ {n pos v : Nat}, readLe w pos n = some v →
    pos ≤ w.length → At w pos (writeLe n v)
  | 0, _, _, _, hle => at_nil hle
  | n + 1, pos, v, h, _ => by
    have hend := le_of_readLe (Nat.succ_pos n) h
    simp only [readLe] at h
    split at h
    next b t hb ht =>
      have hv : b.toNat + 256 * t = v := Option.some.inj h
      have hlt := b.toNat_lt
      have hmod : v % 256 = b.toNat := by omega
      have hdiv : v / 256 = t := by omega
      have hrest := writeLe_of_readLe ht (by omega)
      rw [writeLe, hmod, hdiv, UInt8.ofNat_toNat, ← List.singleton_append, at_append]
      refine ⟨⟨by omega, ?_⟩, hrest⟩
      obtain ⟨hi, hget⟩ := List.getElem?_eq_some_iff.mp hb
      rw [List.drop_eq_getElem_cons hi, hget]
      exact ⟨_, rfl⟩
    next => cases h

theorem readLe_iff {w : Bytes} {pos n v : Nat} (hn : 0 < n) :
    readLe w pos n = some v ↔ v < 256 ^ n ∧ At w pos (writeLe n v) := by
  constructor
  · intro h
    exact ⟨readLe_lt h, writeLe_of_readLe h (by have := le_of_readLe hn h; omega)⟩
  · rintro ⟨hv, hat⟩
    exact readLe_at hat hv

/-- One byte of the wire. -/
abbrev byte (v : Nat) : Bytes := writeLe 1 v

theorem rdU8_iff {w : Bytes} {pos v p : Nat} :
    rdU8 w pos = some (v, p) ↔ p = pos + 1 ∧ v < 256 ∧ At w pos (byte v) := by
  have := @readLe_iff w pos 1 v Nat.zero_lt_one
  rw [Nat.pow_one] at this
  rw [rdU8, Option.map_eq_some_iff]
  constructor
  · rintro ⟨u, hu, he⟩
    cases he
    exact ⟨rfl, this.mp hu⟩
  · rintro ⟨rfl, h⟩
    exact ⟨v, this.mpr h, rfl⟩

theorem rdU16_iff {w : Bytes} {pos v p : Nat} :
    rdU16 w pos = some (v, p) ↔ p = pos + 2 ∧ v < 65536 ∧ At w pos (writeLe 2 v) := by
  have := @readLe_iff w pos 2 v Nat.zero_lt_two
  rw [rdU16, Option.map_eq_some_iff]
  constructor
  · rintro ⟨u, hu, he⟩
    cases he
    exact ⟨rfl, this.mp hu⟩
  · rintro ⟨rfl, h⟩
    exact ⟨v, this.mpr h, rfl⟩

theorem rdSkip_iff {w : Bytes} {pos k p : Nat} :
    rdSkip w pos k = some p ↔ p = pos + k ∧ pos + k ≤ w.length := by
  unfold rdSkip
  split
  next h => simp; omega
  next h => simp; omega

theorem nameAt_eq {w : Bytes} {pos : Nat} {bs : Bytes} (h : At w pos bs) :
    nameAt w pos bs.length = bs := h.eq

/-! ## Types -/

/-- The wire byte of a kind. -/
def Kind.code : Kind → Nat
  | .u8 => 0 | .u16 => 1 | .u32 => 2 | .u64 => 3
  | .i8 => 4 | .i16 => 5 | .i32 => 6 | .i64 => 7
  | .f32 => 8 | .f64 => 9 | .bool => 10
  | .arr => 11 | .struct => 12 | .str => 13 | .vstr => 14
  | .varr => 15 | .map => 16 | .enum => 17 | .named => 18

@[simp] theorem Kind.ofByte_code (k : Kind) : Kind.ofByte k.code = some k := by
  cases k <;> rfl

theorem Kind.code_of_ofByte {b : Nat} {k : Kind} (h : Kind.ofByte b = some k) : b = k.code := by
  unfold Kind.ofByte at h
  split at h <;> first
    | (cases h; rfl)
    | exact absurd h.symm (Option.some_ne_none _)

theorem Kind.code_lt (k : Kind) : k.code < 256 := by
  cases k <;> decide

mutual
/-- A type of the wire grammar. -/
inductive Ty
  | scalar (k : Kind)
  | str (cap : Nat)
  | vstr
  | map
  /-- The backing kind and the options, each its value's bits and its name. -/
  | enum (backing : Kind) (options : List (Nat × Bytes))
  | arr (count : Nat) (elem : Ty)
  | varr (elem : Ty)
  | struct (members : Members)
  | named (name : Bytes) (inner : Ty)
/-- The members of a struct, in order. -/
inductive Members
  | nil
  | cons (name : Bytes) (ty : Ty) (rest : Members)
end

/-- The kind byte a type opens with. -/
def Ty.kind : Ty → Kind
  | .scalar k => k
  | .str _ => .str
  | .vstr => .vstr
  | .map => .map
  | .enum _ _ => .enum
  | .arr _ _ => .arr
  | .varr _ => .varr
  | .struct _ => .struct
  | .named _ _ => .named

def Members.length : Members → Nat
  | .nil => 0
  | .cons _ _ rest => rest.length + 1

/-- One enum option: `[value][u8 namelen][name]`. -/
def encodeOption (bs : Nat) (o : Nat × Bytes) : Bytes := writeLe bs o.1 ++ (byte o.2.length ++ o.2)

mutual
/-- The wire of a type. -/
def Ty.encode : Ty → Bytes
  | .scalar k => byte k.code
  | .str cap => byte 13 ++ writeLe 2 cap
  | .vstr => byte 14
  | .map => byte 16
  | .enum b opts =>
    byte 17 ++ (byte b.code ++ (writeLe 2 opts.length ++ opts.flatMap (encodeOption b.scalarSize)))
  | .arr count e => byte 11 ++ (writeLe 2 count ++ e.encode)
  | .varr e => byte 15 ++ e.encode
  | .struct ms => byte 12 ++ (byte ms.length ++ ms.encode)
  | .named n t => byte 18 ++ (byte n.length ++ (n ++ t.encode))
def Members.encode : Members → Bytes
  | .nil => []
  | .cons n t rest => byte n.length ++ (n ++ (t.encode ++ rest.encode))
end

mutual
/-- What a type occupies. -/
def Ty.measure : Ty → TypeLen
  | .scalar k => { size := k.scalarSize }
  | .str cap => { size := 2 + cap }
  | .vstr => { frames := 4, var := true }
  | .map => { frames := 4, var := true }
  | .enum b _ => { size := b.scalarSize }
  | .arr count e =>
    if e.measure.var then
      { frames := 4 + arrDmin .arr count true e.measure.body
        body := arrDmin .arr count true e.measure.body, var := true }
    else { size := count * e.measure.size }
  | .varr e =>
    { frames := 4 + arrDmin .varr 0 e.measure.var e.measure.body
      body := arrDmin .varr 0 e.measure.var e.measure.body, var := true }
  | .struct ms => { ms.measure with body := ms.measure.size + ms.measure.frames }
  | .named _ t => t.measure
def Members.measure : Members → TypeLen
  | .nil => {}
  | .cons _ t rest =>
    { size := t.measure.size + rest.measure.size, frames := t.measure.frames + rest.measure.frames
      var := t.measure.var || rest.measure.var }
end

mutual
/-- The rows a type flattens to, beside its own. -/
def Ty.rows : Ty → Nat
  | .scalar _ | .str _ | .vstr | .map | .enum _ _ => 0
  | .arr _ e | .varr e => e.rows + 1
  | .struct ms => ms.rows
  | .named _ t => t.rows
def Members.rows : Members → Nat
  | .nil => 0
  | .cons _ t rest => 1 + t.rows + rest.rows
end

/-- An array's element occupies something. -/
def TypeLen.Filled (t : TypeLen) : Prop := ¬ (t.var = false ∧ t.size = 0)

mutual
/-- The rules of the grammar, for a type `depth` levels in, `named` when a name wraps it:
every struct and enum has a name, an array element is never empty, a name never stands for
a name, structs and arrays nest `maxDepth` deep and every length fits its field. -/
def Ty.Ok : Ty → Nat → Bool → Prop
  | .scalar k, _, _ => 0 < k.scalarSize
  | .str cap, _, _ => cap < 65536
  | .vstr, _, _ => True
  | .map, _, _ => True
  | .enum b opts, _, named => named = true ∧ b.backingOk = true ∧ opts.length < 65536 ∧
      ∀ o ∈ opts, o.1 < 256 ^ b.scalarSize ∧ o.2.length < 256
  | .arr count e, depth, _ => depth < maxDepth ∧ count < 65536 ∧ e.Ok (depth + 1) false ∧
      e.measure.Filled ∧ (Ty.arr count e).measure.size ≤ u32Max ∧
      (Ty.arr count e).measure.frames ≤ u32Max
  | .varr e, depth, _ => depth < maxDepth ∧ e.Ok (depth + 1) false ∧
      e.measure.Filled ∧ (Ty.varr e).measure.frames ≤ u32Max
  | .struct ms, depth, named => named = true ∧ depth < maxDepth ∧ ms.length < 256 ∧
      ms.Ok (depth + 1) ∧ ms.measure.size + ms.measure.frames ≤ u32Max
  | .named n t, depth, _ => 0 < n.length ∧ n.length < 256 ∧ t.kind ≠ .named ∧ t.Ok depth true
def Members.Ok : Members → Nat → Prop
  | .nil, _ => True
  | .cons n t rest, depth => n.length < 256 ∧ t.Ok depth false ∧ rest.Ok depth
end

/-- A type of one row: no array, struct or name. -/
def Ty.isLeaf : Ty → Bool
  | .scalar _ | .str _ | .vstr | .map | .enum _ _ => true
  | .arr _ _ | .varr _ | .struct _ | .named _ _ => false

theorem Ty.leaf_kind {ty : Ty} {depth : Nat} {named : Bool} (hty : ty.isLeaf = true)
    (hok : ty.Ok depth named) : ty.kind ≠ .struct ∧ ty.kind.isArray = false := by
  cases ty with
  | scalar k =>
    cases k <;> first
      | exact ⟨by decide, rfl⟩
      | exact absurd hok (Nat.lt_irrefl 0)
  | arr | varr | struct | named => cases hty
  | _ => exact ⟨(fun h => by cases h), rfl⟩

/-! ## Trees at a position -/

section
variable {w : Bytes} {pos cap count : Nat} {n : Bytes} {b : Kind} {opts : List (Nat × Bytes)}
  {e t : Ty} {ms : Members}

attribute [local simp] Ty.encode Members.encode

theorem at_str : At w pos (Ty.str cap).encode ↔
    At w pos (byte 13) ∧ At w (pos + 1) (writeLe 2 cap) := by
  rw [Ty.encode, at_append, length_writeLe]

theorem at_enum : At w pos (Ty.enum b opts).encode ↔ At w pos (byte 17) ∧
    At w (pos + 1) (byte b.code) ∧ At w (pos + 1 + 1) (writeLe 2 opts.length) ∧
      At w (pos + 1 + 1 + 2) (opts.flatMap (encodeOption b.scalarSize)) := by
  rw [Ty.encode, at_append, at_append, at_append]
  simp only [length_writeLe]

theorem at_arr : At w pos (Ty.arr count e).encode ↔ At w pos (byte 11) ∧
    At w (pos + 1) (writeLe 2 count) ∧ At w (pos + 1 + 2) e.encode := by
  rw [Ty.encode, at_append, at_append]
  simp only [length_writeLe]

theorem at_varr : At w pos (Ty.varr e).encode ↔ At w pos (byte 15) ∧ At w (pos + 1) e.encode := by
  rw [Ty.encode, at_append, length_writeLe]

theorem at_struct : At w pos (Ty.struct ms).encode ↔ At w pos (byte 12) ∧
    At w (pos + 1) (byte ms.length) ∧ At w (pos + 1 + 1) ms.encode := by
  rw [Ty.encode, at_append, at_append]
  simp only [length_writeLe]

theorem at_named : At w pos (Ty.named n t).encode ↔ At w pos (byte 18) ∧
    At w (pos + 1) (byte n.length) ∧ At w (pos + 1 + 1) n ∧ At w (pos + 1 + 1 + n.length) t.encode := by
  rw [Ty.encode, at_append, at_append, at_append]
  simp only [length_writeLe]

theorem at_cons : At w pos (Members.cons n t ms).encode ↔ At w pos (byte n.length) ∧
    At w (pos + 1) n ∧ At w (pos + 1 + n.length) t.encode ∧
      At w (pos + 1 + n.length + t.encode.length) ms.encode := by
  rw [Members.encode, at_append, at_append, at_append, length_writeLe]

theorem length_str : (Ty.str cap).encode.length = 1 + 2 := by
  rw [Ty.encode, List.length_append, length_writeLe, length_writeLe]

theorem length_enum : (Ty.enum b opts).encode.length =
    1 + (1 + (2 + (opts.flatMap (encodeOption b.scalarSize)).length)) := by
  simp only [Ty.encode, List.length_append, length_writeLe]

theorem length_arr : (Ty.arr count e).encode.length = 1 + (2 + e.encode.length) := by
  simp only [Ty.encode, List.length_append, length_writeLe]

theorem length_varr : (Ty.varr e).encode.length = 1 + e.encode.length := by
  simp only [Ty.encode, List.length_append, length_writeLe]

theorem length_struct : (Ty.struct ms).encode.length = 1 + (1 + ms.encode.length) := by
  simp only [Ty.encode, List.length_append, length_writeLe]

theorem length_named : (Ty.named n t).encode.length = 1 + (1 + (n.length + t.encode.length)) := by
  simp only [Ty.encode, List.length_append, length_writeLe]

theorem length_cons : (Members.cons n t ms).encode.length =
    1 + (n.length + (t.encode.length + ms.encode.length)) := by
  simp only [Members.encode, List.length_append, length_writeLe]

end

end Rant.Serialize
