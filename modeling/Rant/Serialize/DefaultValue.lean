import Rant.Serialize.DefaultRead
/-!
# What the default message reads as

Every scalar 0, every string, map and variable array empty, every fixed array with its declared
count (`zeroValue`): by row and indices, and by path through each getter.
-/

namespace Rant.Serialize

open Rant.Lib

/-- The value of row `f` in the default message. -/
def zeroValue (s : Schema) (f : Nat) : Value :=
  match (s.row f).kind with
  | .u8 | .u16 | .u32 | .u64 | .bool => .uint 0
  | .i8 | .i16 | .i32 | .i64 | .enum => .int 0
  | .f32 | .f64 => .float 0
  | .struct => .bytes (List.replicate (s.row f).size 0)
  | .str | .vstr | .named => .bytes []
  | .arr => .array (s.row f).count
      (if (s.row (f + 1)).var then [] else List.replicate (s.row f).size 0)
  | .varr => .array 0 []
  | .map => .map 0 []

theorem bytesAt_at {msg bs : Bytes} {off : Nat} (h : At msg off bs) :
    bytesAt msg ⟨off, bs.length⟩ = some bs := by
  have hle := h.le
  unfold bytesAt
  rw [if_neg (by show ¬ msg.length < off + bs.length; omega)]
  exact congrArg some h.eq

theorem bytesAt_holds {msg bs : Bytes} {sp : Span} (h : Holds msg sp bs) :
    bytesAt msg sp = some bs := by
  have := bytesAt_at h.bytes
  rw [← h.len] at this
  exact this

theorem signed_zero (n : Nat) : signed n 0 = 0 := by
  simp [signed]

theorem enumReadVal_zeros {backing : Kind} {msg : Bytes} {off : Nat}
    (h : At msg off (List.replicate backing.scalarSize 0)) : enumReadVal backing msg off = some 0 := by
  have hread := readLe_zeros h (Nat.le_refl _)
  cases backing <;> simp_all [enumReadVal, signed_zero]

section
variable {s : Schema} {t₀ : Table}

namespace Built

variable (hb : Built s t₀) {msg : Bytes}
include hb

variable {sp : Span}

variable {f : Nat}

/-- A row that is found has its fixed bytes zero. -/
theorem zero_bytes (hf : f < s.nfields) (h : SpanZero s msg f sp) :
    At msg sp.off (List.replicate (s.row f).size 0) := by
  unfold SpanZero at h
  by_cases hv : (s.row f).var = false
  · rw [if_pos hv] at h
    exact h.bytes
  rw [if_neg hv] at h
  by_cases hs : (s.row f).kind = .struct
  · rw [if_pos hs] at h
    exact h
  rw [if_neg hs] at h
  rw [Bool.not_eq_false] at hv
  rw [hb.size_var hf hv hs]
  exact at_nil h.bytes.1

/-- A string or map row that is found is empty. -/
theorem zero_text (hf : f < s.nfields) (h : SpanZero s msg f sp)
    (hk : (s.row f).kind = .vstr ∨ (s.row f).kind = .map) : bytesAt msg sp = some [] := by
  have hleaf : (s.row f).kind.isArray = false ∧ (s.row f).kind ≠ .struct := by
    rcases hk with hk | hk <;> rw [hk] <;> simp [Kind.isArray]
  have hvar : (s.row f).var = true := by
    have hl := hb.leaf hf hleaf.2 hleaf.1
    unfold LeafOk at hl
    rcases hk with hk | hk
    · rw [hk] at hl
      exact hl.2
    · rw [hk] at hl
      exact hl.2
  unfold SpanZero at h
  rw [if_neg (by rw [hvar]; simp), if_neg hleaf.2, hb.payloadOf_leaf hf (Or.inl hleaf.1)] at h
  exact bytesAt_holds h

/-- A default array: its live count, and its packed elements when they are fixed. -/
theorem array_zero (hmin : Minimal s) (hf : f < s.nfields)
    (hka : (s.row f).kind.isArray = true) (h : SpanZero s msg f sp) :
    arrayLive s msg f sp = some (some (defaultCount s f)) ∧
    arrayPacked s msg f sp = some (if (s.row f).kind = .arr ∧ (s.row (f + 1)).var = false
      then List.replicate (s.row f).size 0 else []) := by
  obtain ⟨-, -, -, -, hok⟩ := hb.elem hf hka
  have hks : (s.row f).kind ≠ .struct := by
    intro hc
    rw [hc] at hka
    exact absurd hka (by simp [Kind.isArray])
  unfold SpanZero at h
  rw [if_neg hks] at h
  by_cases hv : (s.row (f + 1)).var = true
  · have hva : (s.row f).var = true := by rw [hok.var, hv, Bool.or_true]
    rw [if_neg (by rw [hva]; simp)] at h
    refine ⟨(hb.tableAt hmin hf hka hv h).live hv, ?_⟩
    unfold arrayPacked
    rw [if_pos (Or.inr hv), if_neg (by rw [hv]; simp)]
  · rw [Bool.not_eq_true] at hv
    have hlive : arrayLive s msg f sp = some (some (if (s.row f).kind = .arr then (s.row f).count
        else sp.len / (s.row (f + 1)).size)) := by
      unfold arrayLive
      rw [if_pos hv]
    have hpacked : arrayPacked s msg f sp =
        bytesAt msg ⟨sp.off, sp.len - sp.len % (s.row (f + 1)).size⟩ := by
      unfold arrayPacked
      rw [if_neg (by rw [hka, hv]; simp)]
    rw [hlive, hpacked]
    unfold defaultCount
    by_cases hk : (s.row f).kind = .arr
    · have hva : (s.row f).var = false := by rw [hok.var, hk, hv]; rfl
      rw [if_pos hva] at h
      have hlen := h.len
      rw [List.length_replicate, hok.fixed hk hv] at hlen
      rw [if_pos hk, if_pos hk, if_pos ⟨hk, hv⟩]
      refine ⟨rfl, ?_⟩
      rw [hlen, Nat.mul_mod_left, Nat.sub_zero, ← hlen]
      exact bytesAt_holds h
    · have hva : (s.row f).var = true := by
        rcases Kind.isArray_iff.mp hka with hc | hc
        · exact absurd hc hk
        · rw [hok.var, hc]
          rfl
      rw [if_neg (by rw [hva]; simp), hb.payloadOf_leaf hf (Or.inr hv)] at h
      have hlen := h.len
      rw [List.length_nil] at hlen
      rw [if_neg hk, if_neg hk, if_neg (fun hc => hk hc.1), hlen, Nat.zero_div, Nat.zero_mod]
      exact ⟨rfl, bytesAt_holds ⟨h.bytes, rfl⟩⟩

/-- A fixed string slot that is found is empty. -/
theorem strView_zero (hf : f < s.nfields) (h : SpanZero s msg f sp)
    (hk : (s.row f).kind = .str) : strView msg sp.off (s.row f).strCap = some [] := by
  have hz := hb.zero_bytes hf h
  rw [hb.str_size hf hk] at hz
  have hle := hz.le
  rw [List.length_replicate] at hle
  unfold strView
  rw [readLe_zeros hz (by omega)]
  dsimp only
  rw [Nat.zero_min]
  exact @bytesAt_at msg [] _ (at_nil (by omega))

/-- The bytes of a scalar that is found. -/
theorem scalar_zero (hf : f < s.nfields) (h : SpanZero s msg f sp) :
    readLe msg sp.off (s.row f).kind.scalarSize = some 0 := by
  have hz := hb.zero_bytes hf h
  by_cases hs : 0 < (s.row f).kind.scalarSize
  · rw [hb.scalar_size hf hs] at hz
    exact readLe_zeros hz (Nat.le_refl _)
  · rw [show (s.row f).kind.scalarSize = 0 by omega]
    rfl

theorem readUint_zero (hf : f < s.nfields) (h : SpanZero s msg f sp) :
    readUint (s.row f).kind msg sp.off = some 0 := by
  have hz := hb.scalar_zero hf h
  unfold readUint
  split <;> first
    | exact hz
    | rfl

theorem readInt_zero (hf : f < s.nfields) (h : SpanZero s msg f sp) :
    readInt (s.row f).kind msg sp.off = some 0 := by
  have hz := hb.scalar_zero hf h
  unfold readInt
  split <;> first
    | rw [hz, Option.map_some, signed_zero]
    | rfl

theorem readFloat_zero (hf : f < s.nfields) (h : SpanZero s msg f sp) :
    readFloat (s.row f).kind msg sp.off = some 0 := by
  have hz := hb.scalar_zero hf h
  unfold readFloat
  split <;> first
    | exact hz
    | rfl

theorem enumVal_zero (hf : f < s.nfields) (h : SpanZero s msg f sp)
    (hk : (s.row f).kind = .enum) : enumReadVal (s.row f).backing msg sp.off = some 0 := by
  have hz := hb.zero_bytes hf h
  rw [hb.enum_size hf hk] at hz
  exact enumReadVal_zeros hz

/-- A row that is found holds its zero value. -/
theorem valueAt_zero (hmin : Minimal s) (hf : f < s.nfields)
    (h : SpanZero s msg f sp) : valueAt s msg f sp = some (some (zeroValue s f)) := by
  have hu := hb.readUint_zero hf h
  have hi := hb.readInt_zero hf h
  have hfl := hb.readFloat_zero hf h
  unfold valueAt zeroValue
  cases hk : (s.row f).kind with
  | u8 | u16 | u32 | u64 | bool =>
    rw [hk] at hu
    dsimp only
    rw [hu]
    rfl
  | i8 | i16 | i32 | i64 =>
    rw [hk] at hi
    dsimp only
    rw [hi]
    rfl
  | f32 | f64 =>
    rw [hk] at hfl
    dsimp only
    rw [hfl]
    rfl
  | struct =>
    have hz := bytesAt_at (hb.zero_bytes hf h)
    rw [List.length_replicate] at hz
    dsimp only
    rw [hz]
    rfl
  | str =>
    dsimp only
    rw [hb.strView_zero hf h hk]
    rfl
  | vstr =>
    dsimp only
    rw [hb.zero_text hf h (Or.inl hk)]
    rfl
  | map =>
    dsimp only
    rw [hb.zero_text hf h (Or.inr hk)]
    rfl
  | enum =>
    dsimp only
    rw [hb.enumVal_zero hf h hk]
    rfl
  | arr =>
    obtain ⟨hlive, hpacked⟩ := hb.array_zero hmin hf (by rw [hk]; rfl) h
    dsimp only
    rw [hlive, hpacked]
    cases (s.row (f + 1)).var <;> simp [defaultCount, hk]
  | varr =>
    obtain ⟨hlive, hpacked⟩ := hb.array_zero hmin hf (by rw [hk]; rfl) h
    dsimp only
    rw [hlive, hpacked]
    simp [defaultCount, hk]
  | named => exact absurd hk (hb.not_named hf)

omit hb in
/-- The default message as a region. -/
theorem message_zero : RegionZero s (recordOf s none) none (wholeOf (recordOf s none)) :=
  ⟨⟨Nat.zero_le _, by simp [wholeOf]⟩, rfl⟩

/-- A path that is found in the default message leads to a default span. -/
theorem readLookup_zero (hmin : Minimal s) {path : Bytes} {cr : Option (List Carry)}
    (h : readLookup s (recordOf s none) path none = some (some (f, sp, cr))) :
    f < s.nfields ∧ SpanZero s (recordOf s none) f sp := by
  unfold readLookup at h
  obtain ⟨o, ho, hlt⟩ := hb.fieldByPath_ends path
  rw [ho] at h
  cases o with
  | none => cases h
  | some fe =>
    obtain ⟨f', elems⟩ := fe
    dsimp only at h
    obtain ⟨res, hres, hmap⟩ := Option.map_eq_some_iff.mp h
    obtain ⟨found, rfl, hpair⟩ := Option.map_eq_some_iff.mp hmap
    simp only [Prod.mk.injEq] at hpair
    obtain ⟨rfl, rfl⟩ := hpair
    have hf := (hlt _ _ rfl).1
    exact ⟨hf, hb.resolve_zero hmin message_zero hf hres⟩

/-- A getter by path reads its zero wherever its reader does. -/
theorem getBy_zero {α : Type} (hmin : Minimal s) {zero : α} {read : Nat → Span → Option α}
    (hread : ∀ f sp, f < s.nfields → SpanZero s (recordOf s none) f sp → read f sp = some zero)
    (path : Bytes) : getBy zero read s (recordOf s none) path = some zero := by
  obtain ⟨o, ho⟩ : ∃ o, readLookup s (recordOf s none) path none = some o := by
    unfold readLookup
    obtain ⟨o, ho, hlt⟩ := hb.fieldByPath_ends path
    rw [ho]
    cases o with
    | none => exact ⟨none, rfl⟩
    | some fe =>
      obtain ⟨r, hr, -⟩ := hb.resolve_ends (recordOf s none) fe.2 none (hlt fe.1 fe.2 rfl).1
      dsimp only
      rw [hr]
      exact ⟨_, rfl⟩
  unfold getBy
  rw [ho]
  cases o with
  | none => rfl
  | some found =>
    obtain ⟨f, sp, cr⟩ := found
    obtain ⟨hf, hz⟩ := hb.readLookup_zero hmin ho
    exact hread f sp hf hz

end Built

end

/-! ## The default message -/

/-- What the getters by path read: zeros, empty strings and maps, and of a fixed array that is
found its declared count. -/
structure GettersZero (s : Schema) (msg : Bytes) : Prop where
  uint : ∀ path, getUint s msg path = some 0
  int : ∀ path, getInt s msg path = some 0
  f64 : ∀ path, getF64 s msg path = some 0
  f32 : ∀ path, getF32 s msg path = some 0
  string : ∀ path, getString s msg path = some []
  map : ∀ path, getMap s msg path = some []
  count : ∀ path f sp cr, readLookup s msg path none = some (some (f, sp, cr)) →
    getArrayCount s msg path = some (if (s.row f).kind = .arr then (s.row f).count else 0)

/-- The message `msg` is the schema's default. -/
structure DefaultMessage (s : Schema) (msg : Bytes) : Prop where
  length : msg.length = s.msgMin
  valid : validate s msg = some true
  found : ∀ f elems, f < s.nfields → InRange s msg f elems →
    getValueAt s msg f elems = some (some (zeroValue s f))
  value : ∀ f elems v, getValueAt s msg f elems = some (some v) → v = zeroValue s f
  getters : GettersZero s msg

theorem Built.getters_zero {s : Schema} {t₀ : Table} (hb : Built s t₀) (hmin : Minimal s) :
    GettersZero s (recordOf s none) where
  uint path := by
    refine hb.getBy_zero hmin (fun f sp hf hz => ?_) path
    by_cases hk : (s.row f).kind = .enum
    · rw [if_pos hk, hb.enumVal_zero hf hz hk]
      simp [unsignedOf]
    · rw [if_neg hk]
      exact hb.readUint_zero hf hz
  int path := by
    refine hb.getBy_zero hmin (fun f sp hf hz => ?_) path
    by_cases hk : (s.row f).kind = .enum
    · rw [if_pos hk, hb.enumVal_zero hf hz hk]
    · rw [if_neg hk]
      exact hb.readInt_zero hf hz
  f64 path := hb.getBy_zero hmin (fun f sp hf hz => hb.readFloat_zero hf hz) path
  f32 path := by
    refine hb.getBy_zero hmin (fun f sp hf hz => ?_) path
    by_cases hk : (s.row f).kind = .f32
    · rw [if_neg (fun hc => hc hk)]
      have h := hb.readFloat_zero hf hz
      rw [hk] at h
      exact h
    · rw [if_pos hk]
  string path := by
    refine hb.getBy_zero hmin (fun f sp hf hz => ?_) path
    by_cases hv : (s.row f).kind = .vstr
    · rw [if_pos hv]
      exact hb.zero_text hf hz (Or.inl hv)
    rw [if_neg hv]
    by_cases hk : (s.row f).kind = .str
    · rw [if_neg (fun hc => hc hk)]
      exact hb.strView_zero hf hz hk
    · rw [if_pos hk]
  map path := by
    refine hb.getBy_zero hmin (fun f sp hf hz => ?_) path
    by_cases hk : (s.row f).kind = .map
    · rw [if_neg (fun hc => hc hk)]
      exact hb.zero_text hf hz (Or.inr hk)
    · rw [if_pos hk]
  count path f sp cr h := by
    obtain ⟨hf, hz⟩ := hb.readLookup_zero hmin h
    unfold getArrayCount getBy
    rw [h]
    dsimp only
    by_cases hka : (s.row f).kind.isArray = true
    · rw [if_neg (by rw [hka]; simp), (hb.array_zero hmin hf hka hz).1]
      rfl
    rw [Bool.not_eq_true] at hka
    rw [if_pos hka, if_neg]
    intro hc
    rw [hc] at hka
    exact absurd hka (by simp [Kind.isArray])

/-- Of a compiled schema the builder takes a buffer of at least the smallest message, writes
the default message at its front and leaves what is behind it. -/
theorem default_message {w : Bytes} {s : Schema} (h : compile w = some s) :
    ∃ msg, DefaultMessage s msg ∧ ∀ buf, messageDefault s buf =
      some (if buf.length < s.msgMin then none else some (msg ++ buf.drop s.msgMin)) := by
  obtain ⟨-, t₀, hb⟩ := compile_built h
  have hmin := compile_minimal h
  have hvalid := hb.validate_default hmin
  have hvalue : ∀ f elems v, getValueAt s (recordOf s none) f elems = some (some v) →
      v = zeroValue s f := by
    intro f elems v hv
    unfold getValueAt at hv
    by_cases hf : s.nfields ≤ f
    · rw [if_pos hf] at hv
      cases hv
    rw [if_neg hf] at hv
    split at hv
    next => cases hv
    next => cases hv
    next sp cr hres =>
      have hz := hb.resolve_zero hmin Built.message_zero (by omega) hres
      rw [hb.valueAt_zero hmin (by omega) hz] at hv
      simp only [Option.some.injEq] at hv
      exact hv.symm
  refine ⟨recordOf s none, ⟨hb.length_message hmin, hvalid, fun f elems hf hrange => ?_, hvalue,
    hb.getters_zero hmin⟩, messageDefault_eq hb hmin⟩
  obtain ⟨sp, v, -, -, hv⟩ := hb.resolve_ok hvalid hf hrange
  rw [hv, hvalue f elems v hv]

/-- The default message of a struct of a `u8` and an array of `u8`: a zero and an empty
frame. -/
theorem default_message_pair : ∃ msg, DefaultMessage pairSchema msg ∧ ∀ buf,
    messageDefault pairSchema buf = some (if buf.length < pairSchema.msgMin then none
      else some (msg ++ buf.drop pairSchema.msgMin)) :=
  @default_message pairWire pairSchema (by decide +kernel)

end Rant.Serialize
