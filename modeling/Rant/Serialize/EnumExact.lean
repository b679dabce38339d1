import Rant.Serialize.EnumCompile
/-!
# Enum values are exact

The compile of an enum text against the numbers it writes. A text compiles where each value is
taken and the type, its length kept in 32 bits, still holds the options 16 bits count; so it
compiles exactly the texts it should, to the values they write, unless a value wraps or there
are more options than 65535 (`enum_exact_iff`).
-/

namespace Rant.Serialize

open Rant.Lib

/-! ## Texts and the numbers they write -/

/-- The text of one enum: it reads as a definition, its options' names differ, and its own name
is no standard type's. -/
structure EnumText (std : Bytes → Option Bytes) (standalone : Bool) (text : Bytes) (e : EnumDef) :
    Prop where
  reads : readEnumDef text = some e
  distinct : (e.options.map Written.name).Nodup
  unclaimed : standalone = true ∨ std e.name = none

/-- Memory for every request. -/
def ample (std : Bytes → Option Bytes) : Env := { room := fun _ => true, std }

/-- The schema a fresh registry compiles a text to. -/
def compiledEnum (std : Bytes → Option Bytes) (standalone : Bool) (text : Bytes) :
    Option (Option Schema) := compiledSchema (ample std) { standalone } text

/-- The options as written, each its number and its name. -/
def exactOptions (ws : List Written) : List (Int × Bytes) :=
  List.zip (exactValues 0 ws) (ws.map Written.name)

/-- The text compiles exactly where every value fits and the options can be counted, and then
to the options written. -/
structure EnumExact (std : Bytes → Option Bytes) (standalone : Bool) (text : Bytes) (e : EnumDef) :
    Prop where
  compiles : (∃ s, compiledEnum std standalone text = some (some s)) ↔
    Representable e.backing e.options
  options : ∀ s, compiledEnum std standalone text = some (some s) →
    ∀ i, enumVariant s 0 i = some ((exactOptions e.options)[i]?)

/-- The bytes of the options on the wire. -/
def optionsLength (k : Kind) (ws : List Written) : Nat :=
  (ws.map fun w => k.scalarSize + 1 + w.name.length).sum

/-- The type's length, kept in 32 bits, ends before the options 16 bits count. -/
def Cut (k : Kind) (ws : List Written) : Prop :=
  (4 + optionsLength k ws) % 2 ^ 32 < 4 + optionsLength k (counted ws)

/-! ## Lengths -/

section
variable {k : Kind} {ws : List Written} {vs : List Int}

theorem length_wireOptions (h : vs.length = ws.length) :
    ((wireOptions k ws vs).flatMap (encodeOption k.scalarSize)).length = optionsLength k ws := by
  induction ws generalizing vs with
  | nil => rfl
  | cons w ws ih =>
    cases vs with
    | nil => cases h
    | cons v vs =>
      have ih := ih (Nat.succ.inj h)
      unfold wireOptions at ih ⊢
      rw [List.zipWith_cons_cons, List.flatMap_cons, List.length_append, length_encodeOption, ih]
      rfl

theorem length_enum_eq (h : vs.length = ws.length) :
    (Ty.enum k (wireOptions k ws vs)).encode.length = 4 + optionsLength k ws := by
  rw [Ty.encode]
  simp only [List.length_append, length_writeLe, length_wireOptions h]
  omega

theorem counted_wireOptions (h : vs.length = ws.length) :
    counted (wireOptions k ws vs) = wireOptions k (counted ws) (counted vs) := by
  unfold counted wireOptions
  rw [List.take_zipWith, List.length_zipWith, h, Nat.min_self]

/-- Few options are far from 4 GiB. -/
theorem optionsLength_le (hws : ∀ w ∈ ws, w.name.length < 256) :
    optionsLength k ws ≤ ws.length * 264 := by
  have hsize : k.scalarSize ≤ 8 := by
    cases k <;> decide
  induction ws with
  | nil => exact Nat.le_refl 0
  | cons w ws ih =>
    have hw := hws w List.mem_cons_self
    have ih := ih fun w' hw' => hws w' (List.mem_cons_of_mem _ hw')
    unfold optionsLength at ih ⊢
    rw [List.map_cons, List.sum_cons, List.length_cons, Nat.succ_mul]
    omega

theorem counted_of_le {α : Type} {xs : List α} (h : xs.length ≤ 65535) : counted xs = xs := by
  rw [counted, Nat.mod_eq_of_lt (by omega), List.take_length]

theorem cutType_opens (T : Bytes) : cutType T <+: T := List.take_prefix _ T

/-- Options that can be counted are not cut. -/
theorem not_cut (hws : ∀ w ∈ ws, w.name.length < 256) (h : ws.length ≤ 65535) : ¬ Cut k ws := by
  have hle := optionsLength_le (k := k) hws
  have hmul : ws.length * 264 ≤ 65535 * 264 := Nat.mul_le_mul_right 264 h
  unfold Cut
  rw [counted_of_le h, Nat.mod_eq_of_lt (by omega)]
  omega

/-- Bits that hold what is written give it back. -/
theorem variants_exact (hk : k.backingOk = true) : ∀ (ws : List Written) (vs : List Int),
    (∀ v ∈ vs, InI64 v ∧ InBacking k v) →
    (wireOptions k ws vs).map (fun o => (bitsValue k o.1, o.2)) =
      List.zip vs (ws.map Written.name)
  | [], vs, _ => by simp [wireOptions]
  | w :: ws, [], _ => by simp [wireOptions]
  | w :: ws, v :: vs, h => by
    obtain ⟨h64, hv⟩ := h v List.mem_cons_self
    have ih := variants_exact hk ws vs fun u hu => h u (List.mem_cons_of_mem _ hu)
    unfold wireOptions at ih ⊢
    rw [List.zipWith_cons_cons, List.map_cons, ih, List.map_cons, List.zip_cons_cons, wireOption,
      bitsValue_bitsOf hk h64 hv]

end

/-! ## Where the values are exact -/

section
variable {std : Bytes → Option Bytes} {standalone : Bool} {text : Bytes} {e : EnumDef}

/-- What a text's read promises of its definition. -/
theorem EnumText.fits (h : EnumText std standalone text e) : e.backing.backingOk = true ∧
    DigitsOnly e.options ∧ (∀ w ∈ e.options, w.name.length < 256) ∧ e.name ≠ [] ∧
    e.name.length ≤ 255 := by
  obtain ⟨word, p, p₁, p₂, q, -, h₂, -, -, h₅, -⟩ := readEnumDef_some h.reads
  obtain ⟨hk, hdigits, hnames⟩ := readEnum_fits h₅
  obtain ⟨-, h256, c, cs, hcons, -⟩ := typeNormalize_iff.mp h₂
  refine ⟨hk, hdigits, hnames, ?_, by omega⟩
  rw [hcons]
  exact List.cons_ne_nil c cs

/-- A text whose values are taken compiles where its type is not cut, to the options 16 bits
count. -/
theorem compiled_taken (h : EnumText std standalone text e) {vs : List Int}
    (hvs : takenValues e.backing 0 e.options = some vs) :
    (Cut e.backing e.options → compiledEnum std standalone text = some none) ∧
    (¬ Cut e.backing e.options → ∃ s, compiledEnum std standalone text = some (some s) ∧
      ∀ i, enumVariant s 0 i = some ((counted (wireOptions e.backing e.options vs))[i]?.map
        fun o => (bitsValue e.backing o.1, o.2))) := by
  obtain ⟨hk, -, hnames, hne, h255⟩ := h.fits
  have hlen := takenValues_length hvs
  obtain ⟨hcompiled, -⟩ := @compile_enum_text (ample std) text (fun _ => rfl) e h.reads standalone
    h.distinct h.unclaimed
  have hd := denotes_enum hne h255 hk (wireOptions_ok (k := e.backing) hnames vs)
  have hcut := denotes_cut hd (wireOf_mono (cutType_opens _))
  have htype : (cutType (Ty.enum e.backing (wireOptions e.backing e.options vs)).encode).length =
      (4 + optionsLength e.backing e.options) % 2 ^ 32 := by
    rw [cutType, List.length_take, length_enum_eq hlen]
    exact Nat.min_eq_left (Nat.mod_le _ _)
  have hkept : (SchemaTy.mk e.name
      (.enum e.backing (counted (wireOptions e.backing e.options vs)))).encode.length =
      2 + e.name.length + (4 + optionsLength e.backing (counted e.options)) := by
    rw [SchemaTy.encode, counted_wireOptions hlen]
    simp only [List.length_append, length_writeLe]
    rw [length_enum_eq (by rw [length_counted, length_counted, hlen])]
    omega
  rw [length_wireOf, htype, hkept] at hcut
  unfold compiledEnum Cut
  rw [hcompiled vs hvs]
  constructor
  · intro hlt
    rw [(refused (hcut.2 (by omega))).2]
  · intro hge
    have hd' := hcut.1 (by omega)
    obtain ⟨s, hs, -⟩ := compile_enum hd'
    exact ⟨s, congrArg some hs, enumVariant_wire hd' hs⟩

/-- A text's values are exact where no literal slips past its limit, no option steps past the
largest `int64_t` and there are at most 65535 options; and of a text that is refused, for a
value or because its type is cut. Of no other. -/
theorem enum_exact_iff (h : EnumText std standalone text e) : EnumExact std standalone text e ↔
    (NoSlip 0 e.options ∧ e.options.length ≤ 65535) ∨
    takenValues e.backing 0 e.options = none ∨ Cut e.backing e.options := by
  obtain ⟨hk, hdigits, hnames, -, -⟩ := h.fits
  have htaken : Representable e.backing e.options →
      takenValues e.backing 0 e.options = some (exactValues 0 e.options) ∧ NoSlip 0 e.options :=
    fun hr => takenValues_fits hk hdigits (fun _ => rfl) hr.fits
  cases hvs : takenValues e.backing 0 e.options with
  | none =>
    have hfails : compiledEnum std standalone text = some none :=
      (@compile_enum_text (ample std) text (fun _ => rfl) e h.reads standalone h.distinct
        h.unclaimed).2 hvs
    refine ⟨fun _ => Or.inr (Or.inl rfl), fun _ => ⟨⟨?_, ?_⟩, ?_⟩⟩
    · intro ⟨s, hs⟩
      rw [hfails] at hs
      cases hs
    · intro hr
      rw [(htaken hr).1] at hvs
      cases hvs
    · intro s hs
      rw [hfails] at hs
      cases hs
  | some vs =>
    obtain ⟨hcut, hgoes⟩ := compiled_taken h hvs
    by_cases hc : Cut e.backing e.options
    · have hfails := hcut hc
      refine ⟨fun _ => Or.inr (Or.inr hc), fun _ => ⟨⟨?_, ?_⟩, ?_⟩⟩
      · intro ⟨s, hs⟩
        rw [hfails] at hs
        cases hs
      · intro hr
        exact absurd hc (not_cut hnames hr.count)
      · intro s hs
        rw [hfails] at hs
        cases hs
    · obtain ⟨s, hs, hoptions⟩ := hgoes hc
      constructor
      · intro hexact
        have hr := hexact.compiles.mp ⟨s, hs⟩
        exact Or.inl ⟨(htaken hr).2, hr.count⟩
      · rintro (⟨hslip, hcount⟩ | hnone | hc')
        · obtain ⟨hvalues, hall⟩ := takenValues_exact hk hdigits (by unfold i64Max; omega)
            (fun _ => rfl) hslip hvs
          refine ⟨⟨fun _ => ⟨?_, hcount⟩, fun _ => ⟨s, hs⟩⟩, fun s' hs' i => ?_⟩
          · rw [← hvalues]
            exact hall
          · obtain rfl := Option.some.inj (Option.some.inj (hs.symm.trans hs'))
            have hlen := takenValues_length hvs
            rw [hoptions i, counted_of_le, ← List.getElem?_map, variants_exact hk _ _ hall,
              exactOptions, hvalues]
            rw [wireOptions, List.length_zipWith, hlen, Nat.min_self]
            exact hcount
        · cases hnone
        · exact absurd hc' hc

/-- `E=enum<i8>{A,B=-128}` compiles to 0 and -128. -/
theorem enum_exact_iff_signed : EnumExact (fun _ => none) false
    [69, 61, 101, 110, 117, 109, 60, 105, 56, 62, 123, 65, 44, 66, 61, 45, 49, 50, 56, 125]
    ⟨[69], .i8, [⟨[65], none⟩, ⟨[66], some (true, [49, 50, 56])⟩]⟩ :=
  (enum_exact_iff ⟨by decide +kernel, by decide, Or.inr rfl⟩).mpr
    (Or.inl ⟨⟨fun _ hc => (by cases hc), fun _ => (by decide), fun l hl => (by
      obtain rfl := Option.some.inj hl
      exact fun hc => absurd hc.1 (by decide)), fun hc => (by cases hc), trivial⟩, by decide⟩)

/-- `E=enum<u8>{A=18446744073709551620}` compiles, its value 2^64 + 4 taken for 4. -/
theorem enum_wraps : ¬ ∀ std standalone text e, EnumText std standalone text e →
    EnumExact std standalone text e := by
  intro h
  have hexact := h (fun _ => none) false
    [69, 61, 101, 110, 117, 109, 60, 117, 56, 62, 123, 65, 61, 49, 56, 52, 52, 54, 55, 52, 52, 48, 55, 51, 55, 48, 57, 53, 53, 49, 54, 50, 48, 125]
    ⟨[69], .u8, [⟨[65], some (false, [49, 56, 52, 52, 54, 55, 52, 52, 48, 55, 51, 55, 48, 57, 53, 53, 49, 54, 50, 48])⟩]⟩
    ⟨by decide +kernel, by decide, Or.inr rfl⟩
  have hsome : (compiledEnum (fun _ => none) false
      [69, 61, 101, 110, 117, 109, 60, 117, 56, 62, 123, 65, 61, 49, 56, 52, 52, 54, 55, 52, 52, 48, 55, 51, 55, 48, 57, 53, 53, 49, 54, 50, 48, 125]).any
      Option.isSome = true := by decide +kernel
  obtain ⟨o, ho, hs⟩ := (Option.any_eq_true _ _).mp hsome
  obtain ⟨s, rfl⟩ := Option.isSome_iff_exists.mp hs
  have hfits := (hexact.compiles.mp ⟨s, ho⟩).fits
  obtain ⟨-, hback⟩ := hfits 18446744073709551620 (by decide)
  simp [InBacking, Kind.isSigned, Kind.scalarSize] at hback

end

end Rant.Serialize
