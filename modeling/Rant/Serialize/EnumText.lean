import Rant.Serialize.Dsl
/-!
# What an enum text says

An enum definition read off its text with numbers that do not end: the backing, and each option
with the whole number written for it, or one more than the last (`exactValues`). The parser
takes the same text in 64 bits (`takenValues`). The two agree on every text whose values fit,
and differ in two places: a literal past 2^64 whose remainder slips under the limit, and the
step past the largest `int64_t`, which is the smallest.
-/

namespace Rant.Serialize

open Rant.Lib

/-! ## The text -/

/-- An option as written, its value's sign and digits where it has one. -/
structure Written where
  name : Bytes
  value : Option (Bool × Bytes)
  deriving DecidableEq

/-- The text past a separator, if one is there. -/
def pastComma (p : Bytes) : Bytes :=
  let p := skipBlank false p
  if p.headD 0 = 44 then p.drop 1 else p

/-- A whole number: a sign and at least one digit. -/
def readLiteral (p : Bytes) : Option ((Bool × Bytes) × Bytes) :=
  let neg : Bool := p.headD 0 = 45
  let p := if neg then p.drop 1 else p
  if isDigit (p.headD 0) then some ((neg, p.takeWhile isDigit), p.dropWhile isDigit) else none

/-- A name of at most 255 characters, and the text past it. -/
def readIdent (p : Bytes) : Option (Bytes × Bytes) :=
  if identLen p = 0 ∨ 255 < identLen p then none
  else some (p.take (identLen p), p.drop (identLen p))

/-- One option, its separator gone. -/
def readOption (p : Bytes) : Option (Written × Bytes) := do
  let (word, p) ← readIdent p
  let name ← typeNormalize word 256
  let p := skipBlank false p
  if p.headD 0 = 61 then
    let (value, p) ← readLiteral (skipBlank false (p.drop 1))
    some (⟨name, some value⟩, pastComma p)
  else some (⟨name, none⟩, pastComma p)

/-- The options up to the closing brace, `none` too where the fuel ends. -/
def readOptions : Nat → Bytes → Option (List Written × Bytes)
  | 0, _ => none
  | n + 1, p =>
    let p := skipBlank false p
    if p.headD 0 = 125 then some ([], p.drop 1)
    else do
      let (w, p) ← readOption p
      let (ws, p) ← readOptions n p
      some (w :: ws, p)

/-- The text past blanks and one character. -/
def readChar (c : UInt8) (p : Bytes) : Option Bytes :=
  let p := skipBlank false p
  if p.headD 0 = c then some (p.drop 1) else none

/-- An enum past the word `enum`. -/
def readEnum (p : Bytes) : Option ((Kind × List Written) × Bytes) := do
  let p ← readChar 60 p
  let (word, p) ← readIdent (skipBlank false p)
  let backing ← (dslKind word).filter Kind.backingOk
  let p ← readChar 62 p
  let p ← readChar 123 p
  let (ws, p) ← readOptions (p.length + 1) p
  some ((backing, ws), p)

/-- An enum definition. -/
structure EnumDef where
  name : Bytes
  backing : Kind
  options : List Written
  deriving DecidableEq

/-- A text that is the definition of one enum, `Name = enum<backing> { .. }`. -/
def readEnumDef (text : Bytes) : Option EnumDef := do
  let (word, p) ← readIdent (skipBlank false text)
  let name ← typeNormalize word 256
  let p ← readChar 61 p
  let (word, p) ← readIdent (skipBlank false p)
  if word = [101, 110, 117, 109] then
    let ((backing, options), p) ← readEnum p
    if (skipBlank false p).headD 0 = 0 then some { name, backing, options } else none
  else none

/-! ## The numbers -/

/-- The number some digits write, after `v`. -/
def decimalFrom (v : Nat) (digits : Bytes) : Nat :=
  digits.foldl (fun v c => v * 10 + (c.toNat - 48)) v

/-- The number a literal writes. -/
def literalValue (l : Bool × Bytes) : Int :=
  if l.1 then -(decimalFrom 0 l.2 : Int) else (decimalFrom 0 l.2 : Int)

/-- The largest number `i_rant_dsl_enum_value` lets a literal's digits write. -/
def literalLimit (neg : Bool) : Nat := if neg then i64Max + 1 else i64Max

/-- What the digit loop takes a literal for. -/
def takenLiteral (l : Bool × Bytes) : Option Int :=
  (valueLoop (literalLimit l.1) 0 l.2).map fun x => if l.1 then -(x.1 : Int) else (x.1 : Int)

/-- The values written, `next` the one an option without a value has. -/
def exactValues : Int → List Written → List Int
  | _, [] => []
  | next, w :: ws =>
    let v := (w.value.map literalValue).getD next
    v :: exactValues (v + 1) ws

/-- The values the parser takes, `none` where it refuses one. -/
def takenValues (backing : Kind) : Int → List Written → Option (List Int)
  | _, [] => some []
  | next, w :: ws => do
    let v ← (w.value.map takenLiteral).getD (some next)
    if enumValFits backing v then
      let vs ← takenValues backing (i64Succ v) ws
      some (v :: vs)
    else none

/-- A literal past the limit that the digit loop takes nonetheless. -/
def LiteralSlips (l : Bool × Bytes) : Prop :=
  literalLimit l.1 < decimalFrom 0 l.2 ∧ (takenLiteral l).isSome

/-- No literal slips, and no option steps past the largest `int64_t`. -/
def NoSlip : Int → List Written → Prop
  | _, [] => True
  | next, w :: ws =>
    (∀ l, w.value = some l → ¬ LiteralSlips l) ∧ (w.value = none → next ≤ i64Max) ∧
      NoSlip ((w.value.map literalValue).getD next + 1) ws

/-- A kind's signedness. -/
def Kind.isSigned : Kind → Bool
  | .i8 | .i16 | .i32 | .i64 => true
  | _ => false

/-- A value fits a backing integer. -/
def InBacking (k : Kind) (v : Int) : Prop :=
  if k.isSigned then -(256 ^ k.scalarSize / 2 : Int) ≤ v ∧ v < 256 ^ k.scalarSize / 2
  else 0 ≤ v ∧ v < 256 ^ k.scalarSize

/-- A value fits `int64_t`. -/
def InI64 (v : Int) : Prop := -(i64Max + 1 : Int) ≤ v ∧ v ≤ i64Max

/-- Every value fits and the options can be counted in 16 bits. -/
structure Representable (backing : Kind) (ws : List Written) : Prop where
  fits : ∀ v ∈ exactValues 0 ws, InI64 v ∧ InBacking backing v
  count : ws.length ≤ 65535

/-! ## The digit loop -/

theorem decimalFrom_cons (v : Nat) (c : UInt8) (digits : Bytes) :
    decimalFrom v (c :: digits) = decimalFrom (v * 10 + (c.toNat - 48)) digits := by
  unfold decimalFrom
  rw [List.foldl_cons]

theorem le_decimalFrom : ∀ (digits : Bytes) (v : Nat), v ≤ decimalFrom v digits
  | [], _ => Nat.le_refl _
  | c :: digits, v => by
    rw [decimalFrom_cons]
    exact Nat.le_trans (by omega) (le_decimalFrom digits _)

/-- Digits that write no more than the limit are read as they are. -/
theorem valueLoop_exact {lim : Nat} (hlim : lim < 2 ^ 64) : ∀ (digits : Bytes) (v : Nat),
    (∀ c ∈ digits, isDigit c = true) → decimalFrom v digits ≤ lim →
    valueLoop lim v digits = some (decimalFrom v digits, [])
  | [], _, _, _ => rfl
  | c :: digits, v, hd, hle => by
    rw [decimalFrom_cons] at hle ⊢
    have hstep := Nat.le_trans (le_decimalFrom digits (v * 10 + (c.toNat - 48))) hle
    simp only [valueLoop, hd c List.mem_cons_self, if_true]
    rw [Nat.mod_eq_of_lt (by omega), if_neg (by omega)]
    exact valueLoop_exact hlim digits _ (fun d hd' => hd d (List.mem_cons_of_mem _ hd')) hle

/-- The loop reads all the digits there are, and stops before what follows. -/
theorem valueLoop_append {lim : Nat} {rest : Bytes} (hrest : isDigit (rest.headD 0) = false) :
    ∀ (digits : Bytes) (v : Nat), (∀ c ∈ digits, isDigit c = true) →
    valueLoop lim v (digits ++ rest) = (valueLoop lim v digits).map fun x => (x.1, rest)
  | [], v, _ => by
    cases rest with
    | nil => rfl
    | cons c rest =>
      have hc : isDigit c = false := hrest
      simp [valueLoop, hc]
  | c :: digits, v, hd => by
    simp only [List.cons_append, valueLoop, hd c List.mem_cons_self, if_true]
    split
    next => rfl
    next => exact valueLoop_append hrest digits _ fun d hd' => hd d (List.mem_cons_of_mem _ hd')

variable {l : Bool × Bytes}

/-- A literal that does not slip is taken for what it writes. -/
theorem takenLiteral_exact {v : Int} (hd : ∀ c ∈ l.2, isDigit c = true)
    (hslip : ¬ LiteralSlips l) (h : takenLiteral l = some v) : v = literalValue l := by
  have hle : decimalFrom 0 l.2 ≤ literalLimit l.1 := by
    by_contra hc
    exact hslip ⟨by omega, by rw [h]; rfl⟩
  have hlim : literalLimit l.1 < 2 ^ 64 := by
    unfold literalLimit i64Max
    split <;> omega
  unfold takenLiteral at h
  rw [valueLoop_exact hlim l.2 0 hd hle, Option.map_some] at h
  exact (Option.some.inj h).symm

/-- A literal that fits is taken for what it writes. -/
theorem takenLiteral_fits (hd : ∀ c ∈ l.2, isDigit c = true)
    (hfit : InI64 (literalValue l)) : takenLiteral l = some (literalValue l) ∧ ¬ LiteralSlips l := by
  have hle : decimalFrom 0 l.2 ≤ literalLimit l.1 := by
    unfold InI64 literalValue at hfit
    unfold literalLimit
    split at hfit <;> rename_i hneg
    · rw [if_pos hneg]
      omega
    · rw [if_neg hneg]
      omega
  have hlim : literalLimit l.1 < 2 ^ 64 := by
    unfold literalLimit i64Max
    split <;> omega
  constructor
  · unfold takenLiteral
    rw [valueLoop_exact hlim l.2 0 hd hle]
    rfl
  · intro hc
    exact absurd hc.1 (by omega)

/-! ## The values -/

/-- Every literal is made of digits. -/
def DigitsOnly (ws : List Written) : Prop :=
  ∀ w ∈ ws, ∀ l, w.value = some l → ∀ c ∈ l.2, isDigit c = true

variable {k : Kind}

theorem enumValFits_iff (hk : k.backingOk = true) {v : Int} (hv : InI64 v) :
    enumValFits k v = true ↔ InBacking k v := by
  unfold InI64 i64Max at hv
  cases k <;> first
    | exact absurd hk (by decide)
    | (simp only [enumValFits, InBacking, Kind.isSigned, Kind.scalarSize, decide_eq_true_eq]
       simp
       try omega)

theorem i64Succ_of_lt {v : Int} (h : v < i64Max) : i64Succ v = v + 1 := by
  unfold i64Succ
  rw [if_neg (by omega)]

theorem literalValue_in (h : decimalFrom 0 l.2 ≤ literalLimit l.1) :
    InI64 (literalValue l) := by
  unfold InI64 literalValue
  unfold literalLimit at h
  split <;> rename_i hneg
  · rw [if_pos hneg] at h
    omega
  · rw [if_neg hneg] at h
    omega

/-- Without a slip, values that are all taken are the ones written, and all fit. `taken` is what
the parser carries for the next value, the same while there is one in 64 bits. -/
theorem takenValues_exact (hk : k.backingOk = true) : ∀ {ws : List Written}
    {next taken : Int} {vs : List Int}, DigitsOnly ws → -(i64Max + 1 : Int) ≤ next →
    (next ≤ i64Max → taken = next) → NoSlip next ws → takenValues k taken ws = some vs →
    vs = exactValues next ws ∧ ∀ v ∈ vs, InI64 v ∧ InBacking k v
  | [], _, _, vs, _, _, _, _, h => by
    obtain rfl := Option.some.inj h
    exact ⟨rfl, fun v hv => by cases hv⟩
  | w :: ws, next, taken, vs, hd, hlo, hsame, hslip, h => by
    obtain ⟨hlit, hauto, hslip⟩ := hslip
    simp only [takenValues, Option.bind_eq_bind] at h
    obtain ⟨v, hv, h⟩ := Option.bind_eq_some_iff.mp h
    have hvalue : v = (w.value.map literalValue).getD next ∧ InI64 v := by
      cases hw : w.value with
      | none =>
        rw [hw] at hv
        have hle := hauto hw
        obtain rfl : taken = v := Option.some.inj hv
        have := hsame hle
        exact ⟨this, by unfold InI64; omega⟩
      | some l =>
        rw [hw] at hv
        have hdl := hd w List.mem_cons_self l hw
        have heq := takenLiteral_exact hdl (hlit l hw) hv
        refine ⟨heq, ?_⟩
        rw [heq]
        apply literalValue_in
        by_contra hc
        exact hlit l hw ⟨by omega, Option.isSome_iff_exists.mpr ⟨v, hv⟩⟩
    obtain ⟨heq, hin⟩ := hvalue
    by_cases hfit : enumValFits k v = true
    · rw [if_pos hfit] at h
      obtain ⟨rest, hrest, h⟩ := Option.bind_eq_some_iff.mp h
      obtain rfl := Option.some.inj h
      rw [← heq] at hslip
      obtain ⟨htail, hall⟩ := takenValues_exact hk
        (fun w' hw' => hd w' (List.mem_cons_of_mem _ hw')) (by unfold InI64 at hin; omega)
        (fun hle => i64Succ_of_lt (by omega)) hslip hrest
      constructor
      · simp only [exactValues, ← heq, htail]
      · intro u hu
        rcases List.mem_cons.mp hu with rfl | hu
        · exact ⟨hin, (enumValFits_iff hk hin).mp hfit⟩
        · exact hall u hu
    · rw [if_neg hfit] at h
      cases h

/-- Values that all fit are taken as they are written. -/
theorem takenValues_fits (hk : k.backingOk = true) : ∀ {ws : List Written}
    {next taken : Int}, DigitsOnly ws → (next ≤ i64Max → taken = next) →
    (∀ v ∈ exactValues next ws, InI64 v ∧ InBacking k v) →
    takenValues k taken ws = some (exactValues next ws) ∧ NoSlip next ws
  | [], _, _, _, _, _ => ⟨rfl, trivial⟩
  | w :: ws, next, taken, hd, hsame, hall => by
    simp only [exactValues, List.mem_cons, forall_eq_or_imp] at hall
    obtain ⟨⟨hin, hback⟩, hall⟩ := hall
    have hfit := (enumValFits_iff hk hin).mpr hback
    obtain ⟨htail, hslip⟩ := takenValues_fits hk
      (fun w' hw' => hd w' (List.mem_cons_of_mem _ hw'))
      (fun hle => i64Succ_of_lt (by omega)) hall
    have hv : (w.value.map takenLiteral).getD (some taken) =
        some ((w.value.map literalValue).getD next) ∧
        (∀ l, w.value = some l → ¬ LiteralSlips l) ∧ (w.value = none → next ≤ i64Max) := by
      cases hw : w.value with
      | none =>
        rw [hw] at hin
        have hle : next ≤ i64Max := hin.2
        exact ⟨congrArg some (hsame hle), fun _ hc => (by cases hc), fun _ => hle⟩
      | some l =>
        rw [hw] at hin
        obtain ⟨htaken, hno⟩ := takenLiteral_fits (hd w List.mem_cons_self l hw) hin
        exact ⟨htaken, fun l' hc => (by cases hc; exact hno), fun hc => by cases hc⟩
    refine ⟨?_, hv.2.1, hv.2.2, hslip⟩
    simp only [takenValues, Option.bind_eq_bind, hv.1, Option.bind_some, hfit, if_true, htail,
      exactValues]

theorem takenValues_length : ∀ {ws : List Written} {next : Int} {vs : List Int},
    takenValues k next ws = some vs → vs.length = ws.length
  | [], _, _, h => by
    obtain rfl := Option.some.inj h
    rfl
  | w :: ws, next, vs, h => by
    simp only [takenValues, Option.bind_eq_bind] at h
    obtain ⟨v, -, h⟩ := Option.bind_eq_some_iff.mp h
    split at h
    next =>
      obtain ⟨rest, hrest, h⟩ := Option.bind_eq_some_iff.mp h
      obtain rfl := Option.some.inj h
      rw [List.length_cons, List.length_cons, takenValues_length hrest]
    next => cases h

/-! ## What a text read consists of -/

theorem readLiteral_digits {p q : Bytes} (h : readLiteral p = some (l, q)) :
    ∀ c ∈ l.2, isDigit c = true := by
  have hshape : ∀ {neg : Bool} {digits : Bytes}, (if isDigit (digits.headD 0) then
      some ((neg, digits.takeWhile isDigit), digits.dropWhile isDigit) else none) = some (l, q) →
      ∀ c ∈ l.2, isDigit c = true := by
    intro neg digits h
    split at h
    next =>
      simp only [Option.some.injEq, Prod.mk.injEq] at h
      rw [← h.1]
      intro c hc
      exact List.all_eq_true.mp List.all_takeWhile c hc
    next => cases h
  exact hshape h

theorem readOption_fits {p q : Bytes} {w : Written} (h : readOption p = some (w, q)) :
    w.name.length < 256 ∧ ∀ l, w.value = some l → ∀ c ∈ l.2, isDigit c = true := by
  simp only [readOption, Option.bind_eq_bind] at h
  obtain ⟨⟨word, p₁⟩, -, h⟩ := Option.bind_eq_some_iff.mp h
  obtain ⟨name, hname, h⟩ := Option.bind_eq_some_iff.mp h
  have hlen := (typeNormalize_iff.mp hname).2.1
  dsimp only at h
  split at h
  next =>
    obtain ⟨⟨value, p₂⟩, hlit, h⟩ := Option.bind_eq_some_iff.mp h
    simp only [Option.some.injEq, Prod.mk.injEq] at h
    obtain ⟨rfl, -⟩ := h
    refine ⟨hlen, fun l hl => ?_⟩
    obtain rfl := Option.some.inj hl
    exact readLiteral_digits hlit
  next =>
    simp only [Option.some.injEq, Prod.mk.injEq] at h
    obtain ⟨rfl, -⟩ := h
    exact ⟨hlen, fun l hl => by cases hl⟩

theorem readOptions_fits : ∀ {n : Nat} {p q : Bytes} {ws : List Written},
    readOptions n p = some (ws, q) → DigitsOnly ws ∧ ∀ w ∈ ws, w.name.length < 256
  | 0, _, _, _, h => by cases h
  | n + 1, p, q, ws, h => by
    simp only [readOptions, Option.bind_eq_bind] at h
    split at h
    next =>
      simp only [Option.some.injEq, Prod.mk.injEq] at h
      rw [← h.1]
      exact ⟨fun w hw => (by cases hw), fun w hw => (by cases hw)⟩
    next =>
      obtain ⟨⟨w, p₁⟩, hw, h⟩ := Option.bind_eq_some_iff.mp h
      obtain ⟨⟨rest, p₂⟩, hrest, h⟩ := Option.bind_eq_some_iff.mp h
      simp only [Option.some.injEq, Prod.mk.injEq] at h
      rw [← h.1]
      obtain ⟨hlen, hdigits⟩ := readOption_fits hw
      obtain ⟨hds, hlens⟩ := readOptions_fits hrest
      constructor
      · intro w' hw'
        rcases List.mem_cons.mp hw' with rfl | hw'
        · exact hdigits
        · exact hds w' hw'
      · intro w' hw'
        rcases List.mem_cons.mp hw' with rfl | hw'
        · exact hlen
        · exact hlens w' hw'

/-- The backing and the options of an enum read. -/
theorem readEnum_fits {p q : Bytes} {ws : List Written}
    (h : readEnum p = some ((k, ws), q)) :
    k.backingOk = true ∧ DigitsOnly ws ∧ ∀ w ∈ ws, w.name.length < 256 := by
  simp only [readEnum, Option.bind_eq_bind] at h
  obtain ⟨p₁, -, h⟩ := Option.bind_eq_some_iff.mp h
  obtain ⟨⟨word, p₂⟩, -, h⟩ := Option.bind_eq_some_iff.mp h
  obtain ⟨backing, hk, h⟩ := Option.bind_eq_some_iff.mp h
  obtain ⟨p₃, -, h⟩ := Option.bind_eq_some_iff.mp h
  obtain ⟨p₄, -, h⟩ := Option.bind_eq_some_iff.mp h
  obtain ⟨⟨ws', p₅⟩, hws, h⟩ := Option.bind_eq_some_iff.mp h
  simp only [Option.some.injEq, Prod.mk.injEq] at h
  obtain ⟨⟨rfl, rfl⟩, -⟩ := h
  exact ⟨(Option.filter_eq_some_iff.mp hk).2, readOptions_fits hws⟩

end Rant.Serialize
