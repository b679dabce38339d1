import Rant.Serialize.EnumText
import Rant.Serialize.Registry
/-!
# The parser over an enum text

Where memory suffices, the parser's run over a text that reads as an enum: it streams each
option's name and the value it takes for it, counts them in 16 bits, and refuses the text where
it refuses a value (`runs_enum`). `Runs` says where a step from a state ends.

Steps compose by `Runs.bind`, so a rule of the parser is followed as it is written, one lemma for
each. The options are an induction on the list: an option takes its own value or the one after the
last (`takenValue`), and the run stops at the first that is refused.
-/

namespace Rant.Serialize

open Rant.Lib

/-- The writer with more bytes. -/
def Builder.plus (b : Builder) (bs : Bytes) : Builder := { b with buf := b.buf ++ bs }

@[simp] theorem plus_err (b : Builder) (bs : Bytes) : (b.plus bs).err = b.err := rfl
@[simp] theorem plus_buf (b : Builder) (bs : Bytes) : (b.plus bs).buf = b.buf ++ bs := rfl
theorem plus_plus (b : Builder) (x y : Bytes) : (b.plus x).plus y = b.plus (x ++ y) := by
  simp [Builder.plus]
theorem plus_nil (b : Builder) : b.plus [] = b := by
  simp [Builder.plus]

/-- From `s`, `x` returns `a` and leaves the text, the writer and the registry so. -/
def Runs {α : Type} (x : Parser α) (s : Parse) (a : α) (d : Dsl) (b : Builder) (r : Registry) :
    Prop := ∃ n, x s = some (a, ⟨d, b, r, n⟩)

section Rules
variable {α β : Type} {s : Parse} {d : Dsl} {b : Builder} {r : Registry} {n : Nat}

theorem runs_pure (a : α) : Runs (pure a : Parser α) ⟨d, b, r, n⟩ a d b r := ⟨n, rfl⟩

variable {x : Parser α} {a : α}

theorem Runs.bind {f : α → Parser β} {a' : β} {d' : Dsl} {b' : Builder}
    {r' : Registry} (hx : Runs x s a d b r) (hf : ∀ n, Runs (f a) ⟨d, b, r, n⟩ a' d' b' r') :
    Runs (x >>= f) s a' d' b' r' := by
  obtain ⟨n, hn⟩ := hx
  obtain ⟨m, hm⟩ := hf n
  exact ⟨m, Option.bind_eq_some_iff.mpr ⟨(a, ⟨d, b, r, n⟩), hn, hm⟩⟩

theorem runs_get {f : Parse → Parser α} (hf : Runs (f s) s a d b r) :
    Runs (get >>= f) s a d b r := hf

theorem runs_modify {f : Parse → Parse} (h : ∃ n, f s = ⟨d, b, r, n⟩) :
    Runs (modify f) s () d b r := by
  obtain ⟨n, hn⟩ := h
  exact ⟨n, congrArg (fun t => some ((), t)) hn⟩

theorem runs_if_pos {c : Prop} [Decidable c] {y : Parser α} (hc : c)
    (hx : Runs x s a d b r) : Runs (if c then x else y) s a d b r := by
  rw [if_pos hc]
  exact hx

theorem runs_if_neg {c : Prop} [Decidable c] {y : Parser α} (hc : ¬ c)
    (hy : Runs y s a d b r) : Runs (if c then x else y) s a d b r := by
  rw [if_neg hc]
  exact hy

/-- From `s`, `x` returns `a` with a refusal made. -/
def Refuses {α : Type} (x : Parser α) (s : Parse) (a : α) : Prop :=
  wp x (fun a' s' => a' = a ∧ s'.d.err.isSome = true) s

theorem refuses_pure {s : Parse} (h : s.d.err.isSome = true) (a : α) :
    Refuses (pure a : Parser α) s a := wp_pure.mpr ⟨rfl, h⟩

theorem Runs.refuses {f : α → Parser β} {a' : β} (hx : Runs x s a d b r)
    (hf : ∀ n, Refuses (f a) ⟨d, b, r, n⟩ a') : Refuses (x >>= f) s a' := by
  obtain ⟨n, hn⟩ := hx
  unfold Refuses
  rw [wp_bind]
  exact ⟨a, _, hn, hf n⟩

theorem Refuses.bind {f : α → Parser β} {a' : β} (hx : Refuses x s a)
    (hf : ∀ s' : Parse, s'.d.err.isSome = true → Refuses (f a) s' a') : Refuses (x >>= f) s a' := by
  unfold Refuses
  rw [wp_bind]
  refine wp_mono hx ?_
  rintro _ s' ⟨rfl, h⟩
  exact hf s' h

theorem refuses_get {f : Parse → Parser α} (hf : Refuses (f s) s a) :
    Refuses (get >>= f) s a := hf

theorem refuses_if_pos {c : Prop} [Decidable c] {y : Parser α} (hc : c)
    (hx : Refuses x s a) : Refuses (if c then x else y) s a := by
  rw [if_pos hc]
  exact hx

theorem refuses_if_neg {c : Prop} [Decidable c] {y : Parser α} (hc : ¬ c)
    (hy : Refuses y s a) : Refuses (if c then x else y) s a := by
  rw [if_neg hc]
  exact hy

theorem refuses_fail (at_ : Bytes) (why : String) (a : α) :
    Refuses (dslFail at_ why >>= fun _ => pure a) s a := by
  unfold Refuses dslFail
  rw [wp_bind, wp_modify, wp_pure]
  exact ⟨rfl, rfl⟩

/-! ## The text -/

theorem runs_move (p : Bytes) : Runs (dslMove p) ⟨d, b, r, n⟩ () { d with p } b r := ⟨n, rfl⟩

theorem runs_ws : Runs dslWs ⟨d, b, r, n⟩ () { d with p := skipBlank false d.p } b r := ⟨n, rfl⟩

theorem runs_fail (at_ : Bytes) (why : String) : Runs (dslFail at_ why) ⟨d, b, r, n⟩ ()
    { d with err := some (d.err.getD (at_, why)) } b r := ⟨n, rfl⟩

theorem runs_ident {word q : Bytes} (h : readIdent d.p = some (word, q)) :
    Runs dslIdent ⟨d, b, r, n⟩ (some word) { d with p := q } b r := by
  unfold readIdent at h
  by_cases hn : identLen d.p = 0 ∨ 255 < identLen d.p
  · rw [if_pos hn] at h
    exact absurd h.symm (Option.some_ne_none _)
  rw [if_neg hn] at h
  simp only [Option.some.injEq, Prod.mk.injEq] at h
  obtain ⟨rfl, rfl⟩ := h
  rw [not_or] at hn
  unfold dslIdent
  refine runs_get (runs_if_neg hn.1 (runs_if_neg hn.2 ?_))
  exact (runs_move _).bind fun n => runs_pure _

theorem runs_expect {c : UInt8} (h : d.p.headD 0 = c) :
    Runs (dslExpect c) ⟨d, b, r, n⟩ true { d with p := d.p.drop 1 } b r := by
  unfold dslExpect
  exact runs_get (runs_if_pos h ((runs_move _).bind fun n => runs_pure _))

/-- Blanks and then the character. -/
theorem runs_char {c : UInt8} {q : Bytes} (h : readChar c d.p = some q) {f : Bool → Parser α}
    {d' : Dsl} {b' : Builder} {r' : Registry}
    (hf : ∀ n, Runs (f true) ⟨{ d with p := q }, b, r, n⟩ a d' b' r') :
    Runs (dslWs >>= fun _ => dslExpect c >>= f) ⟨d, b, r, n⟩ a d' b' r' := by
  unfold readChar at h
  dsimp only at h
  split at h
  next hc =>
    obtain rfl := Option.some.inj h
    exact runs_ws.bind fun n => (runs_expect hc).bind hf
  next => cases h

theorem refuses_char {c : UInt8} {q : Bytes} (h : readChar c d.p = some q) {f : Bool → Parser α}
    (hf : ∀ n, Refuses (f true) ⟨{ d with p := q }, b, r, n⟩ a) :
    Refuses (dslWs >>= fun _ => dslExpect c >>= f) ⟨d, b, r, n⟩ a := by
  unfold readChar at h
  dsimp only at h
  split at h
  next hc =>
    obtain rfl := Option.some.inj h
    exact runs_ws.refuses fun n => (runs_expect hc).refuses hf
  next => cases h

/-! ## The writer -/

variable {E : Env} (hE : ∀ n, E.room n = true)
include hE

theorem runs_ask : Runs E.ask ⟨d, b, r, n⟩ true d b r := ⟨n + 1, by
  unfold Env.ask
  rw [hE]⟩

theorem runs_put (hb : b.err = 0) (bs : Bytes) :
    Runs (builderPut E bs) ⟨d, b, r, n⟩ () d (b.plus bs) r := by
  unfold builderPut
  refine (runs_ask hE).bind fun n => runs_modify ⟨n, ?_⟩
  simp [Builder.write, Builder.plus, hb]

theorem runs_enumOpen (hb : b.err = 0) (k : Kind) : Runs (enumOpen E k) ⟨d, b, r, n⟩
    (b.buf.length + 2) d (b.plus (byte 17 ++ (byte k.code ++ writeLe 2 0))) r := by
  have hlen : ((b.plus (byte 17)).plus (byte k.code)).buf.length = b.buf.length + 2 := by
    simp
  have hall : b.plus (byte 17 ++ (byte k.code ++ writeLe 2 0)) =
      ((b.plus (byte 17)).plus (byte k.code)).plus (writeLe 2 0) := by
    rw [plus_plus, plus_plus]
  rw [hall, ← hlen]
  unfold enumOpen
  refine (runs_put hE hb _).bind fun n => (runs_put hE (b := b.plus (byte 17)) hb _).bind fun n => ?_
  refine runs_get ((runs_put hE (b := (b.plus _).plus _) hb _).bind fun n => ?_)
  exact runs_pure _

theorem runs_enumAdd (hb : b.err = 0) (k : Kind) (v : Int) {name : Bytes} (hn : name.length < 256) :
    Runs (enumAdd E k v name) ⟨d, b, r, n⟩ () d
      (b.plus (writeLe k.scalarSize (v % 2 ^ 64).toNat ++ (UInt8.ofNat name.length :: name))) r := by
  rw [← plus_plus]
  unfold enumAdd
  refine runs_get (runs_if_neg (fun hc => hc hb) (runs_if_neg (by omega) ?_))
  exact (runs_put hE hb _).bind fun n => runs_put hE (b := b.plus _) hb _

end Rules

/-! ## The options -/

/-- The bits of a value in so many bytes. -/
def bitsOf (size : Nat) (v : Int) : Nat := (v % 256 ^ size).toNat

/-- An option as the wire holds it. -/
def wireOption (k : Kind) (w : Written) (v : Int) : Nat × Bytes := (bitsOf k.scalarSize v, w.name)

theorem writeLe_mod : ∀ (n v : Nat), writeLe n (v % 256 ^ n) = writeLe n v
  | 0, _ => rfl
  | n + 1, v => by
    have hlow : v % 256 ^ (n + 1) % 256 = v % 256 := by
      rw [Nat.pow_succ, Nat.mul_comm]
      exact Nat.mod_mul_right_mod v 256 (256 ^ n)
    have hhigh : v % 256 ^ (n + 1) / 256 = v / 256 % 256 ^ n := by
      rw [Nat.pow_succ, Nat.mul_comm]
      exact Nat.mod_mul_right_div_self v 256 (256 ^ n)
    simp only [writeLe, hlow, hhigh, writeLe_mod n]

/-- What the writer puts down for an option is its wire. -/
theorem encodeOption_taken (k : Kind) (w : Written) (v : Int) :
    writeLe k.scalarSize (v % 2 ^ 64).toNat ++ (UInt8.ofNat w.name.length :: w.name) =
      encodeOption k.scalarSize (wireOption k w v) := by
  have hdvd : (256 ^ k.scalarSize : Int) ∣ 2 ^ 64 := by
    cases k <;> decide
  have hpos : (0 : Int) < 256 ^ k.scalarSize := by
    cases k <;> decide
  have hbits : (v % 2 ^ 64).toNat % 256 ^ k.scalarSize = bitsOf k.scalarSize v := by
    unfold bitsOf
    rw [← Int.emod_emod_of_dvd v hdvd]
    have h0 : 0 ≤ v % 2 ^ 64 := Int.emod_nonneg v (by decide)
    have h1 : 0 ≤ v % 2 ^ 64 % 256 ^ k.scalarSize := Int.emod_nonneg _ (Int.ne_of_gt hpos)
    apply Int.ofNat.inj
    simp only [Int.ofNat_eq_natCast, Int.natCast_emod, Int.toNat_of_nonneg h0, Int.toNat_of_nonneg h1]
    simp
  have hlen : byte w.name.length = [UInt8.ofNat w.name.length] := by
    simp only [byte, writeLe, List.cons.injEq, and_true]
    apply UInt8.toNat_inj.mp
    simp
  rw [← writeLe_mod, hbits, encodeOption, wireOption, hlen, List.singleton_append]

theorem length_encodeOption (bs : Nat) (o : Nat × Bytes) :
    (encodeOption bs o).length = bs + 1 + o.2.length := by
  simp [encodeOption, Nat.add_assoc]

/-- A name none of the first options bears is not taken. -/
theorem optionTaken_fresh {buf : Bytes} {bs : Nat} {name : Bytes} : ∀ (opts : List (Nat × Bytes))
    (n pos : Nat), n ≤ opts.length → (∀ o ∈ opts, o.2.length < 256 ∧ o.2 ≠ name) →
    At buf pos (opts.flatMap (encodeOption bs)) → optionTaken buf bs name n pos = false
  | _, 0, _, _, _, _ => rfl
  | [], n + 1, _, hn, _, _ => absurd hn (Nat.not_succ_le_zero n)
  | o :: opts, n + 1, pos, hn, hall, hat => by
    obtain ⟨hlen, hne⟩ := hall o List.mem_cons_self
    rw [List.flatMap_cons, at_append, length_encodeOption] at hat
    obtain ⟨ho, hrest⟩ := hat
    rw [encodeOption, at_append, at_append, length_writeLe, length_writeLe] at ho
    obtain ⟨-, hl, hname⟩ := ho
    have hbyte : (buf.getD (pos + bs) 0).toNat = o.2.length := by
      have hget := hl.get (i := 0) (by simp)
      rw [Nat.add_zero] at hget
      rw [List.getD_eq_getElem?_getD, hget]
      simp [byte, writeLe]
      omega
    rw [optionTaken]
    simp only [hbyte, nameAt_eq hname]
    rw [if_neg fun hc => hne hc.2]
    have ih := optionTaken_fresh opts n _ (Nat.le_of_succ_le_succ hn)
      (fun o' ho' => hall o' (List.mem_cons_of_mem _ ho')) hrest
    rw [show pos + bs + 1 + o.2.length = pos + (bs + 1 + o.2.length) by omega]
    exact ih

/-- The digit loop over a literal and what follows it. -/
theorem enumValue_literal {p q : Bytes} {l : Bool × Bytes} (h : readLiteral p = some (l, q)) :
    enumValue p = (takenLiteral l).map fun v => (v, q) := by
  have hshape : ∀ (neg : Bool) (digits : Bytes), (if isDigit (digits.headD 0) then
      some ((neg, digits.takeWhile isDigit), digits.dropWhile isDigit) else none) = some (l, q) →
      (if isDigit (digits.headD 0) then
        (valueLoop (if neg then i64Max + 1 else i64Max) 0 digits).map fun x =>
          (if neg then -(x.1 : Int) else (x.1 : Int), x.2)
      else none) = (takenLiteral l).map fun v => (v, q) := by
    intro neg digits h
    by_cases hd : isDigit (digits.headD 0) = true
    · rw [if_pos hd] at h ⊢
      simp only [Option.some.injEq, Prod.mk.injEq] at h
      obtain ⟨rfl, rfl⟩ := h
      have hstop : isDigit ((digits.dropWhile isDigit).headD 0) = false := by
        cases hdrop : digits.dropWhile isDigit with
        | nil => rfl
        | cons c rest =>
          have := List.head?_dropWhile_not isDigit digits
          rw [hdrop] at this
          simpa using this
      have happ := @valueLoop_append (if neg then i64Max + 1 else i64Max) _ hstop
        (digits.takeWhile isDigit) 0 (List.all_eq_true.mp List.all_takeWhile)
      rw [List.takeWhile_append_dropWhile] at happ
      rw [happ]
      unfold takenLiteral literalLimit
      simp only [Option.map_map]
      rfl
    · rw [if_neg hd] at h
      cases h
  exact hshape _ _ h

section Options
variable {d : Dsl} {b : Builder} {r : Registry} {n : Nat} {k : Kind}

/-- The value an option is taken for, `next` the one without a value. -/
def takenValue (next : Int) (w : Written) : Option Int :=
  (w.value.map takenLiteral).getD (some next)

/-- The text past an option's name: its value and its separator. -/
def readValue (p : Bytes) : Option (Option (Bool × Bytes) × Bytes) :=
  if p.headD 0 = 61 then
    (readLiteral (skipBlank false (p.drop 1))).map fun x => (some x.1, x.2)
  else some (none, p)

theorem runs_optionValue {l : Option (Bool × Bytes)} {q : Bytes} {next : Int}
    (h : readValue d.p = some (l, q)) :
    (∀ v, (l.map takenLiteral).getD (some next) = some v →
      Runs (dslOptionValue next) ⟨d, b, r, n⟩ (some v) { d with p := q } b r) ∧
    ((l.map takenLiteral).getD (some next) = none →
      Refuses (dslOptionValue next) ⟨d, b, r, n⟩ none) := by
  unfold readValue at h
  unfold dslOptionValue
  by_cases h61 : d.p.headD 0 = 61
  · rw [if_pos h61] at h
    obtain ⟨⟨lit, q'⟩, hlit, heq⟩ := Option.map_eq_some_iff.mp h
    simp only [Prod.mk.injEq] at heq
    obtain ⟨rfl, rfl⟩ := heq
    have hvalue := enumValue_literal hlit
    constructor
    · intro v hv
      have htaken : takenLiteral lit = some v := hv
      rw [htaken] at hvalue
      refine runs_get (runs_if_pos h61 ((runs_move _).bind fun n => runs_ws.bind fun n => ?_))
      refine runs_get ?_
      dsimp only
      rw [hvalue]
      exact (runs_move _).bind fun n => runs_pure _
    · intro hv
      have htaken : takenLiteral lit = none := hv
      rw [htaken] at hvalue
      refine refuses_get (refuses_if_pos h61 ((runs_move _).refuses fun n => runs_ws.refuses fun n => ?_))
      refine refuses_get ?_
      dsimp only
      rw [hvalue]
      exact refuses_fail _ _ _
  · rw [if_neg h61] at h
    simp only [Option.some.injEq, Prod.mk.injEq] at h
    obtain ⟨rfl, rfl⟩ := h
    constructor
    · intro v hv
      obtain rfl : next = v := Option.some.inj hv
      exact runs_get (runs_if_neg h61 (runs_pure _))
    · intro hv
      cases hv

/-- The read of an option, in the order the parser makes it. -/
theorem readOption_some {p q : Bytes} {w : Written} (h : readOption p = some (w, q)) :
    ∃ word p₁ p₂, readIdent p = some (word, p₁) ∧ typeNormalize word 256 = some w.name ∧
      readValue (skipBlank false p₁) = some (w.value, p₂) ∧ q = pastComma p₂ := by
  simp only [readOption, Option.bind_eq_bind] at h
  obtain ⟨⟨word, p₁⟩, hid, h⟩ := Option.bind_eq_some_iff.mp h
  obtain ⟨name, hname, h⟩ := Option.bind_eq_some_iff.mp h
  refine ⟨word, p₁, ?_⟩
  unfold readValue
  dsimp only at h
  split at h
  next h61 =>
    obtain ⟨⟨value, p₂⟩, hlit, h⟩ := Option.bind_eq_some_iff.mp h
    simp only [Option.some.injEq, Prod.mk.injEq] at h
    obtain ⟨rfl, rfl⟩ := h
    exact ⟨p₂, hid, hname, by rw [if_pos h61, hlit]; rfl, rfl⟩
  next h61 =>
    simp only [Option.some.injEq, Prod.mk.injEq] at h
    obtain ⟨rfl, rfl⟩ := h
    exact ⟨_, hid, hname, by rw [if_neg h61], rfl⟩

variable {E : Env} (hE : ∀ n, E.room n = true)
include hE

/-- An option whose value is taken is streamed, and one whose value is not is refused. -/
theorem runs_option {w : Written} {q : Bytes} {countPos count : Nat} {next : Int}
    (hread : readOption d.p = some (w, q)) (hb : b.err = 0)
    (hfresh : optionTaken b.buf k.scalarSize w.name count (countPos + 2) = false) :
    (∀ v, takenValue next w = some v → enumValFits k v = true →
      Runs (dslOption E k countPos count next) ⟨d, b, r, n⟩ (some (i64Succ v)) { d with p := q }
        (b.plus (encodeOption k.scalarSize (wireOption k w v))) r) ∧
    ((∀ v, takenValue next w = some v → enumValFits k v = false) →
      Refuses (dslOption E k countPos count next) ⟨d, b, r, n⟩ none) := by
  obtain ⟨word, p₁, p₂, hid, hname, hval, rfl⟩ := readOption_some hread
  have hlen := (typeNormalize_iff.mp hname).2.1
  have hnt : ¬ (b.err = 0 ∧ optionTaken b.buf k.scalarSize w.name count (countPos + 2) = true) := by
    rw [hfresh]
    exact fun hc => Bool.noConfusion hc.2
  unfold dslOption
  constructor
  · intro v hv hfit
    refine runs_get ((runs_ident hid).bind fun n => ?_)
    dsimp only
    rw [hname]
    refine runs_get (runs_if_neg hnt (runs_ws.bind fun n => ?_))
    refine ((runs_optionValue hval).1 v hv).bind fun n => ?_
    refine runs_if_neg (by simp [hfit]) ?_
    rw [← encodeOption_taken]
    refine (runs_enumAdd hE hb k v hlen).bind fun n => runs_ws.bind fun n => runs_get ?_
    unfold pastComma
    dsimp only
    by_cases h44 : (skipBlank false p₂).headD 0 = 44
    · rw [if_pos h44, if_pos h44]
      exact (runs_move _).bind fun n => runs_pure _
    · rw [if_neg h44, if_neg h44]
      exact runs_pure _
  · intro hno
    refine refuses_get ((runs_ident hid).refuses fun n => ?_)
    dsimp only
    rw [hname]
    refine refuses_get (refuses_if_neg hnt (runs_ws.refuses fun n => ?_))
    cases hv : takenValue next w with
    | none =>
      refine ((runs_optionValue hval).2 hv).bind fun s' hs' => ?_
      exact refuses_pure hs' none
    | some v =>
      refine ((runs_optionValue hval).1 v hv).refuses fun n => ?_
      exact refuses_if_pos (hno v hv) (refuses_get (refuses_fail _ _ _))

omit hE in
/-- A name does not stand at the end of the text, nor at a brace. -/
theorem readIdent_head {p q word : Bytes} (h : readIdent p = some (word, q)) :
    p.headD 0 ≠ 0 ∧ p.headD 0 ≠ 125 ∧ p.headD 0 ≠ 123 := by
  have hne : identLen p ≠ 0 := by
    intro hc
    unfold readIdent at h
    rw [if_pos (Or.inl hc)] at h
    cases h
  refine ⟨?_, ?_, ?_⟩ <;>
  · intro hc
    unfold identLen at hne
    rw [hc] at hne
    exact hne rfl

/-- The options as the wire holds them. -/
def wireOptions (k : Kind) (ws : List Written) (vs : List Int) : List (Nat × Bytes) :=
  List.zipWith (wireOption k) ws vs

/-- The options already streamed are behind `front`, and no name repeats. -/
structure Streamed (b : Builder) (k : Kind) (countPos : Nat) (done : List (Nat × Bytes))
    (ws : List Written) : Prop where
  front : ∃ front, b.buf = front ++ done.flatMap (encodeOption k.scalarSize) ∧
    front.length = countPos + 2
  short : ∀ o ∈ done, o.2.length < 256
  fresh : ∀ o ∈ done, ∀ w ∈ ws, o.2 ≠ w.name
  nodup : (ws.map Written.name).Nodup

omit hE in
theorem Streamed.not_taken {countPos count : Nat} {done : List (Nat × Bytes)} {w : Written}
    {ws : List Written} (h : Streamed b k countPos done (w :: ws)) (hc : count ≤ done.length) :
    optionTaken b.buf k.scalarSize w.name count (countPos + 2) = false := by
  obtain ⟨front, hbuf, hlen⟩ := h.front
  refine optionTaken_fresh done count _ hc
    (fun o ho => ⟨h.short o ho, h.fresh o ho w List.mem_cons_self⟩) ?_
  rw [hbuf, ← hlen]
  refine ⟨by simp, ?_⟩
  simp only [List.drop_left, List.prefix_rfl]

omit hE in
theorem Streamed.next {countPos : Nat} {done : List (Nat × Bytes)} {w : Written}
    {ws : List Written} (h : Streamed b k countPos done (w :: ws)) (hw : w.name.length < 256)
    (v : Int) : Streamed (b.plus (encodeOption k.scalarSize (wireOption k w v))) k countPos
      (done ++ [wireOption k w v]) ws := by
  obtain ⟨front, hbuf, hlen⟩ := h.front
  have hnodup := h.nodup
  rw [List.map_cons, List.nodup_cons] at hnodup
  refine ⟨⟨front, ?_, hlen⟩, ?_, ?_, hnodup.2⟩
  · rw [plus_buf, hbuf, List.flatMap_append, List.append_assoc]
    simp
  · intro o ho
    rcases List.mem_append.mp ho with ho | ho
    · exact h.short o ho
    · rw [List.mem_singleton.mp ho]
      exact hw
  · intro o ho w' hw'
    rcases List.mem_append.mp ho with ho | ho
    · exact h.fresh o ho w' (List.mem_cons_of_mem _ hw')
    · rw [List.mem_singleton.mp ho]
      intro hc
      have hname : w.name = w'.name := hc
      exact hnodup.1 (hname ▸ List.mem_map_of_mem hw')

/-- The loop over the options. -/
theorem runs_options : ∀ (fuel : Nat) {ws : List Written} {d : Dsl} {b : Builder} {q : Bytes}
    {countPos : Nat} {done : List (Nat × Bytes)} {next : Int},
    readOptions fuel d.p = some (ws, q) → d.err = none → b.err = 0 →
    Streamed b k countPos done ws →
    (∀ vs, takenValues k next ws = some vs → ∃ p', p'.headD 0 = 125 ∧ p'.drop 1 = q ∧ ∀ n,
      Runs (dslOptions E k countPos fuel (done.length % 65536) next) ⟨d, b, r, n⟩
        (some ((done.length + ws.length) % 65536)) { d with p := p' }
        (b.plus ((wireOptions k ws vs).flatMap (encodeOption k.scalarSize))) r) ∧
    (takenValues k next ws = none → ∀ n,
      Refuses (dslOptions E k countPos fuel (done.length % 65536) next) ⟨d, b, r, n⟩ none)
  | 0, _, _, _, _, _, _, _, h, _, _, _ => by cases h
  | fuel + 1, ws, d, b, q, countPos, done, next, h, herr, hb, hst => by
    rw [readOptions] at h
    dsimp only at h
    by_cases h125 : (skipBlank false d.p).headD 0 = 125
    · rw [if_pos h125] at h
      simp only [Option.some.injEq, Prod.mk.injEq] at h
      obtain ⟨rfl, hq⟩ := h
      constructor
      · intro vs hvs
        obtain rfl := Option.some.inj hvs
        refine ⟨_, h125, hq, fun n => ?_⟩
        rw [wireOptions, List.zipWith_nil_left, List.flatMap_nil, plus_nil, List.length_nil,
          Nat.add_zero, dslOptions]
        exact runs_ws.bind fun n => runs_get (runs_if_pos (Or.inl h125) (runs_pure _))
      · intro hc
        cases hc
    · rw [if_neg h125] at h
      simp only [Option.bind_eq_bind] at h
      obtain ⟨⟨w, p₁⟩, hw, h⟩ := Option.bind_eq_some_iff.mp h
      obtain ⟨⟨ws', p₂⟩, hws, h⟩ := Option.bind_eq_some_iff.mp h
      simp only [Option.some.injEq, Prod.mk.injEq] at h
      obtain ⟨rfl, rfl⟩ := h
      obtain ⟨word, p₀, -, hid, hname, -, -⟩ := readOption_some hw
      have hgo : ¬ ((skipBlank false d.p).headD 0 = 125 ∨ (skipBlank false d.p).headD 0 = 0 ∨
          d.err.isSome = true ∨ b.err ≠ 0) := by
        obtain ⟨h0, h1, -⟩ := readIdent_head hid
        rw [herr]
        rintro (hc | hc | hc | hc)
        · exact h1 hc
        · exact h0 hc
        · cases hc
        · exact hc hb
      have hlen := (typeNormalize_iff.mp hname).2.1
      have hfresh := hst.not_taken (Nat.mod_le done.length 65536)
      have hopt := fun m => @runs_option { d with p := skipBlank false d.p } b r m k E hE w p₁
        countPos (done.length % 65536) next hw hb hfresh
      -- the loop goes on from the option streamed
      have hrest := fun v => @runs_options fuel ws' { d with p := p₁ }
        (b.plus (encodeOption k.scalarSize (wireOption k w v))) p₂ countPos
        (done ++ [wireOption k w v]) (i64Succ v) hws herr hb (hst.next hlen v)
      have hcount : ∀ v, (done.length % 65536 + 1) % 65536 =
          (done ++ [wireOption k w v]).length % 65536 := by
        intro v
        rw [List.length_append, List.length_singleton, Nat.mod_add_mod]
      rw [dslOptions]
      constructor
      · intro vs hvs
        simp only [takenValues, Option.bind_eq_bind] at hvs
        obtain ⟨v, hv, hvs⟩ := Option.bind_eq_some_iff.mp hvs
        by_cases hfit : enumValFits k v = true
        · rw [if_pos hfit] at hvs
          obtain ⟨vs', hvs', hvs⟩ := Option.bind_eq_some_iff.mp hvs
          obtain rfl := Option.some.inj hvs
          obtain ⟨p', hp', hq, hrun⟩ := (hrest v).1 vs' hvs'
          refine ⟨p', hp', hq, fun n => runs_ws.bind fun m => runs_get (runs_if_neg hgo ?_)⟩
          refine ((hopt m).1 v hv hfit).bind fun m => ?_
          have hrun := hrun m
          rw [plus_plus, ← hcount v, List.length_append, List.length_singleton, Nat.add_assoc,
            Nat.add_comm 1] at hrun
          exact hrun
        · rw [if_neg hfit] at hvs
          cases hvs
      · intro hnone n
        simp only [takenValues, Option.bind_eq_bind] at hnone
        refine runs_ws.refuses fun m => refuses_get (refuses_if_neg hgo ?_)
        by_cases hok : ∃ v, takenValue next w = some v ∧ enumValFits k v = true
        · obtain ⟨v, hv, hfit⟩ := hok
          refine ((hopt m).1 v hv hfit).refuses fun m => ?_
          dsimp only
          rw [hcount v]
          refine (hrest v).2 ?_ m
          unfold takenValue at hv
          rw [hv, Option.bind_some, if_pos hfit] at hnone
          cases htail : takenValues k (i64Succ v) ws' with
          | none => rfl
          | some vs' =>
            rw [htail] at hnone
            cases hnone
        · refine ((hopt m).2 fun v hv => ?_).bind fun s' hs' => refuses_pure hs' none
          by_contra hc
          exact hok ⟨v, hv, by simpa using hc⟩

omit hE in
theorem writeAt_mid {a x y c : Bytes} (h : y.length = x.length) :
    Fragment.writeAt (a ++ (x ++ c)) a.length y = a ++ (y ++ c) := by
  unfold Fragment.writeAt
  rw [List.take_left, h, ← List.append_assoc a x c, ← List.length_append, List.drop_left,
    List.append_assoc]

omit hE in
/-- The bytes of the head, the options and the count put in its place are the enum's wire. -/
theorem enumFinish_plus (hb : b.err = 0) (opts : List (Nat × Bytes)) (count : Nat)
    (hc : count = opts.length % 65536) :
    ((b.plus (byte 17 ++ (byte k.code ++ writeLe 2 0))).plus
      (opts.flatMap (encodeOption k.scalarSize))).enumFinish (b.buf.length + 2) count =
      b.plus (Ty.enum k opts).encode := by
  have hcount : writeLe 2 count = writeLe 2 opts.length := by
    rw [hc]
    exact writeLe_mod 2 opts.length
  rw [plus_plus, Ty.encode, Builder.enumFinish, if_neg (fun h => h hb), Builder.plus, Builder.plus]
  simp only [hcount]
  have hlen : (b.buf ++ (byte 17 ++ byte k.code)).length = b.buf.length + 2 := by simp
  have hmid := @writeAt_mid (b.buf ++ (byte 17 ++ byte k.code)) (writeLe 2 0) (writeLe 2 opts.length)
    (opts.flatMap (encodeOption k.scalarSize)) (by simp)
  rw [hlen] at hmid
  simp only [List.append_assoc] at hmid ⊢
  rw [hmid]

/-- The enum a text reads as is streamed with the values taken, or refused where one is not. -/
theorem runs_enum {ws : List Written} {q : Bytes} (hread : readEnum d.p = some ((k, ws), q))
    (herr : d.err = none) (hb : b.err = 0) (hnodup : (ws.map Written.name).Nodup) :
    (∀ vs, takenValues k 0 ws = some vs → ∀ n, Runs (dslEnum E) ⟨d, b, r, n⟩ () { d with p := q }
      (b.plus (Ty.enum k (wireOptions k ws vs)).encode) r) ∧
    (takenValues k 0 ws = none → ∀ n, Refuses (dslEnum E) ⟨d, b, r, n⟩ ()) := by
  simp only [readEnum, Option.bind_eq_bind] at hread
  obtain ⟨p₁, h₁, hread⟩ := Option.bind_eq_some_iff.mp hread
  obtain ⟨⟨word, p₂⟩, h₂, hread⟩ := Option.bind_eq_some_iff.mp hread
  obtain ⟨backing, hk, hread⟩ := Option.bind_eq_some_iff.mp hread
  obtain ⟨p₃, h₃, hread⟩ := Option.bind_eq_some_iff.mp hread
  obtain ⟨p₄, h₄, hread⟩ := Option.bind_eq_some_iff.mp hread
  obtain ⟨⟨ws', p₅⟩, h₅, hread⟩ := Option.bind_eq_some_iff.mp hread
  simp only [Option.some.injEq, Prod.mk.injEq] at hread
  obtain ⟨⟨rfl, rfl⟩, rfl⟩ := hread
  have hst : Streamed (b.plus (byte 17 ++ (byte backing.code ++ writeLe 2 0))) backing
      (b.buf.length + 2) [] ws' :=
    ⟨⟨b.buf ++ (byte 17 ++ (byte backing.code ++ writeLe 2 0)), by simp, by simp⟩,
      fun o ho => (by cases ho), fun o ho => (by cases ho), hnodup⟩
  have hloop := @runs_options r backing E hE (p₄.length + 1) ws' { d with p := p₄ }
    (b.plus (byte 17 ++ (byte backing.code ++ writeLe 2 0))) p₅ (b.buf.length + 2) [] 0 h₅ herr hb
    hst
  have hword : ∀ n, Runs dslIdent ⟨{ d with p := skipBlank false p₁ }, b, r, n⟩ (some word)
      { d with p := p₂ } b r := fun n => @runs_ident { d with p := skipBlank false p₁ } b r n word p₂ h₂
  unfold dslEnum
  constructor
  · intro vs hvs n
    obtain ⟨p', hp', hq, hrun⟩ := hloop.1 vs hvs
    refine runs_char h₁ fun n => runs_ws.bind fun n => (hword n).bind fun n => ?_
    dsimp only
    rw [hk]
    refine runs_char h₃ fun n => runs_char h₄ fun n => (runs_enumOpen hE hb backing).bind fun n => ?_
    refine runs_get ((hrun n).bind fun n => ?_)
    dsimp only
    refine (runs_expect hp').bind fun n => runs_if_pos rfl (runs_modify ⟨n, ?_⟩)
    dsimp only
    rw [hq, enumFinish_plus hb _ _ ?_]
    have hlen := takenValues_length hvs
    rw [wireOptions, List.length_zipWith, hlen, Nat.min_self, List.length_nil, Nat.zero_add]
  · intro hnone n
    refine refuses_char h₁ fun n => runs_ws.refuses fun n => (hword n).refuses fun n => ?_
    dsimp only
    rw [hk]
    refine refuses_char h₃ fun n => refuses_char h₄ fun n =>
      (runs_enumOpen hE hb backing).refuses fun n => ?_
    refine refuses_get ((hloop.2 hnone n).bind fun s' hs' => ?_)
    dsimp only
    exact refuses_pure hs' ()

end Options

end Rant.Serialize
