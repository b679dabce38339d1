import Rant.Serialize.EnumSchema
import Rant.Serialize.Atomic
/-!
# The compile of an enum text

From the text of one enum to its schema: the statement loop finds the definition, the type it
streams is checked and defined, and the definition just made is the root. What the compile
gives is the parse of that wire, its type cut to a length of 32 bits (`compile_enum_text`).
-/

namespace Rant.Serialize

open Rant.Lib

/-! ## Blanks -/

/-- Past the blanks there are none. -/
theorem skipBlank_idem : ∀ (comment : Bool) (p : Bytes),
    skipBlank false (skipBlank comment p) = skipBlank comment p
  | true, [] => rfl
  | false, [] => rfl
  | true, c :: p => by
    rw [skipBlank]
    by_cases h0 : c = 0
    · rw [if_pos h0, h0]
      rfl
    rw [if_neg h0]
    by_cases h10 : c = 10
    · rw [if_pos h10]
      exact skipBlank_idem false p
    · rw [if_neg h10]
      exact skipBlank_idem true p
  | false, c :: p => by
    rw [skipBlank]
    by_cases hb : c = 32 ∨ c = 9 ∨ c = 13 ∨ c = 10
    · rw [if_pos hb]
      exact skipBlank_idem false p
    rw [if_neg hb]
    by_cases hc : c = 45 ∧ p.headD 0 = 45
    · rw [if_pos hc]
      exact skipBlank_idem true p
    · rw [if_neg hc, skipBlank, if_neg hb, if_neg hc]

/-- A schema's wire of a name and a type. -/
def wireOf (name type : Bytes) : Bytes := byte wireVersion ++ (byte name.length ++ (name ++ type))

/-! ## Steps of the parser -/

section Rules
variable {α β : Type} {s : Parse} {d d' : Dsl} {b b' : Builder} {r r' : Registry} {n : Nat}

/-- From `s`, `x` ends with a refusal made. -/
def Fails {α : Type} (x : Parser α) (s : Parse) : Prop :=
  wp x (fun _ s' => s'.d.err.isSome = true) s

variable {x : Parser α}

theorem Refuses.fails {a : α} (h : Refuses x s a) : Fails x s :=
  wp_mono h fun _ _ hx => hx.2

theorem Fails.bind {f : α → Parser β} (hx : Fails x s)
    (hf : ∀ a (s' : Parse), s'.d.err.isSome = true → Fails (f a) s') : Fails (x >>= f) s := by
  unfold Fails
  rw [wp_bind]
  exact wp_mono hx hf

theorem Fails.refuses {f : α → Parser β} {a : β} (hx : Fails x s)
    (hf : ∀ a' (s' : Parse), s'.d.err.isSome = true → Refuses (f a') s' a) :
    Refuses (x >>= f) s a := by
  unfold Refuses
  rw [wp_bind]
  exact wp_mono hx hf

theorem Runs.fails {f : α → Parser β} {a : α} (hx : Runs x s a d b r)
    (hf : ∀ n, Fails (f a) ⟨d, b, r, n⟩) : Fails (x >>= f) s := by
  obtain ⟨n, hn⟩ := hx
  unfold Fails
  rw [wp_bind]
  exact ⟨a, _, hn, hf n⟩

theorem fails_get {f : Parse → Parser α} (hf : Fails (f s) s) : Fails (get >>= f) s := hf

theorem fails_pure (h : s.d.err.isSome = true) (a : α) : Fails (pure a : Parser α) s :=
  wp_pure.mpr h

theorem fails_if_neg {c : Prop} [Decidable c] {y : Parser α} (hc : ¬ c) (hy : Fails y s) :
    Fails (if c then x else y) s := by
  rw [if_neg hc]
  exact hy

/-- Once refused, nothing else is. -/
theorem not_clean (h : s.d.err.isSome = true) {P : Prop} : ¬ (s.d.err.isNone = true ∧ P) := by
  intro hc
  rw [Option.isNone_iff_eq_none.mp hc.1] at h
  cases h

variable {E : Env} (hE : ∀ n, E.room n = true)
include hE

theorem runs_builderBegin : Runs (builderBegin E) ⟨d, b, r, n⟩ {} d b r :=
  (runs_ask hE).bind fun _ => runs_pure _

theorem runs_withBuilder {a : α} (hx : ∀ n, Runs x ⟨d, {}, r, n⟩ a d' b' r') :
    Runs (withBuilder E x) ⟨d, b, r, n⟩ (a, b') d' b r' := by
  unfold withBuilder
  refine runs_get ((runs_builderBegin hE).bind fun n => ?_)
  refine (runs_modify ⟨n, rfl⟩).bind fun n => (hx n).bind fun n => runs_get ?_
  exact (runs_modify ⟨n, rfl⟩).bind fun n => runs_pure _

theorem fails_withBuilder (hx : ∀ n, Fails x ⟨d, {}, r, n⟩) :
    Fails (withBuilder E x) ⟨d, b, r, n⟩ := by
  unfold withBuilder
  refine fails_get ((runs_builderBegin hE).fails fun n => ?_)
  refine (runs_modify ⟨n, rfl⟩).fails fun n => (hx n).bind fun a s' hs' => fails_get ?_
  unfold Fails
  rw [wp_bind, wp_modify, wp_pure]
  exact hs'

theorem runs_wireAround (name type : Bytes) : Runs (wireAround E name type) ⟨d, b, r, n⟩
    (some (wireOf name type)) d b r :=
  (runs_ask hE).bind fun _ => runs_pure _

end Rules

/-! ## The type -/

section Body
variable {d : Dsl} {b : Builder} {r : Registry} {E : Env} {ref : Bytes → Parser (Option (Nat × Nat))}

/-- Where no array follows, no suffix is read. -/
theorem runs_suffixes {head : Nat} {at_ : Bytes} {m n : Nat} (hend : (skipBlank false d.p).headD 0 = 0) :
    Runs (suffixes E head at_ (m + 1)) ⟨d, b, r, n⟩ () { d with p := skipBlank false d.p } b r := by
  have hnone : Runs dslSuffix ⟨d, b, r, n⟩ none { d with p := skipBlank false d.p } b r := by
    unfold dslSuffix
    refine runs_ws.bind fun n => runs_get (runs_if_pos ?_ (runs_pure _))
    dsimp only
    rw [hend]
    decide
  rw [suffixes]
  exact hnone.bind fun n => runs_pure _

theorem enum_encode_ne (k : Kind) (opts : List (Nat × Bytes)) : (Ty.enum k opts).encode ≠ [] := by
  rw [Ty.encode]
  exact List.cons_ne_nil _ _

theorem enum_encode_head (k : Kind) (opts : List (Nat × Bytes)) {c : UInt8} (hc : 17 ≠ c) :
    (Ty.enum k opts).encode.head? ≠ some c := fun h => hc (Option.some.inj h)

theorem wordType_enum (at_ : Bytes) :
    wordType E ref [101, 110, 117, 109] at_ true = dslEnum E := by
  unfold wordType
  rw [if_neg (by decide), if_pos rfl, if_neg (by decide)]

variable (hE : ∀ n, E.room n = true)
include hE

/-- The body of an enum definition, from the word `enum` to the end of the text. -/
theorem runs_enumBody {p p' q : Bytes} {k : Kind} {ws : List Written} {m : Nat}
    (hword : readIdent (skipBlank false p) = some ([101, 110, 117, 109], p'))
    (henum : readEnum p' = some ((k, ws), q)) (hend : (skipBlank false q).headD 0 = 0)
    (hnodup : (ws.map Written.name).Nodup) :
    (∀ vs, takenValues k 0 ws = some vs → ∀ n, Runs (fieldType E ref (m + 1) [])
      ⟨{ p, body := true }, {}, r, n⟩ () { p := skipBlank false q }
      { buf := (Ty.enum k (wireOptions k ws vs)).encode } r) ∧
    (takenValues k 0 ws = none → ∀ n,
      Fails (fieldType E ref (m + 1) []) ⟨{ p, body := true }, {}, r, n⟩) := by
  have hrun := @runs_enum { p := p' } {} r k E hE ws q henum rfl rfl hnodup
  have hhead := readIdent_head hword
  have hident : ∀ n, Runs dslIdent ⟨{ p := skipBlank false p }, {}, r, n⟩
      (some [101, 110, 117, 109]) { p := p' } {} r := fun n =>
    @runs_ident { p := skipBlank false p } {} r n _ p' hword
  have hput : ∀ n, Runs (builderPutName E []) ⟨{ p := skipBlank false p }, {}, r, n⟩ ()
      { p := skipBlank false p } {} r := fun n => runs_get (runs_if_pos rfl (runs_if_pos rfl (runs_pure _)))
  unfold fieldType
  constructor
  · intro vs hvs n
    have hne := enum_encode_ne k (wireOptions k ws vs)
    refine runs_get ((runs_modify ⟨n, rfl⟩).bind fun n => runs_ws.bind fun n => runs_get ?_)
    refine (runs_modify ⟨n, rfl⟩).bind fun n => (hput n).bind fun n => runs_get ?_
    refine Runs.bind (a := true) (d := { p := q }) (r := r)
      (b := Builder.plus {} (Ty.enum k (wireOptions k ws vs)).encode)
      (runs_if_neg hhead.2.2 ((hident n).bind fun n => ?_)) fun n => ?_
    · dsimp only
      rw [wordType_enum]
      exact (hrun.1 vs hvs n).bind fun n => runs_pure _
    · refine runs_get (runs_if_neg ?_ (runs_suffixes hend))
      simpa using hne
  · intro hnone n
    refine fails_get ((runs_modify ⟨n, rfl⟩).fails fun n => runs_ws.fails fun n => fails_get ?_)
    refine (runs_modify ⟨n, rfl⟩).fails fun n => (hput n).fails fun n => fails_get ?_
    refine Fails.bind (fails_if_neg hhead.2.2 ((hident n).fails fun n => ?_)) fun a s' hs' => ?_
    · dsimp only
      rw [wordType_enum]
      exact (hrun.2 hnone n).fails.bind fun _ s' hs' => fails_pure hs' _
    · refine fails_get ?_
      unfold Fails
      rw [if_pos (Or.inr (Or.inl hs'))]
      exact fails_pure hs' ()

end Body

/-! ## The definition -/

section Definition
variable {r : Registry} {E : Env} {ref : Bytes → Parser (Option (Nat × Nat))}

/-- The registry with a name defined past what its arena holds. -/
def Registry.define (r : Registry) (name type : Bytes) : Registry :=
  { r with
    arena := r.arena.plus (name ++ type)
    defs := r.defs ++ [{ noff := r.arena.buf.length % 2 ^ 32, nlen := name.length
                         toff := (r.arena.buf.length + name.length) % 2 ^ 32
                         tlen := type.length % 2 ^ 32 }] }

variable (hE : ∀ n, E.room n = true)
include hE

theorem runs_defsAddBytes {d : Dsl} {b : Builder} {n : Nat} {name type : Bytes}
    (hr : r.arena.err = 0) (h0 : name ≠ []) (h255 : name.length ≤ 255) (htype : type ≠ []) :
    Runs (defsAddBytes E name type) ⟨d, b, r, n⟩ true d b (r.define name type) := by
  have hputRaw : ∀ (r : Registry) (bs : Bytes) (n : Nat), r.arena.err = 0 → bs ≠ [] →
      Runs (arenaPutRaw E bs) ⟨d, b, r, n⟩ () d b { r with arena := r.arena.plus bs } := by
    intro r bs n hr hbs
    unfold arenaPutRaw
    refine runs_if_neg hbs ((runs_ask hE).bind fun n => runs_modify ⟨n, ?_⟩)
    simp [Builder.write, Builder.plus, hr]
  have hlen := List.length_pos_iff.mpr h0
  have hlent := List.length_pos_iff.mpr htype
  unfold defsAddBytes
  refine runs_if_neg (by omega) ((runs_ask hE).bind fun n => runs_if_pos rfl (runs_get ?_))
  refine (hputRaw r name n hr h0).bind fun n => runs_get ?_
  refine (hputRaw { r with arena := r.arena.plus name } type n hr htype).bind fun n => runs_get ?_
  refine runs_if_neg (fun hc => hc hr) ?_
  have hdef : ({ r with arena := (r.arena.plus name).plus type
                        defs := r.defs ++ [{ noff := r.arena.buf.length % 2 ^ 32, nlen := name.length
                                             toff := (r.arena.plus name).buf.length % 2 ^ 32
                                             tlen := type.length % 2 ^ 32 }] } : Registry) =
      r.define name type := by
    rw [Registry.define, plus_plus, plus_buf, List.length_append]
  rw [← hdef]
  exact (runs_modify ⟨n, rfl⟩).bind fun n => runs_pure _

omit hE in
/-- A name that is neither defined nor a standard type's resolves to nothing. -/
theorem runs_ref {d : Dsl} {b : Builder} {n k : Nat} {name : Bytes} (hnew : defsFind r name = none)
    (hstd : r.standalone = true ∨ E.std name = none) :
    Runs (dslRef E k name) ⟨d, b, r, n⟩ none d b r := by
  have hnone : (if r.standalone then none else E.std name) = none := by
    rcases hstd with h | h
    · rw [if_pos h]
    · rw [h]
      exact ite_self none
  unfold dslRef
  refine runs_get ?_
  dsimp only
  rw [hnew, hnone]
  exact runs_pure _

/-- The definition is checked and made, or refused with its body. -/
theorem runs_dslDef {p p₁ p₂ q name at_ : Bytes} {k : Kind} {ws : List Written}
    (h61 : readChar 61 p = some p₁)
    (hword : readIdent (skipBlank false p₁) = some ([101, 110, 117, 109], p₂))
    (henum : readEnum p₂ = some ((k, ws), q)) (hend : (skipBlank false q).headD 0 = 0)
    (hnodup : (ws.map Written.name).Nodup) (href : ∀ d b n, Runs (ref name) ⟨d, b, r, n⟩ none d b r)
    (hr : r.arena.err = 0) (h0 : name ≠ []) (h255 : name.length ≤ 255)
    (hwhy : ∀ vs, takenValues k 0 ws = some vs →
      wireWhy (wireOf name (Ty.enum k (wireOptions k ws vs)).encode) = none) :
    (∀ vs place, takenValues k 0 ws = some vs →
      defsFind (r.define name (Ty.enum k (wireOptions k ws vs)).encode) name = some place → ∀ n,
      Runs (dslDef E ref name at_) ⟨{ p := skipBlank false p }, {}, r, n⟩ (some place)
        { p := skipBlank false q } {} (r.define name (Ty.enum k (wireOptions k ws vs)).encode)) ∧
    (takenValues k 0 ws = none → ∀ n,
      Refuses (dslDef E ref name at_) ⟨{ p := skipBlank false p }, {}, r, n⟩ none) := by
  unfold readChar at h61
  dsimp only at h61
  split at h61
  next hhead =>
    obtain rfl := Option.some.inj h61
    rw [← skipBlank_idem false] at hword
    have hbody := fun m => @runs_enumBody r E ref hE _ p₂ q k ws m hword henum hend hnodup
    have h123 : decide ((skipBlank false p).headD 0 = 123) = false := by
      rw [hhead]
      rfl
    unfold dslDef
    constructor
    · intro vs place hvs hplace n
      refine runs_get ?_
      dsimp only
      rw [h123]
      refine (href _ _ _).bind fun n => runs_get ((runs_move _).bind fun n => ?_)
      refine runs_ws.bind fun n => runs_get ?_
      have hne := enum_encode_ne k (wireOptions k ws vs)
      have hhead := fun c hc => @enum_encode_head k (wireOptions k ws vs) c hc
      refine Runs.bind (a := ((), { buf := (Ty.enum k (wireOptions k ws vs)).encode }))
        (d := { p := skipBlank false q }) (r := r) (b := {}) (runs_withBuilder hE fun m =>
          runs_if_neg (by decide) ((runs_modify ⟨m, rfl⟩).bind fun m => ?_)) fun n => ?_
      · refine ((hbody _).1 vs hvs m).bind fun m => runs_get (runs_if_neg ?_ (runs_get ?_))
        · exact fun hc => hhead 12 (by decide) hc.2.2
        · exact runs_if_neg (fun hc => hhead 18 (by decide) hc.2.2) (runs_pure _)
      · refine runs_get (runs_if_neg (fun hc => hc.2 rfl) (runs_get (runs_if_neg ?_ ?_)))
        · exact fun hc => hc.elim (fun h => by cases h) hne
        · refine Runs.bind (a := none) (d := { p := skipBlank false q }) (r := r) (b := {})
            ((runs_wireAround hE _ _).bind fun n => ?_) fun n => ?_
          · dsimp only
            rw [hwhy vs hvs]
            exact runs_pure _
          · refine (runs_defsAddBytes hE hr h0 h255 hne).bind fun n => runs_get ?_
            dsimp only
            rw [if_pos rfl, hplace]
            exact runs_if_neg (fun hc => by cases hc) (runs_pure _)
    · intro hnone n
      refine refuses_get ?_
      dsimp only
      rw [h123]
      refine (href _ _ _).refuses fun n => refuses_get ((runs_move _).refuses fun n => ?_)
      refine runs_ws.refuses fun n => refuses_get ?_
      refine Fails.refuses (fails_withBuilder hE fun m =>
        fails_if_neg (by decide) ((runs_modify ⟨m, rfl⟩).fails fun m => ?_)) fun x s' hs' => ?_
      · refine ((hbody _).2 hnone m).bind fun _ s' hs' => ?_
        refine fails_get (fails_if_neg (not_clean hs') (fails_get ?_))
        exact fails_if_neg (not_clean hs') (fails_pure hs' _)
      · obtain ⟨-, sb⟩ := x
        refine refuses_get (refuses_if_neg (not_clean hs') (refuses_get ?_))
        exact refuses_if_pos (Or.inl hs') (refuses_pure hs' _)
  next => cases h61

end Definition

/-! ## The text -/

/-- The places of a definition's read, in the order the parser makes it. -/
theorem readEnumDef_some {text : Bytes} {e : EnumDef} (h : readEnumDef text = some e) :
    ∃ word p p₁ p₂ q, readIdent (skipBlank false text) = some (word, p) ∧
      typeNormalize word 256 = some e.name ∧ readChar 61 p = some p₁ ∧
      readIdent (skipBlank false p₁) = some ([101, 110, 117, 109], p₂) ∧
      readEnum p₂ = some ((e.backing, e.options), q) ∧ (skipBlank false q).headD 0 = 0 := by
  simp only [readEnumDef, Option.bind_eq_bind] at h
  obtain ⟨⟨word, p⟩, h₁, h⟩ := Option.bind_eq_some_iff.mp h
  obtain ⟨name, h₂, h⟩ := Option.bind_eq_some_iff.mp h
  obtain ⟨p₁, h₃, h⟩ := Option.bind_eq_some_iff.mp h
  obtain ⟨⟨word', p₂⟩, h₄, h⟩ := Option.bind_eq_some_iff.mp h
  dsimp only at h h₃
  split at h
  next hword =>
    obtain ⟨⟨⟨backing, options⟩, q⟩, h₅, h⟩ := Option.bind_eq_some_iff.mp h
    dsimp only at h
    split at h
    next hend =>
      obtain rfl := Option.some.inj h
      exact ⟨word, p, p₁, p₂, q, h₁, h₂, h₃, hword ▸ h₄, h₅, hend⟩
    next => cases h
  next => cases h

section Text
variable {r : Registry} {E : Env} {ref : Bytes → Parser (Option (Nat × Nat))}

theorem runs_statementHead {d : Dsl} {b : Builder} {n : Nat} {word p p₁ : Bytes}
    (hword : readIdent d.p = some (word, p)) (h61 : readChar 61 p = some p₁) :
    Runs statementHead ⟨d, b, r, n⟩ (some (some word)) { d with p := skipBlank false p } b r := by
  unfold readChar at h61
  dsimp only at h61
  split at h61
  next hhead =>
    unfold statementHead
    refine runs_get (runs_if_neg (readIdent_head hword).2.2 ((runs_ident hword).bind fun n => ?_))
    exact runs_ws.bind fun n => runs_get (runs_if_pos (Or.inr hhead) (runs_pure _))
  next => cases h61

variable (hE : ∀ n, E.room n = true)
include hE

/-- The statements of an enum text: its definition, and the end. -/
theorem runs_statements {text : Bytes} {e : EnumDef} (h : readEnumDef text = some e)
    (hnodup : (e.options.map Written.name).Nodup)
    (href : ∀ d b n, Runs (ref e.name) ⟨d, b, r, n⟩ none d b r) (hr : r.arena.err = 0)
    (hwhy : ∀ vs, takenValues e.backing 0 e.options = some vs →
      wireWhy (wireOf e.name (Ty.enum e.backing (wireOptions e.backing e.options vs)).encode) = none)
    (m : Nat) :
    ∃ q, (∀ vs place, takenValues e.backing 0 e.options = some vs →
      defsFind (r.define e.name (Ty.enum e.backing (wireOptions e.backing e.options vs)).encode)
        e.name = some place → ∀ n,
      Runs (statements E ref (m + 2) .empty) ⟨{ p := text }, {}, r, n⟩ (.named e.name (some place))
        { p := q } {}
        (r.define e.name (Ty.enum e.backing (wireOptions e.backing e.options vs)).encode)) ∧
    (takenValues e.backing 0 e.options = none → ∀ n,
      Refuses (statements E ref (m + 2) .empty) ⟨{ p := text }, {}, r, n⟩ (.named e.name none)) := by
  obtain ⟨word, p, p₁, p₂, q, h₁, h₂, h₃, h₄, h₅, h₆⟩ := readEnumDef_some h
  obtain ⟨-, h256, c, cs, hcons, -⟩ := typeNormalize_iff.mp h₂
  have hne : e.name ≠ [] := by
    rw [hcons]
    exact List.cons_ne_nil c cs
  have hdef := fun at_ => @runs_dslDef r E ref hE p p₁ p₂ q e.name at_ e.backing e.options h₃ h₄ h₅
    h₆ hnodup href hr hne (by omega) hwhy
  have hstart := (readIdent_head h₁).1
  have hhead : ∀ n, Runs statementHead ⟨{ p := skipBlank false text }, {}, r, n⟩ (some (some word))
      { p := skipBlank false p } {} r := fun n =>
    @runs_statementHead r { p := skipBlank false text } {} n word p p₁ h₁ h₃
  rw [statements]
  refine ⟨skipBlank false q, ?_, ?_⟩
  · intro vs place hvs hplace n
    refine runs_get (runs_if_neg (fun hc => by cases hc) (runs_ws.bind fun n => runs_get ?_))
    refine runs_if_neg hstart ((hhead _).bind fun n => ?_)
    dsimp only
    rw [h₂]
    refine ((hdef _).1 vs place hvs hplace n).bind fun n => ?_
    rw [statements]
    refine runs_get (runs_if_neg (fun hc => by cases hc) ?_)
    refine runs_ws.bind fun n => runs_get (runs_if_pos ?_ ?_)
    · dsimp only
      rw [skipBlank_idem, h₆]
    · dsimp only
      rw [skipBlank_idem]
      exact runs_pure _
  · intro hnone n
    refine refuses_get (refuses_if_neg (fun hc => by cases hc) ?_)
    refine runs_ws.refuses fun n => refuses_get (refuses_if_neg hstart ?_)
    refine (hhead _).refuses fun n => ?_
    dsimp only
    rw [h₂]
    refine ((hdef _).2 hnone n).bind fun s' hs' => ?_
    rw [statements]
    exact refuses_get (refuses_if_pos hs' (refuses_pure hs' _))

end Text

/-! ## The schema -/

/-- A wire cut short denotes what the whole one does, where the type is all there. -/
theorem denotes_cut {w w' : Bytes} {sc : SchemaTy} (hd : Denotes w sc) (hcut : w' <+: w) :
    (sc.encode.length ≤ w'.length → Denotes w' sc) ∧
    (w'.length < sc.encode.length → ¬ ∃ sc', Denotes w' sc') := by
  constructor
  · intro hle
    exact ⟨hd.1, List.prefix_of_prefix_length_le hd.2 hcut hle⟩
  · intro hlt hc
    obtain ⟨sc', hok, hpre⟩ := hc
    have hsame := denotes_unique ⟨hok, hpre.trans hcut⟩ hd
    rw [hsame] at hpre
    exact absurd hpre.length_le (by omega)

/-- The options 16 bits count. -/
def counted {α : Type} (xs : List α) : List α := xs.take (xs.length % 65536)

theorem length_counted {α : Type} (xs : List α) : (counted xs).length = xs.length % 65536 := by
  rw [counted, List.length_take, Nat.min_eq_left (Nat.mod_le _ _)]

/-- A type of too many options opens with that of those counted. -/
theorem enum_opens (k : Kind) (opts : List (Nat × Bytes)) :
    (Ty.enum k (counted opts)).encode <+: (Ty.enum k opts).encode := by
  have hcount : writeLe 2 (counted opts).length = writeLe 2 opts.length := by
    rw [length_counted]
    exact writeLe_mod 2 opts.length
  rw [Ty.encode, Ty.encode, hcount]
  simp only [List.prefix_append_right_inj]
  refine ⟨(opts.drop (opts.length % 65536)).flatMap (encodeOption k.scalarSize), ?_⟩
  rw [counted, ← List.flatMap_append, List.take_append_drop]

theorem bitsOf_lt (k : Kind) (v : Int) : bitsOf k.scalarSize v < 256 ^ k.scalarSize := by
  have hpos : (0 : Int) < 256 ^ k.scalarSize := by
    cases k <;> decide
  have hlt := Int.emod_lt_of_pos v hpos
  have hnn := Int.emod_nonneg v (Int.ne_of_gt hpos)
  unfold bitsOf
  apply Int.ofNat_lt.mp
  rw [Int.toNat_of_nonneg hnn]
  simpa using hlt

/-- The options as the wire holds them are those of a wire. -/
theorem wireOptions_ok {k : Kind} : ∀ {ws : List Written}, (∀ w ∈ ws, w.name.length < 256) →
    ∀ vs : List Int, ∀ o ∈ wireOptions k ws vs, o.1 < 256 ^ k.scalarSize ∧ o.2.length < 256
  | [], _, _, _, ho => by cases ho
  | _ :: _, _, [], _, ho => by cases ho
  | w :: ws, hws, v :: vs, o, ho => by
    rw [wireOptions, List.zipWith_cons_cons] at ho
    rcases List.mem_cons.mp ho with rfl | ho
    · exact ⟨bitsOf_lt k v, hws w List.mem_cons_self⟩
    · exact wireOptions_ok (fun w' hw' => hws w' (List.mem_cons_of_mem _ hw')) vs o ho

section Schema
variable {name : Bytes} {k : Kind} {opts : List (Nat × Bytes)}

/-- The options an enum text streams are those of a wire. -/
theorem denotes_enum (h0 : name ≠ []) (h255 : name.length ≤ 255) (hk : k.backingOk = true)
    (hopts : ∀ o ∈ opts, o.1 < 256 ^ k.scalarSize ∧ o.2.length < 256) :
    Denotes (wireOf name (Ty.enum k opts).encode) ⟨name, .enum k (counted opts)⟩ := by
  have hlen : (counted opts).length < 65536 := by
    rw [length_counted]
    exact Nat.mod_lt _ (by decide)
  have hsize : k.scalarSize ≤ u32Max := by
    cases k <;> decide
  refine ⟨⟨Nat.lt_succ_of_le h255, fun hc => (by cases hc), ?_, hsize⟩, ?_⟩
  · refine ⟨decide_eq_true ?_, hk, hlen, fun o ho => hopts o (List.mem_of_mem_take ho)⟩
    exact fun hc => h0 (List.length_eq_zero_iff.mp hc)
  · rw [SchemaTy.encode, wireOf]
    simp only [List.prefix_append_right_inj]
    exact enum_opens k opts

/-- Nothing is wrong with its wire. -/
theorem wireWhy_enum (h0 : name ≠ []) (h255 : name.length ≤ 255) (hk : k.backingOk = true)
    (hopts : ∀ o ∈ opts, o.1 < 256 ^ k.scalarSize ∧ o.2.length < 256) :
    wireWhy (wireOf name (Ty.enum k opts).encode) = none :=
  (wireWhy_denotes (denotes_enum h0 h255 hk hopts)).mpr
    (show 1 % 2 ^ 32 ≤ 0xFFFF by decide)

theorem wireOf_mono {T T' : Bytes} (h : T' <+: T) : wireOf name T' <+: wireOf name T := by
  unfold wireOf
  simp only [List.prefix_append_right_inj]
  exact h

theorem length_wireOf (T : Bytes) : (wireOf name T).length = 2 + name.length + T.length := by
  simp only [wireOf, List.length_append, length_writeLe]
  omega

end Schema

/-- The bytes a definition's type is found by: its length is kept in 32 bits. -/
def cutType (type : Bytes) : Bytes := type.take (type.length % 2 ^ 32)

/-- The first definition of a registry is found under its name. -/
theorem defsFind_define {r : Registry} (hbuf : r.arena.buf = []) (hdefs : r.defs = [])
    {name : Bytes} (h255 : name.length ≤ 255) (T : Bytes) :
    defsFind (r.define name T) name = some (name.length, T.length % 2 ^ 32) ∧
    nameAt (r.define name T).arena.buf name.length (T.length % 2 ^ 32) = cutType T := by
  unfold defsFind Registry.define
  simp only [hbuf, hdefs, plus_buf, List.nil_append, List.length_nil, Nat.zero_add]
  rw [Nat.mod_eq_of_lt (show name.length < 2 ^ 32 by omega)]
  constructor
  · simp [nameAt]
  · simp [nameAt, cutType]

/-! ## The compile -/

section Compile
variable {E : Env} {r : Registry} {text : Bytes}

theorem Runs.compiled {o : Option Schema} {d : Dsl} {b : Builder} {r' : Registry}
    (h : Runs (compileBody E text) ⟨{ p := text }, {}, r, 0⟩ o d b r') :
    compiledSchema E r text = some o := by
  obtain ⟨n, hn⟩ := h
  unfold compiledSchema registryCompile
  rw [hn]
  cases o <;> rfl

theorem Refuses.compiled {o : Option Schema}
    (h : Refuses (compileBody E text) ⟨{ p := text }, {}, r, 0⟩ o) :
    compiledSchema E r text = some o := by
  obtain ⟨a, s, hrun, rfl, -⟩ := h
  unfold compiledSchema registryCompile
  rw [hrun]
  cases a <;> rfl

variable (hE : ∀ n, E.room n = true)
include hE

/-- A registry that holds no schema hands out the parse. -/
theorem runs_registryParse {d : Dsl} {b : Builder} (howned : r.owned = []) (w : Bytes) :
    ∃ r', ∀ n, Runs (registryParse E w) ⟨d, b, r, n⟩ (schemaParse w) d b r' := by
  have hnone : (r.owned.find? fun o => o.wire = w) = none := by rw [howned]; rfl
  unfold registryParse
  cases hp : schemaParse w with
  | none =>
    refine ⟨r, fun n => runs_get ?_⟩
    dsimp only
    rw [hnone]
    refine (runs_ask hE).bind fun n => runs_if_pos rfl ?_
    exact runs_pure _
  | some o =>
    refine ⟨{ r with owned := r.owned ++ [o] }, fun n => runs_get ?_⟩
    dsimp only
    rw [hnone]
    refine (runs_ask hE).bind fun n => runs_if_pos rfl ?_
    refine (runs_ask hE).bind fun n => runs_if_pos rfl ?_
    exact (runs_modify ⟨n, rfl⟩).bind fun n => runs_pure _

/-- After its statements a text compiles to the parse of the root's wire. -/
theorem runs_compileBody {d : Dsl} {b : Builder} {r' : Registry} {root : Root} {name type : Bytes}
    (hrun : ∀ n, Runs (statements E (dslRef E 8) (text.length + 1) .empty) ⟨{ p := text }, {}, r, n⟩
      root d b r')
    (hr : r.arena.err = 0) (hd : d.err = none) (hb : b.err = 0) (hr' : r'.arena.err = 0)
    (howned : r'.owned = []) (hroot : ∀ n, rootOf ⟨d, b, r', n⟩ root = (name, type))
    (hnil : type = [] → schemaParse (wireOf name type) = none) :
    compiledSchema E r text = some (schemaParse (wireOf name type)) := by
  have hclean : ∀ P : Prop, ¬ P → ¬ (d.err.isNone = true ∧ P) := fun P hP hc => hP hc.2
  have hnot : ¬ d.err.isSome = true := by
    rw [hd]
    exact fun hc => by cases hc
  cases hp : schemaParse (wireOf name type) with
  | some o =>
    have ht : type ≠ [] := by
      intro hc
      rw [hnil hc] at hp
      cases hp
    obtain ⟨r'', hparse⟩ := @runs_registryParse E r' hE d b howned (wireOf name type)
    rw [hp] at hparse
    refine @Runs.compiled E r text (some o) d b r'' ?_
    unfold compileBody
    refine (runs_builderBegin hE).bind fun n => (runs_modify ⟨n, rfl⟩).bind fun n => ?_
    refine runs_get (runs_if_neg (fun hc => hc hr) (runs_if_neg (fun hc => hc rfl) ?_))
    refine (hrun n).bind fun n => runs_get (runs_if_neg (hclean _ fun hc => hc hb) (runs_get ?_))
    refine runs_if_neg (hclean _ fun hc => hc hr') (runs_get ?_)
    rw [hroot]
    refine runs_if_neg (hclean _ ht) (runs_get (runs_if_neg hnot ?_))
    refine (runs_wireAround hE name type).bind fun n => (hparse n).bind fun n => ?_
    exact runs_pure _
  | none =>
    obtain ⟨r'', hparse⟩ := @runs_registryParse E r' hE d b howned (wireOf name type)
    rw [hp] at hparse
    refine Refuses.compiled ?_
    unfold compileBody
    refine (runs_builderBegin hE).refuses fun n => (runs_modify ⟨n, rfl⟩).refuses fun n => ?_
    refine refuses_get (refuses_if_neg (fun hc => hc hr) (refuses_if_neg (fun hc => hc rfl) ?_))
    refine (hrun n).refuses fun n => refuses_get (refuses_if_neg (hclean _ fun hc => hc hb) ?_)
    refine refuses_get (refuses_if_neg (hclean _ fun hc => hc hr') (refuses_get ?_))
    rw [hroot]
    by_cases ht : type = []
    · refine refuses_if_pos ⟨by rw [hd]; rfl, ht⟩ ((runs_fail _ _).refuses fun n => refuses_get ?_)
      exact refuses_if_pos rfl (refuses_pure rfl _)
    refine refuses_if_neg (hclean _ ht) (refuses_get (refuses_if_neg hnot ?_))
    refine (runs_wireAround hE name type).refuses fun n => (hparse n).refuses fun n => ?_
    dsimp only
    cases wireWhy (wireOf name type) with
    | none => exact refuses_fail _ _ _
    | some why => exact refuses_fail _ _ _

/-- A text whose statements are refused gives no schema. -/
theorem refuses_compileBody {root : Root}
    (hrun : ∀ n, Refuses (statements E (dslRef E 8) (text.length + 1) .empty)
      ⟨{ p := text }, {}, r, n⟩ root) (hr : r.arena.err = 0) :
    compiledSchema E r text = some none := by
  refine Refuses.compiled ?_
  unfold compileBody
  refine (runs_builderBegin hE).refuses fun n => (runs_modify ⟨n, rfl⟩).refuses fun n => ?_
  refine refuses_get (refuses_if_neg (fun hc => hc hr) (refuses_if_neg (fun hc => hc rfl) ?_))
  refine (hrun n).bind fun s' hs' => refuses_get (refuses_if_neg (not_clean hs') (refuses_get ?_))
  refine refuses_if_neg (not_clean hs') (refuses_get ?_)
  obtain ⟨name, type⟩ := rootOf s' root
  exact refuses_if_neg (not_clean hs') (refuses_get (refuses_if_pos hs' (refuses_pure hs' _)))

/-- What the compile of an enum text gives: the parse of the wire of the options taken, or
nothing where one is not. -/
theorem compile_enum_text {e : EnumDef} (h : readEnumDef text = some e) {standalone : Bool}
    (hnodup : (e.options.map Written.name).Nodup)
    (hstd : standalone = true ∨ E.std e.name = none) :
    (∀ vs, takenValues e.backing 0 e.options = some vs →
      compiledSchema E { standalone } text = some (schemaParse (wireOf e.name
        (cutType (Ty.enum e.backing (wireOptions e.backing e.options vs)).encode)))) ∧
    (takenValues e.backing 0 e.options = none →
      compiledSchema E { standalone } text = some none) := by
  obtain ⟨word, p, p₁, p₂, q, h₁, h₂, -, -, h₅, -⟩ := readEnumDef_some h
  obtain ⟨hk, -, hnames⟩ := readEnum_fits h₅
  obtain ⟨-, h256, c, cs, hcons, -⟩ := typeNormalize_iff.mp h₂
  have hne : e.name ≠ [] := by
    rw [hcons]
    exact List.cons_ne_nil c cs
  have hlen : text.length + 1 = (text.length - 1) + 2 := by
    cases text with
    | nil => cases h₁
    | cons c cs => rfl
  have hopts := fun vs => @wireOptions_ok e.backing e.options hnames vs
  have hwhy := fun vs (_ : takenValues e.backing 0 e.options = some vs) =>
    wireWhy_enum hne (by omega) hk (hopts vs)
  obtain ⟨q', hruns, hfails⟩ := @runs_statements { standalone } E (dslRef E 8) hE text e h hnodup
    (fun d b n => runs_ref rfl hstd) rfl hwhy (text.length - 1)
  rw [← hlen] at hruns hfails
  constructor
  · intro vs hvs
    obtain ⟨T, hT⟩ : ∃ T, T = (Ty.enum e.backing (wireOptions e.backing e.options vs)).encode :=
      ⟨_, rfl⟩
    obtain ⟨hfind, htype⟩ := @defsFind_define { standalone } rfl rfl e.name (by omega) T
    have hstate := hruns vs (e.name.length, T.length % 2 ^ 32) hvs
    rw [← hT] at hstate ⊢
    rw [← htype]
    refine runs_compileBody hE (hstate hfind) rfl rfl rfl rfl rfl (fun n => rfl) fun hnil => ?_
    have hd := denotes_enum hne (by omega) hk (hopts vs)
    rw [← hT] at hd
    refine (refused ((denotes_cut hd (wireOf_mono ?_)).2 ?_)).2
    · rw [hnil]
      exact List.nil_prefix
    · rw [hnil, length_wireOf, SchemaTy.encode]
      simp only [List.length_append, length_writeLe, List.length_nil, Ty.encode]
      omega
  · intro hnone
    exact refuses_compileBody hE (hfails hnone) rfl

end Compile

end Rant.Serialize
