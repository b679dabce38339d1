import Rant.Serialize.Registry
/-!
# A failed compile leaves nothing behind

Every step of the parser ends, moves forward in the text and only adds to the registry: names
at the end of the definitions, bytes at the end of the arena (`Ends`). The one step that adds a
schema is the last, after which nothing fails. So the rollback of a failed compile, which cuts
both back to their length, restores the registry, the out-of-memory latch of its arena aside,
which it clears.
-/

namespace Rant.Serialize

open Rant.Lib

/-! ## What a step of the parser does -/

/-- `r'` is `r` with more definitions. -/
structure Grown (r r' : Registry) : Prop where
  arena : r.arena.buf <+: r'.arena.buf
  writer : { r'.arena with buf := r.arena.buf, err := r.arena.err } = r.arena
  defs : r.defs <+: r'.defs
  owned : r'.owned = r.owned
  recDepth : r'.recDepth = r.recDepth
  standalone : r'.standalone = r.standalone

theorem grown_refl (r : Registry) : Grown r r :=
  ⟨List.prefix_rfl, rfl, List.prefix_rfl, rfl, rfl, rfl⟩

/-- From `n` bytes of text at most and a registry grown from `r`, `x` ends at such a state. -/
def Ends {α : Type} (n : Nat) (r : Registry) (x : Parser α) : Prop :=
  ∀ s : Parse, s.d.p.length ≤ n → Grown r s.defs →
    wp x (fun _ s' => s'.d.p.length ≤ n ∧ Grown r s'.defs) s

section Rules
variable {α β : Type} {n : Nat} {r : Registry}

theorem ends_pure (a : α) : Ends n r (pure a : Parser α) :=
  fun _ hn hr => wp_pure.mpr ⟨hn, hr⟩

variable {x : Parser α}

theorem ends_bind {f : α → Parser β} (hx : Ends n r x) (hf : ∀ a, Ends n r (f a)) :
    Ends n r (x >>= f) := by
  intro s hn hr
  rw [wp_bind]
  exact wp_mono (hx s hn hr) fun a s' h => hf a s' h.1 h.2

theorem ends_get {f : Parse → Parser α}
    (hf : ∀ s : Parse, s.d.p.length ≤ n → Grown r s.defs → Ends n r (f s)) :
    Ends n r (get >>= f) := by
  intro s hn hr
  rw [wp_bind, wp_get]
  exact hf s hn hr s hn hr

variable {c : Prop}

theorem ends_ite [Decidable c] {y : Parser α} (hx : c → Ends n r x)
    (hy : ¬ c → Ends n r y) : Ends n r (if c then x else y) := by
  by_cases h : c
  · rw [if_pos h]
    exact hx h
  · rw [if_neg h]
    exact hy h

/-- A step that is sometimes made before what follows. -/
theorem ends_when [Decidable c] {x : Parser Unit} {y : Parser α} (hx : Ends n r x)
    (hy : Ends n r y) : Ends n r (if c then x >>= fun _ => y else y) :=
  ends_ite (fun _ => ends_bind hx fun _ => hy) fun _ => hy

/-- What follows may count its fuel from the bytes ahead. -/
theorem ends_get_len {f : Parse → Parser α}
    (hf : ∀ s : Parse, s.d.p.length ≤ n → Ends s.d.p.length r (f s)) : Ends n r (get >>= f) := by
  intro s hn hr
  rw [wp_bind, wp_get]
  exact wp_mono (hf s hn s (Nat.le_refl _) hr) fun a s' h => ⟨Nat.le_trans h.1 hn, h.2⟩

/-- A change to the writer or the flags alone. -/
theorem ends_modify {f : Parse → Parse} (hp : ∀ s, (f s).d.p = s.d.p)
    (hd : ∀ s, (f s).defs = s.defs) : Ends n r (modify f) := by
  intro s hn hr
  rw [wp_modify, hp, hd]
  exact ⟨hn, hr⟩

variable {p : Bytes}

theorem ends_move (h : p.length ≤ n) : Ends n r (dslMove p) := by
  intro s hn hr
  unfold dslMove
  rw [wp_modify]
  exact ⟨h, hr⟩

theorem ends_fail (at_ : Bytes) (why : String) : Ends n r (dslFail at_ why) :=
  ends_modify (fun _ => rfl) (fun _ => rfl)

theorem skipBlank_le : ∀ (c : Bool) (p : Bytes), (skipBlank c p).length ≤ p.length
  | _, [] => by simp [skipBlank]
  | true, c :: p => by
    have h₁ := skipBlank_le false p
    have h₂ := skipBlank_le true p
    simp only [skipBlank]
    split
    next => exact Nat.le_refl _
    split
    next => exact Nat.le_succ_of_le h₁
    next => exact Nat.le_succ_of_le h₂
  | false, c :: p => by
    have h₁ := skipBlank_le false p
    have h₂ := skipBlank_le true p
    simp only [skipBlank]
    split
    next => exact Nat.le_succ_of_le h₁
    split
    next => exact Nat.le_succ_of_le h₂
    next => exact Nat.le_refl _

theorem ends_ws : Ends n r dslWs := by
  intro s hn hr
  unfold dslWs
  rw [wp_modify]
  exact ⟨Nat.le_trans (skipBlank_le false s.d.p) hn, hr⟩

/-- `x` ends likewise, and an answer it gives is text gone. -/
def Shortens (n : Nat) (r : Registry) (x : Parser (Option α)) : Prop :=
  ∀ s : Parse, s.d.p.length ≤ n → Grown r s.defs →
    wp x (fun a s' => (s'.d.p.length ≤ n ∧ Grown r s'.defs) ∧ (a ≠ none → s'.d.p.length < n)) s

theorem Shortens.ends {x : Parser (Option α)} (hx : Shortens n r x) : Ends n r x :=
  fun s hn hr => wp_mono (hx s hn hr) fun _ _ h => h.1

/-- What follows an answer has the shorter text. -/
theorem ends_short_bind {x : Parser (Option α)} {f : Option α → Parser β} (hx : Shortens n r x)
    (hf : ∀ a m, m < n → Ends m r (f (some a))) (hnone : Ends n r (f none)) :
    Ends n r (x >>= f) := by
  intro s hn hr
  rw [wp_bind]
  refine wp_mono (hx s hn hr) fun a s' ⟨⟨hn', hr'⟩, hshort⟩ => ?_
  cases a with
  | none => exact hnone s' hn' hr'
  | some a =>
    have hlt := hshort (by simp)
    refine wp_mono (hf a _ hlt s' (Nat.le_refl _) hr') fun _ t ht => ⟨?_, ht.2⟩
    exact Nat.le_trans ht.1 hn'

theorem shortens_pure : Shortens n r (pure none : Parser (Option α)) := by
  intro s hn hr
  rw [wp_pure]
  exact ⟨⟨hn, hr⟩, fun hc => absurd rfl hc⟩

theorem shortens_bind {x : Parser (Option α)} {f : Option α → Parser (Option β)}
    (hx : Shortens n r x) (hf : ∀ a m, m < n → Ends m r (f (some a)))
    (hnone : Shortens n r (f none)) : Shortens n r (x >>= f) := by
  intro s hn hr
  rw [wp_bind]
  refine wp_mono (hx s hn hr) fun a s' ⟨⟨hn', hr'⟩, hshort⟩ => ?_
  cases a with
  | none => exact hnone s' hn' hr'
  | some a =>
    have hlt := hshort (by simp)
    refine wp_mono (hf a _ hlt s' (Nat.le_refl _) hr') fun _ t ht => ?_
    exact ⟨⟨Nat.le_trans ht.1 hn', ht.2⟩, fun _ => Nat.lt_of_le_of_lt ht.1 hlt⟩

theorem shortens_get {f : Parse → Parser (Option α)}
    (hf : ∀ s : Parse, s.d.p.length ≤ n → Shortens n r (f s)) : Shortens n r (get >>= f) := by
  intro s hn hr
  rw [wp_bind, wp_get]
  exact hf s hn s hn hr

theorem shortens_after {x : Parser β} {f : β → Parser (Option α)} (hx : Ends n r x)
    (hf : ∀ a, Shortens n r (f a)) : Shortens n r (x >>= f) := by
  intro s hn hr
  rw [wp_bind]
  exact wp_mono (hx s hn hr) fun a s' h => hf a s' h.1 h.2

theorem shortens_ite [Decidable c] {x y : Parser (Option α)} (hx : c → Shortens n r x)
    (hy : ¬ c → Shortens n r y) : Shortens n r (if c then x else y) := by
  by_cases h : c
  · rw [if_pos h]
    exact hx h
  · rw [if_neg h]
    exact hy h

/-- What follows a move has the shorter text. -/
theorem shortens_move {f : Unit → Parser (Option α)} (h : p.length < n)
    (hf : Ends p.length r (f ())) : Shortens n r (dslMove p >>= f) := by
  intro s _ hr
  unfold dslMove
  rw [wp_bind, wp_modify]
  refine wp_mono (hf { s with d := { s.d with p } } (Nat.le_refl _) hr) fun a s' hs => ?_
  exact ⟨⟨Nat.le_trans hs.1 (Nat.le_of_lt h), hs.2⟩, fun _ => Nat.lt_of_le_of_lt hs.1 h⟩

theorem ends_move_bind {f : Unit → Parser α} (h : p.length ≤ n)
    (hf : Ends p.length r (f ())) : Ends n r (dslMove p >>= f) := by
  intro s _ hr
  unfold dslMove
  rw [wp_bind, wp_modify]
  refine wp_mono (hf { s with d := { s.d with p } } (Nat.le_refl _) hr) fun a s' hs => ⟨?_, hs.2⟩
  exact Nat.le_trans hs.1 h

theorem identLen_le (p : Bytes) : identLen p ≤ p.length := by
  unfold identLen
  split
  next => exact (List.takeWhile_prefix _).length_le
  next => exact Nat.zero_le _

/-- An identifier read is text gone. -/
theorem shortens_ident : Shortens n r dslIdent := by
  unfold dslIdent
  refine shortens_get fun s hn => ?_
  refine shortens_ite (fun _ => shortens_after (ends_fail _ _) fun _ => shortens_pure) fun h0 => ?_
  refine shortens_ite (fun _ => shortens_after (ends_fail _ _) fun _ => shortens_pure) fun _ => ?_
  refine shortens_move ?_ (ends_pure _)
  have hle := identLen_le s.d.p
  rw [List.length_drop]
  omega

theorem ends_expect (c : UInt8) : Ends n r (dslExpect c) := by
  unfold dslExpect
  refine ends_get fun s hn _ => ends_ite (fun _ => ?_) fun _ => ?_
  · refine ends_bind (ends_move ?_) fun _ => ends_pure _
    rw [List.length_drop]
    omega
  · exact ends_bind (ends_fail _ _) fun _ => ends_pure _

theorem countLoop_le : ∀ {p q : Bytes} {v w : Nat}, countLoop v p = some (w, q) →
    q.length ≤ p.length
  | [], _, _, _, h => by
    simp only [countLoop, Option.some.injEq, Prod.mk.injEq] at h
    rw [← h.2]
  | c :: p, q, v, w, h => by
    simp only [countLoop] at h
    split at h
    next =>
      split at h
      next => cases h
      next => exact Nat.le_succ_of_le (countLoop_le h)
    next =>
      simp only [Option.some.injEq, Prod.mk.injEq] at h
      rw [← h.2]

theorem valueLoop_le {lim : Nat} : ∀ {p q : Bytes} {v w : Nat}, valueLoop lim v p = some (w, q) →
    q.length ≤ p.length
  | [], _, _, _, h => by
    simp only [valueLoop, Option.some.injEq, Prod.mk.injEq] at h
    rw [← h.2]
  | c :: p, q, v, w, h => by
    simp only [valueLoop] at h
    split at h
    next =>
      split at h
      next => cases h
      next => exact Nat.le_succ_of_le (valueLoop_le h)
    next =>
      simp only [Option.some.injEq, Prod.mk.injEq] at h
      rw [← h.2]

theorem enumValue_le {q : Bytes} {v : Int} (h : enumValue p = some (v, q)) :
    q.length ≤ p.length := by
  have hdigits : ∀ {digits : Bytes} {lim : Nat} {f : Nat × Bytes → Int},
      (if isDigit (digits.headD 0) then (valueLoop lim 0 digits).map fun x => (f x, x.2) else none) =
        some (v, q) → q.length ≤ digits.length := by
    intro digits lim f h
    split at h
    next =>
      obtain ⟨⟨w, q'⟩, hloop, hq⟩ := Option.map_eq_some_iff.mp h
      simp only [Prod.mk.injEq] at hq
      rw [← hq.2]
      exact valueLoop_le hloop
    next => cases h
  unfold enumValue at h
  by_cases hneg : p.headD 0 = 45
  · simp only [hneg, decide_true, if_true] at h
    have hle := hdigits h
    rw [List.length_drop] at hle
    omega
  · simp only [hneg, decide_false, Bool.false_eq_true, if_false] at h
    exact hdigits h

theorem ends_count : Ends n r dslCount := by
  unfold dslCount
  refine ends_get fun s hn _ => ?_
  split
  next => exact ends_bind (ends_fail _ _) fun _ => ends_pure _
  next v p hp =>
    have hle := Nat.le_trans (countLoop_le hp) hn
    refine ends_bind (ends_move hle) fun _ => ends_ite (fun _ => ?_) fun _ => ends_pure _
    exact ends_bind (ends_fail _ _) fun _ => ends_pure _

variable (E : Env)

theorem ends_ask : Ends n r E.ask := fun _ hn hr => ⟨_, _, rfl, hn, hr⟩

theorem ends_put (bs : Bytes) : Ends n r (builderPut E bs) :=
  ends_bind (ends_ask E) fun _ => ends_modify (fun _ => rfl) (fun _ => rfl)

theorem ends_putRaw (bs : Bytes) : Ends n r (builderPutRaw E bs) :=
  ends_ite (fun _ => ends_pure _) fun _ => ends_put E bs

theorem ends_putName (name : Bytes) : Ends n r (builderPutName E name) := by
  unfold builderPutName
  refine ends_get fun s _ _ => ends_ite (fun _ => ?_) fun _ => ?_
  · exact ends_ite (fun _ => ends_pure _) fun _ => ends_modify (fun _ => rfl) (fun _ => rfl)
  · exact ends_ite (fun _ => ends_modify (fun _ => rfl) (fun _ => rfl)) fun _ => ends_put E _

theorem ends_openStruct : Ends n r (builderOpenStruct E) := by
  unfold builderOpenStruct
  refine ends_get fun s _ _ => ends_ite (fun _ => ends_pure _) fun _ => ?_
  refine ends_ite (fun _ => ends_modify (fun _ => rfl) (fun _ => rfl)) fun _ => ?_
  refine ends_bind (ends_put E _) fun _ => ?_
  refine ends_bind (ends_modify (fun _ => rfl) (fun _ => rfl)) fun _ => ?_
  exact ends_bind (ends_put E _) fun _ => ends_modify (fun _ => rfl) (fun _ => rfl)

theorem ends_enumOpen (backing : Kind) : Ends n r (enumOpen E backing) := by
  unfold enumOpen
  refine ends_bind (ends_put E _) fun _ => ends_bind (ends_put E _) fun _ => ?_
  exact ends_get fun s _ _ => ends_bind (ends_put E _) fun _ => ends_pure _

theorem ends_enumAdd (backing : Kind) (v : Int) (name : Bytes) :
    Ends n r (enumAdd E backing v name) := by
  unfold enumAdd
  refine ends_get fun s _ _ => ends_ite (fun _ => ends_pure _) fun _ => ?_
  refine ends_ite (fun _ => ends_modify (fun _ => rfl) (fun _ => rfl)) fun _ => ?_
  exact ends_bind (ends_put E _) fun _ => ends_put E _

/-- A byte of text that is not its end is text that can go. -/
theorem drop_one_lt {c : UInt8} (hp : p.length ≤ n) (hc : p.headD 0 = c)
    (h0 : c ≠ 0) : (p.drop 1).length < n := by
  cases p with
  | nil => exact absurd hc.symm h0
  | cons a q =>
    rw [List.length_cons] at hp
    rw [List.drop_one, List.tail_cons]
    omega

theorem drop_le (hp : p.length ≤ n) (k : Nat) : (p.drop k).length ≤ n := by
  rw [List.length_drop]
  omega

theorem ends_optionValue (next : Int) : Ends n r (dslOptionValue next) := by
  unfold dslOptionValue
  refine ends_get fun s hs _ => ends_ite (fun _ => ?_) fun _ => ends_pure _
  refine ends_bind (ends_move (drop_le hs 1)) fun _ => ends_bind ends_ws fun _ => ?_
  refine ends_get fun s hs _ => ?_
  cases hv : enumValue s.d.p with
  | none => exact ends_bind (ends_fail _ _) fun _ => ends_pure _
  | some x =>
    exact ends_bind (ends_move (Nat.le_trans (enumValue_le hv) hs)) fun _ => ends_pure _

/-- An option read is text gone. -/
theorem shortens_option (backing : Kind) (countPos count : Nat) (next : Int) :
    Shortens n r (dslOption E backing countPos count next) := by
  unfold dslOption
  refine shortens_get fun s hs => shortens_bind shortens_ident (fun vname m _ => ?_) shortens_pure
  dsimp only
  cases typeNormalize vname 256 with
  | none => exact ends_bind (ends_fail _ _) fun _ => ends_pure _
  | some vwire =>
    dsimp only
    refine ends_get fun s hs _ => ends_ite (fun _ => ?_) fun _ => ?_
    · exact ends_bind (ends_fail _ _) fun _ => ends_pure _
    · refine ends_bind ends_ws fun _ => ends_bind (ends_optionValue next) fun value => ?_
      cases value with
      | none => exact ends_pure _
      | some v =>
        refine ends_ite (fun _ => ?_) fun _ => ?_
        · exact ends_get fun s _ _ => ends_bind (ends_fail _ _) fun _ => ends_pure _
        · refine ends_bind (ends_enumAdd E _ _ _) fun _ => ends_bind ends_ws fun _ => ?_
          refine ends_get fun s hs _ => ends_ite (fun _ => ?_) fun _ => ends_pure _
          exact ends_bind (ends_move (drop_le hs 1)) fun _ => ends_pure _

/-- The options are fewer than the bytes ahead. -/
theorem ends_options (backing : Kind) (countPos : Nat) : ∀ (fuel n count : Nat) (next : Int),
    n < fuel → Ends n r (dslOptions E backing countPos fuel count next)
  | 0, _, _, _, h => absurd h (Nat.not_lt_zero _)
  | fuel + 1, n, count, next, h => by
    unfold dslOptions
    refine ends_bind ends_ws fun _ => ends_get fun s hs _ => ends_ite (fun _ => ends_pure _) fun _ => ?_
    refine ends_short_bind (shortens_option E _ _ _ _) (fun next m hm => ?_) (ends_pure _)
    exact ends_options backing countPos fuel m _ next (by omega)

theorem ends_enum : Ends n r (dslEnum E) := by
  unfold dslEnum
  refine ends_bind ends_ws fun _ => ends_bind (ends_expect _) fun ok => ?_
  refine ends_ite (fun _ => ?_) fun _ => ends_pure _
  refine ends_bind ends_ws fun _ => ends_bind shortens_ident.ends fun word => ?_
  cases word with
  | none => exact ends_pure _
  | some word =>
    dsimp only
    split
    next => exact ends_get fun s _ _ => ends_fail _ _
    next backing _ =>
      refine ends_bind ends_ws fun _ => ends_bind (ends_expect _) fun ok => ?_
      refine ends_ite (fun _ => ?_) fun _ => ends_pure _
      refine ends_bind ends_ws fun _ => ends_bind (ends_expect _) fun ok => ?_
      refine ends_ite (fun _ => ?_) fun _ => ends_pure _
      refine ends_bind (ends_enumOpen E _) fun countPos => ?_
      refine ends_get_len fun s _ => ends_bind
        (ends_options E backing countPos _ _ 0 0 (Nat.lt_succ_self _)) fun count => ?_
      cases count with
      | none => exact ends_pure _
      | some count =>
        refine ends_bind (ends_expect _) fun ok => ends_ite (fun _ => ?_) fun _ => ends_pure _
        exact ends_modify (fun _ => rfl) (fun _ => rfl)

/-- A write leaves all but the bytes and the latch. -/
theorem write_buf (b : Builder) (room : Bool) (bs : Bytes) : b.buf <+: (b.write room bs).buf := by
  unfold Builder.write
  split
  next => exact List.prefix_rfl
  split
  next => exact List.prefix_append _ _
  next => exact List.prefix_rfl

theorem write_rest (b : Builder) (room : Bool) (bs : Bytes) (c : Builder)
    (hc : { b with buf := c.buf, err := c.err } = c) :
    { b.write room bs with buf := c.buf, err := c.err } = c := by
  unfold Builder.write
  split
  next => exact hc
  split
  next => exact hc
  next => exact hc

theorem ends_arenaPutRaw (bs : Bytes) : Ends n r (arenaPutRaw E bs) := by
  unfold arenaPutRaw
  refine ends_ite (fun _ => ends_pure _) fun _ => ends_bind (ends_ask E) fun room => ?_
  intro s hn hr
  rw [wp_modify]
  refine ⟨hn, ?_⟩
  exact ⟨hr.arena.trans (write_buf _ _ _), write_rest _ _ _ _ hr.writer, hr.defs, hr.owned, hr.recDepth,
    hr.standalone⟩

theorem ends_addBytes (name type : Bytes) : Ends n r (defsAddBytes E name type) := by
  unfold defsAddBytes
  refine ends_ite (fun _ => ends_pure _) fun _ => ends_bind (ends_ask E) fun ok => ?_
  refine ends_ite (fun _ => ?_) fun _ => ends_pure _
  refine ends_get fun s _ _ => ends_bind (ends_arenaPutRaw E _) fun _ => ?_
  refine ends_get fun s _ _ => ends_bind (ends_arenaPutRaw E _) fun _ => ?_
  refine ends_get fun s _ _ => ends_ite (fun _ => ends_pure _) fun _ => ?_
  refine ends_bind (fun s hn hr => ?_) fun _ => ends_pure _
  rw [wp_modify]
  exact ⟨hn, hr.arena, hr.writer, hr.defs.trans (List.prefix_append _ _), hr.owned, hr.recDepth,
    hr.standalone⟩

theorem ends_withBuilder (hx : Ends n r x) : Ends n r (withBuilder E x) := by
  unfold withBuilder
  refine ends_get fun outer _ _ => ends_bind ?_ fun sb => ?_
  · exact ends_bind (ends_ask E) fun _ => ends_pure _
  · refine ends_bind (ends_modify (fun _ => rfl) (fun _ => rfl)) fun _ => ends_bind hx fun a => ?_
    refine ends_get fun s _ _ => ?_
    exact ends_bind (ends_modify (fun _ => rfl) (fun _ => rfl)) fun _ => ends_pure _

/-- A text of its own is read from its start, and the outer one is where it was. -/
theorem ends_withText {d : Dsl} (hx : Ends d.p.length r x) :
    Ends n r (withText d x) := by
  intro s hn hr
  unfold withText
  rw [wp_bind, wp_get, wp_bind, wp_modify, wp_bind]
  refine wp_mono (hx { s with d } (Nat.le_refl _) hr) fun a s' h => ?_
  rw [wp_bind, wp_get, wp_bind, wp_modify, wp_pure]
  exact ⟨hn, h.2⟩

theorem ends_splice (head : Nat) (count : Option Nat) : Ends n r (spliceArray E head count) := by
  unfold spliceArray
  refine ends_get fun s _ _ => ends_ite (fun _ => ends_pure _) fun _ => ?_
  refine ends_bind (ends_ask E) fun ok => ends_ite (fun _ => ?_) fun _ => ?_
  · exact ends_modify (fun _ => rfl) (fun _ => rfl)
  · exact ends_modify (fun _ => rfl) (fun _ => rfl)

/-- A suffix read is text gone. -/
theorem shortens_suffix : Shortens n r dslSuffix := by
  unfold dslSuffix
  refine shortens_after ends_ws fun _ => shortens_get fun s hs => ?_
  refine shortens_ite (fun _ => shortens_pure) fun h91 => ?_
  refine shortens_move (drop_one_lt hs (Decidable.not_not.mp h91) (by decide)) ?_
  refine ends_bind ends_ws fun _ => ends_get fun s hs _ => ends_ite (fun _ => ?_) fun _ => ?_
  · exact ends_bind (ends_move (drop_le hs 1)) fun _ => ends_pure _
  · refine ends_bind ends_count fun v => ?_
    cases v with
    | none => exact ends_pure _
    | some v =>
      refine ends_bind ends_ws fun _ => ends_bind (ends_expect _) fun ok => ?_
      exact ends_ite (fun _ => ends_pure _) fun _ => ends_pure _

theorem ends_suffixes (head : Nat) (at_ : Bytes) : ∀ (fuel n : Nat), n < fuel →
    Ends n r (suffixes E head at_ fuel)
  | 0, _, h => absurd h (Nat.not_lt_zero _)
  | fuel + 1, n, h => by
    unfold suffixes
    refine ends_short_bind shortens_suffix (fun count m hm => ?_) (ends_pure _)
    refine ends_get fun s _ _ => ends_ite (fun _ => ends_pure _) fun _ => ?_
    refine ends_ite (fun _ => ends_fail _ _) fun _ => ?_
    exact ends_bind (ends_splice E _ _) fun _ => ends_suffixes head at_ fuel m (by omega)

/-! ## Types -/

section
variable {ref : Bytes → Parser (Option (Nat × Nat))}

/-- Resolving a name ends, however long the text around it. -/
def RefEnds (r : Registry) (ref : Bytes → Parser (Option (Nat × Nat))) : Prop :=
  ∀ n name, Ends n r (ref name)

theorem ends_wordType (hr : RefEnds r ref) (tname at_ : Bytes) (body : Bool) :
    Ends n r (wordType E ref tname at_ body) := by
  unfold wordType
  refine ends_ite (fun _ => ends_put E _) fun _ => ends_ite (fun _ => ?_) fun _ => ?_
  · exact ends_ite (fun _ => ends_fail _ _) fun _ => ends_enum E
  · refine ends_ite (fun _ => ?_) fun _ => ?_
    · refine ends_bind ends_ws fun _ => ends_get fun s hs _ => ends_ite (fun _ => ends_put E _) fun _ => ?_
      refine ends_bind (ends_move (drop_le hs 1)) fun _ => ends_bind ends_ws fun _ => ?_
      refine ends_bind ends_count fun cap => ?_
      cases cap with
      | none => exact ends_pure _
      | some cap =>
        refine ends_bind ends_ws fun _ => ends_bind (ends_expect _) fun ok => ?_
        refine ends_ite (fun _ => ?_) fun _ => ends_pure _
        exact ends_bind (ends_put E _) fun _ => ends_put E _
    · cases dslKind tname with
      | some k => exact ends_put E _
      | none =>
        dsimp only
        cases typeNormalize tname 256 with
        | none => exact ends_fail _ _
        | some twire =>
          refine ends_bind (hr n twire) fun place => ?_
          cases place with
          | none => exact ends_fail _ _
          | some place =>
            refine ends_bind (ends_put E _) fun _ => ends_bind (ends_put E _) fun _ => ?_
            refine ends_bind (ends_putRaw E _) fun _ => ends_get fun s _ _ => ends_putRaw E _

mutual
/-- A type and the fields of a struct take fewer calls than bytes ahead. -/
theorem ends_fieldType (hr : RefEnds r ref) : ∀ (fuel n : Nat) (name : Bytes), n < fuel →
    Ends n r (fieldType E ref fuel name)
  | 0, _, _, h => absurd h (Nat.not_lt_zero _)
  | fuel + 1, n, name, h => by
    unfold fieldType
    refine ends_get fun s _ _ => ends_bind (ends_modify (fun _ => rfl) (fun _ => rfl)) fun _ => ?_
    refine ends_bind ends_ws fun _ => ends_get fun s hs _ => ?_
    refine ends_bind (ends_modify (fun _ => rfl) (fun _ => rfl)) fun _ => ?_
    refine ends_bind (ends_putName E name) fun _ => ends_get fun s' hs' _ => ?_
    refine ends_bind (ends_ite (fun hopen => ?_) fun _ => ?_) fun done => ?_
    · refine ends_ite (fun _ => ends_bind (ends_fail _ _) fun _ => ends_pure _) fun _ => ?_
      have hlt := drop_one_lt hs' hopen (by decide)
      refine ends_move_bind (Nat.le_of_lt hlt) (ends_bind (ends_openStruct E) fun _ => ?_)
      refine ends_bind (ends_fields hr fuel _ (by omega)) fun _ => ends_bind (ends_expect _) fun ok => ?_
      refine ends_ite (fun _ => ?_) fun _ => ends_pure _
      exact ends_bind (ends_modify (fun _ => rfl) (fun _ => rfl)) fun _ => ends_pure _
    · refine ends_bind shortens_ident.ends fun tname => ?_
      cases tname with
      | none => exact ends_pure _
      | some tname => exact ends_bind (ends_wordType E hr _ _ _) fun _ => ends_pure _
    · refine ends_get_len fun t _ => ends_ite (fun _ => ends_pure _) fun _ => ?_
      exact ends_suffixes E _ _ _ _ (Nat.lt_succ_self _)
theorem ends_fields (hr : RefEnds r ref) : ∀ (fuel n : Nat), n < fuel →
    Ends n r (fields E ref fuel)
  | 0, _, h => absurd h (Nat.not_lt_zero _)
  | fuel + 1, n, h => by
    unfold fields
    refine ends_bind ends_ws fun _ => ends_get fun s hs _ => ends_ite (fun _ => ends_pure _) fun _ => ?_
    refine ends_short_bind shortens_ident (fun name m hm => ?_) (ends_pure _)
    dsimp only
    cases nameNormalize name 256 with
    | none => exact ends_fail _ _
    | some wire =>
      refine ends_bind ends_ws fun _ => ends_bind (ends_expect _) fun ok => ?_
      refine ends_ite (fun _ => ?_) fun _ => ends_pure _
      refine ends_get fun s _ _ => ends_bind (ends_fieldType hr fuel m wire (by omega)) fun _ => ?_
      refine ends_get fun s _ _ => ends_ite (fun _ => ends_pure _) fun _ => ?_
      refine ends_ite (fun _ => ends_fail _ _) fun _ => ends_bind ends_ws fun _ => ?_
      have hrest : Ends m r (fields E ref fuel) := ends_fields hr fuel m (by omega)
      refine ends_get fun s hs _ => ends_ite (fun _ => ?_) fun _ => hrest
      exact ends_bind (ends_move (drop_le hs 1)) fun _ => hrest
end

end

/-! ## Names -/

/-- `i_rant_defs_add_text` reads one standard type deeper. -/
def Registry.deeper (r : Registry) : Registry := { r with recDepth := r.recDepth + 1 }

theorem Grown.deeper {r' : Registry} (h : Grown r r') : Grown r.deeper r'.deeper :=
  ⟨h.arena, h.writer, h.defs, h.owned, congrArg (· + 1) h.recDepth, h.standalone⟩

theorem Grown.back {r' : Registry} (h : Grown r.deeper r') :
    Grown r { r' with recDepth := r'.recDepth - 1 } :=
  ⟨h.arena, h.writer, h.defs, h.owned, by
    dsimp only
    rw [h.recDepth]
    rfl, h.standalone⟩

theorem ends_addText {ref : Bytes → Parser (Option (Nat × Nat))} (hr : RefEnds r.deeper ref)
    (name text : Bytes) : Ends n r (addText E ref name text) := by
  intro s hn hg
  unfold addText
  rw [wp_bind, wp_modify, wp_bind]
  refine wp_mono (ends_withText (n := n) (r := r.deeper) (ends_withBuilder E ?_)
    { s with defs := s.defs.deeper } hn hg.deeper) fun x s' h => ?_
  · refine ends_bind (ends_fieldType E hr _ _ _ (Nat.lt_succ_self _)) fun _ => ?_
    refine ends_bind ends_ws fun _ => ends_get fun s _ _ => ?_
    exact ends_ite (fun _ => ends_fail _ _) fun _ => ends_pure _
  · obtain ⟨⟨u, sb⟩, sd⟩ := x
    dsimp only
    rw [wp_bind]
    refine wp_mono (ends_ite (n := n) (r := r.deeper) (fun _ => ends_addBytes E _ _)
      (fun _ => ends_pure _) s' h.1 h.2) fun ok t ht => ?_
    rw [wp_bind, wp_modify, wp_pure]
    exact ⟨ht.1, ht.2.back⟩

/-- With so many standard types left to nest, resolving a name ends. -/
theorem ends_ref : ∀ (k : Nat) {r : Registry}, 8 ≤ k + r.recDepth → RefEnds r (dslRef E k)
  | k, r, hk => by
    intro n name
    unfold dslRef
    refine ends_get fun s _ hg => ?_
    cases defsFind s.defs name with
    | some place => exact ends_pure _
    | none =>
      dsimp only
      split
      next => exact ends_pure _
      next text _ =>
        refine ends_ite (fun _ => ends_pure _) fun hdeep => ?_
        rw [hg.recDepth] at hdeep
        cases k with
        | zero => omega
        | succ k =>
          have hsub : RefEnds r.deeper (dslRef E k) := ends_ref k (by
            unfold Registry.deeper
            dsimp only
            omega)
          refine ends_bind (ends_addText E hsub name text) fun ok => ends_ite (fun _ => ?_) fun _ => ends_pure _
          exact ends_get fun s _ _ => ends_pure _

/-! ## Statements -/

theorem ends_wireAround (name type : Bytes) : Ends n r (wireAround E name type) :=
  ends_bind (ends_ask E) fun _ => ends_ite (fun _ => ends_pure _) fun _ => ends_pure _

section
variable {ref : Bytes → Parser (Option (Nat × Nat))}

theorem ends_def (hr : RefEnds r ref) (name nameAt_ : Bytes) :
    Ends n r (dslDef E ref name nameAt_) := by
  unfold dslDef
  refine ends_get fun s _ _ => ends_bind (hr _ _) fun old => ends_get fun s hs _ => ?_
  refine ends_bind (ends_move (drop_le hs 1)) fun _ => ends_bind ends_ws fun _ => ?_
  refine ends_get_len fun s _ => ends_bind (ends_withBuilder E ?_) fun x => ?_
  · refine ends_ite (fun _ => ?_) fun _ => ?_
    · refine ends_bind (ends_openStruct E) fun _ => ?_
      refine ends_bind (ends_fields E hr _ _ (Nat.lt_succ_self _)) fun _ => ?_
      refine ends_bind (ends_expect _) fun ok => ends_ite (fun _ => ?_) fun _ => ends_pure _
      exact ends_modify (fun _ => rfl) (fun _ => rfl)
    · refine ends_bind (ends_modify (fun _ => rfl) (fun _ => rfl)) fun _ => ?_
      refine ends_bind (ends_fieldType E hr _ _ _ (Nat.lt_succ_self _)) fun _ => ?_
      refine ends_get fun s _ _ => ends_when (ends_fail _ _) ?_
      exact ends_get fun s _ _ => ends_ite (fun _ => ends_fail _ _) fun _ => ends_pure _
  · obtain ⟨u, sb⟩ := x
    refine ends_get fun s _ _ => ends_when (ends_fail _ _) ?_
    refine ends_get fun s _ _ => ends_ite (fun _ => ends_pure _) fun _ => ?_
    cases old with
    | some place =>
      refine ends_ite (fun _ => ends_pure _) fun _ => ?_
      exact ends_bind (ends_fail _ _) fun _ => ends_pure _
    | none =>
      refine ends_bind (ends_bind (ends_wireAround E _ _) fun w => ?_) fun why => ?_
      · cases w with
        | none => exact ends_pure _
        | some w => exact ends_pure _
      · cases why with
        | some why => exact ends_bind (ends_fail _ _) fun _ => ends_pure _
        | none =>
          refine ends_bind (ends_addBytes E _ _) fun ok => ends_get fun s _ _ => ?_
          exact ends_when (ends_fail _ _) (ends_pure _)

/-- A name that a definition follows is text gone. -/
theorem statementHead_short (s : Parse) (hs : s.d.p.length ≤ n) (hg : Grown r s.defs) :
    wp statementHead (fun a s' => (s'.d.p.length ≤ n ∧ Grown r s'.defs) ∧
      ∀ word, a = some (some word) → s'.d.p.length < n) s := by
  unfold statementHead
  rw [wp_bind, wp_get]
  refine wp_ite (fun _ => ?_) fun _ => ?_
  · rw [wp_pure]
    exact ⟨⟨hs, hg⟩, fun _ hc => by cases hc⟩
  · rw [wp_bind]
    refine wp_mono (shortens_ident s hs hg) fun a s' ⟨⟨hs', hg'⟩, hshort⟩ => ?_
    cases a with
    | none =>
      dsimp only
      rw [wp_pure]
      exact ⟨⟨hs', hg'⟩, fun _ hc => by cases hc⟩
    | some word =>
      have hlt := hshort (by simp)
      have htail : Ends s'.d.p.length r (do
          dslWs
          let s ← get
          if s.d.p.headD 0 = 123 ∨ s.d.p.headD 0 = 61 then pure (some (some word))
          else pure (some none)) := by
        refine ends_bind ends_ws fun _ => ends_get fun s _ _ => ?_
        exact ends_ite (fun _ => ends_pure _) fun _ => ends_pure _
      refine wp_mono (htail s' (Nat.le_refl _) hg') fun b t ht => ?_
      exact ⟨⟨Nat.le_trans ht.1 hs', ht.2⟩, fun _ _ => Nat.lt_of_le_of_lt ht.1 hlt⟩

/-- The statements are fewer than the bytes ahead. -/
theorem ends_statements (hr : RefEnds r ref) : ∀ (fuel n : Nat) (root : Root), n < fuel →
    Ends n r (statements E ref fuel root)
  | 0, _, _, h => absurd h (Nat.not_lt_zero _)
  | fuel + 1, n, root, h => by
    unfold statements
    refine ends_get fun s _ _ => ends_ite (fun _ => ends_pure _) fun _ => ?_
    refine ends_bind ends_ws fun _ => ends_get fun s hs _ => ends_ite (fun _ => ends_pure _) fun _ => ?_
    intro t ht hg
    rw [wp_bind]
    refine wp_mono (statementHead_short t ht hg) fun head t' ⟨⟨ht', hg'⟩, hshort⟩ => ?_
    cases head with
    | none => exact ends_pure root t' ht' hg'
    | some head =>
      cases head with
      | some word =>
        have hlt := hshort word rfl
        dsimp only
        cases typeNormalize word 256 with
        | none => exact ends_bind (ends_fail _ _) (fun _ => ends_pure _) t' ht' hg'
        | some twire =>
          refine wp_mono (ends_bind (n := t'.d.p.length) (ends_def E hr twire s.d.p) (fun place => ?_)
            t' (Nat.le_refl _) hg') fun a u hu => ⟨Nat.le_trans hu.1 ht', hu.2⟩
          exact ends_statements hr fuel _ _ (by omega)
      | none =>
        -- a type on its own is read again from its start
        refine ends_move_bind hs (ends_bind ?_ fun _ => ends_bind ends_ws fun _ => ?_) t' ht' hg'
        · exact ends_fieldType E hr _ _ _ (Nat.lt_succ_self _)
        · exact ends_get fun s _ _ => ends_when (ends_fail _ _) (ends_pure _)

end

/-! ## The compile -/

/-- `x` ends, and where it gives no schema the registry has only grown. -/
def Compiles (n : Nat) (r : Registry) (x : Parser (Option Schema)) : Prop :=
  ∀ s : Parse, s.d.p.length ≤ n → Grown r s.defs → wp x (fun a s' => a = none → Grown r s'.defs) s

theorem compiles_after {x : Parser β} {f : β → Parser (Option Schema)} (hx : Ends n r x)
    (hf : ∀ a, Compiles n r (f a)) : Compiles n r (x >>= f) := by
  intro s hn hr
  rw [wp_bind]
  exact wp_mono (hx s hn hr) fun a s' h => hf a s' h.1 h.2

theorem compiles_get {f : Parse → Parser (Option Schema)} (hf : ∀ s, Compiles n r (f s)) :
    Compiles n r (get >>= f) := compiles_after (ends_get fun _ _ _ => ends_pure _) hf

theorem compiles_none : Compiles n r (pure none) := by
  intro s _ hr
  rw [wp_pure]
  exact fun _ => hr

theorem compiles_some (o : Schema) : Compiles n r (pure (some o)) := by
  intro s _ _
  rw [wp_pure]
  exact fun hc => by cases hc

theorem compiles_ite [Decidable c] {x y : Parser (Option Schema)}
    (hx : Compiles n r x) (hy : Compiles n r y) : Compiles n r (if c then x else y) := by
  split
  next => exact hx
  next => exact hy

theorem compiles_when [Decidable c] {x : Parser Unit} {y : Parser (Option Schema)}
    (hx : Ends n r x) (hy : Compiles n r y) :
    Compiles n r (if c then x >>= fun _ => y else y) :=
  compiles_ite (compiles_after hx fun _ => hy) hy

/-- A schema is kept where it is given, and nowhere else. -/
theorem compiles_parse (wire : Bytes) : Compiles n r (registryParse E wire) := by
  unfold registryParse
  refine compiles_get fun s => ?_
  split
  next o _ => exact compiles_some o
  refine compiles_after (ends_ask E) fun ok => compiles_ite ?_ compiles_none
  cases schemaParse wire with
  | none => exact compiles_none
  | some o =>
    refine compiles_after (ends_ask E) fun ok => compiles_ite ?_ compiles_none
    intro t _ _
    rw [wp_bind, wp_modify, wp_pure]
    exact fun hc => by cases hc

theorem compiles_body (text : Bytes) (hn : n = text.length) :
    Compiles n r (compileBody E text) := by
  unfold compileBody
  refine compiles_after (ends_bind (ends_ask E) fun _ => ends_pure _) fun root => ?_
  refine compiles_after (ends_modify (fun _ => rfl) (fun _ => rfl)) fun _ => compiles_get fun s => ?_
  refine compiles_when (ends_fail _ _) (compiles_when (ends_fail _ _) ?_)
  have hstat : Ends n r (statements E (dslRef E 8) (text.length + 1) .empty) :=
    ends_statements E (ends_ref E 8 (by omega)) _ n .empty (by omega)
  refine compiles_after hstat fun root => compiles_get fun s => compiles_when (ends_fail _ _) ?_
  refine compiles_get fun s => compiles_when (ends_fail _ _) (compiles_get fun s => ?_)
  refine compiles_when (ends_fail _ _) (compiles_get fun s => compiles_ite compiles_none ?_)
  refine compiles_after (ends_wireAround E _ _) fun w => ?_
  cases w with
  | none => exact compiles_after (ends_fail _ _) fun _ => compiles_none
  | some w =>
    intro t ht hg
    rw [wp_bind]
    refine wp_mono (compiles_parse E w t ht hg) fun o t' hkeep => ?_
    cases o with
    | some o => exact wp_pure.mpr fun hc => by cases hc
    | none =>
      have hg' := hkeep rfl
      have hfail : ∀ at_ why, Compiles t'.d.p.length r (dslFail at_ why >>= fun _ => pure none) :=
        fun _ _ => compiles_after (ends_fail _ _) fun _ => compiles_none
      dsimp only
      cases wireWhy w with
      | some why => exact hfail text why t' (Nat.le_refl _) hg'
      | none => exact compiles_get (fun s => hfail _ _) t' (Nat.le_refl _) hg'

end Rules

/-- The registry, its arena's latch cleared. -/
def Registry.unlatched (r : Registry) : Registry := { r with arena := { r.arena with err := 0 } }

theorem prefix_take {α : Type} {a b : List α} (h : a <+: b) : b.take a.length = a := by
  obtain ⟨c, rfl⟩ := h
  rw [List.take_left]

/-- Cutting the arena and the definitions back undoes what was added. -/
theorem Grown.rollback {r r' : Registry} (h : Grown r r') :
    { r' with
      arena := { r'.arena with buf := r'.arena.buf.take r.arena.buf.length, err := 0 }
      defs := r'.defs.take r.defs.length } = r.unlatched := by
  obtain ⟨harena, hwriter, hdefs, howned, hrec, hstd⟩ := h
  cases r
  cases r'
  simp only [Registry.unlatched] at *
  subst howned hrec hstd
  rw [prefix_take harena, prefix_take hdefs, ← hwriter]

/-- Every compile ends, and one that gives no schema restores the registry it was given. -/
theorem registryCompile_fails (E : Env) (r : Registry) (text : Bytes) :
    ∃ c, registryCompile E r text = some c ∧ (c.schema = none → c.registry = r.unlatched) := by
  have h := compiles_body (r := r) E text rfl { d := { p := text }, b := {}, defs := r }
    (Nat.le_refl _) (grown_refl r)
  obtain ⟨a, s', hrun, hkeep⟩ := h
  unfold registryCompile
  rw [hrun]
  cases a with
  | some o => exact ⟨_, rfl, fun hc => by cases hc⟩
  | none => exact ⟨_, rfl, fun _ => (hkeep rfl).rollback⟩

/-- The schema a compile gives. -/
def compiledSchema (E : Env) (r : Registry) (text : Bytes) : Option (Option Schema) :=
  (registryCompile E r text).map Compiled.schema

/-- A failed compile leaves the definitions, the used bytes of the arena and the schemas handed
out as they were, and clears the failure its arena had latched. Where none was, every later
compile goes as if the failed one had never been called. -/
theorem compile_atomic (E : Env) (r : Registry) (text : Bytes) :
    ∃ c, registryCompile E r text = some c ∧ (c.schema = none →
      c.registry.defs = r.defs ∧ c.registry.arena.buf = r.arena.buf ∧
      c.registry.owned = r.owned ∧ c.registry.arena.err = 0 ∧
      (r.arena.err = 0 → ∀ E' later, compiledSchema E' c.registry later =
        compiledSchema E' r later)) := by
  obtain ⟨c, hc, hfail⟩ := registryCompile_fails E r text
  refine ⟨c, hc, fun hnone => ?_⟩
  rw [hfail hnone]
  refine ⟨rfl, rfl, rfl, rfl, fun herr E' later => ?_⟩
  have hsame : r.unlatched = r := by
    unfold Registry.unlatched
    rw [← herr]
  rw [hsame]

/-- Memory for every request, and no standard types. -/
def roomy : Env := { room := fun _ => true, std := fun _ => none }

/-- A registry that defines `A = u8`. -/
def oneDef : Registry :=
  { arena := { buf := [65, 0] }, defs := [{ noff := 0, nlen := 1, toff := 1, tlen := 1 }] }

/-- `B=u16 C{x:Z}` defines `B` before it fails on `Z`; `A` compiles after it as before. -/
theorem compile_atomic_unknown : ∃ c,
    registryCompile roomy oneDef [66, 61, 117, 49, 54, 32, 67, 123, 120, 58, 90, 125] = some c ∧
    c.schema = none ∧ c.registry.defs.length = 1 ∧
    compiledSchema roomy c.registry [65] = compiledSchema roomy oneDef [65] := by
  obtain ⟨c, hc, hkeep⟩ := compile_atomic roomy oneDef
    [66, 61, 117, 49, 54, 32, 67, 123, 120, 58, 90, 125]
  have hnone : c.schema = none := by
    have hrun : compiledSchema roomy oneDef
        [66, 61, 117, 49, 54, 32, 67, 123, 120, 58, 90, 125] = some none := by decide +kernel
    unfold compiledSchema at hrun
    rw [hc] at hrun
    exact Option.some.inj hrun
  obtain ⟨hdefs, -, -, -, hlater⟩ := hkeep hnone
  exact ⟨c, hc, hnone, congrArg List.length hdefs, hlater rfl roomy [65]⟩

/-- What a failed compile would leave if it cleared nothing. -/
def FailsUnseen (E : Env) (r : Registry) (text : Bytes) : Prop :=
  ∀ c, registryCompile E r text = some c → c.schema = none →
    c.registry.defs = r.defs ∧ c.registry.arena.buf = r.arena.buf ∧ c.registry.owned = r.owned ∧
    ∀ E' later, compiledSchema E' c.registry later = compiledSchema E' r later

/-- An arena that was begun when memory ran out fails one compile, and no more. -/
theorem latch_seen : ¬ ∀ E r text, FailsUnseen E r text := by
  intro h
  obtain ⟨c, hc, hkeep⟩ := registryCompile_fails roomy { arena := { err := -1 } } [117, 56]
  have hfirst : compiledSchema roomy { arena := { err := -1 } } [117, 56] = some none := by
    decide +kernel
  have hnone : c.schema = none := by
    have hrun := hfirst
    unfold compiledSchema at hrun
    rw [hc] at hrun
    exact Option.some.inj hrun
  obtain ⟨-, -, -, hlater⟩ := h _ _ _ c hc hnone
  have hsecond := hlater roomy [117, 56]
  rw [hkeep hnone, hfirst] at hsecond
  exact absurd hsecond (by decide +kernel)

end Rant.Serialize
