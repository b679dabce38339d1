import Rant.Serialize.Read
/-!
# Reading by path

The walks behind a path end too: its spelling, the search for a child, the indices, and
the option table of an enum, which is read from the schema's own wire. So every getter
answers, whatever the path and the bytes.
-/

namespace Rant.Serialize

open Rant.Lib

/-! ## The spelling of a path -/

theorem takeWhile_name_pos {c : UInt8} (cs : Bytes) (h46 : c ≠ 46) (h91 : c ≠ 91) :
    0 < ((c :: cs).takeWhile (!endsName ·)).length := by
  have hc : (!endsName c) = true := by simp [endsName, h46, h91]
  rw [List.takeWhile_cons_of_pos (p := (!endsName ·)) hc]
  exact Nat.succ_pos _

variable {n : Nat}

/-- Normalizing a path ends. -/
theorem pathNormalize_ends : ∀ (path : Bytes) (cap : Nat), path.length < n →
    ∃ o, pathNormalize n path cap = some o := by
  induction n with
  | zero => intro path cap h; exact absurd h (Nat.not_lt_zero _)
  | succ n ih =>
    intro path cap h
    cases path with
    | nil => exact ⟨_, rfl⟩
    | cons c cs =>
      rw [List.length_cons] at h
      unfold pathNormalize
      dsimp only
      split
      next =>
        split
        next => exact ⟨_, rfl⟩
        next =>
          obtain ⟨o, ho⟩ := ih cs (cap - 1) (by omega)
          exact ⟨_, congrArg (Option.map _) ho⟩
      next h46 =>
        split
        next =>
          split
          next => exact ⟨_, rfl⟩
          refine ⟨_, congrArg (Option.map _) (ih _ _ ?_).choose_spec⟩
          rw [List.length_drop]
          omega
        next h91 =>
          split
          next => exact ⟨_, rfl⟩
          split
          next => exact ⟨_, rfl⟩
          have hpos := takeWhile_name_pos cs h46 h91
          refine ⟨_, congrArg (Option.map _) (ih _ _ ?_).choose_spec⟩
          rw [List.length_drop, List.length_cons]
          omega

/-! ## The walk -/

section
variable {s : Schema} {t₀ : Table}

namespace Built

variable (hb : Built s t₀)
include hb

theorem childFrom_ends {name : Bytes} {stop n : Nat} (hstop : stop ≤ s.nfields) :
    ∀ {j : Nat}, stop < j + n → 0 < n → ∃ o, childFrom s name n j stop = some o ∧
      ∀ f, o = some f → f < s.nfields := by
  induction n with
  | zero => intro j _ hn; exact absurd hn (Nat.lt_irrefl 0)
  | succ n ih =>
    intro j hj _
    unfold childFrom
    split
    next hlt =>
      split
      next =>
        refine ⟨_, rfl, fun f hf => ?_⟩
        obtain rfl := Option.some.inj hf
        omega
      next =>
        have hnext := hb.lt_next (j := j) (by omega)
        exact ih (by omega) (by omega)
    next => exact ⟨_, rfl, fun f hf => by cases hf⟩

theorem schemaChild_ends {p : Option Nat} (name : Bytes)
    (hp : ∀ q, p = some q → q < s.nfields) :
    ∃ o, schemaChild s p name = some o ∧ ∀ f, o = some f → f < s.nfields := by
  cases p with
  | none => exact hb.childFrom_ends (Nat.le_refl _) (by omega) (Nat.succ_pos _)
  | some q =>
    have hle := hb.next_le (hp q rfl)
    exact hb.childFrom_ends hle (by omega) (Nat.succ_pos _)

/-- A step into an array's element stays in the table. -/
theorem elem_lt {a : Nat} (ha : a < s.nfields) (hk : (s.row a).kind.isArray = true) :
    a + 1 < s.nfields := (hb.elem ha hk).1

theorem intoElems_lt {room : Nat} : ∀ {cur : Nat} {got : List Nat} {cur' : Nat} {got' : List Nat},
    cur < s.nfields → intoElems s room cur got = some (cur', got') → cur' < s.nfields := by
  induction room with
  | zero =>
    intro cur got cur' got' hcur h
    unfold intoElems at h
    split at h
    next => cases h
    simp only [Option.some.injEq, Prod.mk.injEq] at h
    rw [← h.1]
    exact hcur
  | succ room ih =>
    intro cur got cur' got' hcur h
    unfold intoElems at h
    split at h
    next hk => exact ih (hb.elem_lt hcur hk) h
    simp only [Option.some.injEq, Prod.mk.injEq] at h
    rw [← h.1]
    exact hcur

theorem indexSteps_lt {room : Nat} : ∀ {cur : Nat} {got : List Nat} {path : Bytes} {cur' : Nat}
    {got' : List Nat} {rest : Bytes}, cur < s.nfields →
    indexSteps s room cur got path = some (cur', got', rest) →
    cur' < s.nfields ∧ rest.length ≤ path.length := by
  induction room with
  | zero =>
    intro cur got path cur' got' rest hcur h
    rw [indexSteps.eq_def] at h
    split at h
    next p =>
      split at h
      next heq => cases heq
      next => cases h
    next =>
      simp only [Option.some.injEq, Prod.mk.injEq] at h
      obtain ⟨rfl, -, rfl⟩ := h
      exact ⟨hcur, Nat.le_refl _⟩
  | succ room ih =>
    intro cur got path cur' got' rest hcur h
    rw [indexSteps.eq_def] at h
    split at h
    next p =>
      split at h
      next idx rest' room' hidx heq =>
        obtain rfl : room = room' := Nat.succ.inj heq
        split at h
        next => cases h
        next hk =>
          rw [Bool.not_eq_false] at hk
          obtain ⟨h1, h2⟩ := ih (hb.elem_lt hcur hk) h
          refine ⟨h1, ?_⟩
          have hle : rest'.length ≤ p.length := by
            unfold indexStep at hidx
            dsimp only at hidx
            split at hidx
            next hdrop =>
              simp only [Option.some.injEq, Prod.mk.injEq] at hidx
              rw [← hidx.2]
              have := congrArg List.length hdrop
              rw [List.length_drop, List.length_cons] at this
              omega
            next => cases hidx
          rw [List.length_cons]
          omega
      next => cases h
    next =>
      simp only [Option.some.injEq, Prod.mk.injEq] at h
      obtain ⟨rfl, -, rfl⟩ := h
      exact ⟨hcur, Nat.le_refl _⟩

theorem pathParent_lt {cur : Option Nat} {got : List Nat} {seg : Bytes} {parent : Option Nat}
    {got' : List Nat} (hcur : ∀ q, cur = some q → q < s.nfields)
    (h : pathParent s cur got seg = some (parent, got')) :
    ∀ q, parent = some q → q < s.nfields := by
  unfold pathParent at h
  cases cur with
  | none =>
    simp only [Option.some.injEq, Prod.mk.injEq] at h
    intro q hq
    cases h.1.trans hq
  | some c =>
    simp only [Option.bind_eq_bind] at h
    obtain ⟨⟨c', g⟩, hinto, h⟩ := Option.bind_eq_some_iff.mp h
    dsimp only at h
    split at h
    next => cases h
    simp only [Option.some.injEq, Prod.mk.injEq] at h
    intro q hq
    obtain rfl := Option.some.inj (h.1.trans hq)
    exact hb.intoElems_lt (hcur c rfl) hinto

/-- The walk of a path ends, at a row with one index for each array around it. -/
theorem pathWalk_ends {n : Nat} : ∀ {cur : Option Nat} {got : List Nat} {path : Bytes},
    (∀ q, cur = some q → q < s.nfields) → path.length < n →
    ∃ o, pathWalk s n cur got path = some o ∧
      ∀ f elems, o = some (f, elems) → f < s.nfields ∧ elems.length = (s.row f).arrDepth := by
  induction n with
  | zero => intro cur got path _ h; exact absurd h (Nat.not_lt_zero _)
  | succ n ih =>
    intro cur got path hcur hlen
    unfold pathWalk
    dsimp only
    split
    next => exact ⟨none, rfl, fun f elems h => by cases h⟩
    next parent got₁ hpar =>
      obtain ⟨o, ho, hlt⟩ := hb.schemaChild_ends (path.takeWhile (!endsName ·))
        (hb.pathParent_lt hcur hpar)
      rw [ho]
      cases o with
      | none => exact ⟨none, rfl, fun f elems h => by cases h⟩
      | some c =>
        have hc := hlt c rfl
        dsimp only
        split
        next => exact ⟨none, rfl, fun f elems h => by cases h⟩
        next c' got' hsteps =>
          have hc' := (hb.indexSteps_lt hc hsteps).1
          refine ⟨_, rfl, fun f elems h => ?_⟩
          split at h
          next hdepth =>
            simp only [Option.some.injEq, Prod.mk.injEq] at h
            obtain ⟨rfl, rfl⟩ := h
            exact ⟨hc', hdepth⟩
          next => cases h
        next c' got' rest hsteps =>
          obtain ⟨hc', hrest⟩ := hb.indexSteps_lt hc hsteps
          rw [List.length_cons, List.length_drop] at hrest
          refine ih (fun q hq => ?_) (by omega)
          obtain rfl := Option.some.inj hq
          exact hc'
        next => exact ⟨none, rfl, fun f elems h => by cases h⟩

theorem fieldByPath_ends (path : Bytes) : ∃ o, fieldByPath s path = some o ∧
    ∀ f elems, o = some (f, elems) → f < s.nfields ∧ elems.length = (s.row f).arrDepth := by
  obtain ⟨o, ho⟩ := pathNormalize_ends path 512 (Nat.lt_succ_self _)
  unfold fieldByPath
  rw [ho]
  cases o with
  | none => exact ⟨none, rfl, fun f elems h => by cases h⟩
  | some wire => exact hb.pathWalk_ends (fun q hq => by cases hq) (Nat.lt_succ_self _)

end Built

end

/-! ## The option table -/

variable {w : Bytes}

theorem skipOptions_le {bs : Nat} : ∀ {pos pos' : Nat},
    skipOptions w bs n pos = some pos' → pos ≤ w.length → pos ≤ pos' ∧ pos' ≤ w.length := by
  induction n with
  | zero =>
    intro pos pos' h hle
    obtain rfl := Option.some.inj h
    exact ⟨Nat.le_refl _, hle⟩
  | succ n ih =>
    intro pos pos' h _
    simp only [skipOptions, Option.bind_eq_bind] at h
    obtain ⟨p₁, h₁, h⟩ := Option.bind_eq_some_iff.mp h
    obtain ⟨⟨nl, p₂⟩, h₂, h⟩ := Option.bind_eq_some_iff.mp h
    obtain ⟨p₃, h₃, h⟩ := Option.bind_eq_some_iff.mp h
    have e₁ := rdSkip_le h₁
    have e₂ := rdU8_le h₂
    have e₃ := rdSkip_le h₃
    have e₄ := ih h e₃.2
    omega

variable {pos : Nat}

/-- Where a tag's kind byte is, told as the option table is looked for. -/
theorem typeTag_le {tn : Bytes} {k body : Nat}
    (h : typeTag w pos = some (tn, k, body)) : pos < body ∧ body ≤ w.length ∧
      ((body = pos + 1 ∧ ∃ b, readLe w pos 1 = some b ∧ b ≠ 18) ∨
        ∃ nl, readLe w pos 1 = some 18 ∧ readLe w (pos + 1) 1 = some nl ∧
          body = pos + 2 + nl + 1) := by
  simp only [typeTag, Option.bind_eq_bind] at h
  obtain ⟨⟨b, p₁⟩, h₁, h⟩ := Option.bind_eq_some_iff.mp h
  obtain ⟨e₁, e₂, e₃⟩ := rdU8_le h₁
  dsimp only at h
  split at h
  next hb =>
    simp only [Option.some.injEq, Prod.mk.injEq] at h
    obtain ⟨-, -, rfl⟩ := h
    exact ⟨by omega, e₂, Or.inl ⟨e₁, b, e₃, hb⟩⟩
  next hb =>
    rw [ne_eq, Decidable.not_not] at hb
    subst hb
    obtain ⟨⟨nl, p₂⟩, h₂, h⟩ := Option.bind_eq_some_iff.mp h
    obtain ⟨p₃, h₃, h⟩ := Option.bind_eq_some_iff.mp h
    obtain ⟨f₁, f₂, f₃⟩ := rdU8_le h₂
    have f₄ := rdSkip_le h₃
    split at h
    next => cases h
    obtain ⟨⟨k', p₄⟩, h₄, h⟩ := Option.bind_eq_some_iff.mp h
    obtain ⟨g₁, g₂, -⟩ := rdU8_le h₄
    dsimp only at h
    split at h
    next => cases h
    simp only [Option.some.injEq, Prod.mk.injEq] at h
    obtain ⟨-, -, rfl⟩ := h
    rw [e₁] at f₃
    exact ⟨by omega, g₂, Or.inr ⟨nl, e₃, f₃, by omega⟩⟩

/-- A leaf's wire lies inside the wire. -/
theorem leafWire_le {f : Field} {pos' : Nat} (h : LeafWire w f pos pos')
    (hpos : pos ≤ w.length) : pos ≤ pos' ∧ pos' ≤ w.length := by
  unfold LeafWire at h
  split at h
  next =>
    have := rdU16_le h
    omega
  next =>
    obtain ⟨b, p₁, p₂, h₁, -, h₂, h₃⟩ := h
    have e₁ := rdU8_le h₁
    have e₂ := rdU16_le h₂
    have e₃ := skipOptions_le h₃ e₂.2
    omega
  next => exact absurd h id
  next => exact absurd h id
  next => exact absurd h id
  next => exact absurd h id
  next =>
    rw [h]
    exact ⟨Nat.le_refl _, hpos⟩

/-- What a spelling spells lies inside the wire. -/
theorem Spelled.inside {T : Nat → Field} {mem : Option Nat} {i pos' : Nat}
    (h : Spelled w T mem i n pos pos') (hpos : pos ≤ w.length) : pos ≤ pos' ∧ pos' ≤ w.length := by
  induction h with
  | leaf ht hl =>
    obtain ⟨k, htag, -⟩ := ht.tag
    have e₁ := typeTag_le htag
    have e₂ := leafWire_le hl e₁.2.1
    omega
  | @array i n pos body epos pos' ht ha _ hrec ih =>
    obtain ⟨k, htag, -⟩ := ht.tag
    have e₁ := typeTag_le htag
    have e₂ : body ≤ epos ∧ epos ≤ w.length := by
      rcases ha with ⟨-, hc⟩ | ⟨-, -, hc⟩
      · have := rdU16_le hc
        omega
      · rw [hc]
        exact ⟨Nat.le_refl _, e₁.2.1⟩
    have e₃ := ih e₂.2
    omega
  | struct ht _ hnf _ ih =>
    obtain ⟨k, htag, -⟩ := ht.tag
    have e₁ := typeTag_le htag
    have e₂ := rdU8_le hnf
    have e₃ := ih e₂.2.1
    omega
  | nil => exact ⟨Nat.le_refl _, hpos⟩
  | cons hnl hskip _ _ _ ih ih' =>
    have e₁ := rdU8_le hnl
    have e₂ := rdSkip_le hskip
    have e₃ := ih e₂.2
    have e₄ := ih' e₃.2
    omega

/-- Every row of a spelling is one type of it. -/
theorem Spelled.block {T : Nat → Field} {mem : Option Nat} {i pos' : Nat}
    (h : Spelled w T mem i n pos pos') (hpos : pos ≤ w.length) {j : Nat} (hlo : i ≤ j)
    (hhi : j < n) : ∃ p', (T j).typeOff ≤ w.length ∧ (T j).typeOff + (T j).typeLen = p' ∧
      Spelled w T none j (T j).next (T j).typeOff p' := by
  have hself : ∀ {i n pos body pos' : Nat}, TagOk w (T i) n pos body pos' → pos ≤ w.length →
      Spelled w T none i n pos pos' → ∃ p', (T i).typeOff ≤ w.length ∧
        (T i).typeOff + (T i).typeLen = p' ∧ Spelled w T none i (T i).next (T i).typeOff p' := by
    intro i n pos body pos' ht hpos hsp
    have hle := hsp.inside hpos
    refine ⟨pos', ?_, ?_, ?_⟩
    · rw [ht.typeOff]
      exact hpos
    · rw [ht.typeOff, ht.typeLen]
      omega
    · rw [ht.typeOff, ht.next]
      exact hsp
  induction h with
  | @leaf i pos body pos' ht hl =>
    obtain rfl : j = i := by omega
    exact hself ht hpos (.leaf ht hl)
  | @array i n pos body epos pos' ht ha hname hrec ih =>
    by_cases hj : j = i
    · subst hj
      exact hself ht hpos (.array ht ha hname hrec)
    obtain ⟨k, htag, -⟩ := ht.tag
    have e₁ := typeTag_le htag
    have e₂ : epos ≤ w.length := by
      rcases ha with ⟨-, hc⟩ | ⟨-, -, hc⟩
      · exact (rdU16_le hc).2
      · rw [hc]
        exact e₁.2.1
    exact ih e₂ (by omega) hhi
  | @struct i n pos body nf mpos pos' ht hk hnf hrec ih =>
    by_cases hj : j = i
    · subst hj
      exact hself ht hpos (.struct ht hk hnf hrec)
    · exact ih (rdU8_le hnf).2.1 (by omega) hhi
  | nil => omega
  | @cons i m n k nl pos p₁ p₂ p₃ pos' hnl hskip hname hfst hrest ih ih' =>
    have e₂ := (rdSkip_le hskip).2
    by_cases hj : j < m
    · exact ih e₂ hlo hj
    · exact ih' (hfst.inside e₂).2 (by omega) hhi

/-- Hopping options reads inside the wire. -/
theorem enumVariantFrom_ends {backing : Kind} {stop : Nat} (hstop : stop ≤ w.length) :
    ∀ {i pos : Nat}, ∃ o, enumVariantFrom w backing stop i pos = some o := by
  intro i
  induction i with
  | zero =>
    intro pos
    unfold enumVariantFrom
    split
    next => exact ⟨_, rfl⟩
    next hpos =>
      obtain ⟨nl, hnl⟩ := readLe_of_le (m := w) (n := 1) (i := pos + backing.scalarSize) (by omega)
      rw [hnl]
      dsimp only
      split
      next => exact ⟨_, rfl⟩
      next hle =>
        obtain ⟨v, hv⟩ := enumReadVal_some backing w pos (by omega)
        obtain ⟨b, hb⟩ := bytesAt_some w ⟨pos + backing.scalarSize + 1, nl⟩ (by
          show pos + backing.scalarSize + 1 + nl ≤ _
          omega)
        rw [hv, hb]
        exact ⟨_, rfl⟩
  | succ i ih =>
    intro pos
    unfold enumVariantFrom
    split
    next => exact ⟨_, rfl⟩
    next hpos =>
      obtain ⟨nl, hnl⟩ := readLe_of_le (m := w) (n := 1) (i := pos + backing.scalarSize) (by omega)
      rw [hnl]
      exact ih

section
variable {s : Schema} {t₀ : Table}

namespace Built

variable (hb : Built s t₀)
include hb

variable {f : Nat}

/-- A row's spelling in the schema's own table. -/
theorem spelledRow (hf : f < s.nfields) :
    ∃ p', (s.row f).typeOff ≤ s.wire.length ∧ (s.row f).typeOff + (s.row f).typeLen = p' ∧
      Spelled s.wire (rowOf t₀) none f (s.row f).next (s.row f).typeOff p' := by
  obtain ⟨mem, pos, pos', hsp, -, hpos⟩ := hb.spelled
  obtain ⟨p', h1, h2, h3⟩ := hsp.block hpos (Nat.zero_le f) (by rw [hb.length]; exact hf)
  have hsame := hb.placed.same.row f
  unfold SameRow at hsame
  unfold Schema.row
  rw [hsame]
  exact ⟨p', h1, h2, h3⟩

/-- An enum's option table starts inside its type's wire. -/
theorem optionsPos_some (hf : f < s.nfields) :
    ∃ pos, optionsPos s f = some pos := by
  obtain ⟨p', hoff, hlen, hsp⟩ := hb.spelledRow hf
  obtain ⟨n, hn⟩ : ∃ n, n = (s.row f).next := ⟨_, rfl⟩
  rw [← hn] at hsp
  have htag : ∃ tn k body, typeTag s.wire (s.row f).typeOff = some (tn, k, body) := by
    cases hsp with
    | leaf ht _ =>
      obtain ⟨k, htag, -⟩ := ht.tag
      exact ⟨_, _, _, htag⟩
    | array ht _ _ _ =>
      obtain ⟨k, htag, -⟩ := ht.tag
      exact ⟨_, _, _, htag⟩
    | struct ht _ _ _ =>
      obtain ⟨k, htag, -⟩ := ht.tag
      exact ⟨_, _, _, htag⟩
  obtain ⟨tn, k, body, htag⟩ := htag
  unfold optionsPos
  rcases typeTag_le htag with ⟨-, -, ⟨-, b, hb', hne⟩ | ⟨nl, h18, hnl, -⟩⟩
  · rw [hb']
    split
    next heq => cases heq
    next heq => exact absurd (Option.some.inj heq) hne
    next => exact ⟨_, rfl⟩
  · rw [h18]
    exact ⟨_, congrArg (Option.map _) hnl⟩

theorem enumVariant_ends (hf : f < s.nfields) (i : Nat) :
    ∃ o, enumVariant s f i = some o := by
  unfold enumVariant
  split
  next => exact ⟨_, rfl⟩
  obtain ⟨pos, hpos⟩ := hb.optionsPos_some hf
  obtain ⟨p', hoff, hlen, hsp⟩ := hb.spelledRow hf
  rw [hpos]
  have hin := (hsp.inside hoff).2
  exact enumVariantFrom_ends (by omega)

theorem enumNameFrom_ends (hf : f < s.nfields) (v : Int) {n : Nat} :
    ∀ {i : Nat}, ∃ name, enumNameFrom s f v n i = some name := by
  induction n with
  | zero => intro i; exact ⟨_, rfl⟩
  | succ n ih =>
    intro i
    obtain ⟨o, ho⟩ := hb.enumVariant_ends hf i
    unfold enumNameFrom
    rw [ho]
    cases o with
    | none => exact ih
    | some p =>
      dsimp only
      split
      next => exact ⟨_, rfl⟩
      next => exact ih

/-! ## The getters -/

variable {msg : Bytes}

theorem readLookup_ends (msg path : Bytes) (cr : Option (List Carry)) :
    ∃ o, readLookup s msg path cr = some o ∧ ∀ f sp cr', o = some (f, sp, cr') →
      f < s.nfields ∧ sp.stop ≤ msg.length ∧ (s.row f).size ≤ sp.len := by
  obtain ⟨o, ho, hlt⟩ := hb.fieldByPath_ends path
  unfold readLookup
  rw [ho]
  cases o with
  | none => exact ⟨none, rfl, fun f sp cr' h => by cases h⟩
  | some p =>
    obtain ⟨hf, -⟩ := hlt p.1 p.2 rfl
    obtain ⟨o, ho, hsp⟩ := hb.resolve_ends msg p.2 cr hf
    dsimp only
    rw [ho]
    refine ⟨_, rfl, fun f sp cr' h => ?_⟩
    obtain ⟨found, hfound, hpair⟩ := Option.map_eq_some_iff.mp h
    simp only [Prod.mk.injEq] at hpair
    obtain ⟨rfl, rfl⟩ := hpair
    exact ⟨hf, hsp _ _ hfound⟩

/-- A getter answers when its reader does at the rows and spans a path leads to. -/
theorem getBy_ends {α : Type} {zero : α} {read : Nat → Span → Option α} (path : Bytes)
    (hread : ∀ f sp, f < s.nfields → sp.stop ≤ msg.length → (s.row f).size ≤ sp.len →
      ∃ v, read f sp = some v) : ∃ v, getBy zero read s msg path = some v := by
  obtain ⟨o, ho, hsp⟩ := hb.readLookup_ends msg path none
  unfold getBy
  rw [ho]
  cases o with
  | none => exact ⟨zero, rfl⟩
  | some found =>
    obtain ⟨h1, h2, h3⟩ := hsp found.1 found.2.1 found.2.2 rfl
    exact hread _ _ h1 h2 h3

end Built

/-- Every getter answers at the path. -/
structure GettersAnswer (s : Schema) (msg path : Bytes) : Prop where
  uint : ∃ v, getUint s msg path = some v
  int : ∃ v, getInt s msg path = some v
  f64 : ∃ v, getF64 s msg path = some v
  f32 : ∃ v, getF32 s msg path = some v
  array : ∃ v, getArray s msg path = some v
  arrayCount : ∃ v, getArrayCount s msg path = some v
  string : ∃ v, getString s msg path = some v
  map : ∃ v, getMap s msg path = some v
  enum : ∃ v, getEnum s msg path = some v

theorem Built.getters_answer (hb : Built s t₀) (msg path : Bytes) : GettersAnswer s msg path where
  uint := by
    refine hb.getBy_ends path fun f sp hf hsp hsize => ?_
    split
    next hk =>
      obtain ⟨v, hv⟩ := hb.enumReadVal_ends hf hsp hsize hk
      exact ⟨_, congrArg (Option.map _) hv⟩
    next => exact readUint_some (hb.scalar_inside hf hsp hsize)
  int := by
    refine hb.getBy_ends path fun f sp hf hsp hsize => ?_
    split
    next hk => exact hb.enumReadVal_ends hf hsp hsize hk
    next => exact readInt_some (hb.scalar_inside hf hsp hsize)
  f64 := hb.getBy_ends path fun f sp hf hsp hsize => readFloat_some (hb.scalar_inside hf hsp hsize)
  f32 := by
    refine hb.getBy_ends path fun f sp hf hsp hsize => ?_
    split
    next => exact ⟨_, rfl⟩
    next hk =>
      rw [ne_eq, Decidable.not_not] at hk
      have := hb.scalar_inside hf hsp hsize
      rw [hk] at this
      exact readFloat_some this
  array := hb.getBy_ends path fun f sp _ hsp _ => arrayPacked_some hsp
  arrayCount := by
    refine hb.getBy_ends path fun f sp _ hsp _ => ?_
    split
    next => exact ⟨_, rfl⟩
    next =>
      obtain ⟨o, ho, -⟩ := arrayLive_ends (s := s) (a := f) hsp
      exact ⟨_, congrArg (Option.map _) ho⟩
  string := by
    refine hb.getBy_ends path fun f sp hf hsp hsize => ?_
    split
    next => exact bytesAt_some _ _ hsp
    split
    next => exact ⟨_, rfl⟩
    next hk =>
      rw [ne_eq, Decidable.not_not] at hk
      exact hb.strView_ends hf hsp hsize hk
  map := by
    refine hb.getBy_ends path fun f sp _ hsp _ => ?_
    split
    next => exact ⟨_, rfl⟩
    next => exact bytesAt_some _ _ hsp
  enum := by
    refine hb.getBy_ends path fun f sp hf hsp hsize => ?_
    split
    next => exact ⟨_, rfl⟩
    next hk =>
      rw [ne_eq, Decidable.not_not] at hk
      obtain ⟨v, hv⟩ := hb.enumReadVal_ends hf hsp hsize hk
      rw [hv]
      exact hb.enumNameFrom_ends hf v

end

end Rant.Serialize
