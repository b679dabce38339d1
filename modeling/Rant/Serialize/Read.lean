import Rant.Serialize.Table
/-!
# Reading hostile bytes

Whatever the bytes, no read of a message falls outside it and no walk runs on: each
function of the reading half answers, and a span it answers with lies inside the span it
was given. One lemma a function, each from the ones it calls.
-/

namespace Rant.Serialize

open Rant.Lib

/-! ## Chains of arrays -/

/-- The arrays around a row whose nearest one is given, outermost first. -/
inductive Chain (s : Schema) : Option Nat → List Nat → Prop
  | nil : Chain s none []
  | snoc {a l} : Chain s (s.row a).arrParent l → Chain s (some a) (l ++ [a])

theorem chainFrom_eq {s : Schema} {ap : Option Nat} {l : List Nat} (h : Chain s ap l) :
    ∀ {n : Nat} {acc : List Nat}, l.length ≤ n → chainFrom s n ap acc = some (l ++ acc) := by
  induction h with
  | nil => intro n acc _; rw [chainFrom.eq_def]; rfl
  | @snoc a l _ ih =>
    intro n acc hn
    rw [List.length_append, List.length_singleton] at hn
    cases n with
    | zero => omega
    | succ n =>
      show chainFrom s n (s.row a).arrParent (a :: acc) = _
      rw [ih (by omega), List.append_assoc]
      rfl

theorem chain_unique {s : Schema} {ap : Option Nat} {l : List Nat} (h : Chain s ap l) :
    ∀ {l' : List Nat}, Chain s ap l' → l = l' := by
  induction h with
  | nil =>
    intro l' h'
    cases h'
    rfl
  | snoc _ ih =>
    intro l' h'
    cases h' with
    | snoc h' => rw [ih h']

/-- One more array at the end of the descent. -/
theorem descend_snoc {s : Schema} {msg : Bytes} {a e : Nat} :
    ∀ {l es : List Nat} {rg : Span} {r : Option Nat} {cr : Option (List Carry)},
      l.length = es.length → descend s msg (l ++ [a]) (es ++ [e]) rg r cr =
        match descend s msg l es rg r cr with
        | none => none
        | some none => some none
        | some (some (rg, r, cr)) => descend s msg [a] [e] rg r cr := by
  intro l
  induction l with
  | nil =>
    intro es rg r cr h
    cases es with
    | nil => rfl
    | cons e' es => cases h
  | cons a' l ih =>
    intro es rg r cr h
    cases es with
    | nil => cases h
    | cons e' es =>
      simp only [List.cons_append, descend]
      cases locate s msg rg r a' cr with
      | none => rfl
      | some o =>
        cases o with
        | none => rfl
        | some found =>
          dsimp only
          cases arrayElem s msg a' found.1 e' found.2 with
          | none => rfl
          | some o =>
            cases o with
            | none => rfl
            | some found' => exact ih (Nat.succ.inj h)

section
variable {s : Schema} {t₀ : Table}

namespace Built

variable (hb : Built s t₀)
include hb

variable {f : Nat}

/-- The arrays around a row form a chain, as long as the row says. -/
theorem chain_exists (hf : f < s.nfields) :
    ∃ l, Chain s (s.row f).arrParent l ∧ l.length = (s.row f).arrDepth := by
  induction f using Nat.strongRecOn with
  | _ f ih =>
    rw [hb.arrDepth_eq hf]
    cases ha : (s.row f).arrParent with
    | none => exact ⟨[], .nil, rfl⟩
    | some a =>
      obtain ⟨-, hlt, -⟩ := hb.arrParent_around hf ha
      obtain ⟨l, hl, hlen⟩ := ih a hlt (by omega)
      refine ⟨l ++ [a], .snoc hl, ?_⟩
      rw [List.length_append, hlen]
      rfl

/-- The chain loop of `i_rant_resolve` finds a row's chain: it never runs out of room. -/
theorem chainOf_chain (hf : f < s.nfields) {l : List Nat}
    (h : Chain s (s.row f).arrParent l) : l.length = (s.row f).arrDepth ∧ chainOf s f = some l := by
  obtain ⟨l', hl', hlen⟩ := hb.chain_exists hf
  obtain rfl := chain_unique h hl'
  refine ⟨hlen, ?_⟩
  have hmax := hb.arrDepth_max hf
  unfold chainOf
  rw [chainFrom_eq h (by omega), List.append_nil]

theorem chainOf_eq (hf : f < s.nfields) :
    ∃ l, Chain s (s.row f).arrParent l ∧ l.length = (s.row f).arrDepth ∧ chainOf s f = some l := by
  obtain ⟨l, hl, -⟩ := hb.chain_exists hf
  obtain ⟨hlen, hchain⟩ := hb.chainOf_chain hf hl
  exact ⟨l, hl, hlen, hchain⟩

/-- A chain is made of arrays. -/
theorem chain_mem {ap : Option Nat} {l : List Nat} (h : Chain s ap l)
    (hap : ∀ a, ap = some a → a < s.nfields ∧ (s.row a).kind.isArray = true) :
    ∀ a, a ∈ l → a < s.nfields ∧ (s.row a).kind.isArray = true := by
  induction h with
  | nil => intro a ha; exact absurd ha List.not_mem_nil
  | @snoc b l _ ih =>
    obtain ⟨hb', hk⟩ := hap b rfl
    intro a ha
    rcases List.mem_append.mp ha with ha | ha
    · refine ih (fun c hc => ?_) a ha
      obtain ⟨hck, hlt, -⟩ := hb.arrParent_around hb' hc
      exact ⟨by omega, hck⟩
    · rw [List.mem_singleton.mp ha]
      exact ⟨hb', hk⟩

/-- A leaf's size follows from its kind. -/
theorem leaf (hf : f < s.nfields) (hs : (s.row f).kind ≠ .struct)
    (ha : (s.row f).kind.isArray = false) : LeafOk (s.row f) := by
  have hsame := hb.placed.same.row f
  rw [hb.kind] at hs ha
  rcases (hb.block hf).row with ⟨-, hl⟩ | ⟨-, -, hk, -, -⟩ | ⟨hk, -⟩
  · unfold SameRow at hsame
    unfold LeafOk at hl ⊢
    unfold Schema.row
    rw [hsame]
    exact hl
  · exact Bool.noConfusion (ha.symm.trans hk)
  · exact absurd hk hs

end Built

end

/-! ## Locating -/

/-- Hopping frames inside the message. -/
theorem frameFrom_ends {msg : Bytes} {stop : Nat} (hstop : stop ≤ msg.length) :
    ∀ (ord pos : Nat), ∃ o, frameFrom msg stop ord pos = some o ∧
      ∀ sp, o = some sp → pos + 4 ≤ sp.off ∧ sp.stop ≤ stop := by
  intro ord
  induction ord with
  | zero =>
    intro pos
    unfold frameFrom
    split
    next => exact ⟨none, rfl, fun sp h => by cases h⟩
    next hpos =>
      obtain ⟨len, hlen⟩ := readLe_of_le (m := msg) (n := 4) (i := pos) (by omega)
      rw [show le32 msg pos = some len from hlen]
      dsimp only
      split
      next => exact ⟨none, rfl, fun sp h => by cases h⟩
      next hle =>
        refine ⟨_, rfl, fun sp h => ?_⟩
        obtain rfl := Option.some.inj h
        refine ⟨Nat.le_refl _, ?_⟩
        show pos + 4 + len ≤ stop
        omega
  | succ ord ih =>
    intro pos
    unfold frameFrom
    split
    next => exact ⟨none, rfl, fun sp h => by cases h⟩
    next hpos =>
      obtain ⟨len, hlen⟩ := readLe_of_le (m := msg) (n := 4) (i := pos) (by omega)
      rw [show le32 msg pos = some len from hlen]
      dsimp only
      split
      next => exact ⟨none, rfl, fun sp h => by cases h⟩
      obtain ⟨o, ho, hsp⟩ := ih (pos + 4 + len)
      refine ⟨o, ho, fun sp h => ?_⟩
      obtain ⟨h1, h2⟩ := hsp sp h
      exact ⟨by omega, h2⟩

/-- What a successful location answers: a span inside the region, as long as the row's
fixed part. -/
def Inside (rg : Span) (size : Nat) (sp : Span) : Prop :=
  rg.off ≤ sp.off ∧ sp.stop ≤ rg.stop ∧ size ≤ sp.len

section
variable {s : Schema} {t₀ : Table}

namespace Built

variable (hb : Built s t₀) {msg : Bytes}
include hb

theorem locate_ends {rg : Span} (r : Option Nat) (cr : Option (List Carry)) {f : Nat}
    (hf : f < s.nfields) (hrg : rg.stop ≤ msg.length) :
    ∃ o, locate s msg rg r f cr = some o ∧
      ∀ sp cr', o = some (sp, cr') → Inside rg (s.row f).size sp := by
  unfold locate
  split
  next =>
    refine ⟨_, rfl, fun sp cr' h => ?_⟩
    split at h
    next => cases h
    next hlen =>
      simp only [Option.some.injEq, Prod.mk.injEq] at h
      obtain ⟨rfl, -⟩ := h
      exact ⟨Nat.le_refl _, Nat.le_refl _, by omega⟩
  next =>
    split
    next hff =>
      have hsize := hb.framed_size hf hff
      unfold recordFrame
      by_cases hord : s.recFrames r ≤ (s.row f).varOrd
      · rw [if_pos hord]
        exact ⟨none, rfl, fun sp cr' h => by cases h⟩
      rw [if_neg hord]
      obtain ⟨o, ho, hsp⟩ := frameFrom_ends hrg (s.row f).varOrd
        (rg.off + s.recSize r)
      rw [ho]
      cases o with
      | none => exact ⟨none, rfl, fun sp cr' h => by cases h⟩
      | some sp =>
        refine ⟨_, rfl, fun sp' cr' h => ?_⟩
        obtain ⟨cr'', -, hpair⟩ := Option.map_eq_some_iff.mp h
        simp only [Prod.mk.injEq] at hpair
        obtain ⟨rfl, -⟩ := hpair
        obtain ⟨h1, h2⟩ := hsp sp rfl
        exact ⟨by omega, h2, by omega⟩
    next =>
      split
      next => exact ⟨none, rfl, fun sp cr' h => by cases h⟩
      next hlen =>
        refine ⟨_, rfl, fun sp cr' h => ?_⟩
        simp only [Option.some.injEq, Prod.mk.injEq] at h
        obtain ⟨rfl, -⟩ := h
        refine ⟨by dsimp only; omega, ?_, Nat.le_refl _⟩
        show rg.off + (s.row f).offset + (s.row f).size ≤ rg.off + rg.len
        omega

end Built

end

/-! ## Elements -/

theorem arrayLive_ends {s : Schema} {msg : Bytes} {a : Nat} {sp : Span}
    (hsp : sp.stop ≤ msg.length) : ∃ o, arrayLive s msg a sp = some o ∧
      ∀ count, o = some count → (s.row (a + 1)).var = true → 4 + 4 * count ≤ sp.len := by
  unfold arrayLive
  split
  next hv => exact ⟨_, rfl, fun count _ hc => Bool.noConfusion (hv.symm.trans hc)⟩
  split
  next => exact ⟨none, rfl, fun count h => by cases h⟩
  next hlen =>
    obtain ⟨n, hn⟩ := readLe_of_le (m := msg) (n := 4) (i := sp.off)
      (by unfold Span.stop at hsp; omega)
    rw [show le32 msg sp.off = some n from hn]
    dsimp only
    split
    next => exact ⟨none, rfl, fun count h => by cases h⟩
    split
    next => exact ⟨none, rfl, fun count h => by cases h⟩
    next hle =>
      refine ⟨_, rfl, fun count h _ => ?_⟩
      obtain rfl := Option.some.inj h
      omega

/-- An end of a table inside the message. -/
theorem tableEnd_some (msg : Bytes) (tab i : Nat) (h : tab + 4 * i ≤ msg.length) :
    ∃ v, tableEnd msg tab i = some v := by
  cases i with
  | zero => exact ⟨0, rfl⟩
  | succ i => exact readLe_of_le (n := 4) (by omega)

section
variable {s : Schema} {t₀ : Table}

namespace Built

variable (hb : Built s t₀) {msg : Bytes}
include hb

theorem arrayElem_ends {a : Nat} {sp : Span} (e : Nat) (cr : Option (List Carry)) (ha : a < s.nfields)
    (hk : (s.row a).kind.isArray = true) (hsp : sp.stop ≤ msg.length)
    (hsize : (s.row a).size ≤ sp.len) :
    ∃ o, arrayElem s msg a sp e cr = some o ∧
      ∀ rg cr', o = some (rg, cr') → sp.off ≤ rg.off ∧ rg.stop ≤ sp.stop := by
  obtain ⟨-, -, -, -, hok⟩ := hb.elem ha hk
  obtain ⟨o, ho, hlive⟩ := arrayLive_ends (s := s) (a := a) hsp
  unfold arrayElem
  rw [ho]
  cases o with
  | none => exact ⟨none, rfl, fun rg cr' h => by cases h⟩
  | some count =>
    dsimp only
    split
    next => exact ⟨none, rfl, fun rg cr' h => by cases h⟩
    next he =>
      split
      next hv =>
        -- fixed elements: `count` of them fit the span
        have hcount : count * (s.row (a + 1)).size ≤ sp.len := by
          unfold arrayLive at ho
          rw [if_pos hv] at ho
          simp only [Option.some.injEq] at ho
          split at ho
          next harr =>
            have := hok.fixed harr hv
            rw [← ho]
            omega
          next =>
            rw [← ho]
            exact Nat.div_mul_le_self _ _
        have hmul : (e + 1) * (s.row (a + 1)).size ≤ count * (s.row (a + 1)).size :=
          Nat.mul_le_mul_right _ (by omega)
        rw [Nat.add_mul, Nat.one_mul] at hmul
        refine ⟨_, rfl, fun rg cr' h => ?_⟩
        simp only [Option.some.injEq, Prod.mk.injEq] at h
        obtain ⟨rfl, -⟩ := h
        refine ⟨Nat.le_add_right _ _, ?_⟩
        show sp.off + e * (s.row (a + 1)).size + (s.row (a + 1)).size ≤ sp.off + sp.len
        omega
      next hv =>
        rw [Bool.not_eq_false] at hv
        have hlen := hlive count rfl hv
        have hstop : sp.off + sp.len ≤ msg.length := hsp
        obtain ⟨lo, hlo⟩ := tableEnd_some msg (sp.off + 4) e (by omega)
        obtain ⟨hi, hhi⟩ := tableEnd_some msg (sp.off + 4) (e + 1) (by omega)
        rw [hlo, hhi]
        dsimp only
        split
        next => exact ⟨none, rfl, fun rg cr' h => by cases h⟩
        next hin =>
          refine ⟨_, rfl, fun rg cr' h => ?_⟩
          obtain ⟨cr'', -, hpair⟩ := Option.map_eq_some_iff.mp h
          simp only [Prod.mk.injEq] at hpair
          obtain ⟨rfl, -⟩ := hpair
          refine ⟨by dsimp only; omega, ?_⟩
          show sp.off + 4 + 4 * count + lo + (hi - lo) ≤ sp.off + sp.len
          omega

theorem descend_ends (msg : Bytes) {l : List Nat} : ∀ (es : List Nat) (rg : Span) (r : Option Nat)
    (cr : Option (List Carry)),
    (∀ a, a ∈ l → a < s.nfields ∧ (s.row a).kind.isArray = true) → rg.stop ≤ msg.length →
    ∃ o, descend s msg l es rg r cr = some o ∧
      ∀ rg' r' cr', o = some (rg', r', cr') → rg'.stop ≤ msg.length := by
  induction l with
  | nil =>
    intro es rg r cr _ hrg
    refine ⟨some (rg, r, cr), by rw [descend.eq_def], fun rg' r' cr' h => ?_⟩
    simp only [Option.some.injEq, Prod.mk.injEq] at h
    rw [← h.1]
    exact hrg
  | cons a l ih =>
    intro es rg r cr hmem hrg
    cases es with
    | nil =>
      refine ⟨some (rg, r, cr), by rw [descend.eq_def], fun rg' r' cr' h => ?_⟩
      simp only [Option.some.injEq, Prod.mk.injEq] at h
      rw [← h.1]
      exact hrg
    | cons e es =>
      obtain ⟨ha, hk⟩ := hmem a List.mem_cons_self
      obtain ⟨o, ho, hin⟩ := hb.locate_ends r cr ha hrg
      simp only [descend, ho]
      cases o with
      | none => exact ⟨none, rfl, fun rg' r' cr' h => by cases h⟩
      | some found =>
        obtain ⟨-, hstop, hsize⟩ := hin found.1 found.2 rfl
        obtain ⟨o, ho, helem⟩ := hb.arrayElem_ends e found.2 ha hk
          (Nat.le_trans hstop hrg) hsize
        dsimp only
        rw [ho]
        cases o with
        | none => exact ⟨none, rfl, fun rg' r' cr' h => by cases h⟩
        | some found' =>
          have hrg' := (helem found'.1 found'.2 rfl).2
          exact ih es _ _ _ (fun b hb' => hmem b (List.mem_cons_of_mem _ hb')) (by omega)

/-- Resolving a row answers, and with a span of the message. -/
theorem resolve_ends (msg : Bytes) (elems : List Nat) (cr : Option (List Carry)) {f : Nat}
    (hf : f < s.nfields) : ∃ o, resolve s msg f elems cr = some o ∧
      ∀ sp cr', o = some (sp, cr') → sp.stop ≤ msg.length ∧ (s.row f).size ≤ sp.len := by
  obtain ⟨l, hl, -, hchain⟩ := hb.chainOf_eq hf
  unfold resolve
  split
  next => exact ⟨none, rfl, fun sp cr' h => by cases h⟩
  rw [hchain]
  dsimp only
  have hmem := hb.chain_mem hl fun a ha => by
    obtain ⟨hk, hlt, -⟩ := hb.arrParent_around hf ha
    exact ⟨by omega, hk⟩
  obtain ⟨o, ho, hrg⟩ := hb.descend_ends msg elems (wholeOf msg) none cr hmem
    (by simp [wholeOf, Span.stop])
  rw [ho]
  cases o with
  | none => exact ⟨none, rfl, fun sp cr' h => by cases h⟩
  | some d =>
    obtain ⟨o, ho, hin⟩ := hb.locate_ends d.2.1 d.2.2 hf (hrg d.1 d.2.1 d.2.2 rfl)
    refine ⟨o, ho, fun sp cr' h => ?_⟩
    obtain ⟨-, hstop, hsize⟩ := hin sp cr' h
    have := hrg d.1 d.2.1 d.2.2 rfl
    exact ⟨by omega, hsize⟩

end Built

end

/-! ## Values -/

theorem bytesAt_some (msg : Bytes) (sp : Span) (h : sp.stop ≤ msg.length) :
    ∃ b, bytesAt msg sp = some b := by
  unfold bytesAt
  rw [if_neg (by omega)]
  exact ⟨_, rfl⟩

variable {off : Nat}

/-- A number is read where its kind's bytes are. -/
theorem readUint_some {kind : Kind} {msg : Bytes}
    (h : off + kind.scalarSize ≤ msg.length) : ∃ v, readUint kind msg off = some v := by
  unfold readUint
  split <;> first | exact ⟨_, rfl⟩ | exact readLe_of_le h

theorem readInt_some {kind : Kind} {msg : Bytes}
    (h : off + kind.scalarSize ≤ msg.length) : ∃ v, readInt kind msg off = some v := by
  obtain ⟨v, hv⟩ := readLe_of_le h
  unfold readInt
  split <;> first | exact ⟨_, rfl⟩ | exact ⟨_, congrArg (Option.map _) hv⟩

theorem readFloat_some {kind : Kind} {msg : Bytes}
    (h : off + kind.scalarSize ≤ msg.length) : ∃ v, readFloat kind msg off = some v := by
  unfold readFloat
  split <;> first | exact ⟨_, rfl⟩ | exact readLe_of_le h

theorem enumReadVal_some (backing : Kind) (msg : Bytes) (off : Nat)
    (h : off + backing.scalarSize ≤ msg.length) : ∃ v, enumReadVal backing msg off = some v := by
  obtain ⟨v, hv⟩ := readLe_of_le h
  unfold enumReadVal
  split <;> first | exact ⟨_, rfl⟩ | exact ⟨_, congrArg (Option.map _) hv⟩

theorem strView_some {msg : Bytes} {cap : Nat} (h : off + 2 + cap ≤ msg.length) :
    ∃ b, strView msg off cap = some b := by
  obtain ⟨len, hlen⟩ := readLe_of_le (m := msg) (n := 2) (i := off) (by omega)
  unfold strView
  rw [hlen]
  apply bytesAt_some
  show off + 2 + min len cap ≤ _
  omega

theorem arrayPacked_some {s : Schema} {msg : Bytes} {f : Nat} {sp : Span}
    (h : sp.stop ≤ msg.length) : ∃ b, arrayPacked s msg f sp = some b := by
  unfold arrayPacked
  split
  next => exact ⟨_, rfl⟩
  apply bytesAt_some
  have hle := Nat.sub_le sp.len (sp.len % (s.row (f + 1)).size)
  unfold Span.stop at h ⊢
  dsimp only
  omega

section
variable {s : Schema} {t₀ : Table}

namespace Built

variable (hb : Built s t₀) {msg : Bytes}
include hb

variable {f : Nat}

/-- A scalar's span holds its kind's bytes. -/
theorem scalar_size (hf : f < s.nfields) (h : 0 < (s.row f).kind.scalarSize) :
    (s.row f).size = (s.row f).kind.scalarSize := by
  have hl := hb.leaf hf
    (fun hc => by rw [hc] at h; exact absurd h (Nat.lt_irrefl 0))
    (by
      rw [← Bool.not_eq_true, Kind.isArray_iff]
      rintro (hc | hc) <;> rw [hc] at h <;> exact absurd h (Nat.lt_irrefl 0))
  unfold LeafOk at hl
  split at hl
  next hk => rw [hk] at h; exact absurd h (Nat.lt_irrefl 0)
  next hk => rw [hk] at h; exact absurd h (Nat.lt_irrefl 0)
  next hk => rw [hk] at h; exact absurd h (Nat.lt_irrefl 0)
  next hk => rw [hk] at h; exact absurd h (Nat.lt_irrefl 0)
  next => exact absurd hl id
  next => exact absurd hl id
  next => exact absurd hl id
  next => exact absurd hl id
  next => exact hl.1

variable {sp : Span}

/-- A span as long as the row's fixed part holds a scalar's bytes. -/
theorem scalar_inside (hf : f < s.nfields) (hsp : sp.stop ≤ msg.length)
    (hsize : (s.row f).size ≤ sp.len) : sp.off + (s.row f).kind.scalarSize ≤ msg.length := by
  unfold Span.stop at hsp
  by_cases h : 0 < (s.row f).kind.scalarSize
  · have := hb.scalar_size hf h
    omega
  · omega

theorem str_size (hf : f < s.nfields) (hk : (s.row f).kind = .str) :
    (s.row f).size = 2 + (s.row f).strCap := by
  have hl := hb.leaf hf (by rw [hk]; exact fun hc => by cases hc) (by rw [hk]; rfl)
  unfold LeafOk at hl
  rw [hk] at hl
  exact hl.1

theorem enum_size (hf : f < s.nfields) (hk : (s.row f).kind = .enum) :
    (s.row f).size = (s.row f).backing.scalarSize := by
  have hl := hb.leaf hf (by rw [hk]; exact fun hc => by cases hc) (by rw [hk]; rfl)
  unfold LeafOk at hl
  rw [hk] at hl
  exact hl.1

theorem not_named (hf : f < s.nfields) : (s.row f).kind ≠ .named := by
  intro hk
  have hl := hb.leaf hf (by rw [hk]; exact fun hc => by cases hc) (by rw [hk]; rfl)
  unfold LeafOk at hl
  rw [hk] at hl
  exact hl

/-- The readers of one row at a span of the message, as long as its fixed part: each
answers. -/
theorem strView_ends (hf : f < s.nfields) (hsp : sp.stop ≤ msg.length)
    (hsize : (s.row f).size ≤ sp.len) (hk : (s.row f).kind = .str) :
    ∃ b, strView msg sp.off (s.row f).strCap = some b := by
  have := hb.str_size hf hk
  unfold Span.stop at hsp
  exact strView_some (by omega)

theorem enumReadVal_ends (hf : f < s.nfields) (hsp : sp.stop ≤ msg.length)
    (hsize : (s.row f).size ≤ sp.len) (hk : (s.row f).kind = .enum) :
    ∃ v, enumReadVal (s.row f).backing msg sp.off = some v := by
  have := hb.enum_size hf hk
  unfold Span.stop at hsp
  exact enumReadVal_some _ _ _ (by omega)

/-- A value is read at every span that holds the row; only an array may be refused. -/
theorem valueAt_ends (hf : f < s.nfields) (hsp : sp.stop ≤ msg.length)
    (hsize : (s.row f).size ≤ sp.len) : ∃ o, valueAt s msg f sp = some o ∧
      ((s.row f).kind.isArray = false → ∃ v, o = some v) := by
  have hscalar := hb.scalar_inside hf hsp hsize
  unfold valueAt
  split
  case h_6 | h_7 | h_8 | h_9 =>
    obtain ⟨v, hv⟩ := readInt_some hscalar
    rw [hv]
    exact ⟨_, rfl, fun _ => ⟨_, rfl⟩⟩
  case h_10 | h_11 =>
    obtain ⟨v, hv⟩ := readFloat_some hscalar
    rw [hv]
    exact ⟨_, rfl, fun _ => ⟨_, rfl⟩⟩
  case h_12 =>
    obtain ⟨b, hb'⟩ := bytesAt_some msg ⟨sp.off, (s.row f).size⟩ (by
      unfold Span.stop at hsp ⊢
      dsimp only
      omega)
    rw [hb']
    exact ⟨_, rfl, fun _ => ⟨_, rfl⟩⟩
  case h_13 hk =>
    obtain ⟨b, hb'⟩ := hb.strView_ends hf hsp hsize hk
    rw [hb']
    exact ⟨_, rfl, fun _ => ⟨_, rfl⟩⟩
  case h_14 =>
    obtain ⟨b, hb'⟩ := bytesAt_some _ _ hsp
    rw [hb']
    exact ⟨_, rfl, fun _ => ⟨_, rfl⟩⟩
  case h_15 hk | h_16 hk =>
    obtain ⟨o, ho, -⟩ := arrayLive_ends (s := s) (a := f) hsp
    rw [ho]
    cases o with
    | none => exact ⟨none, rfl, fun hc => by rw [hk] at hc; cases hc⟩
    | some count =>
      obtain ⟨b, hb'⟩ := arrayPacked_some (s := s) (f := f) hsp
      dsimp only
      rw [hb']
      exact ⟨_, rfl, fun _ => ⟨_, rfl⟩⟩
  case h_17 =>
    obtain ⟨b, hb'⟩ := bytesAt_some _ _ hsp
    rw [hb']
    exact ⟨_, rfl, fun _ => ⟨_, rfl⟩⟩
  case h_18 hk =>
    obtain ⟨v, hv⟩ := hb.enumReadVal_ends hf hsp hsize hk
    rw [hv]
    exact ⟨_, rfl, fun _ => ⟨_, rfl⟩⟩
  case h_19 hk => exact absurd hk (hb.not_named hf)
  all_goals
    obtain ⟨v, hv⟩ := readUint_some hscalar
    rw [hv]
    exact ⟨_, rfl, fun _ => ⟨_, rfl⟩⟩

theorem getValueAt_ends (f : Nat) (elems : List Nat) :
    ∃ v, getValueAt s msg f elems = some v := by
  unfold getValueAt
  split
  next => exact ⟨none, rfl⟩
  next hf =>
    obtain ⟨o, ho, hsp⟩ := hb.resolve_ends msg elems none (f := f) (by omega)
    rw [ho]
    cases o with
    | none => exact ⟨none, rfl⟩
    | some found =>
      obtain ⟨h1, h2⟩ := hsp found.1 found.2 rfl
      obtain ⟨v, hv, -⟩ := hb.valueAt_ends (by omega) h1 h2
      exact ⟨v, hv⟩

end Built

end

end Rant.Serialize
