import Rant.Serialize.Emit
import Rant.Serialize.Place
/-!
# A tree as rows

What a compiled table holds of the tree its wire spells: `Ty.Rows` says that the rows from
`i` on are the tree's, each with the tag, the kind and the counts of its node, and where in
the wire its type starts. The flattening walk leaves exactly these (`Ty.rows_spelled`).
-/

namespace Rant.Serialize

open Rant.Lib

/-- The name a type carries. -/
def Ty.tag : Ty → Bytes
  | .named n _ => n
  | _ => []

/-- A type past its name. -/
def Ty.core : Ty → Ty
  | .named _ t => t.core
  | t => t

/-- Where a type at `pos` starts past its name. -/
def Ty.corePos : Ty → Nat → Nat
  | .named n t, pos => t.corePos (pos + 1 + 1 + n.length)
  | _, pos => pos

/-- Row `i`, a type's first, knows where its wire starts, the name it carries and where its
rows end. -/
structure TypeRow (T : Nat → Field) (i : Nat) (ty : Ty) (pos : Nat) : Prop where
  typeOff : (T i).typeOff = pos
  typeName : (T i).typeName = ty.tag
  next : (T i).next = i + 1 + ty.rows

mutual
/-- The rows from `i` on are those of a type that starts at `pos`. -/
def Ty.Rows (T : Nat → Field) : Ty → Nat → Nat → Prop
  | .scalar k, i, _ => (T i).kind = k
  | .str cap, i, _ => (T i).kind = .str ∧ (T i).strCap = cap
  | .vstr, i, _ => (T i).kind = .vstr
  | .map, i, _ => (T i).kind = .map
  | .enum b opts, i, _ => (T i).kind = .enum ∧ (T i).backing = b ∧ (T i).count = opts.length
  | .arr count e, i, pos => (T i).kind = .arr ∧ (T i).count = count ∧ (T (i + 1)).name = [] ∧
      TypeRow T (i + 1) e (pos + 1 + 2) ∧ e.Rows T (i + 1) (pos + 1 + 2)
  | .varr e, i, pos => (T i).kind = .varr ∧ (T (i + 1)).name = [] ∧
      TypeRow T (i + 1) e (pos + 1) ∧ e.Rows T (i + 1) (pos + 1)
  | .struct ms, i, pos => (T i).kind = .struct ∧ ms.Rows T (i + 1) (pos + 1 + 1)
  | .named n t, i, pos => t.Rows T i (pos + 1 + 1 + n.length)
/-- The rows from `i` on are those of members that start at `pos`. -/
def Members.Rows (T : Nat → Field) : Members → Nat → Nat → Prop
  | .nil, _, _ => True
  | .cons n t rest, i, pos => (T i).name = n ∧ TypeRow T i t (pos + 1 + n.length) ∧
      t.Rows T i (pos + 1 + n.length) ∧
      rest.Rows T (i + 1 + t.rows) (pos + 1 + n.length + t.encode.length)
end

/-! ## What the wire spells is the tree -/

variable {D : Nat}

variable {named : Bool}

theorem Ty.core_kind (ty : Ty) (hok : ty.Ok D named) :
    ty.core.kind ≠ .named := by
  cases ty with
  | named n t =>
    obtain ⟨-, -, hin, -⟩ := hok
    cases t with
    | named _ _ => exact absurd rfl hin
    | _ => exact hin
  | scalar k =>
    intro hc
    obtain rfl : k = .named := hc
    exact absurd hok (Nat.lt_irrefl 0)
  | _ => intro hc; cases hc

variable {pos : Nat}

/-- The name tag of any tree. -/
theorem typeTag_core {w : Bytes} {ty : Ty} (hok : ty.Ok D named)
    (hat : At w pos ty.encode) :
    typeTag w pos = some (ty.tag, ty.core.kind.code, ty.corePos pos + 1) := by
  have hcore := ty.core_kind hok
  cases ty with
  | named n t =>
    have h := typeTag_named hok hat
    obtain ⟨-, -, hin, -⟩ := hok
    cases t with
    | named _ _ => exact absurd rfl hin
    | _ => exact h
  | _ => exact typeTag_tree hat hcore

variable {pos' b : Nat} {tn : Bytes}

variable {n : Nat}

/-- A row that is tagged knows its node. -/
theorem tagOk_core {w : Bytes} {f : Field} {body : Nat} (h : TagOk w f n pos body pos')
    {kind : Kind} (htag : typeTag w pos = some (tn, kind.code, b)) :
    f.kind = kind ∧ body = b ∧ f.typeName = tn := by
  obtain ⟨k, hk, hof⟩ := h.tag
  rw [htag] at hk
  simp only [Option.some.injEq, Prod.mk.injEq] at hk
  obtain ⟨htn, rfl, hb⟩ := hk
  rw [Kind.ofByte_code, Option.some.injEq] at hof
  exact ⟨hof.symm, hb.symm, htn.symm⟩

variable {w : Bytes} {T : Nat → Field}

variable {i : Nat}

/-- The head of one spelled type. -/
theorem Spelled.head (h : Spelled w T none i n pos pos') :
    ∃ body, TagOk w (T i) n pos body pos' := by
  cases h with
  | leaf ht _ => exact ⟨_, ht⟩
  | array ht _ _ _ => exact ⟨_, ht⟩
  | struct ht _ _ _ => exact ⟨_, ht⟩

theorem Spelled.typeRow {ty : Ty} (hok : ty.Ok D named)
    (hat : At w pos ty.encode) (h : Spelled w T none i n pos pos')
    (hnext : n = i + 1 + ty.rows) : TypeRow T i ty pos := by
  obtain ⟨body, ht⟩ := h.head
  exact ⟨ht.typeOff, (tagOk_core ht (typeTag_core hok hat)).2.2, ht.next.trans hnext⟩

/-- A leaf spelled is neither an array nor a struct. -/
theorem LeafWire.kind {f : Field} (h : LeafWire w f pos pos') :
    f.kind ≠ .struct ∧ f.kind.isArray = false := by
  unfold LeafWire at h
  constructor
  · intro hc
    rw [hc] at h
    exact h
  · rw [← Bool.not_eq_true, Kind.isArray_iff]
    rintro (hc | hc)
    · rw [hc] at h
      exact h
    · rw [hc] at h
      exact h

theorem ArrayWire.kind {f : Field} {epos : Nat} (h : ArrayWire w f pos epos) :
    f.kind.isArray = true := by
  rcases h with ⟨hc, -⟩ | ⟨hc, -⟩
  · rw [hc]
    rfl
  · rw [hc]
    rfl

/-- A spelled leaf. -/
theorem Spelled.leaf_inv {kind : Kind} (htag : typeTag w pos = some (tn, kind.code, b))
    (h1 : kind ≠ .struct) (h2 : kind.isArray = false) (h : Spelled w T none i n pos pos') :
    n = i + 1 ∧ (T i).kind = kind ∧ LeafWire w (T i) b pos' := by
  cases h with
  | leaf ht hl =>
    obtain ⟨hk, rfl, -⟩ := tagOk_core ht htag
    exact ⟨rfl, hk, hl⟩
  | array ht ha _ _ =>
    obtain ⟨hk, -, -⟩ := tagOk_core ht htag
    rw [← hk, ha.kind] at h2
    cases h2
  | struct ht hc _ _ =>
    obtain ⟨hk, -, -⟩ := tagOk_core ht htag
    exact absurd (hk.symm.trans hc) h1

theorem Spelled.array_inv {kind : Kind} (htag : typeTag w pos = some (tn, kind.code, b))
    (h2 : kind.isArray = true)
    (h : Spelled w T none i n pos pos') : (T i).kind = kind ∧ (T (i + 1)).name = [] ∧
      ∃ epos, ArrayWire w (T i) b epos ∧ Spelled w T none (i + 1) n epos pos' := by
  cases h with
  | leaf ht hl =>
    obtain ⟨hk, -, -⟩ := tagOk_core ht htag
    rw [← hk, hl.kind.2] at h2
    cases h2
  | array ht ha hn hrec =>
    obtain ⟨hk, rfl, -⟩ := tagOk_core ht htag
    exact ⟨hk, hn, _, ha, hrec⟩
  | struct ht hc _ _ =>
    obtain ⟨hk, -, -⟩ := tagOk_core ht htag
    rw [← hk, hc] at h2
    exact absurd h2 (by simp [Kind.isArray])

theorem Spelled.struct_inv (htag : typeTag w pos = some (tn, Kind.struct.code, b))
    (h : Spelled w T none i n pos pos') :
    (T i).kind = .struct ∧ ∃ nf mpos, rdU8 w b = some (nf, mpos) ∧
      Spelled w T (some nf) (i + 1) n mpos pos' := by
  cases h with
  | leaf ht hl =>
    obtain ⟨hk, -, -⟩ := tagOk_core ht htag
    exact absurd hk hl.kind.1
  | array ht ha _ _ =>
    obtain ⟨hk, -, -⟩ := tagOk_core ht htag
    have harr := ha.kind
    rw [hk] at harr
    cases harr
  | struct ht hc hnf hrec =>
    obtain ⟨hk, rfl, -⟩ := tagOk_core ht htag
    exact ⟨hc, _, _, hnf, hrec⟩

/-- What the wire spells of a tree: its rows, how many there are, and where it ends. -/
structure SpelledAs (T : Nat → Field) (ty : Ty) (i n q pos' : Nat) : Prop where
  rows : ty.Rows T i q
  next : n = i + 1 + ty.rows
  stop : pos' = q + ty.encode.length

mutual
/-- The rows spelled behind the names at `pos` of a type whose own wire starts at `q`. -/
theorem Ty.rows_core : ∀ (ty : Ty) (D : Nat) (named : Bool) (tn : Bytes) (i n pos pos' q : Nat),
    ty.Ok D named → At w q ty.encode →
    typeTag w pos = some (tn, ty.core.kind.code, ty.corePos q + 1) →
    Spelled w T none i n pos pos' → SpelledAs T ty i n q pos'
  | .named m t, D, named, tn, i, n, pos, pos', q, hok, hat, htag, h => by
    rw [at_named] at hat
    obtain ⟨hrows, hnext, hstop⟩ := Ty.rows_core t D true tn i n pos pos' _ hok.2.2.2 hat.2.2.2
      htag h
    refine ⟨hrows, hnext, ?_⟩
    rw [hstop, length_named]
    omega
  | .scalar k, D, named, tn, i, n, pos, pos', q, hok, hat, htag, h => by
    have hk : k ≠ .struct ∧ k.isArray = false := by
      constructor
      · rintro rfl
        exact absurd hok (Nat.lt_irrefl 0)
      · cases k <;> first
          | rfl
          | exact absurd hok (Nat.lt_irrefl 0)
    obtain ⟨hn, hkind, hl⟩ := h.leaf_inv htag hk.1 hk.2
    have hkind' : (T i).kind = k := hkind
    refine ⟨hkind', hn, ?_⟩
    rw [Ty.encode, length_writeLe]
    unfold LeafWire at hl
    rw [hkind'] at hl
    cases k <;> first
      | exact hl
      | exact absurd hok (Nat.lt_irrefl 0)
  | .str cap, D, named, tn, i, n, pos, pos', q, hok, hat, htag, h => by
    rw [at_str] at hat
    obtain ⟨hn, hkind, hl⟩ := h.leaf_inv htag (by simp [Ty.core, Ty.kind]) rfl
    have hkind' : (T i).kind = .str := hkind
    have h₁ : rdU16 w (q + 1) = some (cap, q + 1 + 2) := rdU16_iff.mpr ⟨rfl, hok, hat.2⟩
    unfold LeafWire at hl
    rw [hkind'] at hl
    have he := h₁.symm.trans hl
    simp only [Option.some.injEq, Prod.mk.injEq] at he
    refine ⟨⟨hkind', he.1.symm⟩, hn, ?_⟩
    rw [← he.2, length_str]
  | .vstr, D, named, tn, i, n, pos, pos', q, hok, hat, htag, h => by
    obtain ⟨hn, hkind, hl⟩ := h.leaf_inv htag (by simp [Ty.core, Ty.kind]) rfl
    have hkind' : (T i).kind = .vstr := hkind
    unfold LeafWire at hl
    rw [hkind'] at hl
    exact ⟨hkind', hn, hl⟩
  | .map, D, named, tn, i, n, pos, pos', q, hok, hat, htag, h => by
    obtain ⟨hn, hkind, hl⟩ := h.leaf_inv htag (by simp [Ty.core, Ty.kind]) rfl
    have hkind' : (T i).kind = .map := hkind
    unfold LeafWire at hl
    rw [hkind'] at hl
    exact ⟨hkind', hn, hl⟩
  | .enum b opts, D, named, tn, i, n, pos, pos', q, hok, hat, htag, h => by
    obtain ⟨-, -, hlen, hopts⟩ := hok
    rw [at_enum] at hat
    obtain ⟨-, hb, hc, ho⟩ := hat
    obtain ⟨hn, hkind, hl⟩ := h.leaf_inv htag (by simp [Ty.core, Ty.kind]) rfl
    have hkind' : (T i).kind = .enum := hkind
    have h₁ : rdU8 w (q + 1) = some (b.code, q + 1 + 1) := rdU8_iff.mpr ⟨rfl, b.code_lt, hb⟩
    have h₂ : rdU16 w (q + 1 + 1) = some (opts.length, q + 1 + 1 + 2) :=
      rdU16_iff.mpr ⟨rfl, hlen, hc⟩
    have h₃ := skipOptions_complete (fun o ho => (hopts o ho).2) ho
    unfold LeafWire at hl
    rw [hkind'] at hl
    obtain ⟨b', p₁, p₂, hb', hof, hn', hskip⟩ := hl
    have he := h₁.symm.trans hb'
    simp only [Option.some.injEq, Prod.mk.injEq] at he
    obtain ⟨rfl, rfl⟩ := he
    have hback := (Kind.ofByte_code b).symm.trans hof
    rw [Option.some.injEq] at hback
    have he := h₂.symm.trans hn'
    simp only [Option.some.injEq, Prod.mk.injEq] at he
    obtain ⟨hcount, rfl⟩ := he
    rw [← hback, ← hcount, h₃, Option.some.injEq] at hskip
    refine ⟨⟨hkind', hback.symm, hcount.symm⟩, hn, ?_⟩
    rw [← hskip, length_enum]
    omega
  | .arr count e, D, named, tn, i, n, pos, pos', q, hok, hat, htag, h => by
    rw [at_arr] at hat
    obtain ⟨-, hc, hate⟩ := hat
    obtain ⟨hk, hname, epos, ha, hrec⟩ := h.array_inv htag rfl
    have h₁ : rdU16 w (q + 1) = some (count, q + 1 + 2) := rdU16_iff.mpr ⟨rfl, hok.2.1, hc⟩
    have hcount : (T i).count = count ∧ epos = q + 1 + 2 := by
      rcases ha with ⟨-, ha⟩ | ⟨hc, -, -⟩
      · have := h₁.symm.trans ha
        simp only [Option.some.injEq, Prod.mk.injEq] at this
        exact ⟨this.1.symm, this.2.symm⟩
      · exact absurd (hk.symm.trans hc) (by simp [Ty.core, Ty.kind])
    obtain ⟨hcount, rfl⟩ := hcount
    -- the element's own rows, behind the array's one
    obtain ⟨hrows, hnext, hstop⟩ := Ty.rows_core e _ _ _ _ _ _ _ _ hok.2.2.1 hate
      (typeTag_core hok.2.2.1 hate) hrec
    refine ⟨⟨hk, hcount, hname, hrec.typeRow hok.2.2.1 hate hnext, hrows⟩, ?_, ?_⟩
    · rw [hnext, Ty.rows]
      omega
    · rw [hstop, length_arr]
      omega
  | .varr e, D, named, tn, i, n, pos, pos', q, hok, hat, htag, h => by
    rw [at_varr] at hat
    obtain ⟨hk, hname, epos, ha, hrec⟩ := h.array_inv htag rfl
    have hepos : epos = q + 1 := by
      rcases ha with ⟨hc, -⟩ | ⟨-, -, hp⟩
      · exact absurd (hk.symm.trans hc) (by simp [Ty.core, Ty.kind])
      · exact hp
    subst hepos
    obtain ⟨hrows, hnext, hstop⟩ := Ty.rows_core e _ _ _ _ _ _ _ _ hok.2.1 hat.2
      (typeTag_core hok.2.1 hat.2) hrec
    refine ⟨⟨hk, hname, hrec.typeRow hok.2.1 hat.2 hnext, hrows⟩, ?_, ?_⟩
    · rw [hnext, Ty.rows]
      omega
    · rw [hstop, length_varr]
      omega
  | .struct ms, D, named, tn, i, n, pos, pos', q, hok, hat, htag, h => by
    rw [at_struct] at hat
    obtain ⟨hk, nf, mpos, hnf, hrec⟩ := h.struct_inv htag
    have h₁ : rdU8 w (q + 1) = some (ms.length, q + 1 + 1) := rdU8_iff.mpr ⟨rfl, hok.2.2.1, hat.2.1⟩
    have := h₁.symm.trans hnf
    simp only [Option.some.injEq, Prod.mk.injEq] at this
    obtain ⟨rfl, rfl⟩ := this
    obtain ⟨hrows, hnext, hstop⟩ := Members.rows_core ms _ _ _ _ _ hok.2.2.2.1 hat.2.2 hrec
    refine ⟨⟨hk, hrows⟩, hnext, ?_⟩
    rw [hstop, length_struct]
    omega
theorem Members.rows_core : ∀ (ms : Members) (D i n pos pos' : Nat), ms.Ok D →
    At w pos ms.encode → Spelled w T (some ms.length) i n pos pos' →
    ms.Rows T i pos ∧ n = i + ms.rows ∧ pos' = pos + ms.encode.length
  | .nil, D, i, n, pos, pos', hok, hat, h => by
    cases h
    exact ⟨trivial, rfl, rfl⟩
  | .cons m t rest, D, i, n, pos, pos', hok, hat, h => by
    rw [at_cons] at hat
    obtain ⟨hnl, hname, hatt, hatr⟩ := hat
    have h₁ : rdU8 w pos = some (m.length, pos + 1) := rdU8_iff.mpr ⟨rfl, hok.1, hnl⟩
    have h₂ : rdSkip w (pos + 1) m.length = some (pos + 1 + m.length) :=
      rdSkip_iff.mpr ⟨rfl, hname.le⟩
    cases h with
    | cons hnl' hskip hn hfst hrest =>
      have he := h₁.symm.trans hnl'
      simp only [Option.some.injEq, Prod.mk.injEq] at he
      obtain ⟨rfl, rfl⟩ := he
      have he := h₂.symm.trans hskip
      simp only [Option.some.injEq] at he
      subst he
      obtain ⟨hrows, hnext, hstop⟩ := Ty.rows_core t _ _ _ _ _ _ _ _ hok.2.1 hatt
        (typeTag_core hok.2.1 hatt) hfst
      have hrow := hfst.typeRow hok.2.1 hatt hnext
      subst hnext hstop
      obtain ⟨hrows', hnext', hstop'⟩ := Members.rows_core rest _ _ _ _ _ hok.2.2 hatr hrest
      refine ⟨⟨hn.trans (nameAt_eq hname), hrow, hrows, hrows'⟩, ?_, ?_⟩
      · rw [hnext', Members.rows]
        omega
      · rw [hstop', length_cons]
        omega
end

/-- The rows of a spelled tree. -/
theorem Ty.rows_spelled {ty : Ty} (hok : ty.Ok D named)
    (hat : At w pos ty.encode) (h : Spelled w T none i n pos pos') :
    TypeRow T i ty pos ∧ SpelledAs T ty i n pos pos' := by
  have hs := Ty.rows_core ty D named _ i n pos pos' pos hok hat (typeTag_core hok hat) h
  exact ⟨h.typeRow hok hat hs.next, hs⟩

/-- A row knows where its type stands in the wire. -/
def RowTyped (w : Bytes) (f : Field) : Prop :=
  ∃ ty D named, Ty.Ok ty D named ∧ At w f.typeOff ty.encode

mutual
/-- The rows below a type's own know where theirs stand. -/
theorem Ty.rows_typed : ∀ (ty : Ty) (D : Nat) (named : Bool) (i pos : Nat), ty.Ok D named →
    At w pos ty.encode → ty.Rows T i pos → ∀ j, i < j → j < i + 1 + ty.rows → RowTyped w (T j)
  | .named n t, D, _, i, pos, hok, hat, hrows => by
    rw [at_named] at hat
    exact Ty.rows_typed t D true i _ hok.2.2.2 hat.2.2.2 hrows
  | .arr count e, D, _, i, pos, hok, hat, hrows => by
    rw [at_arr] at hat
    obtain ⟨-, -, -, hrow, hrows⟩ := hrows
    intro j hlo hhi
    by_cases hj : j = i + 1
    · subst hj
      exact ⟨e, D + 1, false, hok.2.2.1, by rw [hrow.typeOff]; exact hat.2.2⟩
    · rw [Ty.rows] at hhi
      exact Ty.rows_typed e (D + 1) false (i + 1) _ hok.2.2.1 hat.2.2 hrows j (by omega) (by omega)
  | .varr e, D, _, i, pos, hok, hat, hrows => by
    rw [at_varr] at hat
    obtain ⟨-, -, hrow, hrows⟩ := hrows
    intro j hlo hhi
    by_cases hj : j = i + 1
    · subst hj
      exact ⟨e, D + 1, false, hok.2.1, by rw [hrow.typeOff]; exact hat.2⟩
    · rw [Ty.rows] at hhi
      exact Ty.rows_typed e (D + 1) false (i + 1) _ hok.2.1 hat.2 hrows j (by omega) (by omega)
  | .struct ms, D, _, i, pos, hok, hat, hrows => by
    rw [at_struct] at hat
    intro j hlo hhi
    rw [Ty.rows] at hhi
    exact Members.rows_typed ms (D + 1) (i + 1) _ hok.2.2.2.1 hat.2.2 hrows.2 j (by omega) (by omega)
  | .scalar _, _, _, i, _, _, _, _ => fun j hlo hhi => by rw [Ty.rows] at hhi; omega
  | .str _, _, _, i, _, _, _, _ => fun j hlo hhi => by rw [Ty.rows] at hhi; omega
  | .vstr, _, _, i, _, _, _, _ => fun j hlo hhi => by rw [Ty.rows] at hhi; omega
  | .map, _, _, i, _, _, _, _ => fun j hlo hhi => by rw [Ty.rows] at hhi; omega
  | .enum _ _, _, _, i, _, _, _, _ => fun j hlo hhi => by rw [Ty.rows] at hhi; omega
theorem Members.rows_typed : ∀ (ms : Members) (D i pos : Nat), ms.Ok D → At w pos ms.encode →
    ms.Rows T i pos → ∀ j, i ≤ j → j < i + ms.rows → RowTyped w (T j)
  | .nil, _, i, _, _, _, _ => fun j hlo hhi => by rw [Members.rows] at hhi; omega
  | .cons n t rest, D, i, pos, hok, hat, hrows => by
    rw [at_cons] at hat
    obtain ⟨-, hrow, hty, hrest⟩ := hrows
    intro j hlo hhi
    rw [Members.rows] at hhi
    by_cases hj : j = i
    · subst hj
      exact ⟨t, D, false, hok.2.1, by rw [hrow.typeOff]; exact hat.2.2.1⟩
    · by_cases hin : j < i + 1 + t.rows
      · exact Ty.rows_typed t D false i _ hok.2.1 hat.2.2.1 hty j (by omega) hin
      · exact Members.rows_typed rest D _ _ hok.2.2 hat.2.2.2 hrest j (by omega) (by omega)
end

end Rant.Serialize
