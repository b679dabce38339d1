import Rant.Serialize.Compile
/-!
# The layout of a row table

What the flattening pass builds, told without the wire: `Laid` says that the rows
`[i, n)` of a table are one type (its own row, then its members' or its element's rows),
or the members of a struct one after the other, and gives their places, their sizes and
whether they are variable. Its derivation is the type tree, so every fact about a table
is an induction on it.
-/

namespace Rant.Serialize

open Rant.Lib

/-! ## Rows of a growing table -/

section

variable {j : Nat}

theorem rowOf_append {t l : Table} (h : j < t.length) : rowOf (t ++ l) j = rowOf t j := by
  unfold rowOf
  rw [List.getD_eq_getElem?_getD, List.getD_eq_getElem?_getD, List.getElem?_append_left h]

@[simp] theorem rowOf_append_self (t : Table) (f : Field) : rowOf (t ++ [f]) t.length = f := by
  unfold rowOf
  rw [List.getD_eq_getElem?_getD, List.getElem?_append_right (by omega)]
  simp

@[simp] theorem rowOf_set_self {t : Table} {i : Nat} (h : i < t.length) (f : Field) :
    rowOf (t.set i f) i = f := by
  unfold rowOf
  rw [List.getD_eq_getElem?_getD, List.getElem?_set_self h]
  rfl

theorem rowOf_set_ne {t : Table} {i : Nat} (h : i ≠ j) (f : Field) :
    rowOf (t.set i f) j = rowOf t j := by
  unfold rowOf
  rw [List.getD_eq_getElem?_getD, List.getD_eq_getElem?_getD, List.getElem?_set_ne h]

@[simp] theorem length_fillRow (tbl : Table) (idx kpos pos : Nat) (tn : Bytes) (kind : Kind)
    (size : Nat) (var : Bool) (count strCap : Nat) (backing : Kind) :
    (fillRow tbl idx kpos pos tn kind size var count strCap backing).length = tbl.length := by
  simp [fillRow]

end

/-! ## The layout -/

/-- A row with neither members nor an element: its size and whether it is variable follow
from its kind. -/
def LeafOk (f : Field) : Prop :=
  match f.kind with
  | .str => f.size = 2 + f.strCap ∧ f.var = false
  | .enum => f.size = f.backing.scalarSize ∧ f.backing.backingOk = true ∧ f.var = false
  | .vstr | .map => f.size = 0 ∧ f.var = true
  | .arr | .varr | .struct | .named => False
  | k => f.size = k.scalarSize ∧ f.var = false

/-- An array row over its element's size and variability. -/
structure ArrayOk (f : Field) (esize : Nat) (evar : Bool) : Prop where
  elem_pos : evar = false → 0 < esize
  fixed : f.kind = .arr → evar = false → f.size = f.count * esize
  size_var : f.var = true → f.size = 0
  var : f.var = (decide (f.kind = .varr) || evar)

/-- A row's place: its depth, its parent, where its storage starts, where its subtree
ends, its size and its variability. -/
structure HeadOk (f : Field) (d : Nat) (p : Option Nat) (base n size : Nat) (var : Bool) :
    Prop where
  depth : f.depth = d
  parent : f.parent = p
  offset : f.offset = base
  next : f.next = n
  size : f.size = size
  var : f.var = var
  nVar : f.nVar = 0
  dmin : f.dmin = 0

/-- The rows `[i, n)` are one type (`false`) or a struct's members (`true`) at depth `d`
under parent `p`, stored from `base` on; the sizes and variabilities are theirs, added up
for members. -/
inductive Laid (T : Nat → Field) :
    Bool → Nat → Nat → Nat → Option Nat → Nat → Nat → Bool → Prop
  | leaf {i d p base size var} : HeadOk (T i) d p base (i + 1) size var → LeafOk (T i) →
      Laid T false i (i + 1) d p base size var
  | array {i n d p base size var esize evar} : HeadOk (T i) d p base n size var →
      (T i).kind.isArray = true → ArrayOk (T i) esize evar →
      Laid T false (i + 1) n (d + 1) (some i) 0 esize evar →
      Laid T false i n d p base size var
  | struct {i n d p base size var} : HeadOk (T i) d p base n size var → (T i).kind = .struct →
      Laid T true (i + 1) n (d + 1) (some i) base size var →
      Laid T false i n d p base size var
  | nil {i d p base} : Laid T true i i d p base 0 false
  | cons {i m n d p base size size' var var'} : Laid T false i m d p base size var →
      Laid T true m n d p (base + size) size' var' →
      Laid T true i n d p base (size + size') (var || var')

section

variable {T T' : Nat → Field}

variable {i n d base size : Nat} {p : Option Nat} {var : Bool}

/-- A type has a row, members may have none. -/
theorem Laid.le {mem : Bool}
    (h : Laid T mem i n d p base size var) : i + (if mem then 0 else 1) ≤ n := by
  induction h with
  | leaf _ _ => simp
  | array _ _ _ _ ih => simp at ih ⊢; omega
  | struct _ _ _ ih => simp at ih ⊢; omega
  | nil => simp
  | cons _ _ ih ih' => simp at ih ih' ⊢; omega

/-- The head of one type. -/
theorem Laid.head
    (h : Laid T false i n d p base size var) : HeadOk (T i) d p base n size var := by
  cases h with
  | leaf hh _ => exact hh
  | array hh _ _ _ => exact hh
  | struct hh _ _ => exact hh

/-- One type is a leaf, an array over its element or a struct over its members. -/
theorem Laid.row
    (h : Laid T false i n d p base size var) :
    (n = i + 1 ∧ LeafOk (T i)) ∨
    (∃ esize evar, (T i).kind.isArray = true ∧ ArrayOk (T i) esize evar ∧
      Laid T false (i + 1) n (d + 1) (some i) 0 esize evar) ∨
    ((T i).kind = .struct ∧ Laid T true (i + 1) n (d + 1) (some i) base size var) := by
  cases h with
  | leaf _ hl => exact Or.inl ⟨rfl, hl⟩
  | array _ hk ha hrec => exact Or.inr (Or.inl ⟨_, _, hk, ha, hrec⟩)
  | struct _ hk hrec => exact Or.inr (Or.inr ⟨hk, hrec⟩)

/-- A leaf has neither members nor an element. -/
theorem LeafOk.kind {f : Field} (h : LeafOk f) : f.kind ≠ .struct ∧ f.kind.isArray = false := by
  unfold LeafOk at h
  refine ⟨fun hc => ?_, ?_⟩
  · rw [hc] at h
    exact h
  · rw [← Bool.not_eq_true, Kind.isArray_iff]
    rintro (hc | hc) <;> rw [hc] at h <;> exact h

/-- A variable leaf has no fixed bytes. -/
theorem LeafOk.size_var {f : Field} (h : LeafOk f) (hv : f.var = true) : f.size = 0 := by
  unfold LeafOk at h
  split at h
  next => exact Bool.noConfusion (hv.symm.trans h.2)
  next => exact Bool.noConfusion (hv.symm.trans h.2.2)
  next => exact h.1
  next => exact h.1
  next => exact absurd h id
  next => exact absurd h id
  next => exact absurd h id
  next => exact absurd h id
  next => exact Bool.noConfusion (hv.symm.trans h.2)

/-- A layout reads the rows of its range alone. -/
theorem Laid.congr {mem : Bool}
    (h : Laid T mem i n d p base size var) (hT : ∀ j, i ≤ j → j < n → T' j = T j) :
    Laid T' mem i n d p base size var := by
  induction h with
  | @leaf i d p base size var hh hl =>
    have hi := hT i (by omega) (by omega)
    rw [← hi] at hh hl
    exact .leaf hh hl
  | @array i n d p base size var esize evar hh hk ha hrec ih =>
    have hle := hrec.le
    simp only [Bool.false_eq_true, if_false] at hle
    have hi := hT i (by omega) (by omega)
    rw [← hi] at hh hk ha
    exact .array hh hk ha (ih fun j hlo hhi => hT j (by omega) hhi)
  | @struct i n d p base size var hh hk hrec ih =>
    have hle := hrec.le
    simp only [if_true] at hle
    have hi := hT i (by omega) (by omega)
    rw [← hi] at hh hk
    exact .struct hh hk (ih fun j hlo hhi => hT j (by omega) hhi)
  | nil => exact .nil
  | @cons i m n d p base size size' var var' hfst hrest ih ih' =>
    have hle := hfst.le
    have hle' := hrest.le
    simp only [Bool.false_eq_true, if_false, if_true] at hle hle'
    exact .cons (ih fun j hlo hhi => hT j hlo (by omega)) (ih' fun j hlo hhi => hT j (by omega) hhi)

end

/-! ## The spelling -/

variable {pos pos' : Nat}

variable {w : Bytes}

theorem rdU8_le {v : Nat} (h : rdU8 w pos = some (v, pos')) :
    pos' = pos + 1 ∧ pos' ≤ w.length ∧ readLe w pos 1 = some v := by
  obtain ⟨v', hv, hpair⟩ := Option.map_eq_some_iff.mp h
  simp only [Prod.mk.injEq] at hpair
  obtain ⟨rfl, rfl⟩ := hpair
  exact ⟨rfl, le_of_readLe Nat.zero_lt_one hv, hv⟩

theorem rdU16_le {v : Nat} (h : rdU16 w pos = some (v, pos')) :
    pos' = pos + 2 ∧ pos' ≤ w.length := by
  obtain ⟨v', hv, hpair⟩ := Option.map_eq_some_iff.mp h
  simp only [Prod.mk.injEq] at hpair
  obtain ⟨rfl, rfl⟩ := hpair
  exact ⟨rfl, le_of_readLe Nat.zero_lt_two hv⟩

variable {k : Nat}

theorem rdSkip_le (h : rdSkip w pos k = some pos') :
    pos' = pos + k ∧ pos' ≤ w.length := by
  unfold rdSkip at h
  split at h
  next => cases h
  next hle =>
    obtain rfl := Option.some.inj h
    exact ⟨rfl, by omega⟩

/-- The wire of a leaf, past its kind byte at `pos`. -/
def LeafWire (w : Bytes) (f : Field) (pos pos' : Nat) : Prop :=
  match f.kind with
  | .str => rdU16 w pos = some (f.strCap, pos')
  | .enum => ∃ b p₁ p₂, rdU8 w pos = some (b, p₁) ∧ Kind.ofByte b = some f.backing ∧
      rdU16 w p₁ = some (f.count, p₂) ∧ skipOptions w f.backing.scalarSize f.count p₂ = some pos'
  | .arr | .varr | .struct | .named => False
  | _ => pos' = pos

/-- The wire of an array, past its kind byte at `pos` and up to its element at `pos'`. -/
def ArrayWire (w : Bytes) (f : Field) (pos pos' : Nat) : Prop :=
  (f.kind = .arr ∧ rdU16 w pos = some (f.count, pos')) ∨
  (f.kind = .varr ∧ f.count = 0 ∧ pos' = pos)

/-- A row's wire runs from `pos` to `pos'`, and what follows its kind byte starts at
`body`. -/
structure TagOk (w : Bytes) (f : Field) (n pos body pos' : Nat) : Prop where
  tag : ∃ k, typeTag w pos = some (f.typeName, k, body) ∧ Kind.ofByte k = some f.kind
  typeOff : f.typeOff = pos
  typeLen : f.typeLen = pos' - pos
  next : f.next = n

/-- The rows `[i, n)` are what the wire spells from `pos` to `pos'`: one type (`none`) or
so many members. -/
inductive Spelled (w : Bytes) (T : Nat → Field) : Option Nat → Nat → Nat → Nat → Nat → Prop
  | leaf {i pos body pos'} : TagOk w (T i) (i + 1) pos body pos' → LeafWire w (T i) body pos' →
      Spelled w T none i (i + 1) pos pos'
  | array {i n pos body epos pos'} : TagOk w (T i) n pos body pos' → ArrayWire w (T i) body epos →
      (T (i + 1)).name = [] → Spelled w T none (i + 1) n epos pos' →
      Spelled w T none i n pos pos'
  | struct {i n pos body nf mpos pos'} : TagOk w (T i) n pos body pos' → (T i).kind = .struct →
      rdU8 w body = some (nf, mpos) → Spelled w T (some nf) (i + 1) n mpos pos' →
      Spelled w T none i n pos pos'
  | nil {i pos} : Spelled w T (some 0) i i pos pos
  | cons {i m n k nl pos p₁ p₂ p₃ pos'} : rdU8 w pos = some (nl, p₁) →
      rdSkip w p₁ nl = some p₂ → (T i).name = nameAt w p₁ nl → Spelled w T none i m p₂ p₃ →
      Spelled w T (some k) m n p₃ pos' → Spelled w T (some (k + 1)) i n pos pos'

variable {T T' : Nat → Field}

variable {i n : Nat}

theorem Spelled.le {mem : Option Nat}
    (h : Spelled w T mem i n pos pos') : i + (if mem = none then 1 else 0) ≤ n := by
  induction h with
  | leaf _ _ => simp
  | array _ _ _ _ ih => simp at ih ⊢; omega
  | struct _ _ _ _ ih => simp at ih ⊢; omega
  | nil => simp
  | cons _ _ _ _ _ ih ih' => simp at ih ih' ⊢; omega

/-- A spelling tells of the rows of its range alone. -/
theorem Spelled.congr {mem : Option Nat} (h : Spelled w T mem i n pos pos')
    (hT : ∀ j, i ≤ j → j < n → T' j = T j) :
    Spelled w T' mem i n pos pos' := by
  induction h with
  | @leaf i pos body pos' ht hl =>
    have hi := hT i (by omega) (by omega)
    rw [← hi] at ht hl
    exact .leaf ht hl
  | @array i n pos body epos pos' ht ha hname hrec ih =>
    have hle := hrec.le
    simp only [if_true] at hle
    have hi := hT i (by omega) (by omega)
    rw [← hi] at ht ha
    refine .array ht ha ?_ (ih fun j hlo hhi => hT j (by omega) hhi)
    rw [hT (i + 1) (by omega) (by omega)]
    exact hname
  | @struct i n pos body nf mpos pos' ht hk hnf hrec ih =>
    have hle := hrec.le
    simp only [reduceCtorEq, if_false] at hle
    have hi := hT i (by omega) (by omega)
    rw [← hi] at ht hk
    exact .struct ht hk hnf (ih fun j hlo hhi => hT j (by omega) hhi)
  | nil => exact .nil
  | @cons i m n k nl pos p₁ p₂ p₃ pos' hnl hskip hname hfst hrest ih ih' =>
    have hle := hfst.le
    have hle' := hrest.le
    simp only [if_true, reduceCtorEq, if_false] at hle hle'
    refine .cons hnl hskip ?_ (ih fun j hlo hhi => hT j hlo (by omega))
      (ih' fun j hlo hhi => hT j (by omega) hhi)
    rw [hT i (by omega) (by omega)]
    exact hname

/-! ## What emitting does -/

/-- `e` extends the table `tbl` and leaves the rows below `idx` alone. -/
structure Extends (tbl : Table) (idx : Nat) (e : Table) : Prop where
  length : tbl.length ≤ e.length
  kept : ∀ j, j < idx → rowOf e j = rowOf tbl j

variable {u : Table}

theorem extends_trans {t v : Table} (h : Extends t i u) (h' : Extends u j v)
    (hij : i ≤ j) : Extends t i v where
  length := Nat.le_trans h.length h'.length
  kept k hk := (h'.kept k (by omega)).trans (h.kept k hk)

variable {idx : Nat}

theorem extends_append {t l : Table} (h : idx ≤ t.length) : Extends t idx (t ++ l) where
  length := by simp
  kept j hj := rowOf_append (by omega)

/-- What `emitType` leaves in the table of a type at `pos`, on a row `idx` that was begun: the
type's rows, laid out, and spelled by the wire it read. -/
structure TypeEmitted (w : Bytes) (tbl : Table) (pos idx depth base : Nat) (name : Bytes)
    (p : Option Nat) (e : Emitted) : Prop where
  extended : Extends tbl idx e.tbl
  name : (rowOf e.tbl idx).name = name
  laid : Laid (rowOf e.tbl) false idx e.tbl.length depth p base e.size (rowOf e.tbl idx).var
  spelled : Spelled w (rowOf e.tbl) none idx e.tbl.length pos e.pos

def EmitSpec (w : Bytes) (emit : Table → Nat → Nat → Nat → Nat → Option Emitted) : Prop :=
  ∀ tbl pos idx depth base e, emit tbl pos idx depth base = some e → tbl.length = idx + 1 →
    ∀ name p, rowOf tbl idx = fieldInit name depth p base →
      TypeEmitted w tbl pos idx depth base name p e

variable {depth : Nat}

/-- The members' rows, laid out one after the other. -/
theorem emitMembers_laid {emit : Table → Nat → Nat → Nat → Nat → Option Emitted}
    (hemit : EmitSpec w emit) {total : Nat} {parent : Option Nat} :
    ∀ {tbl : Table} {pos running : Nat} {var : Bool} {e : Emitted} {v : Bool},
      emitMembers emit w total depth parent n tbl pos running var = some (e, v) →
      Extends tbl tbl.length e.tbl ∧ Spelled w (rowOf e.tbl) (some n) tbl.length e.tbl.length
        pos e.pos ∧ ∃ size mvar, e.size = running + size ∧ v = (var || mvar) ∧
        Laid (rowOf e.tbl) true tbl.length e.tbl.length depth parent running size mvar := by
  induction n with
  | zero =>
    intro tbl pos running var e v h
    simp only [emitMembers, Option.some.injEq, Prod.mk.injEq] at h
    obtain ⟨rfl, rfl⟩ := h
    exact ⟨⟨Nat.le_refl _, fun _ _ => rfl⟩, .nil, 0, false, rfl, by simp, .nil⟩
  | succ n ih =>
    intro tbl pos running var e v h
    simp only [emitMembers, Option.bind_eq_bind, Option.bind_eq_some_iff] at h
    obtain ⟨⟨fl, pos₁⟩, hfl, pos₂, hskip, h⟩ := h
    split at h
    next => cases h
    obtain ⟨e₁, hem, hrest⟩ := Option.bind_eq_some_iff.mp h
    obtain ⟨hext, hname, hlaid, hsp⟩ :=
      hemit _ _ _ _ _ _ hem (by simp) _ _ (rowOf_append_self _ _)
    obtain ⟨hext', hsp', size, mvar, hsize, hv, hlaid'⟩ := ih hrest
    have hle := hlaid.le
    simp only [Bool.false_eq_true, if_false] at hle
    have hlen := hext.length
    simp only [List.length_append, List.length_singleton] at hlen
    have hkept : ∀ j, tbl.length ≤ j → j < e₁.tbl.length → rowOf e.tbl j = rowOf e₁.tbl j :=
      fun j _ hhi => hext'.kept j hhi
    refine ⟨?_, ?_, e₁.size + size, (rowOf e₁.tbl tbl.length).var || mvar, ?_, ?_, ?_⟩
    · exact extends_trans (extends_trans (extends_append (Nat.le_refl _)) hext (Nat.le_refl _))
        hext' (by omega)
    · refine .cons hfl hskip ?_ (hsp.congr hkept) hsp'
      rw [hkept _ (Nat.le_refl _) (by omega)]
      exact hname
    · omega
    · rw [hv, Bool.or_assoc]
    · exact .cons (hlaid.congr hkept) hlaid'

variable {tbl : Table} {name tn : Bytes}

variable {base : Nat} {p : Option Nat}

/-- A row filled over the rows emitted after it. -/
theorem fillRow_over (kpos pos : Nat) (tn : Bytes) (kind : Kind)
    (size : Nat) (var : Bool) (count strCap : Nat) (backing : Kind) (hlen : tbl.length = idx + 1)
    (hrow : rowOf tbl idx = fieldInit name depth p base) (hext : Extends tbl tbl.length u) :
    Extends tbl idx (fillRow u idx kpos pos tn kind size var count strCap backing) ∧
    (∀ j, idx < j → rowOf (fillRow u idx kpos pos tn kind size var count strCap backing) j =
      rowOf u j) ∧
    rowOf (fillRow u idx kpos pos tn kind size var count strCap backing) idx =
      { name := name, depth := depth, parent := p, offset := base, typeOff := kpos, typeName := tn
        kind := kind, typeLen := pos - kpos, size := size, var := var, next := u.length
        count := count, strCap := strCap, backing := backing } := by
  have hu := hext.length
  refine ⟨⟨by simpa using hu, fun j hj => ?_⟩, fun j hj => rowOf_set_ne (by omega) _, ?_⟩
  · unfold fillRow
    rw [rowOf_set_ne (by omega)]
    exact hext.kept j (by omega)
  · unfold fillRow
    rw [rowOf_set_self (by omega), hext.kept idx (by omega), hrow]
    rfl

variable {size : Nat} {var : Bool}

/-- A leaf's row, filled. -/
theorem fillRow_leaf {kpos body : Nat} {kind : Kind}
    {count strCap : Nat} {backing : Kind} (hlen : tbl.length = idx + 1)
    (hrow : rowOf tbl idx = fieldInit name depth p base)
    (htag : typeTag w kpos = some (tn, k, body)) (hk : Kind.ofByte k = some kind)
    (hleaf : LeafOk { kind := kind, size := size, var := var, strCap := strCap, backing := backing })
    (hwire : LeafWire w { kind := kind, count := count, strCap := strCap, backing := backing }
      body pos) :
    TypeEmitted w tbl kpos idx depth base name p
      ⟨fillRow tbl idx kpos pos tn kind size var count strCap backing, pos, size⟩ := by
  obtain ⟨hext, -, hself⟩ := fillRow_over kpos pos tn kind size var count strCap backing hlen hrow
    ⟨Nat.le_refl _, fun _ _ => rfl⟩
  refine ⟨hext, by rw [hself], ?_, ?_⟩
  · rw [length_fillRow, hlen]
    refine .leaf ?_ ?_
    · rw [hself]
      exact ⟨rfl, rfl, rfl, hlen, rfl, rfl, rfl, rfl⟩
    · rw [hself]
      exact hleaf
  · rw [length_fillRow, hlen]
    apply Spelled.leaf
    · rw [hself]
      exact ⟨⟨k, htag, hk⟩, rfl, rfl, hlen⟩
    · rw [hself]
      exact hwire

/-- An array's row, filled over its element's. -/
theorem fillRow_array {emit : Table → Nat → Nat → Nat → Nat → Option Emitted}
    {kpos body epos : Nat} {kind : Kind}
    {count : Nat} {e : Emitted} (hemit : EmitSpec w emit) (hlen : tbl.length = idx + 1)
    (hrow : rowOf tbl idx = fieldInit name depth p base)
    (htag : typeTag w kpos = some (tn, k, body)) (hk : Kind.ofByte k = some kind)
    (harr : kind.isArray = true)
    (hem : emit (tbl ++ [fieldInit [] (depth + 1) (some idx) 0]) epos tbl.length (depth + 1) 0 = some e)
    (hok : ArrayOk { kind := kind, size := size, var := var, count := count } e.size
      (rowOf e.tbl tbl.length).var)
    (hwire : ArrayWire w { kind := kind, count := count } body epos) :
    TypeEmitted w tbl kpos idx depth base name p
      ⟨fillRow e.tbl idx kpos e.pos tn kind size var count 0 .u8, e.pos, size⟩ := by
  obtain ⟨hext, hname, hlaid, hsp⟩ := hemit _ _ _ _ _ _ hem (by simp) _ _ (rowOf_append_self _ _)
  have hlt := hext.length
  simp only [List.length_append, List.length_singleton] at hlt
  have hext' := extends_trans (extends_append (Nat.le_refl _)) hext (Nat.le_refl _)
  rw [hlen] at hlaid hname hsp hlt hok
  obtain ⟨hext, hlater, hself⟩ := fillRow_over kpos e.pos tn kind size var count 0 .u8 hlen hrow hext'
  have hkept : ∀ j, idx + 1 ≤ j → j < e.tbl.length → _ = rowOf e.tbl j :=
    fun j hlo _ => hlater j (by omega)
  refine ⟨hext, by rw [hself], ?_, ?_⟩
  · rw [length_fillRow, hself]
    refine .array ?_ ?_ ?_ (hlaid.congr hkept)
    · rw [hself]
      exact ⟨rfl, rfl, rfl, rfl, rfl, rfl, rfl, rfl⟩
    · rw [hself]
      exact harr
    · rw [hself]
      exact ⟨hok.elem_pos, hok.fixed, hok.size_var, hok.var⟩
  · rw [length_fillRow]
    refine @Spelled.array _ _ _ _ _ body epos _ ?_ ?_ ?_ (hsp.congr hkept)
    · rw [hself]
      exact ⟨⟨k, htag, hk⟩, rfl, rfl, rfl⟩
    · rw [hself]
      exact hwire
    · rw [hkept _ (Nat.le_refl _) (by omega)]
      exact hname

/-- A struct's members, laid out from its own start. -/
theorem emitStruct_laid {emit : Table → Nat → Nat → Nat → Nat → Option Emitted}
    (hemit : EmitSpec w emit) {total : Nat} {parent : Option Nat}
    {e : Emitted} {v : Bool} (h : emitStruct emit w total tbl pos depth parent base = some (e, v)) :
    Extends tbl tbl.length e.tbl ∧
      Laid (rowOf e.tbl) true tbl.length e.tbl.length depth parent base e.size v ∧
      ∃ nf mpos, rdU8 w pos = some (nf, mpos) ∧
        Spelled w (rowOf e.tbl) (some nf) tbl.length e.tbl.length mpos e.pos := by
  simp only [emitStruct, Option.bind_eq_bind] at h
  obtain ⟨⟨nf, pos₁⟩, hnf, h⟩ := Option.bind_eq_some_iff.mp h
  dsimp only at h
  split at h
  next => cases h
  obtain ⟨⟨e', v'⟩, hem, h⟩ := Option.bind_eq_some_iff.mp h
  simp only [Option.some.injEq, Prod.mk.injEq] at h
  obtain ⟨rfl, rfl⟩ := h
  obtain ⟨hext, hsp, size, mvar, hsize, hv, hlaid⟩ := emitMembers_laid hemit hem
  refine ⟨hext, ?_, nf, pos₁, hnf, hsp⟩
  rw [hsize, Nat.add_sub_cancel_left, hv, Bool.false_or]
  exact hlaid

/-- A fixed scalar's row. -/
theorem leafOk_scalar {f : Field} (hk : ∀ k, k ∈ [Kind.struct, .arr, .varr, .str, .enum, .vstr,
    .map, .named] → f.kind ≠ k) (hs : f.size = f.kind.scalarSize) (hv : f.var = false) :
    LeafOk f := by
  simp only [List.mem_cons, List.not_mem_nil, or_false, forall_eq_or_imp, forall_eq] at hk
  unfold LeafOk
  split
  next h => exact absurd h hk.2.2.2.1
  next h => exact absurd h hk.2.2.2.2.1
  next h => exact absurd h hk.2.2.2.2.2.1
  next h => exact absurd h hk.2.2.2.2.2.2.1
  next h => exact absurd h hk.2.1
  next h => exact absurd h hk.2.2.1
  next h => exact absurd h hk.1
  next h => exact absurd h hk.2.2.2.2.2.2.2
  next => exact ⟨hs, hv⟩

/-- A fixed scalar's wire is its kind byte. -/
theorem leafWire_scalar {f : Field} (hk : ∀ k, k ∈ [Kind.struct, .arr,
    .varr, .str, .enum, .vstr, .map, .named] → f.kind ≠ k) : LeafWire w f pos pos := by
  simp only [List.mem_cons, List.not_mem_nil, or_false, forall_eq_or_imp, forall_eq] at hk
  unfold LeafWire
  split
  next h => exact absurd h hk.2.2.2.1
  next h => exact absurd h hk.2.2.2.2.1
  next h => exact absurd h hk.2.1
  next h => exact absurd h hk.2.2.1
  next h => exact absurd h hk.1
  next h => exact absurd h hk.2.2.2.2.2.2.2
  next => rfl

/-- The rows a type flattens to are laid out, and spelled by its wire. -/
theorem emitType_laid (w : Bytes) (total : Nat) : ∀ n, EmitSpec w (emitType w total n) := by
  intro n
  induction n with
  | zero =>
    intro tbl pos idx depth base e h
    simp [emitType] at h
  | succ n ih =>
    intro tbl kpos idx depth base e h hlen name p hrow
    simp only [emitType, Option.bind_eq_bind] at h
    obtain ⟨⟨tn, k, pos⟩, htag, h⟩ := Option.bind_eq_some_iff.mp h
    simp only [emitBody, Option.bind_eq_bind] at h
    split at h
    next hk =>
      -- a struct over its members
      obtain ⟨⟨e', var⟩, hem, h⟩ := Option.bind_eq_some_iff.mp h
      simp only [Option.some.injEq] at h
      subst h
      obtain ⟨hext, hlaid, nf, mpos, hnf, hsp⟩ := emitStruct_laid ih hem
      rw [hlen] at hlaid hsp
      have hfill := fillRow_over kpos e'.pos tn .struct e'.size var 0 0 .u8 hlen hrow hext
      have hkept : ∀ j, idx + 1 ≤ j → j < e'.tbl.length → _ = rowOf e'.tbl j :=
        fun j hlo _ => hfill.2.1 j (by omega)
      refine ⟨hfill.1, by rw [hfill.2.2], ?_, ?_⟩
      · rw [length_fillRow, hfill.2.2]
        refine .struct ?_ ?_ (hlaid.congr hkept)
        · rw [hfill.2.2]
          exact ⟨rfl, rfl, rfl, rfl, rfl, rfl, rfl, rfl⟩
        · rw [hfill.2.2]
      · rw [length_fillRow]
        refine @Spelled.struct _ _ _ _ _ pos _ _ _ ?_ ?_ hnf (hsp.congr hkept)
        · rw [hfill.2.2]
          exact ⟨⟨k, htag, hk⟩, rfl, rfl, rfl⟩
        · rw [hfill.2.2]
    next hk =>
      -- a fixed count array over its element
      obtain ⟨⟨count, pos₁⟩, hcount, h⟩ := Option.bind_eq_some_iff.mp h
      dsimp only at h
      split at h
      next => cases h
      obtain ⟨e', hem, h⟩ := Option.bind_eq_some_iff.mp h
      split at h
      next => cases h
      next hpos =>
        split at h
        next => cases h
        simp only [Option.some.injEq] at h
        subst h
        refine fillRow_array ih hlen hrow htag hk rfl hem ⟨fun hv => ?_, fun _ hv => ?_, fun hv => ?_, ?_⟩
          (Or.inl ⟨rfl, hcount⟩)
        · simp only [hv, true_and] at hpos
          omega
        · simp [hv]
        · simp only at hv
          simp [hv]
        · simp
    next hk =>
      -- a variable array over its element
      split at h
      next => cases h
      obtain ⟨e', hem, h⟩ := Option.bind_eq_some_iff.mp h
      split at h
      next => cases h
      next hpos =>
        simp only [Option.some.injEq] at h
        subst h
        refine fillRow_array ih hlen hrow htag hk rfl hem ⟨fun hv => ?_, fun hc => ?_, fun _ => rfl, ?_⟩
          (Or.inr ⟨rfl, rfl, rfl⟩)
        · simp only [hv, true_and] at hpos
          omega
        · cases hc
        · simp
    next hk =>
      obtain ⟨⟨cap, pos₁⟩, hcap, h⟩ := Option.bind_eq_some_iff.mp h
      simp only [Option.some.injEq] at h
      subst h
      exact fillRow_leaf hlen hrow htag hk ⟨rfl, rfl⟩ hcap
    next hk =>
      obtain ⟨⟨b, pos₁⟩, hb, h⟩ := Option.bind_eq_some_iff.mp h
      obtain ⟨⟨opts, pos₂⟩, hopts, h⟩ := Option.bind_eq_some_iff.mp h
      dsimp only at h
      split at h
      next => cases h
      next backing hback =>
        split at h
        next => cases h
        next hok =>
          obtain ⟨pos₃, hskip, h⟩ := Option.bind_eq_some_iff.mp h
          simp only [Option.some.injEq] at h
          subst h
          rw [Bool.not_eq_false] at hok
          exact fillRow_leaf hlen hrow htag hk ⟨rfl, hok, rfl⟩
            ⟨b, pos₁, pos₂, hb, hback, hopts, hskip⟩
    next hk =>
      simp only [Option.some.injEq] at h
      subst h
      exact fillRow_leaf hlen hrow htag hk ⟨rfl, rfl⟩ rfl
    next hk =>
      simp only [Option.some.injEq] at h
      subst h
      exact fillRow_leaf hlen hrow htag hk ⟨rfl, rfl⟩ rfl
    next hk => cases h
    next kind h1 h2 h3 h4 h5 h6 h7 h8 hk =>
      -- a fixed scalar: every other kind has its own case
      simp only [Option.some.injEq] at h
      subst h
      have hother : ∀ k, k ∈ [Kind.struct, .arr, .varr, .str, .enum, .vstr, .map, .named] →
          kind ≠ k := by
        simp only [List.mem_cons, List.not_mem_nil, or_false, forall_eq_or_imp, forall_eq]
        exact ⟨h1, h2, h3, h4, h5, h6, h7, h8⟩
      exact fillRow_leaf hlen hrow htag hk (leafOk_scalar hother rfl rfl) (leafWire_scalar hother)
    next => cases h

/-! ## What a layout says of its rows -/

variable {mem : Bool} {d : Nat}

/-- Every row of a layout heads a type of its own, up to its `next`. -/
theorem Laid.block
    (h : Laid T mem i n d p base size var) (hlo : i ≤ j) (hhi : j < n) :
    (T j).next ≤ n ∧ Laid T false j (T j).next (T j).depth (T j).parent (T j).offset (T j).size
      (T j).var := by
  have hself : ∀ {i n d : Nat} {p : Option Nat} {base size : Nat} {var : Bool},
      Laid T false i n d p base size var → (T i).next ≤ n ∧
        Laid T false i (T i).next (T i).depth (T i).parent (T i).offset (T i).size (T i).var := by
    intro i n d p base size var h
    have hh := h.head
    rw [hh.next, hh.depth, hh.parent, hh.offset, hh.size, hh.var]
    exact ⟨Nat.le_refl _, h⟩
  induction h with
  | @leaf i d p base size var hh hl =>
    obtain rfl : j = i := by omega
    exact hself (.leaf hh hl)
  | @array i n d p base size var esize evar hh hk ha hrec ih =>
    by_cases hj : j = i
    · subst hj
      exact hself (.array hh hk ha hrec)
    · exact ih (by omega) hhi
  | @struct i n d p base size var hh hk hrec ih =>
    by_cases hj : j = i
    · subst hj
      exact hself (.struct hh hk hrec)
    · exact ih (by omega) hhi
  | nil => omega
  | @cons i m n d p base size size' var var' hfst hrest ih ih' =>
    by_cases hj : j < m
    · have hrec := ih hlo hj
      have hle := hrest.le
      exact ⟨by omega, hrec.2⟩
    · exact ih' (by omega) hhi

/-- A row of a layout that is not at its top has its parent in it, one level up, and is
that array's element or that struct's member. -/
theorem Laid.parent
    (h : Laid T mem i n d p base size var) (hlo : i ≤ j) (hhi : j < n) :
    ((T j).parent = p ∧ (T j).depth = d ∧ (mem = false → j = i)) ∨
      ∃ q, (T j).parent = some q ∧ (T j).depth = (T q).depth + 1 ∧ i ≤ q ∧ q < j ∧
        j < (T q).next ∧ ((T q).kind = .struct ∨ ((T q).kind.isArray = true ∧ j = q + 1)) := by
  induction h with
  | @leaf i d p base size var hh hl =>
    obtain rfl : j = i := by omega
    exact Or.inl ⟨hh.parent, hh.depth, fun _ => rfl⟩
  | @array i n d p base size var esize evar hh hk ha hrec ih =>
    by_cases hj : j = i
    · subst hj
      exact Or.inl ⟨hh.parent, hh.depth, fun _ => rfl⟩
    right
    rcases ih (by omega) hhi with ⟨hp, hd, hj'⟩ | ⟨q, hq, hd, h1, h2, h3, h4⟩
    · refine ⟨i, hp, ?_, Nat.le_refl _, by omega, by rw [hh.next]; omega, Or.inr ⟨hk, hj' rfl⟩⟩
      rw [hd, hh.depth]
    · exact ⟨q, hq, hd, by omega, h2, h3, h4⟩
  | @struct i n d p base size var hh hk hrec ih =>
    by_cases hj : j = i
    · subst hj
      exact Or.inl ⟨hh.parent, hh.depth, fun _ => rfl⟩
    right
    rcases ih (by omega) hhi with ⟨hp, hd, -⟩ | ⟨q, hq, hd, h1, h2, h3, h4⟩
    · refine ⟨i, hp, ?_, Nat.le_refl _, by omega, by rw [hh.next]; omega, Or.inl hk⟩
      rw [hd, hh.depth]
    · exact ⟨q, hq, hd, by omega, h2, h3, h4⟩
  | nil => omega
  | @cons i m n d p base size size' var var' hfst hrest ih ih' =>
    by_cases hj : j < m
    · rcases ih hlo hj with ⟨hp, hd, -⟩ | hq
      · exact Or.inl ⟨hp, hd, fun hc => by cases hc⟩
      · exact Or.inr hq
    · have hle := hfst.le
      rcases ih' (by omega) hhi with ⟨hp, hd, -⟩ | ⟨q, hq, hd, h1, h2, h3, h4⟩
      · exact Or.inl ⟨hp, hd, fun hc => by cases hc⟩
      · exact Or.inr ⟨q, hq, hd, by omega, h2, h3, h4⟩

/-- The top rows of a layout are stored inside it, and it is variable when one of them
is. -/
theorem Laid.bounds
    (h : Laid T mem i n d p base size var) (hp : ∀ q, p = some q → q < i) (hlo : i ≤ j)
    (hhi : j < n) (htop : (T j).parent = p) :
    base ≤ (T j).offset ∧ (T j).offset + (T j).size ≤ base + size ∧
      ((T j).var = true → var = true) := by
  have hself : ∀ {i n d : Nat} {p : Option Nat} {base size : Nat} {var : Bool} {j : Nat},
      Laid T false i n d p base size var → (∀ q, p = some q → q < i) → i ≤ j → j < n →
      (T j).parent = p → base ≤ (T j).offset ∧ (T j).offset + (T j).size ≤ base + size ∧
      ((T j).var = true → var = true) := by
    intro i n d p base size var j h hp hlo hhi htop
    rcases h.parent hlo hhi with ⟨-, -, hj⟩ | ⟨q, hq, -, hiq, -⟩
    · obtain rfl := hj rfl
      have hh := h.head
      rw [hh.offset, hh.size, hh.var]
      exact ⟨Nat.le_refl _, Nat.le_refl _, id⟩
    · have := hp q (htop.symm.trans hq)
      omega
  induction h with
  | leaf hh hl => exact hself (.leaf hh hl) hp hlo hhi htop
  | array hh hk ha hrec => exact hself (.array hh hk ha hrec) hp hlo hhi htop
  | struct hh hk hrec => exact hself (.struct hh hk hrec) hp hlo hhi htop
  | nil => omega
  | @cons i m n d p base size size' var var' hfst hrest _ ih =>
    by_cases hj : j < m
    · obtain ⟨h1, h2, h3⟩ := hself hfst hp hlo hj htop
      refine ⟨h1, by omega, fun hv => ?_⟩
      rw [h3 hv, Bool.true_or]
    · have hle := hfst.le
      have hrec := ih (fun q hq => by have := hp q hq; omega) (by omega) hhi htop
      refine ⟨by omega, by omega, fun hv => ?_⟩
      rw [hrec.2.2 hv, Bool.or_true]

/-- The top rows of a layout are stored one behind the other. -/
theorem Laid.disjoint
    (h : Laid T mem i n d p base size var) (hp : ∀ q, p = some q → q < i) (hlo : i ≤ j)
    (hjk : j < k) (hhi : k < n) (hj : (T j).parent = p) (hk : (T k).parent = p) :
    (T j).offset + (T j).size ≤ (T k).offset := by
  have hself : ∀ {i n d : Nat} {p : Option Nat} {base size : Nat} {var : Bool} {j k : Nat},
      Laid T false i n d p base size var → (∀ q, p = some q → q < i) → i ≤ j → j < k → k < n →
      (T k).parent ≠ p := by
    intro i n d p base size var j k h hp hlo hjk hhi htop
    rcases h.parent (j := k) (by omega) hhi with ⟨-, -, hk⟩ | ⟨q, hq, -, hiq, -⟩
    · have := hk rfl
      omega
    · have := hp q (htop.symm.trans hq)
      omega
  induction h with
  | leaf hh hl => exact absurd hk (hself (.leaf hh hl) hp hlo hjk hhi)
  | array hh hk' ha hrec => exact absurd hk (hself (.array hh hk' ha hrec) hp hlo hjk hhi)
  | struct hh hk' hrec => exact absurd hk (hself (.struct hh hk' hrec) hp hlo hjk hhi)
  | nil => omega
  | @cons i m n d p base size size' var var' hfst hrest _ ih =>
    have hle := hfst.le
    have hp' : ∀ q, p = some q → q < m := fun q hq => by have := hp q hq; omega
    by_cases hkm : k < m
    · exact absurd hk (hself hfst hp hlo hjk hkm)
    by_cases hjm : j < m
    · have h1 := hfst.bounds hp hlo hjm hj
      have h2 := hrest.bounds hp' (by omega) hhi hk
      omega
    · exact ih hp' (by omega) hhi hj hk

end Rant.Serialize
