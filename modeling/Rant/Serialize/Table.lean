import Rant.Serialize.WireCheck
import Rant.Serialize.Message
/-!
# The rows of a compiled schema

What `Laid` and `PlacedTo` say together, row by row, in the columns a reader uses: the
ranges `[row, next)` nest, a row's nearest array is the innermost one around it, a
record's fixed rows lie inside its fixed bytes, and a record's frames are numbered each
once. `framed_found` is the one a message needs most: looking for a frame's row finds it.
-/

namespace Rant.Serialize

/-- The record a row is stored in is a row of the table. -/
theorem rowRecord_eq_none {f : Field} : rowRecord f = none ↔ f.arrParent = none := by
  unfold rowRecord
  cases f.arrParent <;> simp

theorem rowRecord_eq_some {f : Field} {r : Nat} :
    rowRecord f = some r ↔ ∃ a, f.arrParent = some a ∧ r = a + 1 := by
  unfold rowRecord
  cases f.arrParent with
  | none => simp
  | some a => simp [eq_comm]

section
variable {s : Schema} {t₀ : Table}

namespace Built

variable (hb : Built s t₀)
include hb

theorem length : t₀.length = s.nfields := hb.placed.same.length.symm

theorem kind (j : Nat) : (s.row j).kind = (rowOf t₀ j).kind := hb.placed.same.kind j
theorem var (j : Nat) : (s.row j).var = (rowOf t₀ j).var := hb.placed.same.var j
theorem parent (j : Nat) : (s.row j).parent = (rowOf t₀ j).parent := hb.placed.same.parent j
theorem size (j : Nat) : (s.row j).size = (rowOf t₀ j).size := hb.placed.same.size j
theorem next (j : Nat) : (s.row j).next = (rowOf t₀ j).next := hb.placed.same.next j

theorem depth (j : Nat) : (s.row j).depth = (rowOf t₀ j).depth := by
  have := hb.placed.same.row j
  unfold SameRow at this
  unfold Schema.row
  rw [this]

theorem count (j : Nat) : (s.row j).count = (rowOf t₀ j).count := by
  have := hb.placed.same.row j
  unfold SameRow at this
  unfold Schema.row
  rw [this]

variable {j : Nat}

theorem placedRow (hj : j < s.nfields) : RowPlaced t₀ s.fields j := hb.placed.placed j hj

/-! ## Ranges -/

/-- Row `j` heads a type of its own. -/
theorem block {j : Nat} (hj : j < s.nfields) :
    Laid (rowOf t₀) false j (s.row j).next (s.row j).depth (s.row j).parent (rowOf t₀ j).offset
      (s.row j).size (s.row j).var := by
  obtain ⟨v, hlaid⟩ := hb.laid
  have h := (hlaid.block (Nat.zero_le j) (by rw [hb.length]; exact hj)).2
  rw [hb.next, hb.depth, hb.parent, hb.size, hb.var]
  exact h

theorem next_le (hj : j < s.nfields) : (s.row j).next ≤ s.nfields := by
  obtain ⟨v, hlaid⟩ := hb.laid
  have h := (hlaid.block (Nat.zero_le j) (by rw [hb.length]; exact hj)).1
  rw [hb.next, ← hb.length]
  exact h

theorem lt_next (hj : j < s.nfields) : j < (s.row j).next := by
  have h := (hb.block hj).le
  simp only [Bool.false_eq_true, if_false] at h
  omega

variable {b : Nat}

/-- The ranges nest. -/
theorem next_nested (hb' : b < s.nfields) (hlo : b ≤ j) (hhi : j < (s.row b).next) :
    (s.row j).next ≤ (s.row b).next := by
  have h := ((hb.block hb').block hlo hhi).1
  rw [hb.next j]
  exact h

/-- A row strictly inside another's range has its parent there. -/
theorem parent_inside (hb' : b < s.nfields) (hlo : b < j) (hhi : j < (s.row b).next) :
    ∃ q, (s.row j).parent = some q ∧ b ≤ q := by
  rcases (hb.block hb').parent (by omega) hhi with ⟨-, -, hj⟩ | ⟨q, hq, -, hbq, -⟩
  · have := hj rfl
    omega
  · exact ⟨q, (hb.parent j).trans hq, hbq⟩

/-- A parent is a struct around its member or an array right before its element. -/
theorem parent_spec {q : Nat} (hj : j < s.nfields) (hq : (s.row j).parent = some q) :
    q < j ∧ j < (s.row q).next ∧ (s.row j).depth = (s.row q).depth + 1 ∧
      ((s.row q).kind = .struct ∨ ((s.row q).kind.isArray = true ∧ j = q + 1)) := by
  obtain ⟨v, hlaid⟩ := hb.laid
  have hpar := hlaid.parent (Nat.zero_le j) (by rw [hb.length]; exact hj)
  rw [hb.parent j] at hq
  rcases hpar with ⟨hp, -⟩ | ⟨q', hq', hd, -, hlt, hnext, hkind⟩
  · cases hp.symm.trans hq
  · obtain rfl := Option.some.inj (hq'.symm.trans hq)
    rw [hb.next q', hb.depth j, hb.depth q', hb.kind q']
    exact ⟨hlt, hnext, hd, hkind⟩

/-! ## Arrays -/

/-- An array is over its element, the row after it. -/
theorem elem {a : Nat} (ha : a < s.nfields) (hk : (s.row a).kind.isArray = true) :
    a + 1 < s.nfields ∧ (s.row (a + 1)).next = (s.row a).next ∧
      (s.row (a + 1)).parent = some a ∧ (rowOf t₀ (a + 1)).offset = 0 ∧
      ArrayOk (s.row a) (s.row (a + 1)).size (s.row (a + 1)).var := by
  have hblock := hb.block ha
  have hnext := hb.next_le ha
  have hk₀ : (rowOf t₀ a).kind.isArray = true := by
    rw [← hb.kind]
    exact hk
  rcases hblock.row with ⟨-, hl⟩ | ⟨esize, evar, -, hok, hrec⟩ | ⟨hks, -⟩
  · exact Bool.noConfusion (hl.kind.2.symm.trans hk₀)
  · have hle := hrec.le
    simp only [Bool.false_eq_true, if_false] at hle
    have hhead := hrec.head
    refine ⟨by omega, ?_, ?_, hhead.offset, ?_⟩
    · rw [hb.next (a + 1)]
      exact hhead.next
    · rw [hb.parent (a + 1)]
      exact hhead.parent
    · rw [hb.size (a + 1), hb.var (a + 1), hhead.size, hhead.var]
      refine ⟨hok.elem_pos, fun h1 h2 => ?_, fun h1 => ?_, ?_⟩
      · rw [hb.size a, hb.count a]
        exact hok.fixed ((hb.kind a).symm.trans h1) h2
      · rw [hb.size a]
        exact hok.size_var ((hb.var a).symm.trans h1)
      · rw [hb.var a, hb.kind a]
        exact hok.var
  · rw [hks] at hk₀
    cases hk₀

/-- The nearest array of a row. -/
theorem arrParent_eq (hj : j < s.nfields) :
    (s.row j).arrParent = match (s.row j).parent with
      | none => none
      | some p => if (s.row p).kind.isArray then some p else (s.row p).arrParent :=
  (hb.placedRow hj).arrParent

/-- A row's nearest array is an array around it. -/
theorem arrParent_around {a : Nat} (hj : j < s.nfields) (ha : (s.row j).arrParent = some a) :
    (s.row a).kind.isArray = true ∧ a < j ∧ j < (s.row a).next := by
  induction j using Nat.strongRecOn with
  | _ j ih =>
    rw [hb.arrParent_eq hj] at ha
    cases hp : (s.row j).parent with
    | none =>
      rw [hp] at ha
      cases ha
    | some p =>
      obtain ⟨hlt, hnext, -, -⟩ := hb.parent_spec hj hp
      rw [hp] at ha
      dsimp only at ha
      split at ha
      next hk =>
        obtain rfl := Option.some.inj ha
        exact ⟨hk, hlt, hnext⟩
      obtain ⟨hk, hap, hpn⟩ := ih p hlt (by omega) ha
      have hnest := hb.next_nested (by omega) (by omega : a ≤ p) hpn
      exact ⟨hk, by omega, by omega⟩

/-- Every array around a row is its nearest array or lies around that. -/
theorem arrParent_nearest (hj : j < s.nfields) (hk : (s.row b).kind.isArray = true) (hlo : b < j)
    (hhi : j < (s.row b).next) : ∃ a, (s.row j).arrParent = some a ∧ b ≤ a := by
  induction j using Nat.strongRecOn with
  | _ j ih =>
    obtain ⟨p, hp, hbp⟩ := hb.parent_inside (by omega) hlo hhi
    obtain ⟨hlt, hnext, -, -⟩ := hb.parent_spec hj hp
    rw [hb.arrParent_eq hj, hp]
    dsimp only
    split
    next => exact ⟨p, rfl, hbp⟩
    next hkp =>
      have hne : b ≠ p := by
        rintro rfl
        exact hkp hk
      exact ih p hlt (by omega) (by omega) (by omega)

variable {k : Nat}

/-- The nearest array, told by the ranges alone. -/
theorem arrParent_congr (hj : j < s.nfields) (hk : k < s.nfields)
    (h : ∀ a, (s.row a).kind.isArray = true →
      ((a < j ∧ j < (s.row a).next) ↔ (a < k ∧ k < (s.row a).next))) :
    (s.row j).arrParent = (s.row k).arrParent := by
  cases hja : (s.row j).arrParent with
  | none =>
    cases hka : (s.row k).arrParent with
    | none => rfl
    | some b =>
      obtain ⟨hbk, hb1⟩ := hb.arrParent_around hk hka
      obtain ⟨hlo, hhi⟩ := (h b hbk).mpr hb1
      obtain ⟨a, ha, -⟩ := hb.arrParent_nearest hj hbk hlo hhi
      cases hja.symm.trans ha
  | some a =>
    obtain ⟨hak, ha1⟩ := hb.arrParent_around hj hja
    obtain ⟨hlo, hhi⟩ := (h a hak).mp ha1
    obtain ⟨b, hkb, hab⟩ := hb.arrParent_nearest hk hak hlo hhi
    obtain ⟨hbk, hb1⟩ := hb.arrParent_around hk hkb
    obtain ⟨hlo', hhi'⟩ := (h b hbk).mpr hb1
    obtain ⟨a', ha', hba⟩ := hb.arrParent_nearest hj hbk hlo' hhi'
    obtain rfl := Option.some.inj (hja.symm.trans ha')
    rw [hkb, Nat.le_antisymm hab hba]

/-- An array's element has that array nearest. -/
theorem arrParent_elem {a : Nat} (ha : a < s.nfields) (hk : (s.row a).kind.isArray = true) :
    (s.row (a + 1)).arrParent = some a := by
  obtain ⟨hlt, -, hp, -⟩ := hb.elem ha hk
  rw [hb.arrParent_eq hlt, hp]
  dsimp only
  rw [if_pos hk]

/-! ## Depths -/

theorem arrDepth_eq (hj : j < s.nfields) :
    (s.row j).arrDepth = match (s.row j).arrParent with
      | none => 0
      | some a => (s.row a).arrDepth + 1 :=
  (hb.placedRow hj).arrDepth

/-- The arrays around a row are fewer than its depth. -/
theorem arrDepth_le (hj : j < s.nfields) : (s.row j).arrDepth ≤ (s.row j).depth ∧
    ∀ a, (s.row j).arrParent = some a → (s.row a).depth < (s.row j).depth := by
  induction j using Nat.strongRecOn with
  | _ j ih =>
    have hnear : ∀ a, (s.row j).arrParent = some a → (s.row a).depth < (s.row j).depth := by
      intro a ha
      rw [hb.arrParent_eq hj] at ha
      cases hp : (s.row j).parent with
      | none =>
        rw [hp] at ha
        cases ha
      | some p =>
        obtain ⟨hlt, -, hd, -⟩ := hb.parent_spec hj hp
        rw [hp] at ha
        dsimp only at ha
        split at ha
        next =>
          obtain rfl := Option.some.inj ha
          omega
        next =>
          have := (ih p hlt (by omega)).2 a ha
          omega
    refine ⟨?_, hnear⟩
    rw [hb.arrDepth_eq hj]
    cases ha : (s.row j).arrParent with
    | none => exact Nat.zero_le _
    | some a =>
      obtain ⟨-, hlt, -⟩ := hb.arrParent_around hj ha
      have h1 := hnear a ha
      have h2 := (ih a hlt (by omega)).1
      show (s.row a).arrDepth + 1 ≤ _
      omega

/-- A row has at most `RANT_SCHEMA_MAX_DEPTH` arrays around it. -/
theorem arrDepth_max (hj : j < s.nfields) : (s.row j).arrDepth ≤ maxDepth := by
  rw [hb.arrDepth_eq hj]
  cases ha : (s.row j).arrParent with
  | none => exact Nat.zero_le _
  | some a =>
    obtain ⟨hk, hlt, -⟩ := hb.arrParent_around hj ha
    have hsh := hb.shallow a (Nat.zero_le a) (by rw [hb.length]; omega) (by
      rw [← hb.kind]
      exact hk)
    have hle := (hb.arrDepth_le (j := a) (by omega)).1
    rw [hb.depth] at hle
    show (s.row a).arrDepth + 1 ≤ _
    omega

/-! ## Sizes -/

/-- The fixed size of a row that carries none is 0: it rides a frame or is an element. -/
theorem size_var {j : Nat} (hj : j < s.nfields) (hv : (s.row j).var = true)
    (hk : (s.row j).kind ≠ .struct) : (s.row j).size = 0 := by
  have hhead := (hb.block hj).head
  rw [hb.kind] at hk
  rcases (hb.block hj).row with ⟨-, hl⟩ | ⟨esize, evar, -, hok, -⟩ | ⟨hks, -⟩
  · rw [← hhead.size]
    exact hl.size_var (hhead.var.trans hv)
  · rw [← hhead.size]
    exact hok.size_var (hhead.var.trans hv)
  · exact absurd hks hk

/-- A row's storage lies inside the fixed bytes of its record. -/
theorem stored_inside (hj : j < s.nfields) :
    (rowOf t₀ j).offset + (s.row j).size ≤ s.recSize (rowRecord (s.row j)) := by
  induction j using Nat.strongRecOn with
  | _ j ih =>
    have hap := hb.arrParent_eq hj
    cases hp : (s.row j).parent with
    | none =>
      rw [hp] at hap
      obtain ⟨v, hlaid⟩ := hb.laid
      have hbound := hlaid.bounds (fun _ hq => by cases hq) (Nat.zero_le j)
        (by rw [hb.length]; exact hj) ((hb.parent j).symm.trans hp)
      rw [rowRecord_eq_none.mpr hap, hb.size]
      show _ ≤ s.size
      omega
    | some p =>
      obtain ⟨hlt, hnext, -, hkind⟩ := hb.parent_spec hj hp
      rw [hp] at hap
      dsimp only at hap
      rcases hkind with hk | ⟨hk, rfl⟩
      · rw [hk] at hap
        have hrec : rowRecord (s.row j) = rowRecord (s.row p) := congrArg (Option.map (· + 1)) hap
        have hup := ih p hlt (by omega)
        rw [hrec]
        -- a member of a struct is stored inside it
        rw [hb.kind] at hk
        rcases (hb.block (j := p) (by omega)).row with ⟨-, hl⟩ | ⟨-, -, hk', -, -⟩ | ⟨-, hmem⟩
        · exact absurd hk hl.kind.1
        · rw [hk] at hk'
          cases hk'
        · have hbound := hmem.bounds (fun q hq => by obtain rfl := Option.some.inj hq; omega)
            (by omega) hnext ((hb.parent j).symm.trans hp)
          rw [hb.size j]
          omega
      · rw [if_pos hk] at hap
        rw [rowRecord_eq_some.mpr ⟨p, hap, rfl⟩]
        obtain ⟨-, -, -, hoff, -⟩ := hb.elem (by omega) hk
        rw [hoff]
        show _ ≤ (s.row (p + 1)).size
        omega

/-- A row without a frame lies inside the fixed bytes of its record. -/
theorem fixed_inside (hj : j < s.nfields) (hf : rowFramed s.fields (s.row j) = false) :
    (s.row j).offset + (s.row j).size ≤ s.recSize (rowRecord (s.row j)) := by
  have h := hb.stored_inside hj
  have hoff := (hb.placedRow hj).fixed hf
  show (rowOf s.fields j).offset + _ ≤ _
  rw [hoff]
  exact h

/-! ## Frames -/

/-- A framed row has no fixed bytes. -/
theorem framed_size (hj : j < s.nfields) (hf : rowFramed s.fields (s.row j) = true) :
    (s.row j).size = 0 := by
  unfold rowFramed at hf
  simp only [Bool.and_eq_true, decide_eq_true_eq] at hf
  exact hb.size_var hj hf.1.1 hf.1.2

theorem recFrames_eq (r : Option Nat) : s.recFrames r = framesBelow s.fields r s.nfields := by
  cases r with
  | none => exact hb.placed.ord
  | some r => exact hb.placed.nVar r

theorem varOrd_eq (hj : j < s.nfields) (hf : rowFramed s.fields (s.row j) = true) :
    (s.row j).varOrd = framesBelow s.fields (rowRecord (s.row j)) j :=
  ((hb.placedRow hj).framed hf).2

/-- A framed row's ordinal is one of its record's. -/
theorem varOrd_lt (hj : j < s.nfields) (hf : rowFramed s.fields (s.row j) = true) :
    (s.row j).varOrd < s.recFrames (rowRecord (s.row j)) := by
  rw [hb.varOrd_eq hj hf, hb.recFrames_eq]
  exact framesBelow_lt hj hf rfl

/-- No two framed rows of one record share an ordinal. -/
theorem varOrd_inj (hj : j < s.nfields) (hk : k < s.nfields)
    (hfj : rowFramed s.fields (s.row j) = true) (hfk : rowFramed s.fields (s.row k) = true)
    (hrec : rowRecord (s.row j) = rowRecord (s.row k))
    (hord : (s.row j).varOrd = (s.row k).varOrd) : j = k := by
  rw [hb.varOrd_eq hj hfj, hb.varOrd_eq hk hfk, ← hrec] at hord
  rcases Nat.lt_trichotomy j k with h | h | h
  · have := framesBelow_lt (r := rowRecord (s.row j)) h hfj rfl
    omega
  · exact h
  · have := framesBelow_lt (r := rowRecord (s.row j)) h hfk hrec.symm
    omega

/-! ## Looking for a frame's row -/

/-- A row further on in the same arrays has the same nearest one. -/
theorem arrParent_skip {n : Nat} (hk : k < s.nfields) (hn : n < s.nfields)
    (hout : ∀ b, (s.row b).kind.isArray = true → b < k → k < (s.row b).next → n < (s.row b).next)
    (hin : ∀ b, (s.row b).kind.isArray = true → k ≤ b → b < n → (s.row b).next ≤ n)
    (hkn : k < n) : (s.row n).arrParent = (s.row k).arrParent := by
  apply hb.arrParent_congr hn hk
  intro b hbk
  constructor
  · rintro ⟨hlo, hhi⟩
    by_cases hbk' : b < k
    · exact ⟨hbk', by omega⟩
    · have := hin b hbk (by omega) hlo
      omega
  · rintro ⟨hlo, hhi⟩
    exact ⟨by omega, hout b hbk hlo hhi⟩

/-- A row under another that is no struct lies in an array the other does not. -/
theorem arrParent_below {f : Nat} (hk : k < s.nfields) (hks : (s.row k).kind ≠ .struct)
    (hlo : k < f) (hhi : f < (s.row k).next) : (s.row f).arrParent ≠ (s.row k).arrParent := by
  have hle := hb.next_le hk
  have hka : (s.row k).kind.isArray = true := by
    rw [hb.kind] at hks ⊢
    rcases (hb.block hk).row with ⟨hn, -⟩ | ⟨-, -, hka, -, -⟩ | ⟨hs, -⟩
    · omega
    · exact hka
    · exact absurd hs hks
  obtain ⟨a, ha, hka'⟩ := hb.arrParent_nearest (by omega) hka hlo hhi
  intro hc
  rw [ha] at hc
  have := hb.arrParent_around hk hc.symm
  omega

end Built

/-- A schema of the same rows, their places aside. -/
def SameShape (s v : Schema) : Prop :=
  v.nfields = s.nfields ∧ ∀ f, v.row f =
    { s.row f with offset := (v.row f).offset, varOrd := (v.row f).varOrd }

omit t₀ in
theorem sameShape_refl (s : Schema) : SameShape s s := ⟨rfl, fun _ => rfl⟩

namespace SameShape

variable {v : Schema} (hv : SameShape s v)
include hv

theorem kind (f : Nat) : (v.row f).kind = (s.row f).kind := by rw [hv.2 f]
theorem next (f : Nat) : (v.row f).next = (s.row f).next := by rw [hv.2 f]
theorem var (f : Nat) : (v.row f).var = (s.row f).var := by rw [hv.2 f]
theorem size (f : Nat) : (v.row f).size = (s.row f).size := by rw [hv.2 f]
theorem arrParent (f : Nat) : (v.row f).arrParent = (s.row f).arrParent := by rw [hv.2 f]

theorem framed (f : Nat) :
    rowFramed v.fields (v.row f) = rowFramed s.fields (s.row f) := by
  unfold rowFramed
  rw [hv.2 f]
  dsimp only
  cases (s.row f).parent with
  | none => rfl
  | some p =>
    dsimp only
    rw [show (rowOf v.fields p).kind = (rowOf s.fields p).kind from hv.kind p]

theorem recLast (r : Option Nat) : v.recLast r = s.recLast r := by
  cases r with
  | none => exact hv.1
  | some e => exact hv.next e

end SameShape

/-- `r` is the message or the record of a struct element. -/
def RecordOf (s : Schema) (r : Option Nat) : Prop :=
  ∀ e, r = some e → ∃ a, e = a + 1 ∧ a < s.nfields ∧ (s.row a).kind.isArray = true ∧
    (s.row e).kind = .struct

/-- A place of the walk over the rows of record `r`: one of them, or past their end. -/
def AtRecord (s : Schema) (r : Option Nat) (k : Nat) : Prop :=
  recFirst r ≤ k ∧ (k < s.recLast r → rowRecord (s.row k) = r)

namespace Built

variable (hb : Built s t₀)
include hb

variable {r : Option Nat}

/-- A record's rows are the table's. -/
theorem recLast_le (hr : RecordOf s r) : s.recLast r ≤ s.nfields := by
  cases r with
  | none => exact Nat.le_refl _
  | some e =>
    obtain ⟨a, rfl, ha, hk, -⟩ := hr e rfl
    exact hb.next_le (hb.elem ha hk).1

variable {k : Nat}

/-- Every array around a row of a record holds all of it. -/
theorem record_inside (hr : RecordOf s r) {b : Nat} (hk : k < s.nfields)
    (hrec : rowRecord (s.row k) = r) (hbk : (s.row b).kind.isArray = true) (hlo : b < k)
    (hhi : k < (s.row b).next) : s.recLast r ≤ (s.row b).next := by
  obtain ⟨a, ha, hba⟩ := hb.arrParent_nearest hk hbk hlo hhi
  rw [rowRecord_eq_some.mpr ⟨a, ha, rfl⟩] at hrec
  obtain ⟨a', hae, ha', hak, -⟩ := hr (a + 1) hrec.symm
  obtain rfl : a = a' := by omega
  obtain ⟨-, hnext, -⟩ := hb.elem ha' hak
  rw [← hrec]
  show (s.row (a + 1)).next ≤ _
  rw [hnext]
  have haround := hb.arrParent_around hk ha
  exact hb.next_nested (by omega) hba (by omega)

/-- A record's walk starts at one of its rows. -/
theorem atRecord_first (hr : RecordOf s r) : AtRecord s r (recFirst r) := by
  refine ⟨Nat.le_refl _, fun hlt => ?_⟩
  have hle := hb.recLast_le hr
  cases r with
  | none =>
    rw [rowRecord_eq_none]
    cases ha : (s.row (recFirst none)).arrParent with
    | none => rfl
    | some a =>
      have hlt' : recFirst none < s.nfields := hlt
      have := (hb.arrParent_around hlt' ha).2.1
      exact absurd this (Nat.not_lt_zero a)
  | some e =>
    obtain ⟨a, rfl, ha, hak, hes⟩ := hr e rfl
    have hlt' : a + 1 + 1 < (s.row (a + 1)).next := hlt
    have hle' : (s.row (a + 1)).next ≤ s.nfields := hle
    rw [rowRecord_eq_some]
    refine ⟨a, ?_, rfl⟩
    rw [← hb.arrParent_elem ha hak]
    refine hb.arrParent_skip (by omega) (by omega) (fun b _ hlo hhi => ?_) (fun b hbk hlo hhi => ?_)
      (Nat.lt_succ_self _)
    · have hnest := hb.next_nested (b := b) (j := a + 1) (by omega) (by omega) hhi
      show a + 1 + 1 < _
      omega
    · have hba : b < a + 1 + 1 := hhi
      obtain rfl : b = a + 1 := by omega
      rw [hes] at hbk
      cases hbk

/-- Past a row's subtree comes the next row of its record. -/
theorem atRecord_next (hr : RecordOf s r) (h : AtRecord s r k)
    (hk : k < s.recLast r) : AtRecord s r (s.row k).next := by
  have hle := hb.recLast_le hr
  have hlt := hb.lt_next (j := k) (by omega)
  refine ⟨Nat.le_trans h.1 (by omega), fun hn => ?_⟩
  rw [← h.2 hk]
  refine congrArg (Option.map (· + 1)) (hb.arrParent_skip (by omega) (by omega) ?_ ?_ hlt)
  · intro b hbk hlo hhi
    have := hb.record_inside hr (by omega) (h.2 hk) hbk hlo hhi
    omega
  · intro b _ hlo hhi
    exact hb.next_nested (by omega) hlo hhi

/-- Past a row that is no array comes the next row of its record. -/
theorem atRecord_succ (hr : RecordOf s r) (h : AtRecord s r k)
    (hk : k < s.recLast r) (hka : (s.row k).kind.isArray = false) : AtRecord s r (k + 1) := by
  have hle := hb.recLast_le hr
  refine ⟨Nat.le_succ_of_le h.1, fun hn => ?_⟩
  rw [← h.2 hk]
  refine congrArg (Option.map (· + 1)) (hb.arrParent_skip (by omega) (by omega) ?_ ?_
    (Nat.lt_succ_self k))
  · intro b hbk hlo hhi
    have := hb.record_inside hr (by omega) (h.2 hk) hbk hlo hhi
    omega
  · intro b hbk hlo hhi
    obtain rfl : b = k := by omega
    exact Bool.noConfusion (hka.symm.trans hbk)

/-- A variable array among a record's rows rides a frame. -/
theorem varr_framed (hk : k < s.nfields)
    (hrec : rowRecord (s.row k) = r) (hfirst : recFirst r ≤ k) (hv : (s.row k).kind = .varr) :
    rowFramed s.fields (s.row k) = true := by
  have hka : (s.row k).kind.isArray = true := by
    rw [hv]
    rfl
  have hvar : (s.row k).var = true := by
    obtain ⟨-, -, -, -, hok⟩ := hb.elem hk hka
    rw [hok.var, hv]
    rfl
  unfold rowFramed
  rw [hvar, hv]
  have hap := hb.arrParent_eq hk
  cases hp : (s.row k).parent with
  | none => rfl
  | some p =>
    show (true && true && !(s.row p).kind.isArray) = true
    rw [hp] at hap
    dsimp only at hap
    cases hpk : (s.row p).kind.isArray with
    | false => rfl
    | true =>
      -- an element would be the record itself
      rw [hpk, if_pos rfl] at hap
      rw [rowRecord_eq_some.mpr ⟨p, hap, rfl⟩] at hrec
      have hcase := (hb.parent_spec hk hp).2.2.2
      rcases hcase with hs | ⟨-, hkp⟩
      · rw [hs] at hpk
        cases hpk
      · rw [← hrec] at hfirst
        have hfirst' : p + 1 + 1 ≤ k := hfirst
        omega

/-- The walk over a record's rows ends; a row it finds holds the frame it looked for, and
it finds one if there is one further on. -/
theorem recordRowFrom_spec {v : Schema} (hv : SameShape s v) (hr : RecordOf s r)
    (ord : Nat) {n : Nat} : ∀ {k : Nat}, AtRecord s r k → s.recLast r < k + n → 0 < n →
      ∃ o, recordRowFrom v (s.recLast r) ord n k = some o ∧
        (∀ f, o = some f → k ≤ f ∧ f < s.recLast r ∧ rowFramed s.fields (s.row f) = true ∧
          rowRecord (s.row f) = r ∧ (v.row f).varOrd = ord) ∧
        (∀ f, k ≤ f → f < s.recLast r → rowFramed s.fields (s.row f) = true →
          rowRecord (s.row f) = r → (v.row f).varOrd = ord → o ≠ none) := by
  have hle := hb.recLast_le hr
  induction n with
  | zero =>
    intro k _ _ hpos
    exact absurd hpos (Nat.lt_irrefl 0)
  | succ n ih =>
    intro k hat hn _
    unfold recordRowFrom
    rw [hv.framed, hv.kind, hv.next]
    split
    next hk =>
      have hkn := hb.lt_next (j := k) (by omega)
      -- a row under a frame or a fixed array belongs to another record
      have hunder : ∀ f, k < f → f < (s.row k).next → (s.row k).kind ≠ .struct →
          rowRecord (s.row f) ≠ r := by
        intro f hlo hhi hks hrec
        have hne := hb.arrParent_below (by omega) hks hlo hhi
        rw [← hat.2 hk] at hrec
        unfold rowRecord at hrec
        have hinj : Function.Injective (Option.map (· + 1) : Option Nat → Option Nat) :=
          Option.map_injective fun a b h => Nat.succ.inj h
        exact hne (hinj hrec)
      split
      next hf =>
        have hks : (s.row k).kind ≠ .struct := by
          intro hc
          unfold rowFramed at hf
          rw [hc] at hf
          simp at hf
        split
        next hord =>
          refine ⟨some k, rfl, fun f hfk => ?_, fun f _ _ _ _ _ hc => by cases hc⟩
          obtain rfl := Option.some.inj hfk
          exact ⟨Nat.le_refl _, hk, hf, hat.2 hk, hord⟩
        next hord =>
          obtain ⟨o, ho, hsound, hfinds⟩ :=
            ih (hb.atRecord_next hr hat hk) (by omega) (by omega)
          refine ⟨o, ho, fun f hfo => ?_, fun f hkf hfl hff hrec hford => ?_⟩
          · obtain ⟨h1, h2⟩ := hsound f hfo
            exact ⟨by omega, h2⟩
          · have hne : f ≠ k := by
              rintro rfl
              exact hord hford
            by_cases hfn : f < (s.row k).next
            · exact absurd hrec (hunder f (by omega) hfn hks)
            · exact hfinds f (by omega) hfl hff hrec hford
      next hf =>
        split
        next hka =>
          obtain ⟨o, ho, hsound, hfinds⟩ :=
            ih (hb.atRecord_next hr hat hk) (by omega) (by omega)
          refine ⟨o, ho, fun f hfo => ?_, fun f hkf hfl hff hrec hford => ?_⟩
          · obtain ⟨h1, h2⟩ := hsound f hfo
            exact ⟨by omega, h2⟩
          · have hne : f ≠ k := by
              rintro rfl
              exact hf hff
            by_cases hfn : f < (s.row k).next
            · exact absurd hrec (hunder f (by omega) hfn (by rw [hka]; exact fun hc => by cases hc))
            · exact hfinds f (by omega) hfl hff hrec hford
        next hka =>
          have hnot : (s.row k).kind.isArray = false := by
            rw [← Bool.not_eq_true, Kind.isArray_iff]
            rintro (hc | hc)
            · exact hka hc
            · exact hf (hb.varr_framed (by omega) (hat.2 hk) hat.1 hc)
          obtain ⟨o, ho, hsound, hfinds⟩ :=
            ih (hb.atRecord_succ hr hat hk hnot) (by omega) (by omega)
          refine ⟨o, ho, fun f hfo => ?_, fun f hkf hfl hff hrec hford => ?_⟩
          · obtain ⟨h1, h2⟩ := hsound f hfo
            exact ⟨by omega, h2⟩
          · have hne : f ≠ k := by
              rintro rfl
              exact hf hff
            exact hfinds f (by omega) hfl hff hrec hford
    next hk =>
      refine ⟨none, rfl, fun f hf => (by cases hf), fun f hkf hfl => ?_⟩
      omega

/-- A framed row of a record is one of those its walk passes. -/
theorem framed_range {f : Nat} (hf : f < s.nfields)
    (hff : rowFramed s.fields (s.row f) = true) (hrec : rowRecord (s.row f) = r) :
    recFirst r ≤ f ∧ f < s.recLast r := by
  cases r with
  | none => exact ⟨Nat.zero_le f, hf⟩
  | some e =>
    obtain ⟨a, ha, rfl⟩ := rowRecord_eq_some.mp hrec
    obtain ⟨hak, hlo, hhi⟩ := hb.arrParent_around hf ha
    obtain ⟨-, hnext, hpar, -⟩ := hb.elem (a := a) (by omega) hak
    have hne : f ≠ a + 1 := by
      rintro rfl
      unfold rowFramed at hff
      rw [hpar] at hff
      simp only [Bool.and_eq_true, Bool.not_eq_true'] at hff
      exact Bool.noConfusion (hff.2.symm.trans hak)
    refine ⟨?_, ?_⟩
    · show a + 1 + 1 ≤ f
      omega
    · show f < (s.row (a + 1)).next
      omega

/-- Looking for a frame's row ends, a row it finds holds the frame, and it finds one if
the record has one. -/
theorem recordRow_spec {v : Schema} (hv : SameShape s v) (hr : RecordOf s r)
    (ord : Nat) {cur : Nat} (hcur : AtRecord s r cur) :
    ∃ o, recordRow v (recFirst r) (v.recLast r) cur ord = some o ∧
      (∀ f, o = some f → recFirst r ≤ f ∧ f < s.recLast r ∧
        rowFramed s.fields (s.row f) = true ∧ rowRecord (s.row f) = r ∧ (v.row f).varOrd = ord) ∧
      (∀ f, f < s.nfields → rowFramed s.fields (s.row f) = true → rowRecord (s.row f) = r →
        (v.row f).varOrd = ord → o ≠ none) := by
  have hle := hb.recLast_le hr
  obtain ⟨o, ho, hsound, -⟩ := hb.recordRowFrom_spec hv hr ord (n := s.nfields + 1) hcur
    (by omega) (Nat.succ_pos _)
  unfold recordRow
  rw [hv.recLast, hv.1, ho]
  cases o with
  | some k =>
    obtain ⟨hk, hrest⟩ := hsound k rfl
    have hfirst := hcur.1
    refine ⟨some k, rfl, fun f hf => ?_, fun f _ _ _ _ hc => by cases hc⟩
    obtain rfl := Option.some.inj hf
    exact ⟨by omega, hrest⟩
  | none =>
    obtain ⟨o, ho, hsound', hfinds⟩ := hb.recordRowFrom_spec hv hr ord
      (n := s.nfields + 1) (hb.atRecord_first hr) (by omega) (Nat.succ_pos _)
    refine ⟨o, ho, hsound', fun f hf hff hrec hord => ?_⟩
    obtain ⟨h1, h2⟩ := hb.framed_range hf hff hrec
    exact hfinds f h1 h2 hff hrec hord

/-- In the schema's own table it finds the one row that holds the frame. -/
theorem recordRow_finds (hr : RecordOf s r) {cur : Nat}
    (hcur : AtRecord s r cur) {f : Nat} (hf : f < s.nfields)
    (hff : rowFramed s.fields (s.row f) = true) (hrec : rowRecord (s.row f) = r) :
    recordRow s (recFirst r) (s.recLast r) cur (s.row f).varOrd = some (some f) := by
  have hle := hb.recLast_le hr
  obtain ⟨o, ho, hsound, hfinds⟩ := hb.recordRow_spec (sameShape_refl s) hr
    (s.row f).varOrd hcur
  rw [ho]
  cases o with
  | none => exact absurd rfl (hfinds f hf hff hrec rfl)
  | some k =>
    obtain ⟨-, hk, hkf, hkrec, hkord⟩ := hsound k rfl
    rw [hb.varOrd_inj (by omega) hf hkf hff (hkrec.trans hrec.symm) hkord]

end Built

end

end Rant.Serialize
