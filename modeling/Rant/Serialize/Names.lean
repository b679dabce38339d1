import Rant.Serialize.Message
/-!
# The one wire spelling of a name

`i_rant_name_normalize` of `src/serialize/text.c`. Its field half, `nameNormalize`, is with
the paths that use it; this module adds the type half, which reads its PascalCase once more
(`readAgain`), and says what both compute.

What a spelling spells is its words: `words` cuts at every character that is no letter and
no digit, and at the capitals the rules name, and forgets the case. A field is its words
joined by underscores, a type its words capitalised and read once more. So a name in its
wire spelling is a fixed point, and two spellings share one exactly when they share their
words.
-/

namespace Rant.Serialize

/-! ## The type half -/

/-- Whether the capital `c` starts a word after `prev`: a capital after a lowercase letter
or a digit, and the last capital of a run that a lowercase letter follows. -/
def startsWord (prev c next : UInt8) : Bool :=
  isUpper c && (isLower prev || isDigit prev || (isUpper prev && isLower next))

/-- A letter or a digit. -/
def isAlnum (c : UInt8) : Bool := isUpper c || isLower c || isDigit c

def toLower (c : UInt8) : UInt8 := if isUpper c then c + 32 else c
def toUpper (c : UInt8) : UInt8 := if isLower c then c - 32 else c

/-- One character of a type name, `next` the one after it: `i_rant_name_normalize` with
`as_type` 1. -/
def typeStep (cap : Nat) (st : NameState) (c next : UInt8) : Option NameState :=
  if !isUpper c && !isLower c && !isDigit c then some { st with boundary := true }
  else
    let boundary := st.boundary || (isUpper c && (isLower st.prev || isDigit st.prev ||
      (isUpper st.prev && isLower next)))
    if cap ≤ st.out.length + 1 then none
    else
      let c' := if boundary then toUpper c else toLower c
      some { out := c' :: st.out, boundary := false, prev := c }

/-- The character loop of `i_rant_name_normalize` with `as_type` 1. -/
def typeLoop (cap : Nat) : Bytes → NameState → Option NameState
  | [], st => some st
  | c :: cs, st => do
    let st ← typeStep cap st c (cs.headD 0)
    typeLoop cap cs st

/-- The second read of a type's PascalCase, `was` the character before as it was: a capital
after a capital and before no lowercase joins its word. -/
def readAgain (was : UInt8) : Bytes → Bytes
  | [] => []
  | c :: cs =>
    (if isUpper c && isUpper was && !isLower (cs.headD 0) then c + 32 else c) :: readAgain c cs

/-- `i_rant_name_normalize` of a type name: its PascalCase wire spelling. -/
def typeNormalize (name : Bytes) (cap : Nat) : Option Bytes := do
  let st ← typeLoop cap name {}
  match st.out.reverse with
  | [] => none
  | c :: cs => if isDigit c then none else some (c :: readAgain c cs)

/-- `i_rant_name_normalize`. -/
def normalizeAs (asType : Bool) (name : Bytes) (cap : Nat) : Option Bytes :=
  if asType then typeNormalize name cap else nameNormalize name cap

/-! ## Words -/

/-- Whether the word `c` is in goes on with what follows it. -/
def joins (c : UInt8) : Bytes → Bool
  | [] => false
  | d :: ds => isAlnum d && !startsWord c d (ds.headD 0)

/-- One more character at the front of the first word, or a word of its own. -/
def consWord (c : UInt8) : Bool → List Bytes → List Bytes
  | true, w :: ws => (c :: w) :: ws
  | _, ws => [c] :: ws

/-- The words of a spelling, in lower case. -/
def words : Bytes → List Bytes
  | [] => []
  | c :: cs => if isAlnum c then consWord (toLower c) (joins c cs) (words cs) else words cs

/-- Words behind an underscore each. -/
def underscored (ws : List Bytes) : Bytes := ws.flatMap (95 :: ·)

/-- Words joined by underscores: snake_case. -/
def snake : List Bytes → Bytes
  | [] => []
  | w :: ws => w ++ underscored ws

/-- A word with its first letter a capital. -/
def capitalize : Bytes → Bytes
  | [] => []
  | c :: cs => toUpper c :: cs

/-- Words capitalised and run together: PascalCase. -/
def pascal (ws : List Bytes) : Bytes := ws.flatMap capitalize

/-- What a word scan writes of `ws`: the first word goes on with `go` set. -/
def written (rest : List Bytes → Bytes) : Bool → List Bytes → Bytes
  | true, w :: ws => w ++ rest ws
  | _, ws => rest ws

/-! ## Characters -/

variable {c : UInt8}

theorem isUpper_iff : isUpper c = true ↔ 65 ≤ c.toNat ∧ c.toNat ≤ 90 := by
  simp [isUpper, UInt8.le_iff_toNat_le]

theorem isLower_iff : isLower c = true ↔ 97 ≤ c.toNat ∧ c.toNat ≤ 122 := by
  simp [isLower, UInt8.le_iff_toNat_le]

theorem isDigit_iff : isDigit c = true ↔ 48 ≤ c.toNat ∧ c.toNat ≤ 57 := by
  simp [isDigit, UInt8.le_iff_toNat_le]

theorem isAlnum_iff :
    isAlnum c = true ↔ isUpper c = true ∨ isLower c = true ∨ isDigit c = true := by
  simp [isAlnum, or_assoc]

theorem isAlnum_false :
    (!isUpper c && !isLower c && !isDigit c) = !isAlnum c := by
  simp [isAlnum, Bool.not_or]

theorem isUpper_not_lower (h : isUpper c = true) : isLower c = false := by
  have hc := isUpper_iff.mp h
  by_contra hl
  have := isLower_iff.mp (by simpa using hl)
  omega

theorem isUpper_not_digit (h : isUpper c = true) : isDigit c = false := by
  have hc := isUpper_iff.mp h
  by_contra hd
  have := isDigit_iff.mp (by simpa using hd)
  omega

theorem toLower_upper (h : isUpper c = true) : isLower (c + 32) = true := by
  have hc := isUpper_iff.mp h
  rw [isLower_iff, UInt8.toNat_add]
  have : (32 : UInt8).toNat = 32 := rfl
  omega

theorem toUpper_lower (h : isLower c = true) : isUpper (c - 32) = true := by
  have hc := isLower_iff.mp h
  have h32 : (32 : UInt8) ≤ c := by
    rw [UInt8.le_iff_toNat_le]
    exact Nat.le_trans (by decide) hc.1
  have : (32 : UInt8).toNat = 32 := rfl
  rw [isUpper_iff, UInt8.toNat_sub_of_le _ _ h32]
  omega

theorem toLower_of_not_upper (h : isUpper c = false) : toLower c = c := by
  simp [toLower, h]

theorem toUpper_of_not_lower (h : isLower c = false) : toUpper c = c := by
  simp [toUpper, h]

@[simp] theorem isUpper_toLower (c : UInt8) : isUpper (toLower c) = false := by
  cases h : isUpper c with
  | false => rw [toLower_of_not_upper h, h]
  | true =>
    rw [toLower, if_pos h]
    by_contra hu
    have hl := isUpper_not_lower (c := c + 32) (by simpa using hu)
    rw [toLower_upper h] at hl
    exact Bool.noConfusion hl

@[simp] theorem toLower_toLower (c : UInt8) : toLower (toLower c) = toLower c :=
  toLower_of_not_upper (isUpper_toLower c)

@[simp] theorem toUpper_toLower (c : UInt8) : toUpper (toLower c) = toUpper c := by
  cases h : isUpper c with
  | false => rw [toLower_of_not_upper h]
  | true =>
    rw [toLower, if_pos h, toUpper, if_pos (toLower_upper h),
      toUpper_of_not_lower (isUpper_not_lower h)]
    exact UInt8.add_sub_cancel c 32

@[simp] theorem toLower_toUpper (c : UInt8) : toLower (toUpper c) = toLower c := by
  cases h : isLower c with
  | false => rw [toUpper_of_not_lower h]
  | true =>
    have hu : isUpper c = false := by
      by_contra hu
      rw [isUpper_not_lower (by simpa using hu)] at h
      exact Bool.noConfusion h
    rw [toUpper, if_pos h, toLower, if_pos (toUpper_lower h), toLower_of_not_upper hu]
    exact UInt8.sub_add_cancel c 32

theorem isLower_toUpper (c : UInt8) : isLower (toUpper c) = false := by
  cases h : isLower c with
  | false => rw [toUpper_of_not_lower h, h]
  | true => rw [toUpper, if_pos h, isUpper_not_lower (toUpper_lower h)]

@[simp] theorem isAlnum_toLower (c : UInt8) : isAlnum (toLower c) = isAlnum c := by
  cases h : isUpper c with
  | false => rw [toLower_of_not_upper h]
  | true =>
    rw [toLower, if_pos h, isAlnum, isAlnum, h, toLower_upper h]
    simp

/-! ## The scans write the words -/

@[simp] theorem written_false (rest : List Bytes → Bytes) (ws : List Bytes) :
    written rest false ws = rest ws := by
  cases ws <;> rfl

theorem written_consWord (c : UInt8) (go : Bool) (ws : List Bytes) :
    written underscored true (consWord c go ws) = c :: written underscored go ws := by
  cases go <;> cases ws <;> rfl

theorem underscored_consWord (c : UInt8) (go : Bool) (ws : List Bytes) :
    underscored (consWord c go ws) = 95 :: c :: written underscored go ws := by
  cases go <;> cases ws <;> simp [underscored, consWord, written]

/-- What a scan answers that has `out` written and `T` still to write: it fails exactly
when the result does not fit. -/
def fitting (cap : Nat) (out T : Bytes) : Option Bytes :=
  if T = [] ∨ out.length + T.length < cap then some (out ++ T) else none

variable {T : Bytes}

variable {cap : Nat}

theorem fitting_push {out p : Bytes} (hp : p ≠ []) :
    (if cap ≤ out.length + p.length then none else fitting cap (out ++ p) T) =
      fitting cap out (p ++ T) := by
  have hne : p ++ T ≠ [] := by simp [hp]
  simp only [fitting, hne, false_or, List.length_append, List.append_assoc]
  by_cases hfull : cap ≤ out.length + p.length
  · rw [if_pos hfull, if_neg (by omega)]
  rw [if_neg hfull]
  cases T with
  | nil =>
    rw [if_pos (Or.inl rfl), if_pos (by simp; omega)]
  | cons t ts =>
    have : (t :: ts) ≠ [] := List.cons_ne_nil t ts
    simp only [this, false_or, Nat.add_assoc]

/-- What one letter or digit of a field writes: an underscore before a word but the first. -/
def namePushed (joint : Bool) (c : UInt8) : Bytes :=
  if joint then [95, toLower c] else [toLower c]

/-- What one letter or digit of a type writes. -/
def typePushed (boundary : Bool) (c : UInt8) : Bytes :=
  [if boundary then toUpper c else toLower c]

variable {st : NameState}

theorem nameStep_sep {next : UInt8} (h : isAlnum c = false) :
    nameStep cap st c next = some { st with boundary := true } := by
  rw [nameStep, isAlnum_false, h]
  rfl

theorem nameStep_push {next : UInt8} (h : isAlnum c = true) {j : Bool}
    (hj : j = ((st.boundary || startsWord st.prev c next) && !st.out.isEmpty)) :
    nameStep cap st c next =
      if cap ≤ st.out.length + (namePushed j c).length then none
      else some ⟨(namePushed j c).reverse ++ st.out, false, c⟩ := by
  rw [nameStep, isAlnum_false, h]
  change (if cap ≤ st.out.length + 1 +
    Bool.toNat ((st.boundary || startsWord st.prev c next) && !st.out.isEmpty) then none else
      some (NameState.mk (toLower c ::
        (if ((st.boundary || startsWord st.prev c next) && !st.out.isEmpty) = true
          then 95 :: st.out else st.out)) false c)) = _
  rw [← hj]
  cases j <;> rfl

theorem typeStep_sep {next : UInt8} (h : isAlnum c = false) :
    typeStep cap st c next = some { st with boundary := true } := by
  rw [typeStep, isAlnum_false, h]
  rfl

theorem typeStep_push {next : UInt8} (h : isAlnum c = true) :
    typeStep cap st c next =
      if cap ≤ st.out.length + 1 then none
      else some ⟨(typePushed (st.boundary || startsWord st.prev c next) c).reverse ++ st.out,
        false, c⟩ := by
  rw [typeStep, isAlnum_false, h]
  rfl

/-- One push of a scan, the rest of which `rest` answers. -/
theorem scan_push {o p : Bytes} (hp : p ≠ []) {loop : NameState → Option NameState}
    {st' : NameState} (ih : (loop st').map (·.out.reverse) = fitting cap (o.reverse ++ p) T) :
    ((if cap ≤ o.length + p.length then none else some st').bind loop).map (·.out.reverse) =
      fitting cap o.reverse (p ++ T) := by
  rw [← fitting_push hp, List.length_reverse]
  by_cases hfull : cap ≤ o.length + p.length
  · rw [if_pos hfull, if_pos hfull]
    rfl
  · rw [if_neg hfull, if_neg hfull]
    exact ih

variable {cs : Bytes}

/-- Whether the word before goes on with what follows. -/
theorem goes_on (ha : isAlnum c = true) :
    (!st.boundary && joins st.prev (c :: cs)) =
      !(st.boundary || startsWord st.prev c (cs.headD 0)) := by
  simp [joins, ha, Bool.not_or]

/-- The scan of a field, once something is written: the first word goes on with no
underscore unless a word starts here. -/
theorem nameLoop_words (cap : Nat) : ∀ (cs : Bytes) (st : NameState), st.out ≠ [] →
    (nameLoop cap cs st).map (·.out.reverse) = fitting cap st.out.reverse
      (written underscored (!st.boundary && joins st.prev cs) (words cs))
  | [], st, _ => by simp [nameLoop, fitting, joins, words, written, underscored]
  | c :: cs, st, hne => by
    rw [nameLoop]
    cases ha : isAlnum c with
    | false =>
      rw [nameStep_sep ha, words, ha]
      simpa [joins, ha] using nameLoop_words cap cs { st with boundary := true } hne
    | true =>
      have hout : (!st.out.isEmpty) = true := by simpa using hne
      rw [nameStep_push ha rfl, hout, Bool.and_true, goes_on ha, words, if_pos ha]
      have ih := fun pushed : Bytes => nameLoop_words cap cs ⟨pushed.reverse ++ st.out, false, c⟩
        (by simp [hne])
      cases hb : st.boundary || startsWord st.prev c (cs.headD 0) with
      | false =>
        rw [Bool.not_false, written_consWord]
        apply scan_push (p := namePushed false c) (T := written underscored (joins c cs) (words cs))
          (by simp [namePushed])
        simpa [namePushed] using ih (namePushed false c)
      | true =>
        rw [Bool.not_true, written_false, underscored_consWord]
        apply scan_push (p := namePushed true c) (T := written underscored (joins c cs) (words cs))
          (by simp [namePushed])
        simpa [namePushed] using ih (namePushed true c)

theorem snake_consWord (c : UInt8) (go : Bool) (ws : List Bytes) :
    snake (consWord c go ws) = c :: written underscored go ws := by
  cases go <;> cases ws <;> simp [snake, consWord, written, underscored]

/-- The scan of a field from its start, where separators write nothing. -/
theorem nameLoop_snake (cap : Nat) : ∀ (cs : Bytes) (prev : UInt8),
    (nameLoop cap cs ⟨[], true, prev⟩).map (·.out.reverse) = fitting cap [] (snake (words cs))
  | [], _ => by simp [nameLoop, fitting, words, snake]
  | c :: cs, prev => by
    rw [nameLoop]
    cases ha : isAlnum c with
    | false =>
      rw [nameStep_sep ha, words, ha]
      exact nameLoop_snake cap cs prev
    | true =>
      rw [nameStep_push ha (j := false) (by simp), words, if_pos ha, snake_consWord]
      apply scan_push (p := namePushed false c) (o := [])
        (T := written underscored (joins c cs) (words cs)) (by simp [namePushed])
      simpa [namePushed] using
        nameLoop_words cap cs ⟨[toLower c], false, c⟩ (List.cons_ne_nil _ _)

theorem written_pascal_consWord (c : UInt8) (go : Bool) (ws : List Bytes) :
    written pascal true (consWord c go ws) = c :: written pascal go ws := by
  cases go <;> cases ws <;> rfl

theorem pascal_consWord (c : UInt8) (go : Bool) (ws : List Bytes) :
    pascal (consWord c go ws) = toUpper c :: written pascal go ws := by
  cases go <;> cases ws <;> simp [pascal, consWord, written, capitalize]

/-- The scan of a type: every word opens with a capital. -/
theorem typeLoop_words (cap : Nat) : ∀ (cs : Bytes) (st : NameState),
    (typeLoop cap cs st).map (·.out.reverse) = fitting cap st.out.reverse
      (written pascal (!st.boundary && joins st.prev cs) (words cs))
  | [], st => by simp [typeLoop, fitting, joins, words, written, pascal]
  | c :: cs, st => by
    rw [typeLoop]
    cases ha : isAlnum c with
    | false =>
      rw [typeStep_sep ha, words, ha]
      simpa [joins, ha] using typeLoop_words cap cs { st with boundary := true }
    | true =>
      rw [typeStep_push ha, goes_on ha, words, if_pos ha]
      have ih := fun pushed : Bytes => typeLoop_words cap cs ⟨pushed.reverse ++ st.out, false, c⟩
      cases hb : st.boundary || startsWord st.prev c (cs.headD 0) with
      | false =>
        rw [Bool.not_false, written_pascal_consWord]
        apply scan_push (p := typePushed false c) (T := written pascal (joins c cs) (words cs))
          (by simp [typePushed])
        simpa [typePushed] using ih (typePushed false c)
      | true =>
        rw [Bool.not_true, written_false, pascal_consWord, toUpper_toLower]
        apply scan_push (p := typePushed true c) (T := written pascal (joins c cs) (words cs))
          (by simp [typePushed])
        simpa [typePushed] using ih (typePushed true c)

/-! ## What is accepted, and as what -/

/-- A name the source keeps: not empty, and not opening with a digit. -/
def Opens (r : Bytes) : Prop := ∃ c cs, r = c :: cs ∧ isDigit c = false

/-- The second read of a whole name, whose first character stays. -/
def readName : Bytes → Bytes
  | [] => []
  | c :: cs => c :: readAgain c cs

theorem readAgain_length (was : UInt8) (cs : Bytes) : (readAgain was cs).length = cs.length := by
  induction cs generalizing was with
  | nil => rfl
  | cons c cs ih => simp [readAgain, ih]

theorem readName_length (cs : Bytes) : (readName cs).length = cs.length := by
  cases cs with
  | nil => rfl
  | cons c cs => simp [readName, readAgain_length]

theorem opens_readName {r : Bytes} : Opens (readName r) ↔ Opens r := by
  cases r with
  | nil => simp [Opens, readName]
  | cons c cs => simp [Opens, readName]

theorem not_opens_nil : ¬ Opens [] := by
  simp [Opens]

theorem opens_cons : Opens (c :: cs) ↔ isDigit c = false := by
  simp [Opens]

/-- What the end of either half keeps of a scan's answer. -/
def kept : Bytes → Option Bytes
  | [] => none
  | c :: cs => if isDigit c then none else some (c :: cs)

variable {q : Bytes}

theorem kept_iff {r : Bytes} : kept q = some r ↔ r = q ∧ Opens q := by
  cases q with
  | nil => simp [kept, Opens]
  | cons c cs =>
    rw [kept, opens_cons]
    cases isDigit c <;> simp [eq_comm]

theorem nameNormalize_eq (name : Bytes) (cap : Nat) :
    nameNormalize name cap = ((nameLoop cap name {}).map (·.out.reverse)).bind kept := by
  unfold nameNormalize
  cases nameLoop cap name {} with
  | none => rfl
  | some st =>
    simp only [Option.map_some, Option.bind_some, Option.bind_eq_bind]
    cases st.out.reverse <;> rfl

theorem typeNormalize_eq (name : Bytes) (cap : Nat) :
    typeNormalize name cap =
      (((typeLoop cap name {}).map (·.out.reverse)).bind kept).map readName := by
  unfold typeNormalize
  cases typeLoop cap name {} with
  | none => rfl
  | some st =>
    simp only [Option.map_some, Option.bind_some, Option.bind_eq_bind]
    cases st.out.reverse with
    | nil => rfl
    | cons c cs => cases h : isDigit c <;> simp [kept, h, readName]

theorem kept_fitting {r : Bytes} :
    (fitting cap [] T).bind kept = some r ↔ r = T ∧ r.length < cap ∧ Opens r := by
  simp only [fitting, List.length_nil, Nat.zero_add, List.nil_append]
  by_cases hfit : T = [] ∨ T.length < cap
  · rw [if_pos hfit, Option.bind_some, kept_iff]
    constructor
    · rintro ⟨rfl, ho⟩
      refine ⟨rfl, hfit.resolve_left ?_, ho⟩
      intro he
      exact not_opens_nil (he ▸ ho)
    · rintro ⟨rfl, -, ho⟩
      exact ⟨rfl, ho⟩
  · rw [if_neg hfit]
    refine ⟨fun h => absurd h.symm (Option.some_ne_none _), ?_⟩
    rintro ⟨rfl, hlen, -⟩
    exact absurd (Or.inr hlen) hfit

/-- A field's wire spelling: its words joined by underscores, when that fits and opens with
no digit. -/
theorem nameNormalize_iff {name : Bytes} {r : Bytes} :
    nameNormalize name cap = some r ↔ r = snake (words name) ∧ r.length < cap ∧ Opens r := by
  rw [nameNormalize_eq, nameLoop_snake, kept_fitting]

/-- A type's wire spelling: its PascalCase read once more. -/
theorem typeNormalize_iff {name : Bytes} {r : Bytes} :
    typeNormalize name cap = some r ↔
      r = readName (pascal (words name)) ∧ r.length < cap ∧ Opens r := by
  have hscan : (typeLoop cap name {}).map (·.out.reverse) =
      fitting cap [] (pascal (words name)) := by
    simpa using typeLoop_words cap name {}
  rw [typeNormalize_eq, hscan, Option.map_eq_some_iff]
  constructor
  · rintro ⟨q, hq, rfl⟩
    obtain ⟨rfl, hlen, ho⟩ := kept_fitting.mp hq
    exact ⟨rfl, by rw [readName_length]; exact hlen, opens_readName.mpr ho⟩
  · rintro ⟨rfl, hlen, ho⟩
    rw [readName_length] at hlen
    exact ⟨_, kept_fitting.mpr ⟨rfl, hlen, opens_readName.mp ho⟩, rfl⟩

/-! ## A field in its wire spelling -/

/-- A word as `words` writes it: letters in lower case and digits, at least one. -/
def Plain (w : Bytes) : Prop := w ≠ [] ∧ ∀ c ∈ w, isAlnum c = true ∧ isUpper c = false

variable {ws : List Bytes}

theorem plain_consWord (hc : isAlnum c = true) (go : Bool)
    (h : ∀ w ∈ ws, Plain w) : ∀ w ∈ consWord (toLower c) go ws, Plain w := by
  have hone : isAlnum (toLower c) = true ∧ isUpper (toLower c) = false := by simp [hc]
  cases go with
  | false =>
    intro w hw
    rcases List.mem_cons.mp hw with rfl | hw
    · exact ⟨by simp, by simpa using hone⟩
    · exact h w hw
  | true =>
    cases ws with
    | nil =>
      intro w hw
      rcases List.mem_cons.mp hw with rfl | hw
      · exact ⟨by simp, by simpa using hone⟩
      · exact h w hw
    | cons v vs =>
      intro w hw
      rcases List.mem_cons.mp hw with rfl | hw
      · refine ⟨by simp, ?_⟩
        intro d hd
        rcases List.mem_cons.mp hd with rfl | hd
        · exact hone
        · exact (h v List.mem_cons_self).2 d hd
      · exact h w (List.mem_cons_of_mem _ hw)

theorem words_plain : ∀ s : Bytes, ∀ w ∈ words s, Plain w
  | [] => by simp [words]
  | c :: cs => by
    rw [words]
    split
    next hc => exact plain_consWord hc _ (words_plain cs)
    next => exact words_plain cs

theorem toLower_plain (h : isUpper c = false) : toLower c = c :=
  toLower_of_not_upper h

/-- A plain word up to an underscore reads back as itself. -/
theorem words_word (rest : Bytes) : ∀ {w : Bytes}, Plain w → words (w ++ 95 :: rest) = w :: words rest
  | [], h => absurd rfl h.1
  | [c], h => by
    have hc := h.2 c List.mem_cons_self
    rw [List.singleton_append, words, if_pos hc.1, toLower_plain hc.2]
    have : words (95 :: rest) = words rest := by rw [words, if_neg (by decide)]
    rw [this]
    simp [joins, isAlnum, isUpper, isLower, isDigit, consWord]
  | c :: d :: w, h => by
    have hc := h.2 c List.mem_cons_self
    have hd := h.2 d (by simp)
    have hw : Plain (d :: w) := ⟨by simp, fun e he => h.2 e (List.mem_cons_of_mem _ he)⟩
    have ih := words_word rest hw
    rw [List.cons_append, words, if_pos hc.1, toLower_plain hc.2, ih]
    simp [joins, hd.1, startsWord, hd.2, consWord]

theorem words_last : ∀ {w : Bytes}, Plain w → words w = [w]
  | [], h => absurd rfl h.1
  | [c], h => by
    have hc := h.2 c List.mem_cons_self
    simp [words, hc.1, toLower_plain hc.2, joins, consWord]
  | c :: d :: w, h => by
    have hc := h.2 c List.mem_cons_self
    have hd := h.2 d (by simp)
    have hw : Plain (d :: w) := ⟨by simp, fun e he => h.2 e (List.mem_cons_of_mem _ he)⟩
    rw [words, if_pos hc.1, toLower_plain hc.2, words_last hw]
    simp [joins, hd.1, startsWord, hd.2, consWord]

/-- snake_case shows every word: it reads back as the words it joins. -/
theorem words_snake : ∀ {ws : List Bytes}, (∀ w ∈ ws, Plain w) → words (snake ws) = ws
  | [], _ => rfl
  | [w], h => by simpa [snake, underscored] using words_last (h w List.mem_cons_self)
  | w :: v :: ws, h => by
    have ih := @words_snake (v :: ws) (fun x hx => h x (List.mem_cons_of_mem _ hx))
    have : snake (w :: v :: ws) = w ++ 95 :: snake (v :: ws) := by
      simp [snake, underscored]
    rw [this, words_word _ (h w List.mem_cons_self), ih]

/-! ## A type in its wire spelling -/

theorem isAlnum_toUpper (c : UInt8) : isAlnum (toUpper c) = isAlnum c := by
  rw [← isAlnum_toLower, toLower_toUpper, isAlnum_toLower]

/-- PascalCase is letters and digits only. -/
theorem pascal_alnum (h : ∀ w ∈ ws, Plain w) :
    ∀ c ∈ pascal ws, isAlnum c = true := by
  intro c hc
  obtain ⟨w, hw, hc⟩ := List.mem_flatMap.mp hc
  cases w with
  | nil => exact absurd rfl (h _ hw).1
  | cons d ds =>
    rcases List.mem_cons.mp hc with rfl | hc
    · rw [isAlnum_toUpper]
      exact ((h _ hw).2 d List.mem_cons_self).1
    · exact ((h _ hw).2 c (List.mem_cons_of_mem _ hc)).1

/-- PascalCase opens with no lowercase letter. -/
theorem pascal_opens (h : ∀ w ∈ ws, Plain w)
    (hp : pascal ws = c :: cs) : isLower c = false := by
  cases ws with
  | nil => exact absurd hp (by simp [pascal])
  | cons w ws =>
    cases w with
    | nil => exact absurd rfl (h _ List.mem_cons_self).1
    | cons d ds =>
      have : c = toUpper d := by
        have := congrArg List.head? hp
        simpa [pascal, capitalize, eq_comm] using this
      rw [this, isLower_toUpper]

/-- The second read after `p`, where the capital `d` comes before `n`. -/
def rereads (p d n : UInt8) : UInt8 :=
  if isUpper d && isUpper p && !isLower n then d + 32 else d

theorem readAgain_cons (p d : UInt8) (ds : Bytes) :
    readAgain p (d :: ds) = rereads p d (ds.headD 0) :: readAgain d ds := rfl

/-- Where no word starts the second read writes the lowercase letter. -/
theorem rereads_joined {p d n : UInt8} (hp : isAlnum p = true) (h : startsWord p d n = false) :
    rereads p d n = toLower d := by
  unfold rereads toLower
  cases hd : isUpper d with
  | false => simp
  | true =>
    have hnot : isLower p = false ∧ isDigit p = false ∧ (isUpper p = true → isLower n = false) := by
      simpa [startsWord, hd, Bool.or_eq_false_iff, and_assoc] using h
    have hup : isUpper p = true := by
      rcases isAlnum_iff.mp hp with hp | hp | hp
      · exact hp
      · simp [hnot.1] at hp
      · simp [hnot.2.1] at hp
    simp [hup, hnot.2.2 hup]

/-- Where a word starts the second read leaves the capital. -/
theorem rereads_starts {p d n : UInt8} (h : startsWord p d n = true) :
    rereads p d n = d ∧ isUpper d = true := by
  have hd : isUpper d = true := by
    simp only [startsWord, Bool.and_eq_true] at h
    exact h.1
  refine ⟨?_, hd⟩
  cases hp : isUpper p with
  | false => simp [rereads, hp]
  | true =>
    have : isLower n = true := by
      simpa [startsWord, hd, hp, isUpper_not_lower hp, isUpper_not_digit hp] using h
    simp [rereads, this]

/-- The second read is what capitalising the words of what it reads writes. -/
theorem readAgain_words : ∀ (cs : Bytes) (p : UInt8), isAlnum p = true →
    (∀ c ∈ cs, isAlnum c = true) → written pascal (joins p cs) (words cs) = readAgain p cs
  | [], _, _, _ => rfl
  | d :: ds, p, hp, hall => by
    have hd := hall d List.mem_cons_self
    have ih := readAgain_words ds d hd (fun c hc => hall c (List.mem_cons_of_mem _ hc))
    rw [words, if_pos hd, readAgain_cons, joins, hd, Bool.true_and]
    cases hs : startsWord p d (ds.headD 0) with
    | false =>
      rw [Bool.not_false, written_pascal_consWord, ih, rereads_joined hp hs]
    | true =>
      obtain ⟨hre, hup⟩ := rereads_starts hs
      rw [Bool.not_true, written_false, pascal_consWord, toUpper_toLower, ih, hre,
        toUpper_of_not_lower (isUpper_not_lower hup)]

theorem readName_words (hall : ∀ c ∈ q, isAlnum c = true)
    (hopen : ∀ c cs, q = c :: cs → isLower c = false) : pascal (words q) = readName q := by
  cases q with
  | nil => rfl
  | cons c cs =>
    have hc := hall c List.mem_cons_self
    rw [words, if_pos hc, pascal_consWord, toUpper_toLower, toUpper_of_not_lower (hopen c cs rfl),
      readAgain_words cs c hc (fun d hd => hall d (List.mem_cons_of_mem _ hd))]
    rfl

/-- The second read leaves every word where it starts, whether or not it changed the
character before. -/
theorem startsWord_rereads {p p' d n n' : UInt8} (hp : isAlnum p = true)
    (hp' : p' = p ∨ (isUpper p = true ∧ p' = p + 32))
    (hn : isLower n = true → n' = n) :
    startsWord p' (rereads p d n) n' = startsWord p d n := by
  cases hs : startsWord p d n with
  | false =>
    rw [rereads_joined hp hs]
    simp [startsWord]
  | true =>
    obtain ⟨hre, hup⟩ := rereads_starts hs
    rw [hre]
    have hs' := hs
    simp only [startsWord, hup, Bool.true_and, Bool.or_eq_true, Bool.and_eq_true] at hs ⊢
    rcases hp' with rfl | ⟨hupp, rfl⟩
    · rcases hs with hs | ⟨hu, hl⟩
      · exact Or.inl hs
      · exact Or.inr ⟨hu, by rw [hn hl]; exact hl⟩
    · exact Or.inl (Or.inl (toLower_upper hupp))

theorem rereads_lower {p d n : UInt8} (h : isLower d = true) : rereads p d n = d := by
  have : isUpper d = false := by
    by_contra hu
    have hl := isUpper_not_lower (c := d) (by simpa using hu)
    rw [h] at hl
    exact Bool.noConfusion hl
  simp [rereads, this]

theorem rereads_alnum {p d n : UInt8} (h : isAlnum d = true) : isAlnum (rereads p d n) = true ∧
    toLower (rereads p d n) = toLower d ∧
    (rereads p d n = d ∨ (isUpper d = true ∧ rereads p d n = d + 32)) := by
  unfold rereads
  split
  next hc =>
    have hu : isUpper d = true := by
      simp only [Bool.and_eq_true] at hc
      exact hc.1.1
    have hl : d + 32 = toLower d := by simp [toLower, hu]
    exact ⟨by rw [hl, isAlnum_toLower, h], by rw [hl, toLower_toLower], Or.inr ⟨hu, rfl⟩⟩
  next => exact ⟨h, rfl, Or.inl rfl⟩

/-- The second read moves no word boundary. -/
theorem words_readAgain : ∀ (cs : Bytes) (p p' : UInt8), isAlnum p = true →
    (p' = p ∨ (isUpper p = true ∧ p' = p + 32)) → (∀ c ∈ cs, isAlnum c = true) →
    words (readAgain p cs) = words cs ∧ joins p' (readAgain p cs) = joins p cs
  | [], _, _, _, _, _ => ⟨rfl, rfl⟩
  | d :: ds, p, p', hp, hp', hall => by
    have hd := hall d List.mem_cons_self
    obtain ⟨hal, hlow, hre⟩ := rereads_alnum (p := p) (n := ds.headD 0) hd
    obtain ⟨ihw, ihj⟩ := words_readAgain ds d _ hd hre
      (fun c hc => hall c (List.mem_cons_of_mem _ hc))
    have hnext : isLower (ds.headD 0) = true →
        (readAgain d ds).headD 0 = ds.headD 0 := by
      intro hl
      cases ds with
      | nil => rfl
      | cons e es => exact rereads_lower hl
    rw [readAgain_cons]
    constructor
    · rw [words, if_pos hal, hlow, ihw, ihj, words, if_pos hd]
    · rw [joins, joins, hal, hd, startsWord_rereads hp hp' hnext]

theorem words_readName (hall : ∀ c ∈ q, isAlnum c = true) :
    words (readName q) = words q := by
  cases q with
  | nil => rfl
  | cons c cs =>
    have hc := hall c List.mem_cons_self
    obtain ⟨hw, hj⟩ := words_readAgain cs c c hc (Or.inl rfl)
      (fun d hd => hall d (List.mem_cons_of_mem _ hd))
    rw [readName, words, if_pos hc, hw, hj, words, if_pos hc]

/-- A type's name is its words capitalised, once its PascalCase is read back. -/
theorem readName_pascal (s : Bytes) :
    readName (pascal (words s)) = pascal (words (pascal (words s))) :=
  (readName_words (pascal_alnum (words_plain s))
    (fun _ _ h => pascal_opens (words_plain s) h)).symm

/-! ## One spelling -/

/-- What a spelling spells: its words, which for a type are those its PascalCase shows. -/
def nameWords (asType : Bool) (s : Bytes) : List Bytes :=
  if asType then words (pascal (words s)) else words s

/-- A name in words. -/
def spell (asType : Bool) (ws : List Bytes) : Bytes := if asType then pascal ws else snake ws

theorem normalizeAs_iff {asType : Bool} {name : Bytes} {r : Bytes} :
    normalizeAs asType name cap = some r ↔
      r = spell asType (nameWords asType name) ∧ r.length < cap ∧ Opens r := by
  cases asType with
  | false => simpa [normalizeAs, spell, nameWords] using nameNormalize_iff
  | true =>
    have := @typeNormalize_iff cap name r
    rw [readName_pascal] at this
    simpa [normalizeAs, spell, nameWords] using this

/-- A wire spelling spells the words it was written from. -/
theorem nameWords_spell (asType : Bool) (s : Bytes) :
    nameWords asType (spell asType (nameWords asType s)) = nameWords asType s := by
  cases asType with
  | false => simpa [nameWords, spell] using words_snake (words_plain s)
  | true =>
    have hall := pascal_alnum (words_plain s)
    have hw : words (pascal (words (pascal (words s)))) = words (pascal (words s)) := by
      rw [← readName_pascal, words_readName hall]
    simp only [nameWords, spell, if_true, hw]

/-- The letters and digits of a spelling, in lower case. -/
def letters (s : Bytes) : Bytes := (s.filter isAlnum).map toLower

theorem consWord_flatten (c : UInt8) (go : Bool) (ws : List Bytes) :
    (consWord c go ws).flatten = c :: ws.flatten := by
  cases go <;> cases ws <;> simp [consWord]

theorem words_letters (s : Bytes) : (words s).flatten = letters s := by
  induction s with
  | nil => rfl
  | cons c cs ih =>
    rw [words]
    split
    next h => rw [consWord_flatten, ih]; simp [letters, h]
    next h => rw [ih]; simp [letters, h]

theorem letters_capitalize {w : Bytes} (h : Plain w) : letters (capitalize w) = w := by
  cases w with
  | nil => rfl
  | cons c cs =>
    have hcs : letters cs = cs := by
      unfold letters
      rw [List.filter_eq_self.mpr (fun d hd => (h.2 d (List.mem_cons_of_mem _ hd)).1)]
      exact (List.map_congr_left (fun d hd =>
        toLower_plain (h.2 d (List.mem_cons_of_mem _ hd)).2)).trans (List.map_id cs)
    have hc := h.2 c List.mem_cons_self
    rw [capitalize, letters, List.filter_cons_of_pos (by rw [isAlnum_toUpper]; exact hc.1),
      List.map_cons, toLower_toUpper, toLower_plain hc.2]
    exact congrArg (c :: ·) hcs

theorem letters_pascal (h : ∀ w ∈ ws, Plain w) :
    letters (pascal ws) = ws.flatten := by
  induction ws with
  | nil => rfl
  | cons w ws ih =>
    have hw := letters_capitalize (h w List.mem_cons_self)
    have hws := ih (fun v hv => h v (List.mem_cons_of_mem _ hv))
    simp only [letters, pascal, List.flatMap_cons, List.filter_append, List.map_append,
      List.flatten_cons] at hw hws ⊢
    rw [hw, hws]

theorem nameWords_letters (asType : Bool) (s : Bytes) :
    (nameWords asType s).flatten = letters s := by
  cases asType with
  | false => exact words_letters s
  | true =>
    have h : (nameWords true s).flatten = letters (pascal (words s)) := words_letters _
    rw [h, letters_pascal (words_plain s), words_letters]

/-- A wire spelling is a fixed point, and two spellings share one exactly when they share
their words: the same letters and digits up to case, split at the same places. -/
theorem normalize_idempotent {asType : Bool} {s : Bytes} {cap : Nat} {r : Bytes}
    (h : normalizeAs asType s cap = some r) :
    normalizeAs asType r cap = some r ∧
      ∀ (t : Bytes) (cap' : Nat) (r' : Bytes), normalizeAs asType t cap' = some r' →
        (r = r' ↔ nameWords asType s = nameWords asType t) ∧
        (r = r' → letters s = letters t) := by
  obtain ⟨hr, hlen, ho⟩ := normalizeAs_iff.mp h
  constructor
  · rw [normalizeAs_iff, hr, nameWords_spell, ← hr]
    exact ⟨rfl, hlen, ho⟩
  · intro t cap' r' h'
    obtain ⟨hr', -, -⟩ := normalizeAs_iff.mp h'
    have hsame : r = r' → nameWords asType s = nameWords asType t := by
      intro he
      rw [← nameWords_spell asType s, ← hr, he, hr', nameWords_spell]
    refine ⟨⟨hsame, fun hw => by rw [hr, hr', hw]⟩, ?_⟩
    intro he
    rw [← nameWords_letters asType s, hsame he, nameWords_letters]

/-- The type `x_y`: its single letters join one word, `Xy`. -/
theorem normalize_idempotent_xy :
    normalizeAs true [120, 95, 121] 256 = some [88, 121] ∧
      normalizeAs true [88, 121] 256 = some [88, 121] :=
  ⟨by decide, (normalize_idempotent (s := [120, 95, 121]) (by decide)).1⟩

end Rant.Serialize
