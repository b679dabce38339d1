import Rant.Serialize.Grammar
/-!
# The measuring walk accepts the grammar

`rdType` against the trees of the grammar: what it accepts at a position is the encoding of
an `Ok` tree (`rdType_sound`), and it accepts every such encoding (`rdType_complete`). Either
way its answer is the tree's measure, its rows and the position past it.

Both are inductions on the walk's room. In the sound direction the kind byte says which tree there
can be, and each case reads one level of it; in the other the tree gives the bytes, and the room is
enough because an encoding is longer than its parts. The members of a struct are a second induction
inside, with the size and the rows of those before.
-/

namespace Rant.Serialize

open Rant.Lib

/-! ## The option table -/

theorem orShort_ok {α : Type} {o : Option α} {a : α} : orShort o = .ok a ↔ o = some a := by
  cases o with
  | none => simp [orShort]
  | some b => simp [orShort]

theorem except_bind_ok {ε α β : Type} {x : Except ε α} {f : α → Except ε β} {b : β} :
    (x >>= f) = .ok b ↔ ∃ a, x = .ok a ∧ f a = .ok b := by
  cases x with
  | error e => simp [bind, Except.bind]
  | ok a => simp [bind, Except.bind]

variable {w : Bytes}

theorem skipOptions_sound {bs : Nat} : ∀ {n pos p : Nat}, pos ≤ w.length →
    skipOptions w bs n pos = some p → ∃ opts : List (Nat × Bytes), opts.length = n ∧
      (∀ o ∈ opts, o.1 < 256 ^ bs ∧ o.2.length < 256) ∧
      At w pos (opts.flatMap (encodeOption bs)) ∧
      p = pos + (opts.flatMap (encodeOption bs)).length
  | 0, pos, p, hle, h => by
    have hp : pos = p := Option.some.inj h
    exact ⟨[], rfl, fun _ ho => absurd ho List.not_mem_nil, at_nil hle, by simp [hp]⟩
  | n + 1, pos, p, hle, h => by
    simp only [skipOptions, Option.bind_eq_bind] at h
    obtain ⟨p₁, h₁, h⟩ := Option.bind_eq_some_iff.mp h
    obtain ⟨⟨nl, p₂⟩, h₂, h⟩ := Option.bind_eq_some_iff.mp h
    obtain ⟨p₃, h₃, h⟩ := Option.bind_eq_some_iff.mp h
    obtain ⟨rfl, hfit⟩ := rdSkip_iff.mp h₁
    obtain ⟨rfl, hnl, hat⟩ := rdU8_iff.mp h₂
    obtain ⟨rfl, hname⟩ := rdSkip_iff.mp h₃
    obtain ⟨v, hv⟩ := readLe_of_le (m := w) (i := pos) (n := bs) hfit
    obtain ⟨opts, hlen, hok, hrest, rfl⟩ := skipOptions_sound (by omega) h
    have hn := at_take hname
    have hnlen : ((w.drop (pos + bs + 1)).take nl).length = nl := by
      rw [List.length_take, List.length_drop]
      omega
    refine ⟨(v, (w.drop (pos + bs + 1)).take nl) :: opts, by simp [hlen], ?_, ?_, ?_⟩
    · intro o ho
      rcases List.mem_cons.mp ho with rfl | ho
      · exact ⟨readLe_lt hv, by dsimp only; omega⟩
      · exact hok o ho
    · rw [List.flatMap_cons, encodeOption, at_append, at_append, at_append]
      simp only [hnlen, length_writeLe, List.length_append]
      refine ⟨⟨writeLe_of_readLe hv hle, hat, hn⟩, ?_⟩
      rw [show pos + (bs + (1 + nl)) = pos + bs + 1 + nl by omega]
      exact hrest
    · rw [List.flatMap_cons, encodeOption]
      simp only [List.length_append, length_writeLe, hnlen]
      omega

theorem skipOptions_complete {bs : Nat} : ∀ {opts : List (Nat × Bytes)} {pos : Nat},
    (∀ o ∈ opts, o.2.length < 256) → At w pos (opts.flatMap (encodeOption bs)) →
    skipOptions w bs opts.length pos = some (pos + (opts.flatMap (encodeOption bs)).length)
  | [], pos, _, _ => rfl
  | o :: opts, pos, hok, hat => by
    have ho := hok o List.mem_cons_self
    rw [List.flatMap_cons, at_append] at hat
    obtain ⟨ha, hrest⟩ := hat
    rw [encodeOption, at_append, at_append] at ha
    obtain ⟨hv, hnl, hname⟩ := ha
    simp only [length_writeLe] at hv hnl hname
    have h₁ : rdSkip w pos bs = some (pos + bs) :=
      rdSkip_iff.mpr ⟨rfl, by have := hnl.1; omega⟩
    have h₂ : rdU8 w (pos + bs) = some (o.2.length, pos + bs + 1) := rdU8_iff.mpr ⟨rfl, ho, hnl⟩
    have h₃ : rdSkip w (pos + bs + 1) o.2.length = some (pos + bs + 1 + o.2.length) :=
      rdSkip_iff.mpr ⟨rfl, hname.le⟩
    have hlen : (encodeOption bs o).length = bs + 1 + o.2.length := by
      simp [encodeOption, Nat.add_assoc]
    rw [hlen, ← Nat.add_assoc, ← Nat.add_assoc] at hrest
    have ih := skipOptions_complete (fun x hx => hok x (List.mem_cons_of_mem _ hx)) hrest
    simp only [List.length_cons, skipOptions, Option.bind_eq_bind, h₁, h₂, h₃, Option.bind_some, ih,
      List.flatMap_cons, List.length_append, hlen, Option.some.injEq]
    omega

/-! ## The answer for a tree -/

/-- What the walk answers for `ty` at `pos`. -/
def treeAnswer (ty : Ty) (pos : Nat) : TypeLen × Nat × Nat :=
  (ty.measure, ty.rows, pos + ty.encode.length)

/-- What the struct loop answers for `ms` at `pos`, from the sums `acc` and `rows` rows on. -/
def membersAnswer (ms : Members) (acc : TypeLen) (rows pos : Nat) : TypeLen × Nat × Nat :=
  ({ acc with
      size := acc.size + ms.measure.size, frames := acc.frames + ms.measure.frames
      var := acc.var || ms.measure.var }, rows + ms.rows, pos + ms.encode.length)

/-- A walk that accepts the trees `Ok` at its depth alone, and answers with their measure. -/
def ReadsTrees (w : Bytes) (rd : Nat → Except Why (TypeLen × Nat × Nat)) (depth : Nat)
    (named : Bool) : Prop :=
  ∀ pos r, pos ≤ w.length → rd pos = .ok r →
    ∃ ty : Ty, ty.Ok depth named ∧ At w pos ty.encode ∧ r = treeAnswer ty pos

variable {depth : Nat}

theorem rdMembers_sound {rd : Nat → Except Why (TypeLen × Nat × Nat)}
    (hrd : ReadsTrees w rd depth false) : ∀ {n pos rows : Nat} {acc : TypeLen}
      {r : TypeLen × Nat × Nat}, pos ≤ w.length → rdMembers rd w n acc rows pos = .ok r →
      ∃ ms : Members, ms.length = n ∧ ms.Ok depth ∧ At w pos ms.encode ∧
        r = membersAnswer ms acc rows pos
  | 0, pos, rows, acc, r, hle, h => by
    cases h
    exact ⟨.nil, rfl, trivial, at_nil hle, by simp [membersAnswer, Members.measure, Members.rows,
      Members.encode]⟩
  | n + 1, pos, rows, acc, r, hle, h => by
    simp only [rdMembers, except_bind_ok, orShort_ok] at h
    obtain ⟨⟨nl, p₁⟩, h₁, p₂, h₂, ⟨m, k, p₃⟩, h₃, h⟩ := h
    obtain ⟨rfl, hnl, hat⟩ := rdU8_iff.mp h₁
    obtain ⟨rfl, hname⟩ := rdSkip_iff.mp h₂
    obtain ⟨ty, hty, hatty, hans⟩ := hrd _ _ (by omega) h₃
    simp only [treeAnswer, Prod.mk.injEq] at hans
    obtain ⟨rfl, rfl, rfl⟩ := hans
    obtain ⟨ms, hlen, hms, hatms, rfl⟩ := rdMembers_sound hrd hatty.le h
    have hn := at_take hname
    have hnlen : ((w.drop (pos + 1)).take nl).length = nl := by
      rw [List.length_take, List.length_drop]
      omega
    refine ⟨.cons ((w.drop (pos + 1)).take nl) ty ms, by simp [Members.length, hlen],
      ⟨by omega, hty, hms⟩, ?_, ?_⟩
    · rw [Members.encode, at_append, at_append, at_append, hnlen, length_writeLe]
      exact ⟨hat, hn, hatty, hatms⟩
    · simp only [membersAnswer, Members.measure, Members.rows, Members.encode, List.length_append,
        length_writeLe, hnlen, Nat.add_assoc, Bool.or_assoc]

theorem rdMembers_complete {rd : Nat → Except Why (TypeLen × Nat × Nat)} {k : Nat}
    (hrd : ∀ (ty : Ty) pos, ty.encode.length < k → ty.Ok depth false → At w pos ty.encode →
      rd pos = .ok (treeAnswer ty pos)) :
    ∀ {ms : Members} {pos rows : Nat} {acc : TypeLen}, ms.encode.length < k → ms.Ok depth →
      At w pos ms.encode → rdMembers rd w ms.length acc rows pos = .ok (membersAnswer ms acc rows pos)
  | .nil, pos, rows, acc, _, _, _ => by
    simp [rdMembers, Members.length, membersAnswer, Members.measure, Members.rows, Members.encode]
  | .cons n ty rest, pos, rows, acc, hk, hok, hat => by
    obtain ⟨hn, hty, hrest⟩ := hok
    rw [Members.encode] at hat hk
    simp only [List.length_append, length_writeLe] at hk
    rw [at_append, at_append, at_append, length_writeLe] at hat
    obtain ⟨hnl, hname, hatty, hatms⟩ := hat
    have h₁ : orShort (rdU8 w pos) = .ok (n.length, pos + 1) :=
      orShort_ok.mpr (rdU8_iff.mpr ⟨rfl, hn, hnl⟩)
    have h₂ : orShort (rdSkip w (pos + 1) n.length) = .ok (pos + 1 + n.length) :=
      orShort_ok.mpr (rdSkip_iff.mpr ⟨rfl, hname.le⟩)
    have h₃ := hrd ty (pos + 1 + n.length) (by omega) hty hatty
    have ih := @rdMembers_complete rd k hrd rest _ (rows + 1 + ty.rows)
      { acc with
        size := acc.size + ty.measure.size, frames := acc.frames + ty.measure.frames
        var := acc.var || ty.measure.var } (by omega) hrest hatms
    simp only [Members.length, rdMembers, bind, Except.bind, h₁, h₂, h₃, treeAnswer, ih]
    simp only [membersAnswer, Members.measure, Members.rows, Members.encode, List.length_append,
      length_writeLe, Nat.add_assoc, Bool.or_assoc]

/-! ## Arrays -/

/-- The checks past an array's element: an element is never empty, and the array's fixed
bytes or its default fit 32 bits. -/
def arrayChecks (kind : Kind) (fixed : Bool) (count : Nat) (e : TypeLen) (rows pos : Nat) :
    Except Why (TypeLen × Nat × Nat) :=
  if e.var = false ∧ e.size = 0 then refuse "an array element cannot be empty"
  else if fixed = true ∧ e.var = false then
    if u32Max < count * e.size then refuse "an array is too large"
    else .ok ({ size := count * e.size }, rows + 1, pos)
  else if u32Max < 4 + arrDmin kind count e.var e.body then
    refuse "an array's default is too large"
  else .ok ({ frames := 4 + arrDmin kind count e.var e.body
              body := arrDmin kind count e.var e.body, var := true }, rows + 1, pos)

variable {pos : Nat}

variable {r : TypeLen × Nat × Nat}

theorem arrayChecks_arr {count rows : Nat} {e : Ty} :
    arrayChecks .arr true count e.measure rows pos = .ok r ↔
      e.measure.Filled ∧ (Ty.arr count e).measure.size ≤ u32Max ∧
      (Ty.arr count e).measure.frames ≤ u32Max ∧ r = ((Ty.arr count e).measure, rows + 1, pos) := by
  unfold arrayChecks TypeLen.Filled
  by_cases hempty : e.measure.var = false ∧ e.measure.size = 0
  · simp [hempty, refuse]
  rw [if_neg hempty]
  cases hv : e.measure.var with
  | false =>
    simp only [Ty.measure, hv, and_self, if_true, Bool.false_eq_true, if_false]
    by_cases hbig : u32Max < count * e.measure.size
    · rw [if_pos hbig]
      simp [refuse, Nat.not_le.mpr hbig]
    rw [if_neg hbig]
    constructor
    · intro h
      cases h
      exact ⟨by simpa [hv] using hempty, Nat.not_lt.mp hbig, Nat.zero_le _, rfl⟩
    · rintro ⟨-, -, -, rfl⟩
      rfl
  | true =>
    simp only [Ty.measure, hv, if_true, Bool.true_eq_false, and_false, if_false]
    by_cases hbig : u32Max < 4 + arrDmin .arr count true e.measure.body
    · rw [if_pos hbig]
      simp [refuse, Nat.not_le.mpr hbig]
    · rw [if_neg hbig]
      simp [Nat.not_lt.mp hbig, eq_comm]

theorem arrayChecks_varr {rows : Nat} {e : Ty} :
    arrayChecks .varr false 0 e.measure rows pos = .ok r ↔
      e.measure.Filled ∧ (Ty.varr e).measure.frames ≤ u32Max ∧
      r = ((Ty.varr e).measure, rows + 1, pos) := by
  unfold arrayChecks TypeLen.Filled
  by_cases hempty : e.measure.var = false ∧ e.measure.size = 0
  · simp [hempty, refuse]
  rw [if_neg hempty]
  simp only [Ty.measure, Bool.false_eq_true, false_and, if_false]
  by_cases hbig : u32Max < 4 + arrDmin .varr 0 e.measure.var e.measure.body
  · rw [if_pos hbig]
    simp [refuse, Nat.not_le.mpr hbig]
  rw [if_neg hbig]
  constructor
  · intro h
    cases h
    exact ⟨hempty, Nat.not_lt.mp hbig, rfl⟩
  · rintro ⟨-, -, rfl⟩
    rfl

/-- Every tree opens with its kind byte. -/
theorem Ty.encode_kind (ty : Ty) : ∃ rest, ty.encode = byte ty.kind.code ++ rest := by
  cases ty with
  | scalar k => exact ⟨[], (List.append_nil _).symm⟩
  | vstr => exact ⟨[], rfl⟩
  | map => exact ⟨[], rfl⟩
  | _ => exact ⟨_, rfl⟩

/-- The byte at a tree is its kind's. -/
theorem rdU8_kind {ty : Ty} (hat : At w pos ty.encode) :
    rdU8 w pos = some (ty.kind.code, pos + 1) := by
  obtain ⟨rest, hrest⟩ := ty.encode_kind
  rw [hrest, at_append] at hat
  exact rdU8_iff.mpr ⟨rfl, ty.kind.code_lt, hat.1⟩

variable {named : Bool}

/-- The kind byte past the names of a type. -/
theorem peekKind_tree {n : Nat} {ty : Ty} (hok : ty.Ok depth named)
    (hat : At w pos ty.encode) :
    ∃ k, peekKind w (n + 2) pos = some k ∧ k ≠ 0xFF := by
  have hstep : ∀ {ty : Ty} {pos m : Nat}, At w pos ty.encode → ty.kind ≠ .named →
      ∃ k, peekKind w (m + 1) pos = some k ∧ k ≠ 0xFF := by
    intro ty pos m hat hk
    refine ⟨ty.kind.code, ?_, ?_⟩
    · have hne : ty.kind.code ≠ 18 := by
        intro hc
        have := Kind.ofByte_code ty.kind
        rw [hc] at this
        exact hk (Option.some.inj this).symm
      simp [peekKind, rdU8_kind hat, hne]
    · cases ty.kind <;> decide
  by_cases hk : ty.kind = .named
  · cases ty with
    | named name t =>
      obtain ⟨hpos, hlen, hin, ht⟩ := hok
      have hkind := rdU8_kind hat
      rw [at_named] at hat
      obtain ⟨-, hnl, hname, hatt⟩ := hat
      have hnl' : rdU8 w (pos + 1) = some (name.length, pos + 1 + 1) :=
        rdU8_iff.mpr ⟨rfl, hlen, hnl⟩
      obtain ⟨k, hk, hne⟩ := hstep (m := n) hatt hin
      refine ⟨k, ?_, hne⟩
      rw [peekKind]
      have h18 : ¬ ((Ty.named name t).kind.code ≠ 18) := by simp [Ty.kind, Kind.code]
      simp only [Option.bind_eq_bind, hkind, Option.bind_some, h18, if_false, hnl']
      exact hk
    | scalar k =>
      obtain rfl : k = .named := hk
      exact absurd hok (Nat.lt_irrefl 0)
    | _ => exact absurd hk (by intro hc; cases hc)
  · exact hstep (m := n + 1) hat hk

/-! ## Soundness -/

variable {rd : Nat → Nat → Bool → Except Why (TypeLen × Nat × Nat)}

theorem rdArr_sound
    (hrd : ∀ depth named, ReadsTrees w (fun pos => rd pos depth named) depth named)
    (hat : At w pos (byte 11))
    (h : rdBody rd w 11 (pos + 1) depth named = .ok r) :
    ∃ ty : Ty, ty.Ok depth named ∧ At w pos ty.encode ∧ r = treeAnswer ty pos := by
  have hk : Kind.ofByte 11 = some .arr := rfl
  simp only [rdBody, hk] at h
  split at h
  next => cases h
  next hdepth =>
    simp only [if_true, except_bind_ok, orShort_ok] at h
    obtain ⟨⟨count, p₁⟩, h₁, peeked, -, h⟩ := h
    obtain ⟨rfl, hcount, hatc⟩ := rdU16_iff.mp h₁
    split at h
    next => cases h
    obtain ⟨⟨e, rows, p₂⟩, h₂, h⟩ := except_bind_ok.mp h
    have hlen := hatc.le
    rw [length_writeLe] at hlen
    obtain ⟨ty, hty, hatty, hans⟩ := hrd _ _ _ _ hlen h₂
    simp only [treeAnswer, Prod.mk.injEq] at hans
    obtain ⟨rfl, rfl, rfl⟩ := hans
    have hchecks : arrayChecks .arr true count ty.measure ty.rows
        (pos + 1 + 2 + ty.encode.length) = .ok r := by
      rw [← h, arrayChecks]
      simp only [true_and]
    obtain ⟨hfill, hsize, hframes, rfl⟩ := arrayChecks_arr.mp hchecks
    refine ⟨.arr count ty, ⟨Nat.not_le.mp hdepth, hcount, hty, hfill, hsize, hframes⟩, ?_, ?_⟩
    · rw [Ty.encode, at_append, at_append, length_writeLe, length_writeLe]
      exact ⟨hat, hatc, hatty⟩
    · simp only [treeAnswer, Ty.rows, Ty.encode, List.length_append, length_writeLe,
        Nat.add_assoc]

theorem rdVarr_sound
    (hrd : ∀ depth named, ReadsTrees w (fun pos => rd pos depth named) depth named)
    (hat : At w pos (byte 15))
    (h : rdBody rd w 15 (pos + 1) depth named = .ok r) :
    ∃ ty : Ty, ty.Ok depth named ∧ At w pos ty.encode ∧ r = treeAnswer ty pos := by
  have hk : Kind.ofByte 15 = some .varr := rfl
  have hne : ¬ ((15 : Nat) = 11) := by omega
  simp only [rdBody, hk, hne, if_false] at h
  split at h
  next => cases h
  next hdepth =>
    obtain ⟨⟨count, p₁⟩, h₁, h⟩ := except_bind_ok.mp h
    cases h₁
    obtain ⟨peeked, -, h⟩ := except_bind_ok.mp h
    split at h
    next => cases h
    obtain ⟨⟨e, rows, p₂⟩, h₂, h⟩ := except_bind_ok.mp h
    have hlen := hat.le
    rw [length_writeLe] at hlen
    obtain ⟨ty, hty, hatty, hans⟩ := hrd _ _ _ _ hlen h₂
    simp only [treeAnswer, Prod.mk.injEq] at hans
    obtain ⟨rfl, rfl, rfl⟩ := hans
    have hchecks : arrayChecks .varr false 0 ty.measure ty.rows
        (pos + 1 + ty.encode.length) = .ok r := by
      rw [← h, arrayChecks]
      simp only [Bool.false_eq_true, false_and]
    obtain ⟨hfill, hframes, rfl⟩ := arrayChecks_varr.mp hchecks
    refine ⟨.varr ty, ⟨Nat.not_le.mp hdepth, hty, hfill, hframes⟩, ?_, ?_⟩
    · rw [Ty.encode, at_append, length_writeLe]
      exact ⟨hat, hatty⟩
    · simp only [treeAnswer, Ty.rows, Ty.encode, List.length_append, length_writeLe,
        Nat.add_assoc]

theorem rdEnum_sound
    (hat : At w pos (byte 17)) (h : rdBody rd w 17 (pos + 1) depth named = .ok r) :
    ∃ ty : Ty, ty.Ok depth named ∧ At w pos ty.encode ∧ r = treeAnswer ty pos := by
  have hk : Kind.ofByte 17 = some .enum := rfl
  simp only [rdBody, hk] at h
  split at h
  next => cases h
  next hnamed =>
    simp only [except_bind_ok, orShort_ok] at h
    obtain ⟨⟨b, p₁⟩, h₁, ⟨n, p₂⟩, h₂, h⟩ := h
    obtain ⟨rfl, hb, hatb⟩ := rdU8_iff.mp h₁
    obtain ⟨rfl, hn, hatn⟩ := rdU16_iff.mp h₂
    cases hback : Kind.ofByte b with
    | none => simp [hback, refuse] at h
    | some backing =>
      obtain rfl := Kind.code_of_ofByte hback
      simp only [hback] at h
      split at h
      next => cases h
      next hint =>
        obtain ⟨p₃, h₃, h⟩ := except_bind_ok.mp h
        have hlen := hatn.le
        rw [length_writeLe] at hlen
        obtain ⟨opts, rfl, hopts, hato, rfl⟩ := skipOptions_sound hlen (orShort_ok.mp h₃)
        cases h
        refine ⟨.enum backing opts, ⟨by simpa using hnamed, by simpa using hint, hn, hopts⟩,
          ?_, ?_⟩
        · rw [Ty.encode, at_append, at_append, at_append]
          simp only [length_writeLe]
          exact ⟨hat, hatb, hatn, hato⟩
        · simp only [treeAnswer, Ty.measure, Ty.rows, Ty.encode, List.length_append,
            length_writeLe, Nat.add_assoc]

theorem rdStruct_sound
    (hrd : ∀ depth named, ReadsTrees w (fun pos => rd pos depth named) depth named)
    (hat : At w pos (byte 12))
    (h : rdBody rd w 12 (pos + 1) depth named = .ok r) :
    ∃ ty : Ty, ty.Ok depth named ∧ At w pos ty.encode ∧ r = treeAnswer ty pos := by
  have hk : Kind.ofByte 12 = some .struct := rfl
  simp only [rdBody, hk] at h
  split at h
  next => cases h
  next hnamed =>
    split at h
    next => cases h
    next hdepth =>
      simp only [except_bind_ok, orShort_ok] at h
      obtain ⟨⟨nf, p₁⟩, h₁, ⟨m, rows, p₂⟩, h₂, h⟩ := h
      obtain ⟨rfl, hnf, hatn⟩ := rdU8_iff.mp h₁
      have hlen := hatn.le
      rw [length_writeLe] at hlen
      obtain ⟨ms, rfl, hms, hatms, hans⟩ := rdMembers_sound (hrd (depth + 1) false) hlen h₂
      simp only [membersAnswer, Nat.zero_add, Bool.false_or, Prod.mk.injEq] at hans
      obtain ⟨rfl, rfl, rfl⟩ := hans
      split at h
      next => cases h
      split at h
      next => cases h
      next hbody =>
        cases h
        refine ⟨.struct ms, ⟨by simpa using hnamed, Nat.not_le.mp hdepth, hnf, hms,
          Nat.not_lt.mp hbody⟩, ?_, ?_⟩
        · rw [Ty.encode, at_append, at_append]
          simp only [length_writeLe]
          exact ⟨hat, hatn, hatms⟩
        · simp only [treeAnswer, Ty.measure, Ty.rows, Ty.encode, List.length_append,
            length_writeLe, Nat.add_assoc]

theorem rdNamed_sound
    (hrd : ∀ depth named, ReadsTrees w (fun pos => rd pos depth named) depth named)
    (hat : At w pos (byte 18))
    (h : rdBody rd w 18 (pos + 1) depth named = .ok r) :
    ∃ ty : Ty, ty.Ok depth named ∧ At w pos ty.encode ∧ r = treeAnswer ty pos := by
  have hk : Kind.ofByte 18 = some .named := rfl
  simp only [rdBody, hk, except_bind_ok, orShort_ok] at h
  obtain ⟨⟨nl, p₁⟩, h₁, h⟩ := h
  obtain ⟨rfl, hnl, hatn⟩ := rdU8_iff.mp h₁
  split at h
  next => cases h
  next hpos =>
    obtain ⟨p₂, h₂, h⟩ := except_bind_ok.mp h
    obtain ⟨rfl, hname⟩ := rdSkip_iff.mp (orShort_ok.mp h₂)
    dsimp only at hpos hname h
    split at h
    next => cases h
    next hin =>
      obtain ⟨ty, hty, hatty, rfl⟩ := hrd _ _ _ _ hname h
      have hn := at_take hname
      have hnlen : ((w.drop (pos + 1 + 1)).take nl).length = nl := by
        rw [List.length_take, List.length_drop]
        omega
      have hkind : ty.kind ≠ .named := by
        intro hc
        obtain ⟨-, hlt, hatk⟩ := rdU8_iff.mp (rdU8_kind hatty)
        rw [hc] at hatk hlt
        exact hin (readLe_at hatk (by rw [Nat.pow_one]; exact hlt))
      refine ⟨.named ((w.drop (pos + 1 + 1)).take nl) ty,
        ⟨by omega, by omega, hkind, hty⟩, ?_, ?_⟩
      · rw [Ty.encode, at_append, at_append, at_append]
        simp only [length_writeLe, hnlen]
        exact ⟨hat, hatn, hn, hatty⟩
      · simp only [treeAnswer, Ty.measure, Ty.rows, Ty.encode, List.length_append,
          length_writeLe, hnlen, Nat.add_assoc]

/-- What the measuring walk accepts is an encoding. -/
theorem rdType_sound (w : Bytes) : ∀ (n depth : Nat) (named : Bool),
    ReadsTrees w (fun pos => rdType w n pos depth named) depth named
  | 0, _, _ => by
    intro pos r _ h
    cases h
  | n + 1, depth, named => by
    intro pos r hle h
    have ih := rdType_sound w n
    simp only [rdType, except_bind_ok, orShort_ok] at h
    obtain ⟨⟨k, p⟩, hk, h⟩ := h
    obtain ⟨rfl, hlt, hat⟩ := rdU8_iff.mp hk
    have hend := hat.le
    rw [length_writeLe] at hend
    cases hkind : Kind.ofByte k with
    | none => simp [rdBody, hkind, refuse] at h
    | some kind =>
      obtain rfl := Kind.code_of_ofByte hkind
      have hscalar : 0 < kind.scalarSize →
          r = ({ size := kind.scalarSize }, 0, pos + 1) →
          ∃ ty : Ty, ty.Ok depth named ∧ At w pos ty.encode ∧ r = treeAnswer ty pos := by
        intro hs hr
        exact ⟨.scalar kind, hs, hat, hr⟩
      cases kind with
      | arr => exact rdArr_sound ih hat h
      | varr => exact rdVarr_sound ih hat h
      | enum => exact rdEnum_sound hat h
      | struct => exact rdStruct_sound ih hat h
      | named => exact rdNamed_sound ih hat h
      | str =>
        simp only [rdBody, hkind, except_bind_ok, orShort_ok] at h
        obtain ⟨⟨cap, p₁⟩, h₁, h⟩ := h
        obtain ⟨rfl, hcap, hatc⟩ := rdU16_iff.mp h₁
        cases h
        refine ⟨.str cap, hcap, ?_, ?_⟩
        · rw [Ty.encode, at_append, length_writeLe]
          exact ⟨hat, hatc⟩
        · simp only [treeAnswer, Ty.measure, Ty.rows, Ty.encode, List.length_append,
            length_writeLe, Nat.add_assoc]
      | vstr =>
        simp only [rdBody, hkind] at h
        cases h
        exact ⟨.vstr, trivial, hat, rfl⟩
      | map =>
        simp only [rdBody, hkind] at h
        cases h
        exact ⟨.map, trivial, hat, rfl⟩
      | _ =>
        refine hscalar (by decide) ?_
        simp only [rdBody, hkind] at h
        cases h
        rfl

/-! ## Completeness -/

/-- A walk with fuel for every encoding shorter than `k` accepts it. -/
def AcceptsTrees (w : Bytes) (rd : Nat → Nat → Bool → Except Why (TypeLen × Nat × Nat)) (k : Nat) :
    Prop :=
  ∀ (ty : Ty) (depth : Nat) (named : Bool) (pos : Nat), ty.encode.length < k → ty.Ok depth named →
    At w pos ty.encode → rd pos depth named = .ok (treeAnswer ty pos)

/-- The switch on an array's element, its head already read. -/
theorem rdElem_complete {k : Nat} (hrd : AcceptsTrees w rd k) {e : Ty}
    (hk : e.encode.length < k) (hok : e.Ok (depth + 1) false) (hat : At w pos e.encode)
    {c : TypeLen × Nat × Nat → Except Why (TypeLen × Nat × Nat)} :
    (do
      let peeked ← orShort (peekKind w (w.length + 1) pos)
      if peeked = 0xFF then .error none
      else do
        let r ← rd pos (depth + 1) false
        c r) = c (treeAnswer e pos) := by
  have hlen := hat.le
  obtain ⟨rest, hrest⟩ := e.encode_kind
  have hpos : 0 < e.encode.length := by rw [hrest, List.length_append, length_writeLe]; omega
  obtain ⟨m, hm⟩ : ∃ m, w.length + 1 = m + 2 := ⟨w.length - 1, by omega⟩
  obtain ⟨b, hb, hne⟩ := peekKind_tree (n := m) hok hat
  rw [hm, hb]
  have h := hrd e (depth + 1) false pos hk hok hat
  simp only [orShort, bind, Except.bind, if_neg hne, h]

/-- The reader answers a tree that stands on the wire. -/
theorem rdBody_complete {k : Nat} (hrd : AcceptsTrees w rd k) {ty : Ty}
    (hk : ty.encode.length ≤ k) (hok : ty.Ok depth named)
    (hat : At w pos ty.encode) :
    rdBody rd w ty.kind.code (pos + 1) depth named = .ok (treeAnswer ty pos) := by
  cases ty with
  | scalar kind =>
    cases kind <;> first
      | rfl
      | exact absurd hok (Nat.lt_irrefl 0)
  | vstr => rfl
  | map => rfl
  | str cap =>
    rw [at_str] at hat
    have h := orShort_ok.mpr (rdU16_iff.mpr ⟨rfl, hok, hat.2⟩)
    simp only [rdBody, Ty.kind, Kind.ofByte_code, h, bind, Except.bind, treeAnswer, Ty.measure,
      Ty.rows, Ty.encode, List.length_append, length_writeLe]
  | enum b opts =>
    obtain ⟨hnamed, hint, hn, hopts⟩ := hok
    rw [at_enum] at hat
    obtain ⟨-, hb, hc, ho⟩ := hat
    have h₁ := orShort_ok.mpr (rdU8_iff.mpr ⟨rfl, b.code_lt, hb⟩)
    have h₂ := orShort_ok.mpr (rdU16_iff.mpr ⟨rfl, hn, hc⟩)
    have h₃ := orShort_ok.mpr (skipOptions_complete (fun o ho => (hopts o ho).2) ho)
    simp only [rdBody, Ty.kind, Kind.ofByte_code, hnamed, Bool.true_eq_false, if_false, h₁, h₂, h₃,
      hint, bind, Except.bind, treeAnswer, Ty.measure, Ty.rows, Ty.encode, List.length_append,
      length_writeLe, Nat.add_assoc]
  | arr count e =>
    obtain ⟨hdepth, hcount, he, hfill, hsize, hframes⟩ := hok
    rw [length_arr] at hk
    rw [at_arr] at hat
    obtain ⟨-, hc, hate⟩ := hat
    have h₁ := orShort_ok.mpr (rdU16_iff.mpr ⟨rfl, hcount, hc⟩)
    have hchecks : ∀ rows p, arrayChecks .arr true count e.measure rows p =
        .ok ((Ty.arr count e).measure, rows + 1, p) := fun rows p =>
      arrayChecks_arr.mpr ⟨hfill, hsize, hframes, rfl⟩
    have helem := rdElem_complete hrd (by omega) he hate
      (c := fun r => arrayChecks .arr true count r.1 r.2.1 r.2.2)
    simp only [treeAnswer, hchecks] at helem
    have hlen : (Ty.arr count e).encode.length = 1 + (2 + e.encode.length) := by
      rw [length_arr]
    rw [treeAnswer, hlen, ← Nat.add_assoc, ← Nat.add_assoc, Ty.rows, ← helem]
    have hd : ¬ maxDepth ≤ depth := Nat.not_le.mpr hdepth
    simp only [rdBody, Ty.kind, Kind.ofByte_code, if_neg hd]
    simp only [Kind.code, if_true, h₁, bind, Except.bind, arrayChecks, true_and]
  | varr e =>
    obtain ⟨hdepth, he, hfill, hframes⟩ := hok
    rw [length_varr] at hk
    rw [at_varr] at hat
    have hchecks : ∀ rows p, arrayChecks .varr false 0 e.measure rows p =
        .ok ((Ty.varr e).measure, rows + 1, p) := fun rows p =>
      arrayChecks_varr.mpr ⟨hfill, hframes, rfl⟩
    have helem := rdElem_complete hrd (by omega) he hat.2
      (c := fun r => arrayChecks .varr false 0 r.1 r.2.1 r.2.2)
    simp only [treeAnswer, hchecks] at helem
    have hlen : (Ty.varr e).encode.length = 1 + e.encode.length := by
      rw [length_varr]
    rw [treeAnswer, hlen, ← Nat.add_assoc, Ty.rows, ← helem]
    have hd : ¬ maxDepth ≤ depth := Nat.not_le.mpr hdepth
    have hne : ¬ ((15 : Nat) = 11) := by omega
    simp only [rdBody, Ty.kind, Kind.ofByte_code, if_neg hd]
    simp only [Kind.code, hne, if_false, bind, Except.bind, arrayChecks, Bool.false_eq_true,
      false_and]
  | struct ms =>
    obtain ⟨hnamed, hdepth, hlen, hms, hbody⟩ := hok
    rw [length_struct] at hk
    rw [at_struct] at hat
    obtain ⟨-, hn, hatm⟩ := hat
    have h₁ := orShort_ok.mpr (rdU8_iff.mpr ⟨rfl, hlen, hn⟩)
    have h₂ := @rdMembers_complete w (depth + 1) (fun pos => rd pos (depth + 1) false) k
      (fun ty pos h hok hat => hrd ty (depth + 1) false pos h hok hat) ms _ 0 {} (by omega) hms hatm
    have hd : ¬ maxDepth ≤ depth := Nat.not_le.mpr hdepth
    have hsize : ¬ u32Max < ms.measure.size := by omega
    have hbody' : ¬ u32Max < ms.measure.size + ms.measure.frames := by omega
    simp only [membersAnswer, Nat.zero_add, Bool.false_or] at h₂
    simp only [rdBody, Ty.kind, Kind.ofByte_code, hnamed, Bool.true_eq_false, if_false, if_neg hd,
      h₁, h₂, bind, Except.bind, if_neg hsize, if_neg hbody', treeAnswer, Ty.measure, Ty.rows,
      Ty.encode, List.length_append, length_writeLe, Nat.add_assoc]
  | named n t =>
    obtain ⟨hpos, hlen, hin, ht⟩ := hok
    rw [length_named] at hk
    rw [at_named] at hat
    obtain ⟨-, hnl, hname, hatt⟩ := hat
    have h₁ := orShort_ok.mpr (rdU8_iff.mpr ⟨rfl, hlen, hnl⟩)
    have h₂ := orShort_ok.mpr (rdSkip_iff.mpr ⟨rfl, hname.le⟩)
    have h₃ := hrd t depth true _ (by omega) ht hatt
    have hne : ¬ n.length = 0 := by omega
    have hin' : ¬ readLe w (pos + 1 + 1 + n.length) 1 = some 18 := by
      intro hc
      have hk := (rdU8_le (rdU8_kind hatt)).2.2
      rw [hc, Option.some.injEq] at hk
      have := Kind.ofByte_code t.kind
      rw [← hk] at this
      exact hin (Option.some.inj this).symm
    simp only [rdBody, Ty.kind, Kind.ofByte_code, h₁, bind, Except.bind, if_neg hne, h₂,
      if_neg hin', h₃]
    simp only [treeAnswer, Ty.measure, Ty.rows, Ty.encode, List.length_append, length_writeLe,
      Nat.add_assoc]

/-- The measuring walk accepts every encoding its fuel reaches. -/
theorem rdType_complete (w : Bytes) : ∀ n, AcceptsTrees w (rdType w n) n
  | 0 => fun _ _ _ _ h _ _ => absurd h (Nat.not_lt_zero _)
  | n + 1 => by
    intro ty depth named pos hk hok hat
    have hkind := orShort_ok.mpr (rdU8_kind hat)
    simp only [rdType, hkind, bind, Except.bind]
    exact rdBody_complete (rdType_complete w n) (Nat.lt_succ_iff.mp hk) hok hat

/-- The measuring walk over a whole wire accepts exactly the encodings at its position. -/
theorem rdType_iff
    (hle : pos ≤ w.length) : rdType w (w.length + 1) pos depth named = .ok r ↔
      ∃ ty : Ty, ty.Ok depth named ∧ At w pos ty.encode ∧ r = treeAnswer ty pos := by
  constructor
  · exact rdType_sound w _ depth named pos r hle
  · intro ⟨ty, hok, hat, hr⟩
    have hlen := hat.le
    rw [hr]
    exact rdType_complete w _ ty depth named pos (by omega) hok hat

end Rant.Serialize
