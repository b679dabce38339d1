import Rant.Serialize.WireCheck
import Rant.Serialize.Evolution
/-!
# Compatibility is a preorder

The subset rule read as a relation between schemas. It is transitive over any three schemas:
two comparisons that share the wire in the middle read it the same way, so what each rule
asks of the outer two wires follows from what it asked of the pairs (`typeCmp_chains`, by
induction on the depth left). It is reflexive where the top level names are distinct: every
type of the grammar compares equal to itself (`Ty.cmp_self`), and a field's name then finds
the field itself.
-/

namespace Rant.Serialize

open Rant.Lib

/-! ## Transitivity -/

/-- Two comparisons over a shared wire stop at one byte of it, and the outer wires compare. -/
def Chains (ab bc ac : Nat → Nat → Option (Nat × Nat)) : Prop :=
  ∀ pa pb pc qa qb qb' qc, ab pa pb = some (qa, qb) → bc pb pc = some (qb', qc) →
    qb = qb' ∧ ac pa pc = some (qa, qc)

variable {wa wb : Bytes} {pa pb : Nat} {q : Nat × Nat}

/-- What the loop over the members asks of the first of them. -/
theorem membersCmp_succ {cmp : Nat → Nat → Option (Nat × Nat)}
    {n : Nat} : membersCmp cmp wa wb (n + 1) pa pb = some q ↔
      ∃ l p₁ p₁' p₂ p₂' r r', rdU8 wa pa = some (l, p₁) ∧ rdU8 wb pb = some (l, p₁') ∧
        nameAt wa p₁ l = nameAt wb p₁' l ∧ rdSkip wa p₁ l = some p₂ ∧
        rdSkip wb p₁' l = some p₂' ∧ cmp p₂ p₂' = some (r, r') ∧
        membersCmp cmp wa wb n r r' = some q := by
  simp only [membersCmp, Option.bind_eq_bind]
  constructor
  · intro h
    obtain ⟨⟨la, p₁⟩, h₁, h⟩ := Option.bind_eq_some_iff.mp h
    obtain ⟨⟨lb, p₁'⟩, h₁', h⟩ := Option.bind_eq_some_iff.mp h
    dsimp only at h
    obtain ⟨p₂, h₂, h⟩ := Option.bind_eq_some_iff.mp h
    obtain ⟨p₂', h₂', h⟩ := Option.bind_eq_some_iff.mp h
    split at h
    next => cases h
    next hl =>
      obtain ⟨⟨r, r'⟩, hr, hrest⟩ := Option.bind_eq_some_iff.mp h
      rw [not_or, ne_eq, ne_eq, Decidable.not_not, Decidable.not_not] at hl
      obtain ⟨rfl, hname⟩ := hl
      exact ⟨la, p₁, p₁', p₂, p₂', r, r', h₁, h₁', hname, h₂, h₂', hr, hrest⟩
  · rintro ⟨l, p₁, p₁', p₂, p₂', r, r', h₁, h₁', hname, h₂, h₂', hr, h⟩
    simp only [h₁, h₁', Option.bind_some, h₂, h₂', hname, ne_eq, not_true_eq_false, or_self,
      if_false, hr]
    exact h

/-- What the comparison of two types asks of their tags. -/
theorem typeCmp_succ {room : Nat} :
    typeCmp wa wb (room + 1) pa pb = some q ↔
      ∃ na nb p₁ p₁' k p₂ p₂', rdTypeName wa pa = some (na, p₁) ∧
        rdTypeName wb pb = some (nb, p₁') ∧ (na ≠ [] → na = nb) ∧ rdU8 wa p₁ = some (k, p₂) ∧
        rdU8 wb p₁' = some (k, p₂') ∧ bodyCmp (typeCmp wa wb room) wa wb k p₂ p₂' = some q := by
  simp only [typeCmp, Option.bind_eq_bind]
  constructor
  · intro h
    obtain ⟨⟨na, p₁⟩, h₁, h⟩ := Option.bind_eq_some_iff.mp h
    obtain ⟨⟨nb, p₁'⟩, h₁', h⟩ := Option.bind_eq_some_iff.mp h
    dsimp only at h
    split at h
    next => cases h
    next hname =>
      obtain ⟨⟨ka, p₂⟩, h₂, h⟩ := Option.bind_eq_some_iff.mp h
      obtain ⟨⟨kb, p₂'⟩, h₂', h⟩ := Option.bind_eq_some_iff.mp h
      dsimp only at h
      split at h
      next => cases h
      next hk =>
        rw [ne_eq, Decidable.not_not] at hk
        subst hk
        exact ⟨na, nb, p₁, p₁', ka, p₂, p₂', h₁, h₁',
          fun hne => Decidable.byContradiction fun hc => hname ⟨hne, hc⟩, h₂, h₂', h⟩
  · rintro ⟨na, nb, p₁, p₁', k, p₂, p₂', h₁, h₁', hname, h₂, h₂', h⟩
    simp only [h₁, h₁', Option.bind_some]
    rw [if_neg (fun hc => hc.2 (hname hc.1))]
    simp only [h₂, h₂', Option.bind_some, ne_eq, not_true_eq_false, if_false]
    exact h

theorem membersCmp_chains {ab bc ac : Nat → Nat → Option (Nat × Nat)} {wa wb wc : Bytes}
    (hc : Chains ab bc ac) : ∀ n, Chains (membersCmp ab wa wb n) (membersCmp bc wb wc n)
      (membersCmp ac wa wc n)
  | 0 => by
    intro pa pb pc qa qb qb' qc h h'
    simp only [membersCmp, Option.some.injEq, Prod.mk.injEq] at h h' ⊢
    omega
  | n + 1 => by
    intro pa pb pc qa qb qb' qc h h'
    obtain ⟨l, p₁, p₁', p₂, p₂', r, r', h₁, h₁', hname, h₂, h₂', hr, h⟩ := membersCmp_succ.mp h
    obtain ⟨l', u₁, u₁', u₂, u₂', v, v', g₁, g₁', gname, g₂, g₂', gr, h'⟩ :=
      membersCmp_succ.mp h'
    -- the middle wire is read twice
    obtain ⟨rfl, rfl⟩ : l = l' ∧ p₁' = u₁ := by simpa using h₁'.symm.trans g₁
    obtain rfl : p₂' = u₂ := Option.some.inj (h₂'.symm.trans g₂)
    obtain ⟨rfl, hr'⟩ := hc _ _ _ _ _ _ _ hr gr
    obtain ⟨hq, hrest⟩ := membersCmp_chains hc n _ _ _ _ _ _ _ h h'
    exact ⟨hq, membersCmp_succ.mpr
      ⟨l, p₁, u₁', p₂, u₂', r, v', h₁, g₁', hname.trans gname, h₂, g₂', hr', hrest⟩⟩

/-- What the comparison of two bodies of kind byte `k` asks, and where it stops. -/
def SameBody (cmp : Nat → Nat → Option (Nat × Nat)) (wa wb : Bytes) (k pa pb qa qb : Nat) : Prop :=
  match Kind.ofByte k with
  | some .str => ∃ c, rdU16 wa pa = some (c, qa) ∧ rdU16 wb pb = some (c, qb)
  | some .arr => ∃ c p p', rdU16 wa pa = some (c, p) ∧ rdU16 wb pb = some (c, p') ∧
      cmp p p' = some (qa, qb)
  | some .varr => cmp pa pb = some (qa, qb)
  | some .vstr | some .map => pa = qa ∧ pb = qb
  | some .enum => ∃ b p p', rdU8 wa pa = some (b, p) ∧ rdU8 wb pb = some (b, p') ∧
      rdSkipEnum wa b p = some qa ∧ rdSkipEnum wb b p' = some qb
  | some .struct => ∃ n p p', rdU8 wa pa = some (n, p) ∧ rdU8 wb pb = some (n, p') ∧
      membersCmp cmp wa wb n p p' = some (qa, qb)
  | _ => sizeOfByte k ≠ 0 ∧ pa = qa ∧ pb = qb

theorem bodyCmp_iff {cmp : Nat → Nat → Option (Nat × Nat)} {k qa qb : Nat} :
    bodyCmp cmp wa wb k pa pb = some (qa, qb) ↔ SameBody cmp wa wb k pa pb qa qb := by
  have hscalar : (if sizeOfByte k ≠ 0 then some (pa, pb) else none) = some (qa, qb) ↔
      sizeOfByte k ≠ 0 ∧ pa = qa ∧ pb = qb := by
    by_cases h : sizeOfByte k ≠ 0
    · simp [h]
    · simp [h]
  unfold bodyCmp SameBody
  cases hk : Kind.ofByte k with
  | none => exact hscalar
  | some kind =>
    cases kind with
    | str =>
      simp only [Option.bind_eq_bind, Option.bind_eq_some_iff, Prod.exists,
        Option.ite_none_left_eq_some, Option.some.injEq, Prod.mk.injEq, ne_eq, Decidable.not_not]
      constructor
      · rintro ⟨c, p, h, c', p', h', rfl, rfl, rfl⟩
        exact ⟨c, h, h'⟩
      · rintro ⟨c, h, h'⟩
        exact ⟨c, qa, h, c, qb, h', rfl, rfl, rfl⟩
    | arr =>
      simp only [Option.bind_eq_bind, Option.bind_eq_some_iff, Prod.exists,
        Option.ite_none_left_eq_some, ne_eq, Decidable.not_not]
      constructor
      · rintro ⟨c, p, h, c', p', h', rfl, hr⟩
        exact ⟨c, p, p', h, h', hr⟩
      · rintro ⟨c, p, p', h, h', hr⟩
        exact ⟨c, p, h, c, p', h', rfl, hr⟩
    | enum =>
      simp only [Option.bind_eq_bind, Option.bind_eq_some_iff, Prod.exists,
        Option.ite_none_left_eq_some, Option.some.injEq, Prod.mk.injEq, ne_eq, Decidable.not_not]
      constructor
      · rintro ⟨b, p, h, b', p', h', r, hr, r', hr', rfl, rfl, rfl⟩
        exact ⟨b, p, p', h, h', hr, hr'⟩
      · rintro ⟨b, p, p', h, h', hr, hr'⟩
        exact ⟨b, p, h, b, p', h', qa, hr, qb, hr', rfl, rfl, rfl⟩
    | struct =>
      simp only [Option.bind_eq_bind, Option.bind_eq_some_iff, Prod.exists,
        Option.ite_none_left_eq_some, ne_eq, Decidable.not_not]
      constructor
      · rintro ⟨n, p, h, n', p', h', rfl, hr⟩
        exact ⟨n, p, p', h, h', hr⟩
      · rintro ⟨n, p, p', h, h', hr⟩
        exact ⟨n, p, h, n, p', h', rfl, hr⟩
    | varr => exact Iff.rfl
    | vstr => simp
    | map => simp
    | _ => exact hscalar

theorem bodyCmp_chains {ab bc ac : Nat → Nat → Option (Nat × Nat)} {wc : Bytes}
    (hc : Chains ab bc ac) (k : Nat) :
    Chains (bodyCmp ab wa wb k) (bodyCmp bc wb wc k) (bodyCmp ac wa wc k) := by
  intro pa pb pc qa qb qb' qc h h'
  rw [bodyCmp_iff] at h h' ⊢
  have hscalar : (sizeOfByte k ≠ 0 ∧ pa = qa ∧ pb = qb) → (sizeOfByte k ≠ 0 ∧ pb = qb' ∧ pc = qc) →
      qb = qb' ∧ sizeOfByte k ≠ 0 ∧ pa = qa ∧ pc = qc := by
    rintro ⟨hs, rfl, rfl⟩ ⟨-, rfl, rfl⟩
    exact ⟨rfl, hs, rfl, rfl⟩
  have hbare : (pa = qa ∧ pb = qb) → (pb = qb' ∧ pc = qc) → qb = qb' ∧ pa = qa ∧ pc = qc := by
    rintro ⟨rfl, rfl⟩ ⟨rfl, rfl⟩
    exact ⟨rfl, rfl, rfl⟩
  revert h h'
  unfold SameBody
  cases hk : Kind.ofByte k with
  | none => exact hscalar
  | some kind =>
    cases kind with
    | str =>
      rintro ⟨c, h₁, h₂⟩ ⟨c', g₁, g₂⟩
      obtain ⟨rfl, rfl⟩ : c = c' ∧ qb = qb' := by simpa using h₂.symm.trans g₁
      exact ⟨rfl, c, h₁, g₂⟩
    | arr =>
      rintro ⟨c, p, p', h₁, h₂, h⟩ ⟨c', u, u', g₁, g₂, h'⟩
      obtain ⟨rfl, rfl⟩ : c = c' ∧ p' = u := by simpa using h₂.symm.trans g₁
      obtain ⟨hq, hr⟩ := hc _ _ _ _ _ _ _ h h'
      exact ⟨hq, c, p, u', h₁, g₂, hr⟩
    | varr => exact hc _ _ _ _ _ _ _
    | vstr => exact hbare
    | map => exact hbare
    | enum =>
      rintro ⟨b, p, p', h₁, h₂, hr, hr'⟩ ⟨b', u, u', g₁, g₂, gr, gr'⟩
      obtain ⟨rfl, rfl⟩ : b = b' ∧ p' = u := by simpa using h₂.symm.trans g₁
      obtain rfl : qb = qb' := Option.some.inj (hr'.symm.trans gr)
      exact ⟨rfl, b, p, u', h₁, g₂, hr, gr'⟩
    | struct =>
      rintro ⟨n, p, p', h₁, h₂, h⟩ ⟨n', u, u', g₁, g₂, h'⟩
      obtain ⟨rfl, rfl⟩ : n = n' ∧ p' = u := by simpa using h₂.symm.trans g₁
      obtain ⟨hq, hr⟩ := membersCmp_chains hc n _ _ _ _ _ _ _ h h'
      exact ⟨hq, n, p, u', h₁, g₂, hr⟩
    | _ => exact hscalar

theorem typeCmp_chains {wa wb wc : Bytes} :
    ∀ room, Chains (typeCmp wa wb room) (typeCmp wb wc room) (typeCmp wa wc room)
  | 0 => by
    intro pa pb pc qa qb qb' qc h _
    exact absurd h.symm (Option.some_ne_none _)
  | room + 1 => by
    intro pa pb pc qa qb qb' qc h h'
    obtain ⟨na, nb, p₁, p₁', k, p₂, p₂', h₁, h₁', hname, h₂, h₂', h⟩ := typeCmp_succ.mp h
    obtain ⟨nb', nc, u₁, u₁', k', u₂, u₂', g₁, g₁', gname, g₂, g₂', h'⟩ := typeCmp_succ.mp h'
    obtain ⟨rfl, rfl⟩ : nb = nb' ∧ p₁' = u₁ := by simpa using h₁'.symm.trans g₁
    obtain ⟨rfl, rfl⟩ : k = k' ∧ p₂' = u₂ := by simpa using h₂'.symm.trans g₂
    obtain ⟨hq, hbody⟩ := bodyCmp_chains (typeCmp_chains room) k _ _ _ _ _ _ _ h h'
    refine ⟨hq, typeCmp_succ.mpr
      ⟨na, nc, p₁, u₁', k, p₂, u₂', h₁, g₁', fun hne => ?_, h₂, g₂', hbody⟩⟩
    -- a name the reader gives is the one in the middle, so the writer's too
    obtain rfl := hname hne
    exact gname hne

/-- The row `schemaFind` picks is a top level one, so the comparison of its schema covers it. -/
theorem subset_trans {a b c : Schema} (hab : subset a b = true) (hbc : subset b c = true) :
    subset a c = true := by
  have hfield : ∀ {i j k : Nat}, fieldCmp a i b j = true → fieldCmp b j c k = true →
      fieldCmp a i c k = true := by
    intro i j k h h'
    obtain ⟨⟨qa, qb⟩, hq⟩ := Option.isSome_iff_exists.mp h
    obtain ⟨⟨qb', qc⟩, hq'⟩ := Option.isSome_iff_exists.mp h'
    exact Option.isSome_iff_exists.mpr ⟨_, (typeCmp_chains _ _ _ _ _ _ _ _ hq hq').2⟩
  unfold subset at hab hbc ⊢
  by_cases hv : a.valueRoot = true ∨ b.valueRoot = true
  · rw [if_pos (by simpa using hv)] at hab
    simp only [Bool.and_eq_true, beq_iff_eq] at hab
    obtain ⟨⟨hroot, hname⟩, hcmp⟩ := hab
    have hb : b.valueRoot = true := by
      rcases hv with h | h
      · exact hroot ▸ h
      · exact h
    rw [if_pos (by simp [hb])] at hbc
    simp only [Bool.and_eq_true, beq_iff_eq] at hbc
    obtain ⟨⟨hroot', hname'⟩, hcmp'⟩ := hbc
    rw [if_pos (by simp [hroot, hb])]
    simp only [Bool.and_eq_true, beq_iff_eq]
    refine ⟨⟨hroot.trans hroot', ?_⟩, hfield hcmp hcmp'⟩
    simp only [Bool.or_eq_true, decide_eq_true_eq] at hname hname' ⊢
    rcases hname with h | h
    · exact Or.inl h
    · rw [h]
      exact hname'
  · rw [not_or] at hv
    rw [if_neg (by simpa using hv)] at hab
    split at hab
    next => cases hab
    next hab_name =>
      by_cases hc : c.valueRoot = true
      · rw [if_pos (by simp [hc])] at hbc
        simp [hc, hv.2] at hbc
      rw [if_neg (by simp [hv.2, hc])] at hbc
      rw [if_neg (by simp [hv.1, hc])]
      split at hbc
      next => cases hbc
      next hbc_name =>
        rw [ne_eq, Decidable.not_not] at hab_name hbc_name
        rw [if_neg (by simp [hab_name.trans hbc_name])]
        rw [List.all_eq_true] at hab hbc ⊢
        intro i hi
        have hij := hab i hi
        split
        next => rfl
        next hdepth =>
          rw [if_neg hdepth] at hij
          cases hfind : schemaFind b (a.row i).name with
          | none =>
            rw [hfind] at hij
            cases hij
          | some j =>
            rw [hfind] at hij
            obtain ⟨hj, hjd, hjn, -⟩ := schemaFind_some hfind
            have hjk := hbc j (List.mem_range.mpr hj)
            rw [if_neg (by simp [hjd]), hjn] at hjk
            cases hfind' : schemaFind c (a.row i).name with
            | none =>
              rw [hfind'] at hjk
              cases hjk
            | some k =>
              rw [hfind'] at hjk
              exact hfield hij hjk

/-! ## Reflexivity -/

theorem rdSkipEnum_at {w : Bytes} {b : Kind} {opts : List (Nat × Bytes)} {pos : Nat}
    (hlen : opts.length < 65536) (hok : ∀ o ∈ opts, o.2.length < 256)
    (hat : At w pos (writeLe 2 opts.length) ∧ At w (pos + 2) (opts.flatMap (encodeOption b.scalarSize))) :
    rdSkipEnum w b.code pos =
      some (pos + 2 + (opts.flatMap (encodeOption b.scalarSize)).length) := by
  have h₁ : rdU16 w pos = some (opts.length, pos + 2) := rdU16_iff.mpr ⟨rfl, hlen, hat.1⟩
  simp only [rdSkipEnum, Option.bind_eq_bind, h₁, Option.bind_some, sizeOfByte, Kind.ofByte_code]
  exact skipOptions_complete hok hat.2

/-- Two types of one wire and place compare as their bodies do. -/
theorem typeCmp_self {w : Bytes} {ty : Ty} {D : Nat} {named : Bool} {room pos : Nat}
    (hok : ty.Ok D named) (hat : At w pos ty.encode)
    (h : bodyCmp (typeCmp w w room) w w ty.core.kind.code (ty.corePos pos + 1)
      (ty.corePos pos + 1) = some q) : typeCmp w w (room + 1) pos pos = some q := by
  obtain ⟨p, hp, hk⟩ := typeTag_read (typeTag_core hok hat)
  exact typeCmp_succ.mpr ⟨_, _, p, p, _, _, _, hp, hp, fun _ => rfl, hk, hk, h⟩

mutual
/-- A type of the grammar compares equal to itself, with the levels left that it can take. -/
theorem Ty.body_self {w : Bytes} : ∀ (ty : Ty) (D : Nat) (named : Bool) (room pos : Nat),
    ty.Ok D named → At w pos ty.encode → maxDepth ≤ room + D →
    bodyCmp (typeCmp w w room) w w ty.core.kind.code (ty.corePos pos + 1) (ty.corePos pos + 1) =
      some (pos + ty.encode.length, pos + ty.encode.length)
  | .named n t, D, _, room, pos, hok, hat, hroom => by
    rw [at_named] at hat
    have h := Ty.body_self t D true room _ hok.2.2.2 hat.2.2.2 hroom
    rw [length_named]
    rw [show pos + (1 + (1 + (n.length + t.encode.length))) =
      pos + 1 + 1 + n.length + t.encode.length by omega]
    exact h
  | .scalar k, _, _, _, _, hok, _, _ => by
    rw [bodyCmp_iff]
    unfold SameBody
    rw [show (Ty.scalar k).core.kind = k from rfl, Kind.ofByte_code]
    cases k <;> first
      | exact ⟨by decide, rfl, rfl⟩
      | exact absurd hok (Nat.lt_irrefl 0)
  | .str cap, _, _, _, pos, hok, hat, _ => by
    rw [at_str] at hat
    rw [bodyCmp_iff]
    exact ⟨cap, rdU16_iff.mpr ⟨by simp [Ty.encode, Ty.corePos], hok, hat.2⟩,
      rdU16_iff.mpr ⟨by simp [Ty.encode, Ty.corePos], hok, hat.2⟩⟩
  | .vstr, _, _, _, _, _, _, _ => bodyCmp_iff.mpr ⟨rfl, rfl⟩
  | .map, _, _, _, _, _, _, _ => bodyCmp_iff.mpr ⟨rfl, rfl⟩
  | .enum b opts, _, _, _, pos, hok, hat, _ => by
    obtain ⟨-, hb, hlen, hopts⟩ := hok
    rw [at_enum] at hat
    have h₁ : rdU8 w (pos + 1) = some (b.code, pos + 1 + 1) := rdU8_iff.mpr ⟨rfl, b.code_lt, hat.2.1⟩
    have h₂ := rdSkipEnum_at hlen (fun o ho => (hopts o ho).2) hat.2.2
    rw [show pos + 1 + 1 + 2 + (opts.flatMap (encodeOption b.scalarSize)).length =
      pos + (Ty.enum b opts).encode.length by
        rw [length_enum]
        omega] at h₂
    exact bodyCmp_iff.mpr ⟨b.code, _, _, h₁, h₁, h₂, h₂⟩
  | .arr count e, D, _, room, pos, hok, hat, hroom => by
    obtain ⟨hD, hcount, he, -⟩ := hok
    rw [at_arr] at hat
    cases room with
    | zero => omega
    | succ room =>
      have h := typeCmp_self he hat.2.2 (Ty.body_self e (D + 1) false room _ he hat.2.2 (by omega))
      have h₁ : rdU16 w (pos + 1) = some (count, pos + 1 + 2) := rdU16_iff.mpr ⟨rfl, hcount, hat.2.1⟩
      rw [show pos + 1 + 2 + e.encode.length = pos + (Ty.arr count e).encode.length by
        rw [length_arr]
        omega] at h
      exact bodyCmp_iff.mpr ⟨count, _, _, h₁, h₁, h⟩
  | .varr e, D, _, room, pos, hok, hat, hroom => by
    obtain ⟨hD, he, -⟩ := hok
    rw [at_varr] at hat
    cases room with
    | zero => omega
    | succ room =>
      have h := typeCmp_self he hat.2 (Ty.body_self e (D + 1) false room _ he hat.2 (by omega))
      rw [show pos + 1 + e.encode.length = pos + (Ty.varr e).encode.length by
        rw [length_varr]
        omega] at h
      exact bodyCmp_iff.mpr h
  | .struct ms, D, _, room, pos, hok, hat, hroom => by
    obtain ⟨-, hD, hlen, hms, -⟩ := hok
    rw [at_struct] at hat
    cases room with
    | zero => omega
    | succ room =>
      have h := Members.cmp_self ms (D + 1) room _ hms hat.2.2 (by omega)
      have h₁ : rdU8 w (pos + 1) = some (ms.length, pos + 1 + 1) := rdU8_iff.mpr ⟨rfl, hlen, hat.2.1⟩
      rw [show pos + 1 + 1 + ms.encode.length = pos + (Ty.struct ms).encode.length by
        rw [length_struct]
        omega] at h
      exact bodyCmp_iff.mpr ⟨ms.length, _, _, h₁, h₁, h⟩
theorem Members.cmp_self {w : Bytes} : ∀ (ms : Members) (D room pos : Nat),
    ms.Ok D → At w pos ms.encode → maxDepth ≤ room + D →
    membersCmp (typeCmp w w (room + 1)) w w ms.length pos pos =
      some (pos + ms.encode.length, pos + ms.encode.length)
  | .nil, _, _, _, _, _, _ => rfl
  | .cons n t rest, D, room, pos, hok, hat, hroom => by
    obtain ⟨hn, ht, hrest⟩ := hok
    rw [at_cons] at hat
    obtain ⟨hl, hname, hty, hmore⟩ := hat
    have h₁ : rdU8 w pos = some (n.length, pos + 1) := rdU8_iff.mpr ⟨rfl, hn, hl⟩
    have h₂ : rdSkip w (pos + 1) n.length = some (pos + 1 + n.length) :=
      rdSkip_iff.mpr ⟨rfl, hname.le⟩
    have hcmp := typeCmp_self ht hty (Ty.body_self t D false room _ ht hty hroom)
    have ih := Members.cmp_self rest D room _ hrest hmore hroom
    rw [show pos + 1 + n.length + t.encode.length + rest.encode.length =
      pos + (Members.cons n t rest).encode.length by
        rw [length_cons]
        omega] at ih
    exact membersCmp_succ.mpr ⟨_, _, _, _, _, _, _, h₁, h₁, rfl, h₂, h₂, hcmp, ih⟩
end

/-- A row's type compares equal to itself. -/
theorem fieldCmp_self {s : Schema} {i : Nat} (h : RowTyped s.wire (s.row i)) :
    fieldCmp s i s i = true := by
  obtain ⟨ty, D, named, hok, hat⟩ := h
  have hcmp := typeCmp_self hok hat (Ty.body_self ty D named (maxDepth + 1) _ hok hat (by omega))
  exact Option.isSome_iff_exists.mpr ⟨_, hcmp⟩

/-- No two top level fields share a name. -/
def Schema.DistinctNames (s : Schema) : Prop :=
  ∀ i, i < s.nfields → ∀ j, j < s.nfields → (s.row i).depth = 0 → (s.row j).depth = 0 →
    (s.row i).name = (s.row j).name → i = j

instance (s : Schema) : Decidable s.DistinctNames :=
  inferInstanceAs (Decidable (∀ i, i < s.nfields → ∀ j, j < s.nfields → _))

theorem schemaFind_self {s : Schema} (hd : s.DistinctNames) {i : Nat} (hi : i < s.nfields)
    (hdepth : (s.row i).depth = 0) : schemaFind s (s.row i).name = some i := by
  cases hfind : schemaFind s (s.row i).name with
  | none =>
    have := List.find?_eq_none.mp hfind i (List.mem_range.mpr hi)
    simp [hdepth] at this
  | some j =>
    obtain ⟨hj, hjd, hjn, -⟩ := schemaFind_some hfind
    rw [hd i hi j hj hdepth hjd hjn.symm]

theorem subset_refl {w : Bytes} {s : Schema} (h : compile w = some s) (hd : s.DistinctNames) :
    subset s s = true := by
  obtain ⟨sc, -, hp⟩ := compile_parsed h
  have hself : ∀ {i : Nat}, i < s.nfields → fieldCmp s i s i = true := by
    intro i hi
    apply fieldCmp_self
    rw [hp.wire]
    exact hp.typed i hi
  unfold subset
  by_cases hv : s.valueRoot = true
  · rw [if_pos (by simp [hv])]
    have hrows : 0 < s.nfields := by
      have hnf : s.nfields = sc.rows := hp.nfields
      have hroot : sc.ty.kind ≠ .struct := by simpa [hp.valueRoot] using hv
      rw [hnf, SchemaTy.rows, if_neg hroot]
      omega
    simp [hself hrows]
  · rw [if_neg (by simp [hv]), if_neg (by simp), List.all_eq_true]
    intro i hi
    have hi := List.mem_range.mp hi
    split
    next => rfl
    next hdepth =>
      rw [schemaFind_self hd hi (by simpa using hdepth)]
      exact hself hi

/-! ## The preorder -/

/-- A compiled schema whose top level names are distinct. Below the top a record is compared
as one exact unit, so names there may repeat. -/
structure NamedSchema where
  wire : Bytes
  schema : Schema
  compiled : compile wire = some schema
  distinct : schema.DistinctNames

instance : Preorder NamedSchema where
  le a b := subset a.schema b.schema = true
  le_refl a := subset_refl a.compiled a.distinct
  le_trans _ _ _ := subset_trans

/-- The subset rule is reflexive and transitive. -/
theorem subset_preorder (a b c : NamedSchema) : subset a.schema a.schema = true ∧
    (subset a.schema b.schema = true → subset b.schema c.schema = true →
      subset a.schema c.schema = true) :=
  ⟨subset_refl a.compiled a.distinct, subset_trans⟩

/-- The schema of `pairWire`, its fields in the other order. -/
def flipSchema : Schema :=
  { wire := [8, 1, 65, 12, 2, 1, 118, 15, 0, 1, 120, 0], name := [65], size := 1, msgMin := 5
    nVar := 1, valueRoot := false
    fields :=
      [{ name := [118], typeOff := 7, typeLen := 2, next := 2, kind := .varr, var := true },
       { size := 1, typeOff := 8, typeLen := 1, depth := 1, parent := some 0, next := 2
         arrParent := some 0, arrDepth := 1 },
       { name := [120], size := 1, typeOff := 11, typeLen := 1, next := 3 }] }

/-- A reader of `v` alone under a writer of `x` and `v` under one of `v` and `x`. -/
theorem subset_preorder_tail :
    subset tailSchema tailSchema = true ∧ subset tailSchema flipSchema = true := by
  obtain ⟨hrefl, htrans⟩ := subset_preorder
    ⟨tailWire, tailSchema, by decide +kernel, by decide +kernel⟩
    ⟨pairWire, pairSchema, by decide +kernel, by decide +kernel⟩
    ⟨flipSchema.wire, flipSchema, by decide +kernel, by decide +kernel⟩
  exact ⟨hrefl, htrans (by decide +kernel) (by decide +kernel)⟩

end Rant.Serialize
