import Rant.Serialize.Canonical
/-!
# When the flattening walk goes through

`emitType` over the encoding of a tree. It makes none of the measuring walk's checks in the
same place: it runs out where the table does, and it refuses a struct by the depth of its
own row. Below a struct root that is the depth it was measured at; below a bare or alias
root it is one more, so a struct on the deepest level the measuring walk takes is refused.
-/

namespace Rant.Serialize

open Rant.Lib

mutual
/-- The level of the deepest struct, the type itself the first, 0 without one. -/
def Ty.structDepth : Ty → Nat
  | .scalar _ | .str _ | .vstr | .map | .enum _ _ => 0
  | .arr _ e | .varr e => if e.structDepth = 0 then 0 else e.structDepth + 1
  | .struct ms => ms.structDepth + 1
  | .named _ t => t.structDepth
def Members.structDepth : Members → Nat
  | .nil => 0
  | .cons _ t rest => max t.structDepth rest.structDepth
end

/-- A type whose row is at `depth` has no struct whose members would lie past the limit. -/
def Emittable (structDepth depth : Nat) : Prop := structDepth = 0 ∨ depth + structDepth < maxDepth

theorem emittable_max {a b depth : Nat} :
    Emittable (max a b) depth ↔ Emittable a depth ∧ Emittable b depth := by
  unfold Emittable
  omega

theorem emittable_elem {a depth : Nat} :
    Emittable (if a = 0 then 0 else a + 1) depth ↔ Emittable a (depth + 1) := by
  unfold Emittable
  split <;> omega

theorem emittable_struct {a depth : Nat} :
    Emittable (a + 1) depth ↔ depth + 1 < maxDepth ∧ Emittable a (depth + 1) := by
  unfold Emittable
  omega

/-- What the walk leaves of a type whose row is `idx`. -/
structure Emits (tbl : Table) (idx pos : Nat) (ty : Ty) (e : Emitted) : Prop where
  length : e.tbl.length = tbl.length + ty.rows
  pos : e.pos = pos + ty.encode.length
  size : e.size = ty.measure.size
  var : (rowOf e.tbl idx).var = ty.measure.var

/-- Whether the walk goes through: no struct too deep, and room for every row. -/
def Goes (ty : Ty) (depth total : Nat) (tbl : Table) : Prop :=
  Emittable ty.structDepth depth ∧ tbl.length + ty.rows ≤ total

/-- A walk that goes through the trees shorter than `k` exactly where `Goes` says. -/
def EmitsTrees (w : Bytes) (total : Nat)
    (emit : Table → Nat → Nat → Nat → Nat → Option Emitted) (k : Nat) : Prop :=
  ∀ (ty : Ty) (D : Nat) (named : Bool) (tbl : Table) (pos idx depth base : Nat),
    ty.encode.length < k → ty.Ok D named → At w pos ty.encode → idx < tbl.length →
    tbl.length ≤ total →
    (Goes ty depth total tbl → ∃ e, emit tbl pos idx depth base = some e ∧ Emits tbl idx pos ty e) ∧
    (¬ Goes ty depth total tbl → emit tbl pos idx depth base = none)

/-- What the loop over a struct's members leaves. -/
structure EmitsMembers (tbl : Table) (pos running : Nat) (var : Bool) (ms : Members)
    (e : Emitted) (v : Bool) : Prop where
  length : e.tbl.length = tbl.length + ms.rows
  pos : e.pos = pos + ms.encode.length
  size : e.size = running + ms.measure.size
  var : v = (var || ms.measure.var)

/-- Members emit one after the other. -/
theorem emitMembers_tree {w : Bytes} {total k : Nat}
    {emit : Table → Nat → Nat → Nat → Nat → Option Emitted} (hemit : EmitsTrees w total emit k)
    {depth D : Nat} {parent : Option Nat} : ∀ (ms : Members) (tbl : Table) (pos running : Nat)
      (var : Bool), ms.encode.length < k → ms.Ok D → At w pos ms.encode → tbl.length ≤ total →
      (Emittable ms.structDepth depth ∧ tbl.length + ms.rows ≤ total →
        ∃ e v, emitMembers emit w total depth parent ms.length tbl pos running var = some (e, v) ∧
          EmitsMembers tbl pos running var ms e v) ∧
      (¬ (Emittable ms.structDepth depth ∧ tbl.length + ms.rows ≤ total) →
        emitMembers emit w total depth parent ms.length tbl pos running var = none)
  | .nil, tbl, pos, running, var, _, _, _, hle => by
    constructor
    · intro _
      exact ⟨_, _, rfl, ⟨by simp [Members.rows], by simp [Members.encode],
        by simp [Members.measure], by simp [Members.measure]⟩⟩
    · intro h
      exact absurd ⟨Or.inl rfl, hle⟩ h
  | .cons n t rest, tbl, pos, running, var, hk, hok, hat, hle => by
    obtain ⟨hn, ht, hrest⟩ := hok
    rw [Members.encode] at hat hk
    simp only [List.length_append, length_writeLe] at hk
    rw [at_append, at_append, at_append, length_writeLe] at hat
    obtain ⟨hnl, hname, hatt, hatr⟩ := hat
    have h₁ : rdU8 w pos = some (n.length, pos + 1) := rdU8_iff.mpr ⟨rfl, hn, hnl⟩
    have h₂ : rdSkip w (pos + 1) n.length = some (pos + 1 + n.length) :=
      rdSkip_iff.mpr ⟨rfl, hname.le⟩
    simp only [Members.length, emitMembers, Option.bind_eq_bind, h₁, h₂, Option.bind_some,
      nameAt_eq hname, Members.structDepth, emittable_max, Members.rows]
    by_cases hfull : total ≤ tbl.length
    · rw [if_pos hfull]
      refine ⟨fun h => absurd h.2 (by omega), fun _ => rfl⟩
    rw [if_neg hfull]
    have hlen : (tbl ++ [fieldInit n depth parent running]).length = tbl.length + 1 := by simp
    obtain ⟨hgo, hstop⟩ := hemit t D false (tbl ++ [fieldInit n depth parent running])
      (pos + 1 + n.length) tbl.length depth running (by omega) ht hatt (by omega) (by omega)
    unfold Goes at hgo hstop
    rw [hlen] at hgo hstop
    by_cases hg : Emittable t.structDepth depth ∧ tbl.length + 1 + t.rows ≤ total
    · obtain ⟨e, he, hlen', hpos, hsize, hvar⟩ := hgo hg
      rw [hlen] at hlen'
      rw [he, Option.bind_some]
      have hatr' : At w e.pos rest.encode := by
        rw [hpos]
        exact hatr
      obtain ⟨hgo', hstop'⟩ := emitMembers_tree hemit rest e.tbl e.pos (running + e.size)
        (var || (rowOf e.tbl tbl.length).var) (by omega) hrest hatr' (by omega)
      rw [hlen'] at hgo' hstop'
      constructor
      · intro h
        obtain ⟨e', v, he', hlen'', hpos', hsize', hvar'⟩ := hgo' ⟨h.1.2, by omega⟩
        refine ⟨e', v, he', ⟨?_, ?_, ?_, ?_⟩⟩
        · rw [hlen'', hlen', Members.rows]
          omega
        · rw [hpos', hpos, length_cons]
          omega
        · rw [hsize', hsize, Nat.add_assoc]
          rfl
        · rw [hvar', hvar, Members.measure, Bool.or_assoc]
      · intro h
        apply hstop'
        intro hrest'
        exact h ⟨⟨hg.1, hrest'.1⟩, by omega⟩
    · rw [hstop hg, Option.bind_none]
      refine ⟨fun h => absurd ⟨h.1.1, by omega⟩ hg, fun _ => rfl⟩

/-! ## One type -/

theorem fillRow_var {tbl : Table} {idx : Nat} (hidx : idx < tbl.length) (kpos pos : Nat)
    (tn : Bytes) (kind : Kind) (size : Nat) (var : Bool) (count strCap : Nat) (backing : Kind) :
    (rowOf (fillRow tbl idx kpos pos tn kind size var count strCap backing) idx).var = var := by
  unfold fillRow
  rw [rowOf_set_self hidx]

/-- What the switch leaves of a leaf. -/
theorem emits_leaf {tbl : Table} {idx kpos pos : Nat} {tn : Bytes} {kind : Kind} {size : Nat}
    {var : Bool} {count strCap : Nat} {backing : Kind} {ty : Ty} (hidx : idx < tbl.length)
    (hrows : ty.rows = 0) (hsize : ty.measure.size = size) (hvar : ty.measure.var = var)
    {start : Nat} (hpos : pos = start + ty.encode.length) :
    Emits tbl idx start ty
      ⟨fillRow tbl idx kpos pos tn kind size var count strCap backing, pos, size⟩ :=
  ⟨by simp [hrows], hpos, hsize.symm, by rw [fillRow_var hidx, hvar]⟩

/-- The switch on an array's element: its row is appended and its type emitted, and `K` is what
the array makes of that. -/
theorem emitElem_tree {w : Bytes} {total k : Nat}
    {emit : Table → Nat → Nat → Nat → Nat → Option Emitted} (hemit : EmitsTrees w total emit k)
    {e : Ty} {D : Nat} {tbl : Table} {pos idx depth : Nat} (hk : e.encode.length < k)
    (hok : e.Ok D false) (hat : At w pos e.encode) {K : Emitted → Option Emitted}
    {P : Emitted → Prop} (hK : ∀ em, em.tbl.length = tbl.length + 1 + e.rows →
      em.pos = pos + e.encode.length → em.size = e.measure.size →
      (rowOf em.tbl tbl.length).var = e.measure.var → ∃ r, K em = some r ∧ P r) :
    (Emittable e.structDepth (depth + 1) ∧ tbl.length + (e.rows + 1) ≤ total →
      ∃ r, (if total ≤ tbl.length then none
        else (emit (tbl ++ [fieldInit [] (depth + 1) (some idx) 0]) pos tbl.length (depth + 1) 0).bind K) =
          some r ∧ P r) ∧
    (¬ (Emittable e.structDepth (depth + 1) ∧ tbl.length + (e.rows + 1) ≤ total) →
      (if total ≤ tbl.length then none
        else (emit (tbl ++ [fieldInit [] (depth + 1) (some idx) 0]) pos tbl.length (depth + 1) 0).bind K) =
          none) := by
  by_cases hfull : total ≤ tbl.length
  · rw [if_pos hfull]
    exact ⟨fun h => absurd h.2 (by omega), fun _ => rfl⟩
  rw [if_neg hfull]
  have hlen : (tbl ++ [fieldInit [] (depth + 1) (some idx) 0]).length = tbl.length + 1 := by simp
  obtain ⟨hgo, hstop⟩ := hemit e D false (tbl ++ [fieldInit [] (depth + 1) (some idx) 0]) pos
    tbl.length (depth + 1) 0 hk hok hat (by omega) (by omega)
  unfold Goes at hgo hstop
  rw [hlen] at hgo hstop
  refine ⟨fun h => ?_, fun h => ?_⟩
  · obtain ⟨em, hem, hlen', hpos, hsize, hvar⟩ := hgo ⟨h.1, by omega⟩
    rw [hem, Option.bind_some]
    exact hK em (by rw [hlen', hlen]) hpos hsize hvar
  · rw [hstop fun hg => h ⟨hg.1, by omega⟩, Option.bind_none]

/-- A type behind its names: the switch's answer, `tn` its name and `kpos` where the names
start. -/
theorem emitBody_tree {w : Bytes} {total k : Nat}
    {emit : Table → Nat → Nat → Nat → Nat → Option Emitted} (hemit : EmitsTrees w total emit k)
    {ty : Ty} {D : Nat} {named : Bool} {tbl : Table} {kpos pos idx depth base : Nat} {tn : Bytes}
    (hk : ty.encode.length ≤ k) (hok : ty.Ok D named) (hin : ty.kind ≠ .named)
    (hat : At w pos ty.encode) (hidx : idx < tbl.length) (hle : tbl.length ≤ total) :
    (Goes ty depth total tbl →
      ∃ e, emitBody emit w total tbl kpos idx depth base tn ty.kind.code (pos + 1) = some e ∧
        Emits tbl idx pos ty e) ∧
    (¬ Goes ty depth total tbl →
      emitBody emit w total tbl kpos idx depth base tn ty.kind.code (pos + 1) = none) := by
  -- a leaf emits one row whatever the depth and the rows left
  have hleaf : ty.structDepth = 0 → ty.rows = 0 → Goes ty depth total tbl := by
    intro hd hr
    exact ⟨Or.inl hd, by omega⟩
  cases ty with
  | scalar kind =>
    refine ⟨fun _ => ?_, fun h => absurd (hleaf rfl rfl) h⟩
    have hpos : pos + 1 = pos + (Ty.scalar kind).encode.length := by simp [Ty.encode]
    cases kind <;> first
      | exact ⟨_, rfl, emits_leaf hidx rfl rfl rfl hpos⟩
      | exact absurd hok (Nat.lt_irrefl 0)
  | vstr =>
    refine ⟨fun _ => ⟨_, rfl, emits_leaf hidx rfl rfl rfl ?_⟩, fun h => absurd (hleaf rfl rfl) h⟩
    simp [Ty.encode]
  | map =>
    refine ⟨fun _ => ⟨_, rfl, emits_leaf hidx rfl rfl rfl ?_⟩, fun h => absurd (hleaf rfl rfl) h⟩
    simp [Ty.encode]
  | str cap =>
    refine ⟨fun _ => ?_, fun h => absurd (hleaf rfl rfl) h⟩
    rw [at_str] at hat
    have h := rdU16_iff.mpr ⟨rfl, hok, hat.2⟩
    refine ⟨⟨fillRow tbl idx kpos (pos + 1 + 2) tn .str (2 + cap) false 0 cap .u8, pos + 1 + 2,
      2 + cap⟩, ?_, emits_leaf hidx rfl rfl rfl ?_⟩
    · simp only [emitBody, Ty.kind, Kind.ofByte_code, h, Option.bind_eq_bind, Option.bind_some]
    · simp [Ty.encode]
  | enum b opts =>
    refine ⟨fun _ => ?_, fun h => absurd (hleaf rfl rfl) h⟩
    obtain ⟨hnamed, hint, hn, hopts⟩ := hok
    rw [at_enum] at hat
    obtain ⟨-, hb, hc, ho⟩ := hat
    have h₁ := rdU8_iff.mpr ⟨rfl, b.code_lt, hb⟩
    have h₂ := rdU16_iff.mpr ⟨rfl, hn, hc⟩
    have h₃ := skipOptions_complete (fun o ho => (hopts o ho).2) ho
    have hint' : ¬ b.backingOk = false := by simp [hint]
    refine ⟨⟨fillRow tbl idx kpos (pos + 1 + 1 + 2 +
      (opts.flatMap (encodeOption b.scalarSize)).length) tn .enum b.scalarSize false opts.length 0 b,
      pos + 1 + 1 + 2 + (opts.flatMap (encodeOption b.scalarSize)).length, b.scalarSize⟩, ?_,
      emits_leaf hidx rfl rfl rfl ?_⟩
    · simp only [emitBody, Ty.kind, Kind.ofByte_code, h₁, h₂, h₃, if_neg hint',
        Option.bind_eq_bind, Option.bind_some]
    · rw [length_enum]
      omega
  | arr count e =>
    obtain ⟨hdepth, hcount, he, hfill, hsize, hframes⟩ := hok
    rw [length_arr] at hk
    rw [at_arr] at hat
    obtain ⟨-, hc, hate⟩ := hat
    have h₁ := rdU16_iff.mpr ⟨rfl, hcount, hc⟩
    simp only [Goes, Ty.structDepth, emittable_elem, Ty.rows]
    simp only [emitBody, Ty.kind, Kind.ofByte_code, h₁, Option.bind_eq_bind, Option.bind_some]
    refine emitElem_tree hemit (by omega) he hate fun em hlen hpos hesize hvar => ?_
    have hempty : ¬ ((rowOf em.tbl tbl.length).var = false ∧ em.size = 0) := by
      rw [hvar, hesize]
      exact hfill
    have hbig : ¬ ((rowOf em.tbl tbl.length).var = false ∧ u32Max < count * em.size) := by
      rw [hvar, hesize]
      rintro ⟨hv, hlt⟩
      simp only [Ty.measure, hv, Bool.false_eq_true, if_false] at hsize
      omega
    rw [if_neg hempty, if_neg hbig]
    refine ⟨_, rfl, ⟨?_, ?_, ?_, ?_⟩⟩
    · rw [length_fillRow, hlen, Ty.rows]
      omega
    · rw [hpos, length_arr]
      omega
    · rw [hvar, hesize, Ty.measure]
      cases e.measure.var <;> rfl
    · rw [fillRow_var (by omega), hvar, Ty.measure]
      cases e.measure.var <;> rfl
  | varr e =>
    obtain ⟨hdepth, he, hfill, hframes⟩ := hok
    rw [length_varr] at hk
    rw [at_varr] at hat
    simp only [Goes, Ty.structDepth, emittable_elem, Ty.rows]
    simp only [emitBody, Ty.kind, Kind.ofByte_code, Option.bind_eq_bind]
    refine emitElem_tree hemit (by omega) he hat.2 fun em hlen hpos hesize hvar => ?_
    have hempty : ¬ ((rowOf em.tbl tbl.length).var = false ∧ em.size = 0) := by
      rw [hvar, hesize]
      exact hfill
    rw [if_neg hempty]
    refine ⟨_, rfl, ⟨?_, ?_, rfl, ?_⟩⟩
    · rw [length_fillRow, hlen, Ty.rows]
      omega
    · rw [hpos, length_varr]
      omega
    · rw [fillRow_var (by omega), Ty.measure]
  | struct ms =>
    obtain ⟨hnamed, hdepth, hlen, hms, hbody⟩ := hok
    rw [length_struct] at hk
    rw [at_struct] at hat
    obtain ⟨-, hn, hatm⟩ := hat
    have h₁ := rdU8_iff.mpr ⟨rfl, hlen, hn⟩
    simp only [Goes, Ty.structDepth, emittable_struct, Ty.rows]
    simp only [emitBody, Ty.kind, Kind.ofByte_code, emitStruct, h₁, Option.bind_eq_bind,
      Option.bind_some]
    -- the source's bound on the depth is met before any member is
    by_cases hd : maxDepth ≤ depth + 1
    · rw [if_pos hd, Option.bind_none]
      refine ⟨fun h => absurd h.1.1 (by omega), fun _ => rfl⟩
    rw [if_neg hd]
    obtain ⟨hgo, hstop⟩ := @emitMembers_tree w total k emit hemit (depth + 1) (D + 1) (some idx)
      ms tbl (pos + 1 + 1) base false (by omega) hms hatm hle
    by_cases hg : Emittable ms.structDepth (depth + 1) ∧ tbl.length + ms.rows ≤ total
    · obtain ⟨em, v, hem, hlen', hpos, hesize, hvar⟩ := hgo hg
      rw [hem, Option.bind_some, Option.bind_some]
      refine ⟨fun _ => ?_, fun h => absurd ⟨⟨by omega, hg.1⟩, hg.2⟩ h⟩
      refine ⟨_, rfl, ⟨?_, ?_, ?_, ?_⟩⟩
      · rw [length_fillRow, hlen', Ty.rows]
      · rw [hpos, length_struct]
        omega
      · rw [hesize, Nat.add_sub_cancel_left, Ty.measure]
      · rw [fillRow_var (by rw [hlen']; omega), hvar, Ty.measure, Bool.false_or]
    · rw [hstop hg, Option.bind_none, Option.bind_none]
      refine ⟨fun h => absurd ⟨h.1.2, h.2⟩ hg, fun _ => rfl⟩
  | named n t => exact absurd rfl hin

/-- The name tag of a tree: what the switch runs on. -/
theorem typeTag_tree {w : Bytes} {ty : Ty} {pos : Nat}
    (hat : At w pos ty.encode) (hin : ty.kind ≠ .named) :
    typeTag w pos = some ([], ty.kind.code, pos + 1) := by
  have hne : ty.kind.code ≠ 18 := fun hc => hin ((kind_code_named _).mp hc)
  simp [typeTag, rdU8_kind hat, hne]

theorem typeTag_named {w : Bytes} {n : Bytes} {t : Ty} {D : Nat} {named : Bool} {pos : Nat}
    (hok : (Ty.named n t).Ok D named) (hat : At w pos (Ty.named n t).encode) :
    typeTag w pos = some (n, t.kind.code, pos + 1 + 1 + n.length + 1) := by
  obtain ⟨hpos, hlen, hin, ht⟩ := hok
  have hk := rdU8_kind hat
  rw [Ty.encode, at_append, at_append, at_append] at hat
  simp only [length_writeLe] at hat
  obtain ⟨-, hnl, hname, hatt⟩ := hat
  have h₁ : rdU8 w (pos + 1) = some (n.length, pos + 1 + 1) := rdU8_iff.mpr ⟨rfl, hlen, hnl⟩
  have h₂ : rdSkip w (pos + 1 + 1) n.length = some (pos + 1 + 1 + n.length) :=
    rdSkip_iff.mpr ⟨rfl, hname.le⟩
  have h18 : ¬ ((Ty.named n t).kind.code ≠ 18) := by simp [Ty.kind, Kind.code]
  have hne : ¬ t.kind.code = 18 := fun hc => hin ((kind_code_named _).mp hc)
  have hl : ¬ n.length = 0 := by omega
  simp only [typeTag, Option.bind_eq_bind, hk, Option.bind_some, if_neg h18, h₁, h₂, if_neg hl,
    rdU8_kind hatt, if_neg hne, nameAt_eq hname]

/-- The flattening walk goes through a tree exactly where `Goes` says. -/
theorem emitType_tree (w : Bytes) (total : Nat) : ∀ n, EmitsTrees w total (emitType w total n) n
  | 0 => fun _ _ _ _ _ _ _ _ h _ _ _ _ => absurd h (Nat.not_lt_zero _)
  | n + 1 => by
    intro ty D named tbl pos idx depth base hk hok hat hidx hle
    have ih := emitType_tree w total n
    rw [emitType]
    by_cases hin : ty.kind = .named
    · cases ty with
      | named m t =>
        rw [typeTag_named hok hat]
        obtain ⟨hpos, hlen, hin', ht⟩ := hok
        rw [length_named] at hk
        rw [at_named] at hat
        obtain ⟨-, hnl, hname, hatt⟩ := hat
        obtain ⟨hgo, hstop⟩ := @emitBody_tree w total n _ ih t D true tbl pos
          (pos + 1 + 1 + m.length) idx depth base m (by omega) ht hin' hatt hidx hle
        refine ⟨fun h => ?_, fun h => hstop h⟩
        obtain ⟨e, he, hl, hp, hs, hv⟩ := hgo h
        refine ⟨e, he, hl, ?_, hs, hv⟩
        rw [hp, length_named]
        omega
      | scalar k =>
        obtain rfl : k = .named := hin
        exact absurd hok (Nat.lt_irrefl 0)
      | _ => exact absurd hin (by intro hc; cases hc)
    · rw [typeTag_tree hat hin]
      exact emitBody_tree ih (Nat.lt_succ_iff.mp hk) hok hin hat hidx hle

end Rant.Serialize
