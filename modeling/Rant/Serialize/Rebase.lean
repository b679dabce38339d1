import Rant.Serialize.Mirror
/-!
# The rebased view

The subset rule finds a mirror for every top level field of the reader's, so `rebase`
passes every check it makes, and the table it ends with is the reader's own, each field at
its mirror's places (`rebase_view`).
-/

namespace Rant.Serialize

theorem schemaFind_some {s : Schema} {name : Bytes} {j : Nat} (h : schemaFind s name = some j) :
    j < s.nfields ∧ (s.row j).depth = 0 ∧ (s.row j).name = name ∧
      ∀ k, k < j → (s.row k).depth = 0 → (s.row k).name ≠ name := by
  unfold schemaFind at h
  obtain ⟨hp, as, bs, hsplit, hbefore⟩ := List.find?_eq_some_iff_append.mp h
  have hmem := List.mem_of_find?_eq_some h
  rw [List.mem_range] at hmem
  have hp' : (s.row j).depth = 0 ∧ (s.row j).name = name := by simpa using hp
  refine ⟨hmem, hp'.1, hp'.2, fun k hk hd hn => ?_⟩
  -- the rows before `j` in the range are the ones below it
  have hlen : as.length = j := by
    have hget := congrArg (fun l => l[as.length]?) hsplit
    simp only [List.getElem?_append_right (Nat.le_refl _), Nat.sub_self,
      List.getElem?_cons_zero] at hget
    obtain ⟨hlt, heq⟩ := List.getElem?_eq_some_iff.mp hget
    rw [List.getElem_range] at heq
    exact heq
  have hkas : k ∈ as := by
    have hget : (List.range s.nfields)[k]? = some k := List.getElem?_range (by omega)
    rw [hsplit, List.getElem?_append_left (by omega)] at hget
    exact List.mem_of_getElem? hget
  have := hbefore k hkas
  simp [hd, hn] at this

section
variable {s : Schema} {t₀ : Table}

namespace Built

variable (hb : Built s t₀)
include hb

/-- Past a top level field comes the next one. -/
theorem top_next {i : Nat} (hi : i < s.nfields) (htop : (s.row i).parent = none)
    (hn : (s.row i).next < s.nfields) : (s.row (s.row i).next).parent = none := by
  cases hp : (s.row (s.row i).next).parent with
  | none => rfl
  | some q =>
    obtain ⟨hlt, hnext, -, -⟩ := hb.parent_spec hn hp
    by_cases hqi : q < i
    · have := hb.top_outside hi htop hqi
      have := hb.lt_next hi
      omega
    · have := hb.next_nested hi (j := q) (by omega) hlt
      omega

/-- Every row lies in a top level field. -/
theorem top_of {f : Nat} (hf : f < s.nfields) :
    ∃ i, i ≤ f ∧ f < (s.row i).next ∧ (s.row i).parent = none := by
  induction f using Nat.strongRecOn with
  | _ f ih =>
    cases hp : (s.row f).parent with
    | none => exact ⟨f, Nat.le_refl f, hb.lt_next hf, hp⟩
    | some q =>
      obtain ⟨hlt, hnext, -, -⟩ := hb.parent_spec hf hp
      obtain ⟨i, hiq, hqn, htop⟩ := ih q hlt (by omega)
      have := hb.next_nested (b := i) (by omega) hiq hqn
      exact ⟨i, by omega, by omega, htop⟩

/-- The table's first row is a top level field. -/
theorem top_first (h : 0 < s.nfields) : (s.row 0).parent = none := by
  obtain ⟨i, hi, -, htop⟩ := hb.top_of h
  obtain rfl : i = 0 := by omega
  exact htop

/-- A bare root is the one top level row, and has no name. -/
theorem root_bare (hroot : s.valueRoot = true) : 0 < s.nfields ∧ (s.row 0).name = [] ∧
    ∀ i, i < s.nfields → (s.row i).depth = 0 → i = 0 := by
  obtain ⟨v, hlaid⟩ := hb.laid
  rw [hroot] at hlaid
  have hle := hlaid.le
  rw [hb.length] at hle
  simp only [Bool.not_true, Bool.false_eq_true, if_false] at hle
  refine ⟨by omega, ?_, fun i hi hd => ?_⟩
  · have hsame := hb.placed.same.row 0
    unfold SameRow at hsame
    unfold Schema.row
    rw [hsame]
    exact hb.rootName hroot
  · rw [hb.depth] at hd
    rcases hlaid.parent (Nat.zero_le i) (by rw [hb.length]; exact hi) with
      ⟨-, -, h⟩ | ⟨q, -, hdq, -⟩
    · exact h rfl
    · omega

end Built

end

section
variable {sub pub : Schema} {t₀ u₀ : Table}

/-- Every field of a subset has a mirror: the publisher's field of its name. -/
theorem subset_mirror (hs : Built sub t₀) (hp : Built pub u₀) (hsub : subset sub pub = true)
    {i : Nat} (hi : i < sub.nfields) (htop : (sub.row i).parent = none) :
    ∃ j, schemaFind pub (sub.row i).name = some j ∧ Mirror sub pub i j := by
  have hdepth := (hs.depth_zero hi).mpr htop
  unfold subset at hsub
  split at hsub
  next hroot =>
    simp only [Bool.and_eq_true, beq_iff_eq] at hsub
    obtain ⟨⟨heq, -⟩, hcmp⟩ := hsub
    have hsr : sub.valueRoot = true := by
      rw [← heq, Bool.or_self] at hroot
      exact hroot
    have hpr : pub.valueRoot = true := heq.symm.trans hsr
    obtain ⟨-, hname, honly⟩ := hs.root_bare hsr
    obtain ⟨hlt, hname', -⟩ := hp.root_bare hpr
    obtain rfl := honly i hi hdepth
    have hdepth' := (hp.depth_zero hlt).mpr (hp.top_first hlt)
    refine ⟨0, ?_, fieldCmp_mirror hs hp hi hlt hdepth hdepth' hcmp⟩
    unfold schemaFind
    obtain ⟨n, hn⟩ : ∃ n, pub.nfields = n + 1 := ⟨pub.nfields - 1, by omega⟩
    rw [hn, List.range_succ_eq_map, List.find?_cons_of_pos]
    simp [hdepth', hname, hname']
  next =>
    split at hsub
    next => cases hsub
    have hall := List.all_eq_true.mp hsub i (List.mem_range.mpr hi)
    rw [if_neg (by rw [hdepth]; exact fun hc => hc rfl)] at hall
    cases hfind : schemaFind pub (sub.row i).name with
    | none =>
      rw [hfind] at hall
      cases hall
    | some j =>
      rw [hfind] at hall
      obtain ⟨hj, hdepth', -⟩ := schemaFind_some hfind
      exact ⟨j, rfl, fieldCmp_mirror hs hp hi hj hdepth hdepth' hall⟩

/-! ## The loops of the rebase -/

/-- The inner loop places the rows of one field and no other. -/
theorem rebaseRows_spec (pub : Schema) {i j n : Nat} {t : Table} (hj : j + n ≤ pub.nfields) :
    i + n ≤ t.length → ∃ t', rebaseRows pub i j n t = some t' ∧ t'.length = t.length ∧
      (∀ k, k < n → rowOf t' (i + k) = (rowOf t (i + k)).placedAt (pub.row (j + k))) ∧
      (∀ f, (f < i ∨ i + n ≤ f) → rowOf t' f = rowOf t f) := by
  induction n with
  | zero =>
    intro _
    exact ⟨t, rfl, rfl, fun k hk => absurd hk (Nat.not_lt_zero k), fun f _ => rfl⟩
  | succ n ih =>
    intro hi
    obtain ⟨t', ht', hlen, hin, hout⟩ := ih (by omega) (by omega)
    unfold rebaseRows
    rw [ht']
    dsimp only
    rw [if_neg (by omega)]
    refine ⟨_, rfl, by rw [List.length_set]; exact hlen, fun k hk => ?_, fun f hf => ?_⟩
    · by_cases hkn : k = n
      · rw [hkn, rowOf_set_self (by omega), hout (i + n) (Or.inr (Nat.le_refl _))]
      · rw [rowOf_set_ne (by omega)]
        exact hin k (by omega)
    · rw [rowOf_set_ne (by omega)]
      exact hout f (by omega)

/-- The outer loop passes every field and places each at its mirror. -/
theorem rebaseFrom_spec (hs : Built sub t₀) (hp : Built pub u₀) (hsub : subset sub pub = true)
    {n : Nat} : ∀ {t : Table} {i : Nat}, t.length = sub.nfields →
      (i < sub.nfields → (sub.row i).parent = none) → (∀ f, i ≤ f → rowOf t f = sub.row f) →
      sub.nfields < i + n → 0 < n →
      ∃ t', rebaseFrom pub n t i = some (some t') ∧ t'.length = sub.nfields ∧
        (∀ f, f < i → rowOf t' f = rowOf t f) ∧
        ∀ b j k, i ≤ b → b + k < sub.nfields → (sub.row b).parent = none →
          schemaFind pub (sub.row b).name = some j → b + k < (sub.row b).next →
          rowOf t' (b + k) = (sub.row (b + k)).placedAt (pub.row (j + k)) := by
  induction n with
  | zero => intro t i _ _ _ _ hpos; exact absurd hpos (Nat.lt_irrefl 0)
  | succ n ih =>
    intro t i hlen htop hrest hn _
    unfold rebaseFrom
    split
    next hi =>
      rw [hlen] at hi
      obtain ⟨j, hfind, hm⟩ := subset_mirror hs hp hsub hi (htop hi)
      have hnext := hs.lt_next hi
      have hle := hs.next_le hi
      have hle' := hp.next_le hm.lt'
      have hmlen := hm.len
      rw [hrest i (Nat.le_refl i), hfind]
      dsimp only
      rw [if_neg (by rw [(hs.depth_zero hi).mpr (htop hi)]; exact fun hc => hc rfl)]
      obtain ⟨t₁, ht₁, hlen₁, hin, hout⟩ := rebaseRows_spec pub (i := i) (j := j)
        (n := (sub.row i).next - i) (t := t) (by omega) (by omega)
      rw [ht₁]
      obtain ⟨t', ht', hlen', hkept, hplaced⟩ := ih (t := t₁) (i := (sub.row i).next)
        (hlen₁.trans hlen) (fun hlt => hs.top_next hi (htop hi) hlt)
        (fun f hf => (hout f (Or.inr (by omega))).trans (hrest f (by omega))) (by omega) (by omega)
      refine ⟨t', ht', hlen', fun f hf => ?_, fun b j' k hib hbk hbtop hbfind hbn => ?_⟩
      · exact (hkept f (by omega)).trans (hout f (Or.inl hf))
      · by_cases hbi : b = i
        · subst hbi
          obtain rfl := Option.some.inj (hfind.symm.trans hbfind)
          rw [hkept (b + k) hbn, hin k (by omega), hrest (b + k) (by omega)]
        · -- the next top level field starts past this one
          have hpast : (sub.row i).next ≤ b := by
            by_cases hc : (sub.row i).next ≤ b
            · exact hc
            · obtain ⟨q, hq, -⟩ := hs.parent_inside hi (j := b) (by omega) (by omega)
              cases hbtop.symm.trans hq
          exact hplaced b j' k hpast hbk hbtop hbfind hbn
    next hi =>
      refine ⟨t, rfl, hlen, fun f _ => rfl, fun b j k hib hbk => ?_⟩
      omega

/-- The reader's table at the publisher's places. -/
structure View (sub pub v : Schema) : Prop where
  shape : SameShape sub v
  size : v.size = pub.size
  nVar : v.nVar = pub.nVar
  place : ∀ i, i < sub.nfields → (sub.row i).parent = none →
    ∃ j, schemaFind pub (sub.row i).name = some j ∧ Mirror sub pub i j ∧
      ∀ k, i + k < (sub.row i).next → (v.row (i + k)).offset = (pub.row (j + k)).offset ∧
        (v.row (i + k)).varOrd = (pub.row (j + k)).varOrd

/-- Rebasing a subset succeeds, and ends in such a view. -/
theorem rebase_view (hs : Built sub t₀) (hp : Built pub u₀) (hw : compile sub.wire = some sub)
    (hsub : subset sub pub = true) : ∃ v, rebase sub pub = some v ∧ View sub pub v := by
  obtain ⟨t', ht', hlen, -, hplaced⟩ := rebaseFrom_spec hs hp hsub (n := sub.nfields + 1)
    (t := sub.fields) (i := 0) rfl hs.top_first (fun f _ => rfl) (by omega) (Nat.succ_pos _)
  unfold rebase
  rw [if_neg (by rw [hsub]; exact fun hc => by cases hc), hw]
  dsimp only
  rw [ht']
  refine ⟨_, rfl, ⟨hlen, fun f => ?_⟩, rfl, rfl, fun i hi htop => ?_⟩
  · show rowOf t' f = { sub.row f with offset := (rowOf t' f).offset, varOrd := (rowOf t' f).varOrd }
    by_cases hf : f < sub.nfields
    · obtain ⟨i, hif, hfn, htop⟩ := hs.top_of hf
      obtain ⟨j, hfind, -⟩ := subset_mirror hs hp hsub (i := i) (by omega) htop
      have := hplaced i j (f - i) (Nat.zero_le i) (by omega) htop hfind (by omega)
      rw [show i + (f - i) = f by omega] at this
      rw [this]
      rfl
    · rw [rowOf_length_le (by omega)]
      unfold Schema.row
      rw [rowOf_length_le (by unfold Schema.nfields at hf; omega)]
  · obtain ⟨j, hfind, hm⟩ := subset_mirror hs hp hsub hi htop
    have hle := hs.next_le hi
    refine ⟨j, hfind, hm, fun k hk => ?_⟩
    have hrow : rowOf t' (i + k) = _ := hplaced i j k (Nat.zero_le i) (by omega) htop hfind hk
    show (rowOf t' (i + k)).offset = _ ∧ (rowOf t' (i + k)).varOrd = _
    rw [hrow]
    exact ⟨rfl, rfl⟩

end

end Rant.Serialize
