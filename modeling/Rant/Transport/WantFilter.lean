import Rant.Transport.Meets
/-!
# The filter has no false negatives

A peer judged not to meet leaves its entries' items in a filter. From then on every key the
table gains is either kept in the list of added keys or given up by a refused allocation,
which makes every filter a maybe (`Covered`); a key that was there at the judgement met no
entry. So where the peer's list would meet now, the key by which it does was added, and its
bits are the ones the fold set.
-/

namespace Rant.Transport

open Rant.Lib

/-! ## The bits of an item -/

theorem wantBits_lt {hash bytes : Nat} {side : Bool} (hb : 0 < bytes) {i : Nat}
    (hi : i ∈ wantBits hash side bytes) : i < 8 * bytes := by
  have hmask : (8 * bytes - 1) % 2 ^ 32 < 8 * bytes := by
    have := Nat.mod_le (8 * bytes - 1) (2 ^ 32)
    omega
  unfold wantBits at hi
  simp only [List.mem_cons, List.not_mem_nil, or_false] at hi
  rcases hi with rfl | rfl | rfl <;> exact Nat.lt_of_le_of_lt Nat.and_le_right hmask

theorem gains_setAll (is : List Nat) : ∀ f : Bytes, Gains f (is.foldl bitSet f) := by
  induction is with
  | nil => intro f; exact gains_refl f
  | cons i is ih =>
    intro f
    rw [List.foldl_cons]
    exact gains_trans (gains_bitSet f i) (ih _)

theorem bitGet_setAll {is : List Nat} : ∀ {f : Bytes}, (∀ i ∈ is, i < 8 * f.length) →
    ∀ i ∈ is, bitGet (is.foldl bitSet f) i = true := by
  induction is with
  | nil => intro f _ i hi; cases hi
  | cons j is ih =>
    intro f h i hi
    rw [List.foldl_cons]
    rcases List.mem_cons.mp hi with rfl | hi
    · exact (gains_setAll is _).2 i (bitGet_bitSet_self (h i List.mem_cons_self))
    · refine ih (fun k hk => ?_) i hi
      rw [length_bitSet]
      exact h k (List.mem_cons_of_mem j hk)

/-- An item's bits, all set. -/
def Holds (f : Bytes) (hash : Nat) (side : Bool) : Prop :=
  ∀ i ∈ wantBits hash side f.length, bitGet f i = true

theorem Holds.gains {f g : Bytes} {hash : Nat} {side : Bool} (h : Holds f hash side)
    (hg : Gains f g) : Holds g hash side := by
  intro i hi
  rw [← hg.1] at hi
  exact hg.2 i (h i hi)

theorem gains_sides (hash : Nat) (sides : List Bool) : ∀ f : Bytes, Gains f
    (sides.foldl (fun f side => (wantBits hash side f.length).foldl bitSet f) f) := by
  induction sides with
  | nil => intro f; exact gains_refl f
  | cons side sides ih =>
    intro f
    rw [List.foldl_cons]
    exact gains_trans (gains_setAll _ f) (ih _)

theorem holds_sides {hash : Nat} {sides : List Bool} : ∀ {f : Bytes}, 0 < f.length →
    ∀ side ∈ sides, Holds
      (sides.foldl (fun f side => (wantBits hash side f.length).foldl bitSet f) f) hash side := by
  induction sides with
  | nil => intro f _ side hs; cases hs
  | cons s sides ih =>
    intro f hf side hs
    rw [List.foldl_cons]
    have hlen := (gains_setAll (wantBits hash s f.length) f).1
    rcases List.mem_cons.mp hs with rfl | hs
    · have hset : Holds ((wantBits hash side f.length).foldl bitSet f) hash side := by
        intro i hi
        rw [← hlen] at hi
        exact bitGet_setAll (fun k hk => wantBits_lt hf hk) i hi
      exact hset.gains (gains_sides hash sides _)
    · exact ih (by omega) side hs

theorem gains_foldEntries (es : List InterestEntry) : ∀ f : Bytes, Gains f (es.foldl foldEntry f) := by
  induction es with
  | nil => intro f; exact gains_refl f
  | cons e es ih =>
    intro f
    rw [List.foldl_cons]
    exact gains_trans (gains_sides e.hash e.sides f) (ih _)

theorem holds_foldEntries {es : List InterestEntry} : ∀ {f : Bytes}, 0 < f.length →
    ∀ e ∈ es, ∀ side ∈ e.sides, Holds (es.foldl foldEntry f) e.hash side := by
  induction es with
  | nil => intro f _ e he; cases he
  | cons x es ih =>
    intro f hf e he side hs
    rw [List.foldl_cons]
    rcases List.mem_cons.mp he with rfl | he
    · exact (holds_sides hf side hs).gains (gains_foldEntries es _)
    · refine ih ?_ e he side hs
      unfold foldEntry
      rw [← (gains_sides x.hash x.sides f).1]
      exact hf

/-- A key that takes an entry names a side of it. -/
theorem Want.takes_side {w : Want} {e : InterestEntry} (h : w.takes e = true) :
    w.theirPub ∈ e.sides := by
  have hside := ((Want.takes_iff w e).mp h).1
  unfold InterestEntry.sides
  cases hp : w.theirPub with
  | true =>
    rw [hp, if_pos rfl] at hside
    simp [hside]
  | false =>
    rw [hp, if_neg Bool.false_ne_true] at hside
    simp [hside]

/-- The fold of a list holds every item by which a key takes one of its entries. -/
theorem fold_holds {d filter rest : Bytes} (hf : 0 < filter.length)
    (hd : interestWalk d = some rest) {e : InterestEntry} (he : e ∈ interestScan d) {w : Want}
    (hh : w.hash = e.hash) (hw : w.takes e = true) :
    Holds (interestFold d filter) w.hash w.theirPub := by
  unfold interestFold
  rw [hd, hh]
  exact holds_foldEntries hf e he _ (Want.takes_side hw)

/-! ## The keys gained -/

/-- Noting a key keeps it or gives up on all. -/
theorem noteKey_added (al : WantAlloc) (s : WantState) (w : Want) :
    ((noteKey al s w).addedAll = true ∨ w ∈ (noteKey al s w).added) ∧
      (∀ k ∈ s.added, k ∈ (noteKey al s w).added) ∧
      (s.addedAll = true → (noteKey al s w).addedAll = true) := by
  unfold noteKey
  split
  next =>
    split
    next => exact ⟨Or.inr (by simp), fun k hk => List.mem_append_left _ hk, id⟩
    next => exact ⟨Or.inl rfl, fun k hk => hk, fun _ => rfl⟩
  next => exact ⟨Or.inr (by simp), fun k hk => List.mem_append_left _ hk, id⟩

/-- The merge keeps every fresh key the old set lacks, or gives up. -/
theorem noteAdded_spec (al : WantAlloc) (fresh : List Want) : ∀ (old : List Want) (s : WantState),
    ((noteAdded al fresh old s).addedAll = true ∨
      ∀ w ∈ fresh, w ∈ old ∨ w ∈ (noteAdded al fresh old s).added) ∧
      (∀ k ∈ s.added, k ∈ (noteAdded al fresh old s).added) ∧
      (s.addedAll = true → (noteAdded al fresh old s).addedAll = true) := by
  induction fresh with
  | nil => intro old s; exact ⟨Or.inr fun w hw => (by cases hw), fun k hk => hk, id⟩
  | cons w fresh ih =>
    intro old s
    unfold noteAdded
    split
    next hall => exact ⟨Or.inl hall, fun k hk => hk, fun _ => hall⟩
    dsimp only
    obtain ⟨rest, hrest⟩ : ∃ rest, rest = old.dropWhile fun o => o.before w := ⟨_, rfl⟩
    have hsub : ∀ k ∈ rest, k ∈ old := fun k hk =>
      (List.dropWhile_sublist _).subset (hrest ▸ hk)
    rw [← hrest]
    split
    next hheld =>
      -- the old set's first key not before `w` is `w`
      obtain ⟨h1, h2, h3⟩ := ih rest s
      refine ⟨h1.imp id fun hf k hk => ?_, h2, h3⟩
      rcases List.mem_cons.mp hk with rfl | hk
      · refine Or.inl ?_
        cases hr : rest with
        | nil =>
          rw [hr] at hheld
          cases hheld
        | cons o os =>
          rw [hr] at hheld
          have hno : k.before o = false := by simpa using hheld
          have hno' : o.before k = false := by
            have hne : old.dropWhile (fun o => o.before k) ≠ [] := by
              rw [← hrest, hr]
              exact List.cons_ne_nil _ _
            have hhead := List.head_dropWhile_not (fun o : Want => o.before k) hne
            have hoo : (old.dropWhile fun o => o.before k).head hne = o := by
              have : (old.dropWhile fun o => o.before k).head? = some o := by
                rw [← hrest, hr]
                rfl
              rw [List.head?_eq_some_head hne] at this
              exact Option.some.inj this
            rw [hoo] at hhead
            exact hhead
          rw [Want.eq_of_before hno hno']
          exact hsub o (by rw [hr]; exact List.mem_cons_self)
      · exact (hf k hk).imp (hsub k) id
    next =>
      obtain ⟨hk1, hk2, hk3⟩ := noteKey_added al s w
      obtain ⟨h1, h2, h3⟩ := ih rest (noteKey al s w)
      refine ⟨?_, fun k hk => h2 k (hk2 k hk), fun hall => h3 (hk3 hall)⟩
      rcases hk1 with hall | hmem
      · exact Or.inl (h3 hall)
      · refine h1.imp id fun hf k hk => ?_
        rcases List.mem_cons.mp hk with rfl | hk
        · exact Or.inr (h2 _ hmem)
        · exact (hf k hk).imp (hsub k) id

/-- Every key of the set is one of `base` or noted as added, or all is given up. -/
def Covered (base : List Want) (s : WantState) : Prop :=
  s.addedAll = true ∨ ∀ w ∈ s.want, w ∈ base ∨ w ∈ s.added

theorem Covered.refresh {base : List Want} {s : WantState} (h : Covered base s) (al : WantAlloc) :
    Covered base (wantRefresh al s) := by
  unfold wantRefresh
  split
  next =>
    unfold wantRebuild
    split
    next => exact Or.inl rfl
    obtain ⟨h1, h2, h3⟩ := noteAdded_spec al (shellSort Want.before (tableKeys s.topics)) s.want s
    rcases h with hall | hcov
    · exact Or.inl (h3 hall)
    · refine h1.imp id fun hf w hw => ?_
      rcases hf w hw with hold | hnew
      · exact (hcov w hold).imp id (h2 w)
      · exact Or.inr hnew
  next => exact h

/-- A run of changes and rebuilds, but no clear, keeps the cover. -/
theorem covered_step {base : List Want} (s : WantState) (e : WantEvent) (h : Covered base s)
    (he : e ≠ .clear) : Covered base (s.step e) := by
  cases e with
  | define c d ok =>
    simp only [WantState.step]
    split
    next => exact h
    next => exact h
  | retire c =>
    simp only [WantState.step]
    split
    next => exact h
    next => exact h
  | reuse c d changed version ok =>
    simp only [WantState.step]
    split
    next => exact h
    next => exact h
  | setRole c role =>
    simp only [WantState.step]
    split
    next => exact h
    next => exact h
  | grow extra => exact h
  | refresh al => exact h.refresh al
  | clear => exact absurd rfl he

theorem along_clearless {es : List WantEvent} : ∀ {s : WantState}, (∀ e ∈ es, e ≠ .clear) →
    Along WantState.step (fun _ e => e ≠ .clear) s es := by
  induction es with
  | nil => intro s _; trivial
  | cons e es ih =>
    intro s h
    exact ⟨h e List.mem_cons_self, ih fun f hf => h f (List.mem_cons_of_mem e hf)⟩

/-! ## The result -/

/-- **The want filter has no false negatives.** A list judged not to meet is folded into a
filter. After any changes and rebuilds with no clear between, and whatever else was folded
into the filter: where the list would meet the table now, or is answered so, the check of the gained keys
against the filter says maybe. -/
theorem want_filter_complete (ts : List Topic) (es fs : List WantEvent) (al al' : WantAlloc)
    (d filter later : Bytes) (hbytes : 0 < filter.length)
    (hjudged : (interestMeets al (WantState.runs ts es) d).2 = false)
    (hlater : Gains (interestFold d filter) later) (hclear : ∀ e ∈ fs, e ≠ .clear) :
    let s := run WantState.step (interestMeets al (WantState.runs ts es) d).1 fs
    ((∃ rest, interestWalk d = some rest) ∧ Meeting s.topics d ∨
        (interestMeets al' s d).2 = true) →
      (wantNewMaybe al' s later).2 = true := by
  intro s hmeet
  have hs₀ := synced_runs ts es
  cases hd : interestWalk d with
  | none =>
    -- a list that is refused whole meets nothing
    exfalso
    rcases hmeet with ⟨⟨rest, hr⟩, -⟩ | h
    · cases hd.symm.trans hr
    · unfold interestMeets at h
      rw [hd] at h
      cases h
  | some rest =>
    obtain ⟨s₀, hs₀eq⟩ : ∃ s₀, s₀ = wantRefresh al (WantState.runs ts es) := ⟨_, rfl⟩
    have hjudge : (interestMeets al (WantState.runs ts es) d).1 = s₀ := by
      unfold interestMeets
      rw [hd, hs₀eq]
    have hnot : ¬ ((wantRefresh al (WantState.runs ts es)).failed = true ∨
        Meeting (WantState.runs ts es).topics d) := by
      intro hc
      rw [← interestMeets_iff al hs₀ hd, hjudged] at hc
      cases hc
    rw [not_or, Bool.not_eq_true] at hnot
    have hkeys := wantRefresh_keys al hs₀ hnot.1
    -- the base is the set the list was judged against
    have hcov₀ : Covered s₀.want s₀ := Or.inr fun w hw => Or.inl hw
    have hrun : s = run WantState.step s₀ fs := by
      show run WantState.step _ fs = _
      rw [hjudge]
    have hcov : Covered s₀.want s := by
      rw [hrun]
      exact run_invariant_along (Covered s₀.want) (fun s e h he => covered_step s e h he) fs s₀
        hcov₀ (along_clearless hclear)
    have hsync : Synced s := by
      rw [hrun]
      exact run_invariant Synced synced_step fs s₀ (hs₀eq ▸ wantRefresh_synced al hs₀)
    have hcov' := hcov.refresh al'
    unfold wantNewMaybe
    dsimp only
    by_cases hall : (wantRefresh al' s).addedAll = true
    · rw [hall]
      rfl
    have hfail : (wantRefresh al' s).failed = false := by
      by_contra hc
      rw [Bool.not_eq_false] at hc
      by_cases hdirty : s.dirty = true
      · have heq : wantRefresh al' s = wantRebuild al' s := if_pos hdirty
        rw [heq] at hc hall
        rcases wantRebuild_cases al' s with ⟨-, -, hf⟩ | ⟨-, -, hf, -⟩
        · rw [hf] at hall
          exact hall rfl
        · rw [hf] at hc
          cases hc
      · have heq : wantRefresh al' s = s := if_neg hdirty
        rw [heq] at hc
        exact hdirty (hsync.failed hc)
    have hmeeting : Meeting s.topics d := by
      rcases hmeet with ⟨-, h⟩ | h
      · exact h
      · refine ((interestMeets_iff al' hsync hd).mp h).resolve_left fun hf => ?_
        rw [hfail] at hf
        cases hf
    have hnow := wantRefresh_keys al' hsync hfail
    obtain ⟨t, ht, e, he, hte⟩ := hmeeting
    obtain ⟨w, hw, hh, htakes⟩ := (t.meets_iff_key e).mp hte
    have hwant : w ∈ (wantRefresh al' s).want :=
      hnow.mem_iff.mpr (List.mem_flatMap.mpr ⟨t, ht, hw⟩)
    rcases (hcov'.resolve_left hall) w hwant with hbase | hadded
    · -- a key there at the judgement would have met
      exfalso
      refine hnot.2 ?_
      obtain ⟨u, hu, hwu⟩ := List.mem_flatMap.mp (hkeys.mem_iff.mp (hs₀eq ▸ hbase))
      exact ⟨u, hu, e, he, (u.meets_iff_key e).mpr ⟨w, hwu, hh, htakes⟩⟩
    · rw [Bool.or_eq_true]
      refine Or.inr (List.any_eq_true.mpr ⟨w, hadded, List.all_eq_true.mpr ?_⟩)
      exact ((fold_holds hbytes hd he hh htakes).gains hlater)

/-- A variable's owner, judged by a node with no topic, may meet it once it reads the variable. -/
theorem want_filter_complete_reader :
    (wantNewMaybe {} readerNode
      (interestFold (interestEmit soleNode.topics) (List.replicate 32 0))).2 = true :=
  want_filter_complete [.undefined] []
    [.define 0 { ownerDef [103, 122, 117, 99] 0 with role := .subOnly } true] {} {}
    (interestEmit soleNode.topics) (List.replicate 32 0) _ (by decide) (by decide +kernel)
    (gains_refl _) (fun e he h => (by rw [List.mem_singleton.mp he] at h; cases h))
    (Or.inr (by decide +kernel))

end Rant.Transport
