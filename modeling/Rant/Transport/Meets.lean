import Rant.Transport.Want
/-!
# The interest test is its definition

The search over the sorted set answers the plain pairwise rule (`Topic.meets`): in every
state a run reaches, `interestMeets` says yes exactly when some topic and some entry meet,
and whenever an entry of the peer still wants its details. Two nodes that read each
other's list judge alike where the topics that carry one hash agree on MULTI.
-/

namespace Rant.Transport

open Rant.Lib

/-! ## The pairwise rule -/

/-- How a topic of ours and a peer's entry meet: one of the four rows of the rule. -/
def Topic.meets (t : Topic) (e : InterestEntry) : Prop :=
  t.announced = true ∧ t.hash32 = e.hash ∧
    ((t.role.subs = true ∧ e.theirPub = true) ∨ (t.role.pubs = true ∧ e.theirSub = true) ∨
      (t.kind = .variable ∧ t.multi = false ∧ t.role.pubs = true ∧ e.theirPub = true ∧
        e.kind = t.kind.code) ∨
      (t.kind.isRequest = true ∧ t.multi = false ∧ t.role.subs = true ∧ e.theirSub = true ∧
        e.kind = t.kind.code))

/-- A key takes an entry: the side it names, and a rival's kind. -/
theorem Want.takes_iff (w : Want) (e : InterestEntry) : w.takes e = true ↔
    (if w.theirPub then e.theirPub else e.theirSub) = true ∧
      (w.rivalKind = 0 ∨ w.rivalKind = e.kind) := by
  unfold Want.takes
  rw [Bool.and_eq_true, Bool.or_eq_true, decide_eq_true_eq, decide_eq_true_eq]

theorem mem_ite_singleton {α : Type} {p : Prop} [Decidable p] {x y : α} :
    x ∈ (if p then [y] else []) ↔ p ∧ x = y := by
  by_cases hp : p
  · simp [hp]
  · simp [hp]

theorem mem_wantKeys (t : Topic) (w : Want) : w ∈ wantKeys t ↔ t.announced = true ∧
    w.hash = t.hash32 ∧
      ((t.role.subs = true ∧ w.theirPub = true ∧ w.rivalKind = 0) ∨
        (t.role.pubs = true ∧ w.theirPub = false ∧ w.rivalKind = 0) ∨
        (t.kind = .variable ∧ t.multi = false ∧ t.role.pubs = true ∧ w.theirPub = true ∧
          w.rivalKind = t.kind.code) ∨
        (t.kind.isRequest = true ∧ t.multi = false ∧ t.role.subs = true ∧ w.theirPub = false ∧
          w.rivalKind = t.kind.code)) := by
  obtain ⟨h, pub, rival⟩ := w
  unfold wantKeys
  by_cases ha : t.announced
  · rw [if_pos ha]
    simp only [List.mem_append, mem_ite_singleton, Want.mk.injEq, Bool.and_eq_true,
      Bool.not_eq_true', decide_eq_true_eq]
    constructor
    · rintro (((⟨h1, rfl, rfl, rfl⟩ | ⟨h1, rfl, rfl, rfl⟩) | ⟨⟨⟨h1, h2⟩, h3⟩, rfl, rfl, rfl⟩) |
        ⟨⟨⟨h1, h2⟩, h3⟩, rfl, rfl, rfl⟩)
      · exact ⟨ha, rfl, Or.inl ⟨h1, rfl, rfl⟩⟩
      · exact ⟨ha, rfl, Or.inr (Or.inl ⟨h1, rfl, rfl⟩)⟩
      · exact ⟨ha, rfl, Or.inr (Or.inr (Or.inl ⟨h3, h1, h2, rfl, rfl⟩))⟩
      · exact ⟨ha, rfl, Or.inr (Or.inr (Or.inr ⟨h3, h1, h2, rfl, rfl⟩))⟩
    · rintro ⟨-, rfl, ⟨h1, rfl, rfl⟩ | ⟨h1, rfl, rfl⟩ | ⟨h1, h2, h3, rfl, rfl⟩ |
        ⟨h1, h2, h3, rfl, rfl⟩⟩
      · exact Or.inl (Or.inl (Or.inl ⟨h1, rfl, rfl, rfl⟩))
      · exact Or.inl (Or.inl (Or.inr ⟨h1, rfl, rfl, rfl⟩))
      · exact Or.inl (Or.inr ⟨⟨⟨h2, h3⟩, h1⟩, rfl, rfl, rfl⟩)
      · exact Or.inr ⟨⟨⟨h2, h3⟩, h1⟩, rfl, rfl, rfl⟩
  · rw [if_neg ha]
    exact ⟨fun hm => absurd hm List.not_mem_nil, fun hm => absurd hm.1 ha⟩

/-- The keys of a topic are its ways to meet. -/
theorem Topic.meets_iff_key (t : Topic) (e : InterestEntry) :
    t.meets e ↔ ∃ w ∈ wantKeys t, w.hash = e.hash ∧ w.takes e = true := by
  constructor
  · rintro ⟨ha, hh, ⟨h1, h2⟩ | ⟨h1, h2⟩ | ⟨h1, h2, h3, h4, h5⟩ | ⟨h1, h2, h3, h4, h5⟩⟩
    · refine ⟨⟨t.hash32, true, 0⟩, (mem_wantKeys t _).mpr ⟨ha, rfl, Or.inl ⟨h1, rfl, rfl⟩⟩, hh, ?_⟩
      exact (Want.takes_iff _ _).mpr ⟨h2, Or.inl rfl⟩
    · refine ⟨⟨t.hash32, false, 0⟩,
        (mem_wantKeys t _).mpr ⟨ha, rfl, Or.inr (Or.inl ⟨h1, rfl, rfl⟩)⟩, hh, ?_⟩
      exact (Want.takes_iff _ _).mpr ⟨h2, Or.inl rfl⟩
    · refine ⟨⟨t.hash32, true, t.kind.code⟩, (mem_wantKeys t _).mpr
        ⟨ha, rfl, Or.inr (Or.inr (Or.inl ⟨h1, h2, h3, rfl, rfl⟩))⟩, hh, ?_⟩
      exact (Want.takes_iff _ _).mpr ⟨h4, Or.inr h5.symm⟩
    · refine ⟨⟨t.hash32, false, t.kind.code⟩, (mem_wantKeys t _).mpr
        ⟨ha, rfl, Or.inr (Or.inr (Or.inr ⟨h1, h2, h3, rfl, rfl⟩))⟩, hh, ?_⟩
      exact (Want.takes_iff _ _).mpr ⟨h4, Or.inr h5.symm⟩
  · rintro ⟨w, hw, hh, ht⟩
    obtain ⟨ha, hhash, hrow⟩ := (mem_wantKeys t w).mp hw
    obtain ⟨hside, hkind⟩ := (Want.takes_iff w e).mp ht
    refine ⟨ha, hhash.symm.trans hh, ?_⟩
    rcases hrow with ⟨h1, hp, hr⟩ | ⟨h1, hp, hr⟩ | ⟨h1, h2, h3, hp, hr⟩ | ⟨h1, h2, h3, hp, hr⟩
    · rw [hp] at hside
      exact Or.inl ⟨h1, hside⟩
    · rw [hp] at hside
      exact Or.inr (Or.inl ⟨h1, hside⟩)
    · rw [hp] at hside
      have hne : w.rivalKind ≠ 0 := by
        rw [hr, h1]
        decide
      exact Or.inr (Or.inr (Or.inl ⟨h1, h2, h3, hside,
        (hkind.resolve_left hne).symm.trans hr⟩))
    · rw [hp] at hside
      have hne : w.rivalKind ≠ 0 := by
        rw [hr]
        revert h1
        cases t.kind <;> decide
      exact Or.inr (Or.inr (Or.inr ⟨h1, h2, h3, hside,
        (hkind.resolve_left hne).symm.trans hr⟩))

/-! ## The order of the keys -/

/-- The order as numbers. -/
theorem Want.before_iff (a b : Want) : a.before b = true ↔ a.hash < b.hash ∨
    (a.hash = b.hash ∧ (a.theirPub.toNat < b.theirPub.toNat ∨
      (a.theirPub = b.theirPub ∧ a.rivalKind < b.rivalKind))) := by
  unfold Want.before
  by_cases hh : a.hash = b.hash
  · rw [if_neg (not_not.mpr hh)]
    by_cases hp : a.theirPub = b.theirPub
    · rw [if_neg (not_not.mpr hp), decide_eq_true_eq]
      simp [hh, hp]
    · rw [if_pos hp]
      cases ha : a.theirPub <;> cases hb : b.theirPub <;> simp_all
  · rw [if_pos hh, decide_eq_true_eq]
    simp [hh]

theorem Want.before_false (a b : Want) : a.before b = false ↔ b.hash < a.hash ∨
    (b.hash = a.hash ∧ (b.theirPub.toNat < a.theirPub.toNat ∨
      (b.theirPub = a.theirPub ∧ b.rivalKind ≤ a.rivalKind))) := by
  rw [← Bool.not_eq_true, Want.before_iff]
  cases a.theirPub <;> cases b.theirPub <;> simp <;> omega

theorem strictWeak_before : StrictWeak Want.before where
  irrefl a := (Want.before_false a a).mpr (by simp)
  trans a b c hab hbc := by
    rw [Want.before_iff] at hab hbc ⊢
    cases ha : a.theirPub <;> cases hb : b.theirPub <;> cases hc : c.theirPub <;>
      simp [ha, hb, hc] at hab hbc ⊢ <;> omega
  le_trans a b c hab hbc := by
    rw [Want.before_false] at hab hbc ⊢
    cases ha : a.theirPub <;> cases hb : b.theirPub <;> cases hc : c.theirPub <;>
      simp [ha, hb, hc] at hab hbc ⊢ <;> omega

/-- Keys neither of which is before the other are one key. -/
theorem Want.eq_of_before {a b : Want} (h : a.before b = false) (h' : b.before a = false) :
    a = b := by
  rw [Want.before_false] at h h'
  obtain ⟨ah, ap, ak⟩ := a
  obtain ⟨bh, bp, bk⟩ := b
  cases ap <;> cases bp <;> simp at h h' ⊢ <;> omega

/-- The search of a sorted set finds a key that takes the entry where there is one. -/
theorem meetsEntry_iff {want : List Want} (hs : Sorted Want.before want) (e : InterestEntry) :
    meetsEntry want e = true ↔ ∃ w ∈ want, w.hash = e.hash ∧ w.takes e = true := by
  have hkeys : want.Pairwise fun a b => a.hash ≤ b.hash := by
    refine hs.imp fun {a b} hab => ?_
    rcases (Want.before_false b a).mp hab with h | ⟨h, -⟩
    · exact Nat.le_of_lt h
    · exact Nat.le_of_eq h
  unfold meetsEntry
  dsimp only
  rw [equalRun_any hkeys e.hash (fun w => w.takes e), List.any_eq_true]
  simp only [Bool.and_eq_true, decide_eq_true_eq]

/-! ## Rebuilding -/

/-- Noting keys touches the list of them alone. -/
theorem noteKey_frame (al : WantAlloc) (s : WantState) (w : Want) :
    (noteKey al s w).topics = s.topics ∧ (noteKey al s w).want = s.want ∧
      (noteKey al s w).dirty = s.dirty ∧ (noteKey al s w).failed = s.failed := by
  unfold noteKey
  split
  next =>
    split
    next => exact ⟨rfl, rfl, rfl, rfl⟩
    next => exact ⟨rfl, rfl, rfl, rfl⟩
  next => exact ⟨rfl, rfl, rfl, rfl⟩

theorem noteAdded_topics (al : WantAlloc) {fresh : List Want} : ∀ (old : List Want) (s : WantState),
    (noteAdded al fresh old s).topics = s.topics := by
  induction fresh with
  | nil => intro old s; rfl
  | cons w fresh ih =>
    intro old s
    unfold noteAdded
    split
    next => rfl
    dsimp only
    split
    next => exact ih _ _
    next => exact (ih _ _).trans (noteKey_frame al s w).1

/-- The set is sorted, is the table's where it is not dirty, and only a dirty one failed. -/
structure Synced (s : WantState) : Prop where
  sorted : Sorted Want.before s.want
  keys : s.dirty = false → s.want.Perm (tableKeys s.topics)
  failed : s.failed = true → s.dirty = true

theorem synced_init (ts : List Topic) : Synced { topics := ts } where
  sorted := List.Pairwise.nil
  keys h := by cases h
  failed h := by cases h

variable {s : WantState}

theorem Synced.changed (h : Synced s) (ts : List Topic) : Synced (s.changed ts) where
  sorted := h.sorted
  keys hd := by cases hd
  failed _ := rfl

/-- What a rebuild leaves: the table's keys, or a failure that every peer meets. -/
theorem wantRebuild_cases (al : WantAlloc) (s : WantState) :
    (tableKeys s.topics ≠ [] ∧ al.fresh = false ∧
      wantRebuild al s = { s with failed := true, addedAll := true }) ∨
    ((wantRebuild al s).want = shellSort Want.before (tableKeys s.topics) ∧
      (wantRebuild al s).dirty = false ∧ (wantRebuild al s).failed = false ∧
      (wantRebuild al s).topics = s.topics) := by
  unfold wantRebuild
  split
  next h => exact Or.inl ⟨h.1, h.2, rfl⟩
  next => exact Or.inr ⟨rfl, rfl, rfl, noteAdded_topics al _ _⟩

theorem wantRefresh_synced (al : WantAlloc) (h : Synced s) :
    Synced (wantRefresh al s) := by
  unfold wantRefresh
  split
  next hd =>
    rcases wantRebuild_cases al s with ⟨-, -, heq⟩ | ⟨hw, hdirty, hfail, htop⟩
    · rw [heq]
      exact ⟨h.sorted, fun hc => absurd (hd.symm.trans hc) (by decide), fun _ => hd⟩
    · refine ⟨?_, fun _ => ?_, fun hc => absurd (hfail.symm.trans hc) (by decide)⟩
      · rw [hw]
        exact shellSort_sorted strictWeak_before _
      · rw [hw, htop]
        exact shellSort_perm _ _
  next => exact h

/-- A refreshed set that did not fail is the table's. -/
theorem wantRefresh_keys (al : WantAlloc) (h : Synced s)
    (hf : (wantRefresh al s).failed = false) :
    (wantRefresh al s).want.Perm (tableKeys s.topics) := by
  by_cases hd : s.dirty = true
  · have heq : wantRefresh al s = wantRebuild al s := if_pos hd
    rw [heq] at hf ⊢
    rcases wantRebuild_cases al s with ⟨-, -, hfail⟩ | ⟨hw, -, -, -⟩
    · rw [hfail] at hf
      cases hf
    · rw [hw]
      exact shellSort_perm _ _
  · have heq : wantRefresh al s = s := if_neg hd
    rw [heq]
    exact h.keys (Bool.not_eq_true _ ▸ hd)

/-- Where the allocator gives the set its memory, a refresh does not fail. -/
theorem wantRefresh_fresh {al : WantAlloc} (h : Synced s) (hal : al.fresh = true) :
    (wantRefresh al s).failed = false := by
  by_cases hd : s.dirty = true
  · have heq : wantRefresh al s = wantRebuild al s := if_pos hd
    rw [heq]
    rcases wantRebuild_cases al s with ⟨-, hno, -⟩ | ⟨-, -, hfail, -⟩
    · rw [hal] at hno
      cases hno
    · exact hfail
  · have heq : wantRefresh al s = s := if_neg hd
    rw [heq]
    by_contra hc
    rw [Bool.not_eq_false] at hc
    exact hd (h.failed hc)

theorem tableKeys_append (ts us : List Topic) :
    tableKeys (ts ++ us) = tableKeys ts ++ tableKeys us := List.flatMap_append

/-- Undefined slots have no keys. -/
theorem tableKeys_undefined (n : Nat) : tableKeys (List.replicate n .undefined) = [] := by
  unfold tableKeys
  rw [List.flatMap_eq_nil_iff]
  intro t ht
  rw [List.eq_of_mem_replicate ht]
  rfl

theorem synced_step (s : WantState) (e : WantEvent) (h : Synced s) : Synced (s.step e) := by
  cases e with
  | define c d ok =>
    simp only [WantState.step]
    split
    next ts _ => exact h.changed ts
    next => exact h
  | retire c =>
    simp only [WantState.step]
    split
    next ts _ => exact h.changed ts
    next => exact h
  | reuse c d changed version ok =>
    simp only [WantState.step]
    split
    next ts _ => exact h.changed ts
    next => exact h
  | setRole c role =>
    simp only [WantState.step]
    split
    next ts _ => exact h.changed ts
    next => exact h
  | grow extra =>
    refine ⟨h.sorted, fun hd => ?_, h.failed⟩
    show s.want.Perm (tableKeys (s.topics ++ _))
    rw [tableKeys_append, tableKeys_undefined, List.append_nil]
    exact h.keys hd
  | refresh al => exact wantRefresh_synced al h
  | clear => exact ⟨h.sorted, h.keys, h.failed⟩

theorem synced_runs (ts : List Topic) (es : List WantEvent) : Synced (WantState.runs ts es) :=
  run_invariant Synced synced_step es _ (synced_init ts)

/-! ## The test -/

/-- Some topic of the table and some entry of the list meet. -/
def Meeting (ts : List Topic) (d : Bytes) : Prop :=
  ∃ t ∈ ts, ∃ e ∈ interestScan d, t.meets e

variable {ts : List Topic}

/-- A set that is the table's finds exactly the meetings. -/
theorem any_meetsEntry {want : List Want} (hs : Sorted Want.before want)
    (hk : want.Perm (tableKeys ts)) (d : Bytes) :
    (interestScan d).any (meetsEntry want) = true ↔ Meeting ts d := by
  rw [List.any_eq_true]
  constructor
  · rintro ⟨e, he, hm⟩
    obtain ⟨w, hw, hh, ht⟩ := (meetsEntry_iff hs e).mp hm
    obtain ⟨t, htm, hwt⟩ := List.mem_flatMap.mp (hk.mem_iff.mp hw)
    exact ⟨t, htm, e, he, (t.meets_iff_key e).mpr ⟨w, hwt, hh, ht⟩⟩
  · rintro ⟨t, htm, e, he, hmeets⟩
    obtain ⟨w, hwt, hh, ht⟩ := (t.meets_iff_key e).mp hmeets
    have hw := hk.mem_iff.mpr (List.mem_flatMap.mpr ⟨t, htm, hwt⟩)
    exact ⟨e, he, (meetsEntry_iff hs e).mpr ⟨w, hw, hh, ht⟩⟩

/-- The answer, by whether the rebuild failed. -/
theorem interestMeets_iff (al : WantAlloc) (h : Synced s) {d rest : Bytes}
    (hd : interestWalk d = some rest) : (interestMeets al s d).2 = true ↔
      (wantRefresh al s).failed = true ∨ Meeting s.topics d := by
  unfold interestMeets
  rw [hd]
  dsimp only
  rw [Bool.or_eq_true]
  by_cases hf : (wantRefresh al s).failed = true
  · simp [hf]
  · have hkeys := wantRefresh_keys al h (Bool.not_eq_true _ ▸ hf)
    rw [any_meetsEntry (wantRefresh_synced al h).sorted hkeys]

/-! ## Two nodes -/

/-- Two announced topics of two nodes meet: the one, by the other's entry. -/
def Topic.pairs (t u : Topic) : Prop := u.announced = true ∧ t.meets (u.entryAt 0)

variable {us : List Topic}

/-- A live entry is some topic's, and it does not matter where it stands. -/
theorem meeting_liveEntries (t : Topic) : ∀ c,
    (∃ e ∈ liveEntries c us, t.meets e) ↔ ∃ u ∈ us, t.pairs u := by
  induction us with
  | nil => intro c; simp [liveEntries]
  | cons u us ih =>
    intro c
    have hat : t.meets (u.entryAt c) ↔ t.meets (u.entryAt 0) := Iff.rfl
    unfold liveEntries
    by_cases hu : (u.announced && decide (u.role ≠ .inactive)) = true
    · rw [if_pos hu]
      rw [Bool.and_eq_true] at hu
      simp only [List.mem_cons, exists_eq_or_imp, ih (c + 1), hat]
      unfold Topic.pairs
      rw [and_iff_right hu.1]
    · rw [if_neg hu, ih (c + 1)]
      simp only [List.mem_cons, exists_eq_or_imp]
      refine (or_iff_right ?_).symm
      -- an entry that is off takes neither side
      rintro ⟨ha, -, -, hrow⟩
      have hoff : u.role = .inactive := by
        by_contra hc
        exact hu (by rw [ha, decide_eq_true hc]; rfl)
      have hpub : (u.entryAt 0).theirPub = false := by
        show (u.entryAt 0).role.pubs = false
        rw [u.entryAt_role, hoff]
        rfl
      have hsub : (u.entryAt 0).theirSub = false := by
        show (u.entryAt 0).role.subs = false
        rw [u.entryAt_role, hoff]
        rfl
      rw [hpub, hsub] at hrow
      rcases hrow with ⟨-, h⟩ | ⟨-, h⟩ | ⟨-, -, -, h, -⟩ | ⟨-, -, -, h, -⟩ <;> cases h

theorem TopicKind.code_inj {k l : TopicKind} (h : k.code = l.code) : k = l := by
  revert h
  cases k <;> cases l <;> decide

/-- Topics that agree on MULTI pair both ways or neither. -/
theorem Topic.pairs_symm {t u : Topic} (hm : t.hash32 = u.hash32 → t.multi = u.multi)
    (h : t.pairs u) : u.pairs t := by
  obtain ⟨hu, ht, hhash, hrow⟩ := h
  have hmulti := hm hhash
  refine ⟨ht, hu, hhash.symm, ?_⟩
  show (u.role.subs = true ∧ (t.entryAt 0).role.pubs = true) ∨
    (u.role.pubs = true ∧ (t.entryAt 0).role.subs = true) ∨
    (u.kind = .variable ∧ u.multi = false ∧ u.role.pubs = true ∧
      (t.entryAt 0).role.pubs = true ∧ (t.entryAt 0).kind = u.kind.code) ∨
    (u.kind.isRequest = true ∧ u.multi = false ∧ u.role.subs = true ∧
      (t.entryAt 0).role.subs = true ∧ (t.entryAt 0).kind = u.kind.code)
  rw [t.entryAt_role, t.entryAt_kind]
  unfold InterestEntry.theirPub InterestEntry.theirSub at hrow
  rw [u.entryAt_role, u.entryAt_kind] at hrow
  rcases hrow with ⟨h1, h2⟩ | ⟨h1, h2⟩ | ⟨h1, h2, h3, h4, h5⟩ | ⟨h1, h2, h3, h4, h5⟩
  · exact Or.inr (Or.inl ⟨h2, h1⟩)
  · exact Or.inl ⟨h2, h1⟩
  · exact Or.inr (Or.inr (Or.inl
      ⟨(TopicKind.code_inj h5).trans h1, hmulti.symm.trans h2, h4, h3, h5.symm⟩))
  · refine Or.inr (Or.inr (Or.inr ⟨?_, hmulti.symm.trans h2, h4, h3, h5.symm⟩))
    rw [TopicKind.code_inj h5]
    exact h1

/-- Announced topics of the two tables that carry one hash agree on MULTI. -/
def AgreeOnMulti (ts us : List Topic) : Prop :=
  ∀ t ∈ ts, ∀ u ∈ us, t.announced = true → u.announced = true → t.hash32 = u.hash32 →
    t.multi = u.multi

/-- The meetings with another node's list are the pairs of the two tables. -/
theorem meeting_emit (hn : us.length < 2 ^ 16) (ts : List Topic) :
    Meeting ts (interestEmit us) ↔ ∃ t ∈ ts, ∃ u ∈ us, t.pairs u := by
  unfold Meeting
  rw [(interestEmit_read hn).2]
  constructor
  · rintro ⟨t, ht, h⟩
    exact ⟨t, ht, (meeting_liveEntries t 0).mp h⟩
  · rintro ⟨t, ht, h⟩
    exact ⟨t, ht, (meeting_liveEntries t 0).mpr h⟩

theorem meeting_symm (hts : ts.length < 2 ^ 16) (hus : us.length < 2 ^ 16) (hm : AgreeOnMulti ts us)
    (h : Meeting ts (interestEmit us)) : Meeting us (interestEmit ts) := by
  obtain ⟨t, ht, u, hu, hp⟩ := (meeting_emit hus ts).mp h
  exact (meeting_emit hts us).mpr ⟨u, hu, t, ht,
    Topic.pairs_symm (hm t ht u hu hp.2.1 hp.1) hp⟩

theorem AgreeOnMulti.symm (h : AgreeOnMulti ts us) : AgreeOnMulti us ts :=
  fun u hu t ht ha ha' hh => (h t ht u hu ha' ha hh.symm).symm

/-! ## Details -/

/-- An entry whose details are wanted meets the topic preferred for its hash. -/
theorem detailWant_meets {schemas : Option (Nat → Nat)} {astate : List Nat} {e : InterestEntry}
    {want : Nat × Nat} (h : detailWant ts schemas astate e = some want) :
    ∃ t ∈ ts, t.meets e := by
  unfold detailWant at h
  split at h
  next => cases h
  split at h
  next => cases h
  next nc c hc =>
    dsimp only at h
    split at h
    next hside =>
      have hmem : c ∈ (List.range ts.length).filter fun i =>
          (topicAt ts i).announced && decide ((topicAt ts i).hash32 = e.hash) := by
        have hc2 := (Prod.mk.inj hc).2
        cases hfind : ((List.range ts.length).filter fun i =>
            (topicAt ts i).announced && decide ((topicAt ts i).hash32 = e.hash)).find?
            fun i => decide ((topicAt ts i).role ≠ .inactive) with
        | some i =>
          rw [hfind] at hc2
          rw [← Option.some.inj hc2]
          exact List.mem_of_find?_eq_some hfind
        | none =>
          rw [hfind] at hc2
          exact List.mem_of_head? hc2
      obtain ⟨hrange, hp⟩ := List.mem_filter.mp hmem
      rw [Bool.and_eq_true, decide_eq_true_eq] at hp
      rw [List.mem_range] at hrange
      have hat : topicAt ts c ∈ ts := by
        unfold topicAt
        rw [List.getD_eq_getElem?_getD, List.getElem?_eq_getElem hrange]
        exact List.getElem_mem hrange
      rw [Bool.or_eq_true, Bool.and_eq_true, Bool.and_eq_true] at hside
      refine ⟨topicAt ts c, hat, hp.1, hp.2, ?_⟩
      rcases hside with ⟨h1, h2⟩ | ⟨h1, h2⟩
      · exact Or.inl ⟨h2, h1⟩
      · exact Or.inr (Or.inl ⟨h2, h1⟩)
    next => cases h

theorem detailWants_meeting {schemas : Option (Nat → Nat)} {astate : List Nat} {d : Bytes}
    {maxWants : Nat} (h : detailWants ts schemas astate d maxWants ≠ []) :
    (∃ rest, interestWalk d = some rest) ∧ Meeting ts d := by
  unfold detailWants at h
  split at h
  next => exact absurd rfl h
  next rest hrest =>
    refine ⟨⟨rest, hrest⟩, ?_⟩
    obtain ⟨want, hwant⟩ := List.exists_mem_of_ne_nil _ h
    obtain ⟨e, he, hw⟩ := List.mem_filterMap.mp (List.mem_of_mem_take hwant)
    obtain ⟨t, ht, hm⟩ := detailWant_meets hw
    exact ⟨t, ht, e, he, hm⟩

/-! ## The result -/

/-- **The interest test.** In every state a run reaches, over any list: the search answers
the pairwise rule, whatever wants details is found, and two nodes that read each other's
list answer alike. -/
theorem interestMeets_spec (ts : List Topic) (es : List WantEvent) :
    (∀ d al, al.fresh = true → ((interestMeets al (WantState.runs ts es) d).2 = true ↔
      (∃ rest, interestWalk d = some rest) ∧ Meeting (WantState.runs ts es).topics d)) ∧
    (∀ d al schemas astate maxWants,
      detailWants (WantState.runs ts es).topics schemas astate d maxWants ≠ [] →
        (interestMeets al (WantState.runs ts es) d).2 = true) ∧
    ∀ us fs al al', al.fresh = true → al'.fresh = true →
      (WantState.runs ts es).topics.length < 2 ^ 16 →
      (WantState.runs us fs).topics.length < 2 ^ 16 →
      AgreeOnMulti (WantState.runs ts es).topics (WantState.runs us fs).topics →
        (interestMeets al (WantState.runs ts es) (interestEmit (WantState.runs us fs).topics)).2 =
          (interestMeets al' (WantState.runs us fs)
            (interestEmit (WantState.runs ts es).topics)).2 := by
  have htest : ∀ ts es d al, al.fresh = true →
      ((interestMeets al (WantState.runs ts es) d).2 = true ↔
        (∃ rest, interestWalk d = some rest) ∧ Meeting (WantState.runs ts es).topics d) := by
    intro ts es d al hal
    have hs := synced_runs ts es
    cases hd : interestWalk d with
    | none =>
      unfold interestMeets
      rw [hd]
      exact ⟨fun h => (by cases h), fun h => h.1.elim fun rest hr => (by cases hr)⟩
    | some rest =>
      rw [interestMeets_iff al hs hd, wantRefresh_fresh hs hal]
      simp
  refine ⟨htest ts es, ?_, ?_⟩
  · intro d al schemas astate maxWants hwants
    obtain ⟨⟨rest, hd⟩, hm⟩ := detailWants_meeting hwants
    exact (interestMeets_iff al (synced_runs ts es) hd).mpr (Or.inr hm)
  · intro us fs al al' hal hal' hlen hlen' hagree
    rw [Bool.eq_iff_iff, htest ts es _ al hal, htest us fs _ al' hal']
    have hread := (interestEmit_read hlen).1
    have hread' := (interestEmit_read hlen').1
    rw [and_iff_right hread, and_iff_right hread']
    exact ⟨meeting_symm hlen hlen' hagree, meeting_symm hlen' hlen hagree.symm⟩

/-- A variable's owner, its name and whether a second owner is intended. -/
def ownerDef (name : Bytes) (attrs : Nat) : TopicDef where
  name := name
  qos := ⟨.bestEffort, 1, 0, 0, 0, 0, false⟩
  role := .pubOnly
  kind := .variable
  attrs := attrs
  prefixBytes := 0
  directed := false

/-- A node of the one variable `gzuc`. -/
def soleNode : WantState := WantState.runs [.undefined] [.define 0 (ownerDef [103, 122, 117, 99] 0) true]

/-- A node of the one variable `dbaaa`, which is MULTI. The two names carry one hash. -/
def multiNode : WantState :=
  WantState.runs [.undefined] [.define 0 (ownerDef [100, 98, 97, 97, 97] 2) true]

/-- Agreement on MULTI name by name is not enough: the entries carry 32 bit hashes, and two
names of one hash may differ in it. -/
theorem hash_collision_asymmetric :
    (∀ t ∈ soleNode.topics, ∀ u ∈ multiNode.topics, t.name = u.name → t.multi = u.multi) ∧
      (interestMeets {} soleNode (interestEmit multiNode.topics)).2 = true ∧
      (interestMeets {} multiNode (interestEmit soleNode.topics)).2 = false := by
  decide +kernel

/-- A node that reads the variable `gzuc`. -/
def readerNode : WantState :=
  WantState.runs [.undefined] [.define 0 { ownerDef [103, 122, 117, 99] 0 with role := .subOnly } true]

/-- An owner and a reader of one variable judge each other alike, and the owner's list is one
the reader wants the details of. -/
theorem interestMeets_spec_reader :
    (interestMeets {} readerNode (interestEmit soleNode.topics)).2 =
        (interestMeets {} soleNode (interestEmit readerNode.topics)).2 ∧
      (interestMeets {} readerNode (interestEmit soleNode.topics)).2 = true ∧
      Meeting readerNode.topics (interestEmit soleNode.topics) := by
  have h := interestMeets_spec [.undefined]
    [.define 0 { ownerDef [103, 122, 117, 99] 0 with role := .subOnly } true]
  have hyes := h.2.1 (interestEmit soleNode.topics) {} none [] 1 (by decide +kernel)
  refine ⟨h.2.2 [.undefined] [.define 0 (ownerDef [103, 122, 117, 99] 0) true] {} {} rfl rfl
    (by decide +kernel) (by decide +kernel) (fun t ht u hu _ _ _ => ?_), hyes,
    ((h.1 _ {} rfl).mp hyes).2⟩
  have hr : ∀ x ∈ readerNode.topics, x.multi = false := by decide +kernel
  have hs : ∀ x ∈ soleNode.topics, x.multi = false := by decide +kernel
  exact (hr t ht).trans (hs u hu).symm

end Rant.Transport
