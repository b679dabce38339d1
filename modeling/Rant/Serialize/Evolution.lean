import Rant.Serialize.Evolve
/-!
# Schema evolution

A path the reader's schema knows leads, in the publisher's, to the mirrored row at the
same indices (`pathWalk_image`). With the accessors of `Evolve` that is what a reader is
promised: of a message its publisher's schema accepts, the rebased view reads every field
the reader declares as the publisher's schema reads the field of that name.
-/

namespace Rant.Serialize

open Rant.Lib

/-! ## Paths of one shape -/

section
variable {s v : Schema} (hv : SameShape s v)
include hv

theorem childFrom_shape {name : Bytes} {stop n : Nat} :
    ∀ {k : Nat}, childFrom v name n k stop = childFrom s name n k stop := by
  induction n with
  | zero => intro k; rfl
  | succ n ih =>
    intro k
    unfold childFrom
    rw [hv.2 k]
    dsimp only
    rw [ih]

theorem schemaChild_shape {p : Option Nat} {name : Bytes} :
    schemaChild v p name = schemaChild s p name := by
  unfold schemaChild
  cases p with
  | none =>
    dsimp only
    rw [hv.1, childFrom_shape hv]
  | some p =>
    dsimp only
    rw [hv.1, hv.next, childFrom_shape hv]

theorem intoElems_shape {room : Nat} : ∀ {cur : Nat} {got : List Nat},
    intoElems v room cur got = intoElems s room cur got := by
  induction room with
  | zero =>
    intro cur got
    unfold intoElems
    rw [hv.kind]
  | succ room ih =>
    intro cur got
    unfold intoElems
    rw [hv.kind, ih]

theorem indexSteps_shape {room : Nat} : ∀ {cur : Nat} {got : List Nat} {path : Bytes},
    indexSteps v room cur got path = indexSteps s room cur got path := by
  induction room with
  | zero =>
    intro cur got path
    rw [indexSteps.eq_def, indexSteps.eq_def s]
    split
    next =>
      split
      next heq => cases heq
      next => rfl
    next => rfl
  | succ room ih =>
    intro cur got path
    rw [indexSteps.eq_def, indexSteps.eq_def s]
    split
    next =>
      split
      next heq =>
        obtain rfl := Nat.succ.inj heq
        rw [hv.kind, ih]
      next => rfl
    next => rfl

theorem pathWalk_shape {n : Nat} : ∀ {cur : Option Nat} {got : List Nat} {path : Bytes},
    pathWalk v n cur got path = pathWalk s n cur got path := by
  have hparent : ∀ cur got seg, pathParent v cur got seg = pathParent s cur got seg := by
    intro cur got seg
    unfold pathParent
    cases cur with
    | none => rfl
    | some c =>
      dsimp only
      rw [intoElems_shape hv]
      congr 1
      funext x
      rw [hv.kind]
  induction n with
  | zero => intro cur got path; rfl
  | succ n ih =>
    intro cur got path
    unfold pathWalk
    dsimp only
    rw [hparent]
    split
    next => rfl
    rw [schemaChild_shape hv]
    split
    next => rfl
    next => rfl
    next =>
      rw [indexSteps_shape hv]
      split
      next => rfl
      next => rw [hv.2]
      next => exact ih
      next => rfl

/-- A view looks its paths up as the reader's schema does. -/
theorem fieldByPath_shape (path : Bytes) : fieldByPath v path = fieldByPath s path := by
  unfold fieldByPath
  split
  next => rfl
  next => rfl
  next => exact pathWalk_shape hv

end

/-! ## The path in the publisher's table -/

section
variable {s : Schema} {t₀ : Table}

/-- The search at the root walks the top level fields and stops at the first of the name. -/
theorem Built.childFrom_top (hb : Built s t₀) (name : Bytes) {n : Nat} : ∀ {k : Nat},
    (k < s.nfields → (s.row k).parent = none) → s.nfields < k + n → 0 < n →
    ∃ o, childFrom s name n k s.nfields = some o ∧
      (∀ f, o = some f → f < s.nfields ∧ (s.row f).parent = none ∧ (s.row f).name = name) ∧
      ∀ f, k ≤ f → f < s.nfields → (s.row f).parent = none → (s.row f).name = name →
        (∀ g, g < f → (s.row g).depth = 0 → (s.row g).name ≠ name) → o = some f := by
  induction n with
  | zero => intro k _ _ hpos; exact absurd hpos (Nat.lt_irrefl 0)
  | succ n ih =>
    intro k htop hn _
    unfold childFrom
    split
    next hk =>
      have hnext := hb.lt_next hk
      split
      next hname =>
        refine ⟨some k, rfl, fun f hf => ?_, fun f hkf hf hft hfn hfirst => ?_⟩
        · obtain rfl := Option.some.inj hf
          exact ⟨hk, htop hk, hname⟩
        · by_cases hkf' : k = f
          · rw [hkf']
          · exact absurd hname (hfirst k (by omega) ((hb.depth_zero hk).mpr (htop hk)))
      next hname =>
        obtain ⟨o, ho, hsound, hfinds⟩ := ih (k := (s.row k).next)
          (fun hlt => hb.top_next hk (htop hk) hlt) (by omega) (by omega)
        refine ⟨o, ho, hsound, fun f hkf hf hft hfn hfirst => ?_⟩
        have hne : f ≠ k := by
          rintro rfl
          exact hname hfn
        have hpast : (s.row k).next ≤ f := by
          by_cases hc : (s.row k).next ≤ f
          · exact hc
          · obtain ⟨q, hq, -⟩ := hb.parent_inside hk (j := f) (by omega) (by omega)
            cases hft.symm.trans hq
        exact hfinds f hpast hf hft hfn hfirst
    next hk =>
      refine ⟨none, rfl, fun f hf => (by cases hf), fun f hkf hf => ?_⟩
      omega

end

section
variable {sub pub : Schema} {t₀ u₀ : Table}

/-- What a path leads to in the two tables: mirrored rows. -/
def Image (sub pub : Schema) (f g : Nat) : Prop :=
  ∃ i j k, Mirror sub pub i j ∧ schemaFind pub (sub.row i).name = some j ∧
    i + k < (sub.row i).next ∧ f = i + k ∧ g = j + k

section
variable (hs : Built sub t₀) (hp : Built pub u₀)
include hs hp

omit hp in
/-- Below a struct the search passes mirrored members. -/
theorem childFrom_image {i j : Nat} (hm : Mirror sub pub i j) {name : Bytes} {stop n : Nat}
    (hstop : stop ≤ (sub.row i).next) : ∀ {k m f : Nat}, 0 < k → stop + j < j + k + m + i →
      0 < m → childFrom sub name n (i + k) stop = some (some f) →
      ∃ c, f = i + c ∧ i + c < (sub.row i).next ∧
        childFrom pub name m (j + k) (stop - i + j) = some (some (j + c)) := by
  induction n with
  | zero => intro k n' f _ _ _ h; cases h
  | succ n ih =>
    intro k n' f hk hn hpos h
    obtain ⟨n', rfl⟩ : ∃ m, n' = m + 1 := ⟨n' - 1, by omega⟩
    unfold childFrom at h ⊢
    split at h
    next hlt =>
      have hrow := hm.rows k (by omega)
      have hle := hs.next_le hm.lt
      have hnext := hs.lt_next (j := i + k) (by omega)
      rw [if_pos (by omega), hm.names k hk (by omega)]
      split at h
      next hname =>
        rw [if_pos hname]
        obtain rfl := Option.some.inj (Option.some.inj h)
        exact ⟨k, rfl, by omega, rfl⟩
      next hname =>
        rw [if_neg hname]
        obtain ⟨d, hd⟩ : ∃ d, (sub.row (i + k)).next = i + d := ⟨(sub.row (i + k)).next - i, by omega⟩
        rw [hd] at h
        rw [show (pub.row (j + k)).next = j + d by omega]
        exact ih (by omega) (by omega) (by omega) h
    next => cases h

theorem schemaChild_image (hsub : subset sub pub = true) {p p' : Option Nat} {name : Bytes}
    {f : Nat} (hpar : (p = none ∧ p' = none) ∨
      ∃ q q', p = some q ∧ p' = some q' ∧ Image sub pub q q')
    (h : schemaChild sub p name = some (some f)) :
    ∃ g, schemaChild pub p' name = some (some g) ∧ Image sub pub f g := by
  rcases hpar with ⟨rfl, rfl⟩ | ⟨q, q', rfl, rfl, i, j, k, hm, hfind, hk, rfl, rfl⟩
  · obtain ⟨o, ho, hsound, -⟩ := hs.childFrom_top name (n := sub.nfields + 1) (k := 0)
      hs.top_first (by omega) (Nat.succ_pos _)
    obtain rfl := Option.some.inj (ho.symm.trans h)
    obtain ⟨hf, htop, hname⟩ := hsound f rfl
    obtain ⟨j, hfind, hm⟩ := subset_mirror hs hp hsub hf htop
    obtain ⟨hj, hjd, hjn, hfirst⟩ := schemaFind_some hfind
    obtain ⟨o', ho', -, hfinds⟩ := hp.childFrom_top name (n := pub.nfields + 1) (k := 0)
      hp.top_first (by omega) (Nat.succ_pos _)
    have hoj := hfinds j (Nat.zero_le j) hj hm.top' (hjn.trans hname) fun g hg hd => by
      rw [← hname]
      exact hfirst g hg hd
    subst hoj
    exact ⟨j, ho', f, j, 0, hm, hfind, hs.lt_next hf, rfl, rfl⟩
  · have hle := hs.next_le hm.lt
    have hle' := hp.next_le hm.lt'
    have hlen := hm.len
    have hnest := hs.next_nested hm.lt (j := i + k) (by omega) hk
    have hrow := (hm.rows k hk).2
    have hnext := hs.lt_next (j := i + k) (by omega)
    obtain ⟨c, rfl, hc, hchild⟩ := childFrom_image hs hm hnest (k := k + 1)
      (m := pub.nfields + 1) (Nat.succ_pos k) (by omega) (Nat.succ_pos _) h
    refine ⟨j + c, ?_, i, j, c, hm, hfind, hc, rfl, rfl⟩
    show childFrom pub name (pub.nfields + 1) (j + k + 1) (pub.row (j + k)).next = _
    rw [show (pub.row (j + k)).next = (sub.row (i + k)).next - i + j by omega]
    exact hchild

omit hp in
/-- A step into an array's element is a step into the mirrored array's. -/
theorem Image.elem {f g : Nat} (h : Image sub pub f g) (hk : (sub.row f).kind.isArray = true) :
    Image sub pub (f + 1) (g + 1) := by
  obtain ⟨i, j, k, hm, hfind, hk', rfl, rfl⟩ := h
  have hle := hs.next_le hm.lt
  obtain ⟨hlt, hnext, -⟩ := hs.elem (a := i + k) (by omega) hk
  have hn := hs.lt_next hlt
  have hnest := hs.next_nested hm.lt (j := i + k) (by omega) hk'
  exact ⟨i, j, k + 1, hm, hfind, by omega, rfl, rfl⟩

omit hs hp in
theorem Image.kind {f g : Nat} (h : Image sub pub f g) : (pub.row g).kind = (sub.row f).kind := by
  obtain ⟨i, j, k, hm, -, hk, rfl, rfl⟩ := h
  exact (hm.rows k hk).1.kind

theorem Image.arrDepth {f g : Nat} (h : Image sub pub f g) :
    (pub.row g).arrDepth = (sub.row f).arrDepth := by
  obtain ⟨i, j, k, hm, -, hk, rfl, rfl⟩ := h
  exact arrDepth_pair hs hp hm hk

omit hp in
theorem intoElems_image {room : Nat} : ∀ {cur cur' : Nat} {got : List Nat} {f : Nat}
    {got' : List Nat}, Image sub pub cur cur' → intoElems sub room cur got = some (f, got') →
    ∃ g, intoElems pub room cur' got = some (g, got') ∧ Image sub pub f g := by
  induction room with
  | zero =>
    intro cur cur' got f got' him h
    unfold intoElems at h ⊢
    rw [him.kind]
    split at h
    next => cases h
    next hk =>
      simp only [Option.some.injEq, Prod.mk.injEq] at h
      obtain ⟨rfl, rfl⟩ := h
      rw [if_neg hk]
      exact ⟨cur', rfl, him⟩
  | succ room ih =>
    intro cur cur' got f got' him h
    unfold intoElems at h ⊢
    rw [him.kind]
    split at h
    next hk =>
      rw [if_pos hk]
      exact ih (him.elem hs hk) h
    next hk =>
      simp only [Option.some.injEq, Prod.mk.injEq] at h
      obtain ⟨rfl, rfl⟩ := h
      rw [if_neg hk]
      exact ⟨cur', rfl, him⟩

omit hp in
theorem indexSteps_image {room : Nat} : ∀ {cur cur' : Nat} {got : List Nat} {path : Bytes}
    {f : Nat} {got' : List Nat} {rest : Bytes}, Image sub pub cur cur' →
    indexSteps sub room cur got path = some (f, got', rest) →
    ∃ g, indexSteps pub room cur' got path = some (g, got', rest) ∧ Image sub pub f g := by
  induction room with
  | zero =>
    intro cur cur' got path f got' rest him h
    rw [indexSteps.eq_def] at h ⊢
    split at h
    next =>
      split at h
      next heq => cases heq
      next => cases h
    next =>
      simp only [Option.some.injEq, Prod.mk.injEq] at h
      obtain ⟨rfl, rfl, rfl⟩ := h
      exact ⟨cur', rfl, him⟩
  | succ room ih =>
    intro cur cur' got path f got' rest him h
    rw [indexSteps.eq_def] at h ⊢
    split at h
    next p =>
      split at h
      next idx rest' room' hidx heq =>
        obtain rfl := Nat.succ.inj heq
        rw [him.kind]
        split at h
        next => cases h
        next hk =>
          rw [if_neg hk]
          rw [Bool.not_eq_false] at hk
          exact ih (him.elem hs hk) h
      next => cases h
    next =>
      simp only [Option.some.injEq, Prod.mk.injEq] at h
      obtain ⟨rfl, rfl, rfl⟩ := h
      exact ⟨cur', rfl, him⟩

omit hp in
theorem pathParent_image {cur cur' : Option Nat} {got : List Nat} {seg : Bytes}
    {parent : Option Nat} {got' : List Nat}
    (hcur : (cur = none ∧ cur' = none) ∨
      ∃ q q', cur = some q ∧ cur' = some q' ∧ Image sub pub q q')
    (h : pathParent sub cur got seg = some (parent, got')) :
    ∃ parent', pathParent pub cur' got seg = some (parent', got') ∧
      ((parent = none ∧ parent' = none) ∨
        ∃ q q', parent = some q ∧ parent' = some q' ∧ Image sub pub q q') := by
  unfold pathParent at h ⊢
  rcases hcur with ⟨rfl, rfl⟩ | ⟨q, q', rfl, rfl, him⟩
  · simp only [Option.some.injEq, Prod.mk.injEq] at h
    obtain ⟨rfl, rfl⟩ := h
    exact ⟨none, rfl, Or.inl ⟨rfl, rfl⟩⟩
  · simp only [Option.bind_eq_bind] at h ⊢
    obtain ⟨⟨c, got₁⟩, hinto, h⟩ := Option.bind_eq_some_iff.mp h
    obtain ⟨c', hinto', him'⟩ := intoElems_image hs him hinto
    rw [hinto', Option.bind_some]
    dsimp only at h ⊢
    rw [him'.kind]
    split at h
    next => cases h
    next hk =>
      rw [if_neg hk]
      simp only [Option.some.injEq, Prod.mk.injEq] at h
      obtain ⟨rfl, rfl⟩ := h
      exact ⟨some c', rfl, Or.inr ⟨c, c', rfl, rfl, him'⟩⟩

/-- A walk that ends at a row of the reader's ends at its image in the publisher's, at the
same indices. -/
theorem pathWalk_image (hsub : subset sub pub = true) {n : Nat} :
    ∀ {cur cur' : Option Nat} {got : List Nat} {path : Bytes} {f : Nat} {elems : List Nat},
      ((cur = none ∧ cur' = none) ∨
        ∃ q q', cur = some q ∧ cur' = some q' ∧ Image sub pub q q') →
      pathWalk sub n cur got path = some (some (f, elems)) →
      ∃ g, pathWalk pub n cur' got path = some (some (g, elems)) ∧ Image sub pub f g := by
  induction n with
  | zero => intro cur cur' got path f elems _ h; cases h
  | succ n ih =>
    intro cur cur' got path f elems hcur h
    unfold pathWalk at h ⊢
    dsimp only at h ⊢
    split at h
    next => cases h
    next parent got₁ hpar =>
      obtain ⟨parent', hpar', himp⟩ := pathParent_image hs hcur hpar
      rw [hpar']
      dsimp only
      split at h
      next => cases h
      next => cases h
      next c hchild =>
        obtain ⟨c', hchild', himc⟩ := schemaChild_image hs hp hsub himp hchild
        rw [hchild']
        dsimp only
        split at h
        next => cases h
        next c₁ got₂ hsteps =>
          obtain ⟨c₁', hsteps', him₁⟩ := indexSteps_image hs himc hsteps
          rw [hsteps']
          dsimp only
          rw [him₁.arrDepth hs hp]
          split at h
          next hd =>
            simp only [Option.some.injEq, Prod.mk.injEq] at h
            obtain ⟨rfl, rfl⟩ := h
            rw [if_pos hd]
            exact ⟨c₁', rfl, him₁⟩
          next => cases h
        next c₁ got₂ rest hsteps =>
          obtain ⟨c₁', hsteps', him₁⟩ := indexSteps_image hs himc hsteps
          rw [hsteps']
          exact ih (Or.inr ⟨c₁, c₁', rfl, rfl, him₁⟩) h
        next => cases h

theorem fieldByPath_image (hsub : subset sub pub = true) {path : Bytes} {f : Nat}
    {elems : List Nat} (h : fieldByPath sub path = some (some (f, elems))) :
    ∃ g, fieldByPath pub path = some (some (g, elems)) ∧ Image sub pub f g := by
  unfold fieldByPath at h ⊢
  split at h
  next => cases h
  next => cases h
  next => exact pathWalk_image hs hp hsub (Or.inl ⟨rfl, rfl⟩) h

end

/-! ## What a reader is promised -/

/-- The getters of two schemas agree at a path. An enum's option name is each schema's own:
only its number is the message's. -/
structure SameReads (s s' : Schema) (msg path : Bytes) : Prop where
  uint : getUint s msg path = getUint s' msg path
  int : getInt s msg path = getInt s' msg path
  f64 : getF64 s msg path = getF64 s' msg path
  f32 : getF32 s msg path = getF32 s' msg path
  array : getArray s msg path = getArray s' msg path
  arrayCount : getArrayCount s msg path = getArrayCount s' msg path
  string : getString s msg path = getString s' msg path
  map : getMap s msg path = getMap s' msg path

/-- Two getters agree where their paths lead to one span and they read it alike. -/
theorem getBy_congr {α : Type} {zero : α} {read read' : Nat → Span → Option α} {s s' : Schema}
    {msg path : Bytes} {f g : Nat} {elems : List Nat}
    (hf : fieldByPath s path = some (some (f, elems)))
    (hg : fieldByPath s' path = some (some (g, elems)))
    (hres : resolve s msg f elems none = resolve s' msg g elems none)
    (hread : ∀ sp, read f sp = read' g sp) :
    getBy zero read s msg path = getBy zero read' s' msg path := by
  unfold getBy readLookup
  rw [hf, hg]
  dsimp only
  rw [hres]
  cases resolve s' msg g elems none with
  | none => rfl
  | some o =>
    cases o with
    | none => rfl
    | some found => exact hread found.1

/-- The view's getters read a mirrored field as the publisher's do. -/
theorem Through.sameReads {v : Schema} {i j k : Nat} (hs : Built sub t₀) (hp : Built pub u₀)
    (h : Through sub pub v i j) (hk : i + k < (sub.row i).next) {msg path : Bytes}
    {elems : List Nat} (hf : fieldByPath v path = some (some (i + k, elems)))
    (hg : fieldByPath pub path = some (some (j + k, elems))) : SameReads v pub msg path := by
  have hres := h.resolve_view hs hp msg elems none hk
  have hkind := h.kind hk
  refine ⟨?_, ?_, ?_, ?_, ?_, ?_, ?_, ?_⟩ <;> refine getBy_congr hf hg hres fun sp => ?_
  · rw [hkind]
    split
    next he => rw [h.backing hk he]
    next => rfl
  · rw [hkind]
    split
    next he => rw [h.backing hk he]
    next => rfl
  · rw [hkind]
  · rw [hkind]
  · exact h.arrayPacked_view hs msg sp hk
  · rw [hkind]
    split
    next => rfl
    next hka =>
      rw [Bool.not_eq_false] at hka
      rw [h.arrayLive_view hs hk hka]
  · rw [hkind]
    split
    next => rfl
    split
    next => rfl
    next hks =>
      rw [ne_eq, Decidable.not_not] at hks
      rw [h.strCap hk hks]
  · rw [hkind]

end

/-- **Schema evolution is sound.** Where the reader's schema is a subset of the
publisher's, rebasing it succeeds; a message the publisher's schema accepts is accepted by
the rebased view; every row of the reader's reads as a publisher's row of its name; and
every path the reader knows leads the publisher's getters to the same value. -/
theorem evolution_sound {ws wp : Bytes} {sub pub : Schema} (hs : compile ws = some sub)
    (hp : compile wp = some pub) (hsub : subset sub pub = true) {msg : Bytes}
    (hval : validate pub msg = some true) :
    ∃ v, rebase sub pub = some v ∧ validate v msg = some true ∧
      (∀ f, f < sub.nfields → ∃ g, g < pub.nfields ∧ (pub.row g).name = (sub.row f).name ∧
        ∀ elems, getValueAt v msg f elems = getValueAt pub msg g elems) ∧
      ∀ path f elems, fieldByPath sub path = some (some (f, elems)) →
        fieldByPath v path = some (some (f, elems)) ∧
        ∃ g, fieldByPath pub path = some (some (g, elems)) ∧
          getValueAt v msg f elems = getValueAt pub msg g elems ∧ SameReads v pub msg path := by
  obtain ⟨hws, t₀, hbs⟩ := compile_built hs
  obtain ⟨-, u₀, hbp⟩ := compile_built hp
  obtain ⟨v, hv, hview⟩ := rebase_view hbs hbp (by rw [hws]; exact hs) hsub
  refine ⟨v, hv, validate_view hbs hbp hview hval, fun f hf => ?_, fun path f elems hpath => ?_⟩
  · obtain ⟨i, hif, hfn, htop⟩ := hbs.top_of hf
    obtain ⟨j, hfind, h⟩ := hview.through (i := i) (by omega) htop
    obtain ⟨k, rfl⟩ : ∃ k, f = i + k := ⟨f - i, by omega⟩
    have hle' := hbp.next_le h.mirror.lt'
    have hlen := h.mirror.len
    refine ⟨j + k, by omega, ?_, fun elems => h.getValueAt_view hbs hbp hfn⟩
    cases k with
    | zero => exact (schemaFind_some hfind).2.2.1
    | succ k => exact h.mirror.names (k + 1) (Nat.succ_pos k) hfn
  · obtain ⟨g, hg, i, j, k, hm, hfind, hk, rfl, rfl⟩ := fieldByPath_image hbs hbp hsub hpath
    have hfv := (fieldByPath_shape hview.shape path).trans hpath
    obtain ⟨j', hfind', h⟩ := hview.through hm.lt hm.top
    obtain rfl := Option.some.inj (hfind.symm.trans hfind')
    exact ⟨hfv, j + k, hg, h.getValueAt_view hbs hbp hk, h.sameReads hbs hbp hk hfv hg⟩

/-- A reader's struct `A` that knows only the array `v`. -/
def tailWire : Bytes := [8, 1, 65, 12, 1, 1, 118, 15, 0]

/-- Its schema. -/
def tailSchema : Schema :=
  { wire := tailWire, name := [65], size := 0, msgMin := 4, nVar := 1, valueRoot := false
    fields :=
      [{ name := [118], typeOff := 7, typeLen := 2, next := 2, kind := .varr, var := true },
       { size := 1, typeOff := 8, typeLen := 1, depth := 1, parent := some 0, next := 2
         arrParent := some 0, arrDepth := 1 }] }

/-- A reader of `v` alone, over a message that carries `x` before it. -/
theorem evolution_sound_tail : ∃ v, rebase tailSchema pairSchema = some v ∧
    validate v [7, 2, 0, 0, 0, 5, 6] = some true ∧
    SameReads v pairSchema [7, 2, 0, 0, 0, 5, 6] [118, 91, 49, 93] := by
  have hsub : compile tailWire = some tailSchema := by decide +kernel
  have hpub : compile pairWire = some pairSchema := by decide +kernel
  have hpath : fieldByPath tailSchema [118, 91, 49, 93] = some (some (1, [1])) := by
    decide +kernel
  have hpubval : validate pairSchema [7, 2, 0, 0, 0, 5, 6] = some true := by decide +kernel
  obtain ⟨v, hv, hval, -, hreads⟩ := evolution_sound hsub hpub (by decide +kernel) hpubval
  obtain ⟨-, g, -, -, hsame⟩ := hreads _ 1 [1] hpath
  exact ⟨v, hv, hval, hsame⟩

end Rant.Serialize
