import Rant.Serialize.Rebase
/-!
# Reading a publisher's message through the reader's schema

Below a mirrored field every accessor of the rebased view computes what the publisher's
computes, read for read: the same record, the same frame, the same element (`locate_view`,
`arrayElem_view`, `resolve_view`). The validator of the view checks a part of what the
publisher's checked: a frame the reader does not declare is hopped over.
-/

namespace Rant.Serialize

open Rant.Lib

/-- The view `v` over one field: its rows from `i` on read at the publisher's from `j` on. -/
structure Through (sub pub v : Schema) (i j : Nat) : Prop where
  mirror : Mirror sub pub i j
  shape : SameShape sub v
  size : v.size = pub.size
  nVar : v.nVar = pub.nVar
  place : ∀ k, i + k < (sub.row i).next → (v.row (i + k)).offset = (pub.row (j + k)).offset ∧
    (v.row (i + k)).varOrd = (pub.row (j + k)).varOrd

theorem View.through {sub pub v : Schema} (h : View sub pub v) {i : Nat} (hi : i < sub.nfields)
    (htop : (sub.row i).parent = none) :
    ∃ j, schemaFind pub (sub.row i).name = some j ∧ Through sub pub v i j := by
  obtain ⟨j, hfind, hm, hplace⟩ := h.place i hi htop
  exact ⟨j, hfind, hm, h.shape, h.size, h.nVar, hplace⟩

section
variable {sub pub v : Schema} {t₀ u₀ : Table} {i j : Nat}

namespace Through

variable (h : Through sub pub v i j)
include h

variable {k : Nat}

theorem kind (hk : i + k < (sub.row i).next) :
    (v.row (i + k)).kind = (pub.row (j + k)).kind := by
  rw [h.shape.kind, (h.mirror.rows k hk).1.kind]

theorem sizeOf (hk : i + k < (sub.row i).next) :
    (v.row (i + k)).size = (pub.row (j + k)).size := by
  rw [h.shape.size, (h.mirror.size k hk).1]

theorem var (hk : i + k < (sub.row i).next) :
    (v.row (i + k)).var = (pub.row (j + k)).var := by
  rw [h.shape.var, (h.mirror.size k hk).2]

theorem count (hk : i + k < (sub.row i).next)
    (hka : (pub.row (j + k)).kind.isArray = true) :
    (v.row (i + k)).count = (pub.row (j + k)).count := by
  have hrow := (h.mirror.rows k hk).1
  rw [h.shape.2, hrow.count (by rw [← hrow.kind]; exact hka)]

theorem strCap (hk : i + k < (sub.row i).next) (hks : (pub.row (j + k)).kind = .str) :
    (v.row (i + k)).strCap = (pub.row (j + k)).strCap := by
  have hrow := (h.mirror.rows k hk).1
  rw [h.shape.2, hrow.strCap (hrow.kind.symm.trans hks)]

theorem backing (hk : i + k < (sub.row i).next)
    (hks : (pub.row (j + k)).kind = .enum) :
    (v.row (i + k)).backing = (pub.row (j + k)).backing := by
  have hrow := (h.mirror.rows k hk).1
  rw [h.shape.2, hrow.backing (hrow.kind.symm.trans hks)]

/-- An array's element lies in the field. -/
theorem elem_inside (hs : Built sub t₀) (hk : i + k < (sub.row i).next)
    (hka : (pub.row (j + k)).kind.isArray = true) : i + (k + 1) < (sub.row i).next := by
  have hle := hs.next_le h.mirror.lt
  have hka' : (sub.row (i + k)).kind.isArray = true := by
    rw [← (h.mirror.rows k hk).1.kind]
    exact hka
  obtain ⟨hlt, hnext, -⟩ := hs.elem (a := i + k) (by omega) hka'
  have hn := hs.lt_next hlt
  have hnest := hs.next_nested h.mirror.lt (j := i + k) (by omega) hk
  omega

theorem framed (hs : Built sub t₀) (hp : Built pub u₀)
    (hk : i + k < (sub.row i).next) :
    rowFramed v.fields (v.row (i + k)) = rowFramed pub.fields (pub.row (j + k)) := by
  rw [h.shape.framed, framed_pair hs hp h.mirror hk]

theorem recSize {o : Option Nat} (ho : ∀ e, o = some e → i + e < (sub.row i).next) :
    v.recSize (o.map (i + ·)) = pub.recSize (o.map (j + ·)) := by
  cases o with
  | none => exact h.size
  | some e => exact h.sizeOf (ho e rfl)

theorem recFrames (hs : Built sub t₀) (hp : Built pub u₀) {o : Option Nat}
    (ho : ∀ e, o = some e → i + e < (sub.row i).next) :
    v.recFrames (o.map (i + ·)) = pub.recFrames (o.map (j + ·)) := by
  cases o with
  | none => exact h.nVar
  | some e =>
    show (v.row (i + e)).nVar = pub.recFrames (some (j + e))
    rw [recFrames_pair hs hp h.mirror (ho e rfl), h.shape.2]
    rfl

/-! ## The accessors -/

variable {msg : Bytes}

theorem locate_view (hs : Built sub t₀) (hp : Built pub u₀) {o : Option Nat} {rg : Span}
    {cr : Option (List Carry)} (ho : ∀ e, o = some e → i + e < (sub.row i).next)
    (hk : i + k < (sub.row i).next) :
    locate v msg rg (o.map (i + ·)) (i + k) cr = locate pub msg rg (o.map (j + ·)) (j + k) cr := by
  have hself : ∀ b : Nat, o.map (b + ·) = some (b + k) ↔ o = some k := by
    intro b
    cases o <;> simp
  have hframe : recordFrame v msg rg (o.map (i + ·)) (v.row (i + k)).varOrd =
      recordFrame pub msg rg (o.map (j + ·)) (pub.row (j + k)).varOrd := by
    unfold recordFrame
    rw [h.recFrames hs hp ho, h.recSize ho, (h.place k hk).2]
  unfold locate
  rw [h.framed hs hp hk, h.sizeOf hk, hframe, (h.place k hk).1]
  by_cases hok : o = some k
  · rw [if_pos ((hself i).mpr hok), if_pos ((hself j).mpr hok)]
  · rw [if_neg fun hc => hok ((hself i).mp hc), if_neg fun hc => hok ((hself j).mp hc)]

theorem arrayLive_view (hs : Built sub t₀) {sp : Span}
    (hk : i + k < (sub.row i).next) (hka : (pub.row (j + k)).kind.isArray = true) :
    arrayLive v msg (i + k) sp = arrayLive pub msg (j + k) sp := by
  have he := h.elem_inside hs hk hka
  have hvar : (v.row (i + k + 1)).var = (pub.row (j + k + 1)).var := h.var he
  have hsize : (v.row (i + k + 1)).size = (pub.row (j + k + 1)).size := h.sizeOf he
  unfold arrayLive
  rw [hvar, hsize, h.kind hk, h.count hk hka]

theorem arrayElem_view (hs : Built sub t₀) {e : Nat} {sp : Span} {cr : Option (List Carry)}
    (hk : i + k < (sub.row i).next) (hka : (pub.row (j + k)).kind.isArray = true) :
    arrayElem v msg (i + k) sp e cr = arrayElem pub msg (j + k) sp e cr := by
  have he := h.elem_inside hs hk hka
  have hvar : (v.row (i + k + 1)).var = (pub.row (j + k + 1)).var := h.var he
  have hsize : (v.row (i + k + 1)).size = (pub.row (j + k + 1)).size := h.sizeOf he
  unfold arrayElem
  rw [h.arrayLive_view hs hk hka, hvar, hsize]

theorem arrayPacked_view (hs : Built sub t₀) (msg : Bytes) (sp : Span)
    (hk : i + k < (sub.row i).next) :
    arrayPacked v msg (i + k) sp = arrayPacked pub msg (j + k) sp := by
  unfold arrayPacked
  rw [h.kind hk]
  by_cases hka : (pub.row (j + k)).kind.isArray = true
  · have he := h.elem_inside hs hk hka
    have hvar : (v.row (i + k + 1)).var = (pub.row (j + k + 1)).var := h.var he
    have hsize : (v.row (i + k + 1)).size = (pub.row (j + k + 1)).size := h.sizeOf he
    rw [hvar, hsize]
  · rw [Bool.not_eq_true] at hka
    rw [if_pos (Or.inl hka), if_pos (Or.inl hka)]

/-- A descent through mirrored arrays passes the same regions. -/
theorem descend_view (hs : Built sub t₀) (hp : Built pub u₀) (msg : Bytes) {l : List Nat} :
    ∀ (es : List Nat) (rg : Span) (o : Option Nat) (cr : Option (List Carry)),
      (∀ c, c ∈ l → i + c < (sub.row i).next ∧ (pub.row (j + c)).kind.isArray = true) →
      (∀ e, o = some e → i + e < (sub.row i).next) →
      ∃ res : Option (Option (Span × Option Nat × Option (List Carry))),
        descend v msg (l.map (i + ·)) es rg (o.map (i + ·)) cr =
          res.map (·.map fun d => (d.1, d.2.1.map (i + ·), d.2.2)) ∧
        descend pub msg (l.map (j + ·)) es rg (o.map (j + ·)) cr =
          res.map (·.map fun d => (d.1, d.2.1.map (j + ·), d.2.2)) ∧
        ∀ d, res = some (some d) → ∀ e, d.2.1 = some e → i + e < (sub.row i).next := by
  induction l with
  | nil =>
    intro es rg o cr _ ho
    refine ⟨some (some (rg, o, cr)), by rw [List.map_nil, descend.eq_def]; rfl,
      by rw [List.map_nil, descend.eq_def]; rfl, fun d hd => ?_⟩
    rw [← Option.some.inj (Option.some.inj hd)]
    exact ho
  | cons c l ih =>
    intro es rg o cr hmem ho
    cases es with
    | nil =>
      refine ⟨some (some (rg, o, cr)), by rw [descend.eq_def]; rfl, by rw [descend.eq_def]; rfl,
        fun d hd => ?_⟩
      rw [← Option.some.inj (Option.some.inj hd)]
      exact ho
    | cons e es =>
      obtain ⟨hc, hca⟩ := hmem c List.mem_cons_self
      simp only [List.map_cons, descend, h.locate_view hs hp ho hc]
      cases locate pub msg rg (o.map (j + ·)) (j + c) cr with
      | none => exact ⟨none, rfl, rfl, fun d hd => by cases hd⟩
      | some found =>
        cases found with
        | none => exact ⟨some none, rfl, rfl, fun d hd => by cases hd⟩
        | some found =>
          dsimp only
          rw [h.arrayElem_view hs hc hca]
          cases arrayElem pub msg (j + c) found.1 e found.2 with
          | none => exact ⟨none, rfl, rfl, fun d hd => by cases hd⟩
          | some found' =>
            cases found' with
            | none => exact ⟨some none, rfl, rfl, fun d hd => by cases hd⟩
            | some found' =>
              have he := h.elem_inside hs hc hca
              exact ih _ _ (some (c + 1)) _ (fun d hd => hmem d (List.mem_cons_of_mem _ hd))
                fun d hd => by rw [← Option.some.inj hd]; exact he

/-- The chain loop finds mirrored chains. -/
theorem chainOf_view (hs : Built sub t₀) (hp : Built pub u₀)
    (hk : i + k < (sub.row i).next) : ∃ l : List Nat, chainOf v (i + k) = some (l.map (i + ·)) ∧
      chainOf pub (j + k) = some (l.map (j + ·)) ∧
      ∀ c, c ∈ l → i + c < (sub.row i).next ∧ (pub.row (j + c)).kind.isArray = true := by
  have hle := hs.next_le h.mirror.lt
  have hle' := hp.next_le h.mirror.lt'
  have hlen := h.mirror.len
  obtain ⟨l, hl, hl', hmem⟩ := chain_pair hs hp h.mirror hk
  refine ⟨l, ?_, (hp.chainOf_chain (by omega) hl').2, fun c hc => ⟨?_, ?_⟩⟩
  · rw [← (hs.chainOf_chain (by omega) hl).2]
    -- the view's chain columns are the reader's own
    have hchain : ∀ n ap acc, chainFrom v n ap acc = chainFrom sub n ap acc := by
      intro n
      induction n with
      | zero => intro ap acc; cases ap <;> rfl
      | succ n ih =>
        intro ap acc
        cases ap with
        | none => rfl
        | some a =>
          show chainFrom v n (v.row a).arrParent (a :: acc) = _
          rw [ih, h.shape.arrParent]
          rfl
    unfold chainOf
    rw [hchain, h.shape.arrParent]
  · have := hmem c hc
    omega
  · have hin := hp.chain_mem hl' (fun a ha => by
      obtain ⟨hak, hlt, -⟩ := hp.arrParent_around (by omega) ha
      exact ⟨by omega, hak⟩) (j + c) (List.mem_map_of_mem hc)
    exact hin.2

/-- Resolving a row through the view finds what the publisher's schema finds. -/
theorem resolve_view (hs : Built sub t₀) (hp : Built pub u₀) (msg : Bytes)
    (elems : List Nat) (cr : Option (List Carry)) (hk : i + k < (sub.row i).next) :
    resolve v msg (i + k) elems cr = resolve pub msg (j + k) elems cr := by
  obtain ⟨l, hl, hl', hmem⟩ := h.chainOf_view hs hp hk
  obtain ⟨res, h1, h2, h3⟩ := h.descend_view hs hp msg elems (wholeOf msg) none cr hmem (fun e he => by cases he)
  have hdepth : (v.row (i + k)).arrDepth = (pub.row (j + k)).arrDepth := by
    rw [arrDepth_pair hs hp h.mirror hk, h.shape.2]
  unfold resolve
  rw [hdepth, hl, hl']
  dsimp only
  rw [show descend v msg (l.map (i + ·)) elems (wholeOf msg) none cr = _ from h1,
    show descend pub msg (l.map (j + ·)) elems (wholeOf msg) none cr = _ from h2]
  cases res with
  | none => rfl
  | some d =>
    cases d with
    | none => rfl
    | some d =>
      show (if _ then _ else locate v msg d.1 (d.2.1.map (i + ·)) (i + k) d.2.2) = _
      rw [h.locate_view hs hp (h3 d rfl) hk]
      rfl

/-- The value at a span is read alike. -/
theorem valueAt_view (hs : Built sub t₀) {sp : Span} (hk : i + k < (sub.row i).next) :
    valueAt v msg (i + k) sp = valueAt pub msg (j + k) sp := by
  have hpacked := h.arrayPacked_view hs msg sp hk
  unfold valueAt
  rw [h.kind hk, h.sizeOf hk, hpacked]
  split
  case h_13 hks => rw [h.strCap hk hks]
  case h_15 hks | h_16 hks => rw [h.arrayLive_view hs hk (by rw [hks]; rfl)]
  case h_18 hks => rw [h.backing hk hks]
  all_goals rfl

theorem getValueAt_view (hs : Built sub t₀) (hp : Built pub u₀) {elems : List Nat}
    (hk : i + k < (sub.row i).next) :
    getValueAt v msg (i + k) elems = getValueAt pub msg (j + k) elems := by
  have hle := hs.next_le h.mirror.lt
  have hle' := hp.next_le h.mirror.lt'
  have hlen := h.mirror.len
  have hn := h.shape.1
  unfold getValueAt
  rw [if_neg (by omega), if_neg (by omega), h.resolve_view hs hp msg _ _ hk]
  split
  next => rfl
  next => rfl
  next => exact h.valueAt_view hs hk

end Through

/-! ## The validator -/

/-- Bodies one check accepts, a weaker one accepts. -/
theorem validBodies_mono {msg : Bytes} {check check' : Span → Option Bool} {sp : Span}
    {tab bodies : Nat} (hcheck : ∀ b, check b = some true → check' b = some true) {n : Nat} :
    ∀ {k prev : Nat}, validBodies msg check sp tab bodies n k prev = some true →
      validBodies msg check' sp tab bodies n k prev = some true := by
  induction n with
  | zero => intro k prev h; exact h
  | succ n ih =>
    intro k prev h
    unfold validBodies at h ⊢
    split at h
    next => cases h
    split at h
    next => cases h
    next hle =>
      rw [if_neg hle]
      split at h
      next => cases h
      next hin =>
        rw [if_neg hin]
        split at h
        next => cases h
        next => cases h
        next hbody =>
          rw [hcheck _ hbody]
          exact ih h

/-- The frames the publisher's schema accepts, the view accepts: each row of the view that
holds a frame is some row of the publisher's. -/
theorem validFrames_view (hs : Built sub t₀) (hp : Built pub u₀) (hv : View sub pub v)
    {msg : Bytes} {payV payP : Nat → Span → Option Bool} {r r' : Option Nat} {stop : Nat}
    (hr : RecordOf sub r) (hr' : RecordOf pub r')
    (hrow : ∀ f, f < sub.nfields → recFirst r ≤ f → rowFramed sub.fields (sub.row f) = true →
      rowRecord (sub.row f) = r → ∃ g, g < pub.nfields ∧
        rowFramed pub.fields (pub.row g) = true ∧ rowRecord (pub.row g) = r' ∧
        (pub.row g).varOrd = (v.row f).varOrd ∧
        ∀ sp, payP g sp = some true → payV f sp = some true) {n : Nat} :
    ∀ {ord cur cur' pos : Nat}, AtRecord sub r cur → AtRecord pub r' cur' →
      validFrames pub msg payP r' stop n ord cur' pos = some true →
      validFrames v msg payV r stop n ord cur pos = some true := by
  have hle := hs.recLast_le hr
  induction n with
  | zero => intro ord cur cur' pos _ _ h; exact h
  | succ n ih =>
    intro ord cur cur' pos hcur hcur' h
    unfold validFrames at h ⊢
    split at h
    next => cases h
    next hpos =>
      rw [if_neg hpos]
      split at h
      next => cases h
      next len hlen =>
        split at h
        next => cases h
        next hfit =>
          rw [if_neg hfit]
          obtain ⟨o, ho, hsound, -⟩ := hs.recordRow_spec hv.shape hr ord hcur
          obtain ⟨o', ho', hsound', -⟩ := hp.recordRow_spec (sameShape_refl pub) hr' ord hcur'
          rw [ho]
          rw [ho'] at h
          -- whatever the publisher found, the frames after this one are accepted
          have hrest : ∃ cur'', AtRecord pub r' cur'' ∧
              validFrames pub msg payP r' stop n (ord + 1) cur'' (pos + 4 + len) = some true := by
            cases o' with
            | none => exact ⟨cur', hcur', h⟩
            | some g =>
              obtain ⟨hlo, hhi, -, hgrec, -⟩ := hsound' g rfl
              dsimp only at h
              split at h
              next => cases h
              next => cases h
              next => exact ⟨_, hp.atRecord_next hr' ⟨hlo, fun _ => hgrec⟩ hhi, h⟩
          obtain ⟨cur'', hcur'', hrest⟩ := hrest
          cases o with
          | none => exact ih hcur hcur'' hrest
          | some f =>
            obtain ⟨hlo, hhi, hff, hfrec, hford⟩ := hsound f rfl
            obtain ⟨g, hg, hgf, hgrec, hgord, hpay⟩ := hrow f (by omega) hlo hff hfrec
            have hfound := hp.recordRow_finds hr' hcur' hg hgf hgrec
            rw [hgord, hford, ho'] at hfound
            obtain rfl := Option.some.inj hfound
            dsimp only at h ⊢
            split at h
            next => cases h
            next => cases h
            next hacc =>
              rw [hpay _ hacc]
              dsimp only
              rw [hv.shape.next]
              exact ih (hs.atRecord_next hr ⟨hlo, fun _ => hfrec⟩ hhi) hcur'' hrest

/-- A payload the publisher's schema accepts, the view accepts. -/
theorem Through.validPayload_view (hs : Built sub t₀) (hp : Built pub u₀) (hv : View sub pub v)
    (h : Through sub pub v i j) {msg : Bytes} {n' : Nat} : ∀ {n k : Nat} {sp : Span},
    i + k < (sub.row i).next → sub.nfields ≤ i + k + n →
    validPayload pub msg n' (j + k) sp = some true → validPayload v msg n (i + k) sp = some true := by
  have hle := hs.next_le h.mirror.lt
  have hle' := hp.next_le h.mirror.lt'
  have hlen := h.mirror.len
  induction n' with
  | zero => intro n k sp _ _ hacc; cases hacc
  | succ n' ih =>
    intro n k sp hk hn hacc
    obtain ⟨n, rfl⟩ : ∃ m, n = m + 1 := ⟨n - 1, by omega⟩
    unfold validPayload at hacc ⊢
    rw [h.kind hk]
    split at hacc
    next hka => rw [if_pos hka]
    next hka =>
      rw [if_neg hka]
      rw [Bool.not_eq_false] at hka
      have he := h.elem_inside hs hk hka
      have hvar : (v.row (i + k + 1)).var = (pub.row (j + k + 1)).var := h.var he
      have hsize : (v.row (i + k + 1)).size = (pub.row (j + k + 1)).size := h.sizeOf he
      have hkind : (v.row (i + k + 1)).kind = (pub.row (j + k + 1)).kind := h.kind he
      have hka' : (sub.row (i + k)).kind.isArray = true := by
        rw [← (h.mirror.rows k hk).1.kind]
        exact hka
      rw [hvar, hsize, hkind, h.arrayLive_view hs hk hka]
      split at hacc
      next hev =>
        rw [if_pos hev]
        exact hacc
      next hev =>
        rw [if_neg hev]
        split at hacc
        next => cases hacc
        next => cases hacc
        next count _ =>
          dsimp only at hacc ⊢
          refine validBodies_mono (fun b hb => ?_) hacc
          split at hb
          next hes =>
            rw [if_pos hes]
            have hesub : (sub.row (i + k + 1)).kind = .struct := by
              rw [← hv.shape.kind, hkind]
              exact hes
            have hr := Built.recordOf_elem (s := sub) (a := i + k) (by omega) hka' hesub
            have hr' := Built.recordOf_elem (s := pub) (a := j + k) (by omega) hka hes
            have hrs : v.recSize (some (i + k + 1)) = pub.recSize (some (j + k + 1)) := hsize
            have hrf : v.recFrames (some (i + k + 1)) = pub.recFrames (some (j + k + 1)) :=
              h.recFrames hs hp (o := some (k + 1)) fun e hc => by rw [← Option.some.inj hc]; exact he
            unfold validRecord at hb ⊢
            rw [hrs, hrf]
            split at hb
            next => cases hb
            next hfit =>
              rw [if_neg hfit]
              refine validFrames_view hs hp hv hr hr' (fun f hf hlo hff hrec => ?_)
                (hs.atRecord_first hr) (hp.atRecord_first hr') hb
              -- a framed row of the element's record lies in the field
              obtain ⟨a, ha, hae⟩ := rowRecord_eq_some.mp hrec
              obtain rfl : i + k = a := by omega
              obtain ⟨-, hfa, hfn⟩ := hs.arrParent_around hf ha
              have hnest := hs.next_nested h.mirror.lt (j := i + k) (by omega) hk
              obtain ⟨c, rfl⟩ : ∃ c, f = i + c := ⟨f - i, by omega⟩
              have hc : i + c < (sub.row i).next := by omega
              refine ⟨j + c, by omega, ?_, ?_, (h.place c hc).2.symm, fun sp' hpay => ?_⟩
              · rw [framed_pair hs hp h.mirror hc]
                exact hff
              · exact (rowRecord_iff hs hp h.mirror (e := k + 1) hc).mp hrec
              · exact ih hc (by omega) hpay
          next hes =>
            rw [if_neg hes]
            exact ih he (by omega) hb

/-- A message the publisher's schema accepts, the view accepts. -/
theorem validate_view (hs : Built sub t₀) (hp : Built pub u₀) (hv : View sub pub v)
    {msg : Bytes} (hval : validate pub msg = some true) : validate v msg = some true := by
  unfold validate at hval ⊢
  rw [hv.nVar, hv.size]
  split at hval
  next hn =>
    rw [if_pos hn]
    exact hval
  next hn =>
    rw [if_neg hn]
    have hrs : v.recSize none = pub.recSize none := hv.size
    have hrf : v.recFrames none = pub.recFrames none := hv.nVar
    unfold validRecord at hval ⊢
    rw [hrs, hrf]
    split at hval
    next => cases hval
    next hfit =>
      rw [if_neg hfit]
      refine validFrames_view hs hp hv Built.recordOf_message Built.recordOf_message
        (fun f hf _ hff hrec => ?_) (hs.atRecord_first Built.recordOf_message)
        (hp.atRecord_first Built.recordOf_message) hval
      obtain ⟨i, hif, hfn, htop⟩ := hs.top_of hf
      obtain ⟨j, -, h⟩ := hv.through (i := i) (by omega) htop
      obtain ⟨k, rfl⟩ : ∃ k, f = i + k := ⟨f - i, by omega⟩
      have hle' := hp.next_le h.mirror.lt'
      have hlen := h.mirror.len
      refine ⟨j + k, by omega, ?_, ?_, (h.place k hfn).2.symm, fun sp hpay => ?_⟩
      · rw [framed_pair hs hp h.mirror hfn]
        exact hff
      · obtain ⟨o, h1, h2⟩ := rowRecord_pair hs hp h.mirror hfn
        rw [hrec] at h1
        cases o with
        | none => exact h2
        | some e => cases h1
      · have hn' := hv.shape.1
        exact h.validPayload_view hs hp hv hfn (by omega) hpay

end

end Rant.Serialize
