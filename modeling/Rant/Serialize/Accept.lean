import Rant.Serialize.Path
/-!
# What the validator accepts, the accessors reach

The validator walks a message forward, record by record; an accessor hops straight to one
value. `RegionOk` is what the first established about a region an accessor stands on: it
holds of the whole message once the message is accepted, and each hop keeps it
(`locate_ok`, `arrayElem_ok`). So with indices in range no hop is refused.
-/

namespace Rant.Serialize

open Rant.Lib

/-! ## Validating ends -/

theorem validBodies_ends {msg : Bytes} {check : Span → Option Bool} {sp : Span}
    {tab bodies : Nat} (hsp : sp.stop ≤ msg.length)
    (hcheck : ∀ b : Span, b.stop ≤ msg.length → ∃ ok, check b = some ok) {n : Nat} :
    ∀ {k prev : Nat}, tab + 4 * (k + n) ≤ msg.length →
      ∃ ok, validBodies msg check sp tab bodies n k prev = some ok := by
  induction n with
  | zero => intro k prev _; exact ⟨_, rfl⟩
  | succ n ih =>
    intro k prev htab
    obtain ⟨stop, hstop⟩ := readLe_of_le (m := msg) (n := 4) (i := tab + 4 * k) (by omega)
    unfold validBodies
    rw [show le32 msg (tab + 4 * k) = some stop from hstop]
    dsimp only
    split
    next => exact ⟨_, rfl⟩
    split
    next => exact ⟨_, rfl⟩
    obtain ⟨ok, hok⟩ := hcheck ⟨bodies + prev, stop - prev⟩ (by
      show bodies + prev + (stop - prev) ≤ _
      omega)
    rw [hok]
    cases ok with
    | false => exact ⟨_, rfl⟩
    | true => exact ih (by omega)

section
variable {s : Schema} {t₀ : Table}

namespace Built

variable (hb : Built s t₀) {msg : Bytes}
include hb

theorem validFrames_ends {pay : Nat → Span → Option Bool} {r : Option Nat} (hr : RecordOf s r)
    {stop : Nat} (hstop : stop ≤ msg.length)
    (hpay : ∀ f sp, recFirst r ≤ f → f < s.nfields → sp.stop ≤ msg.length →
      ∃ ok, pay f sp = some ok) {n : Nat} :
    ∀ {ord cur pos : Nat}, AtRecord s r cur →
      ∃ ok, validFrames s msg pay r stop n ord cur pos = some ok := by
  have hlast := hb.recLast_le hr
  induction n with
  | zero => intro ord cur pos _; exact ⟨_, rfl⟩
  | succ n ih =>
    intro ord cur pos hcur
    unfold validFrames
    split
    next => exact ⟨_, rfl⟩
    next hpos =>
      obtain ⟨len, hlen⟩ := readLe_of_le (m := msg) (n := 4) (i := pos) (by omega)
      rw [show le32 msg pos = some len from hlen]
      dsimp only
      split
      next => exact ⟨_, rfl⟩
      next hle =>
        obtain ⟨o, ho, hfound, -⟩ := hb.recordRow_spec (sameShape_refl s) hr ord hcur
        rw [ho]
        cases o with
        | none => exact ih hcur
        | some f =>
          obtain ⟨hlo, hhi, hff, hrec, -⟩ := hfound f rfl
          obtain ⟨ok, hok⟩ := hpay f ⟨pos + 4, len⟩ hlo (by omega) (by
            show pos + 4 + len ≤ _
            omega)
          dsimp only
          rw [hok]
          cases ok with
          | false => exact ⟨_, rfl⟩
          | true =>
            exact ih (hb.atRecord_next hr ⟨hlo, fun _ => hrec⟩ hhi)

theorem validRecord_ends {pay : Nat → Span → Option Bool} {r : Option Nat} (hr : RecordOf s r)
    {rg : Span} (hrg : rg.stop ≤ msg.length)
    (hpay : ∀ f sp, recFirst r ≤ f → f < s.nfields → sp.stop ≤ msg.length →
      ∃ ok, pay f sp = some ok) : ∃ ok, validRecord s msg pay r rg = some ok := by
  unfold validRecord
  split
  next => exact ⟨_, rfl⟩
  next => exact hb.validFrames_ends hr hrg hpay (hb.atRecord_first hr)

omit hb in
/-- The element of an array, when a struct, is a record. -/
theorem recordOf_elem {a : Nat} (ha : a < s.nfields) (hk : (s.row a).kind.isArray = true)
    (he : (s.row (a + 1)).kind = .struct) : RecordOf s (some (a + 1)) := by
  intro e h
  obtain rfl := Option.some.inj h
  exact ⟨a, rfl, ha, hk, he⟩

omit hb in
theorem recordOf_message : RecordOf s none := fun _ h => by cases h

/-- A payload's rows come after its own, so the table's length is fuel enough. -/
theorem validPayload_ends {n : Nat} : ∀ {f : Nat} {sp : Span}, f < s.nfields →
    s.nfields ≤ f + n → sp.stop ≤ msg.length → ∃ ok, validPayload s msg n f sp = some ok := by
  induction n with
  | zero => intro f sp hf hn; omega
  | succ n ih =>
    intro f sp hf hn hsp
    unfold validPayload
    split
    next => exact ⟨_, rfl⟩
    next hk =>
      rw [Bool.not_eq_false] at hk
      obtain ⟨hlt, -⟩ := hb.elem hf hk
      split
      next => exact ⟨_, rfl⟩
      next hv =>
        rw [Bool.not_eq_false] at hv
        obtain ⟨o, ho, hlive⟩ := arrayLive_ends (s := s) (a := f) hsp
        rw [ho]
        cases o with
        | none => exact ⟨_, rfl⟩
        | some count =>
          have hlen := hlive count rfl hv
          have hsp' : sp.off + sp.len ≤ msg.length := hsp
          dsimp only
          refine validBodies_ends hsp (fun b hb' => ?_) (by omega)
          split
          next he =>
            refine hb.validRecord_ends (recordOf_elem hf hk he) hb' fun g sp' hg hg' hsp' => ?_
            have hg2 : f + 1 + 1 ≤ g := hg
            exact ih hg' (by omega) hsp'
          next => exact ih hlt (by omega) hb'

theorem validate_ends : ∃ ok, validate s msg = some ok := by
  unfold validate
  split
  next => exact ⟨_, rfl⟩
  refine hb.validRecord_ends recordOf_message (by simp [wholeOf, Span.stop]) ?_
  intro f sp _ hf hsp
  exact hb.validPayload_ends hf (by omega) hsp

end Built

end

theorem msgLenFrom_ends {msg : Bytes} {n : Nat} : ∀ {total : Nat},
    ∃ len, msgLenFrom msg n total = some len := by
  induction n with
  | zero => intro total; exact ⟨_, rfl⟩
  | succ n ih =>
    intro total
    unfold msgLenFrom
    split
    next => exact ⟨_, rfl⟩
    next hle =>
      obtain ⟨len, hlen⟩ := readLe_of_le (m := msg) (n := 4) (i := total) (by omega)
      rw [show le32 msg total = some len from hlen]
      dsimp only
      split
      next => exact ⟨_, rfl⟩
      next => exact ih

theorem msgLen_ends (s : Schema) (buf : Bytes) : ∃ len, msgLen s buf = some len := by
  unfold msgLen
  split
  next => exact ⟨_, rfl⟩
  next => exact msgLenFrom_ends

/-! ## What acceptance says -/

/-- A payload of row `f` the validator accepts. -/
def PayloadOk (s : Schema) (msg : Bytes) (f : Nat) (sp : Span) : Prop :=
  ∃ n, validPayload s msg n f sp = some true

/-- A record the validator accepts. -/
def RecordOk (s : Schema) (msg : Bytes) (r : Option Nat) (rg : Span) : Prop :=
  ∃ n, validRecord s msg (validPayload s msg n) r rg = some true

/-- A region of record `r` the validator accepts: a fixed element is as long as its type
says, a variable one is a record or a payload. -/
def RegionOk (s : Schema) (msg : Bytes) (r : Option Nat) (rg : Span) : Prop :=
  rg.stop ≤ msg.length ∧
  match r with
  | none => RecordOk s msg none rg
  | some e =>
    if (s.row e).var = false then rg.len = (s.row e).size
    else if (s.row e).kind = .struct then RecordOk s msg (some e) rg
    else PayloadOk s msg e rg

/-- The span of array row `a`, located in such a region. -/
def ArrayOkAt (s : Schema) (msg : Bytes) (a : Nat) (sp : Span) : Prop :=
  sp.stop ≤ msg.length ∧
  if (s.row a).var = false then sp.len = (s.row a).size else PayloadOk s msg a sp

/-- Every body of an accepted table was checked. -/
theorem validBodies_body {msg : Bytes} {check : Span → Option Bool} {sp : Span}
    {tab bodies n : Nat} : ∀ {k prev : Nat},
      validBodies msg check sp tab bodies n k prev = some true → tableEnd msg tab k = some prev →
      ∀ i, k ≤ i → i < k + n → ∃ lo hi, tableEnd msg tab i = some lo ∧
        tableEnd msg tab (i + 1) = some hi ∧ lo ≤ hi ∧ bodies + hi ≤ sp.stop ∧
        check ⟨bodies + lo, hi - lo⟩ = some true := by
  induction n with
  | zero => intro k prev _ _ i hlo hhi; omega
  | succ n ih =>
    intro k prev h hprev i hlo hhi
    unfold validBodies at h
    split at h
    next => cases h
    next stop hstop =>
      split at h
      next => cases h
      next hle =>
        split at h
        next => cases h
        next hin =>
          split at h
          next => cases h
          next => cases h
          next hcheck =>
            by_cases hik : i = k
            · subst hik
              exact ⟨prev, stop, hprev, hstop, by omega, by omega, hcheck⟩
            · exact ih h hstop i (by omega) (by omega)

section
variable {s : Schema} {t₀ : Table}

namespace Built

variable (hb : Built s t₀) {msg : Bytes}
include hb

variable {r : Option Nat}

/-- Every frame of an accepted record that a row holds was checked as that row's. -/
theorem validFrames_frame {pay : Nat → Span → Option Bool} (hr : RecordOf s r)
    {stop n : Nat} : ∀ {ord cur pos : Nat}, AtRecord s r cur →
      validFrames s msg pay r stop n ord cur pos = some true →
      ∀ f i, f < s.nfields → rowFramed s.fields (s.row f) = true → rowRecord (s.row f) = r →
        (s.row f).varOrd = ord + i → i < n →
        ∃ sp, frameFrom msg stop i pos = some (some sp) ∧ pay f sp = some true := by
  induction n with
  | zero => intro ord cur pos _ _ f i _ _ _ _ hi; omega
  | succ n ih =>
    intro ord cur pos hcur h f i hf hff hrec hord hi
    unfold validFrames at h
    split at h
    next => cases h
    next hpos =>
      split at h
      next => cases h
      next len hlen =>
        split at h
        next => cases h
        next hle =>
          obtain ⟨o, ho, hfound, -⟩ := hb.recordRow_spec (sameShape_refl s) hr ord hcur
          have hfinds : i = 0 → o = some f := by
            intro hi0
            have := hb.recordRow_finds hr hcur hf hff hrec
            rw [hord, hi0, Nat.add_zero, ho] at this
            exact Option.some.inj this
          rw [ho] at h
          -- the frames past this one
          have hlater : ∀ {cur' : Nat} {j : Nat}, AtRecord s r cur' → i = j + 1 →
              validFrames s msg pay r stop n (ord + 1) cur' (pos + 4 + len) = some true →
              ∃ sp, frameFrom msg stop i pos = some (some sp) ∧ pay f sp = some true := by
            intro cur' j hcur' hij hrest
            subst hij
            obtain ⟨sp, hsp, hpay⟩ := ih hcur' hrest f j hf hff hrec (by omega) (by omega)
            refine ⟨sp, ?_, hpay⟩
            unfold frameFrom
            rw [if_neg hpos, hlen]
            dsimp only
            rw [if_neg hle]
            exact hsp
          cases o with
          | none =>
            cases i with
            | zero => cases hfinds rfl
            | succ j => exact hlater hcur rfl h
          | some g =>
            obtain ⟨hlo, hhi, -, hgrec, hgord⟩ := hfound g rfl
            dsimp only at h
            split at h
            next => cases h
            next => cases h
            next hpay =>
              cases i with
              | zero =>
                obtain rfl := Option.some.inj (hfinds rfl)
                refine ⟨⟨pos + 4, len⟩, ?_, hpay⟩
                unfold frameFrom
                rw [if_neg hpos, hlen]
                dsimp only
                rw [if_neg hle]
              | succ j =>
                exact hlater (hb.atRecord_next hr ⟨hlo, fun _ => hgrec⟩ hhi) rfl h

variable {rg : Span}

omit hb in
/-- An accepted record holds its fixed bytes. -/
theorem record_fixed (h : RecordOk s msg r rg) :
    rg.off + s.recSize r ≤ rg.stop := by
  obtain ⟨n, h⟩ := h
  unfold validRecord at h
  split at h
  next => cases h
  next hle => omega

variable {f : Nat}

/-- An accepted record holds the frames of its rows. -/
theorem record_frame (hr : RecordOf s r) (h : RecordOk s msg r rg)
    (hf : f < s.nfields) (hff : rowFramed s.fields (s.row f) = true)
    (hrec : rowRecord (s.row f) = r) :
    ∃ sp, recordFrame s msg rg r (s.row f).varOrd = some (some sp) ∧ PayloadOk s msg f sp := by
  obtain ⟨n, h⟩ := h
  have hlt := hb.varOrd_lt hf hff
  rw [hrec] at hlt
  unfold validRecord at h
  split at h
  next => cases h
  obtain ⟨sp, hsp, hpay⟩ := hb.validFrames_frame hr (hb.atRecord_first hr) h f (s.row f).varOrd
    hf hff hrec (by omega) hlt
  refine ⟨sp, ?_, n, hpay⟩
  unfold recordFrame
  rw [if_neg (by omega)]
  exact hsp

omit hb in
/-- An accepted message is an accepted record. -/
theorem validate_record (h : validate s msg = some true) :
    RegionOk s msg none (wholeOf msg) := by
  refine ⟨by simp [wholeOf, Span.stop], ?_⟩
  show RecordOk s msg none (wholeOf msg)
  unfold validate at h
  split at h
  next hn =>
    simp only [Option.some.injEq, decide_eq_true_eq] at h
    refine ⟨0, ?_⟩
    unfold validRecord
    have hstop : (wholeOf msg).stop = msg.length := by simp [wholeOf, Span.stop]
    have hoff : (wholeOf msg).off + s.recSize none = s.size := by simp [wholeOf, Schema.recSize]
    have hframes : s.recFrames none = 0 := hn
    rw [hstop, hoff, hframes, if_neg (by omega)]
    simp [validFrames, h]
  next => exact ⟨_, h⟩

/-- A row of an element's record, other than the element itself, is a member of it: the
element is a struct, and variable if the row is. -/
theorem member_of {e : Nat} (hf : f < s.nfields) (hrec : rowRecord (s.row f) = some e)
    (hne : f ≠ e) : (s.row e).kind = .struct ∧
      ((s.row f).var = true → (s.row e).var = true) := by
  obtain ⟨a, ha, rfl⟩ := rowRecord_eq_some.mp hrec
  obtain ⟨hak, hlo, hhi⟩ := hb.arrParent_around hf ha
  obtain ⟨hlt, hnext, hpar, -⟩ := hb.elem (a := a) (by omega) hak
  constructor
  · by_cases hks : (s.row (a + 1)).kind = .struct
    · exact hks
    · have hbelow := hb.arrParent_below hlt hks (f := f) (by omega) (by omega)
      rw [hb.arrParent_elem (by omega) hak] at hbelow
      exact absurd ha hbelow
  · clear hrec hlo hhi
    revert hf ha hne
    induction f using Nat.strongRecOn with
    | _ f ih =>
      intro hf ha hne hv
      have hap := hb.arrParent_eq hf
      rw [ha] at hap
      cases hp : (s.row f).parent with
      | none =>
        rw [hp] at hap
        cases hap
      | some p =>
        obtain ⟨hpf, hpn, -, hkind⟩ := hb.parent_spec hf hp
        rw [hp] at hap
        dsimp only at hap
        rcases hkind with hs | ⟨hk, rfl⟩
        · rw [hs] at hap
          have hs₀ := (hb.kind p).symm.trans hs
          -- a variable member makes its struct variable
          have hvp : (s.row p).var = true := by
            rcases (hb.block (j := p) (by omega)).row with ⟨-, hl⟩ | ⟨-, -, hk', -, -⟩ | ⟨-, hmem⟩
            · exact absurd hs₀ hl.kind.1
            · rw [hs₀] at hk'
              cases hk'
            · have hbound := hmem.bounds
                (fun q hq => by obtain rfl := Option.some.inj hq; omega) (by omega) hpn
                ((hb.parent f).symm.trans hp)
              exact hbound.2.2 ((hb.var f).symm.trans hv)
          by_cases hpe : p = a + 1
          · rw [← hpe]
            exact hvp
          · exact ih p hpf (by omega) hap.symm hpe hvp
        · rw [if_pos hk] at hap
          obtain rfl := Option.some.inj hap
          exact absurd rfl hne

/-- A row is reached in an accepted region of its record. -/
theorem locate_ok (h : RegionOk s msg r rg)
    (hf : f < s.nfields) (hrec : rowRecord (s.row f) = r) (hne : r ≠ some f) :
    ∃ sp, locate s msg rg r f none = some (some (sp, none)) ∧
      (if rowFramed s.fields (s.row f) = true then PayloadOk s msg f sp
        else sp.len = (s.row f).size) := by
  -- the region is a record, or a fixed element
  have hcase : (RecordOk s msg r rg ∧ RecordOf s r) ∨
      (rg.len = s.recSize r ∧ rowFramed s.fields (s.row f) = false) := by
    cases r with
    | none => exact Or.inl ⟨h.2, recordOf_message⟩
    | some e =>
      obtain ⟨hks, hvar⟩ := hb.member_of hf hrec fun hc => hne (congrArg some hc.symm)
      have hreg := h.2
      dsimp only at hreg
      by_cases hv : (s.row e).var = false
      · rw [if_pos hv] at hreg
        refine Or.inr ⟨hreg, ?_⟩
        have hfv : (s.row f).var = false := by
          rw [← Bool.not_eq_true]
          exact fun hc => Bool.noConfusion (hv.symm.trans (hvar hc))
        unfold rowFramed
        rw [hfv]
        rfl
      · rw [if_neg hv, if_pos hks] at hreg
        obtain ⟨a, ha, rfl⟩ := rowRecord_eq_some.mp hrec
        obtain ⟨hak, hlo, -⟩ := hb.arrParent_around hf ha
        exact Or.inl ⟨hreg, recordOf_elem (by omega) hak hks⟩
  unfold locate
  rw [if_neg hne]
  by_cases hff : rowFramed s.fields (s.row f) = true
  · rw [if_pos hff]
    rcases hcase with ⟨hrok, hr⟩ | ⟨-, hno⟩
    · obtain ⟨sp, hsp, hpay⟩ := hb.record_frame hr hrok hf hff hrec
      rw [hsp]
      exact ⟨sp, rfl, by rw [if_pos hff]; exact hpay⟩
    · exact Bool.noConfusion (hno.symm.trans hff)
  · have hff' : rowFramed s.fields (s.row f) = false := by rwa [Bool.not_eq_true] at hff
    have hin := hb.fixed_inside hf hff'
    rw [hrec] at hin
    have hlen : s.recSize r ≤ rg.len := by
      rcases hcase with ⟨hrok, -⟩ | ⟨hlen, -⟩
      · have := record_fixed hrok
        unfold Span.stop at this
        omega
      · omega
    rw [if_neg hff, if_neg (by omega)]
    exact ⟨_, rfl, by rw [if_neg hff]⟩

/-- An accepted element is long enough for its fixed part, and reached as itself. -/
theorem locate_self (hf : f < s.nfields)
    (h : RegionOk s msg (some f) rg) :
    locate s msg rg (some f) f none = some (some (rg, none)) := by
  have hreg := h.2
  dsimp only at hreg
  have hlen : (s.row f).size ≤ rg.len := by
    by_cases hv : (s.row f).var = false
    · rw [if_pos hv] at hreg
      omega
    rw [if_neg hv] at hreg
    rw [Bool.not_eq_false] at hv
    by_cases hk : (s.row f).kind = .struct
    · rw [if_pos hk] at hreg
      have hfix := record_fixed hreg
      have hsize : s.recSize (some f) = (s.row f).size := rfl
      unfold Span.stop at hfix
      omega
    · rw [hb.size_var hf hv hk]
      exact Nat.zero_le _
  unfold locate
  rw [if_pos rfl, if_neg (by omega)]

/-- An array is reached in an accepted region, and its span is accepted. -/
theorem locate_array {a : Nat} (h : RegionOk s msg r rg)
    (ha : a < s.nfields) (hk : (s.row a).kind.isArray = true)
    (hrec : rowRecord (s.row a) = r) :
    ∃ sp, locate s msg rg r a none = some (some (sp, none)) ∧ ArrayOkAt s msg a sp := by
  have hks : (s.row a).kind ≠ .struct := by
    intro hc
    rw [hc] at hk
    cases hk
  by_cases hself : r = some a
  · subst hself
    refine ⟨rg, hb.locate_self ha h, h.1, ?_⟩
    have hreg := h.2
    dsimp only at hreg
    by_cases hv : (s.row a).var = false
    · rw [if_pos hv] at hreg ⊢
      exact hreg
    · rw [if_neg hv, if_neg hks] at hreg
      rw [if_neg hv]
      exact hreg
  · obtain ⟨sp, hsp, hok⟩ := hb.locate_ok h ha hrec hself
    obtain ⟨o, ho, hin⟩ := hb.locate_ends r none ha h.1
    obtain rfl := Option.some.inj (hsp.symm.trans ho)
    obtain ⟨-, hstop, -⟩ := hin sp none rfl
    refine ⟨sp, hsp, Nat.le_trans hstop h.1, ?_⟩
    by_cases hff : rowFramed s.fields (s.row a) = true
    · rw [if_pos hff] at hok
      have hv : (s.row a).var = true := by
        unfold rowFramed at hff
        simp only [Bool.and_eq_true] at hff
        exact hff.1.1
      rw [if_neg (by rw [hv]; exact fun hc => by cases hc)]
      exact hok
    · rw [if_neg hff] at hok
      -- an array with neither a frame nor an element's place is fixed
      have hv : (s.row a).var = false := by
        rw [← Bool.not_eq_true]
        intro hv
        unfold rowFramed at hff
        rw [hv, decide_eq_true hks] at hff
        have hap := hb.arrParent_eq ha
        cases hp : (s.row a).parent with
        | none =>
          rw [hp] at hff
          exact hff rfl
        | some p =>
          rw [hp] at hff hap
          simp only [Bool.and_self, Bool.true_and, Bool.not_eq_true', Bool.not_eq_false] at hff
          have hpk : (s.row p).kind.isArray = true := hff
          dsimp only at hap
          rw [if_pos hpk] at hap
          rcases (hb.parent_spec ha hp).2.2.2 with hs | ⟨-, hap'⟩
          · rw [hs] at hpk
            cases hpk
          · apply hself
            rw [← hrec, rowRecord_eq_some.mpr ⟨p, hap, rfl⟩, ← hap']
      rw [if_pos hv]
      exact hok

/-- An accepted array has a live count, and every element below it is accepted. -/
theorem arrayElem_ok {a : Nat} {sp : Span} (ha : a < s.nfields)
    (hk : (s.row a).kind.isArray = true) (h : ArrayOkAt s msg a sp) :
    ∃ count, arrayLive s msg a sp = some (some count) ∧ ∀ e, e < count →
      ∃ rg, arrayElem s msg a sp e none = some (some (rg, none)) ∧
        RegionOk s msg (some (a + 1)) rg := by
  obtain ⟨hlt, -, -, -, hok⟩ := hb.elem ha hk
  by_cases hv : (s.row (a + 1)).var = false
  · obtain ⟨count, hcount⟩ : ∃ count, arrayLive s msg a sp = some (some count) := by
      unfold arrayLive
      rw [if_pos hv]
      exact ⟨_, rfl⟩
    have hsize : (s.row a).size ≤ sp.len := by
      have hreg := h.2
      by_cases hva : (s.row a).var = false
      · rw [if_pos hva] at hreg
        omega
      · rw [Bool.not_eq_false] at hva
        rw [hok.size_var hva]
        exact Nat.zero_le _
    refine ⟨count, hcount, fun e he => ?_⟩
    obtain ⟨o, ho, hin⟩ := hb.arrayElem_ends e none ha hk h.1 hsize
    have helem : arrayElem s msg a sp e none =
        some (some (⟨sp.off + e * (s.row (a + 1)).size, (s.row (a + 1)).size⟩, none)) := by
      unfold arrayElem
      rw [hcount]
      dsimp only
      rw [if_neg (by omega), if_pos hv]
    obtain rfl := Option.some.inj (helem.symm.trans ho)
    obtain ⟨-, hstop⟩ := hin _ _ rfl
    refine ⟨_, helem, Nat.le_trans hstop h.1, ?_⟩
    dsimp only
    rw [if_pos hv]
  · -- variable elements: the payload's table was walked
    have hv' : (s.row (a + 1)).var = true := by rwa [Bool.not_eq_false] at hv
    have hva : (s.row a).var ≠ false := by
      rw [hok.var, hv', Bool.or_true]
      exact fun hc => by cases hc
    have hpay := h.2
    rw [if_neg hva] at hpay
    obtain ⟨n, hpay⟩ := hpay
    cases n with
    | zero => cases hpay
    | succ n =>
      unfold validPayload at hpay
      rw [if_neg (by rw [hk]; exact fun hc => by cases hc), if_neg hv] at hpay
      split at hpay
      next => cases hpay
      next => cases hpay
      next count hcount =>
        refine ⟨count, hcount, fun e he => ?_⟩
        dsimp only at hpay
        obtain ⟨lo, hi, hlo, hhi, hle, hin, hcheck⟩ :=
          validBodies_body hpay (show tableEnd msg (sp.off + 4) 0 = some 0 from rfl) e
            (Nat.zero_le e) (by omega)
        unfold Span.stop at hin
        have helem : arrayElem s msg a sp e none =
            some (some (⟨sp.off + 4 + 4 * count + lo, hi - lo⟩, none)) := by
          unfold arrayElem
          rw [hcount]
          dsimp only
          rw [if_neg (by omega), if_neg hv, hlo, hhi]
          dsimp only
          rw [if_neg (by omega)]
          rfl
        refine ⟨_, helem, ?_, ?_⟩
        · have hstop : sp.off + sp.len ≤ msg.length := h.1
          show sp.off + 4 + 4 * count + lo + (hi - lo) ≤ _
          omega
        · dsimp only
          rw [if_neg hv]
          split at hcheck
          next hks =>
            rw [if_pos hks]
            exact ⟨n, hcheck⟩
          next hks =>
            rw [if_neg hks]
            exact ⟨n, hcheck⟩

end Built

end

/-! ## Indices in range -/

/-- Each index is below the live count its array reports at the indices before it. -/
def InRange (s : Schema) (msg : Bytes) (f : Nat) (elems : List Nat) : Prop :=
  elems.length = (s.row f).arrDepth ∧
  ∀ chain, chainOf s f = some chain → ∀ k a e, chain[k]? = some a → elems[k]? = some e →
    ∀ count packed, getValueAt s msg a (elems.take k) = some (some (.array count packed)) →
      e < count

section
variable {s : Schema} {t₀ : Table}

namespace Built

variable (hb : Built s t₀) {msg : Bytes}
include hb

/-- The descent to a chain's last element, in range, passes accepted regions alone. -/
theorem descend_ok (hval : validate s msg = some true) {ap : Option Nat} {l : List Nat}
    (hl : Chain s ap l) (hap : ∀ a, ap = some a → a < s.nfields ∧ (s.row a).kind.isArray = true) :
    ∀ es : List Nat, l.length = es.length →
      (∀ k a e, l[k]? = some a → es[k]? = some e → ∀ count packed,
        getValueAt s msg a (es.take k) = some (some (.array count packed)) → e < count) →
      ∃ rg, descend s msg l es (wholeOf msg) none none = some (some (rg, ap.map (· + 1), none)) ∧
        RegionOk s msg (ap.map (· + 1)) rg := by
  induction hl with
  | nil =>
    intro es _ _
    refine ⟨wholeOf msg, ?_, validate_record hval⟩
    rw [descend.eq_def]
    rfl
  | @snoc a l hl ih =>
    intro es hlen hrange
    obtain ⟨ha, hk⟩ := hap a rfl
    rcases List.eq_nil_or_concat es with rfl | ⟨es', e, rfl⟩
    · simp at hlen
    · rw [List.concat_eq_append] at hlen hrange ⊢
      have hlen' : l.length = es'.length := by simpa using hlen
      have hpar : ∀ b, (s.row a).arrParent = some b →
          b < s.nfields ∧ (s.row b).kind.isArray = true := by
        intro b hab
        obtain ⟨hbk, hlt, -⟩ := hb.arrParent_around ha hab
        exact ⟨by omega, hbk⟩
      obtain ⟨rg, hdesc, hreg⟩ := ih hpar es' hlen' fun k b i hkb hki count packed hget => by
        have hlt : k < l.length := (List.getElem?_eq_some_iff.mp hkb).1
        refine hrange k b i ?_ ?_ count packed ?_
        · rw [List.getElem?_append_left hlt]
          exact hkb
        · rw [List.getElem?_append_left (by omega)]
          exact hki
        · rw [List.take_append_of_le_length (by omega)]
          exact hget
      obtain ⟨sp, hloc, hsp⟩ := hb.locate_array hreg ha hk rfl
      obtain ⟨count, hcount, helem⟩ := hb.arrayElem_ok ha hk hsp
      -- the array's own reader reports that count
      have hget : ∃ packed, getValueAt s msg a es' = some (some (.array count packed)) := by
        obtain ⟨packed, hpacked⟩ := arrayPacked_some (s := s) (f := a) hsp.1
        refine ⟨packed, ?_⟩
        obtain ⟨hdepth, hchain⟩ := hb.chainOf_chain ha hl
        unfold getValueAt resolve
        rw [if_neg (by omega), if_neg (by omega), hchain]
        dsimp only
        rw [hdesc]
        dsimp only
        rw [show locate s msg rg (Option.map (· + 1) (s.row a).arrParent) a none =
          some (some (sp, none)) from hloc]
        unfold valueAt
        rcases Kind.isArray_iff.mp hk with hk' | hk' <;> rw [hk'] <;> dsimp only <;>
          rw [hcount] <;> dsimp only <;> rw [hpacked] <;> rfl
      obtain ⟨packed, hget⟩ := hget
      have he : e < count := by
        refine hrange l.length a e ?_ ?_ count packed ?_
        · simp
        · rw [hlen']
          simp
        · rw [hlen', List.take_left']
          · exact hget
          · rfl
      obtain ⟨rg', helem', hreg'⟩ := helem e he
      refine ⟨rg', ?_, hreg'⟩
      rw [descend_snoc hlen', hdesc]
      simp only [descend]
      rw [show locate s msg rg (Option.map (· + 1) (s.row a).arrParent) a none =
        some (some (sp, none)) from hloc]
      dsimp only
      rw [helem']
      rfl

/-- In an accepted message every row is reached at indices in range, and its value is
read. -/
theorem resolve_ok (hval : validate s msg = some true) {f : Nat} {elems : List Nat}
    (hf : f < s.nfields) (hrange : InRange s msg f elems) :
    ∃ sp v, resolve s msg f elems none = some (some (sp, none)) ∧ sp.stop ≤ msg.length ∧
      getValueAt s msg f elems = some (some v) := by
  obtain ⟨hlen, hbelow⟩ := hrange
  obtain ⟨l, hl, hdepth, hchain⟩ := hb.chainOf_eq hf
  have hpar : ∀ a, (s.row f).arrParent = some a →
      a < s.nfields ∧ (s.row a).kind.isArray = true := by
    intro a ha
    obtain ⟨hk, hlt, -⟩ := hb.arrParent_around hf ha
    exact ⟨by omega, hk⟩
  obtain ⟨rg, hdesc, hreg⟩ := hb.descend_ok hval hl hpar elems (by omega) (hbelow l hchain)
  have hresolve : resolve s msg f elems none = locate s msg rg (rowRecord (s.row f)) f none := by
    unfold resolve
    rw [if_neg (by omega), hchain]
    dsimp only
    rw [hdesc]
    rfl
  obtain ⟨sp, hloc, hval⟩ : ∃ sp, locate s msg rg (rowRecord (s.row f)) f none =
      some (some (sp, none)) ∧ ((s.row f).kind.isArray = true → ArrayOkAt s msg f sp) := by
    by_cases hk : (s.row f).kind.isArray = true
    · obtain ⟨sp, hsp, hok⟩ := hb.locate_array hreg hf hk rfl
      exact ⟨sp, hsp, fun _ => hok⟩
    by_cases hself : rowRecord (s.row f) = some f
    · rw [show Option.map (· + 1) (s.row f).arrParent = some f from hself] at hreg
      rw [hself]
      exact ⟨rg, hb.locate_self hf hreg, fun hc => absurd hc hk⟩
    · obtain ⟨sp, hsp, -⟩ := hb.locate_ok hreg hf rfl hself
      exact ⟨sp, hsp, fun hc => absurd hc hk⟩
  obtain ⟨o, ho, hin⟩ := hb.locate_ends (rowRecord (s.row f)) none hf hreg.1
  obtain rfl := Option.some.inj (hloc.symm.trans ho)
  obtain ⟨-, hstop, hsize⟩ := hin sp none rfl
  have hstop' := Nat.le_trans hstop hreg.1
  obtain ⟨v, hv⟩ : ∃ v, valueAt s msg f sp = some (some v) := by
    obtain ⟨o, ho, hsome⟩ := hb.valueAt_ends hf hstop' hsize
    by_cases hk : (s.row f).kind.isArray = true
    · obtain ⟨count, hcount, -⟩ := hb.arrayElem_ok hf hk (hval hk)
      obtain ⟨packed, hpacked⟩ := arrayPacked_some (s := s) (f := f) hstop'
      refine ⟨.array count packed, ?_⟩
      unfold valueAt
      rcases Kind.isArray_iff.mp hk with hk' | hk' <;> rw [hk'] <;> dsimp only <;>
        rw [hcount] <;> dsimp only <;> rw [hpacked] <;> rfl
    · rw [Bool.not_eq_true] at hk
      obtain ⟨v, rfl⟩ := hsome hk
      exact ⟨v, ho⟩
  refine ⟨sp, v, hresolve.trans hloc, hstop', ?_⟩
  unfold getValueAt
  rw [if_neg (by omega), hresolve, hloc]
  exact hv

end Built

end

/-- **Reading is safe.** Of a compiled schema and any bytes at all, the validator and every
reader answer, and what a reader finds lies inside the bytes. Where the validator accepts,
every row and every path at indices in range is found, and its value is read. -/
theorem reading_safe {w : Bytes} {s : Schema} (h : compile w = some s) (msg : Bytes) :
    (∃ ok, validate s msg = some ok) ∧ (∃ len, msgLen s msg = some len) ∧
    (∀ f elems cr, f < s.nfields → ∃ o, resolve s msg f elems cr = some o ∧
      ∀ sp cr', o = some (sp, cr') → sp.stop ≤ msg.length) ∧
    (∀ f elems, ∃ v, getValueAt s msg f elems = some v) ∧
    (∀ path, GettersAnswer s msg path) ∧
    (validate s msg = some true → ∀ f elems, f < s.nfields → InRange s msg f elems →
      ∃ sp v, resolve s msg f elems none = some (some (sp, none)) ∧ sp.stop ≤ msg.length ∧
        getValueAt s msg f elems = some (some v)) ∧
    (validate s msg = some true → ∀ path f elems, fieldByPath s path = some (some (f, elems)) →
      InRange s msg f elems →
      ∃ sp, readLookup s msg path none = some (some (f, sp, none)) ∧ sp.stop ≤ msg.length) := by
  obtain ⟨-, t₀, hb⟩ := compile_built h
  refine ⟨hb.validate_ends, msgLen_ends s msg, ?_, hb.getValueAt_ends, hb.getters_answer msg,
    fun hval f elems hf hrange => hb.resolve_ok hval hf hrange, ?_⟩
  · intro f elems cr hf
    obtain ⟨o, ho, hsp⟩ := hb.resolve_ends msg elems cr hf
    exact ⟨o, ho, fun sp cr' hc => (hsp sp cr' hc).1⟩
  · intro hval path f elems hpath hrange
    obtain ⟨o, ho, hlt⟩ := hb.fieldByPath_ends path
    obtain rfl := Option.some.inj (ho.symm.trans hpath)
    obtain ⟨sp, -, hres, hstop, -⟩ := hb.resolve_ok hval (hlt f elems rfl).1 hrange
    refine ⟨sp, ?_, hstop⟩
    unfold readLookup
    rw [hpath]
    dsimp only
    rw [hres]
    rfl

/-- A struct `A` of a `u8` named `x` and an array of `u8` named `v`. -/
def pairWire : Bytes := [8, 1, 65, 12, 2, 1, 120, 0, 1, 118, 15, 0]

/-- Its schema. -/
def pairSchema : Schema :=
  { wire := pairWire, name := [65], size := 1, msgMin := 5, nVar := 1, valueRoot := false
    fields :=
      [{ name := [120], size := 1, typeOff := 7, typeLen := 1, next := 1 },
       { name := [118], typeOff := 10, typeLen := 2, next := 3, kind := .varr, var := true },
       { size := 1, typeOff := 11, typeLen := 1, depth := 1, parent := some 1, next := 3
         arrParent := some 1, arrDepth := 1 }] }

/-- Element 1 of `v` in a message of two, and the refusal of element 2. -/
theorem reading_safe_pair : compile pairWire = some pairSchema ∧
    (∃ sp, readLookup pairSchema [7, 2, 0, 0, 0, 5, 6] [118, 91, 49, 93] none =
      some (some (2, sp, none)) ∧ sp.stop ≤ 7) ∧
    getUint pairSchema [7, 2, 0, 0, 0, 5, 6] [118, 91, 49, 93] = some 6 ∧
    getUint pairSchema [7, 2, 0, 0, 0, 5, 6] [118, 91, 50, 93] = some 0 := by
  have hcompile : compile pairWire = some pairSchema := by decide +kernel
  have hval : validate pairSchema [7, 2, 0, 0, 0, 5, 6] = some true := by decide +kernel
  have hpath : fieldByPath pairSchema [118, 91, 49, 93] = some (some (2, [1])) := by decide +kernel
  have hchain : chainOf pairSchema 2 = some [1] := by decide +kernel
  have hget : getValueAt pairSchema [7, 2, 0, 0, 0, 5, 6] 1 [] =
      some (some (.array 2 [5, 6])) := by decide +kernel
  refine ⟨hcompile, ?_, by decide +kernel, by decide +kernel⟩
  refine (reading_safe hcompile [7, 2, 0, 0, 0, 5, 6]).2.2.2.2.2.2 hval _ 2 [1] hpath ?_
  refine ⟨rfl, fun chain hc k a e ha he count packed hcount => ?_⟩
  obtain rfl := Option.some.inj (hchain.symm.trans hc)
  cases k with
  | succ k => cases ha
  | zero =>
    obtain rfl : 1 = a := Option.some.inj ha
    obtain rfl : 1 = e := Option.some.inj he
    have heq := hget.symm.trans hcount
    simp only [Option.some.injEq, Value.array.injEq] at heq
    omega

end Rant.Serialize
