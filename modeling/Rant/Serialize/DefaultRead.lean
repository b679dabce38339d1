import Rant.Serialize.Default
import Rant.Serialize.Grammar
/-!
# The default message read back

Every part of the default message is where the readers look for it: a record's frame `ord` is
the one of its row with that ordinal, an element table's ends and bodies lie in step. So the
validator accepts the message (`Built.validate_default`), and a reader that descends from it
passes default regions alone (`RegionZero`) and ends in a zero (`ReadsZero`).
-/

namespace Rant.Serialize

open Rant.Lib

/-- The span holds the bytes `bs`. -/
structure Holds (msg : Bytes) (sp : Span) (bs : Bytes) : Prop where
  bytes : At msg sp.off bs
  len : sp.len = bs.length

/-- A part of some zeros. -/
theorem zeros_part {msg rest : Bytes} {pos k off size : Nat}
    (h : At msg pos (List.replicate k 0 ++ rest)) (hin : off + size ≤ k) :
    Holds msg ⟨pos + off, size⟩ (List.replicate size 0) := by
  have hz := (at_append.mp h).1
  rw [show k = off + (size + (k - off - size)) by omega, ← List.replicate_append_replicate, ← List.replicate_append_replicate,
    at_append, at_append, List.length_replicate] at hz
  exact ⟨hz.2.1, by rw [List.length_replicate]⟩

/-- A number of zero bytes. -/
theorem readLe_zeros {msg : Bytes} : ∀ {n pos k : Nat}, At msg pos (List.replicate k 0) → n ≤ k →
    readLe msg pos n = some 0
  | 0, _, _, _, _ => rfl
  | n + 1, pos, k, h, hn => by
    have hhead := h.get (i := 0) (by rw [List.length_replicate]; omega)
    rw [Nat.add_zero, List.getElem?_replicate, if_pos (by omega)] at hhead
    rw [show k = 1 + (k - 1) by omega, ← List.replicate_append_replicate, at_append, List.length_replicate] at h
    have hrest := readLe_zeros (n := n) h.2 (by omega)
    simp [readLe, hhead, hrest]

/-- What stands where row `f` is found: zeros for fixed bytes, its default payload else. -/
def SpanZero (s : Schema) (msg : Bytes) (f : Nat) (sp : Span) : Prop :=
  if (s.row f).var = false then Holds msg sp (List.replicate (s.row f).size 0)
  else if (s.row f).kind = .struct then At msg sp.off (List.replicate (s.row f).size 0)
  else Holds msg sp (payloadOf s f)

/-- A default region of record `r`. -/
def RegionZero (s : Schema) (msg : Bytes) (r : Option Nat) (rg : Span) : Prop :=
  match r with
  | none => Holds msg rg (recordOf s none)
  | some e =>
    if (s.row e).var = false then Holds msg rg (List.replicate (s.row e).size 0)
    else Holds msg rg (bodyOf s e)

/-- A default element table: the declared count, ends in step, and a default body each. -/
structure TableAt (s : Schema) (msg : Bytes) (a : Nat) (sp : Span) : Prop where
  len : sp.len = 4 + 4 * defaultCount s a + defaultCount s a * (s.row (a + 1)).dmin
  count : le32 msg sp.off = some (defaultCount s a)
  ends : ∀ i, i < defaultCount s a → le32 msg (sp.off + 4 + 4 * i) = some ((i + 1) * (s.row (a + 1)).dmin)
  body : ∀ i, i < defaultCount s a → Holds msg
    ⟨sp.off + 4 + 4 * defaultCount s a + i * (s.row (a + 1)).dmin, (s.row (a + 1)).dmin⟩
    (bodyOf s (a + 1))

/-- The live count of a default element table. -/
theorem TableAt.live {s : Schema} {msg : Bytes} {a : Nat} {sp : Span}
    (h : TableAt s msg a sp)
    (hv : (s.row (a + 1)).var = true) : arrayLive s msg a sp = some (some (defaultCount s a)) := by
  have hlen := h.len
  unfold arrayLive
  rw [if_neg (by rw [hv]; simp), if_neg (by omega), h.count]
  dsimp only
  rw [if_neg, if_neg (by omega)]
  intro hc
  exact hc.2 (if_pos hc.1)

section
variable {s : Schema} {t₀ : Table}

/-! ## Frames by ordinal -/

theorem framesBelow_rides (t : Table) (r : Option Nat) (i : Nat) :
    framesBelow t r (i + 1) = framesBelow t r i + if RidesIn t r i then 1 else 0 := rfl

theorem framesBelow_framedIn (t : Table) (r : Option Nat) (i k : Nat) :
    framesBelow t r (i + k) = framesBelow t r i + (framedIn t r i k).length := by
  induction k generalizing i with
  | zero => rfl
  | succ k ih =>
    rw [framedIn_succ, show i + (k + 1) = i + 1 + k by omega, ih,
      framesBelow_rides, List.length_append]
    split
    · simp
      omega
    · simp

/-- The frame in front of others: its length, its payload, and what is behind. -/
theorem frameOf_at {msg : Bytes} {k pos : Nat} {l : List Nat}
    (hlen : (payloadOf s k).length = (s.row k).dmin) (hsmall : (s.row k).dmin ≤ u32Max)
    (hat : At msg pos ((k :: l).flatMap (frameOf s))) :
    (frameOf s k).length = 4 + (s.row k).dmin ∧ le32 msg pos = some (s.row k).dmin ∧
      At msg (pos + 4) (payloadOf s k) ∧
        At msg (pos + 4 + (s.row k).dmin) (l.flatMap (frameOf s)) := by
  have hflen : (frameOf s k).length = 4 + (s.row k).dmin := by
    rw [frameOf, List.length_append, length_writeLe, hlen]
  rw [List.flatMap_cons, at_append, hflen, frameOf, at_append, length_writeLe, ← Nat.add_assoc] at hat
  exact ⟨hflen, readLe_at hat.1.1 (by unfold u32Max at hsmall; omega), hat.1.2, hat.2⟩

/-- The frames of a list of rows, the one at `idx`. -/
theorem frameFrom_frames {msg : Bytes} {stop : Nat} : ∀ (l : List Nat) (idx j pos : Nat),
    (∀ k ∈ l, (payloadOf s k).length = (s.row k).dmin ∧ (s.row k).dmin ≤ u32Max) →
    At msg pos (l.flatMap (frameOf s)) → pos + (l.flatMap (frameOf s)).length ≤ stop →
    l[idx]? = some j →
    ∃ sp, frameFrom msg stop idx pos = some (some sp) ∧ Holds msg sp (payloadOf s j)
  | [], idx, j, pos, _, _, _, hj => by cases hj
  | k :: l, idx, j, pos, hl, hat, hstop, hj => by
    obtain ⟨hlen, hsmall⟩ := hl k (List.mem_cons_self ..)
    obtain ⟨hflen, hread, hpay, hrest⟩ := frameOf_at hlen hsmall hat
    rw [List.flatMap_cons, List.length_append, hflen] at hstop
    unfold frameFrom
    rw [if_neg (by omega), hread]
    dsimp only
    rw [if_neg (by omega)]
    cases idx with
    | zero =>
      obtain rfl : k = j := Option.some.inj hj
      exact ⟨_, rfl, hpay, hlen.symm⟩
    | succ idx =>
      exact frameFrom_frames l idx j _ (fun k' hk' => hl k' (List.mem_cons_of_mem _ hk'))
        hrest (by omega) hj

namespace Built

variable (hb : Built s t₀) {msg : Bytes}
include hb

/-- The framed rows of a record come in the order of their ordinals. -/
theorem framedIn_ord (r : Option Nat) : ∀ (k i idx j : Nat), i + k ≤ s.nfields →
    (framedIn s.fields r i k)[idx]? = some j →
    (s.row j).varOrd = framesBelow s.fields r i + idx := by
  intro k
  induction k with
  | zero => intro i idx j _ h; cases h
  | succ k ih =>
    intro i idx j hk h
    rw [framedIn_succ] at h
    by_cases hr : RidesIn s.fields r i
    · rw [if_pos hr] at h
      have hord : framesBelow s.fields r (i + 1) = framesBelow s.fields r i + 1 := by
        rw [framesBelow_rides, if_pos hr]
      cases idx with
      | zero =>
        obtain rfl : i = j := Option.some.inj h
        rw [hb.varOrd_eq (by omega) hr.1, Nat.add_zero, show rowRecord (s.row i) = r from hr.2]
      | succ idx =>
        rw [ih (i + 1) idx j (by omega) h, hord]
        omega
    · rw [if_neg hr] at h
      have hord : framesBelow s.fields r (i + 1) = framesBelow s.fields r i := by
        rw [framesBelow_rides, if_neg hr, Nat.add_zero]
      rw [ih (i + 1) idx j (by omega) h, hord]

variable {r : Option Nat}

theorem framesOf_ord {idx j : Nat} (h : (framesOf s r)[idx]? = some j) :
    RidesIn s.fields r j ∧ (s.row j).varOrd = idx := by
  have hord := hb.framedIn_ord r s.nfields 0 idx j (by omega) h
  rw [show framesBelow s.fields r 0 = 0 from rfl, Nat.zero_add] at hord
  exact ⟨(mem_framedIn.mp (List.mem_of_getElem? h)).2.2, hord⟩

theorem length_framesOf (r : Option Nat) : (framesOf s r).length = s.recFrames r := by
  have h := framesBelow_framedIn s.fields r 0 s.nfields
  rw [show framesBelow s.fields r 0 = 0 from rfl, Nat.zero_add, Nat.zero_add] at h
  rw [hb.recFrames_eq]
  exact h.symm

/-- A framed row is the one its ordinal finds. -/
theorem framesOf_at {j : Nat} (h : RidesIn s.fields r j) :
    (framesOf s r)[(s.row j).varOrd]? = some j := by
  obtain ⟨hj, -⟩ := hb.rides_range h
  obtain ⟨idx, hidx⟩ := List.mem_iff_getElem?.mp
    (mem_framedIn.mpr ⟨Nat.zero_le j, by omega, h⟩ : j ∈ framesOf s r)
  rw [(hb.framesOf_ord hidx).2]
  exact hidx

/-- What a default frame holds fits its length word. -/
theorem frame_fits (hmin : Minimal s) (r : Option Nat) : ∀ k ∈ framesOf s r,
    (payloadOf s k).length = (s.row k).dmin ∧ (s.row k).dmin ≤ u32Max :=
  fun k hk => ⟨hb.length_payload hmin (mem_framedIn.mp hk).2.2, hmin.small k⟩

variable {rg : Span}

variable {f : Nat}

/-- A default record's frame is the default payload of its row. -/
theorem recordFrame_default (hmin : Minimal s)
    (h : Holds msg rg (recordOf s r)) (hf : RidesIn s.fields r f) :
    ∃ sp, recordFrame s msg rg r (s.row f).varOrd = some (some sp) ∧
      Holds msg sp (payloadOf s f) := by
  have hlt := hb.varOrd_lt (hb.rides_range hf).1 hf.1
  rw [show rowRecord (s.row f) = r from hf.2] at hlt
  unfold recordFrame
  rw [if_neg (by omega)]
  have hat := h.bytes
  have hlen := h.len
  rw [recordOf, at_append, List.length_replicate] at hat
  rw [recordOf, List.length_append, List.length_replicate] at hlen
  exact frameFrom_frames (framesOf s r) _ f _ (hb.frame_fits hmin r) hat.2
    (by unfold Span.stop; omega) (hb.framesOf_at hf)

/-! ## The validator -/

/-- The frames of a record, whose payloads the check accepts. -/
theorem validFrames_default (hr : RecordOf s r) {pay : Nat → Span → Option Bool}
    {stop : Nat} : ∀ (l : List Nat) (ord cur pos : Nat),
    (∀ idx j, l[idx]? = some j → RidesIn s.fields r j ∧ (s.row j).varOrd = ord + idx) →
    (∀ k ∈ l, (payloadOf s k).length = (s.row k).dmin ∧ (s.row k).dmin ≤ u32Max) →
    (∀ k ∈ l, ∀ sp, Holds msg sp (payloadOf s k) → pay k sp = some true) →
    AtRecord s r cur → At msg pos (l.flatMap (frameOf s)) →
    pos + (l.flatMap (frameOf s)).length = stop →
    validFrames s msg pay r stop l.length ord cur pos = some true
  | [], ord, cur, pos, _, _, _, _, _, hstop => by
    simp only [List.flatMap_nil, List.length_nil, Nat.add_zero] at hstop
    simp [validFrames, hstop]
  | k :: l, ord, cur, pos, hord, hl, hpay, hcur, hat, hstop => by
    obtain ⟨hlen, hsmall⟩ := hl k (List.mem_cons_self ..)
    obtain ⟨hrides, hk⟩ := hord 0 k rfl
    obtain ⟨hkn, hlo, hhi⟩ := hb.rides_range hrides
    obtain ⟨hflen, hread, hbody, hrest⟩ := frameOf_at hlen hsmall hat
    rw [List.flatMap_cons, List.length_append, hflen] at hstop
    have hfind := hb.recordRow_finds hr hcur hkn hrides.1 hrides.2
    rw [hk, Nat.add_zero] at hfind
    have hone := hpay k (List.mem_cons_self ..) ⟨pos + 4, (s.row k).dmin⟩ ⟨hbody, hlen.symm⟩
    rw [List.length_cons, validFrames, if_neg (by omega), hread]
    dsimp only
    rw [if_neg (by omega), hfind]
    dsimp only
    rw [hone]
    refine validFrames_default hr l (ord + 1) _ _ (fun idx j hj => ?_)
      (fun k' hk' => hl k' (List.mem_cons_of_mem _ hk'))
      (fun k' hk' => hpay k' (List.mem_cons_of_mem _ hk'))
      (hb.atRecord_next hr ⟨hlo, fun _ => hrides.2⟩ hhi) hrest (by omega)
    obtain ⟨h1, h2⟩ := hord (idx + 1) j hj
    exact ⟨h1, by omega⟩

/-- A default record, over a check that accepts default payloads. -/
theorem validRecord_default (hmin : Minimal s) (hr : RecordOf s r)
    {pay : Nat → Span → Option Bool} (h : Holds msg rg (recordOf s r))
    (hpay : ∀ k, RidesIn s.fields r k → ∀ sp, Holds msg sp (payloadOf s k) → pay k sp = some true) :
    validRecord s msg pay r rg = some true := by
  have hat := h.bytes
  have hlen := h.len
  rw [recordOf, at_append, List.length_replicate] at hat
  rw [recordOf, List.length_append, List.length_replicate] at hlen
  unfold validRecord
  rw [if_neg (by unfold Span.stop; omega), ← hb.length_framesOf]
  refine hb.validFrames_default hr (framesOf s r) 0 _ _ (fun idx j hj => ?_) (hb.frame_fits hmin r)
    (fun k hk => hpay k (mem_framedIn.mp hk).2.2) (hb.atRecord_first hr) hat.2
    (by unfold Span.stop; omega)
  obtain ⟨h1, h2⟩ := hb.framesOf_ord hj
  exact ⟨h1, by omega⟩

/-! ## Element tables -/

omit hb in
/-- The ends of a default element table. -/
theorem elementEnds_at {d : Nat} : ∀ (n k i pos : Nat), At msg pos (elementEnds d n k) → i < n →
    At msg (pos + 4 * i) (writeLe 4 ((k + i + 1) * d))
  | 0, _, _, _, _, hi => absurd hi (Nat.not_lt_zero _)
  | n + 1, k, 0, pos, h, _ => by
    rw [elementEnds, at_append] at h
    exact h.1
  | n + 1, k, i + 1, pos, h, hi => by
    rw [elementEnds, at_append, length_writeLe] at h
    have hrec := elementEnds_at n (k + 1) i (pos + 4) h.2 (by omega)
    rw [show pos + 4 * (i + 1) = pos + 4 + 4 * i by omega,
      show k + (i + 1) + 1 = k + 1 + i + 1 by omega]
    exact hrec

omit hb in
/-- One of equal bodies. -/
theorem bodies_at {b : Bytes} : ∀ (n i pos : Nat), At msg pos (List.replicate n b).flatten → i < n →
    At msg (pos + i * b.length) b
  | 0, _, _, _, hi => absurd hi (Nat.not_lt_zero _)
  | n + 1, i, pos, h, hi => by
    rw [List.replicate_succ, List.flatten_cons, at_append] at h
    cases i with
    | zero =>
      rw [Nat.zero_mul]
      exact h.1
    | succ i =>
      have hrec := bodies_at n i (pos + b.length) h.2 (by omega)
      rw [Nat.succ_mul, show pos + (i * b.length + b.length) = pos + b.length + i * b.length by omega]
      exact hrec

variable {sp : Span}

theorem tableAt (hmin : Minimal s) {a : Nat} (ha : a < s.nfields)
    (hka : (s.row a).kind.isArray = true) (hv : (s.row (a + 1)).var = true)
    (h : Holds msg sp (payloadOf s a)) : TableAt s msg a sp := by
  have hbody := hb.length_body hmin ha hka hv
  have hav : (s.row a).var = true := by
    rw [(hb.elem ha hka).2.2.2.2.var, hv, Bool.or_true]
  have hks : (s.row a).kind ≠ .struct := by
    intro hc
    rw [hc] at hka
    exact absurd hka (by simp [Kind.isArray])
  have hfits := (hb.length_default hmin ha hav).1 hks
  have hsmall := hmin.small a
  have hat := h.bytes
  have hlen := h.len
  rw [hb.payloadOf_table ha hka hv] at hat hfits hlen
  simp only [List.length_append, length_writeLe, length_elementEnds, length_bodies, hbody] at hfits hlen
  rw [at_append, at_append, length_writeLe, length_elementEnds] at hat
  obtain ⟨hcount, hends, hbodies⟩ := hat
  have hmul : ∀ i, i < defaultCount s a → (i + 1) * (s.row (a + 1)).dmin ≤
      defaultCount s a * (s.row (a + 1)).dmin := fun i hi => Nat.mul_le_mul_right _ hi
  unfold u32Max at hsmall
  refine ⟨by omega, readLe_at hcount (by omega), fun i hi => ?_, fun i hi => ?_⟩
  · have hat := elementEnds_at _ _ i _ hends hi
    rw [Nat.zero_add] at hat
    have := hmul i hi
    exact readLe_at hat (by omega)
  · have hat := bodies_at _ i _ hbodies hi
    rw [hbody] at hat
    exact ⟨hat, hbody.symm⟩

omit hb in
/-- The elements of a default table, over a check that accepts each. -/
theorem validBodies_default {check : Span → Option Bool} {sp : Span} {tab bodies d c : Nat}
    (hends : ∀ i, i < c → le32 msg (tab + 4 * i) = some ((i + 1) * d))
    (hcheck : ∀ i, i < c → check ⟨bodies + i * d, d⟩ = some true)
    (hstop : bodies + c * d = sp.stop) : ∀ (n k prev : Nat), k + n = c → prev = k * d →
      validBodies msg check sp tab bodies n k prev = some true
  | 0, k, prev, hk, hprev => by
    obtain rfl : k = c := by omega
    simp [validBodies, hprev, hstop]
  | n + 1, k, prev, hk, hprev => by
    have hlt : k < c := by omega
    have hle : (k + 1) * d ≤ c * d := Nat.mul_le_mul_right d hlt
    have hstep : (k + 1) * d = k * d + d := Nat.succ_mul k d
    rw [validBodies, hends k hlt]
    dsimp only
    rw [if_neg (by omega), if_neg (by omega), show (k + 1) * d - prev = d by omega, hprev,
      hcheck k hlt]
    exact validBodies_default hends hcheck hstop n (k + 1) _ (by omega) rfl

/-- The validator accepts a default payload. -/
theorem validPayload_default (hmin : Minimal s) : ∀ (n : Nat) {f : Nat} {sp : Span},
    f < s.nfields → s.nfields ≤ f + n → Holds msg sp (payloadOf s f) →
    validPayload s msg n f sp = some true
  | 0, f, sp, hf, hn, _ => by omega
  | n + 1, f, sp, hf, hn, h => by
    rw [validPayload]
    by_cases hka : (s.row f).kind.isArray = true
    · rw [if_neg (by rw [hka]; simp)]
      by_cases hv : (s.row (f + 1)).var = true
      · obtain ⟨helem, -⟩ := hb.elem hf hka
        have ht := hb.tableAt hmin hf hka hv h
        rw [if_neg (by rw [hv]; simp), ht.live hv]
        dsimp only
        have hlen := ht.len
        have hstop : sp.off + 4 + 4 * defaultCount s f +
            defaultCount s f * (s.row (f + 1)).dmin = sp.stop := by
          unfold Span.stop
          omega
        refine validBodies_default ht.ends (fun i hi => ?_) hstop _ 0 0 (Nat.zero_add _)
          (Nat.zero_mul _).symm
        have hbody := ht.body i hi
        unfold bodyOf at hbody
        by_cases hes : (s.row (f + 1)).kind = .struct
        · rw [if_pos hes] at hbody ⊢
          refine hb.validRecord_default hmin (recordOf_elem hf hka hes) hbody fun k hk sp' hsp' => ?_
          have hlt := hb.rides_lt hk
          exact validPayload_default hmin n (hb.rides_range hk).1 (by omega) hsp'
        · rw [if_neg hes] at hbody ⊢
          exact validPayload_default hmin n helem (by omega) hbody
      · have hv' : (s.row (f + 1)).var = false := by rwa [Bool.not_eq_true] at hv
        have hlen := h.len
        rw [hb.payloadOf_leaf hf (Or.inr hv'), List.length_nil] at hlen
        rw [if_pos hv', hlen, Nat.zero_mod]
        rfl
    · rw [if_pos (by rwa [Bool.not_eq_true] at hka)]

/-- The validator accepts the default message. -/
theorem validate_default (hmin : Minimal s) : validate s (recordOf s none) = some true := by
  have hwhole : Holds (recordOf s none) (wholeOf (recordOf s none)) (recordOf s none) :=
    ⟨⟨Nat.zero_le _, by simp [wholeOf]⟩, rfl⟩
  unfold validate
  by_cases hn : s.nVar = 0
  · rw [if_pos hn]
    have hframes : framesOf s none = [] := by
      apply List.eq_nil_of_length_eq_zero
      rw [hb.length_framesOf]
      exact hn
    simp [recordOf, hframes, Schema.recSize]
  · rw [if_neg hn]
    exact hb.validRecord_default hmin recordOf_message hwhole fun k hk sp hsp =>
      hb.validPayload_default hmin s.nfields (hb.rides_range hk).1 (by omega) hsp

/-! ## The readers -/

/-- The fixed bytes of a default region are zero. -/
theorem region_fixed (h : RegionZero s msg r rg) (hf : f < s.nfields)
    (hrec : rowRecord (s.row f) = r) (hne : r ≠ some f) :
    ∃ rest, At msg rg.off (List.replicate (s.recSize r) 0 ++ rest) := by
  cases r with
  | none =>
    have h' : Holds msg rg (recordOf s none) := h
    exact ⟨_, h'.bytes⟩
  | some e =>
    obtain ⟨hks, -⟩ := hb.member_of hf hrec fun hc => hne (congrArg some hc.symm)
    unfold RegionZero at h
    dsimp only at h
    by_cases hv : (s.row e).var = false
    · rw [if_pos hv] at h
      refine ⟨[], ?_⟩
      rw [List.append_nil]
      exact h.bytes
    · rw [if_neg hv, bodyOf, if_pos hks] at h
      exact ⟨_, h.bytes⟩

/-- A variable row of a record that is neither a struct nor the record itself rides a frame. -/
theorem framed_of_var (hf : f < s.nfields) (hv : (s.row f).var = true)
    (hks : (s.row f).kind ≠ .struct) (hne : rowRecord (s.row f) ≠ some f) :
    rowFramed s.fields (s.row f) = true := by
  unfold rowFramed
  rw [hv]
  have hap := hb.arrParent_eq hf
  cases hp : (s.row f).parent with
  | none => simp [hks]
  | some p =>
    rw [hp] at hap
    dsimp only at hap
    cases hpk : (s.row p).kind.isArray with
    | false =>
      have hpk' : (rowOf s.fields p).kind.isArray = false := hpk
      simp [hks, hpk']
    | true =>
      -- an element is its own record
      rw [if_pos hpk] at hap
      rcases (hb.parent_spec hf hp).2.2.2 with hs | ⟨-, rfl⟩
      · rw [hs] at hpk
        exact absurd hpk (by simp [Kind.isArray])
      · exact absurd (rowRecord_eq_some.mpr ⟨p, hap, rfl⟩) hne

variable {cr cr' : Option (List Carry)}

/-- Locating a row in a default region. -/
theorem locate_zero (hmin : Minimal s) (h : RegionZero s msg r rg)
    (hf : f < s.nfields) (hrec : rowRecord (s.row f) = r)
    (hloc : locate s msg rg r f cr = some (some (sp, cr'))) :
    SpanZero s msg f sp := by
  unfold locate at hloc
  unfold SpanZero
  by_cases hself : r = some f
  · rw [if_pos hself] at hloc
    subst hself
    unfold RegionZero at h
    dsimp only at h
    split at hloc
    next => cases hloc
    simp only [Option.some.injEq, Prod.mk.injEq] at hloc
    obtain ⟨rfl, -⟩ := hloc
    by_cases hv : (s.row f).var = false
    · rw [if_pos hv] at h ⊢
      exact h
    rw [if_neg hv] at h ⊢
    unfold bodyOf at h
    by_cases hks : (s.row f).kind = .struct
    · rw [if_pos hks] at h ⊢
      exact (at_append.mp h.bytes).1
    · rw [if_neg hks] at h ⊢
      exact h
  · rw [if_neg hself] at hloc
    by_cases hff : rowFramed s.fields (s.row f) = true
    · rw [if_pos hff] at hloc
      have hvk := hff
      unfold rowFramed at hvk
      simp only [Bool.and_eq_true, decide_eq_true_eq] at hvk
      rw [if_neg (by rw [hvk.1.1]; simp), if_neg hvk.1.2]
      -- the region is a default record
      have hrg : Holds msg rg (recordOf s r) := by
        cases r with
        | none => exact h
        | some e =>
          obtain ⟨hks, hvar⟩ := hb.member_of hf hrec fun hc => hself (congrArg some hc.symm)
          unfold RegionZero at h
          dsimp only at h
          rw [if_neg (by rw [hvar hvk.1.1]; simp), bodyOf, if_pos hks] at h
          exact h
      obtain ⟨sp', hsp', hpay⟩ := hb.recordFrame_default hmin hrg ⟨hff, hrec⟩
      rw [hsp'] at hloc
      dsimp only at hloc
      unfold carried at hloc
      obtain ⟨c, -, hc⟩ := Option.map_eq_some_iff.mp (Option.some.inj hloc)
      simp only [Prod.mk.injEq] at hc
      obtain ⟨rfl, -⟩ := hc
      exact hpay
    · rw [if_neg hff] at hloc
      split at hloc
      next => cases hloc
      simp only [Option.some.injEq, Prod.mk.injEq] at hloc
      obtain ⟨rfl, -⟩ := hloc
      obtain ⟨rest, hzero⟩ := hb.region_fixed h hf hrec hself
      have hin := hb.fixed_inside hf (by rwa [Bool.not_eq_true] at hff)
      rw [hrec] at hin
      have hpart := zeros_part hzero hin
      by_cases hv : (s.row f).var = false
      · rw [if_pos hv]
        exact hpart
      rw [Bool.not_eq_false] at hv
      have hks : (s.row f).kind = .struct := by
        by_contra hks
        exact hff (hb.framed_of_var hf hv hks (by rw [hrec]; exact hself))
      rw [if_neg (by rw [hv]; simp), if_pos hks]
      exact hpart.bytes

/-- Where a default array's elements are. -/
theorem arrayElem_zero (hmin : Minimal s) {a e : Nat} (ha : a < s.nfields)
    (hka : (s.row a).kind.isArray = true) (h : SpanZero s msg a sp)
    (helem : arrayElem s msg a sp e cr = some (some (rg, cr'))) :
    RegionZero s msg (some (a + 1)) rg := by
  obtain ⟨hlt, -, -, -, hok⟩ := hb.elem ha hka
  have hks : (s.row a).kind ≠ .struct := by
    intro hc
    rw [hc] at hka
    exact absurd hka (by simp [Kind.isArray])
  unfold SpanZero at h
  rw [if_neg hks] at h
  unfold RegionZero
  dsimp only
  unfold arrayElem at helem
  by_cases hv : (s.row (a + 1)).var = false
  · obtain ⟨c, hc⟩ : ∃ c, c = (if (s.row a).kind = .arr then (s.row a).count
        else sp.len / (s.row (a + 1)).size) := ⟨_, rfl⟩
    have hlive : arrayLive s msg a sp = some (some c) := by
      unfold arrayLive
      rw [if_pos hv, hc]
    rw [hlive] at helem
    dsimp only at helem
    by_cases hlt' : c ≤ e
    · rw [if_pos hlt'] at helem
      cases helem
    rw [if_neg hlt', if_pos hv] at helem
    simp only [Option.some.injEq, Prod.mk.injEq] at helem
    obtain ⟨rfl, -⟩ := helem
    rw [if_pos hv]
    by_cases hk : (s.row a).kind = .arr
    · rw [if_pos hk] at hc
      have hva : (s.row a).var = false := by rw [hok.var, hk, hv]; rfl
      rw [if_pos hva, hok.fixed hk hv] at h
      have hbytes := h.bytes
      rw [← List.append_nil (List.replicate _ _)] at hbytes
      refine zeros_part hbytes ?_
      have := Nat.mul_le_mul_right (s.row (a + 1)).size (show e + 1 ≤ (s.row a).count by omega)
      rw [Nat.succ_mul] at this
      exact this
    · -- a variable array of fixed elements is empty
      rw [if_neg hk] at hc
      have hva : (s.row a).var = true := by
        rcases Kind.isArray_iff.mp hka with hc | hc
        · exact absurd hc hk
        · rw [hok.var, hc]
          rfl
      rw [if_neg (by rw [hva]; simp)] at h
      have hlen := h.len
      rw [hb.payloadOf_leaf ha (Or.inr hv), List.length_nil] at hlen
      rw [hlen, Nat.zero_div] at hc
      omega
  · rw [if_neg hv]
    rw [Bool.not_eq_false] at hv
    have hva : (s.row a).var = true := by rw [hok.var, hv, Bool.or_true]
    rw [if_neg (by rw [hva]; simp)] at h
    have ht := hb.tableAt hmin ha hka hv h
    rw [ht.live hv] at helem
    dsimp only at helem
    split at helem
    next => cases helem
    next hlt' =>
      rw [if_neg (by rw [hv]; simp)] at helem
      have hlo : tableEnd msg (sp.off + 4) e = some (e * (s.row (a + 1)).dmin) := by
        cases e with
        | zero => rw [Nat.zero_mul]; rfl
        | succ e => exact ht.ends e (by omega)
      have hhi : tableEnd msg (sp.off + 4) (e + 1) = some ((e + 1) * (s.row (a + 1)).dmin) :=
        ht.ends e (by omega)
      rw [hlo, hhi] at helem
      dsimp only at helem
      split at helem
      next => cases helem
      unfold carried at helem
      obtain ⟨c, -, hc⟩ := Option.map_eq_some_iff.mp (Option.some.inj helem)
      simp only [Prod.mk.injEq] at hc
      obtain ⟨rfl, -⟩ := hc
      have hbody := ht.body e (by omega)
      rw [show (e + 1) * (s.row (a + 1)).dmin - e * (s.row (a + 1)).dmin = (s.row (a + 1)).dmin by
        rw [Nat.succ_mul]; omega]
      exact hbody

/-- The descent through the arrays around a row passes default regions alone. -/
theorem descend_zero (hmin : Minimal s) (hwhole : RegionZero s msg none (wholeOf msg))
    {ap : Option Nat} {l : List Nat} (hl : Chain s ap l)
    (hap : ∀ a, ap = some a → a < s.nfields ∧ (s.row a).kind.isArray = true) :
    ∀ (es : List Nat) (rg : Span) (r : Option Nat) (cr cr' : Option (List Carry)),
      l.length = es.length → descend s msg l es (wholeOf msg) none cr = some (some (rg, r, cr')) →
      r = ap.map (· + 1) ∧ RegionZero s msg r rg := by
  induction hl with
  | nil =>
    intro es rg r cr cr' _ h
    rw [descend.eq_def] at h
    simp only [Option.some.injEq, Prod.mk.injEq] at h
    obtain ⟨rfl, rfl, -⟩ := h
    exact ⟨rfl, hwhole⟩
  | @snoc a l hl ih =>
    intro es rg r cr cr' hlen h
    obtain ⟨ha, hk⟩ := hap a rfl
    rcases List.eq_nil_or_concat es with rfl | ⟨es', e, rfl⟩
    · simp at hlen
    · rw [List.concat_eq_append] at hlen h
      have hlen' : l.length = es'.length := by simpa using hlen
      have hpar : ∀ b, (s.row a).arrParent = some b →
          b < s.nfields ∧ (s.row b).kind.isArray = true := by
        intro b hab
        obtain ⟨hbk, hlt, -⟩ := hb.arrParent_around ha hab
        exact ⟨by omega, hbk⟩
      rw [descend_snoc hlen'] at h
      split at h
      next => cases h
      next => cases h
      next rg₁ r₁ cr₁ hdesc =>
        obtain ⟨rfl, hreg⟩ := ih hpar es' rg₁ r₁ cr cr₁ hlen' hdesc
        simp only [descend] at h
        split at h
        next => cases h
        next => cases h
        next sp cr₂ hloc =>
          have hspan := hb.locate_zero hmin hreg ha rfl hloc
          split at h
          next => cases h
          next => cases h
          next rg₂ cr₃ helem =>
            simp only [Option.some.injEq, Prod.mk.injEq] at h
            obtain ⟨rfl, rfl, -⟩ := h
            exact ⟨rfl, hb.arrayElem_zero hmin ha hk hspan helem⟩

/-- Where a row is found in the default message. -/
theorem resolve_zero (hmin : Minimal s) (hwhole : RegionZero s msg none (wholeOf msg))
    {elems : List Nat} (hf : f < s.nfields)
    (h : resolve s msg f elems cr = some (some (sp, cr'))) : SpanZero s msg f sp := by
  unfold resolve at h
  by_cases hlen : elems.length ≠ (s.row f).arrDepth
  · rw [if_pos hlen] at h
    cases h
  rw [if_neg hlen] at h
  obtain ⟨l, hl, hdepth, hchain⟩ := hb.chainOf_eq hf
  rw [hchain] at h
  dsimp only at h
  have hpar : ∀ a, (s.row f).arrParent = some a →
      a < s.nfields ∧ (s.row a).kind.isArray = true := by
    intro a ha
    obtain ⟨hk, hlt, -⟩ := hb.arrParent_around hf ha
    exact ⟨by omega, hk⟩
  split at h
  next => cases h
  next => cases h
  next rg r cr₁ hdesc =>
    obtain ⟨rfl, hreg⟩ := hb.descend_zero hmin hwhole hl hpar elems rg r cr cr₁ (by omega) hdesc
    exact hb.locate_zero hmin hreg hf rfl h

end Built

end

end Rant.Serialize
