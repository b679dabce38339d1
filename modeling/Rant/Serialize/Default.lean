import Rant.Serialize.Minimum
import Rant.Serialize.Accept
/-!
# Building the default message

The writing half of `src/serialize/message.c` as far as `rant_schema_message_default`: zeros
for the fixed bytes of a record, then one default frame per framed row it holds. The walk over
a record's rows passes its framed rows in order, so the record is `recordOf` and a payload
`payloadOf` (`Built.defaultPayload_eq`), and both are as long as the placing pass computed
(`Built.length_default`).
-/

namespace Rant.Serialize

open Rant.Lib

/-! ## The builder -/

/-- The element loop of `i_rant_default_payload`: the same body `n` times. -/
def defaultBodies (body : Option Bytes) : Nat → Option Bytes
  | 0 => some []
  | n + 1 => do
    let b ← body
    let rest ← defaultBodies body n
    some (b ++ rest)

/-- The loop of `i_rant_default_record` over the rows `[j, last)`, `none` when it did not
end. -/
def defaultFrames (s : Schema) (pay : Nat → Option Bytes) (last : Nat) : Nat → Nat → Option Bytes
  | 0, _ => none
  | n + 1, j =>
    if j < last then
      if rowFramed s.fields (s.row j) then do
        let p ← pay j
        let rest ← defaultFrames s pay last n (s.row j).next
        some (writeLe 4 (s.row j).dmin ++ (p ++ rest))
      else if (s.row j).kind = .arr then defaultFrames s pay last n (s.row j).next
      else defaultFrames s pay last n (j + 1)
    else some []

/-- `i_rant_default_record`: zeros, then one default frame per framed row of record `r`. -/
def defaultRecord (s : Schema) (pay : Nat → Option Bytes) (r : Option Nat) : Option Bytes :=
  (defaultFrames s pay (s.recLast r) (s.nfields + 1) (recFirst r)).map
    (List.replicate (s.recSize r) 0 ++ ·)

/-- The ends an element table opens with, the elements all `d` long. -/
def elementEnds (d : Nat) : Nat → Nat → Bytes
  | 0, _ => []
  | n + 1, k => writeLe 4 ((k + 1) * d) ++ elementEnds d n (k + 1)

/-- `i_rant_default_payload`: empty, or an array's element table and default bodies. The fuel
is as for `validPayload`. -/
def defaultPayload (s : Schema) : Nat → Nat → Option Bytes
  | 0, _ => none
  | n + 1, f =>
    if (s.row f).kind.isArray = false ∨ (s.row (f + 1)).var = false then some []
    else
      let count := if (s.row f).kind = .arr then (s.row f).count else 0
      let body :=
        if (s.row (f + 1)).kind = .struct then defaultRecord s (defaultPayload s n) (some (f + 1))
        else defaultPayload s n (f + 1)
      (defaultBodies body count).map fun bodies =>
        writeLe 4 count ++ (elementEnds (s.row (f + 1)).dmin count 0 ++ bodies)

/-- `rant_schema_message_default`: the buffer with the default message at its front, the inner
`none` where it is too small. -/
def messageDefault (s : Schema) (buf : Bytes) : Option (Option Bytes) :=
  if buf.length < s.msgMin then some none
  else if s.msgMin = 0 then some (some buf)
  else (defaultRecord s (defaultPayload s s.nfields) none).map fun p => some (p ++ buf.drop p.length)

/-! ## What it builds -/

/-- The default payload of row `f`. -/
def payloadOf (s : Schema) (f : Nat) : Bytes := (defaultPayload s s.nfields f).getD []

/-- The default frame of row `f`. -/
def frameOf (s : Schema) (f : Nat) : Bytes := writeLe 4 (s.row f).dmin ++ payloadOf s f

/-- The framed rows of record `r`, in order. -/
def framesOf (s : Schema) (r : Option Nat) : List Nat := framedIn s.fields r 0 s.nfields

/-- The default record `r`. -/
def recordOf (s : Schema) (r : Option Nat) : Bytes :=
  List.replicate (s.recSize r) 0 ++ (framesOf s r).flatMap (frameOf s)

/-- The elements of a fixed array, and none of a variable one. -/
def defaultCount (s : Schema) (f : Nat) : Nat :=
  if (s.row f).kind = .arr then (s.row f).count else 0

/-- The default body of the variable element `e`. -/
def bodyOf (s : Schema) (e : Nat) : Bytes :=
  if (s.row e).kind = .struct then recordOf s (some e) else payloadOf s e

theorem defaultBodies_some (b : Bytes) (n : Nat) :
    defaultBodies (some b) n = some (List.replicate n b).flatten := by
  induction n with
  | zero => rfl
  | succ n ih => simp [defaultBodies, ih, List.replicate_succ]

section
variable {s : Schema} {t₀ : Table}

namespace Built

variable (hb : Built s t₀)
include hb

variable {r : Option Nat}

/-- The rows of record `r` ride between its first row and its last. -/
theorem rides_range {j : Nat} (h : RidesIn s.fields r j) :
    j < s.nfields ∧ recFirst r ≤ j ∧ j < s.recLast r := by
  have hj : j < s.nfields := by
    by_contra hc
    have hv := h.1
    unfold framedAt rowFramed at hv
    rw [show rowOf s.fields j = default from rowOf_length_le (Nat.not_lt.mp hc)] at hv
    simp only [Bool.and_eq_true] at hv
    exact absurd hv.1.1 (by decide)
  exact ⟨hj, hb.framed_range hj h.1 h.2⟩

/-- A row that is no struct holds no rows of its own record. -/
theorem not_rides_below {k j : Nat} (hk : k < s.nfields)
    (hrec : rowRecord (s.row k) = r) (hks : (s.row k).kind ≠ .struct) (hlo : k < j)
    (hhi : j < (s.row k).next) : ¬ RidesIn s.fields r j := by
  intro hc
  have hne := hb.arrParent_below hk hks hlo hhi
  have hrec' : rowRecord (s.row j) = rowRecord (s.row k) := hc.2.trans hrec.symm
  unfold rowRecord at hrec'
  have hinj : Function.Injective (Option.map (· + 1) : Option Nat → Option Nat) :=
    Option.map_injective fun a b h => Nat.succ.inj h
  exact hne (hinj hrec')

/-- The walk over the rows of record `r` passes its framed rows in order. -/
theorem defaultFrames_eq (hr : RecordOf s r) {pay : Nat → Option Bytes}
    (hpay : ∀ j, RidesIn s.fields r j → pay j = some (payloadOf s j)) : ∀ (n j : Nat),
      AtRecord s r j → j ≤ s.nfields → s.nfields < j + n →
      defaultFrames s pay (s.recLast r) n j =
        some ((framedIn s.fields r j (s.nfields - j)).flatMap (frameOf s)) := by
  have hlast := hb.recLast_le hr
  intro n
  induction n with
  | zero => intro j _ h1 h2; omega
  | succ n ih =>
    intro j hat hj hn
    rw [defaultFrames]
    by_cases hlt : j < s.recLast r
    · rw [if_pos hlt]
      have hjn : j < s.nfields := by omega
      have hnext := hb.lt_next hjn
      have hle := hb.next_le hjn
      have hrec := hat.2 hlt
      -- the rows up to the next one, when none of them rides
      have hsplit : (s.row j).kind ≠ .struct → framedIn s.fields r j (s.nfields - j) =
          (if RidesIn s.fields r j then [j] else []) ++
            framedIn s.fields r (s.row j).next (s.nfields - (s.row j).next) := by
        intro hks
        rw [show s.nfields - j = ((s.row j).next - (j + 1) + (s.nfields - (s.row j).next)) + 1 by omega,
          framedIn_succ, framedIn_append, framedIn_none, List.nil_append,
          show j + 1 + ((s.row j).next - (j + 1)) = (s.row j).next by omega]
        intro k h1 h2
        exact hb.not_rides_below hjn hrec hks (by omega) (by omega)
      by_cases hf : rowFramed s.fields (s.row j) = true
      · have hks : (s.row j).kind ≠ .struct := by
          intro hc
          unfold rowFramed at hf
          rw [hc] at hf
          simp at hf
        have hrides : RidesIn s.fields r j := ⟨hf, hrec⟩
        rw [if_pos hf, hpay j hrides, ih _ (hb.atRecord_next hr hat hlt) hle (by omega),
          hsplit hks, if_pos hrides]
        simp only [Option.bind_eq_bind, Option.bind_some, List.singleton_append, List.flatMap_cons,
          frameOf, List.append_assoc]
      · rw [if_neg hf]
        have hnot : ¬ RidesIn s.fields r j := fun hc => hf hc.1
        by_cases hk : (s.row j).kind = .arr
        · rw [if_pos hk, ih _ (hb.atRecord_next hr hat hlt) hle (by omega),
            hsplit (by rw [hk]; simp), if_neg hnot, List.nil_append]
        rw [if_neg hk]
        have hka : (s.row j).kind.isArray = false := by
          rw [← Bool.not_eq_true, Kind.isArray_iff]
          rintro (hc | hc)
          · exact hk hc
          · exact hf (hb.varr_framed hjn hrec hat.1 hc)
        rw [ih _ (hb.atRecord_succ hr hat hlt hka) hjn (by omega),
          show s.nfields - j = (s.nfields - (j + 1)) + 1 by omega, framedIn_succ, if_neg hnot,
          List.nil_append]
    · rw [if_neg hlt, framedIn_none]
      · rfl
      · intro k h1 h2 hc
        have := (hb.rides_range hc).2.2
        omega

/-- The record, over payloads that are built. -/
theorem defaultRecord_eq (hr : RecordOf s r) {pay : Nat → Option Bytes}
    (hpay : ∀ j, RidesIn s.fields r j → pay j = some (payloadOf s j)) :
    defaultRecord s pay r = some (recordOf s r) := by
  have hlast := hb.recLast_le hr
  have hfirst : recFirst r ≤ s.nfields := by
    cases r with
    | none => exact Nat.zero_le _
    | some e =>
      obtain ⟨a, rfl, ha, hak, -⟩ := hr e rfl
      exact (hb.elem ha hak).1
  unfold defaultRecord
  rw [hb.defaultFrames_eq hr hpay (s.nfields + 1) (recFirst r) (hb.atRecord_first hr) hfirst
    (by omega)]
  unfold recordOf framesOf
  have hall : s.nfields = recFirst r + (s.nfields - recFirst r) := by omega
  have hsplit : framedIn s.fields r 0 s.nfields =
      framedIn s.fields r (recFirst r) (s.nfields - recFirst r) := by
    have := framedIn_append s.fields r 0 (recFirst r) (s.nfields - recFirst r)
    rw [← hall, Nat.zero_add] at this
    rw [this, framedIn_none, List.nil_append]
    intro k h1 h2 hc
    have := (hb.rides_range hc).2.1
    omega
  rw [hsplit]
  rfl

variable {f : Nat}

/-- A payload's rows lie behind its own, so the table's length is fuel enough. -/
theorem defaultPayload_eq (hf : f < s.nfields) : ∀ {n : Nat}, s.nfields ≤ f + n →
    defaultPayload s n f = some (payloadOf s f) := by
  -- what the payload is, whatever the fuel
  suffices h : ∃ p, ∀ n, s.nfields ≤ f + n → defaultPayload s n f = some p by
    obtain ⟨p, hp⟩ := h
    intro n hn
    have hfull := hp s.nfields (by omega)
    rw [hp n hn, payloadOf, hfull]
    rfl
  obtain ⟨k, hk⟩ : ∃ k, k = s.nfields - f := ⟨_, rfl⟩
  induction k using Nat.strongRecOn generalizing f with
  | _ k ih =>
    by_cases hleaf : (s.row f).kind.isArray = false ∨ (s.row (f + 1)).var = false
    · refine ⟨[], fun n hn => ?_⟩
      cases n with
      | zero => omega
      | succ n => rw [defaultPayload, if_pos hleaf]
    · have hka : (s.row f).kind.isArray = true := by
        by_contra hc
        exact hleaf (Or.inl (Bool.eq_false_iff.mpr hc))
      have helem := (hb.elem hf hka).1
      -- the payloads behind row `f`
      have hlater : ∀ j n, f < j → j < s.nfields → s.nfields ≤ j + n →
          defaultPayload s n j = some (payloadOf s j) := by
        intro j n hfj hj hn
        obtain ⟨p, hp⟩ := ih (s.nfields - j) (by omega) hj rfl
        rw [hp n hn, payloadOf, hp s.nfields (by omega)]
        rfl
      refine ⟨writeLe 4 (if (s.row f).kind = .arr then (s.row f).count else 0) ++
        (elementEnds (s.row (f + 1)).dmin (if (s.row f).kind = .arr then (s.row f).count else 0) 0 ++
          (List.replicate (if (s.row f).kind = .arr then (s.row f).count else 0)
            (bodyOf s (f + 1))).flatten), fun n hn => ?_⟩
      cases n with
      | zero => omega
      | succ n =>
        have hbody : (if (s.row (f + 1)).kind = .struct then
            defaultRecord s (defaultPayload s n) (some (f + 1))
            else defaultPayload s n (f + 1)) = some (bodyOf s (f + 1)) := by
          unfold bodyOf
          by_cases hs : (s.row (f + 1)).kind = .struct
          · rw [if_pos hs, if_pos hs]
            refine hb.defaultRecord_eq (recordOf_elem hf hka hs) fun j hj => ?_
            have hlt := hb.rides_lt hj
            exact hlater j n (by omega) (hb.rides_range hj).1 (by omega)
          · rw [if_neg hs, if_neg hs]
            exact hlater (f + 1) n (by omega) helem (by omega)
        rw [defaultPayload, if_neg hleaf]
        dsimp only
        rw [hbody, defaultBodies_some]
        rfl

/-- The payload of a row without an element table. -/
theorem payloadOf_leaf (hf : f < s.nfields)
    (h : (s.row f).kind.isArray = false ∨ (s.row (f + 1)).var = false) : payloadOf s f = [] := by
  have heq := hb.defaultPayload_eq hf (n := s.nfields - 1 + 1) (by omega)
  rw [defaultPayload, if_pos h, Option.some.injEq] at heq
  exact heq.symm

theorem defaultRecord_elem {e : Nat} (he : RecordOf s (some e)) {n : Nat}
    (hn : s.nfields ≤ e + n) : defaultRecord s (defaultPayload s n) (some e) =
      some (recordOf s (some e)) := by
  refine hb.defaultRecord_eq he fun j hj => ?_
  have hlt := hb.rides_lt hj
  exact hb.defaultPayload_eq (hb.rides_range hj).1 (by omega)

theorem defaultRecord_message :
    defaultRecord s (defaultPayload s s.nfields) none = some (recordOf s none) :=
  hb.defaultRecord_eq recordOf_message fun j hj =>
    hb.defaultPayload_eq (hb.rides_range hj).1 (by omega)

/-- The payload of an array of variable elements. -/
theorem payloadOf_table (hf : f < s.nfields) (hka : (s.row f).kind.isArray = true)
    (hv : (s.row (f + 1)).var = true) : payloadOf s f =
      writeLe 4 (defaultCount s f) ++ (elementEnds (s.row (f + 1)).dmin (defaultCount s f) 0 ++
        (List.replicate (defaultCount s f) (bodyOf s (f + 1))).flatten) := by
  have helem := (hb.elem hf hka).1
  have heq := hb.defaultPayload_eq hf (n := s.nfields - 1 + 1) (by omega)
  have hbody : (if (s.row (f + 1)).kind = .struct then
      defaultRecord s (defaultPayload s (s.nfields - 1)) (some (f + 1))
      else defaultPayload s (s.nfields - 1) (f + 1)) = some (bodyOf s (f + 1)) := by
    unfold bodyOf
    by_cases hs : (s.row (f + 1)).kind = .struct
    · rw [if_pos hs, if_pos hs]
      exact hb.defaultRecord_elem (recordOf_elem hf hka hs) (by omega)
    · rw [if_neg hs, if_neg hs]
      exact hb.defaultPayload_eq helem (by omega)
  rw [defaultPayload, if_neg (by rw [hka, hv]; simp)] at heq
  dsimp only at heq
  rw [hbody, defaultBodies_some, Option.map_some, Option.some.injEq] at heq
  exact heq.symm

/-! ## How long it is -/

omit hb in
@[simp] theorem length_elementEnds (d n k : Nat) : (elementEnds d n k).length = 4 * n := by
  induction n generalizing k with
  | zero => rfl
  | succ n ih =>
    rw [elementEnds, List.length_append, length_writeLe, ih]
    omega

omit hb in
theorem length_bodies (b : Bytes) (n : Nat) : (List.replicate n b).flatten.length = n * b.length := by
  induction n with
  | zero => simp
  | succ n ih =>
    rw [List.replicate_succ, List.flatten_cons, List.length_append, ih, Nat.succ_mul]
    omega

omit hb in
/-- A record is its fixed part and the frames of its rows, whose payloads are given. -/
theorem length_recordOf
    (h : ∀ j, RidesIn s.fields r j → (payloadOf s j).length = (s.row j).dmin) :
    (recordOf s r).length = s.recSize r + minsIn s.fields r 0 s.nfields := by
  unfold recordOf minsIn framesOf
  rw [List.length_append, List.length_replicate, List.length_flatMap]
  congr 2
  apply List.map_congr_left
  intro j hj
  have hrides := (mem_framedIn.mp hj).2.2
  unfold frameOf
  rw [List.length_append, length_writeLe, h j hrides]
  rfl

/-- The frames of an element's record are those behind its row. -/
theorem minsIn_elem {e : Nat} (he : e < s.nfields) : minsIn s.fields (some e) 0 s.nfields =
    minsIn s.fields (some e) (e + 1) (s.nfields - (e + 1)) := by
  have hsplit := framedIn_append s.fields (some e) 0 (e + 1) (s.nfields - (e + 1))
  rw [show e + 1 + (s.nfields - (e + 1)) = s.nfields by omega, Nat.zero_add] at hsplit
  unfold minsIn
  rw [hsplit, framedIn_none, List.nil_append]
  intro k h1 h2 hc
  have := hb.rides_lt hc
  omega

/-- A variable row's payload and a variable struct element's record are as long as the default
the placing pass computed. -/
theorem length_default (hmin : Minimal s) (hf : f < s.nfields)
    (hv : (s.row f).var = true) :
    ((s.row f).kind ≠ .struct → (payloadOf s f).length = (s.row f).dmin) ∧
    (RecordOf s (some f) → (recordOf s (some f)).length = (s.row f).dmin) := by
  obtain ⟨k, hk⟩ : ∃ k, k = s.nfields - f := ⟨_, rfl⟩
  induction k using Nat.strongRecOn generalizing f with
  | _ k ih =>
    have hrow := hmin.row f hf
    constructor
    · intro hs
      by_cases hka : (s.row f).kind.isArray = true
      · have helem := hb.elem hf hka
        have hd := hrow.array hv hka
        by_cases hev : (s.row (f + 1)).var = true
        · obtain ⟨hpay, hrec⟩ := ih (s.nfields - (f + 1)) (by omega) helem.1 hev rfl
          have hbody : (bodyOf s (f + 1)).length = (s.row (f + 1)).dmin := by
            unfold bodyOf
            by_cases hes : (s.row (f + 1)).kind = .struct
            · rw [if_pos hes]
              exact hrec (recordOf_elem hf hka hes)
            · rw [if_neg hes]
              exact hpay hes
          rw [hb.payloadOf_table hf hka hev]
          have hd' : (s.row f).dmin = arrDmin (s.row f).kind (s.row f).count true
              (s.row (f + 1)).dmin := by
            have hev' : (rowOf s.fields (f + 1)).var = true := hev
            rw [hev'] at hd
            exact hd
          rw [hd']
          simp only [List.length_append, length_writeLe, length_elementEnds, length_bodies, hbody]
          unfold defaultCount arrDmin
          rcases Kind.isArray_iff.mp hka with hk' | hk'
          · rw [if_pos hk', if_neg (by rw [hk']; simp), Nat.add_mul,
              Nat.mul_comm (s.row (f + 1)).dmin]
          · rw [if_neg (by rw [hk']; simp), if_pos (Or.inr hk'), if_pos rfl]
            simp
        · have hev' : (s.row (f + 1)).var = false := by rwa [Bool.not_eq_true] at hev
          rw [hb.payloadOf_leaf hf (Or.inr hev')]
          have hev'' : (rowOf s.fields (f + 1)).var = false := hev'
          rw [hev''] at hd
          exact (hd.trans (by simp [arrDmin])).symm
      · have hka' : (s.row f).kind.isArray = false := by rwa [Bool.not_eq_true] at hka
        rw [hb.payloadOf_leaf hf (Or.inl hka')]
        exact (hrow.text hv hka' hs).symm
    · intro hr
      obtain ⟨a, rfl, ha, hak, hes⟩ := hr f rfl
      have hpar := (hb.elem ha hak).2.2.1
      have hd := hrow.elem hv hes (by
        intro p hp
        obtain rfl := Option.some.inj (hpar.symm.trans hp)
        intro hc
        have hc' : (s.row a).kind = .struct := hc
        rw [hc'] at hak
        exact absurd hak (by simp [Kind.isArray])) (by
        intro hc
        exact absurd (hpar.symm.trans hc) (by simp))
      have hd' : (s.row (a + 1)).dmin = (s.row (a + 1)).size +
          minsIn s.fields (some (a + 1)) (a + 1 + 1) (s.nfields - (a + 1 + 1)) := hd
      rw [hd', length_recordOf, hb.minsIn_elem hf]
      · rfl
      · intro j hj
        have hlt := hb.rides_lt hj
        have hjn := (hb.rides_range hj).1
        have hframed := hj.1
        unfold framedAt rowFramed at hframed
        simp only [Bool.and_eq_true, decide_eq_true_eq] at hframed
        exact (ih (s.nfields - j) (by omega) hjn hframed.1.1 rfl).1 hframed.1.2

/-- A framed row's payload. -/
theorem length_payload (hmin : Minimal s) {j : Nat} (h : RidesIn s.fields r j) :
    (payloadOf s j).length = (s.row j).dmin := by
  have hframed := h.1
  unfold framedAt rowFramed at hframed
  simp only [Bool.and_eq_true, decide_eq_true_eq] at hframed
  exact (hb.length_default hmin (hb.rides_range h).1 hframed.1.1).1 hframed.1.2

/-- The default message is the schema's smallest. -/
theorem length_message (hmin : Minimal s) : (recordOf s none).length = s.msgMin := by
  rw [length_recordOf fun j hj => hb.length_payload hmin hj, hmin.msgMin]
  rfl

/-- A variable element's body. -/
theorem length_body (hmin : Minimal s) {a : Nat} (ha : a < s.nfields)
    (hka : (s.row a).kind.isArray = true) (hv : (s.row (a + 1)).var = true) :
    (bodyOf s (a + 1)).length = (s.row (a + 1)).dmin := by
  obtain ⟨hpay, hrec⟩ := hb.length_default hmin (hb.elem ha hka).1 hv
  unfold bodyOf
  by_cases hes : (s.row (a + 1)).kind = .struct
  · rw [if_pos hes]
    exact hrec (recordOf_elem ha hka hes)
  · rw [if_neg hes]
    exact hpay hes

end Built

end

/-- `rant_schema_message_default` writes the default message and nothing behind it. -/
theorem messageDefault_eq {s : Schema} {t₀ : Table} (hb : Built s t₀) (hmin : Minimal s)
    (buf : Bytes) : messageDefault s buf = some (if buf.length < s.msgMin then none
      else some (recordOf s none ++ buf.drop s.msgMin)) := by
  have hlen := hb.length_message hmin
  unfold messageDefault
  by_cases hcap : buf.length < s.msgMin
  · rw [if_pos hcap, if_pos hcap]
  rw [if_neg hcap, if_neg hcap]
  by_cases hzero : s.msgMin = 0
  · rw [hzero] at hlen
    rw [if_pos hzero, List.eq_nil_of_length_eq_zero hlen, hzero]
    rfl
  · rw [if_neg hzero, hb.defaultRecord_message, Option.map_some, hlen]

end Rant.Serialize
