import Rant.Transport.ReaderLane
import Rant.Transport.Topics
/-!
# Where the reassembly slots stand

In every run of a reader lane, whatever it hears, the head slot stands at `deliver_upto`, the
slot ahead past it, only what is complete is parked, and a slot's low-water mark is its exact
contiguous front (`Front`). That the sample held ahead starts past the head's end is not the
reader's doing: it takes the ranges its peer names at their word (`held_inside_head`), so it
holds where these do not overlap (`slots_ordered`).
-/

namespace Rant.Transport

open Rant.Lib
open Rant.Lib.Fragment (writeAt)

/-! ## The contiguous front -/

/-- `low` is the exact contiguous front: everything below it is held and it is not. -/
structure Front (a : Assembly) : Prop where
  low_le : a.low ≤ a.count
  held : ∀ k, k < a.low → a.bitmap k = true
  stops : a.low < a.count → a.bitmap a.low = false
  fits : a.count ≤ 8 * a.bitmapCap

/-- What fitting its buffers leaves of an assembly. -/
structure Refitted (a a' : Assembly) : Prop where
  active : a'.active = a.active
  base : a'.base = a.base
  count : a'.count = a.count
  len : a'.len = a.len
  low : a'.low = a.low
  cap_le : a.bitmapCap ≤ a'.bitmapCap
  bitmap : ∀ i, i < 8 * a.bitmapCap → a'.bitmap i = a.bitmap i
  buf : ∃ fresh, a'.buf = a.buf ++ fresh

theorem asmFit_refitted (al : Alloc) (a : Assembly) (len count : Nat) :
    Refitted a (asmFit al a len count).1 := by
  have hself : Refitted a a :=
    ⟨rfl, rfl, rfl, rfl, rfl, Nat.le_refl _, fun _ _ => rfl, [], (List.append_nil _).symm⟩
  -- the message buffer first
  obtain ⟨b, hb⟩ : ∃ b, b = if a.buf.length < len then { a with buf := growTo al a.buf len } else a :=
    ⟨_, rfl⟩
  have hgrow : Refitted a b := by
    rw [hb]
    split
    next => exact ⟨rfl, rfl, rfl, rfl, rfl, Nat.le_refl _, fun _ _ => rfl, _, rfl⟩
    next => exact hself
  unfold asmFit
  dsimp only
  rw [← hb]
  split
  next => exact hself
  split
  next => exact hgrow
  split
  next hcap =>
    refine ⟨hgrow.active, hgrow.base, hgrow.count, hgrow.len, hgrow.low,
      Nat.le_trans hgrow.cap_le (Nat.le_of_lt hcap), fun i hi => ?_, hgrow.buf⟩
    have hin : i < 8 * b.bitmapCap := by
      have := hgrow.cap_le
      omega
    exact (if_pos hin).trans (hgrow.bitmap i hi)
  next => exact hgrow

theorem Front.refitted {a a' : Assembly} (h : Front a) (hr : Refitted a a') : Front a' := by
  have hfits := h.fits
  have hcap := hr.cap_le
  have hlow := h.low_le
  refine ⟨?_, ?_, ?_, ?_⟩
  · rw [hr.low, hr.count]
    exact hlow
  · intro k hk
    rw [hr.low] at hk
    rw [hr.bitmap k (by omega)]
    exact h.held k hk
  · intro hlt
    rw [hr.low, hr.count] at hlt
    rw [hr.low, hr.bitmap a.low (by omega)]
    exact h.stops hlt
  · rw [hr.count]
    omega

/-- The loop stops at the first fragment that is not held, given fuel for all of them. -/
theorem asmFront_stops {bitmap : Nat → Bool} {count : Nat} : ∀ (n low : Nat), count ≤ low + n →
    asmFront bitmap count n low < count → bitmap (asmFront bitmap count n low) = false
  | 0, low, hn, hlt => by
    unfold asmFront at hlt
    omega
  | n + 1, low, hn, hlt => by
    unfold asmFront at hlt ⊢
    by_cases hnext : low < count ∧ bitmap low = true
    · rw [if_pos hnext] at hlt ⊢
      exact asmFront_stops n (low + 1) (by omega) hlt
    · rw [if_neg hnext] at hlt ⊢
      rw [Bool.eq_false_iff]
      exact fun hb => hnext ⟨hlt, hb⟩

/-- A slot taken by a new sample stands at its start. -/
theorem asmStart_front {a : Assembly} {base count len : Nat} (h : (count + 7) / 8 ≤ a.bitmapCap) :
    Front (asmStart a base count len) := by
  refine ⟨Nat.zero_le _, fun k hk => absurd hk (Nat.not_lt_zero k), ?_, ?_⟩
  · intro hlt
    exact asmStart_bitmap hlt
  · show count ≤ 8 * a.bitmapCap
    omega

/-- Storing a fragment moves the front to where it stands now. -/
theorem asmStore_front {F frag : Nat} {a : Assembly} {payload : Bytes} (h : Front a)
    (hfrag : frag < a.count) : Front (asmStore F a frag payload) := by
  obtain ⟨bits, hbits⟩ : ∃ bits : Nat → Bool, bits = fun i => if i = frag then true else a.bitmap i :=
    ⟨_, rfl⟩
  have hheld : ∀ k, k < a.low → bits k = true := by
    intro k hk
    rw [hbits]
    dsimp only
    split
    next => rfl
    next => exact h.held k hk
  have hlow : (asmStore F a frag payload).low =
      if frag = a.low then asmFront bits a.count (a.count - a.low) a.low else a.low := by
    rw [hbits]
    rfl
  have hmap : (asmStore F a frag payload).bitmap = bits := hbits.symm
  have hle := h.low_le
  have hspec := asmFront_spec (a.count - a.low) a.low hle hheld
  refine ⟨?_, ?_, ?_, h.fits⟩
  · rw [hlow]
    show (if frag = a.low then asmFront bits a.count (a.count - a.low) a.low else a.low) ≤ a.count
    split
    next => exact hspec.1
    next => exact hle
  · rw [hlow, hmap]
    intro k hk
    split at hk
    next => exact hspec.2 k hk
    next => exact hheld k hk
  · rw [hlow, hmap]
    show (if frag = a.low then asmFront bits a.count (a.count - a.low) a.low else a.low) < a.count → _
    split
    next => exact asmFront_stops _ _ (by omega)
    next hne =>
      intro hlt
      rw [hbits]
      exact (if_neg (Ne.symm hne)).trans (h.stops hlt)

/-- The front of the slot a fragment is stored in. -/
theorem Fitted.front {F : Nat} {A : Assembly → Prop} {a : Assembly} {m : DataMsg}
    (h : Fitted F A a m) (hA : ∀ a, A a → Front a) :
    Front (asmStore F (asmOpen a m) m.frag m.payload) := by
  have hopen : Front (asmOpen a m) := by
    unfold asmOpen
    split
    next ha => exact hA a (h.held ha).1
    next => exact asmStart_front h.bitmap_fits
  refine asmStore_front hopen ?_
  rw [← h.takes.1]
  exact h.frag_lt

/-! ## The slots of every run -/

/-- Where the slots of a matched lane stand. -/
structure SlotsOrdered (r : ReaderProxy) : Prop where
  head : r.cur.active = true → r.cur.base = r.deliverUpto
  ahead : r.next.active = true → r.deliverUpto < r.next.base
  /-- A parked sample is a complete head, or the descriptor of a whole sample. -/
  parked : r.parked = true → r.parkedShm = false → r.cur.active = true ∧ r.cur.low = r.cur.count
  parked_shm : r.parkedShm = true → r.cur.active = false ∧ r.cur.base = r.deliverUpto
  front : ∀ s, (r.slot s).active = true → Front (r.slot s)

/-- The sample held ahead starts past the head's end. -/
def HeldPast (r : ReaderProxy) : Prop :=
  r.cur.active = true → r.next.active = true → r.cur.base + r.cur.count ≤ r.next.base

/-- The seqnos of the sample an event's DATA names. -/
def ReaderEvent.range : ReaderEvent → Option Span
  | .data _ _ m _ => if m.count = 0 then none else some ⟨m.base, m.count⟩
  | _ => none

/-- Two ranges are the same or do not meet. -/
def SpanApart (s s' : Span) : Prop :=
  s = s' ∨ s.base + s.count ≤ s'.base ∨ s'.base + s'.count ≤ s.base

/-- The samples named by the DATA of a run do not overlap. -/
def Apart (es : List ReaderEvent) : Prop :=
  ∀ e ∈ es, ∀ e' ∈ es, ∀ s s', e.range = some s → e'.range = some s' → SpanApart s s'

variable {t : Topic}

theorem front_fitStable : FitStable Front := fun al a len count h => h.refitted (asmFit_refitted al a len count)

theorem front_puts (l : ReaderLane) (e : ReaderEvent) : e.Puts t Front Front l := by
  cases e with
  | data sink al m now => exact fun s a _ hfit _ => hfit.front fun _ ha => ha
  | _ => trivial

/-- A property of a slot's range alone, beside its front. -/
theorem named_fitStable (R : Span → Prop) : FitStable fun a => Front a ∧ R ⟨a.base, a.count⟩ := by
  intro al a len count h
  have hr := asmFit_refitted al a len count
  refine ⟨h.1.refitted hr, ?_⟩
  rw [hr.base, hr.count]
  exact h.2

/-- What a DATA is stored in has the range the DATA names. -/
theorem named_puts {R : Span → Prop} {e : ReaderEvent} (h : ∀ s, e.range = some s → R s)
    (l : ReaderLane) :
    e.Puts t (fun a => Front a ∧ R ⟨a.base, a.count⟩) (fun a => Front a ∧ R ⟨a.base, a.count⟩) l := by
  cases e with
  | data sink al m now =>
    intro s a _ hfit _
    refine ⟨hfit.front fun a ha => ha.1, ?_⟩
    have hbase : (asmOpen (asmFit al a m.sampleLen m.count).1 m).base = m.base :=
      asmOpen_base fun ha => (hfit.held ha).2
    have hpos : m.count ≠ 0 := by
      have := hfit.frag_lt
      omega
    show R ⟨(asmOpen (asmFit al a m.sampleLen m.count).1 m).base,
      (asmOpen (asmFit al a m.sampleLen m.count).1 m).count⟩
    rw [hbase, ← hfit.takes.1]
    exact h _ (if_neg hpos)
  | _ => trivial

/-- Slots whose ranges do not overlap stand one after the other. -/
theorem heldPast_of_apart {r : ReaderProxy} {R : Span → Prop} (hR : ∀ s s', R s → R s' → SpanApart s s')
    (h : Slots t (fun a => Front a ∧ R ⟨a.base, a.count⟩) r) : HeldPast r := by
  intro hc hn
  have hup := h.ahead hn
  rw [← h.head hc] at hup
  rcases hR _ _ (h.cur_ok hc).2 (h.next_ok hn).2 with heq | hle | hle
  · rw [Span.mk.injEq] at heq
    omega
  · exact hle
  · -- the head starts before the held sample, so it cannot end before it
    have hle : r.next.base + r.next.count ≤ r.cur.base := hle
    omega

/-- In every run of a reader lane, over any submessages, the head slot of a matched lane
stands at `deliver_upto`, the slot ahead past it, only what is complete is parked, and the
low-water mark of each slot is its exact contiguous front. Where the DATA since the lane's
match name samples that do not overlap, the sample held ahead starts past the head's end. -/
theorem slots_ordered (t : Topic) (es : List ReaderEvent)
    (hu : (readerRun t es).side.r.used = true) :
    SlotsOrdered (readerRun t es).side.r ∧
      ∀ pre epoch post, es = pre ++ .matched epoch :: post → Apart post →
        HeldPast (readerRun t es).side.r := by
  constructor
  · have hs : Slots t Front (readerRun t es).side.r :=
      readerRun_slots front_fitStable (fun l e _ => front_puts l e) (fun hu' => Bool.noConfusion hu') hu
    refine ⟨hs.head, hs.ahead, hs.parked_inline, fun hp => (hs.parked_shm hp).2, fun s => ?_⟩
    cases s with
    | cur => exact hs.cur_ok
    | next => exact hs.next_ok
  · rintro pre epoch post rfl hapart
    obtain ⟨R, hR⟩ : ∃ R : Span → Prop, R = fun s => ∃ e ∈ post, e.range = some s := ⟨_, rfl⟩
    have hRa : ∀ s s', R s → R s' → SpanApart s s' := by
      rw [hR]
      rintro s s' ⟨e, he, hs⟩ ⟨e', he', hs'⟩
      exact hapart e he e' he' s s' hs hs'
    have hsplit : readerRun t (pre ++ .matched epoch :: post) = run (readerStep t)
        (readerStep t (readerRun t pre) (.matched epoch)) post := by
      unfold readerRun
      rw [run_append, run_cons]
    rw [hsplit] at hu ⊢
    have hmatch : Grows t (fun a => Front a ∧ R ⟨a.base, a.count⟩) (fun _ _ _ => True)
        (readerRun t pre).side (readerStep t (readerRun t pre) (.matched epoch)).side :=
      readerMatch_grows epoch _
    refine heldPast_of_apart hRa (readerRun_slots (named_fitStable R) ?_ (fun _ => hmatch.slots) hu)
    intro l e he
    refine named_puts (fun s hs => ?_) l
    rw [hR]
    exact ⟨e, he, hs⟩

/-- A reliable topic. -/
def heardTopic : Topic :=
  { Topic.undefined with
    qos := ⟨.reliable, 4, 0, 20000, 0, 0, true⟩, identity := 1, role := .subOnly }

/-- A DATA whose fragment is `n` bytes of value `v`. -/
def someData (seqno frag count sampleLen n : Nat) (v : UInt8) : ReaderEvent :=
  .data {} {} { seqno := seqno, frag := frag, count := count, sampleLen := sampleLen
                payload := List.replicate n v, ackReq := false } 10

/-- The ranges a run names are apart when they are one after the other. -/
theorem slots_ordered_two : SlotsOrdered (readerRun heardTopic
      [.matched 1, .setFrag 1350, someData 0 0 1 2 2 7, someData 3 0 2 8 4 7]).side.r ∧
    HeldPast (readerRun heardTopic
      [.matched 1, .setFrag 1350, someData 0 0 1 2 2 7, someData 3 0 2 8 4 7]).side.r := by
  have h := slots_ordered heardTopic
    [.matched 1, .setFrag 1350, someData 0 0 1 2 2 7, someData 3 0 2 8 4 7] (by decide)
  have hnamed : ∀ e ∈ [ReaderEvent.setFrag 1350, someData 0 0 1 2 2 7, someData 3 0 2 8 4 7],
      ∀ s, e.range = some s → s = ⟨0, 1⟩ ∨ s = ⟨3, 2⟩ := by
    intro e he s hs
    simp only [List.mem_cons, List.not_mem_nil, or_false] at he
    rcases he with rfl | rfl | rfl
    · exact absurd hs (Option.some_ne_none s).symm
    · exact Or.inl (Option.some.inj hs).symm
    · exact Or.inr (Option.some.inj hs).symm
  refine ⟨h.1, h.2 [] 1 _ rfl ?_⟩
  intro e he e' he' s s' hs hs'
  rcases hnamed e he s hs with rfl | rfl <;> rcases hnamed e' he' s' hs' with rfl | rfl
  · exact Or.inl rfl
  · exact Or.inr (Or.inl (by decide))
  · exact Or.inr (Or.inr (by decide))
  · exact Or.inl rfl

/-- A sample of ten fragments announced at seqno 1, while one that claims seqno 3 is held
ahead: the held sample lies inside the head. -/
theorem held_inside_head : ∃ es : List ReaderEvent,
    (readerRun heardTopic es).side.r.used = true ∧
    (readerRun heardTopic es).side.r.cur.active = true ∧
    (readerRun heardTopic es).side.r.next.active = true ∧
    (readerRun heardTopic es).side.r.next.base <
      (readerRun heardTopic es).side.r.cur.base + (readerRun heardTopic es).side.r.cur.count := by
  refine ⟨[.matched 1, .setFrag 1350, someData 0 0 1 2 2 7, someData 3 0 2 8 4 7,
    someData 1 0 10 40 4 7], ?_⟩
  decide

end Rant.Transport
