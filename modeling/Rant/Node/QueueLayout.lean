import Rant.Node.Queue
/-!
# What the ring holds

`Held q rs`: the ring `q` holds the records `rs`, oldest first, each whole. They stand one behind the
other from the tail to the head, or from the tail to a place where no record stands and from the start
to the head. Every operation is about these two shapes: `peek_held` and `pop_held` at the tail,
`fit_held` at the head, `grow_held` for the copy into a larger buffer.
-/

namespace Rant.Node

open Rant.Lib
open Rant.Lib.Fragment (writeAt getElem?_writeAt length_writeAt)

/-- The bytes of a record: a header, and its size at the front. -/
structure IsRec (r : QBytes) : Prop where
  head : qRecHead ≤ r.length
  size : readLe r 0 4 = some r.length
  small : r.length < qWrap

namespace MsgQueue

variable {q q' : MsgQueue} {r : QBytes} {rs xs ys : List QBytes} {top : Nat}

/-- From the tail to the head. -/
structure Linear (q : MsgQueue) (rs : List QBytes) : Prop where
  run : BackToBack q.buf q.tail rs q.head
  fits : q.head ≤ q.cap

/-- From the tail to `top`, where no record stands, then from the start to the head. -/
structure Wrapped (q : MsgQueue) (xs ys : List QBytes) (top : Nat) : Prop where
  later : ys ≠ []
  first : BackToBack q.buf q.tail xs top
  fits : top ≤ q.cap
  stop : q.wrapsAt top = true
  second : BackToBack q.buf 0 ys q.head
  apart : q.head ≤ q.tail

/-- The ring holds the records, oldest first, and a record that is out is the one at the tail. -/
structure Held (q : MsgQueue) (rs : List QBytes) : Prop where
  count : q.count = rs.length
  bytes : q.bytes = rs.flatten.length
  recs : ∀ r ∈ rs, IsRec r
  layout : rs = [] ∨ Linear q rs ∨ ∃ xs ys top, rs = xs ++ ys ∧ Wrapped q xs ys top
  viewed : q.viewing = true → rs ≠ [] ∧ q.wrapsAt q.tail = false

/-! ## The oldest record -/

variable {off : Nat}

/-- A record's length is read from its head, -/
theorem recBytes_placed (h : Placed q.buf off r) (hr : IsRec r) : q.recBytes off = r.length := by
  have hsize := h.readLe (Nat.le_trans (show 0 + 4 ≤ qRecHead by decide) hr.head)
  rw [Nat.add_zero, hr.size] at hsize
  unfold recBytes
  rw [hsize]
  rfl

/-- it is no wrap, -/
theorem wrapsAt_placed (h : Placed q.buf off r) (hr : IsRec r) : q.wrapsAt off = false := by
  have hfits := h.fits
  have hhead := hr.head
  unfold wrapsAt
  rw [recBytes_placed h hr, decide_eq_false (Nat.ne_of_lt hr.small), Bool.or_false]
  unfold cap
  exact decide_eq_false (by omega)

/-- and it is read where it lies. -/
theorem norm_placed (h : Placed q.buf off r) (hr : IsRec r) : q.norm off = off := by
  unfold norm
  rw [wrapsAt_placed h hr]
  rfl

/-- The first of the records stands where the normalized tail is. -/
theorem Held.front (h : Held q (r :: rs)) : Placed q.buf (q.norm q.tail) r := by
  have hr := h.recs r List.mem_cons_self
  obtain hnil | hlin | ⟨xs, ys, top, hsplit, hwrap⟩ := h.layout
  · exact absurd hnil (List.cons_ne_nil _ _)
  · rw [norm_placed hlin.run.1 hr]
    exact hlin.run.1
  cases xs with
  | nil =>
    -- the tail is where the records wrap
    have htop : top = q.tail := hwrap.first
    have hys : r :: rs = ys := hsplit
    have hnorm : q.norm q.tail = 0 := by
      unfold norm
      rw [← htop, hwrap.stop]
      rfl
    have hsecond := hwrap.second
    rw [← hys] at hsecond
    rw [hnorm]
    exact hsecond.1
  | cons x xs =>
    obtain ⟨rfl, -⟩ := List.cons.inj hsplit
    rw [norm_placed hwrap.first.1 hr]
    exact hwrap.first.1

/-- The oldest record's length, -/
theorem Held.recBytes (h : Held q (r :: rs)) : q.recBytes (q.norm q.tail) = r.length :=
  recBytes_placed h.front (h.recs r List.mem_cons_self)

/-- and its bytes. -/
theorem Held.oldest (h : Held q (r :: rs)) : q.oldest = r := by
  unfold MsgQueue.oldest
  rw [h.recBytes]
  exact h.front.slice

theorem Held.count_ne (h : Held q (r :: rs)) : q.count ≠ 0 := by
  rw [h.count]
  exact Nat.succ_ne_zero _

/-! ## `i_rant_q_peek` -/

theorem peek_eq (h : q.count ≠ 0) : q.peek = { q with tail := q.norm q.tail } := if_neg h

/-- A peek may move the tail past a wrap, and holds what it held. -/
theorem peek_held (h : Held q rs) : Held q.peek rs := by
  by_cases hcount : q.count = 0
  · have : q.peek = q := if_pos hcount
    rw [this]
    exact h
  rw [peek_eq hcount]
  have hviewed : q.viewing = true → rs ≠ [] ∧
      MsgQueue.wrapsAt { q with tail := q.norm q.tail } (q.norm q.tail) = false := by
    intro hview
    obtain ⟨hne, hnorm⟩ := h.viewed hview
    refine ⟨hne, ?_⟩
    show q.wrapsAt (q.norm q.tail) = false
    unfold norm
    rw [hnorm]
    exact hnorm
  refine ⟨h.count, h.bytes, h.recs, ?_, hviewed⟩
  obtain hnil | hlin | ⟨xs, ys, top, hsplit, hwrap⟩ := h.layout
  · exact Or.inl hnil
  · cases rs with
    | nil => exact Or.inl rfl
    | cons r rs =>
      have hnorm := norm_placed hlin.run.1 (h.recs r List.mem_cons_self)
      rw [hnorm]
      exact Or.inr (Or.inl ⟨hlin.run, hlin.fits⟩)
  cases xs with
  | nil =>
    have htop : top = q.tail := hwrap.first
    have hys : rs = ys := hsplit
    have hnorm : q.norm q.tail = 0 := by
      unfold norm
      rw [← htop, hwrap.stop]
      rfl
    have hhead := hwrap.apart
    have hfits := hwrap.fits
    rw [hnorm, hys]
    exact Or.inr (Or.inl ⟨hwrap.second, show q.head ≤ q.cap by omega⟩)
  | cons x xs =>
    have hx : IsRec x := h.recs x (hsplit ▸ List.mem_cons_self)
    rw [norm_placed hwrap.first.1 hx]
    exact Or.inr (Or.inr ⟨x :: xs, ys, top, hsplit, hwrap.later, hwrap.first, hwrap.fits, hwrap.stop,
      hwrap.second, hwrap.apart⟩)

/-- After a look the tail is where the oldest record is. -/
theorem peek_tail (h : Held q (r :: rs)) : Placed q.peek.buf q.peek.tail r := by
  rw [peek_eq h.count_ne]
  exact h.front

/-! ## `i_rant_q_pop` -/

/-- A pop drops the oldest. -/
theorem pop_held (h : Held q (r :: rs)) (hview : q.viewing = false) : Held q.pop rs := by
  have hpeek := peek_held h
  have hr := h.recs r List.mem_cons_self
  have hrecs := fun r' hr' => h.recs r' (List.mem_cons_of_mem r hr')
  have hplaced := peek_tail h
  have hcount : q.count = rs.length + 1 := h.count
  have hbytes : q.bytes = r.length + rs.flatten.length := by
    rw [h.bytes, List.flatten_cons, List.length_append]
  have hrec : q.peek.recBytes q.peek.tail = r.length := recBytes_placed hplaced hr
  have hpb : q.peek.bytes = q.bytes := by
    rw [peek_eq h.count_ne]
  have hpv : q.peek.viewing = false := by
    rw [peek_eq h.count_ne]
    exact hview
  unfold pop
  rw [if_neg h.count_ne]
  dsimp only
  rw [hrec]
  have hnotout : ∀ {s : MsgQueue}, s.viewing = q.peek.viewing → s.viewing = true →
      rs ≠ [] ∧ s.wrapsAt s.tail = false :=
    fun hs hv => absurd (hs.symm.trans hv) (by rw [hpv]; exact Bool.false_ne_true)
  split
  · rename_i hone
    have hrs : rs = [] := List.eq_nil_of_length_eq_zero (by
      have : q.peek.count = q.count := by rw [peek_eq h.count_ne]
      omega)
    subst hrs
    exact ⟨rfl, by rw [hpb, hbytes]; exact Nat.sub_self _, fun _ h => absurd h List.not_mem_nil, Or.inl rfl,
      hnotout rfl⟩
  · rename_i hone
    refine ⟨?_, ?_, hrecs, ?_, hnotout rfl⟩
    · rw [peek_eq h.count_ne]
      show q.count - 1 = rs.length
      omega
    · show q.peek.bytes - r.length = _
      rw [hpb, hbytes, Nat.add_sub_cancel_left]
    obtain hnil | hlin | ⟨xs, ys, top, hsplit, hwrap⟩ := hpeek.layout
    · exact absurd hnil (List.cons_ne_nil _ _)
    · exact Or.inr (Or.inl ⟨hlin.run.2, hlin.fits⟩)
    cases xs with
    | nil =>
      have htop : top = q.peek.tail := hwrap.first
      have hstop := hwrap.stop
      rw [htop, wrapsAt_placed hplaced hr] at hstop
      exact absurd hstop Bool.false_ne_true
    | cons x xs =>
      obtain ⟨rfl, hrs⟩ := List.cons.inj hsplit
      exact Or.inr (Or.inr ⟨xs, ys, top, hrs, hwrap.later, hwrap.first.2, hwrap.fits, hwrap.stop,
        hwrap.second, Nat.le_trans hwrap.apart (Nat.le_add_right _ _)⟩)

/-! ## `i_rant_q_fit` -/

/-- The ring after a record of `need` bytes was written at `off`. -/
def stored (q : MsgQueue) (buf : QBytes) (off need : Nat) : MsgQueue :=
  { q with buf := buf, head := off + need, bytes := q.bytes + need, count := q.count + 1 }

/-- A record stored is the newest. -/
theorem Held.stored (h : Held q rs) {buf : QBytes} {need : Nat} (hr : IsRec r) (hlen : r.length = need)
    (hlayout : Linear (q.stored buf off need) (rs ++ [r]) ∨
      ∃ xs ys top, rs ++ [r] = xs ++ ys ∧ Wrapped (q.stored buf off need) xs ys top)
    (hviewed : q.viewing = true → (q.stored buf off need).wrapsAt q.tail = false) :
    Held (q.stored buf off need) (rs ++ [r]) := by
  refine ⟨?_, ?_, ?_, Or.inr hlayout, fun hv => ⟨List.append_ne_nil_of_right_ne_nil _ (List.cons_ne_nil _ _),
    hviewed hv⟩⟩
  · show q.count + 1 = _
    rw [h.count, List.length_append]
    rfl
  · show q.bytes + need = _
    rw [h.bytes, List.flatten_append, List.length_append, List.flatten_singleton, hlen]
  · intro r' hr'
    obtain hr' | hr' := List.mem_append.mp hr'
    · exact h.recs r' hr'
    · exact List.mem_singleton.mp hr' ▸ hr

/-- What is placed at the tail is no place where the records wrap. -/
theorem wrapsAt_run {stop : Nat} (hrun : BackToBack q.buf q.tail rs stop) (hne : rs ≠ [])
    (hrecs : ∀ r ∈ rs, IsRec r) : q.wrapsAt q.tail = false := by
  cases rs with
  | nil => exact absurd rfl hne
  | cons r rs => exact wrapsAt_placed hrun.1 (hrecs r List.mem_cons_self)

/-- A place where no record stands stays one where its bytes do not change. -/
theorem wrapsAt_congr (hstop : q.wrapsAt off = true) (hlen : q'.cap = q.cap)
    (hsame : ∀ k, k < 4 → q'.buf[off + k]? = q.buf[off + k]?) : q'.wrapsAt off = true := by
  have hrec : q'.recBytes off = q.recBytes off := by
    unfold MsgQueue.recBytes
    rw [readLe_congr hsame]
  unfold wrapsAt at hstop ⊢
  rw [hlen, hrec]
  exact hstop

/-- The sentinel. -/
theorem wrapsAt_sentinel (hfits : off + 4 ≤ q.cap)
    (hrest : ∀ k, k < 4 → q'.buf[off + k]? = (writeAt q.buf off (writeLe 4 qWrap))[off + k]?) :
    q'.wrapsAt off = true := by
  have hread : readLe q'.buf off 4 = readLe (writeLe 4 qWrap) 0 4 := by
    refine readLe_congr fun k hk => ?_
    rw [hrest k hk, getElem?_writeAt (by rw [length_writeLe]; exact hfits),
      if_pos ⟨Nat.le_add_right _ _, by rw [length_writeLe]; omega⟩, Nat.add_sub_cancel_left, Nat.zero_add]
  have hwrap : q'.recBytes off = qWrap := by
    unfold MsgQueue.recBytes
    rw [hread]
    decide
  unfold wrapsAt
  rw [hwrap, decide_eq_true rfl, Bool.or_true]

/-- Behind the records the sentinel, where it fits, and the record at the start. -/
theorem Held.turned (h : Held q rs) (hlin : Linear q rs) (hne : rs ≠ []) {need : Nat} (hroom : need ≤ q.tail)
    (hq' : q' = if 4 ≤ q.cap - q.head then { q with buf := writeAt q.buf q.head (writeLe 4 qWrap) } else q)
    {buf : QBytes} (hlen : buf.length = q'.buf.length)
    (hsame : ∀ i, i < 0 ∨ 0 + need ≤ i → buf[i]? = q'.buf[i]?) (hr : IsRec r)
    (hone : BackToBack buf 0 [r] (0 + need)) (hrlen : r.length = need) :
    Held (q'.stored buf 0 need) (rs ++ [r]) := by
  have hstop := hlin.run.stop_eq
  have hbuf : q'.buf.length = q.buf.length ∧ ∀ i, i < q.head → q'.buf[i]? = q.buf[i]? := by
    rw [hq']
    split
    · rename_i hfour
      have hfits : q.head + (writeLe 4 qWrap).length ≤ q.buf.length := by
        rw [length_writeLe]
        unfold cap at hfour
        have := hlin.fits
        unfold cap at this
        omega
      refine ⟨length_writeAt hfits, fun i hi => ?_⟩
      show (writeAt q.buf q.head (writeLe 4 qWrap))[i]? = _
      rw [getElem?_writeAt hfits, if_neg fun hin => Nat.not_le_of_lt hi hin.1]
    · exact ⟨rfl, fun _ _ => rfl⟩
  have hfields : q'.tail = q.tail ∧ q'.head = q.head ∧ q'.bytes = q.bytes ∧ q'.count = q.count ∧
      q'.viewing = q.viewing := by
    rw [hq']
    split
    · exact ⟨rfl, rfl, rfl, rfl, rfl⟩
    · exact ⟨rfl, rfl, rfl, rfl, rfl⟩
  have hrun : BackToBack buf q.tail rs q.head := by
    refine hlin.run.congr (by rw [hlen, hbuf.1]; exact hlin.fits) fun i hi hi' => ?_
    rw [hsame i (Or.inr (by omega)), hbuf.2 i hi']
  have hlin' : Linear q' rs := by
    refine ⟨?_, ?_⟩
    · rw [hfields.1, hfields.2.1]
      exact hlin.run.congr (hbuf.1 ▸ hlin.fits) fun i _ hi => hbuf.2 i hi
    · rw [hfields.2.1]
      exact hlin.fits.trans (Nat.le_of_eq hbuf.1.symm)
  have hheld' : Held q' rs := ⟨hfields.2.2.2.1.trans h.count, hfields.2.2.1.trans h.bytes, h.recs,
    Or.inr (Or.inl hlin'), fun _ => ⟨hne, wrapsAt_run hlin'.run hne h.recs⟩⟩
  refine hheld'.stored hr hrlen (Or.inr ⟨rs, [r], q.head, rfl, List.cons_ne_nil _ _, ?_, ?_, ?_, hone, ?_⟩)
    fun _ => ?_
  · show BackToBack buf q'.tail rs q.head
    rw [hfields.1]
    exact hrun
  · show q.head ≤ buf.length
    rw [hlen, hbuf.1]
    exact hlin.fits
  · by_cases hfour : 4 ≤ q.cap - q.head
    · refine @wrapsAt_sentinel q _ q.head (by omega) fun k hk => ?_
      show buf[q.head + k]? = _
      rw [hsame _ (Or.inr (by omega)), hq', if_pos hfour]
    · unfold wrapsAt
      have hcap : (q'.stored buf 0 need).cap = q.cap := hlen.trans hbuf.1
      rw [hcap, decide_eq_true (show q.cap - q.head < qRecHead by unfold qRecHead; omega), Bool.true_or]
  · show 0 + need ≤ q'.tail
    rw [hfields.1]
    omega
  · have hrun' : BackToBack (q'.stored buf 0 need).buf (q'.stored buf 0 need).tail rs q.head := by
      show BackToBack buf q'.tail rs q.head
      rw [hfields.1]
      exact hrun
    exact wrapsAt_run hrun' hne h.recs

/-- Where the record goes nothing stands, and with it the ring holds one record more. -/
theorem fit_held (h : Held q rs) {need : Nat} (hneed : 0 < need) (hfit : q.fit need = some (q', off))
    {buf : QBytes} (hlen : buf.length = q'.buf.length)
    (hsame : ∀ i, i < off ∨ off + need ≤ i → buf[i]? = q'.buf[i]?)
    (hr : IsRec r) (hplaced : Placed buf off r) (hrlen : r.length = need) :
    Held (q'.stored buf off need) (rs ++ [r]) := by
  have hone : BackToBack buf off [r] (off + need) := ⟨hplaced, by rw [hrlen]; rfl⟩
  have hfits : off + need ≤ buf.length := hrlen ▸ hplaced.fits
  unfold fit at hfit
  split at hfit
  · exact absurd hfit.symm (Option.some_ne_none _)
  split at hfit
  · rename_i hcount
    -- empty: from the start
    obtain ⟨rfl, rfl⟩ := Prod.mk.inj (Option.some.inj hfit)
    have hrs : rs = [] := List.eq_nil_of_length_eq_zero (h.count ▸ hcount)
    subst hrs
    have hempty : Held { q with head := 0, tail := 0 } [] :=
      ⟨h.count, h.bytes, h.recs, Or.inl rfl, fun hv => absurd rfl (h.viewed hv).1⟩
    exact hempty.stored hr hrlen (Or.inl ⟨hone, hfits⟩) fun hv => absurd rfl (h.viewed hv).1
  rename_i hcount
  have hne : rs ≠ [] := fun hrs => hcount (h.count.trans (by rw [hrs]; rfl))
  split at hfit
  · rename_i hlt
    -- the records do not wrap
    have hlin : Linear q rs := by
      obtain hnil | hlin | ⟨xs, ys, top, -, hwrap⟩ := h.layout
      · exact absurd hnil hne
      · exact hlin
      · exact absurd hwrap.apart (Nat.not_le_of_lt hlt)
    split at hfit
    · obtain ⟨rfl, rfl⟩ := Prod.mk.inj (Option.some.inj hfit)
      have hrun : BackToBack buf q.tail rs q.head :=
        hlin.run.congr (hlen ▸ hlin.fits) fun i _ hi => hsame i (Or.inl hi)
      refine h.stored hr hrlen (Or.inl ⟨hrun.append hone, hfits⟩) fun _ => ?_
      exact @wrapsAt_run (q.stored buf q.head need) _ _ hrun hne h.recs
    split at hfit
    · rename_i hroom
      obtain ⟨hq', rfl⟩ := Prod.mk.inj (Option.some.inj hfit)
      exact h.turned hlin hne hroom hq'.symm hlen hsame hr hone hrlen
    · exact absurd hfit.symm (Option.some_ne_none _)
  split at hfit
  · rename_i hroom
    obtain ⟨rfl, rfl⟩ := Prod.mk.inj (Option.some.inj hfit)
    obtain hnil | hlin | ⟨xs, ys, top, hsplit, hwrap⟩ := h.layout
    · exact absurd hnil hne
    · have hstop := hlin.run.stop_eq
      omega
    have htop := hwrap.first.stop_eq
    have hfirst : BackToBack buf q.tail xs top :=
      hwrap.first.congr (hlen ▸ hwrap.fits) fun i hi _ => hsame i (Or.inr (by omega))
    have hsecond : BackToBack buf 0 ys q.head :=
      hwrap.second.congr (by omega) fun i _ hi => hsame i (Or.inl hi)
    refine h.stored hr hrlen (Or.inr ⟨xs, ys ++ [r], top, by rw [hsplit, List.append_assoc], ?_, hfirst, ?_, ?_,
      hsecond.append hone, ?_⟩) fun hv => ?_
    · exact List.append_ne_nil_of_right_ne_nil _ (List.cons_ne_nil _ _)
    · exact hwrap.fits.trans (Nat.le_of_eq hlen.symm)
    · exact wrapsAt_congr hwrap.stop hlen fun k _ => hsame _ (Or.inr (by omega))
    · show q.head + need ≤ q.tail
      omega
    · cases xs with
      | nil =>
        have hat : top = q.tail := hwrap.first
        have hstop := hwrap.stop
        rw [hat, (h.viewed hv).2] at hstop
        exact absurd hstop Bool.false_ne_true
      | cons x xs =>
        refine @wrapsAt_run (q.stored buf q.head need) (x :: xs) top hfirst (List.cons_ne_nil _ _) fun r' hr' => ?_
        exact h.recs r' (hsplit ▸ List.mem_append_left ys hr')
  · exact absurd hfit.symm (Option.some_ne_none _)

/-- What the ring holds fits in it. -/
theorem Held.bytes_le (h : Held q rs) : rs.flatten.length ≤ q.cap := by
  obtain hnil | hlin | ⟨xs, ys, top, hsplit, hwrap⟩ := h.layout
  · rw [hnil]
    exact Nat.zero_le _
  · have hstop := hlin.run.stop_eq
    have hfits := hlin.fits
    omega
  · have hfirst := hwrap.first.stop_eq
    have hsecond := hwrap.second.stop_eq
    have happart := hwrap.apart
    have hfits := hwrap.fits
    rw [hsplit, List.flatten_append, List.length_append]
    omega

/-! ## `i_rant_q_grow` -/

/-- The records from `off` on, as a reader comes to them. -/
def recordsFrom (q : MsgQueue) : Nat → Nat → List QBytes
  | 0, _ => []
  | n + 1, off =>
    slice q.buf (q.norm off) (q.recBytes (q.norm off)) :: recordsFrom q n (q.norm off + q.recBytes (q.norm off))

/-- The records the ring holds. -/
def records (q : MsgQueue) : List QBytes := q.recordsFrom q.count q.tail

/-- A run is read back record by record. -/
theorem recordsFrom_run : ∀ {rs : List QBytes} {off stop : Nat}, BackToBack q.buf off rs stop →
    (∀ r ∈ rs, IsRec r) → ∀ n, q.recordsFrom (rs.length + n) off = rs ++ q.recordsFrom n stop
  | [], off, stop, h, _, n => by
    obtain rfl : stop = off := h
    rw [List.length_nil, Nat.zero_add]
    rfl
  | r :: rs, off, stop, h, hrecs, n => by
    have hr := hrecs r List.mem_cons_self
    have ih := recordsFrom_run h.2 (fun r' hr' => hrecs r' (List.mem_cons_of_mem r hr')) n
    rw [List.length_cons, Nat.add_right_comm]
    show slice q.buf (q.norm off) (q.recBytes (q.norm off)) ::
      q.recordsFrom (rs.length + n) (q.norm off + q.recBytes (q.norm off)) = _
    rw [norm_placed h.1 hr, recBytes_placed h.1 hr, h.1.slice, ih, List.cons_append]

/-- The walk from the tail meets every record, oldest first. -/
theorem Held.records (h : Held q rs) : q.records = rs := by
  unfold MsgQueue.records
  rw [h.count]
  obtain hnil | hlin | ⟨xs, ys, top, hsplit, hwrap⟩ := h.layout
  · rw [hnil]
    rfl
  · have hrun := recordsFrom_run hlin.run h.recs 0
    rw [Nat.add_zero] at hrun
    exact hrun.trans (List.append_nil _)
  have hxs := fun r hr => h.recs r (hsplit ▸ List.mem_append_left ys hr)
  have hys := fun r hr => h.recs r (hsplit ▸ List.mem_append_right xs hr)
  have hfirst := recordsFrom_run hwrap.first hxs ys.length
  have hsecond := recordsFrom_run hwrap.second hys 0
  have hzero : q.norm 0 = 0 := by
    unfold norm
    split <;> rfl
  have hstart : q.norm top = 0 := by
    unfold norm
    rw [hwrap.stop]
    rfl
  have hwrapped : q.recordsFrom ys.length top = q.recordsFrom ys.length 0 := by
    cases hlen : ys.length with
    | zero => rfl
    | succ n =>
      unfold recordsFrom
      rw [hstart, hzero]
  rw [Nat.add_zero] at hsecond
  rw [hsplit, List.length_append, hfirst, hwrapped, hsecond]
  exact congrArg (xs ++ ·) (List.append_nil ys)

/-- The copy takes what a reader comes to. -/
theorem compacted_eq (q : MsgQueue) : ∀ n off, q.compacted n off = (q.recordsFrom n off).flatten
  | 0, _ => rfl
  | n + 1, off => by
    show slice q.buf (q.norm off) (q.recBytes (q.norm off)) ++
      q.compacted n (q.norm off + q.recBytes (q.norm off)) = _
    rw [compacted_eq q n]
    rfl

/-- Compaction copies them end to end. -/
theorem Held.compacted (h : Held q rs) : q.compacted q.count q.tail = rs.flatten :=
  (compacted_eq q _ _).trans (congrArg List.flatten h.records)

/-- A grown ring holds the same records in one run. -/
theorem grow_held (h : Held q rs) {needTotal needOne : Nat} {granted : Bool} {junk : Nat → UInt8}
    (hgrow : q.grow needTotal needOne granted junk = some q') :
    Held q' rs ∧ (rs = [] ∨ Linear q' rs) ∧ q.cap < q'.cap ∧ q'.cap = q.growTarget needTotal needOne ∧
      q.viewing = false ∧ q'.reliable = q.reliable ∧ q'.silent = q.silent ∧ q'.viewing = q.viewing ∧
      q'.count = q.count := by
  unfold grow at hgrow
  dsimp only at hgrow
  split at hgrow
  · exact absurd hgrow.symm (Option.some_ne_none _)
  rename_i hcan
  rw [not_or, not_or, Bool.not_eq_true] at hcan
  obtain ⟨hview, htarget, -⟩ := hcan
  obtain rfl := Option.some.inj hgrow
  have hlen := h.bytes_le
  rw [h.compacted]
  have hcap : (rs.flatten ++ (List.range (q.growTarget needTotal needOne - rs.flatten.length)).map junk).length =
      q.growTarget needTotal needOne := by
    rw [List.length_append, List.length_map, List.length_range]
    omega
  have hlin : ∀ s : MsgQueue,
      s.buf = rs.flatten ++ (List.range (q.growTarget needTotal needOne - rs.flatten.length)).map junk →
      s.tail = 0 → s.head = rs.flatten.length → Linear s rs := by
    intro s hbuf htail hhead
    refine ⟨?_, ?_⟩
    · rw [hbuf, htail, hhead]
      have hrun := backToBack_flatten
        ((List.range (q.growTarget needTotal needOne - rs.flatten.length)).map junk) [] rs
      rw [List.nil_append, List.length_nil, Nat.zero_add] at hrun
      exact hrun
    · unfold cap
      rw [hbuf, hhead, hcap]
      omega
  refine ⟨⟨h.count, h.bytes, h.recs, Or.inr (Or.inl (hlin _ rfl rfl rfl)), fun hv => ?_⟩,
    Or.inr (hlin _ rfl rfl rfl), ?_, hcap, hview, rfl, rfl, rfl, rfl⟩
  · exact absurd (hview.symm.trans hv) Bool.false_ne_true
  · unfold cap at htarget ⊢
    rw [hcap]
    omega

end MsgQueue

end Rant.Node
