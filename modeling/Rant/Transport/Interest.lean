import Rant.Lib.Endian
import Rant.Transport.Topics
/-!
# The interest list

The announce's topic list of `src/transport/core.c`: how a node writes its table down
(`interestEmit`), how a parser checks the entry stream before it trusts it
(`interestWalk`) and the scan over the live entries (`interestScan`). A pointer into the
list is the bytes from there on. What a node wrote, every node reads back:
`interestScan_emit`.
-/

namespace Rant.Transport

open Rant.Lib

/-! ## Entries -/

/-- The role's number in an entry's flags. -/
def Role.code : Role → Nat
  | .pubSub => 0
  | .pubOnly => 1
  | .subOnly => 2
  | .inactive => 3

/-- The role of the two low bits of an entry's flags. -/
def Role.ofCode (n : Nat) : Role :=
  match n % 4 with
  | 0 => .pubSub
  | 1 => .pubOnly
  | 2 => .subOnly
  | _ => .inactive

/-- A live entry as the scan yields it: its position, its nomination and its flags. -/
structure InterestEntry where
  pos : Nat
  hash : Nat
  flags : Nat
  deriving Repr, DecidableEq

namespace InterestEntry

/-- The advertised role, bits 0 and 1. -/
def role (e : InterestEntry) : Role := .ofCode e.flags

/-- Offered or requested reliability, bit 2. -/
def reliable (e : InterestEntry) : Bool := e.flags.testBit 2

/-- The advertised kind's number, bits 3 to 6. -/
def kind (e : InterestEntry) : Nat := e.flags / 8 % 16

/-- The entry publishes. -/
def theirPub (e : InterestEntry) : Bool := e.role.pubs

/-- The entry subscribes. -/
def theirSub (e : InterestEntry) : Bool := e.role.subs

end InterestEntry

/-! ## Writing -/

/-- A topic's flags byte. -/
def Topic.entryFlags (t : Topic) : Nat :=
  t.role.code + (if t.qos.reliability = .reliable then 4 else 0) + 8 * t.kind.code

/-- A 5 byte cell. -/
def entryCell (hash flags : Nat) : Bytes := writeLe 4 hash ++ [UInt8.ofNat flags]

/-- The cells of the slots, `run` undefined ones before them: a run of undefined slots is
one cell with the hole flag and the run's length. -/
def entryCells : Nat → List Topic → Bytes
  | _, [] => []
  | run, t :: ts =>
    if t.announced then
      (if run = 0 then [] else entryCell run 131) ++ entryCell t.hash32 t.entryFlags ++
        entryCells 0 ts
    else entryCells (run + 1) ts

/-- `i_rant_topic_rate_sub`: the rate section's membership. -/
def Topic.rateSub (t : Topic) : Bool := t.announced && t.qos.maxRateHz ≠ 0 && t.role.subs

/-- `i_rant_topic_rebound`: the generation section's membership. -/
def Topic.rebound (t : Topic) : Bool := t.announced && t.gen ≠ 0

/-- The slots announced up to: one past the last announced one. -/
def announcedLen : List Topic → Nat
  | [] => 0
  | t :: ts =>
    if announcedLen ts = 0 then (if t.announced then 1 else 0) else announcedLen ts + 1

/-- A sparse section over the slots that are members. -/
def sparseSection (member : Topic → Bool) (row : Nat → Topic → Bytes) (ts : List Topic) : Bytes :=
  let idx := (List.range ts.length).filter fun c => member (topicAt ts c)
  writeLe 2 idx.length ++ idx.flatMap fun c => row c (topicAt ts c)

/-- `i_rant_interest_emit` into a buffer that holds it. -/
def interestEmit (ts : List Topic) : Bytes :=
  let ts := ts.take (announcedLen ts)
  writeLe 2 ts.length ++ entryCells 0 ts ++
    sparseSection Topic.rateSub (fun c t => writeLe 2 c ++ writeLe 2 t.qos.maxRateHz) ts ++
    sparseSection Topic.rebound (fun c t => writeLe 2 c ++ writeLe 1 t.gen) ts

/-! ## Reading -/

/-- The little endian number at the front. The walk has passed what is read. -/
def frontLe (n : Nat) (d : Bytes) : Nat := (readLe d 0 n).getD 0

/-- An entry's flags byte. -/
def entryFlags (e : Bytes) : Nat := (e.getD 4 0).toNat

/-- `RANT__INT_HOLE_RUN`: a run of undefined slots. -/
def holeRun (flags : Nat) : Bool := flags.testBit 7

/-- The slots left after the entry at `e`, `none` where a run is empty or overruns. -/
def slotsAfter (e : Bytes) (left : Nat) : Option Nat :=
  if holeRun (entryFlags e) then
    let step := frontLe 4 e
    if step = 0 ∨ left < step then none else some (left - step)
  else some (left - 1)

/-- The loop of `i_rant_interest_walk_len` over `left` slots: the bytes after the entries,
`none` a stream that does not account them. Every entry takes a slot at least, so a fuel
of `left` is enough. -/
def walkFrom : Nat → Nat → Bytes → Option Bytes
  | _, 0, e => some e
  | 0, _ + 1, _ => none
  | fuel + 1, left + 1, e =>
    if e.length < 5 then none
    else
      match slotsAfter e (left + 1) with
      | none => none
      | some left => walkFrom fuel left (e.drop 5)

/-- `i_rant_interest_walk_len` behind its callers' length check: the bytes after the entry
stream of a list that accounts all its slots. -/
def interestWalk (d : Bytes) : Option Bytes :=
  if d.length < 2 then none else walkFrom (frontLe 2 d) (frontLe 2 d) (d.drop 2)

/-- The loop of `i_rant_interest_scan_next`, every yield in order, `a` the position. -/
def scanFrom : Nat → Nat → Nat → Bytes → List InterestEntry
  | 0, _, _, _ => []
  | fuel + 1, n, a, e =>
    if a < n then
      if holeRun (entryFlags e) then scanFrom fuel n (a + frontLe 4 e) (e.drop 5)
      else if Role.ofCode (entryFlags e) = .inactive then scanFrom fuel n (a + 1) (e.drop 5)
      else ⟨a, frontLe 4 e, entryFlags e⟩ :: scanFrom fuel n (a + 1) (e.drop 5)
    else []

/-- The live entries of a list the walk passed. -/
def interestScan (d : Bytes) : List InterestEntry :=
  scanFrom (frontLe 2 d) (frontLe 2 d) 0 (d.drop 2)

/-! ## What was written is read back -/

/-- The entry of an announced slot. -/
def Topic.entryAt (t : Topic) (c : Nat) : InterestEntry := ⟨c, t.hash32, t.entryFlags⟩

/-- The entries a reader finds in a table's list, from position `c` on. -/
def liveEntries : Nat → List Topic → List InterestEntry
  | _, [] => []
  | c, t :: ts =>
    if t.announced && t.role ≠ .inactive then t.entryAt c :: liveEntries (c + 1) ts
    else liveEntries (c + 1) ts

theorem Role.ofCode_code (r : Role) (k : Nat) : Role.ofCode (r.code + 4 * k) = r := by
  unfold Role.ofCode
  rw [Nat.add_mul_mod_self_left]
  cases r <;> rfl

theorem Topic.entryFlags_lt (t : Topic) : t.entryFlags < 128 := by
  unfold Topic.entryFlags
  have hr : t.role.code < 4 := by cases t.role <;> decide
  have hk : t.kind.code < 9 := by cases t.kind <;> decide
  split <;> omega

theorem Topic.entryFlags_role (t : Topic) : Role.ofCode t.entryFlags = t.role := by
  unfold Topic.entryFlags
  split
  next => exact (by rw [show t.role.code + 4 + 8 * t.kind.code =
    t.role.code + 4 * (1 + 2 * t.kind.code) by omega]; exact Role.ofCode_code _ _)
  next => exact (by rw [show t.role.code + 0 + 8 * t.kind.code =
    t.role.code + 4 * (2 * t.kind.code) by omega]; exact Role.ofCode_code _ _)

theorem Topic.entryAt_role (t : Topic) (c : Nat) : (t.entryAt c).role = t.role :=
  t.entryFlags_role

theorem Topic.entryAt_kind (t : Topic) (c : Nat) : (t.entryAt c).kind = t.kind.code := by
  show t.entryFlags / 8 % 16 = t.kind.code
  have hr : t.role.code < 4 := by cases t.role <;> decide
  have hk : t.kind.code < 9 := by cases t.kind <;> decide
  unfold Topic.entryFlags
  split <;> omega

theorem frontLe_append (n v : Nat) (p : Bytes) : frontLe n (writeLe n v ++ p) = v % 256 ^ n := by
  unfold frontLe
  rw [readLe_writeLe]
  rfl

theorem length_entryCell (h f : Nat) : (entryCell h f).length = 5 := by
  simp [entryCell]

theorem frontLe_entryCell (h f : Nat) (p : Bytes) :
    frontLe 4 (entryCell h f ++ p) = h % 2 ^ 32 := by
  unfold entryCell
  rw [List.append_assoc, frontLe_append]
  rfl

theorem entryFlags_entryCell (h : Nat) {f : Nat} (hf : f < 256) (p : Bytes) :
    entryFlags (entryCell h f ++ p) = f := by
  unfold entryFlags entryCell
  rw [List.append_assoc, List.getD_eq_getElem?_getD, List.getElem?_append_right (by simp)]
  simp [Nat.mod_eq_of_lt hf]

theorem drop_entryCell (h f : Nat) (p : Bytes) : (entryCell h f ++ p).drop 5 = p := by
  rw [← length_entryCell h f, List.drop_left]

theorem holeRun_entryFlags (t : Topic) : holeRun t.entryFlags = false :=
  Nat.testBit_lt_two_pow t.entryFlags_lt

/-- `run` undefined slots and then `ts` end in an announced slot, or are none at all. -/
def Closed : Nat → List Topic → Prop
  | run, [] => run = 0
  | run, t :: ts => if t.announced then Closed 0 ts else Closed (run + 1) ts

variable {ts : List Topic}

theorem closed_take : ∀ {run : Nat}, 0 < announcedLen ts →
    Closed run (ts.take (announcedLen ts)) := by
  induction ts with
  | nil => intro run h; exact absurd h (Nat.not_lt_zero 0)
  | cons t ts ih =>
    intro run h
    unfold announcedLen at h ⊢
    by_cases hz : announcedLen ts = 0
    · rw [if_pos hz] at h ⊢
      by_cases ht : t.announced
      · rw [if_pos ht]
        show (if t.announced then Closed 0 [] else Closed (run + 1) [])
        rw [if_pos ht]
        rfl
      · rw [if_neg ht] at h
        exact absurd h (Nat.not_lt_zero 0)
    · rw [if_neg hz, List.take_succ_cons]
      unfold Closed
      split
      next => exact ih (Nat.pos_of_ne_zero hz)
      next => exact ih (Nat.pos_of_ne_zero hz)

/-- The written slots end in an announced one. -/
theorem closed_announced (ts : List Topic) : Closed 0 (ts.take (announcedLen ts)) := by
  by_cases h : announcedLen ts = 0
  · rw [h, List.take_zero]
    rfl
  · exact closed_take (Nat.pos_of_ne_zero h)

theorem liveEntries_nil : ∀ {c : Nat}, announcedLen ts = 0 →
    liveEntries c ts = [] := by
  induction ts with
  | nil => intro c _; rfl
  | cons t ts ih =>
    intro c h
    unfold announcedLen at h
    split at h
    next hz =>
      have ht : t.announced = false := by
        by_contra hc
        rw [Bool.not_eq_false] at hc
        rw [if_pos hc] at h
        cases h
      unfold liveEntries
      rw [ht]
      exact ih hz
    next => cases h

/-- The slots past the last announced one hold no entry. -/
theorem liveEntries_take (ts : List Topic) : ∀ c, liveEntries c (ts.take (announcedLen ts)) =
    liveEntries c ts := by
  induction ts with
  | nil => intro c; rfl
  | cons t ts ih =>
    intro c
    unfold announcedLen
    by_cases hz : announcedLen ts = 0
    · rw [if_pos hz]
      by_cases ht : t.announced
      · rw [if_pos ht]
        unfold liveEntries
        rw [liveEntries_nil hz]
        rfl
      · rw [if_neg ht]
        refine (liveEntries_nil ?_).symm
        unfold announcedLen
        rw [if_pos hz, if_neg ht]
    · rw [if_neg hz, List.take_succ_cons]
      unfold liveEntries
      rw [ih (c + 1)]

theorem slotsAfter_entry (t : Topic) (h left : Nat) (p : Bytes) :
    slotsAfter (entryCell h t.entryFlags ++ p) (left + 1) = some left := by
  unfold slotsAfter
  rw [entryFlags_entryCell _ (Nat.lt_trans t.entryFlags_lt (by decide)), holeRun_entryFlags]
  rfl

theorem slotsAfter_run {run : Nat} (left : Nat) (hr : 0 < run) (hlt : run < 2 ^ 32) (p : Bytes) :
    slotsAfter (entryCell run 131 ++ p) (run + left) = some left := by
  unfold slotsAfter
  rw [entryFlags_entryCell _ (by decide), frontLe_entryCell, Nat.mod_eq_of_lt hlt]
  rw [if_pos (by decide)]
  dsimp only
  rw [if_neg (by omega), Nat.add_sub_cancel_left]

/-- The walk over one cell. -/
theorem walkFrom_cell {fuel left left' h f : Nat} {p : Bytes}
    (hs : slotsAfter (entryCell h f ++ p) (left + 1) = some left') :
    walkFrom (fuel + 1) (left + 1) (entryCell h f ++ p) = walkFrom fuel left' p := by
  show (if (entryCell h f ++ p).length < 5 then none
    else
      match slotsAfter (entryCell h f ++ p) (left + 1) with
      | none => none
      | some left => walkFrom fuel left ((entryCell h f ++ p).drop 5)) = _
  rw [if_neg (by rw [List.length_append, length_entryCell]; omega), hs, drop_entryCell]

theorem walkFrom_cells (post : Bytes) : ∀ (run fuel : Nat),
    run + ts.length < 2 ^ 32 → run + ts.length ≤ fuel → Closed run ts →
      walkFrom fuel (run + ts.length) (entryCells run ts ++ post) = some post := by
  induction ts with
  | nil =>
    intro run fuel _ _ hc
    obtain rfl : run = 0 := hc
    cases fuel <;> rfl
  | cons t ts ih =>
    intro run fuel hlt hfuel hc
    unfold Closed at hc
    unfold entryCells
    rw [List.length_cons] at hlt hfuel ⊢
    by_cases ht : t.announced
    · rw [if_pos ht] at hc ⊢
      -- the entry itself, behind the run
      have hentry : ∀ fuel, ts.length + 1 ≤ fuel → walkFrom fuel (ts.length + 1)
          (entryCell t.hash32 t.entryFlags ++ (entryCells 0 ts ++ post)) = some post := by
        intro fuel hf
        obtain ⟨fuel, rfl⟩ : ∃ k, fuel = k + 1 := ⟨fuel - 1, by omega⟩
        rw [walkFrom_cell (slotsAfter_entry t _ _ _)]
        have hrec := ih 0 fuel (by omega) (by omega) hc
        rw [Nat.zero_add] at hrec
        exact hrec
      by_cases hr : run = 0
      · subst hr
        rw [if_pos rfl, List.nil_append, List.append_assoc, Nat.zero_add]
        exact hentry fuel (by omega)
      · rw [if_neg hr, List.append_assoc, List.append_assoc]
        obtain ⟨fuel, rfl⟩ : ∃ k, fuel = k + 1 := ⟨fuel - 1, by omega⟩
        have hs := slotsAfter_run (ts.length + 1) (Nat.pos_of_ne_zero hr) (by omega)
          (entryCell t.hash32 t.entryFlags ++ (entryCells 0 ts ++ post))
        obtain ⟨k, hk⟩ : ∃ k, run + (ts.length + 1) = k + 1 := ⟨run + ts.length, by omega⟩
        rw [hk] at hs ⊢
        rw [walkFrom_cell hs]
        exact hentry fuel (by omega)
    · rw [if_neg ht] at hc ⊢
      have hrec := ih (run + 1) fuel (by omega) (by omega) hc
      rw [show run + (ts.length + 1) = run + 1 + ts.length by omega]
      exact hrec

theorem scanFrom_succ (fuel n a : Nat) (e : Bytes) : scanFrom (fuel + 1) n a e =
    if a < n then
      if holeRun (entryFlags e) then scanFrom fuel n (a + frontLe 4 e) (e.drop 5)
      else if Role.ofCode (entryFlags e) = .inactive then scanFrom fuel n (a + 1) (e.drop 5)
      else ⟨a, frontLe 4 e, entryFlags e⟩ :: scanFrom fuel n (a + 1) (e.drop 5)
    else [] := rfl

theorem scanFrom_hole {fuel n a run : Nat} {p : Bytes} (ha : a < n) (hlt : run < 2 ^ 32) :
    scanFrom (fuel + 1) n a (entryCell run 131 ++ p) = scanFrom fuel n (a + run) p := by
  rw [scanFrom_succ, if_pos ha, entryFlags_entryCell _ (by decide), if_pos (by decide),
    frontLe_entryCell, Nat.mod_eq_of_lt hlt, drop_entryCell]

theorem scanFrom_entry {fuel n a : Nat} {p : Bytes} (t : Topic) (ha : a < n) :
    scanFrom (fuel + 1) n a (entryCell t.hash32 t.entryFlags ++ p) =
      if t.role ≠ .inactive then t.entryAt a :: scanFrom fuel n (a + 1) p
      else scanFrom fuel n (a + 1) p := by
  have hflags := entryFlags_entryCell t.hash32 (Nat.lt_trans t.entryFlags_lt (by decide)) p
  have hhash : t.hash32 % 2 ^ 32 = t.hash32 := Nat.mod_mod _ _
  rw [scanFrom_succ, if_pos ha, hflags, holeRun_entryFlags, if_neg Bool.false_ne_true,
    t.entryFlags_role, frontLe_entryCell, hhash, drop_entryCell]
  by_cases hr : t.role = .inactive
  · rw [if_pos hr, if_neg (fun h => h hr)]
  · rw [if_neg hr, if_pos hr]
    rfl

theorem scanFrom_cells {post : Bytes} : ∀ (run fuel : Nat) {n a : Nat},
    n < 2 ^ 32 → a + run + ts.length = n → run + ts.length ≤ fuel → Closed run ts →
      scanFrom fuel n a (entryCells run ts ++ post) = liveEntries (a + run) ts := by
  induction ts with
  | nil =>
    intro run fuel n a _ hn _ hc
    obtain rfl : run = 0 := hc
    cases fuel with
    | zero => rfl
    | succ fuel =>
      unfold scanFrom
      rw [if_neg (by simp at hn; omega)]
      rfl
  | cons t ts ih =>
    intro run fuel n a hlt hn hfuel hc
    unfold Closed at hc
    unfold entryCells liveEntries
    rw [List.length_cons] at hn hfuel
    by_cases ht : t.announced
    · rw [if_pos ht] at hc ⊢
      rw [ht, Bool.true_and]
      have hentry : ∀ fuel a, a + (ts.length + 1) = n → ts.length + 1 ≤ fuel →
          scanFrom fuel n a (entryCell t.hash32 t.entryFlags ++ (entryCells 0 ts ++ post)) =
            if t.role ≠ .inactive then t.entryAt a :: liveEntries (a + 1) ts
            else liveEntries (a + 1) ts := by
        intro fuel a ha hf
        obtain ⟨fuel, rfl⟩ : ∃ k, fuel = k + 1 := ⟨fuel - 1, by omega⟩
        rw [scanFrom_entry t (by omega),
          ih 0 fuel hlt (by omega) (by omega) hc, Nat.add_zero]
      by_cases hr : run = 0
      · subst hr
        rw [if_pos rfl, List.nil_append, List.append_assoc, hentry fuel a (by omega) (by omega)]
        simp
      · rw [if_neg hr, List.append_assoc, List.append_assoc]
        obtain ⟨fuel, rfl⟩ : ∃ k, fuel = k + 1 := ⟨fuel - 1, by omega⟩
        rw [scanFrom_hole (by omega) (by omega), hentry fuel (a + run) (by omega) (by omega)]
        simp
    · rw [if_neg ht] at hc ⊢
      rw [Bool.not_eq_true] at ht
      rw [ht, Bool.false_and]
      exact ih (run + 1) fuel hlt (by omega) (by omega) hc

theorem announcedLen_le (ts : List Topic) : announcedLen ts ≤ ts.length := by
  induction ts with
  | nil => exact Nat.le_refl 0
  | cons t ts ih =>
    unfold announcedLen
    rw [List.length_cons]
    split
    next => split <;> omega
    next => omega

/-- A node's own list: its entries are walked, and the scan finds its live topics. -/
theorem interestEmit_read (hn : ts.length < 2 ^ 16) :
    (∃ post, interestWalk (interestEmit ts) = some post) ∧
      interestScan (interestEmit ts) = liveEntries 0 ts := by
  obtain ⟨us, hus⟩ : ∃ us, us = ts.take (announcedLen ts) := ⟨_, rfl⟩
  have hlen : us.length < 2 ^ 16 := by
    rw [hus, List.length_take]
    have := announcedLen_le ts
    omega
  have hclosed : Closed 0 us := hus ▸ closed_announced ts
  obtain ⟨post, hpost⟩ : ∃ post,
      interestEmit ts = writeLe 2 us.length ++ (entryCells 0 us ++ post) := by
    unfold interestEmit
    dsimp only
    rw [← hus, List.append_assoc, List.append_assoc]
    exact ⟨_, rfl⟩
  have hfront : frontLe 2 (interestEmit ts) = us.length := by
    rw [hpost, frontLe_append]
    exact Nat.mod_eq_of_lt hlen
  have hdrop : (interestEmit ts).drop 2 = entryCells 0 us ++ post := by
    rw [hpost]
    exact List.drop_left' (by simp)
  refine ⟨⟨post, ?_⟩, ?_⟩
  · unfold interestWalk
    rw [if_neg (by rw [hpost, List.length_append, length_writeLe]; omega), hfront, hdrop]
    have hwalk := walkFrom_cells post 0 us.length (by omega) (by omega) hclosed
    rw [Nat.zero_add] at hwalk
    exact hwalk
  · unfold interestScan
    rw [hfront, hdrop, scanFrom_cells 0 us.length (by omega) (by omega) (by omega) hclosed, hus]
    exact liveEntries_take ts _

/-! ## Its length -/

theorem length_entryCells_le : ∀ (run : Nat) (ts : List Topic),
    (entryCells run ts).length ≤ 5 * ts.length + if run = 0 then 0 else 5
  | _, [] => Nat.zero_le _
  | run, t :: ts => by
    unfold entryCells
    split
    next =>
      have ih := length_entryCells_le 0 ts
      rw [if_pos rfl] at ih
      rw [List.length_append, List.length_append, length_entryCell, List.length_cons]
      split
      next =>
        rw [List.length_nil]
        omega
      next =>
        rw [length_entryCell]
        omega
    next =>
      have ih := length_entryCells_le (run + 1) ts
      rw [if_neg (Nat.succ_ne_zero run)] at ih
      rw [List.length_cons]
      omega

theorem length_sparseSection_le {member : Topic → Bool} {row : Nat → Topic → Bytes} {k : Nat}
    (hrow : ∀ c t, (row c t).length = k) (ts : List Topic) :
    (sparseSection member row ts).length ≤ 2 + k * ts.length := by
  unfold sparseSection
  dsimp only
  rw [List.length_append, length_writeLe, List.length_flatMap]
  have hidx := List.length_filter_le (fun c => member (topicAt ts c)) (List.range ts.length)
  rw [List.length_range] at hidx
  obtain ⟨idx, hi⟩ : ∃ idx, idx = (List.range ts.length).filter fun c => member (topicAt ts c) :=
    ⟨_, rfl⟩
  rw [← hi] at hidx ⊢
  have hsum : (idx.map fun c => (row c (topicAt ts c)).length).sum = k * idx.length := by
    clear hi hidx
    induction idx with
    | nil => rfl
    | cons c idx ih => rw [List.map_cons, List.sum_cons, ih, hrow, List.length_cons, Nat.mul_succ,
        Nat.add_comm]
  rw [hsum]
  have := Nat.mul_le_mul_left k hidx
  omega

/-- `i_rant_interest_max` bounds the list, and it is never empty. -/
theorem length_interestEmit (ts : List Topic) :
    6 ≤ (interestEmit ts).length ∧ (interestEmit ts).length ≤ 6 + 12 * ts.length := by
  unfold interestEmit
  dsimp only
  obtain ⟨us, hus⟩ : ∃ us, us = ts.take (announcedLen ts) := ⟨_, rfl⟩
  rw [← hus]
  have hlen : us.length ≤ ts.length := by
    rw [hus]
    exact List.length_take_le' _ _
  have hcells := length_entryCells_le 0 us
  rw [if_pos rfl] at hcells
  have hrates : (sparseSection Topic.rateSub
      (fun c t => writeLe 2 c ++ writeLe 2 t.qos.maxRateHz) us).length ≤ 2 + 4 * us.length :=
    length_sparseSection_le (fun c t => by simp) us
  have hgens : (sparseSection Topic.rebound
      (fun c t => writeLe 2 c ++ writeLe 1 t.gen) us).length ≤ 2 + 3 * us.length :=
    length_sparseSection_le (fun c t => by simp) us
  simp only [List.length_append, length_writeLe]
  have hfloor : ∀ (member : Topic → Bool) (row : Nat → Topic → Bytes),
      2 ≤ (sparseSection member row us).length := by
    intro member row
    unfold sparseSection
    dsimp only
    rw [List.length_append, length_writeLe]
    exact Nat.le_add_right _ _
  have h1 := hfloor Topic.rateSub fun c t => writeLe 2 c ++ writeLe 2 t.qos.maxRateHz
  have h2 := hfloor Topic.rebound fun c t => writeLe 2 c ++ writeLe 1 t.gen
  omega

end Rant.Transport
