import Rant.Transport.Interest
/-!
# The interest codec

The four other walks over an interest list in `src/transport/core.c`: the measuring pass of
`i_rant_interest_emit` (`interestSize`), the two sparse sections behind the entries
(`interestSections`) and the iterator that yields one direction of one entry at a time
(`interestNext`). What a node measures is what it writes, what it writes is read back, and
over any list the length check passes the iterator visits the entries of the scan
(`interest_codec`).
-/

namespace Rant.Transport

open Rant.Lib

/-! ## Measuring -/

/-- The cells of the measuring pass: one for each announced slot and one for each run of the
others. -/
def countCells : Bool → List Topic → Nat
  | _, [] => 0
  | inHole, t :: ts =>
    if t.announced then countCells false ts + 1
    else (if inHole then 0 else 1) + countCells true ts

/-- `i_rant_interest_emit` without a buffer: the length of the list. -/
def interestSize (ts : List Topic) : Nat :=
  let ts := ts.take (announcedLen ts)
  2 + 5 * countCells false ts + 2 + 4 * ts.countP Topic.rateSub + 2 + 3 * ts.countP Topic.rebound

/-- `i_rant_interest_max`. -/
def interestMax (n : Nat) : Nat := 2 + 5 * n + 2 + 4 * n + 2 + 3 * n

/-- `i_rant_interest_emit` into a buffer of `cap` bytes, `none` where it does not fit. -/
def interestBuild (ts : List Topic) (cap : Nat) : Option Bytes :=
  if cap < interestSize ts then none else some (interestEmit ts)

/-! ## The sections behind the entries -/

/-- A section of rows of `width` bytes at the front, and what is behind it. -/
def sectionAt (width : Nat) (p : Bytes) : Option (Bytes × Bytes) :=
  if p.length < 2 then none
  else if p.length < 2 + frontLe 2 p * width then none
  else some ((p.drop 2).take (frontLe 2 p * width), p.drop (2 + frontLe 2 p * width))

/-- `i_RantInterestSections`. -/
structure InterestSections where
  rate : Option Bytes
  gen : Option Bytes
  deriving Repr, DecidableEq

/-- `i_rant_interest_sections`: a section that does not fit is absent along with everything
after it. -/
def interestSections (post : Bytes) : InterestSections :=
  match sectionAt 4 post with
  | none => ⟨none, none⟩
  | some (rate, post) =>
    match sectionAt 3 post with
    | none => ⟨some rate, none⟩
    | some (gen, _) => ⟨some rate, some gen⟩

/-- `n` rows of a section: a slot and a number of `k` bytes. -/
def sectionRows (k : Nat) : Nat → Bytes → List (Nat × Nat)
  | 0, _ => []
  | n + 1, p => (frontLe 2 p, frontLe k (p.drop 2)) :: sectionRows k n (p.drop (2 + k))

/-- The rows of a section, as its readers step through it. -/
def rowsOf (k : Nat) (v : Bytes) : List (Nat × Nat) := sectionRows k (v.length / (2 + k)) v

/-! ## One entry at a time -/

/-- `i_RantTopicEntry`. -/
structure TopicEntry where
  index : Nat
  role : Role
  reliable : Bool
  kind : Nat
  hash : Nat
  isPub : Bool
  deriving Repr, DecidableEq

/-- `i_RantInterestIter`. -/
structure InterestIter where
  started : Bool := false
  left : Nat := 0
  index : Nat := 0
  phase : Nat := 0
  off : Nat := 0
  deriving Repr, DecidableEq

namespace InterestIter

/-- The iterator `n` slots and one cell further. -/
def past (it : InterestIter) (n : Nat) : InterestIter :=
  { it with left := it.left - n, index := (it.index + n) % 2 ^ 16, off := it.off + 5, phase := 0 }

/-- The iterator stopped. -/
def stop (it : InterestIter) : InterestIter := { it with left := 0 }

end InterestIter

/-- The entry at the iterator, in one direction. -/
def entryHere (d : Bytes) (it : InterestIter) (isPub : Bool) : TopicEntry :=
  let e := d.drop it.off
  { index := it.index, role := .ofCode (entryFlags e), reliable := (entryFlags e).testBit 2
    kind := entryFlags e / 8 % 16, hash := frontLe 4 e, isPub := isPub }

/-- The loop of `i_rant_interest_next`. Every turn that does not yield takes a slot, so a fuel
of `left` is enough. -/
def nextFrom (d : Bytes) : Nat → InterestIter → Option TopicEntry × InterestIter
  | 0, it => (none, it)
  | fuel + 1, it =>
    if it.left = 0 then (none, it)
    else if d.length < it.off + 5 then (none, it.stop)                       -- truncated: stop
    else
      let e := d.drop it.off
      let role := Role.ofCode (entryFlags e)
      if holeRun (entryFlags e) then
        if frontLe 4 e = 0 ∨ it.left < frontLe 4 e then (none, it.stop)      -- malformed: stop
        else nextFrom d fuel (it.past (frontLe 4 e))
      else if role = .inactive then nextFrom d fuel (it.past 1)
      else if it.phase = 0 ∧ role.pubs then
        -- the sub direction of a PUBSUB entry is the next call's
        (some (entryHere d it true),
          if role = .pubSub then { it with phase := 1 } else { it.past 1 with phase := it.phase })
      else (some (entryHere d it false), it.past 1)

/-- The first call reads the header. -/
def interestStart (d : Bytes) (it : InterestIter) : InterestIter :=
  if it.started then it
  else
    { started := true, left := if d.length < 2 then 0 else frontLe 2 d, index := 0, phase := 0
      off := if d.length < 2 then 0 else 2 }

/-- `i_rant_interest_next`. -/
def interestNext (d : Bytes) (it : InterestIter) : Option TopicEntry × InterestIter :=
  nextFrom d (interestStart d it).left (interestStart d it)

/-- The entries of calls until one yields nothing, `n` calls at most. -/
def interestDrain (d : Bytes) : Nat → InterestIter → List TopicEntry
  | 0, _ => []
  | n + 1, it =>
    match interestNext d it with
    | (none, _) => []
    | (some e, it) => e :: interestDrain d n it

/-- An entry of the scan in one direction. -/
def InterestEntry.toward (e : InterestEntry) (isPub : Bool) : TopicEntry :=
  { index := e.pos, role := e.role, reliable := e.reliable, kind := e.kind, hash := e.hash, isPub := isPub }

/-- The directions of an entry, the publishing one first. -/
def InterestEntry.directions (e : InterestEntry) : List TopicEntry :=
  (if e.theirPub then [e.toward true] else []) ++ (if e.theirSub then [e.toward false] else [])

/-! ## The iterator and the scan -/

variable {d : Bytes}

/-- Fuel beyond the slots left changes nothing. -/
theorem nextFrom_fuel : ∀ (fuel fuel' : Nat) (it : InterestIter), it.left ≤ fuel → it.left ≤ fuel' →
    nextFrom d fuel it = nextFrom d fuel' it := by
  intro fuel
  induction fuel with
  | zero =>
    intro fuel' it h _
    have hz : it.left = 0 := by omega
    cases fuel' with
    | zero => rfl
    | succ fuel' =>
      unfold nextFrom
      rw [if_pos hz]
  | succ fuel ih =>
    intro fuel' it h h'
    by_cases hz : it.left = 0
    · cases fuel' with
      | zero =>
        unfold nextFrom
        rw [if_pos hz]
      | succ fuel' =>
        unfold nextFrom
        rw [if_pos hz, if_pos hz]
    · obtain ⟨fuel', rfl⟩ : ∃ k, fuel' = k + 1 := ⟨fuel' - 1, by omega⟩
      have hpast : ∀ n, n ≠ 0 → nextFrom d fuel (it.past n) = nextFrom d fuel' (it.past n) := by
        intro n hn
        have hl : (it.past n).left = it.left - n := rfl
        apply ih
        · omega
        · omega
      unfold nextFrom
      dsimp only
      rw [if_neg hz, if_neg hz, hpast 1 Nat.one_ne_zero]
      by_cases hrun : frontLe 4 (d.drop it.off) = 0 ∨ it.left < frontLe 4 (d.drop it.off)
      · rw [if_pos hrun, if_pos hrun]
      · rw [if_neg hrun, if_neg hrun, hpast _ fun hc => hrun (Or.inl hc)]

/-- A turn over a run of undefined slots. -/
theorem nextFrom_hole (fuel : Nat) (it : InterestIter) (hl : it.left ≠ 0) (hin : it.off + 5 ≤ d.length)
    (hrun : holeRun (entryFlags (d.drop it.off)) = true) (hpos : frontLe 4 (d.drop it.off) ≠ 0)
    (hle : frontLe 4 (d.drop it.off) ≤ it.left) :
    nextFrom d (fuel + 1) it = nextFrom d fuel (it.past (frontLe 4 (d.drop it.off))) := by
  rw [nextFrom]
  dsimp only
  rw [if_neg hl, if_neg (by omega), hrun, if_pos rfl, if_neg (by omega)]

/-- A turn over a slot that is off. -/
theorem nextFrom_off (fuel : Nat) (it : InterestIter) (hl : it.left ≠ 0) (hin : it.off + 5 ≤ d.length)
    (hrun : holeRun (entryFlags (d.drop it.off)) = false)
    (hrole : Role.ofCode (entryFlags (d.drop it.off)) = .inactive) :
    nextFrom d (fuel + 1) it = nextFrom d fuel (it.past 1) := by
  rw [nextFrom]
  dsimp only
  rw [if_neg hl, if_neg (by omega), hrun, if_neg Bool.false_ne_true, if_pos hrole]

/-- A turn over a live slot yields. -/
theorem nextFrom_live (fuel : Nat) (it : InterestIter) (hl : it.left ≠ 0) (hin : it.off + 5 ≤ d.length)
    (hrun : holeRun (entryFlags (d.drop it.off)) = false)
    (hrole : Role.ofCode (entryFlags (d.drop it.off)) ≠ .inactive) :
    nextFrom d (fuel + 1) it =
      if it.phase = 0 ∧ (Role.ofCode (entryFlags (d.drop it.off))).pubs = true then
        (some (entryHere d it true),
          if Role.ofCode (entryFlags (d.drop it.off)) = .pubSub then { it with phase := 1 }
          else { it.past 1 with phase := it.phase })
      else (some (entryHere d it false), it.past 1) := by
  rw [nextFrom]
  dsimp only
  rw [if_neg hl, if_neg (by omega), hrun, if_neg Bool.false_ne_true, if_neg hrole]

/-- The iterator at a cell. -/
def atCell (left index off phase : Nat) : InterestIter :=
  { started := true, left := left, index := index, phase := phase, off := off }

/-- A call over a skipped cell is the call behind it. -/
theorem interestNext_skip (left index off n : Nat) (hn : 0 < n) (hle : n ≤ left)
    (hidx : index + n < 2 ^ 16)
    (h : nextFrom d left (atCell left index off 0) =
      nextFrom d (left - 1) ((atCell left index off 0).past n)) :
    interestNext d (atCell left index off 0) = interestNext d (atCell (left - n) (index + n) (off + 5) 0) := by
  have hpast : (atCell left index off 0).past n = atCell (left - n) (index + n) (off + 5) 0 := by
    show ({ started := true, left := left - n, index := (index + n) % 2 ^ 16, phase := 0
            off := off + 5 } : InterestIter) = _
    rw [Nat.mod_eq_of_lt hidx]
    rfl
  show nextFrom d left (atCell left index off 0) = nextFrom d (left - n) _
  rw [h, hpast]
  apply nextFrom_fuel
  · show left - n ≤ left - 1
    omega
  · exact Nat.le_refl _

/-- Two iterators that answer alike drain alike. -/
theorem interestDrain_congr {it it' : InterestIter} (h : interestNext d it = interestNext d it') :
    ∀ n, interestDrain d n it = interestDrain d n it'
  | 0 => rfl
  | n + 1 => by
    unfold interestDrain
    rw [h]

theorem interestDrain_none {it it' : InterestIter} (h : interestNext d it = (none, it')) :
    ∀ n, interestDrain d n it = []
  | 0 => rfl
  | n + 1 => by
    unfold interestDrain
    rw [h]

theorem interestDrain_some {it it' : InterestIter} {e : TopicEntry}
    (h : interestNext d it = (some e, it')) (n : Nat) :
    interestDrain d (n + 1) it = e :: interestDrain d n it' := by
  show (match interestNext d it with
    | (none, _) => []
    | (some e, it) => e :: interestDrain d n it) = _
  rw [h]

/-- What the calls yield over a live cell: its directions, and then what is behind it. -/
theorem interestDrain_entry (left : Nat) {index off : Nat} (hlen : off + 5 ≤ d.length)
    (hidx : index + 1 < 2 ^ 16) (hrun : holeRun (entryFlags (d.drop off)) = false)
    (hrole : Role.ofCode (entryFlags (d.drop off)) ≠ .inactive) :
    ∃ k, k ≤ 2 ∧ ∀ n, interestDrain d (n + k) (atCell (left + 1) index off 0) =
      InterestEntry.directions ⟨index, frontLe 4 (d.drop off), entryFlags (d.drop off)⟩ ++
        interestDrain d n (atCell left (index + 1) (off + 5) 0) := by
  obtain ⟨e, he⟩ : ∃ e : InterestEntry, e = ⟨index, frontLe 4 (d.drop off), entryFlags (d.drop off)⟩ :=
    ⟨_, rfl⟩
  have hpast : ∀ phase, (atCell (left + 1) index off phase).past 1 =
      atCell left (index + 1) (off + 5) 0 := by
    intro phase
    show ({ started := true, left := left + 1 - 1, index := (index + 1) % 2 ^ 16, phase := 0
            off := off + 5 } : InterestIter) = _
    rw [Nat.mod_eq_of_lt hidx]
    rfl
  -- one call, in the first or the second phase of the cell
  have hcall : ∀ phase, interestNext d (atCell (left + 1) index off phase) =
      if phase = 0 ∧ e.theirPub = true then
        (some (e.toward true), if e.role = .pubSub then atCell (left + 1) index off 1
          else atCell left (index + 1) (off + 5) phase)
      else (some (e.toward false), atCell left (index + 1) (off + 5) 0) := by
    intro phase
    have hlive := nextFrom_live left (atCell (left + 1) index off phase)
      (Nat.succ_ne_zero left) hlen hrun hrole
    rw [hpast] at hlive
    rw [he]
    exact hlive
  have hfirst := hcall 0
  have hsecond := hcall 1
  rw [if_neg (fun h => absurd h.1 Nat.one_ne_zero)] at hsecond
  have hkind : e.role = .pubSub ∨ e.role = .pubOnly ∨ e.role = .subOnly := by
    have : e.role ≠ .inactive := by rw [he]; exact hrole
    cases hr : e.role with
    | pubSub => exact Or.inl rfl
    | pubOnly => exact Or.inr (Or.inl rfl)
    | subOnly => exact Or.inr (Or.inr rfl)
    | inactive => exact absurd hr this
  rw [← he]
  unfold InterestEntry.directions
  unfold InterestEntry.theirPub InterestEntry.theirSub at *
  rcases hkind with hr | hr | hr
  · rw [hr] at hfirst ⊢
    have hpub : interestNext d (atCell (left + 1) index off 0) =
        (some (e.toward true), atCell (left + 1) index off 1) := hfirst
    refine ⟨2, Nat.le_refl 2, fun n => ?_⟩
    rw [interestDrain_some hpub, interestDrain_some hsecond]
    rfl
  · rw [hr] at hfirst ⊢
    refine ⟨1, by omega, fun n => ?_⟩
    rw [interestDrain_some hfirst]
    rfl
  · rw [hr] at hfirst ⊢
    refine ⟨1, by omega, fun n => ?_⟩
    rw [interestDrain_some hfirst]
    rfl

/-- The step of the length check over one cell. -/
theorem walkFrom_step {k left : Nat} {e post : Bytes} (h : walkFrom k (left + 1) e = some post) :
    5 ≤ e.length ∧ ∃ k' left', k = k' + 1 ∧ slotsAfter e (left + 1) = some left' ∧
      walkFrom k' left' (e.drop 5) = some post := by
  cases k with
  | zero => exact absurd h (Option.some_ne_none post).symm
  | succ k =>
    unfold walkFrom at h
    by_cases hlen : e.length < 5
    · rw [if_pos hlen] at h
      exact absurd h (Option.some_ne_none post).symm
    rw [if_neg hlen] at h
    refine ⟨by omega, k, ?_⟩
    cases hs : slotsAfter e (left + 1) with
    | none =>
      rw [hs] at h
      exact absurd h (Option.some_ne_none post).symm
    | some left' =>
      rw [hs] at h
      exact ⟨left', rfl, rfl, h⟩

/-- Over cells the length check passes, calls of the iterator yield the directions of the
entries of the scan. The induction is on the check's fuel. -/
theorem interestDrain_scan {total : Nat} (htotal : total < 2 ^ 16) :
    ∀ (k left index off : Nat) (post : Bytes),
    walkFrom k left (d.drop off) = some post → index + left = total →
    ∀ n fuel, 2 * left < n → left ≤ fuel →
      interestDrain d n (atCell left index off 0) =
        (scanFrom fuel total index (d.drop off)).flatMap InterestEntry.directions := by
  -- no slot left: neither goes on
  have hdone : ∀ (index off n fuel : Nat), index = total →
      interestDrain d n (atCell 0 index off 0) =
        (scanFrom fuel total index (d.drop off)).flatMap InterestEntry.directions := by
    intro index off n fuel hidx
    rw [interestDrain_none rfl]
    cases fuel with
    | zero => rfl
    | succ fuel =>
      rw [scanFrom_succ, if_neg (by omega)]
      rfl
  intro k
  induction k with
  | zero =>
    intro left index off post hwalk hidx n fuel _ _
    cases left with
    | zero => exact hdone index off n fuel hidx
    | succ left => exact absurd hwalk (Option.some_ne_none post).symm
  | succ k ih =>
    intro left index off post hwalk hidx n fuel hn hfuel
    cases left with
    | zero => exact hdone index off n fuel hidx
    | succ left =>
      obtain ⟨hlen, k', left', hk, hslots, hrest⟩ := walkFrom_step hwalk
      obtain rfl : k = k' := Nat.succ.inj hk
      have hin : off + 5 ≤ d.length := by
        rw [List.length_drop] at hlen
        omega
      rw [List.drop_drop] at hrest
      obtain ⟨fuel, rfl⟩ : ∃ j, fuel = j + 1 := ⟨fuel - 1, by omega⟩
      have hlt : index < total := by omega
      rw [scanFrom_succ, if_pos hlt, List.drop_drop]
      unfold slotsAfter at hslots
      by_cases hrun : holeRun (entryFlags (d.drop off)) = true
      · -- a run of undefined slots
        rw [if_pos hrun] at hslots ⊢
        dsimp only at hslots
        obtain ⟨run, hrundef⟩ : ∃ run, run = frontLe 4 (d.drop off) := ⟨_, rfl⟩
        rw [← hrundef] at hslots ⊢
        by_cases hbad : run = 0 ∨ left + 1 < run
        · rw [if_pos hbad] at hslots
          exact absurd hslots (Option.some_ne_none left').symm
        rw [if_neg hbad] at hslots
        have hleft : left' = left + 1 - run := (Option.some.inj hslots).symm
        have hturn : nextFrom d (left + 1) (atCell (left + 1) index off 0) =
            nextFrom d left ((atCell (left + 1) index off 0).past run) := by
          rw [hrundef] at hbad ⊢
          apply nextFrom_hole left (atCell (left + 1) index off 0) (Nat.succ_ne_zero left) hin hrun
          · exact fun hz => hbad (Or.inl hz)
          · exact Nat.le_of_not_lt fun hc => hbad (Or.inr hc)
        have hskip := interestNext_skip (left + 1) index off run (Nat.pos_of_ne_zero fun hz => hbad (Or.inl hz)) (by omega) (by omega) hturn
        rw [interestDrain_congr hskip n]
        rw [hleft] at hrest
        exact ih _ _ _ post hrest (by omega) n fuel (by omega) (by omega)
      · rw [if_neg hrun] at hslots ⊢
        have hrun : holeRun (entryFlags (d.drop off)) = false := Bool.not_eq_true _ ▸ hrun
        have hleft : left' = left := (Option.some.inj hslots).symm
        rw [hleft] at hrest
        have hrec : ∀ m, 2 * left < m → interestDrain d m (atCell left (index + 1) (off + 5) 0) =
            (scanFrom fuel total (index + 1) (d.drop (off + 5))).flatMap InterestEntry.directions := by
          intro m hm
          exact ih left (index + 1) (off + 5) post hrest (by omega) m fuel hm (by omega)
        by_cases hrole : Role.ofCode (entryFlags (d.drop off)) = .inactive
        · rw [if_pos hrole]
          have hturn : nextFrom d (left + 1) (atCell (left + 1) index off 0) =
              nextFrom d left ((atCell (left + 1) index off 0).past 1) :=
            nextFrom_off left (atCell (left + 1) index off 0) (Nat.succ_ne_zero left) hin hrun hrole
          have hskip : interestNext d (atCell (left + 1) index off 0) =
              interestNext d (atCell left (index + 1) (off + 5) 0) :=
            interestNext_skip (left + 1) index off 1 Nat.one_pos (by omega) (by omega) hturn
          rw [interestDrain_congr hskip n]
          exact hrec n (by omega)
        · rw [if_neg hrole, List.flatMap_cons]
          have hslot : index + 1 < 2 ^ 16 := by omega
          obtain ⟨j, hj, hdrain⟩ := interestDrain_entry left hin hslot hrun hrole
          have hn' : n = n - j + j := by omega
          rw [hn', hdrain, hrec (n - j) (by omega)]

/-! ## Sizes -/

variable {ts : List Topic}

/-- The measuring pass counts the cells that are written. -/
theorem length_entryCells : ∀ (run : Nat) (ts : List Topic), Closed run ts →
    (entryCells run ts).length = 5 * ((if run = 0 then 0 else 1) + countCells (decide (run ≠ 0)) ts)
  | run, [], hc => by
    obtain rfl : run = 0 := hc
    rfl
  | run, t :: ts, hc => by
    unfold Closed at hc
    unfold entryCells countCells
    by_cases ht : t.announced = true
    · rw [if_pos ht] at hc ⊢
      rw [if_pos ht, List.length_append, List.length_append, length_entryCell,
        length_entryCells 0 ts hc]
      by_cases hr : run = 0
      · rw [if_pos hr, if_pos hr, List.length_nil]
        simp
        omega
      · rw [if_neg hr, if_neg hr, length_entryCell]
        simp
        omega
    · rw [if_neg ht] at hc ⊢
      rw [if_neg ht, length_entryCells (run + 1) ts hc]
      by_cases hr : run = 0
      · simp [hr]
      · simp [hr]

theorem countCells_le : ∀ (hole : Bool) (ts : List Topic), countCells hole ts ≤ ts.length
  | _, [] => Nat.le_refl 0
  | hole, t :: ts => by
    have h := countCells_le false ts
    have h' := countCells_le true ts
    unfold countCells
    rw [List.length_cons]
    split
    next => omega
    next => split <;> omega

/-- A table is the list of its slots. -/
theorem map_topicAt (ts : List Topic) : (List.range ts.length).map (topicAt ts) = ts := by
  apply List.ext_getElem
  · rw [List.length_map, List.length_range]
  · intro i h _
    rw [List.length_map, List.length_range] at h
    rw [List.getElem_map, List.getElem_range, topicAt, List.getD_eq_getElem?_getD,
      List.getElem?_eq_getElem h]
    rfl

/-- The members of a section. -/
def members (member : Topic → Bool) (ts : List Topic) : List Nat :=
  (List.range ts.length).filter fun c => member (topicAt ts c)

theorem length_members (member : Topic → Bool) (ts : List Topic) :
    (members member ts).length = ts.countP member := by
  have hmap := List.countP_map (p := member) (f := topicAt ts) (l := List.range ts.length)
  rw [map_topicAt] at hmap
  rw [hmap, List.countP_eq_length_filter]
  rfl

/-- Rows of one width. -/
theorem length_rows {α : Type} (row : α → Bytes) {w : Nat} (hrow : ∀ c, (row c).length = w) :
    ∀ idx : List α, (idx.flatMap row).length = idx.length * w
  | [] => (Nat.zero_mul w).symm
  | c :: idx => by
    rw [List.flatMap_cons, List.length_append, hrow, length_rows row hrow idx, List.length_cons,
      Nat.succ_mul, Nat.add_comm]

theorem length_sparseSection (member : Topic → Bool) (row : Nat → Topic → Bytes) {w : Nat}
    (hrow : ∀ c t, (row c t).length = w) (ts : List Topic) :
    (sparseSection member row ts).length = 2 + ts.countP member * w := by
  have hrows := length_rows (fun c => row c (topicAt ts c)) (fun c => hrow c _) (members member ts)
  rw [length_members] at hrows
  show (writeLe 2 (members member ts).length ++ (members member ts).flatMap _).length = _
  rw [List.length_append, length_writeLe, hrows]

/-- What a node measures is the length of what it writes. -/
theorem length_interestEmit_eq (ts : List Topic) : (interestEmit ts).length = interestSize ts := by
  have hcells := length_entryCells 0 _ (closed_announced ts)
  have hrates := length_sparseSection Topic.rateSub
    (fun c t => writeLe 2 c ++ writeLe 2 t.qos.maxRateHz) (w := 4) (fun c t => by simp) (ts.take (announcedLen ts))
  have hgens := length_sparseSection Topic.rebound
    (fun c t => writeLe 2 c ++ writeLe 1 t.gen) (w := 3) (fun c t => by simp) (ts.take (announcedLen ts))
  unfold interestEmit interestSize
  dsimp only
  rw [List.length_append, List.length_append, List.length_append, length_writeLe, hcells, hrates, hgens]
  simp
  omega

/-- The measured length is bounded by the table's size alone. -/
theorem interestSize_le (ts : List Topic) : interestSize ts ≤ interestMax ts.length := by
  obtain ⟨us, hus⟩ : ∃ us, us = ts.take (announcedLen ts) := ⟨_, rfl⟩
  have hlen : us.length ≤ ts.length := by
    rw [hus]
    exact List.length_take_le' _ _
  have hcells := countCells_le false us
  have hrates : us.countP Topic.rateSub ≤ us.length := List.countP_le_length
  have hgens : us.countP Topic.rebound ≤ us.length := List.countP_le_length
  unfold interestSize interestMax
  dsimp only
  rw [← hus]
  omega

/-! ## What was written is read back -/

/-- The rows of a section over the whole table: a member's slot and its number. -/
def announcedRows (member : Topic → Bool) (val : Topic → Nat) (ts : List Topic) : List (Nat × Nat) :=
  (members member ts).map fun c => (c, val (topicAt ts c))

/-- A live slot as an entry tells it: its position, nomination, role, reliability and kind. -/
structure EntryTold where
  pos : Nat
  hash : Nat
  role : Role
  reliable : Bool
  kind : Nat
  deriving Repr, DecidableEq

/-- What an entry of the scan tells. -/
def InterestEntry.told (e : InterestEntry) : EntryTold := ⟨e.pos, e.hash, e.role, e.reliable, e.kind⟩

/-- What slot `c` of a table has to tell. -/
def Topic.told (t : Topic) (c : Nat) : EntryTold :=
  ⟨c, t.hash32, t.role, decide t.reliable, t.kind.code⟩

/-- An announced topic that is not switched off. -/
def Topic.live (t : Topic) : Bool := t.announced && t.role ≠ .inactive

theorem drop_writeLe (n v : Nat) (p : Bytes) : (writeLe n v ++ p).drop n = p := by
  apply List.drop_left'
  exact length_writeLe n v

theorem frontLe_lt (n : Nat) (d : Bytes) : frontLe n d < 256 ^ n := by
  unfold frontLe
  cases h : readLe d 0 n with
  | none => exact Nat.pow_pos (by omega)
  | some v => exact readLe_lt h

/-- Written rows are read back. -/
theorem sectionRows_flatMap {k : Nat} (val : Nat → Nat) (post : Bytes) : ∀ idx : List Nat,
    (∀ c ∈ idx, c < 2 ^ 16 ∧ val c < 256 ^ k) →
    sectionRows k idx.length (idx.flatMap (fun c => writeLe 2 c ++ writeLe k (val c)) ++ post) =
      idx.map fun c => (c, val c)
  | [], _ => rfl
  | c :: idx, h => by
    obtain ⟨hc, hv⟩ := h c List.mem_cons_self
    have ih := sectionRows_flatMap val post idx fun c' hc' => h c' (List.mem_cons_of_mem c hc')
    have hslot : c % 256 ^ 2 = c := Nat.mod_eq_of_lt hc
    rw [List.flatMap_cons, List.append_assoc, List.append_assoc, List.length_cons, sectionRows,
      frontLe_append, drop_writeLe, frontLe_append, hslot, Nat.mod_eq_of_lt hv, ← List.drop_drop,
      drop_writeLe, drop_writeLe, ih, List.map_cons]

/-- A written section is found, and what is behind it. -/
theorem sectionAt_sparse (member : Topic → Bool) (row : Nat → Topic → Bytes) {w : Nat}
    (hrow : ∀ c t, (row c t).length = w) {us : List Topic} (hn : us.length < 2 ^ 16) (post : Bytes) :
    sectionAt w (sparseSection member row us ++ post) =
      some ((members member us).flatMap fun c => row c (topicAt us c), post) := by
  obtain ⟨idx, hidx⟩ : ∃ idx, idx = members member us := ⟨_, rfl⟩
  have hcount : idx.length ≤ us.length := by
    rw [hidx, length_members]
    exact List.countP_le_length
  have hrows := length_rows (fun c => row c (topicAt us c)) (fun c => hrow c _) idx
  have hbytes : sparseSection member row us ++ post =
      writeLe 2 idx.length ++ (idx.flatMap (fun c => row c (topicAt us c)) ++ post) := by
    rw [← List.append_assoc, hidx]
    rfl
  have hfront : frontLe 2 (sparseSection member row us ++ post) = idx.length := by
    rw [hbytes, frontLe_append]
    exact Nat.mod_eq_of_lt (by omega)
  have hlen : (sparseSection member row us ++ post).length = 2 + (idx.length * w + post.length) := by
    rw [hbytes, List.length_append, List.length_append, length_writeLe, hrows]
  have hdrop : (sparseSection member row us ++ post).drop 2 =
      idx.flatMap (fun c => row c (topicAt us c)) ++ post := by
    rw [hbytes, drop_writeLe]
  unfold sectionAt
  rw [hfront, hlen, if_neg (by omega), if_neg (by omega), ← List.drop_drop, hdrop, ← hrows,
    List.take_left, List.drop_left, hidx]

/-- Past the last announced slot there is none. -/
theorem not_announced_past : ∀ {ts : List Topic} {c : Nat}, announcedLen ts ≤ c →
    (topicAt ts c).announced = false
  | [], _, _ => rfl
  | t :: ts, c, h => by
    unfold announcedLen at h
    cases c with
    | zero =>
      show t.announced = false
      split at h
      next =>
        split at h
        next => omega
        next ht => exact Bool.not_eq_true _ ▸ ht
      next => omega
    | succ c =>
      show (topicAt ts c).announced = false
      apply not_announced_past
      split at h <;> omega

/-- The members among the announced slots are all members. -/
theorem members_take {member : Topic → Bool} (hm : ∀ t, member t = true → t.announced = true)
    (ts : List Topic) :
    members member (ts.take (announcedLen ts)) = members member ts ∧
      ∀ c ∈ members member ts, topicAt (ts.take (announcedLen ts)) c = topicAt ts c := by
  obtain ⟨k, hk⟩ : ∃ k, k = announcedLen ts := ⟨_, rfl⟩
  rw [← hk]
  have hle : k ≤ ts.length := hk ▸ announcedLen_le ts
  have hsame : ∀ c, c < k → topicAt (ts.take k) c = topicAt ts c := by
    intro c hc
    unfold topicAt
    rw [List.getD_eq_getElem?_getD, List.getD_eq_getElem?_getD, List.getElem?_take_of_lt hc]
  have hout : ∀ c, k ≤ c → member (topicAt ts c) = false := by
    intro c hc
    rw [Bool.eq_false_iff]
    intro hmem
    rw [hk] at hc
    exact Bool.noConfusion ((not_announced_past hc).symm.trans (hm _ hmem))
  constructor
  · obtain ⟨j, hj⟩ : ∃ j, ts.length = k + j := ⟨ts.length - k, by omega⟩
    unfold members
    rw [List.length_take, Nat.min_eq_left hle, hj, List.range_add, List.filter_append]
    have hnone : ((List.range j).map (k + ·)).filter (fun c => member (topicAt ts c)) = [] := by
      rw [List.filter_eq_nil_iff]
      intro c hc
      obtain ⟨i, -, rfl⟩ := List.mem_map.mp hc
      rw [hout _ (Nat.le_add_right k i)]
      exact Bool.false_ne_true
    rw [hnone, List.append_nil]
    apply List.filter_congr
    intro c hc
    rw [hsame c (List.mem_range.mp hc)]
  · intro c hc
    apply hsame
    by_contra hno
    have hmem := (List.mem_filter.mp hc).2
    rw [hout c (by omega)] at hmem
    exact Bool.noConfusion hmem

/-- A section's rows over the table are what its readers find. -/
theorem rowsOf_members {member : Topic → Bool} {val : Topic → Nat} {k : Nat}
    (hm : ∀ t, member t = true → t.announced = true) (hn : ts.length < 2 ^ 16)
    (hval : ∀ c, c < ts.length → val (topicAt ts c) < 256 ^ k) :
    rowsOf k ((members member (ts.take (announcedLen ts))).flatMap fun c =>
      writeLe 2 c ++ writeLe k (val (topicAt (ts.take (announcedLen ts)) c))) =
      announcedRows member val ts := by
  obtain ⟨hmem, hsame⟩ := members_take hm ts
  have hlt : ∀ c ∈ members member ts, c < ts.length := by
    intro c hc
    exact List.mem_range.mp (List.mem_filter.mp hc).1
  have hrows := length_rows (fun c => writeLe 2 c ++ writeLe k (val (topicAt ts c)))
    (fun c => by rw [List.length_append, length_writeLe, length_writeLe]) (members member ts)
  have hcongr : (members member ts).flatMap (fun c =>
      writeLe 2 c ++ writeLe k (val (topicAt (ts.take (announcedLen ts)) c))) =
      (members member ts).flatMap fun c => writeLe 2 c ++ writeLe k (val (topicAt ts c)) := by
    rw [List.flatMap_def, List.flatMap_def]
    congr 1
    apply List.map_congr_left
    intro c hc
    rw [hsame c hc]
  rw [hmem, hcongr]
  unfold rowsOf announcedRows
  rw [hrows, Nat.mul_div_cancel _ (by omega)]
  have hread := sectionRows_flatMap (k := k) (fun c => val (topicAt ts c)) [] (members member ts)
    fun c hc => ⟨Nat.lt_trans (hlt c hc) hn, hval c (hlt c hc)⟩
  rw [List.append_nil] at hread
  exact hread

/-- The length check over a node's own list ends at its sections. -/
theorem interestWalk_emit (hn : ts.length < 2 ^ 16) :
    interestWalk (interestEmit ts) = some
      (sparseSection Topic.rateSub (fun c t => writeLe 2 c ++ writeLe 2 t.qos.maxRateHz)
          (ts.take (announcedLen ts)) ++
        sparseSection Topic.rebound (fun c t => writeLe 2 c ++ writeLe 1 t.gen)
          (ts.take (announcedLen ts))) := by
  obtain ⟨us, hus⟩ : ∃ us, us = ts.take (announcedLen ts) := ⟨_, rfl⟩
  have hlen : us.length < 2 ^ 16 := by
    rw [hus, List.length_take]
    have := announcedLen_le ts
    omega
  rw [← hus]
  obtain ⟨post, hpost⟩ : ∃ post, post =
      sparseSection Topic.rateSub (fun c t => writeLe 2 c ++ writeLe 2 t.qos.maxRateHz) us ++
        sparseSection Topic.rebound (fun c t => writeLe 2 c ++ writeLe 1 t.gen) us := ⟨_, rfl⟩
  have hemit : interestEmit ts = writeLe 2 us.length ++ (entryCells 0 us ++ post) := by
    unfold interestEmit
    dsimp only
    rw [← hus, hpost, List.append_assoc, List.append_assoc]
  have hfront : frontLe 2 (interestEmit ts) = us.length := by
    rw [hemit, frontLe_append]
    exact Nat.mod_eq_of_lt hlen
  have hclosed : Closed 0 us := hus ▸ closed_announced ts
  have hwalk := walkFrom_cells post 0 us.length (by omega) (by omega) hclosed
  rw [Nat.zero_add] at hwalk
  unfold interestWalk
  rw [if_neg (by rw [hemit, List.length_append, length_writeLe]; omega), hfront, hemit, drop_writeLe,
    ← hpost]
  exact hwalk

theorem Topic.entryFlags_reliable (t : Topic) : t.entryFlags.testBit 2 = decide t.reliable := by
  have hr : t.role.code < 4 := by cases t.role <;> decide
  rw [Nat.testBit_eq_decide_div_mod_eq]
  unfold Topic.entryFlags
  by_cases h : t.qos.reliability = .reliable
  · rw [if_pos h, decide_eq_true h, decide_eq_true_eq]
    omega
  · rw [if_neg h, decide_eq_false h, decide_eq_false_iff_not]
    omega

/-- What the entry of a slot tells is the slot's. -/
theorem told_entryAt (t : Topic) (c : Nat) : (t.entryAt c).told = t.told c := by
  show EntryTold.mk c t.hash32 (t.entryAt c).role (t.entryFlags.testBit 2) (t.entryAt c).kind = _
  rw [t.entryAt_role, t.entryAt_kind, t.entryFlags_reliable]
  rfl

/-- The entries of a table's list are those of its live slots, in order. -/
theorem liveEntries_told : ∀ (ts : List Topic) (c : Nat), (liveEntries c ts).map InterestEntry.told =
    (members Topic.live ts).map fun i => (topicAt ts i).told (c + i)
  | [], _ => rfl
  | t :: ts, c => by
    have ih := liveEntries_told ts (c + 1)
    have hsplit : members Topic.live (t :: ts) =
        (if t.live then [0] else []) ++ (members Topic.live ts).map (· + 1) := by
      unfold members
      rw [List.length_cons, List.range_succ_eq_map, List.filter_cons, List.filter_map]
      show (if t.live = true then 0 :: _ else _) = _
      split
      next => rfl
      next => rfl
    have hrest : ((members Topic.live ts).map (· + 1)).map (fun i => (topicAt (t :: ts) i).told (c + i)) =
        (members Topic.live ts).map fun i => (topicAt ts i).told (c + 1 + i) := by
      rw [List.map_map]
      apply List.map_congr_left
      intro i _
      show (topicAt ts i).told (c + (i + 1)) = _
      rw [Nat.add_assoc, Nat.add_comm 1 i]
    have hcons : liveEntries c (t :: ts) =
        if t.live then t.entryAt c :: liveEntries (c + 1) ts else liveEntries (c + 1) ts := rfl
    rw [hsplit, List.map_append, hrest, ← ih, hcons]
    by_cases hl : t.live = true
    · rw [if_pos hl, if_pos hl, List.map_cons, told_entryAt]
      rfl
    · rw [if_neg hl, if_neg hl]
      rfl

/-! ## The codec -/

/-- What a node measures is what it writes and is bounded by its table's size; the length check
passes it; the scan finds exactly the live topics at their own slot, as they are; each section
comes back. Over any list the check passes, calls of the iterator until it stops visit the
entries of the scan, the publishing direction of each first. -/
theorem interest_codec (ts : List Topic) (hn : ts.length < 2 ^ 16)
    (hty : ∀ t ∈ ts, t.qos.maxRateHz < 2 ^ 16 ∧ t.gen < 2 ^ 8) :
    (∀ cap, interestSize ts ≤ cap → interestBuild ts cap = some (interestEmit ts)) ∧
    (interestEmit ts).length = interestSize ts ∧ interestSize ts ≤ interestMax ts.length ∧
    (∃ post rate gen, interestWalk (interestEmit ts) = some post ∧
      interestSections post = ⟨some rate, some gen⟩ ∧
      rowsOf 2 rate = announcedRows Topic.rateSub (fun t => t.qos.maxRateHz) ts ∧
      rowsOf 1 gen = announcedRows Topic.rebound (fun t => t.gen) ts) ∧
    (interestScan (interestEmit ts)).map InterestEntry.told =
      (members Topic.live ts).map (fun c => (topicAt ts c).told c) ∧
    (∀ d post, interestWalk d = some post → ∀ n, 2 * frontLe 2 d < n →
      interestDrain d n {} = (interestScan d).flatMap InterestEntry.directions) := by
  have hslot : ∀ c, c < ts.length → topicAt ts c ∈ ts := by
    intro c hc
    unfold topicAt
    rw [List.getD_eq_getElem?_getD, List.getElem?_eq_getElem hc]
    exact List.getElem_mem hc
  refine ⟨fun cap hcap => if_neg (Nat.not_lt.mpr hcap), length_interestEmit_eq ts, interestSize_le ts,
    ?_, ?_, ?_⟩
  · obtain ⟨us, hus⟩ : ∃ us, us = ts.take (announcedLen ts) := ⟨_, rfl⟩
    have hlen : us.length < 2 ^ 16 := by
      rw [hus, List.length_take]
      omega
    refine ⟨_, _, _, interestWalk_emit hn, ?_, rowsOf_members ?_ hn ?_, rowsOf_members ?_ hn ?_⟩
    · rw [← hus]
      unfold interestSections
      rw [sectionAt_sparse Topic.rateSub _ (fun c t => by simp) hlen]
      dsimp only
      have hgen := sectionAt_sparse Topic.rebound (fun c t => writeLe 2 c ++ writeLe 1 t.gen) (w := 3)
        (fun c t => by simp) hlen []
      rw [List.append_nil] at hgen
      rw [hgen]
    · intro t ht
      unfold Topic.rateSub at ht
      simp only [Bool.and_eq_true] at ht
      exact ht.1.1
    · intro c hc
      exact (hty _ (hslot c hc)).1
    · intro t ht
      unfold Topic.rebound at ht
      simp only [Bool.and_eq_true] at ht
      exact ht.1
    · intro c hc
      exact (hty _ (hslot c hc)).2
  · rw [(interestEmit_read hn).2, liveEntries_told]
    simp only [Nat.zero_add]
  · intro d post hwalk n hdrain
    unfold interestWalk at hwalk
    by_cases hd : d.length < 2
    · rw [if_pos hd] at hwalk
      exact absurd hwalk (Option.some_ne_none post).symm
    rw [if_neg hd] at hwalk
    have hstart : interestStart d {} = atCell (frontLe 2 d) 0 2 0 := by
      unfold interestStart
      rw [if_neg Bool.false_ne_true, if_neg hd, if_neg hd]
      rfl
    have hfirst : interestNext d {} = interestNext d (atCell (frontLe 2 d) 0 2 0) := by
      show nextFrom d (interestStart d {}).left (interestStart d {}) = _
      rw [hstart]
      rfl
    have hfront : frontLe 2 d < 2 ^ 16 := frontLe_lt 2 d
    rw [interestDrain_congr hfirst n]
    exact interestDrain_scan hfront _ _ 0 2 post hwalk (Nat.zero_add _) n _ hdrain (Nat.le_refl _)

/-- The table of a node with a live publisher, a retired slot and a rebound subscriber that
caps its rate. -/
def codecTable : List Topic :=
  [{ Topic.undefined with name := [1], identity := 5, role := .pubSub, kind := .variable },
   { Topic.undefined with name := [2], identity := 7, role := .inactive, retired := true },
   { Topic.undefined with
     qos := ⟨.reliable, 4, 0, 20000, 0, 30, false⟩
     name := [3], identity := 9, role := .subOnly, gen := 2 }]

theorem interest_codec_three :
    (interestEmit codecTable).length = interestSize codecTable ∧
    (interestScan (interestEmit codecTable)).map InterestEntry.told =
      [⟨0, 5, .pubSub, false, 3⟩, ⟨2, 9, .subOnly, true, 0⟩] ∧
    ((interestDrain (interestEmit codecTable) 7 {}).map fun e => (e.index, e.isPub)) =
      [(0, true), (0, false), (2, false)] := by
  have hty : ∀ t ∈ codecTable, t.qos.maxRateHz < 2 ^ 16 ∧ t.gen < 2 ^ 8 := by decide
  obtain ⟨-, hlen, -, ⟨post, -, -, hwalk, -⟩, hscan, hdrain⟩ := interest_codec codecTable (by decide) hty
  refine ⟨hlen, hscan, ?_⟩
  rw [hdrain _ post hwalk 7 (by decide)]
  decide

end Rant.Transport
