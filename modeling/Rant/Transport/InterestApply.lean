import Rant.Transport.PeerVerdicts
import Rant.Transport.Rematch
/-!
# Applying a peer's list

`i_rant_transport_apply_peer_interest` of `src/transport/core.c`. The entries are walked once
(`siftCell`): a position whose slot was rebound goes back to pending, an entry that no longer
names what its verdict bound is dissolved, and an entry a verdict stands for sets the peer's
bits or is refused. Then every topic is matched again, and what the lanes take from the list and
the verdicts is put onto them: the rate and the stamp flag.

Each entry touches its own position only, so the verdicts behind the walk are read off entry by
entry (`sift_at`, `sift_ne`), and so is the publishers' bitmap (`sift_pub`).
-/

namespace Rant.Transport

open Rant.Lib

/-! ## The entries with their generations -/

/-- The entries of a list as the apply walks them: the live ones of `scanFrom` and the slots
that are off. -/
def cellsFrom : Nat → Nat → Nat → Bytes → List InterestEntry
  | 0, _, _, _ => []
  | fuel + 1, n, a, e =>
    if a < n then
      if holeRun (entryFlags e) then cellsFrom fuel n (a + frontLe 4 e) (e.drop 5)
      else ⟨a, frontLe 4 e, entryFlags e⟩ :: cellsFrom fuel n (a + 1) (e.drop 5)
    else []

/-- The generations of entries, read off the rows with a merge cursor. No row is generation 0. -/
def withGens : List (Nat × Nat) → List InterestEntry → List (InterestEntry × Nat)
  | _, [] => []
  | rows, e :: es =>
    let rows := rows.dropWhile fun row => row.1 < e.pos
    (e, ((rows.head?.filter fun row => row.1 = e.pos).map (·.2)).getD 0) :: withGens rows es

/-- The entries of a list the walk passed, each with its generation. `post` is behind the
entries. -/
def interestCells (d post : Bytes) : List (InterestEntry × Nat) :=
  withGens (((interestSections post).gen.map (rowsOf 1)).getD [])
    (cellsFrom (frontLe 2 d) (frontLe 2 d) 0 (d.drop 2))

/-! ## One entry -/

/-- Out of `RANT__AST_REF_MASK`. -/
def Verdict.unrefused (v : Verdict) : Verdict :=
  { v with refKind := false, refQos := false, refRead := false, refWrite := false }

/-- Back to pending with the binding severed. -/
def Verdict.dissolve (v : Verdict) : Verdict := { gen := v.gen }

/-- The generation gate: the peer rebound the position since the verdict. -/
def Verdict.regen (v : Verdict) (gen : Nat) : Verdict :=
  if v.gen = gen then v else if v.astate = 0 then { v with gen := gen } else { gen := gen }

/-- The topic is parked or gone, and its name finds another one: the verdict bound the then live
twin. -/
def outlived (ts : List Topic) (c : Nat) : Bool :=
  ((topicAt ts c).role = .inactive || (topicAt ts c).retired) &&
    (topicByIdentity ts (topicAt ts c).identity).getD c ≠ c

/-- The error events of an apply. -/
inductive ApplyEvent
  /-- `RANT_E_KIND_MISMATCH`. -/
  | kindMismatch (c : Nat)
  /-- `RANT_E_QOS_INCOMPATIBLE`. -/
  | qosIncompatible (c : Nat)
  /-- `RANT_E_SCHEMA_MISMATCH` in a direction, their publisher or not. -/
  | schemaMismatch (c : Nat) (theirPub : Bool)
  /-- `RANT_E_INTEREST_OVERFLOW`. -/
  | interestOverflow (count : Nat)
  deriving Repr, DecidableEq

/-- What an entry comes to: its verdict, whether its topic's bits are set, and the events. -/
structure Fate where
  verdict : Verdict
  pub : Bool := false
  sub : Bool := false
  events : List ApplyEvent := []

/-- The directions of an entry whose verdict stands for topic `c` of the same kind. -/
def entryBits (t : Topic) (c : Nat) (e : InterestEntry) (v : Verdict) : Fate :=
  -- their offered qos against our subscription, then the schema gate
  let qos := e.theirPub && t.role.subs && t.reliable && !e.reliable
  let read := e.theirPub && !qos && !v.readOk
  let write := e.theirSub && !v.writeOk
  { verdict := { v with refQos := v.refQos || qos, refRead := v.refRead || read
                        refWrite := v.refWrite || write }
    pub := e.theirPub && !qos && !read
    sub := e.theirSub && !write
    events := (if qos then [.qosIncompatible c] else []) ++
      (if read then [.schemaMismatch c true] else []) ++ (if write then [.schemaMismatch c false] else []) }

/-- What an entry comes to under the verdict its position holds behind the generation gate. -/
def entryFate (ts : List Topic) (e : InterestEntry) (v : Verdict) : Fate :=
  if e.role = .inactive ∨ v.named = false then { verdict := v }       -- off, pending or no match
  else if ts.length ≤ v.boundTo then { verdict := v }                 -- a stale map
  else
    let t := topicAt ts v.boundTo
    if t.hash32 ≠ e.hash ∨ outlived ts v.boundTo then { verdict := v.dissolve }
    else if t.retired then { verdict := v }                           -- no live successor yet
    else if e.kind ≠ t.kind.code then
      { verdict := { v with refKind := true }, events := [.kindMismatch v.boundTo] }
    else entryBits t v.boundTo e v

/-! ## The walk -/

/-- The state of the entry loop. -/
structure Sift where
  verdicts : List Verdict
  bits : PeerBits := {}
  unmappable : Nat := 0
  events : List ApplyEvent := []

/-- One turn of the entry loop. -/
def siftCell (ts : List Topic) (x : Sift) (cell : InterestEntry × Nat) : Sift :=
  let e := cell.1
  if x.verdicts.length ≤ e.pos then
    -- no verdict storage: count it if it was a candidate
    if e.role ≠ .inactive ∧ (hash32Candidates ts e.hash).1 ≠ 0 then
      { x with unmappable := x.unmappable + 1 }
    else x
  else
    let v := (verdictAt x.verdicts e.pos).regen cell.2
    let f := entryFate ts e v
    { x with
      verdicts := x.verdicts.set e.pos f.verdict
      bits := { x.bits with
        pub := fun c => x.bits.pub c || (f.pub && c == v.boundTo)
        sub := fun c => x.bits.sub c || (f.sub && c == v.boundTo)
        subReliable := fun c => x.bits.subReliable c || (f.sub && e.reliable && c == v.boundTo) }
      events := x.events ++ f.events }

/-- The entry loop. -/
def sift (ts : List Topic) (vs : List Verdict) (cells : List (InterestEntry × Nat)) : Sift :=
  cells.foldl (siftCell ts) { verdicts := vs }

/-- The topics a subscribing entry claims: pending, every one its hash nominates. -/
def claimsOf (ts : List Topic) (vs : List Verdict) (e : InterestEntry) : List Nat :=
  if e.theirSub = false ∨ vs.length ≤ e.pos then []
  else
    let v := verdictAt vs e.pos
    if v.detailed then (if v.nameOk ∧ v.boundTo < ts.length then [v.boundTo] else [])
    else nominated ts e.hash

/-! ## The lanes' values -/

namespace LaneTable

/-- A topic's writer, where there is a used one, changed. -/
def withWriter (s : LaneTable) (c : Nat) (f : WriterProxy → WriterProxy) : LaneTable :=
  if (s.writerAt c).used then
    { s with lane := fun q => if q = c then (s.lane c).map fun l => { l with w := f l.w } else s.lane q }
  else s

/-- A topic's reader, where there is a used one, changed. -/
def withReader (s : LaneTable) (c : Nat) (f : ReaderProxy → ReaderProxy) : LaneTable :=
  if (s.readerAt c).used then
    { s with lane := fun q => if q = c then (s.lane c).map fun l => { l with r := f l.r } else s.lane q }
  else s

end LaneTable

/-- The rate a row sets on the writer of the topic its slot is bound to, 0 unpaced. -/
def rateLane (vs : List Verdict) (s : LaneTable) (row : Nat × Nat) : LaneTable :=
  if vs.length ≤ row.1 ∨ s.topics.length ≤ (verdictAt vs row.1).boundTo then s
  else
    s.withWriter (verdictAt vs row.1).boundTo fun w =>
      { w with rateIntervalUs := if row.2 ≠ 0 then 1000000 / row.2 else 0 }

/-- The rates of a list: a topic it leaves out is unpaced. -/
def rateLanes (vs : List Verdict) (rows : List (Nat × Nat)) (s : LaneTable) : LaneTable :=
  rows.foldl (rateLane vs)
    ((List.range s.topics.length).foldl
      (fun s c => s.withWriter c fun w => { w with rateIntervalUs := 0 }) s)

/-- The stamp flag a position puts on the reader of the topic it is bound to. -/
def stampLane (s : LaneTable) (v : Verdict) : LaneTable :=
  if v.noTimestamp ∧ v.boundTo < s.topics.length then
    s.withReader v.boundTo fun r => { r with noTimestamp := true }
  else s

/-- `RANT_ATTR_NO_TIMESTAMP` from the detail cache onto the reader lanes. -/
def stampLanes (vs : List Verdict) (s : LaneTable) : LaneTable := vs.foldl stampLane s

/-! ## The apply -/

/-- What the transport holds of a known peer: the maps, the bits, the entries it has no storage
for, and the lanes. -/
structure PeerState where
  verdicts : List Verdict := []
  bits : PeerBits := {}
  unmappable : Nat := 0
  lanes : LaneTable

/-- `i_rant_peer_index_ensure` for a list of `n` slots: the maps grown to cover it, `none` for no
slots or no memory. -/
def indexEnsure (vs : List Verdict) (n : Nat) (ok : Bool) : Option (List Verdict) :=
  if n = 0 then none
  else if n ≤ vs.length then some vs
  else if ok then some (vs ++ List.replicate (n - vs.length) ({} : Verdict))
  else none

/-- The bits of a list over maps. -/
def listBits (ts : List Topic) (x : Sift) (d : Bytes) : PeerBits :=
  { x.bits with claim := fun c => (interestScan d).any fun e => (claimsOf ts x.verdicts e).contains c }

/-- `i_rant_transport_apply_peer_interest` of a known peer, `ok` the allocator's answer for the
maps. -/
def applyPeerInterest (E : MatchEnv) (ok : Bool) (s : PeerState) (d : Bytes) : PeerState × List ApplyEvent :=
  match interestWalk d with
  | none => (s, [])                                                   -- malformed: rejected whole
  | some post =>
    let ts := s.lanes.topics
    match indexEnsure s.verdicts (frontLe 2 d) ok with
    | none =>
      -- no storage: every live entry counts, and no lane is left
      let x := sift ts [] (interestCells d post)
      ({ s with bits := {}, unmappable := min x.unmappable 0xFFFF, lanes := rematchAll E {} s.lanes },
        if x.unmappable = 0 then [] else [.interestOverflow x.unmappable])
    | some vs =>
      let x := sift ts (vs.map Verdict.unrefused) (interestCells d post)
      let bits := listBits ts x d
      let lanes := rateLanes x.verdicts (((interestSections post).rate.map (rowsOf 2)).getD [])
        (rematchAll E bits s.lanes)
      ({ verdicts := x.verdicts, bits := bits, unmappable := min x.unmappable 0xFFFF
         lanes := stampLanes x.verdicts lanes },
        x.events ++ if x.unmappable = 0 then [] else [.interestOverflow x.unmappable])

/-! ## Where the entries are -/

variable {ts : List Topic}

theorem cellsFrom_pos : ∀ (fuel n a : Nat) (p : Bytes), ∀ e ∈ cellsFrom fuel n a p, a ≤ e.pos ∧ e.pos < n := by
  intro fuel
  induction fuel with
  | zero => intro n a p e he; exact absurd he List.not_mem_nil
  | succ fuel ih =>
    intro n a p e he
    rw [cellsFrom] at he
    by_cases ha : a < n
    · rw [if_pos ha] at he
      by_cases hrun : holeRun (entryFlags p) = true
      · rw [if_pos hrun] at he
        have hin := ih n _ _ e he
        omega
      · rw [if_neg hrun] at he
        rcases List.mem_cons.mp he with rfl | hin
        · exact ⟨Nat.le_refl a, ha⟩
        · have hin' := ih n _ _ e hin
          omega
    · rw [if_neg ha] at he
      exact absurd he List.not_mem_nil

/-- Every entry has a position of its own. -/
theorem cellsFrom_pairwise : ∀ (fuel n a : Nat) (p : Bytes),
    (cellsFrom fuel n a p).Pairwise fun e e' => e.pos ≠ e'.pos := by
  intro fuel
  induction fuel with
  | zero => intro n a p; exact List.Pairwise.nil
  | succ fuel ih =>
    intro n a p
    rw [cellsFrom]
    by_cases ha : a < n
    · rw [if_pos ha]
      by_cases hrun : holeRun (entryFlags p) = true
      · rw [if_pos hrun]
        exact ih n _ _
      rw [if_neg hrun]
      refine List.Pairwise.cons ?_ (ih n _ _)
      intro e he heq
      have hpos := cellsFrom_pos fuel n (a + 1) _ e he
      have hat : a = e.pos := heq
      omega
    · rw [if_neg ha]
      exact List.Pairwise.nil

/-- The scan yields the live ones of the entries. -/
theorem scanFrom_cells_filter : ∀ (fuel n a : Nat) (p : Bytes),
    scanFrom fuel n a p = (cellsFrom fuel n a p).filter fun e => e.role ≠ .inactive := by
  intro fuel
  induction fuel with
  | zero => intro n a p; rfl
  | succ fuel ih =>
    intro n a p
    rw [scanFrom, cellsFrom]
    by_cases ha : a < n
    · rw [if_pos ha, if_pos ha]
      by_cases hrun : holeRun (entryFlags p) = true
      · rw [if_pos hrun, if_pos hrun]
        exact ih n _ _
      rw [if_neg hrun, if_neg hrun, List.filter_cons]
      by_cases hoff : Role.ofCode (entryFlags p) = .inactive
      · rw [if_pos hoff, if_neg, ih]
        have hrole : InterestEntry.role ⟨a, frontLe 4 p, entryFlags p⟩ = .inactive := hoff
        rw [hrole]
        simp
      · rw [if_neg hoff, if_pos, ih]
        have hrole : InterestEntry.role ⟨a, frontLe 4 p, entryFlags p⟩ ≠ .inactive := hoff
        simp [hrole]
    · rw [if_neg ha, if_neg ha]
      rfl

theorem withGens_fst : ∀ (es : List InterestEntry) (rows : List (Nat × Nat)), (withGens rows es).map (·.1) = es := by
  intro es
  induction es with
  | nil => intro rows; rfl
  | cons e es ih =>
    intro rows
    rw [withGens, List.map_cons, ih]

theorem interestCells_fst (d post : Bytes) :
    (interestCells d post).map (·.1) = cellsFrom (frontLe 2 d) (frontLe 2 d) 0 (d.drop 2) :=
  withGens_fst _ _

theorem interestCells_pos {d post : Bytes} {cell : InterestEntry × Nat} (h : cell ∈ interestCells d post) :
    cell.1.pos < frontLe 2 d := by
  have hin : cell.1 ∈ (interestCells d post).map (·.1) := List.mem_map_of_mem h
  rw [interestCells_fst] at hin
  exact (cellsFrom_pos _ _ _ _ _ hin).2

theorem interestCells_pairwise (d post : Bytes) :
    (interestCells d post).Pairwise fun x y => x.1.pos ≠ y.1.pos := by
  have hp := cellsFrom_pairwise (frontLe 2 d) (frontLe 2 d) 0 (d.drop 2)
  rw [← interestCells_fst d post, List.pairwise_map] at hp
  exact hp

theorem cell_unique {cells : List (InterestEntry × Nat)} (hp : cells.Pairwise fun x y => x.1.pos ≠ y.1.pos) :
    ∀ {x y : InterestEntry × Nat}, x ∈ cells → y ∈ cells → x.1.pos = y.1.pos → x = y := by
  induction cells with
  | nil => intro x y hx _ _; exact absurd hx List.not_mem_nil
  | cons z cells ih =>
    intro x y hx hy h
    obtain ⟨hz, hrest⟩ := List.pairwise_cons.mp hp
    rcases List.mem_cons.mp hx with hxz | hxin
    · rcases List.mem_cons.mp hy with hyz | hyin
      · rw [hxz, hyz]
      · exact absurd h (hxz ▸ hz y hyin)
    · rcases List.mem_cons.mp hy with hyz | hyin
      · exact absurd h.symm (hyz ▸ hz x hxin)
      · exact ih hrest hxin hyin h

/-- A live entry of the scan is an entry of the walk, with a generation. -/
theorem mem_interestScan {d : Bytes} (post : Bytes) {e : InterestEntry} :
    e ∈ interestScan d ↔ e.role ≠ .inactive ∧ ∃ g, (e, g) ∈ interestCells d post := by
  unfold interestScan
  rw [scanFrom_cells_filter, ← interestCells_fst d post, List.mem_filter, List.mem_map]
  constructor
  · rintro ⟨⟨cell, hin, rfl⟩, hrole⟩
    exact ⟨by simpa using hrole, cell.2, hin⟩
  · rintro ⟨hrole, g, hin⟩
    exact ⟨⟨(e, g), hin, rfl⟩, by simpa using hrole⟩

/-! ## What the walk leaves -/

theorem length_siftCell (x : Sift) (cell : InterestEntry × Nat) :
    (siftCell ts x cell).verdicts.length = x.verdicts.length := by
  unfold siftCell
  dsimp only
  split
  next =>
    split
    next => rfl
    next => rfl
  next => exact List.length_set

theorem siftCell_ne {x : Sift} {cell : InterestEntry × Nat} {a : Nat} (h : cell.1.pos ≠ a) :
    verdictAt (siftCell ts x cell).verdicts a = verdictAt x.verdicts a := by
  unfold siftCell
  dsimp only
  split
  next =>
    split
    next => rfl
    next => rfl
  next hlt =>
    dsimp only
    rw [verdictAt_set (Nat.lt_of_not_le hlt), if_neg fun ha => h ha.symm]

theorem siftCell_at {x : Sift} {cell : InterestEntry × Nat} (h : cell.1.pos < x.verdicts.length) :
    verdictAt (siftCell ts x cell).verdicts cell.1.pos =
      (entryFate ts cell.1 ((verdictAt x.verdicts cell.1.pos).regen cell.2)).verdict := by
  unfold siftCell
  dsimp only
  rw [if_neg (Nat.not_le_of_lt h), verdictAt_set h, if_pos rfl]

theorem length_siftFold (cells : List (InterestEntry × Nat)) : ∀ x : Sift,
    (cells.foldl (siftCell ts) x).verdicts.length = x.verdicts.length := by
  induction cells with
  | nil => intro x; rfl
  | cons cell cells ih =>
    intro x
    rw [List.foldl_cons, ih, length_siftCell]

/-- A position without an entry is left alone. -/
theorem siftFold_ne {a : Nat} : ∀ (cells : List (InterestEntry × Nat)) (x : Sift),
    (∀ cell ∈ cells, cell.1.pos ≠ a) →
    verdictAt (cells.foldl (siftCell ts) x).verdicts a = verdictAt x.verdicts a := by
  intro cells
  induction cells with
  | nil => intro x _; rfl
  | cons cell cells ih =>
    intro x h
    rw [List.foldl_cons, ih _ fun y hy => h y (List.mem_cons_of_mem cell hy),
      siftCell_ne (h cell List.mem_cons_self)]

/-- The verdict an entry's position is left with. -/
theorem siftFold_at : ∀ (cells : List (InterestEntry × Nat)) (x : Sift),
    (cells.Pairwise fun y z => y.1.pos ≠ z.1.pos) → ∀ cell ∈ cells, cell.1.pos < x.verdicts.length →
    verdictAt (cells.foldl (siftCell ts) x).verdicts cell.1.pos =
      (entryFate ts cell.1 ((verdictAt x.verdicts cell.1.pos).regen cell.2)).verdict := by
  intro cells
  induction cells with
  | nil => intro x _ cell h _; exact absurd h List.not_mem_nil
  | cons y cells ih =>
    intro x hp cell h hlt
    obtain ⟨hy, hrest⟩ := List.pairwise_cons.mp hp
    rw [List.foldl_cons]
    rcases List.mem_cons.mp h with rfl | hin
    · rw [siftFold_ne cells _ fun z hz => (hy z hz).symm, siftCell_at hlt]
    · rw [ih _ hrest cell hin (by rw [length_siftCell]; exact hlt), siftCell_ne (hy cell hin)]

/-! ## What the lanes are left with -/

theorem withWriter_reader (s : LaneTable) (c : Nat) (f : WriterProxy → WriterProxy) (q : Nat) :
    (s.withWriter c f).readerAt q = s.readerAt q := by
  unfold LaneTable.withWriter
  split
  next =>
    unfold LaneTable.readerAt
    dsimp only
    split
    next hq =>
      rw [hq]
      cases s.lane c with
      | none => rfl
      | some l => rfl
    next => rfl
  next => rfl

theorem withWriter_topics (s : LaneTable) (c : Nat) (f : WriterProxy → WriterProxy) :
    (s.withWriter c f).topics = s.topics := by
  unfold LaneTable.withWriter
  split
  next => rfl
  next => rfl

theorem withReader_topics (s : LaneTable) (c : Nat) (f : ReaderProxy → ReaderProxy) :
    (s.withReader c f).topics = s.topics := by
  unfold LaneTable.withReader
  split
  next => rfl
  next => rfl

/-- A changed reader, and every other as it was. -/
theorem withReader_reader (s : LaneTable) (c : Nat) (f : ReaderProxy → ReaderProxy) (q : Nat) :
    (s.withReader c f).readerAt q =
      if q = c ∧ (s.readerAt c).used = true then f (s.readerAt c) else s.readerAt q := by
  unfold LaneTable.withReader
  by_cases hu : (s.readerAt c).used = true
  · rw [if_pos hu]
    by_cases hq : q = c
    · subst hq
      rw [if_pos ⟨rfl, hu⟩]
      unfold LaneTable.readerAt at hu ⊢
      dsimp only
      rw [if_pos rfl]
      cases hl : s.lane q with
      | none =>
        rw [hl] at hu
        exact absurd hu Bool.false_ne_true
      | some l => rfl
    · rw [if_neg fun h => hq h.1]
      unfold LaneTable.readerAt
      dsimp only
      rw [if_neg hq]
  · rw [if_neg hu, if_neg fun h => hu h.2]

theorem rateLane_reader (vs : List Verdict) (s : LaneTable) (row : Nat × Nat) :
    (rateLane vs s row).topics = s.topics ∧ ∀ q, (rateLane vs s row).readerAt q = s.readerAt q := by
  unfold rateLane
  split
  next => exact ⟨rfl, fun _ => rfl⟩
  next => exact ⟨withWriter_topics _ _ _, withWriter_reader _ _ _⟩

theorem foldl_reader {α : Type} {f : LaneTable → α → LaneTable}
    (hf : ∀ s x, (f s x).topics = s.topics ∧ ∀ q, (f s x).readerAt q = s.readerAt q) (xs : List α) :
    ∀ s : LaneTable, (xs.foldl f s).topics = s.topics ∧ ∀ q, (xs.foldl f s).readerAt q = s.readerAt q := by
  induction xs with
  | nil => exact fun s => ⟨rfl, fun _ => rfl⟩
  | cons x xs ih =>
    intro s
    obtain ⟨ht, hr⟩ := ih (f s x)
    rw [List.foldl_cons]
    exact ⟨ht.trans (hf s x).1, fun q => (hr q).trans ((hf s x).2 q)⟩

/-- The rates leave the readers alone. -/
theorem rateLanes_reader (vs : List Verdict) (rows : List (Nat × Nat)) (s : LaneTable) :
    (rateLanes vs rows s).topics = s.topics ∧ ∀ q, (rateLanes vs rows s).readerAt q = s.readerAt q := by
  obtain ⟨ht, hr⟩ := foldl_reader (fun s c => ⟨withWriter_topics s c fun w => { w with rateIntervalUs := 0 },
    withWriter_reader s c fun w => { w with rateIntervalUs := 0 }⟩) (List.range s.topics.length) s
  obtain ⟨ht', hr'⟩ := foldl_reader (rateLane_reader vs) rows
    ((List.range s.topics.length).foldl (fun s c => s.withWriter c fun w => { w with rateIntervalUs := 0 }) s)
  unfold rateLanes
  exact ⟨ht'.trans ht, fun q => (hr' q).trans (hr q)⟩

theorem stampLane_topics (s : LaneTable) (v : Verdict) : (stampLane s v).topics = s.topics := by
  unfold stampLane
  split
  next => exact withReader_topics _ _ _
  next => rfl

theorem stampLane_reader (s : LaneTable) (v : Verdict) (q : Nat) :
    ((stampLane s v).readerAt q).used = (s.readerAt q).used ∧
      ((stampLane s v).readerAt q).noTimestamp = ((s.readerAt q).noTimestamp ||
        ((s.readerAt q).used && decide (q < s.topics.length) && v.noTimestamp && v.boundTo == q)) := by
  unfold stampLane
  by_cases hv : v.noTimestamp = true ∧ v.boundTo < s.topics.length
  · rw [if_pos hv, withReader_reader]
    by_cases hq : q = v.boundTo
    · subst hq
      cases hu : (s.readerAt v.boundTo).used with
      | false => simp [hu]
      | true => simp [hv.1, hv.2]
    · rw [if_neg fun h => hq h.1]
      have hno : (v.boundTo == q) = false := by
        rw [beq_eq_false_iff_ne]
        exact fun h => hq h.symm
      simp [hno]
  · rw [if_neg hv]
    refine ⟨rfl, ?_⟩
    cases hno : (decide (q < s.topics.length) && v.noTimestamp && v.boundTo == q) with
    | false => rw [Bool.and_assoc, Bool.and_assoc, ← Bool.and_assoc (decide _), hno, Bool.and_false, Bool.or_false]
    | true =>
      obtain ⟨h, hb⟩ := Bool.and_eq_true_iff.mp hno
      obtain ⟨hlt, hts⟩ := Bool.and_eq_true_iff.mp h
      have hbound : v.boundTo = q := beq_iff_eq.mp hb
      have hq : q < s.topics.length := of_decide_eq_true hlt
      exact absurd ⟨hts, by rw [hbound]; exact hq⟩ hv

/-- The flag a used reader is left with: what it had, or what any position bound to its topic
carries. -/
theorem stampLanes_reader {q : Nat} : ∀ (vs : List Verdict) (s : LaneTable), q < s.topics.length →
    ((stampLanes vs s).readerAt q).used = (s.readerAt q).used ∧
      ((s.readerAt q).used = true → (((stampLanes vs s).readerAt q).noTimestamp = true ↔
        (s.readerAt q).noTimestamp = true ∨ ∃ v ∈ vs, v.noTimestamp = true ∧ v.boundTo = q)) := by
  intro vs
  induction vs with
  | nil =>
    intro s _
    refine ⟨rfl, fun _ => ⟨Or.inl, ?_⟩⟩
    rintro (h | ⟨v, h, -⟩)
    · exact h
    · exact absurd h List.not_mem_nil
  | cons v vs ih =>
    intro s hq
    obtain ⟨hu, hts⟩ := stampLane_reader s v q
    obtain ⟨hu', hts'⟩ := ih (stampLane s v) (by rw [stampLane_topics]; exact hq)
    have hcons : stampLanes (v :: vs) s = stampLanes vs (stampLane s v) := rfl
    rw [hcons, hu']
    refine ⟨hu, fun hused => ?_⟩
    rw [hts' (hu.trans hused), hts, hused, decide_eq_true hq]
    simp only [Bool.true_and, Bool.or_eq_true, Bool.and_eq_true, beq_iff_eq, List.mem_cons,
      exists_eq_or_imp, or_assoc]

end Rant.Transport
