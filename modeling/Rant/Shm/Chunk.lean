import Rant.Lib.Run
/-!
# A shared memory chunk and its generation

`src/shm/core.c`: one chunk of a segment, written by the publisher and read by any number of
same host readers, over one memory in which every load and store is a step of its own.

* The writer fills the chunk a byte at a time (`chunk_ptr` in the publish path), then
  `i_rant_shm_stamp` stores the length and then the generation, one more than the last.
* A reader of a descriptor loads the generation (`i_rant_shm_read`), copies the payload a byte
  at a time (the `memcpy` of `i_rant_node_on_shm`), and loads the generation again
  (`i_rant_shm_verify`). Both loads must equal the descriptor's.

The generation moves at the end of a fill and not at its start. So while the chunk already
takes the next sample's bytes, the old generation still stands, and a reader whose two loads
both fall before the bump is told its copy is whole. `torn_read` is such a run. Where no check
passes over a copy that met the fill (`Clean`), every read that passes is the stamped payload
(`reads_untorn`).
-/

namespace Rant.Shm

open Rant.Lib

/-! ## The memory -/

/-- One use of the chunk: what `i_rant_shm_stamp` put into the descriptor, and ghost, what the
chunk held then and which use it was. -/
structure Stamp where
  generation : Nat
  length : Nat
  payload : List UInt8
  serial : Nat
  deriving Repr, DecidableEq

/-- Where the writer stands. -/
inductive Writer
  /-- It may write bytes of its next sample. -/
  | filling
  /-- The length is stored, the generation not yet. -/
  | measured (len : Nat)
  deriving Repr, DecidableEq

/-- Where a reader stands. `met` is ghost: whether the copy took a byte that the writer had
already overwritten since the last stamp. -/
inductive Reader
  | idle
  | copying (d : Stamp) (got : List UInt8) (met : Bool)
  deriving Repr, DecidableEq

/-- The chunk and everyone at work on it. `cap` is `chunk_bytes`. The last three fields are
ghost: every stamp ever made, newest first, the indices written since the newest, and every
read that passed both checks with the bytes it returned. -/
structure Chunk where
  cap : Nat
  bytes : Nat → UInt8
  generation : Nat
  length : Nat
  writer : Writer
  readers : Nat → Reader
  stamps : List Stamp
  overwritten : List Nat
  passed : List (Stamp × List UInt8)

/-- A chunk of a segment just created: zero filled, no reader. -/
def Chunk.init (cap : Nat) : Chunk where
  cap := cap
  bytes _ := 0
  generation := 0
  length := 0
  writer := .filling
  readers _ := .idle
  stamps := []
  overwritten := []
  passed := []

/-- What may happen next, each a single access. -/
inductive ChunkEvent
  /-- The writer stores byte `i` of its next sample. -/
  | fill (i : Nat) (b : UInt8)
  /-- The first store of `i_rant_shm_stamp`: the length. -/
  | measure (len : Nat)
  /-- The second: the generation. -/
  | bump
  /-- Reader `r` loads the generation for descriptor `k` of those ever stamped. -/
  | head (r k : Nat)
  /-- Reader `r` copies its next byte. -/
  | copy (r : Nat)
  /-- Reader `r`, its copy done, loads the generation again. -/
  | tail (r : Nat)

/-- The bytes `0 .. len` of the chunk. -/
def Chunk.payload (s : Chunk) (len : Nat) : List UInt8 := (List.range len).map s.bytes

/-- Reader `r` at `x`. -/
def Chunk.reader (s : Chunk) (r : Nat) (x : Reader) : Chunk :=
  { s with readers := fun i => if i = r then x else s.readers i }

/-- The store of the generation: the chunk's sample has a descriptor. -/
def Chunk.stamp (s : Chunk) (len : Nat) : Chunk :=
  let generation := (s.generation + 1) % 2 ^ 64
  { s with
    generation := generation
    writer := .filling
    stamps := { generation := generation, length := len, payload := s.payload len
                serial := s.stamps.length + 1 } :: s.stamps
    overwritten := [] }

/-- `i_rant_shm_read`: the chunk still is the descriptor's, and it fits. -/
abbrev Chunk.opens (s : Chunk) (d : Stamp) : Prop := s.generation = d.generation ∧ d.length ≤ s.cap

/-- One step. A step its party is not at does nothing. -/
def Chunk.step (s : Chunk) : ChunkEvent → Chunk
  | .fill i b =>
    if s.writer = .filling ∧ i < s.cap then
      { s with
        bytes := fun j => if j = i then b else s.bytes j
        overwritten := i :: s.overwritten }
    else s
  | .measure len =>
    if s.writer = .filling ∧ len ≤ s.cap then { s with length := len, writer := .measured len }
    else s
  | .bump =>
    match s.writer with
    | .measured len => s.stamp len
    | .filling => s
  | .head r k =>
    match s.readers r, s.stamps[k]? with
    | .idle, some d => if s.opens d then s.reader r (.copying d [] false) else s
    | _, _ => s
  | .copy r =>
    match s.readers r with
    | .copying d got met =>
      if got.length < d.length then
        s.reader r (.copying d (got ++ [s.bytes got.length])
          (met || s.overwritten.contains got.length))
      else s
    | .idle => s
  | .tail r =>
    match s.readers r with
    | .copying d got _ =>
      if got.length < d.length then s
      else if s.generation = d.generation then
        { s.reader r .idle with passed := (d, got) :: s.passed }
      else s.reader r .idle                      -- recycled: the copy is dropped
    | .idle => s

/-- Where a list of accesses leads. -/
def Chunk.runs (cap : Nat) (es : List ChunkEvent) : Chunk := run Chunk.step (Chunk.init cap) es

/-- Every read that passed both checks returned the bytes its descriptor was stamped with. -/
def Untorn (s : Chunk) : Prop := ∀ p ∈ s.passed, p.2 = p.1.payload

/-! ## A torn read -/

/-- Two samples through one chunk. The reader of the first opens it, the writer starts on the
second, and the reader copies and checks before the writer bumps the generation. -/
def tornRun : List ChunkEvent :=
  [.fill 0 1, .fill 1 1, .measure 2, .bump, .head 0 0, .copy 0, .fill 0 2, .fill 1 2, .copy 0,
    .tail 0]

/-- The read passes, and returned one byte of each sample. -/
theorem torn_read : ¬ Untorn (Chunk.runs 2 tornRun) := by
  intro h
  have hmem : (⟨1, 2, [1, 1], 1⟩, [1, 2]) ∈ (Chunk.runs 2 tornRun).passed := by decide
  have hbad := h _ hmem
  cases hbad

/-! ## When the guard holds -/

/-- The step is no passing check over a copy that met a fill, nor over a descriptor whose
generation came round again: the counter has 64 bits. -/
def Clean (s : Chunk) : ChunkEvent → Prop
  | .tail r => ∀ d got met, s.readers r = .copying d got met → s.generation = d.generation →
      met = false ∧ s.stamps.length < d.serial + 2 ^ 64
  | _ => True

/-- What a copy so far is, as long as its descriptor is the newest. -/
structure CopyOk (s : Chunk) (d : Stamp) (got : List UInt8) (met : Bool) : Prop where
  stamped : d ∈ s.stamps
  room : got.length ≤ d.length
  prefix_eq : d.serial = s.stamps.length → met = false → got = d.payload.take got.length

/-- The invariant. -/
structure ChunkInv (s : Chunk) : Prop where
  generation : s.generation = s.stamps.length % 2 ^ 64
  stamps : ∀ d ∈ s.stamps, d.generation = d.serial % 2 ^ 64 ∧ d.serial ≤ s.stamps.length ∧
    d.payload.length = d.length
  /-- A byte not overwritten since the newest stamp still is the stamped one. -/
  newest : ∀ d ∈ s.stamps, d.serial = s.stamps.length → ∀ i, i < d.length →
    i ∉ s.overwritten → d.payload[i]? = some (s.bytes i)
  readers : ∀ r d got met, s.readers r = .copying d got met → CopyOk s d got met
  untorn : Untorn s

theorem chunkInv_init (cap : Nat) : ChunkInv (Chunk.init cap) where
  generation := rfl
  stamps _ hd := absurd hd List.not_mem_nil
  newest _ hd := absurd hd List.not_mem_nil
  readers _ _ _ _ h := Reader.noConfusion h
  untorn _ hp := absurd hp List.not_mem_nil

variable {s : Chunk}

/-- A reader moves, the memory and the stamps stay. -/
theorem ChunkInv.reader (h : ChunkInv s) (r : Nat) {x : Reader}
    (hx : ∀ d got met, x = .copying d got met → CopyOk s d got met) :
    ChunkInv (s.reader r x) where
  generation := h.generation
  stamps := h.stamps
  newest := h.newest
  readers i d got met hi := by
    have hi : (if i = r then x else s.readers i) = .copying d got met := hi
    have hok : CopyOk s d got met := by
      split at hi
      next => exact hx d got met hi
      next => exact h.readers i d got met hi
    exact ⟨hok.stamped, hok.room, hok.prefix_eq⟩
  untorn := h.untorn

/-- The next byte of the newest sample, unless the fill got there first. -/
theorem CopyOk.next (h : ChunkInv s) {d : Stamp} {got : List UInt8} {met : Bool}
    (hc : CopyOk s d got met) (hlt : got.length < d.length) :
    CopyOk s d (got ++ [s.bytes got.length]) (met || s.overwritten.contains got.length) where
  stamped := hc.stamped
  room := by
    rw [List.length_append, List.length_singleton]
    exact hlt
  prefix_eq hser hmet := by
    rw [Bool.or_eq_false_iff] at hmet
    have hfresh : got.length ∉ s.overwritten := by
      intro hmem
      rw [List.contains_iff_mem.mpr hmem] at hmet
      exact Bool.noConfusion hmet.2
    have hbyte := h.newest d hc.stamped hser got.length hlt hfresh
    have hpre := hc.prefix_eq hser hmet.1
    rw [List.length_append, List.length_singleton, List.take_add_one, hbyte, ← hpre]
    rfl

/-- The generation is stored: every copy under way is of an older use now. -/
theorem ChunkInv.stamp (h : ChunkInv s) (len : Nat) : ChunkInv (s.stamp len) where
  generation := by
    show (s.generation + 1) % 2 ^ 64 = (s.stamps.length + 1) % 2 ^ 64
    rw [h.generation, Nat.mod_add_mod]
  stamps d hd := by
    show _ ∧ d.serial ≤ s.stamps.length + 1 ∧ _
    rcases List.mem_cons.mp hd with rfl | hd
    · refine ⟨?_, Nat.le_refl _, ?_⟩
      · show (s.generation + 1) % 2 ^ 64 = (s.stamps.length + 1) % 2 ^ 64
        rw [h.generation, Nat.mod_add_mod]
      · show (s.payload len).length = len
        unfold Chunk.payload
        rw [List.length_map, List.length_range]
    · obtain ⟨hg, hs, hp⟩ := h.stamps d hd
      exact ⟨hg, Nat.le_succ_of_le hs, hp⟩
  newest d hd hser i hi _ := by
    rcases List.mem_cons.mp hd with rfl | hd
    · have hi : i < len := hi
      show (s.payload len)[i]? = some (s.bytes i)
      unfold Chunk.payload
      rw [List.getElem?_map, List.getElem?_range hi]
      rfl
    · have hser : d.serial = s.stamps.length + 1 := hser
      have hle := (h.stamps d hd).2.1
      omega
  readers r d got met hr := by
    have hok := h.readers r d got met hr
    refine ⟨List.mem_cons_of_mem _ hok.stamped, hok.room, fun hser _ => ?_⟩
    have hser : d.serial = s.stamps.length + 1 := hser
    have hle := (h.stamps d hok.stamped).2.1
    omega
  untorn := h.untorn

/-- One access keeps the invariant, on a clean step. -/
theorem step_chunk (s : Chunk) (e : ChunkEvent) (h : ChunkInv s) (hc : Clean s e) :
    ChunkInv (s.step e) := by
  cases e with
  | fill i b =>
    unfold Chunk.step
    dsimp only
    split
    next =>
      refine ⟨h.generation, h.stamps, fun d hd hser j hj hnot => ?_, fun r d got met hr => ?_,
        h.untorn⟩
      · have hne : j ≠ i := fun heq => hnot (List.mem_cons.mpr (Or.inl heq))
        have hold : j ∉ s.overwritten := fun hm => hnot (List.mem_cons_of_mem _ hm)
        show _ = some (if j = i then b else s.bytes j)
        rw [if_neg hne]
        exact h.newest d hd hser j hj hold
      · have hok := h.readers r d got met hr
        exact ⟨hok.stamped, hok.room, hok.prefix_eq⟩
    next => exact h
  | measure len =>
    unfold Chunk.step
    dsimp only
    split
    next =>
      refine ⟨h.generation, h.stamps, h.newest, fun r d got met hr => ?_, h.untorn⟩
      have hok := h.readers r d got met hr
      exact ⟨hok.stamped, hok.room, hok.prefix_eq⟩
    next => exact h
  | bump =>
    unfold Chunk.step
    dsimp only
    split
    next len _ => exact h.stamp len
    next => exact h
  | head r k =>
    unfold Chunk.step
    dsimp only
    split
    next d _ hd =>
      split
      next =>
        refine h.reader r fun d' got met heq => ?_
        cases heq
        exact ⟨List.mem_of_getElem? hd, Nat.zero_le _, fun _ _ => rfl⟩
      next => exact h
    next => exact h
  | copy r =>
    unfold Chunk.step
    dsimp only
    split
    next d got met hr =>
      split
      next hlt =>
        refine h.reader r fun d' got' met' heq => ?_
        cases heq
        exact (h.readers r d got met hr).next h hlt
      next => exact h
    next => exact h
  | tail r =>
    have hidle : ChunkInv (s.reader r .idle) := h.reader r fun _ _ _ heq => Reader.noConfusion heq
    unfold Chunk.step
    dsimp only
    split
    next d got met hr =>
      split
      next => exact h
      next hdone =>
        split
        next hgen =>
          obtain ⟨hmet, hround⟩ := hc d got met hr hgen
          have hok := h.readers r d got met hr
          obtain ⟨hg, hle, hlen⟩ := h.stamps d hok.stamped
          -- equal generations less than a whole turn apart are one stamp
          have hser : d.serial = s.stamps.length := by
            rw [h.generation, hg] at hgen
            omega
          have hfull : got.length = d.payload.length := by
            have hroom := hok.room
            omega
          refine ⟨hidle.generation, hidle.stamps, hidle.newest, fun i d' got' met' hi => ?_,
            fun p hp => ?_⟩
          · have hok' := hidle.readers i d' got' met' hi
            exact ⟨hok'.stamped, hok'.room, hok'.prefix_eq⟩
          · rcases List.mem_cons.mp hp with rfl | hp
            · have hpre := hok.prefix_eq hser hmet
              rw [hfull, List.take_length] at hpre
              exact hpre
            · exact h.untorn p hp
        next => exact hidle
    next => exact h

/-- On every interleaving in which no check passes over a copy that met a fill, every read
that passed returned the payload its generation was stamped with. -/
theorem reads_untorn (cap : Nat) (es : List ChunkEvent)
    (h : Along Chunk.step Clean (Chunk.init cap) es) : Untorn (Chunk.runs cap es) :=
  (run_invariant_along ChunkInv step_chunk es (Chunk.init cap) (chunkInv_init cap) h).untorn

/-- The reader is done before the writer starts on the next sample. -/
theorem reads_untorn_apart :
    (⟨1, 2, [1, 1], 1⟩, [1, 1]) ∈ (Chunk.runs 2 [.fill 0 1, .fill 1 1, .measure 2, .bump,
      .head 0 0, .copy 0, .copy 0, .tail 0, .fill 0 2]).passed ∧
    Untorn (Chunk.runs 2 [.fill 0 1, .fill 1 1, .measure 2, .bump, .head 0 0, .copy 0, .copy 0,
      .tail 0, .fill 0 2]) := by
  refine ⟨by decide, reads_untorn 2 _ ?_⟩
  refine ⟨trivial, trivial, trivial, trivial, trivial, trivial, trivial, ?_, trivial, trivial⟩
  intro d got met hr _
  cases hr
  exact ⟨rfl, by decide⟩

end Rant.Shm
