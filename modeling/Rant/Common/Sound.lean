import Rant.Common.MemoryRuns
/-!
# What callers rely on

Whatever was asked before, the blocks that are out keep apart and hold what was asked for, the
lists hold each page once, the counters are the sums, and a resize keeps the bytes or leaves all as
it was. A pooled block is not spent on an ask of less than half of it.
-/

namespace Rant.Memory

open Rant.Lib

/-- The bytes of the blocks that are out. -/
def World.extents (w : World) : List Extent :=
  w.live.map (fun b => ⟨b.ptr, (w.a.page b.hdr).cap⟩) ++ w.fixeds.map Block.reserve

namespace RantAllocator

variable (a : RantAllocator)

/-- The pooled blocks. -/
def poolList : List Nat := walk a.page a.made a.freePool

/-- All pages that are on a list. -/
def lists : List Nat :=
  walk a.page a.made a.shared ++ (walk a.page a.made a.owned ++ a.poolList)

/-- The memory there is: what the backing gave, or the buffer. -/
def backs : List Extent :=
  if a.dynamic then a.held else (walk a.page a.made a.shared).map (block a.page)

end RantAllocator

structure Sound (w : World) : Prop where
  apart : w.extents.Pairwise Extent.Apart
  room : (∀ b ∈ w.live, b.asked ≤ (w.a.page b.hdr).cap) ∧ ∀ b ∈ w.fixeds, b.asked ≤ align b.asked
  memory : ∀ x ∈ w.extents, ∃ e ∈ w.a.backs, x.Inside e
  lists : w.a.lists.Nodup
  held : w.a.dynamic = true → w.a.lists.Perm (w.a.held.map Extent.off)
  owned : walk w.a.page w.a.made w.a.owned = if w.a.dynamic then w.live.map Block.hdr else []
  out : (w.live.map Block.hdr).Nodup ∧ ∀ b ∈ w.live, b.hdr ∉ w.a.poolList
  inUse : w.a.inUse = (w.extents.map Extent.len).sum
  pooled : w.a.pooled = caps w.a.page w.a.poolList

/-- What the answer to a resize of `b` may be. -/
structure Resized (w : World) (b : Block) (size : Nat) (r : RantAllocator × Option Nat) : Prop where
  failed : r.2 = none → r.1 = w.a
  kept : ∀ p, r.2 = some p → ∀ i, i < min (w.a.page b.hdr).cap size →
    r.1.mem (p + i) = w.a.mem (b.ptr + i)
  others : ∀ c ∈ w.live ++ w.fixeds, c ≠ b → ∀ i, i < c.asked →
    r.1.mem (c.ptr + i) = w.a.mem (c.ptr + i)

/-- What holds of the allocator and of the next request. -/
structure Guaranteed (w : World) : Prop where
  sound : Sound w
  resized : ∀ b ∈ w.live, ∀ size back, 0 < size → Fits w.a size →
    Resized w b size (w.a.alloc (some b.ptr) size back)
  /-- A pooled block goes out for an ask that rounds to half of it or more. -/
  reused : ∀ ptr size back p, (∀ q, ptr = some q → ∃ b ∈ w.live, b.ptr = q) → 0 < size →
    Fits w.a size → (w.a.alloc ptr size back).2 = some p → p - pageHdr ∈ w.a.poolList →
      (w.a.page (p - pageHdr)).cap ≤ 2 * w.a.capOf size

/-- The allocator a node starts with. -/
def Fresh (a : RantAllocator) : Prop :=
  (∃ pageSize maxBytes, a = RantAllocator.init pageSize maxBytes) ∨ ∃ b size, a = RantAllocator.static b size

variable {w : World} {S P : List Nat}

theorem inside_block {w : World} {b : Block} (h : pageHdr ≤ b.ptr) :
    Extent.Inside ⟨b.ptr, (w.a.page b.hdr).cap⟩ (block w.a.page b.hdr) := by
  unfold Extent.Inside block Block.hdr
  dsimp only
  omega

/-- The bytes of the blocks, apart like the blocks. -/
theorem Settled.apart (h : Settled w S P) : w.extents.Pairwise Extent.Apart := by
  obtain ⟨hblocks, hrest, hcross⟩ := List.pairwise_append.mp h.layout.apart
  rw [List.map_append] at hblocks
  have hlive := (List.pairwise_append.mp hblocks).1
  rw [List.map_map, List.pairwise_map] at hlive
  refine List.pairwise_append.mpr ⟨?_, (List.pairwise_append.mp hrest).1, fun x hx y hy => ?_⟩
  · rw [List.pairwise_map]
    refine List.Pairwise.imp_of_mem (fun hb hc hap => ?_) hlive
    exact hap.mono (inside_block (h.hdr _ hb)) (inside_block (h.hdr _ hc))
  · obtain ⟨b, hb, rfl⟩ := List.mem_map.mp hx
    refine (hcross (block w.a.page b.hdr) ?_ y (List.mem_append_left _ hy)).mono
      (inside_block (h.hdr b hb)) ⟨Nat.le_refl _, Nat.le_refl _⟩
    exact List.mem_map_of_mem (List.mem_append_left P (List.mem_map_of_mem hb))

/-- The invariant, read off the allocator alone. -/
theorem Settled.sound (h : Settled w S P) : Sound w := by
  obtain ⟨hwS, hwH, hwP⟩ := h.layout.walks
  have hpool : w.a.poolList = P := hwP
  have hlists : w.a.lists = S ++ ((if w.a.dynamic = true then w.live.map Block.hdr else []) ++ P) := by
    unfold RantAllocator.lists
    rw [hwS, hwH, hpool]
  obtain ⟨hSout, hHP, hH, -⟩ := h.layout.lists_apart
  constructor
  · exact h.apart
  · exact ⟨h.asked, h.fixedAsked⟩
  · intro x hx
    have hin : ∃ e ∈ w.a.backs, ∃ y, x.Inside y ∧ y.Inside e := by
      unfold RantAllocator.backs
      cases hd : w.a.dynamic with
      | true =>
        rcases List.mem_append.mp hx with hx | hx
        · obtain ⟨b, hb, rfl⟩ := List.mem_map.mp hx
          obtain ⟨e, he, hi⟩ := h.layout.leaf_held hd (mem_leaves.mpr
            (Or.inl ⟨b.hdr, List.mem_append_left P (List.mem_map_of_mem hb), rfl⟩))
          exact ⟨e, he, _, inside_block (h.hdr b hb), hi⟩
        · obtain ⟨e, he, hi⟩ := h.layout.leaf_held hd (mem_leaves.mpr (Or.inr (Or.inl hx)))
          exact ⟨e, he, x, ⟨Nat.le_refl _, Nat.le_refl _⟩, hi⟩
      | false =>
        rw [if_neg Bool.false_ne_true, hwS]
        rcases List.mem_append.mp hx with hx | hx
        · obtain ⟨b, hb, rfl⟩ := List.mem_map.mp hx
          obtain ⟨g, hg, hi⟩ := h.layout.buffer hd b.hdr
            (List.mem_append_left P (List.mem_map_of_mem hb))
          exact ⟨_, List.mem_map_of_mem hg, _, inside_block (h.hdr b hb), hi⟩
        · obtain ⟨g, hg, hi⟩ := h.layout.inside x hx
          exact ⟨_, List.mem_map_of_mem hg, x, ⟨Nat.le_refl _, Nat.le_refl _⟩, hi⟩
    obtain ⟨e, he, y, hxy, hye⟩ := hin
    exact ⟨e, he, Nat.le_trans hye.1 hxy.1, Nat.le_trans hxy.2 hye.2⟩
  · rw [hlists]
    have hnd := h.layout.nodup
    cases w.a.dynamic with
    | true => exact hnd
    | false => exact hnd.sublist ((List.sublist_append_right _ P).append_left S)
  · intro hd
    rw [hlists, if_pos hd]
    have hoff : (S ++ (w.live.map Block.hdr ++ P)).map (fun i => (block w.a.page i).off) =
        S ++ (w.live.map Block.hdr ++ P) := List.map_id _
    have hperm := ((h.layout.held hd).map Extent.off).symm
    rw [List.map_map] at hperm
    exact (List.Perm.of_eq hoff.symm).trans hperm
  · exact hwH
  · refine ⟨hH, fun b hb => ?_⟩
    rw [hpool]
    exact hHP b.hdr (List.mem_map_of_mem hb)
  · have hlive : (w.live.map fun b => (⟨b.ptr, (w.a.page b.hdr).cap⟩ : Extent)).map Extent.len =
        (w.live.map Block.hdr).map fun i => (w.a.page i).cap := by
      rw [List.map_map, List.map_map]
      rfl
    have huse := h.counted.inUse
    unfold caps at huse
    unfold World.extents
    rw [List.map_append, List.sum_append, hlive]
    exact huse
  · rw [hpool]
    exact h.counted.pooled

/-! ## The start -/

theorem settled_init (pageSize maxBytes : Nat) :
    Settled ⟨RantAllocator.init pageSize maxBytes, [], []⟩ [] [] := by
  have hnil : ∀ {p : Nat → Prop}, ∀ i ∈ ([] : List Nat), p i := fun i hi => absurd hi List.not_mem_nil
  have hblk : ∀ {p : Block → Prop}, ∀ i ∈ ([] : List Block), p i := fun i hi => absurd hi List.not_mem_nil
  have hext : ∀ {p : Extent → Prop}, ∀ i ∈ ([] : List Extent), p i :=
    fun i hi => absurd hi List.not_mem_nil
  refine ⟨?_, ⟨hnil, hext⟩, ⟨rfl, rfl, Nat.two_pow_pos 64⟩, hblk, hblk, hblk⟩
  constructor
  · exact ⟨rfl, trivial⟩
  · exact ⟨rfl, trivial⟩
  · exact ⟨rfl, trivial⟩
  · exact List.Pairwise.nil
  · exact hnil
  · exact hext
  · exact fun hd => absurd hd.symm Bool.false_ne_true
  · exact fun _ => List.Perm.nil
  · exact fun _ => Nat.zero_le _
  · exact Nat.zero_le _

theorem settled_static (b size : Nat) :
    ∃ S, Settled ⟨RantAllocator.static b size, [], []⟩ S [] := by
  have hnil : ∀ {p : Nat → Prop}, ∀ i ∈ ([] : List Nat), p i := fun i hi => absurd hi List.not_mem_nil
  have hblk : ∀ {p : Block → Prop}, ∀ i ∈ ([] : List Block), p i := fun i hi => absurd hi List.not_mem_nil
  have hext : ∀ {p : Extent → Prop}, ∀ i ∈ ([] : List Extent), p i :=
    fun i hi => absurd hi List.not_mem_nil
  unfold RantAllocator.static
  dsimp only
  generalize (b + 15) / 16 * 16 = aligned
  split
  next =>
    -- one page, all of it free
    refine ⟨[aligned], ?_, ⟨fun g hg => ?_, hext⟩, ⟨rfl, rfl, Nat.two_pow_pos 64⟩, hblk, hblk, hblk⟩
    · constructor
      · exact ⟨⟨rfl, congrArg Page.next (if_pos rfl)⟩, congrArg Page.prev (if_pos rfl), trivial⟩
      · exact ⟨rfl, trivial⟩
      · exact ⟨rfl, trivial⟩
      · refine List.pairwise_cons.mpr ⟨fun y hy => ?_, List.pairwise_singleton _ _⟩
        rw [List.mem_singleton.mp hy]
        exact Or.inl (Nat.le_add_right _ _)
      · intro g hg
        rw [List.mem_singleton.mp hg]
        show (upd (fun _ => {}) aligned _ aligned).used ≤ _
        rw [upd_self]
        exact Nat.zero_le _
      · exact hext
      · exact fun _ => hnil
      · exact fun hd => absurd hd Bool.false_ne_true
      · exact fun _ => Nat.le_refl 1
      · exact Nat.le_refl 1
    · rw [List.mem_singleton.mp hg]
      show 16 ∣ (upd (fun _ => {}) aligned _ aligned).used ∧
        (upd (fun _ => {}) aligned _ aligned).used < 2 ^ 64
      rw [upd_self]
      exact ⟨Nat.dvd_zero 16, Nat.two_pow_pos 64⟩
  next =>
    refine ⟨[], ?_, ⟨hnil, hext⟩, ⟨rfl, rfl, Nat.two_pow_pos 64⟩, hblk, hblk, hblk⟩
    constructor
    · exact ⟨rfl, trivial⟩
    · exact ⟨rfl, trivial⟩
    · exact ⟨rfl, trivial⟩
    · exact List.Pairwise.nil
    · exact hnil
    · exact hext
    · exact fun _ => hnil
    · exact fun hd => absurd hd Bool.false_ne_true
    · exact fun _ => Nat.zero_le _
    · exact Nat.zero_le _

/-- A fresh allocator has nothing out. -/
theorem Fresh.settled {a : RantAllocator} (ha : Fresh a) : ∃ S P, Settled ⟨a, [], []⟩ S P := by
  rcases ha with ⟨pageSize, maxBytes, rfl⟩ | ⟨b, size, rfl⟩
  · exact ⟨[], [], settled_init pageSize maxBytes⟩
  · obtain ⟨S, hs⟩ := settled_static b size
    exact ⟨S, [], hs⟩

/-- What every run leads to. -/
theorem settled_run {a : RantAllocator} (ha : Fresh a) {es : List MemEvent}
    (hrun : Along World.step (fun w e => e.Fits w) ⟨a, [], []⟩ es) :
    ∃ S P, Settled (run World.step ⟨a, [], []⟩ es) S P := by
  refine run_invariant_along (fun w => ∃ S P, Settled w S P) (fun w e h hfit => ?_) es _ ha.settled hrun
  obtain ⟨S, P, hs⟩ := h
  obtain ⟨S', P', hs', -⟩ := settled_step hs hfit
  exact ⟨S', P', hs'⟩

/-! ## Requests -/

theorem mem_freeOwned (a : RantAllocator) (pg : Nat) : (a.freeOwned pg).mem = a.mem := by
  unfold RantAllocator.freeOwned
  dsimp only
  cases a.dynamic <;> rfl

/-- A block keeps its bytes where it moves, and the others where they are. -/
theorem resized (h : Settled w S P) {b : Block} (hb : b ∈ w.live) {size : Nat} (hpos : 0 < size)
    (hfit : Fits w.a size) (back : Nat → Option Nat) :
    Resized w b size (w.a.alloc (some b.ptr) size back) := by
  cases hc : w.a.alloc (some b.ptr) size back with
  | mk c r =>
    rcases resize_cases h hb hpos hfit hc with
      ⟨rfl, rfl⟩ | ⟨rfl, rfl, -⟩ | ⟨a', pg, S', P', rfl, hlt, hgr, rfl⟩
    · exact ⟨fun _ => rfl, fun p hp => absurd hp.symm (Option.some_ne_none p), fun _ _ _ _ _ => rfl⟩
    · refine ⟨fun hn => absurd hn (Option.some_ne_none _), fun p hp i _ => ?_, fun _ _ _ _ _ => rfl⟩
      obtain rfl := Option.some.inj hp
      rfl
    · have hmem : ∀ j, ((a'.copy (pg + pageHdr) b.ptr (w.a.page b.hdr).cap).freeOwned b.hdr).mem j =
          if pg + pageHdr ≤ j ∧ j < pg + pageHdr + (w.a.page b.hdr).cap then
            w.a.mem (b.ptr + (j - (pg + pageHdr))) else w.a.mem j := by
        intro j
        rw [mem_freeOwned, ← hgr.frame.2.2]
        rfl
      refine ⟨fun hn => absurd hn (Option.some_ne_none _), fun p hp i hi => ?_, fun c hc hne i hi => ?_⟩
      · obtain rfl := Option.some.inj hp
        rw [hmem, if_pos (by omega)]
        congr 1
        omega
      · -- the copy is in the new block, apart from the others
        have hnew := (settled_grant h hfit.1 hgr).apart
        have hfirst := (List.pairwise_cons.mp hnew).1
        have hroom := hgr.room
        have hap : ∃ y : Extent, c.ptr = y.off ∧ c.asked ≤ y.len ∧
            Extent.Apart ⟨pg + pageHdr, (a'.page (Block.hdr ⟨pg + pageHdr, size⟩)).cap⟩ y := by
          rcases List.mem_append.mp hc with hc | hc
          · refine ⟨⟨c.ptr, (a'.page c.hdr).cap⟩, rfl, ?_, hfirst _ ?_⟩
            · show c.asked ≤ (a'.page c.hdr).cap
              rw [hgr.kept c.hdr (List.mem_append_left _ (List.mem_map_of_mem hc))]
              exact h.asked c hc
            · exact List.mem_append_left _ (List.mem_map_of_mem hc)
          · exact ⟨c.reserve, rfl, h.fixedAsked c hc, hfirst _
              (List.mem_append_right _ (List.mem_map_of_mem hc))⟩
        obtain ⟨y, hoff, hlen, hap⟩ := hap
        rw [hdr_of] at hap
        rw [hmem, if_neg]
        rintro ⟨hlo, hhi⟩
        rcases hap with hap | hap
        · have hap : pg + pageHdr + (a'.page pg).cap ≤ y.off := hap
          omega
        · have hap : y.off + y.len ≤ pg + pageHdr := hap
          omega

/-- A pooled block goes out for an ask that rounds to half of it or more. -/
theorem reused (h : Settled w S P) {ptr : Option Nat} (hptr : ∀ p, ptr = some p → ∃ b ∈ w.live, b.ptr = p)
    {size : Nat} (hpos : 0 < size) (hfit : Fits w.a size) {back : Nat → Option Nat} {p : Nat}
    (hp : (w.a.alloc ptr size back).2 = some p) (hpool : p - pageHdr ∈ w.a.poolList) :
    (w.a.page (p - pageHdr)).cap ≤ 2 * w.a.capOf size := by
  have hP : w.a.poolList = P := h.layout.walks.2.2
  rw [hP] at hpool
  have hgrant : ∀ {b r S' P' pg}, r = some (pg + pageHdr) → r = some p →
      Granted w.a b (w.live.map Block.hdr) (w.fixeds.map Block.reserve) P (w.a.capOf size) pg S' P' →
        (w.a.page (p - pageHdr)).cap ≤ 2 * w.a.capOf size := by
    intro b r S' P' pg hr hr' hgr
    have hpg : p = pg + pageHdr := Option.some.inj (hr'.symm.trans hr)
    rw [hpg, Nat.add_sub_cancel] at hpool ⊢
    rcases hgr.source with ⟨-, htwice, -⟩ | ⟨hnot, -⟩
    · exact htwice
    · exact absurd hpool hnot
  cases ptr with
  | none =>
    cases hc : w.a.alloc none size back with
    | mk b r =>
      rw [hc] at hp
      unfold RantAllocator.alloc at hc
      rw [if_neg (Nat.pos_iff_ne_zero.mp hpos)] at hc
      rcases granted_of h.layout h.grain h.counted hfit hc with ⟨rfl, -⟩ | ⟨pg, S', P', hr, hgr⟩
      · exact absurd hp.symm (Option.some_ne_none p)
      · exact hgrant hr hp hgr
  | some q =>
    obtain ⟨b, hb, rfl⟩ := hptr q rfl
    cases hc : w.a.alloc (some b.ptr) size back with
    | mk c r =>
      rw [hc] at hp
      rcases resize_cases h hb hpos hfit hc with ⟨rfl, -⟩ | ⟨hr, -, -⟩ | ⟨a', pg, S', P', hr, -, hgr, -⟩
      · exact absurd hp.symm (Option.some_ne_none p)
      · -- a block that stays is not in the pool
        obtain rfl : b.ptr = p := Option.some.inj (hr.symm.trans hp)
        exact absurd hpool (h.layout.lists_apart.2.1 b.hdr (List.mem_map_of_mem hb))
      · exact hgrant hr hp hgr

/-! ## The guarantees -/

/-- Every run keeps them. -/
theorem allocator_sound {a : RantAllocator} (ha : Fresh a) {es : List MemEvent}
    (hrun : Along World.step (fun w e => e.Fits w) ⟨a, [], []⟩ es) :
    Guaranteed (run World.step ⟨a, [], []⟩ es) := by
  obtain ⟨S, P, h⟩ := settled_run ha hrun
  refine ⟨h.sound, fun b hb size back hpos hfit => resized h hb hpos hfit back, ?_⟩
  exact fun ptr size back p hptr hpos hfit hp hpool => reused h hptr hpos hfit hp hpool

/-- Two blocks, one freed and one resized. -/
def someRun : List MemEvent :=
  [.alloc 40 fun _ => some 1000, .alloc 100 fun _ => some 5000, .free 1032,
    .fixed 64 fun _ => some 100000, .resize 5032 300 fun _ => some 9000]

/-- An ask of a dynamic allocator fits where its rounded size does. -/
theorem fits_dynamic {a : RantAllocator} (hd : a.dynamic = true) {size : Nat}
    (h : size + 15 < 2 ^ 64 ∧ pageHdr + a.capOf size < 2 ^ 64) : Fits a size :=
  ⟨h.1, h.2, fun hf => absurd (hd.symm.trans hf) Bool.false_ne_true.symm⟩

theorem someRun_fits :
    Along World.step (fun w e => e.Fits w) ⟨RantAllocator.init 0 0, [], []⟩ someRun := by
  refine ⟨fun _ => fits_dynamic rfl (by decide +kernel), fun _ => fits_dynamic ?_ (by decide +kernel),
    trivial, fun _ => ⟨by decide, fun pg hpg => ?_, fun _ => by decide, fun hf => ?_⟩,
    fun _ => fits_dynamic ?_ (by decide +kernel), trivial⟩
  · decide +kernel
  · have hnone : (run World.step ⟨RantAllocator.init 0 0, [], []⟩ (someRun.take 3)).a.shared = none := by
      decide +kernel
    exact absurd (hpg.symm.trans hnone) (Option.some_ne_none pg)
  · have hd : (run World.step ⟨RantAllocator.init 0 0, [], []⟩ (someRun.take 3)).a.dynamic = true := by
      decide +kernel
    exact absurd (hd.symm.trans hf) Bool.false_ne_true.symm
  · decide +kernel

theorem allocator_sound_some :
    (run World.step ⟨RantAllocator.init 0 0, [], []⟩ someRun).live = [⟨9032, 300⟩] ∧
      Guaranteed (run World.step ⟨RantAllocator.init 0 0, [], []⟩ someRun) :=
  ⟨by decide +kernel, allocator_sound (Or.inl ⟨0, 0, rfl⟩) someRun_fits⟩

/-- A freed block of 40 bytes goes out again for an ask of 17. -/
theorem pool_spent : ∃ es, Along World.step (fun w e => e.Fits w) ⟨RantAllocator.init 0 0, [], []⟩ es ∧
    ∃ size back p, ((run World.step ⟨RantAllocator.init 0 0, [], []⟩ es).a.alloc none size back).2 = some p ∧
      p - pageHdr ∈ (run World.step ⟨RantAllocator.init 0 0, [], []⟩ es).a.poolList ∧
      2 * size < ((run World.step ⟨RantAllocator.init 0 0, [], []⟩ es).a.page (p - pageHdr)).cap := by
  refine ⟨[.alloc 40 fun _ => some 1000, .free 1032], ⟨fun _ => fits_dynamic rfl (by decide +kernel),
    trivial, trivial⟩, 17, fun _ => none, 1032, ?_, ?_, ?_⟩
  · decide +kernel
  · decide +kernel
  · decide +kernel

end Rant.Memory
