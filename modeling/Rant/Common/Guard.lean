import Rant.Common.Sound
/-!
# The runaway guard

With `max_bytes` set the allocator holds no more than that, and what it hands out is as large as
what was asked for, in every run whose requests round up without a wrap and whose bumps inside a
page stay below the guard by themselves: that path does not ask it.
-/

namespace Rant.Memory

open Rant.Lib

/-- What callers get, and what is held. -/
structure Guarded (w : World) : Prop where
  granted : ∀ b ∈ w.live ++ w.fixeds, ∃ e ∈ w.a.held, Extent.Inside ⟨b.ptr, b.asked⟩ e
  room : ∀ b ∈ w.live, b.asked ≤ (w.a.page b.hdr).cap
  guard : w.a.inUse + w.a.pooled ≤ w.a.maxBytes

namespace RantAllocator

variable (a : RantAllocator)

/-- The size rounds up, and its header fits in front. -/
def Rounds (size : Nat) : Prop := size + 15 < 2 ^ 64 ∧ pageHdr + a.capOf size < 2 ^ 64

/-- There is nothing to serve a freeable block of `cap` bytes with. -/
def Refused (cap : Nat) (back : Nat → Option Nat) : Prop :=
  a.pick cap = none ∧ (a.over cap = true ∨ a.backing (wrap (pageHdr + cap)) (back 0) = none)

/-- The same of a bump of `need` bytes. -/
def RefusedFixed (need : Nat) (back : Nat → Option Nat) : Prop :=
  a.current need = none ∧ (a.over need = true ∨
    a.takePage (wrap (need + pageHdr)) back 65 0
      (if wrap (need + pageHdr) > a.pageSize then wrap (need + pageHdr) else a.pageSize) = none)

/-- A bump rounds up, and inside the current page it stays below the guard. -/
def RoundsFixed (size : Nat) : Prop :=
  size + 15 < 2 ^ 64 ∧ align size + pageHdr < 2 ^ 64 ∧
    (∀ pg, a.shared = some pg → (a.page pg).used + align size < 2 ^ 64) ∧
    (a.current (align size) ≠ none → a.inUse + a.pooled + align size ≤ a.maxBytes)

end RantAllocator

/-- The request rounds up, or there is nothing to serve it with. -/
def MemEvent.Safe (w : World) : MemEvent → Prop
  | .alloc size back => size = 0 ∨ w.a.Rounds size ∨ w.a.Refused (w.a.capOf size) back
  | .resize ptr size back => size = 0 ∨ w.a.Rounds size ∨
      ((w.a.page (ptr - pageHdr)).cap < w.a.capOf size ∧ w.a.Refused (w.a.capOf size) back)
  | .fixed size back => size = 0 ∨ w.a.RoundsFixed size ∨ w.a.RefusedFixed (align size) back
  | _ => True

variable {a : RantAllocator} {w : World} {H S P : List Nat} {F : List Extent}

theorem refused_spec {cap : Nat} {back : Nat → Option Nat} (hd : a.dynamic = true)
    (h : a.Refused cap back) : a.newOwned cap back = (a, none) := by
  obtain ⟨hpick, hrest⟩ := h
  unfold RantAllocator.newOwned
  rw [hpick]
  dsimp only
  rw [if_pos hd]
  rcases hrest with hover | hback
  · rw [if_pos hover]
  · rw [hback]
    split <;> rfl

theorem refusedFixed_spec {size : Nat} {back : Nat → Option Nat}
    (h : a.RefusedFixed (align size) back) : a.bump size back = (a, none) := by
  obtain ⟨hcur, hrest⟩ := h
  unfold RantAllocator.bump
  dsimp only
  rw [hcur]
  dsimp only
  rcases hrest with hover | htake
  · rw [hover, Bool.or_true, if_pos rfl]
  · rw [htake]
    split <;> rfl

/-- Past the current page the guard is asked. -/
theorem bump_over {size p : Nat} {back : Nat → Option Nat} {b : RantAllocator}
    (hb : a.bump size back = (b, some p)) (hcur : a.current (align size) = none) :
    a.over (align size) = false := by
  unfold RantAllocator.bump at hb
  dsimp only at hb
  rw [hcur] at hb
  dsimp only at hb
  split at hb
  next => exact absurd (congrArg Prod.snd hb).symm (Option.some_ne_none p)
  next hno =>
    rw [Bool.or_eq_true, not_or, Bool.not_eq_true] at hno
    exact Bool.not_eq_true _ ▸ hno.2

/-- What the guard lets through. -/
theorem over_spec {need : Nat} (h : a.over need = false) (hmax : a.maxBytes ≠ 0)
    (hsum : a.inUse + a.pooled + need < 2 ^ 64) : a.inUse + a.pooled + need ≤ a.maxBytes := by
  have hw : wrap (a.inUse + a.pooled + need) = a.inUse + a.pooled + need := Nat.mod_eq_of_lt hsum
  unfold RantAllocator.over at h
  rw [hw, Bool.and_eq_false_iff] at h
  rcases h with h | h
  · exact absurd hmax (of_decide_eq_false h)
  · exact Nat.le_of_not_lt (of_decide_eq_false h)

/-- A block that was granted stays below it. -/
theorem Granted.guard {b : RantAllocator} {cap pg : Nat} {S' P' : List Nat}
    (h : Granted a b H F P cap pg S' P') (hd : a.dynamic = true) (hmax : a.maxBytes ≠ 0)
    (hle : a.inUse + a.pooled ≤ a.maxBytes) : b.inUse + b.pooled ≤ b.maxBytes := by
  rw [h.frame.2.1]
  rcases h.source with ⟨-, -, hsame, -⟩ | ⟨-, hgrow, hover⟩
  · rw [hsame]
    exact hle
  · have hsum := h.counted.sums
    rw [hgrow] at hsum ⊢
    exact over_spec (hover hd) hmax hsum

/-! ## Runs -/

/-- What every step keeps of an allocator with a guard. -/
structure Below (max : Nat) (w : World) : Prop where
  settled : ∃ S P, Settled w S P
  dynamic : w.a.dynamic = true
  maxBytes : w.a.maxBytes = max
  guard : w.a.inUse + w.a.pooled ≤ w.a.maxBytes

theorem Below.grant {max : Nat} {b : RantAllocator} {size pg : Nat} {S' P' : List Nat}
    (h : Below max w) (hs : Settled w S P) (hmax : max ≠ 0) (hfit : Fits w.a size)
    (hgr : Granted w.a b (w.live.map Block.hdr) (w.fixeds.map Block.reserve) P (w.a.capOf size) pg S' P') :
    Below max { w with a := b, live := ⟨pg + pageHdr, size⟩ :: w.live } :=
  ⟨⟨S', P', settled_grant hs hfit.1 hgr⟩, hgr.frame.1.trans h.dynamic,
    hgr.frame.2.1.trans h.maxBytes,
    hgr.guard h.dynamic (fun h0 => hmax (h.maxBytes.symm.trans h0)) h.guard⟩

theorem Below.free {max : Nat} (h : Below max w) {b : Block} (hb : b ∈ w.live) :
    Below max { w with a := w.a.freeOwned b.hdr, live := w.live.erase b } := by
  obtain ⟨S, P, hs⟩ := h.settled
  have hsum := (freeOwned_spec hs.layout hs.grain hs.counted (List.mem_map_of_mem hb)).2.2.2.2
  have hframe : (w.a.freeOwned b.hdr).dynamic = w.a.dynamic ∧
      (w.a.freeOwned b.hdr).maxBytes = w.a.maxBytes := by
    unfold RantAllocator.freeOwned
    dsimp only
    cases w.a.dynamic <;> exact ⟨rfl, rfl⟩
  refine ⟨⟨S, _, settled_free hs hb⟩, hframe.1.trans h.dynamic, hframe.2.trans h.maxBytes, ?_⟩
  show (w.a.freeOwned b.hdr).inUse + (w.a.freeOwned b.hdr).pooled ≤ (w.a.freeOwned b.hdr).maxBytes
  rw [hsum, hframe.2]
  exact h.guard

theorem Below.mem {max : Nat} (h : Below max w) (m : Nat → UInt8) :
    Below max { w with a := { w.a with mem := m } } := by
  obtain ⟨S, P, hs⟩ := h.settled
  exact ⟨⟨S, P, settled_mem hs m⟩, h.dynamic, h.maxBytes, h.guard⟩

/-- What one step keeps. -/
theorem below_step {max : Nat} (hmax : max ≠ 0) (h : Below max w) {e : MemEvent} (hsafe : e.Safe w) :
    Below max (w.step e) := by
  obtain ⟨S, P, hs⟩ := h.settled
  cases e with
  | alloc size back =>
    dsimp only [World.step]
    unfold RantAllocator.alloc
    by_cases hpos : size = 0
    · rw [if_pos hpos]
      exact h
    rw [if_neg hpos]
    dsimp only
    rcases hsafe with h0 | hr | href
    · exact absurd h0 hpos
    -- a block is granted, and the backing keeps to the guard
    · have hfit := fits_dynamic h.dynamic hr
      cases hc : w.a.newOwned (w.a.capOf size) back with
      | mk b r =>
        rcases granted_of hs.layout hs.grain hs.counted hfit hc with ⟨rfl, rfl⟩ | ⟨pg, S', P', rfl, hgr⟩
        · exact h
        · exact h.grant hs hmax hfit hgr
    -- a refused request leaves the allocator as it was
    · rw [refused_spec h.dynamic href]
      exact h
  | resize ptr size back =>
    dsimp only [World.step]
    cases hfind : w.find ptr with
    | none => exact h
    | some b =>
      obtain ⟨hb, rfl⟩ := find_spec hfind
      dsimp only
      by_cases hpos : size = 0
      · rw [if_pos hpos]
        exact h
      rw [if_neg hpos]
      rcases hsafe with h0 | hr | ⟨hlt, href⟩
      · exact absurd h0 hpos
      · have hfit := fits_dynamic h.dynamic hr
        cases hc : w.a.alloc (some b.ptr) size back with
        | mk c r =>
          rcases resize_cases hs hb (Nat.pos_of_ne_zero hpos) hfit hc with
            ⟨rfl, rfl⟩ | ⟨rfl, rfl, hle⟩ | ⟨a', pg, S', P', rfl, -, hgr, rfl⟩
          · exact h
          · dsimp only
            rw [if_pos rfl]
            exact ⟨⟨S, P, settled_inPlace hs hb (Nat.le_trans (le_capOf hfit.1) hle)⟩,
              h.dynamic, h.maxBytes, h.guard⟩
          · dsimp only
            have hne : pg + pageHdr ≠ b.ptr := by
              intro heq
              have hbh : b.hdr = pg := by
                unfold Block.hdr
                omega
              exact hgr.fresh (hbh ▸ List.mem_map_of_mem hb)
            rw [if_neg hne]
            -- moved: a grant, a copy, then the old block given back
            exact ((h.grant hs hmax hfit hgr).mem _).free (List.mem_cons_of_mem _ hb)
      · have hstay : w.a.alloc (some b.ptr) size back = (w.a, none) := by
          unfold RantAllocator.alloc
          rw [if_neg hpos]
          dsimp only
          rw [if_neg (Nat.not_le_of_lt hlt), refused_spec h.dynamic href]
        rw [hstay]
        exact h
  | free ptr =>
    dsimp only [World.step]
    cases hfind : w.find ptr with
    | none => exact h
    | some b =>
      obtain ⟨hb, rfl⟩ := find_spec hfind
      exact h.free hb
  | fixed size back =>
    dsimp only [World.step]
    unfold RantAllocator.fixed
    by_cases hpos : size = 0
    · rw [if_pos hpos]
      exact h
    rw [if_neg hpos]
    rcases hsafe with h0 | ⟨hsz, hnew, hcur, hguard⟩ | href
    · exact absurd h0 hpos
    · cases hc : w.a.bump size back with
      | mk b r =>
        have hfit : FitsFixed w.a size :=
          ⟨hsz, hcur, fun _ => hnew, fun hd => absurd (h.dynamic.symm.trans hd) Bool.false_ne_true.symm⟩
        rcases settled_fixed hs hfit hc with ⟨rfl, rfl⟩ | ⟨p, S', rfl, hs', hin, hpool, hdyn, hm⟩
        · exact h
        · refine ⟨⟨S', P, hs'⟩, hdyn.trans h.dynamic, hm.trans h.maxBytes, ?_⟩
          show (b.count (align size)).inUse + (b.count (align size)).pooled ≤ b.maxBytes
          have hsum : (b.count (align size)).inUse + (b.count (align size)).pooled < 2 ^ 64 :=
            hs'.counted.sums
          rw [hm]
          -- a new page is tested by the code, room in the current one is not: `Safe` says it is there
          by_cases hcurrent : w.a.current (align size) = none
          · have hle := over_spec (bump_over hc hcurrent)
              (fun h0 => hmax (h.maxBytes.symm.trans h0)) (by omega)
            omega
          · have hle := hguard hcurrent
            omega
    · rw [refusedFixed_spec href]
      exact h
  | store ptr i b =>
    dsimp only [World.step]
    split
    next => exact h.mem _
    next => exact h
  | reset =>
    obtain ⟨S', hs'⟩ := settled_reset hs
    have hframe : w.a.reset.dynamic = true ∧ w.a.reset.maxBytes = w.a.maxBytes := by
      unfold RantAllocator.reset
      rw [if_pos h.dynamic]
      exact ⟨h.dynamic, rfl⟩
    exact ⟨⟨S', [], hs'⟩, hframe.1, hframe.2.trans h.maxBytes, Nat.zero_le _⟩

theorem Below.guarded {max : Nat} (h : Below max w) : Guarded w := by
  obtain ⟨S, P, hs⟩ := h.settled
  have hsound := hs.sound
  have hbacks : w.a.backs = w.a.held := if_pos h.dynamic
  refine ⟨fun b hb => ?_, hs.asked, h.guard⟩
  rcases List.mem_append.mp hb with hb | hb
  · obtain ⟨e, he, hlo, hhi⟩ := hsound.memory _ (List.mem_append_left _ (List.mem_map_of_mem hb))
    refine ⟨e, hbacks ▸ he, hlo, Nat.le_trans ?_ hhi⟩
    exact Nat.add_le_add_left (hs.asked b hb) b.ptr
  · obtain ⟨e, he, hlo, hhi⟩ := hsound.memory _ (List.mem_append_right _ (List.mem_map_of_mem hb))
    refine ⟨e, hbacks ▸ he, hlo, Nat.le_trans ?_ hhi⟩
    exact Nat.add_le_add_left (hs.fixedAsked b hb) b.ptr

/-- In a run of safe steps what is held stays below the guard, and every block is as large as what
was asked for. -/
theorem guard_holds (pageSize max : Nat) (es : List MemEvent) (hmax : max ≠ 0)
    (hrun : Along World.step (fun w e => e.Safe w) ⟨RantAllocator.init pageSize max, [], []⟩ es) :
    Guarded (run World.step ⟨RantAllocator.init pageSize max, [], []⟩ es) := by
  have hstart : Below max ⟨RantAllocator.init pageSize max, [], []⟩ :=
    ⟨⟨[], [], settled_init pageSize max⟩, rfl, rfl, Nat.zero_le _⟩
  exact (run_invariant_along (Below max) (fun w e h hsafe => below_step hmax h hsafe) es _ hstart
    hrun).guarded

/-- A bump that takes a page, and a block the guard refuses. -/
def someAsks : List MemEvent :=
  [.fixed 16 fun _ => some 100000, .alloc 4000 fun _ => some 1000, .alloc 100 fun _ => some 5000]

theorem guard_holds_some :
    (run World.step ⟨RantAllocator.init 0 1000, [], []⟩ someAsks).live = [⟨5032, 100⟩] ∧
      Guarded (run World.step ⟨RantAllocator.init 0 1000, [], []⟩ someAsks) := by
  refine ⟨by decide +kernel, guard_holds 0 1000 someAsks (by decide) ?_⟩
  refine ⟨Or.inr (Or.inl ⟨by decide, by decide, fun pg hpg => ?_, fun hc => absurd rfl hc⟩),
    Or.inr (Or.inl (by unfold RantAllocator.Rounds; decide +kernel)),
    Or.inr (Or.inl (by unfold RantAllocator.Rounds; decide +kernel)), trivial⟩
  exact absurd hpg.symm (Option.some_ne_none pg)

/-- A bump inside the page goes past the guard, and a size at the top of `size_t` is granted as no
bytes at all. -/
theorem guard_broken :
    ¬ Guarded (run World.step ⟨RantAllocator.init 0 1000, [], []⟩
        [.fixed 16 fun _ => some 100000, .fixed 2000 fun _ => none]) ∧
      ¬ Guarded (run World.step ⟨RantAllocator.init 0 1000, [], []⟩
        [.alloc (2 ^ 64 - 1) fun _ => some 1000]) := by
  constructor
  · intro h
    have hover : ¬ (run World.step ⟨RantAllocator.init 0 1000, [], []⟩
        [.fixed 16 fun _ => some 100000, .fixed 2000 fun _ => none]).a.inUse +
          (run World.step ⟨RantAllocator.init 0 1000, [], []⟩
            [.fixed 16 fun _ => some 100000, .fixed 2000 fun _ => none]).a.pooled ≤
          (run World.step ⟨RantAllocator.init 0 1000, [], []⟩
            [.fixed 16 fun _ => some 100000, .fixed 2000 fun _ => none]).a.maxBytes := by
      decide +kernel
    exact hover h.guard
  · intro h
    have hshort : ¬ ∀ b ∈ (run World.step ⟨RantAllocator.init 0 1000, [], []⟩
        [.alloc (2 ^ 64 - 1) fun _ => some 1000]).live, b.asked ≤
          ((run World.step ⟨RantAllocator.init 0 1000, [], []⟩
            [.alloc (2 ^ 64 - 1) fun _ => some 1000]).a.page b.hdr).cap := by
      decide +kernel
    exact hshort h.room

end Rant.Memory
