import Rant.Common.Grants
import Rant.Lib.Run
/-!
# Runs of the allocator

Whatever the callers ask for and whatever the backing answers, the blocks that are out keep apart
and the counters count them, while no rounded sum wraps. `Settled` is what each step keeps.

`settled_step` goes through the events of a caller: a block taken, resized, given back or written,
a fixed piece, a reset. Beside the layout it keeps `Grain` and `Counted`: sizes are rounded alike
everywhere, and the two counters are sums over the lists.
-/

namespace Rant.Memory

open Rant.Lib

variable {a : RantAllocator} {H S P : List Nat} {F : List Extent}

/-- A freed block moves from one sum to the other. -/
theorem freeOwned_spec (h : Layout a H F S P) (hg : Grain a S) (hc : Counted a H F P) {pg : Nat}
    (hpg : pg ∈ H) :
    Layout (a.freeOwned pg) (H.erase pg) F S (pg :: P) ∧ Grain (a.freeOwned pg) S ∧
      Counted (a.freeOwned pg) (H.erase pg) F (pg :: P) ∧
      (∀ i, ((a.freeOwned pg).page i).cap = (a.page i).cap) ∧
      (a.freeOwned pg).inUse + (a.freeOwned pg).pooled = a.inUse + a.pooled := by
  obtain ⟨hl, hcap, hused⟩ := freeOwned_layout h hpg
  have hheld : (a.freeOwned pg).held = a.held ∧
      (a.freeOwned pg).inUse = wsub a.inUse (a.page pg).cap ∧
      (a.freeOwned pg).pooled = wrap (a.pooled + (a.page pg).cap) := by
    unfold RantAllocator.freeOwned
    dsimp only
    cases a.dynamic <;> exact ⟨rfl, rfl, rfl⟩
  obtain ⟨hheld, hin, hpool⟩ := hheld
  have hH : caps a.page H = (a.page pg).cap + caps a.page (H.erase pg) :=
    caps_perm (List.perm_cons_erase hpg)
  have hkeep : ∀ l, caps (a.freeOwned pg).page l = caps a.page l := fun l => caps_congr fun i _ => hcap i
  have hP : caps a.page (pg :: P) = (a.page pg).cap + caps a.page P := rfl
  have hsum := hc.sums
  have huse := hc.inUse
  have hpooled := hc.pooled
  have hs : wsub a.inUse (a.page pg).cap = a.inUse - (a.page pg).cap := by
    have hle : (a.page pg).cap ≤ a.inUse := by omega
    unfold wsub
    rw [show a.inUse + 2 ^ 64 - (a.page pg).cap = a.inUse - (a.page pg).cap + 2 ^ 64 by omega,
      Nat.add_mod_right, Nat.mod_eq_of_lt (by omega)]
  have hw : wrap (a.pooled + (a.page pg).cap) = a.pooled + (a.page pg).cap :=
    Nat.mod_eq_of_lt (by omega)
  rw [hs] at hin
  rw [hw] at hpool
  refine ⟨hl, hg.congr (fun g _ => hused g) hheld, ⟨?_, ?_, ?_⟩, hcap, by omega⟩
  · rw [hkeep]
    omega
  · rw [hkeep]
    omega
  · omega

/-! ## The invariant -/

/-- What a bumped block takes. -/
def Block.reserve (b : Block) : Extent := ⟨b.ptr, align b.asked⟩

/-- The blocks that are out, where they lie and what is counted. -/
structure Settled (w : World) (S P : List Nat) : Prop where
  layout : Layout w.a (w.live.map Block.hdr) (w.fixeds.map Block.reserve) S P
  grain : Grain w.a S
  counted : Counted w.a (w.live.map Block.hdr) (w.fixeds.map Block.reserve) P
  hdr : ∀ b ∈ w.live, pageHdr ≤ b.ptr
  asked : ∀ b ∈ w.live, b.asked ≤ (w.a.page b.hdr).cap
  fixedAsked : ∀ b ∈ w.fixeds, b.asked ≤ align b.asked

/-- A freeable block can be asked for: no sum on the way wraps. -/
def Fits (a : RantAllocator) (size : Nat) : Prop :=
  size + 15 < 2 ^ 64 ∧ pageHdr + a.capOf size < 2 ^ 64 ∧
    (a.dynamic = false → a.inUse + a.pooled + a.capOf size < 2 ^ 64 ∧
      ∀ pg, a.shared = some pg → (a.page pg).used + (pageHdr + a.capOf size) < 2 ^ 64)

/-- The same of a bump. -/
def FitsFixed (a : RantAllocator) (size : Nat) : Prop :=
  size + 15 < 2 ^ 64 ∧ (∀ pg, a.shared = some pg → (a.page pg).used + align size < 2 ^ 64) ∧
    (a.dynamic = true → align size + pageHdr < 2 ^ 64) ∧
    (a.dynamic = false → a.inUse + a.pooled + align size < 2 ^ 64)

variable {size : Nat}

/-- A block of its own, where nothing wraps. -/
theorem granted_of (h : Layout a H F S P) (hg : Grain a S) (hc : Counted a H F P)
    (hfit : Fits a size) {back : Nat → Option Nat} {b : RantAllocator} {r : Option Nat}
    (hb : a.newOwned (a.capOf size) back = (b, r)) :
    (r = none ∧ b = a) ∨
      ∃ pg S' P', r = some (pg + pageHdr) ∧ Granted a b H F P (a.capOf size) pg S' P' := by
  obtain ⟨-, hcap, hstat⟩ := hfit
  refine newOwned_spec h hg hc hcap (fun hd => ?_) hb
  obtain ⟨hsum, hcur⟩ := hstat hd
  refine ⟨?_, hsum, hcur⟩
  unfold RantAllocator.capOf
  rw [if_neg (by rw [hd]; exact Bool.false_ne_true)]
  exact align_dvd size

/-- A header is found back from its block. -/
theorem hdr_of (pg asked : Nat) : Block.hdr ⟨pg + pageHdr, asked⟩ = pg := Nat.add_sub_cancel pg pageHdr

variable {w : World}

/-- The new block, beside those there were. -/
theorem settled_grant (h : Settled w S P) {b : RantAllocator} {pg : Nat}
    {S' P' : List Nat} (hsz : size + 15 < 2 ^ 64)
    (hgr : Granted w.a b (w.live.map Block.hdr) (w.fixeds.map Block.reserve) P (w.a.capOf size) pg S' P') :
    Settled { w with a := b, live := ⟨pg + pageHdr, size⟩ :: w.live } S' P' := by
  have hhdr : ((⟨pg + pageHdr, size⟩ :: w.live).map Block.hdr) = pg :: w.live.map Block.hdr := by
    rw [List.map_cons, hdr_of]
  constructor
  · show Layout b ((⟨pg + pageHdr, size⟩ :: w.live).map Block.hdr) _ _ _
    rw [hhdr]
    exact hgr.layout
  · exact hgr.grain
  · show Counted b ((⟨pg + pageHdr, size⟩ :: w.live).map Block.hdr) _ _
    rw [hhdr]
    exact hgr.counted
  · intro c hc
    rcases List.mem_cons.mp hc with rfl | hc
    · exact Nat.le_add_left _ _
    · exact h.hdr c hc
  · intro c hc
    rcases List.mem_cons.mp hc with rfl | hc
    · show size ≤ (b.page (Block.hdr ⟨pg + pageHdr, size⟩)).cap
      rw [hdr_of]
      exact Nat.le_trans (le_capOf hsz) hgr.room
    · show c.asked ≤ (b.page c.hdr).cap
      rw [hgr.kept c.hdr (List.mem_append_left _ (List.mem_map_of_mem hc))]
      exact h.asked c hc
  · exact h.fixedAsked

variable {b : Block}

/-- Headers name their blocks. -/
theorem erase_hdr {l : List Block} (hn : (l.map Block.hdr).Nodup) (hb : b ∈ l) :
    (l.erase b).map Block.hdr = (l.map Block.hdr).erase b.hdr := by
  obtain ⟨f, r, rfl⟩ := List.append_of_mem hb
  rw [List.map_append, List.map_cons] at hn ⊢
  have hf : b.hdr ∉ f.map Block.hdr := fun hmem =>
    (List.nodup_append.mp hn).2.2 _ hmem _ List.mem_cons_self rfl
  have hbf : b ∉ f := fun hmem => hf (List.mem_map_of_mem hmem)
  rw [List.erase_append_right _ hf, List.erase_cons_head, List.erase_append_right _ hbf,
    List.erase_cons_head, List.map_append]

/-- A block that is out is freed. -/
theorem settled_free (h : Settled w S P) (hb : b ∈ w.live) :
    Settled { w with a := w.a.freeOwned b.hdr, live := w.live.erase b } S (b.hdr :: P) := by
  have hmem : b.hdr ∈ w.live.map Block.hdr := List.mem_map_of_mem hb
  obtain ⟨hl, hg, hc, hcap, -⟩ := freeOwned_spec h.layout h.grain h.counted hmem
  have herase := erase_hdr h.layout.lists_apart.2.2.1 hb
  constructor
  · show Layout (w.a.freeOwned b.hdr) ((w.live.erase b).map Block.hdr) _ _ _
    rw [herase]
    exact hl
  · exact hg
  · show Counted (w.a.freeOwned b.hdr) ((w.live.erase b).map Block.hdr) _ _
    rw [herase]
    exact hc
  · exact fun c hc => h.hdr c (List.mem_of_mem_erase hc)
  · intro c hc
    show c.asked ≤ ((w.a.freeOwned b.hdr).page c.hdr).cap
    rw [hcap]
    exact h.asked c (List.mem_of_mem_erase hc)
  · exact h.fixedAsked

/-- The headers stay where a block only changes its size. -/
theorem inPlace_hdr (l : List Block) (b : Block) (size : Nat) :
    (l.map fun c => if c = b then ⟨b.ptr, size⟩ else c).map Block.hdr = l.map Block.hdr := by
  rw [List.map_map]
  refine List.map_congr_left fun c _ => ?_
  show Block.hdr (if c = b then ⟨b.ptr, size⟩ else c) = c.hdr
  by_cases hc : c = b
  · rw [if_pos hc, hc]
    rfl
  · rw [if_neg hc]

/-- A block keeps its place for another size. -/
theorem settled_inPlace (h : Settled w S P) (hb : b ∈ w.live)
    (hfit : size ≤ (w.a.page b.hdr).cap) :
    Settled { w with live := w.live.map fun c => if c = b then ⟨b.ptr, size⟩ else c } S P := by
  have hhdr := inPlace_hdr w.live b size
  constructor
  · show Layout w.a ((w.live.map fun c => if c = b then ⟨b.ptr, size⟩ else c).map Block.hdr) _ _ _
    rw [hhdr]
    exact h.layout
  · exact h.grain
  · show Counted w.a ((w.live.map fun c => if c = b then ⟨b.ptr, size⟩ else c).map Block.hdr) _ _
    rw [hhdr]
    exact h.counted
  · intro c hc
    obtain ⟨d, hd, rfl⟩ := List.mem_map.mp hc
    by_cases hdb : d = b
    · rw [if_pos hdb]
      exact h.hdr b hb
    · rw [if_neg hdb]
      exact h.hdr d hd
  · intro c hc
    obtain ⟨d, hd, rfl⟩ := List.mem_map.mp hc
    by_cases hdb : d = b
    · rw [if_pos hdb]
      exact hfit
    · rw [if_neg hdb]
      exact h.asked d hd
  · exact h.fixedAsked

/-- The bytes may change. -/
theorem settled_mem (h : Settled w S P) (m : Nat → UInt8) :
    Settled { w with a := { w.a with mem := m } } S P := by
  refine ⟨?_, h.grain.congr (fun _ _ => rfl) rfl, ?_, h.hdr, h.asked, h.fixedAsked⟩
  · exact h.layout.of_eq rfl ⟨rfl, rfl, rfl⟩ rfl rfl rfl
  · exact ⟨h.counted.inUse, h.counted.pooled, h.counted.sums⟩

/-- A bumped block, counted. -/
theorem settled_fixed (h : Settled w S P) (hfit : FitsFixed w.a size)
    {back : Nat → Option Nat} {b : RantAllocator} {r : Option Nat} (hb : w.a.bump size back = (b, r)) :
    (r = none ∧ b = w.a) ∨ ∃ p S', r = some p ∧
      Settled { w with a := b.count (align size), fixeds := ⟨p, size⟩ :: w.fixeds } S' P ∧
      (b.count (align size)).inUse = w.a.inUse + align size ∧
      (b.count (align size)).pooled = w.a.pooled ∧ b.dynamic = w.a.dynamic ∧
      b.maxBytes = w.a.maxBytes := by
  obtain ⟨hsz, hcur, hnew, hstat⟩ := hfit
  rcases bump_spec h.layout h.grain hcur hnew hb with hnone | ⟨p, S', rfl, hl, hg, hf, hkept⟩
  · exact Or.inl hnone
  · have hH : caps b.page (w.live.map Block.hdr) = caps w.a.page (w.live.map Block.hdr) :=
      caps_congr fun i hi => hkept i (List.mem_append_left P hi)
    have hP : caps b.page P = caps w.a.page P :=
      caps_congr fun i hi => hkept i (List.mem_append_right _ hi)
    have huse := h.counted.inUse
    have hpool := h.counted.pooled
    have hfixeds : (((⟨p, align size⟩ : Extent) :: w.fixeds.map Block.reserve).map Extent.len).sum =
        align size + ((w.fixeds.map Block.reserve).map Extent.len).sum := by
      rw [List.map_cons, List.sum_cons]
    have hsum : w.a.inUse + w.a.pooled + align size < 2 ^ 64 := by
      cases hd : w.a.dynamic with
      | false =>
        have hs := hstat hd
        omega
      | true =>
        have htotal := hl.total (hf.dynamic.trans hd) hg.memory
        rw [hfixeds] at htotal
        omega
    have hin : (b.count (align size)).inUse = w.a.inUse + align size := by
      show wrap (b.inUse + align size) = _
      rw [hf.inUse]
      exact Nat.mod_eq_of_lt (by omega)
    have hpooled : (b.count (align size)).pooled = w.a.pooled := hf.pooled
    refine Or.inr ⟨p, S', rfl, ?_, hin, hpooled, hf.dynamic, hf.maxBytes⟩
    constructor
    · exact hl.of_eq rfl ⟨rfl, rfl, rfl⟩ rfl rfl rfl
    · exact hg.congr (fun _ _ => rfl) rfl
    · refine ⟨?_, ?_, ?_⟩
      · show (b.count (align size)).inUse = caps b.page (w.live.map Block.hdr) +
          (((⟨p, align size⟩ : Extent) :: w.fixeds.map Block.reserve).map Extent.len).sum
        rw [hfixeds]
        omega
      · show (b.count (align size)).pooled = caps b.page P
        omega
      · show (b.count (align size)).inUse + (b.count (align size)).pooled < 2 ^ 64
        omega
    · exact h.hdr
    · intro c hc
      show c.asked ≤ (b.page c.hdr).cap
      rw [hkept c.hdr (List.mem_append_left _ (List.mem_map_of_mem hc))]
      exact h.asked c hc
    · intro c hc
      rcases List.mem_cons.mp hc with rfl | hc
      · exact le_align hsz
      · exact h.fixedAsked c hc

/-- A reset leaves nothing out. -/
theorem settled_reset (h : Settled w S P) :
    ∃ S', Settled { w with a := w.a.reset, live := [], fixeds := [] } S' [] := by
  have hzero : w.a.reset.inUse = 0 ∧ w.a.reset.pooled = 0 := ⟨rfl, rfl⟩
  have hcount : Counted w.a.reset [] [] [] := ⟨hzero.1, hzero.2, by
    rw [hzero.1, hzero.2]
    decide⟩
  have hnil : ∀ {p : Block → Prop}, ∀ b ∈ ([] : List Block), p b :=
    fun b hb => absurd hb List.not_mem_nil
  cases hd : w.a.dynamic with
  | true =>
    obtain ⟨hl, hheld⟩ := reset_dynamic h.layout hd
    refine ⟨[], hl, ⟨fun g hg => absurd hg List.not_mem_nil, ?_⟩, hcount, hnil, hnil, hnil⟩
    show ∀ e ∈ w.a.reset.held, _
    rw [hheld]
    exact fun e he => absurd he List.not_mem_nil
  | false =>
    by_cases hS : S = []
    · -- without a buffer nothing ever came out
      subst hS
      have hs : w.a.shared = none := h.layout.shared.forward.head_eq
      have hsame : w.a.reset = { w.a with inUse := 0, pooled := 0 } := by
        unfold RantAllocator.reset
        rw [if_neg (by rw [hd]; exact Bool.false_ne_true), hs]
      have hl := h.layout
      have hblocks : w.live.map Block.hdr ++ P = [] := by
        refine List.eq_nil_iff_forall_not_mem.mpr fun i hi => ?_
        obtain ⟨g, hg, -⟩ := hl.buffer hd i hi
        exact List.not_mem_nil hg
      have hpieces : w.fixeds.map Block.reserve = [] := by
        refine List.eq_nil_iff_forall_not_mem.mpr fun e he => ?_
        obtain ⟨g, hg, -⟩ := hl.inside e he
        exact List.not_mem_nil hg
      obtain ⟨hH, hP⟩ := List.append_eq_nil_iff.mp hblocks
      rw [hH, hpieces, hP] at hl
      refine ⟨[], ?_, ⟨fun g hg => absurd hg List.not_mem_nil, ?_⟩, hcount, hnil, hnil, hnil⟩
      · show Layout w.a.reset [] [] [] []
        rw [hsame]
        exact hl.of_eq rfl ⟨rfl, rfl, rfl⟩ rfl rfl rfl
      · show ∀ e ∈ w.a.reset.held, _
        rw [hsame]
        exact h.grain.memory
    · obtain ⟨hl, hused, hheld⟩ := reset_static h.layout hd hS
      refine ⟨S, hl, ⟨fun g hg => ?_, ?_⟩, hcount, hnil, hnil, hnil⟩
      · show 16 ∣ (w.a.reset.page g).used ∧ (w.a.reset.page g).used < 2 ^ 64
        rw [hused g hg]
        exact ⟨Nat.dvd_zero 16, by decide⟩
      · show ∀ e ∈ w.a.reset.held, _
        rw [hheld]
        exact h.grain.memory

/-! ## Steps -/

/-- No sum a step rounds up wraps. -/
def MemEvent.Fits (w : World) : MemEvent → Prop
  | .alloc size _ => 0 < size → Memory.Fits w.a size
  | .resize _ size _ => 0 < size → Memory.Fits w.a size
  | .fixed size _ => 0 < size → FitsFixed w.a size
  | _ => True

instance (a : RantAllocator) (size : Nat) : Decidable (Fits a size) :=
  inferInstanceAs (Decidable (_ ∧ _ ∧ (_ → _ ∧ ∀ pg ∈ a.shared, _)))

instance (a : RantAllocator) (size : Nat) : Decidable (FitsFixed a size) :=
  inferInstanceAs (Decidable (_ ∧ (∀ pg ∈ a.shared, _) ∧ _ ∧ _))

instance (w : World) : ∀ e : MemEvent, Decidable (e.Fits w)
  | .alloc size _ => inferInstanceAs (Decidable (0 < size → Memory.Fits w.a size))
  | .resize _ size _ => inferInstanceAs (Decidable (0 < size → Memory.Fits w.a size))
  | .fixed size _ => inferInstanceAs (Decidable (0 < size → FitsFixed w.a size))
  | .free _ => isTrue trivial
  | .store _ _ _ => isTrue trivial
  | .reset => isTrue trivial

theorem find_spec {ptr : Nat} (h : w.find ptr = some b) :
    b ∈ w.live ∧ b.ptr = ptr := by
  have hptr := List.find?_some h
  rw [beq_iff_eq] at hptr
  exact ⟨List.mem_of_find?_eq_some h, hptr⟩

/-- What a resize of the block `b` is answered. -/
theorem resize_cases (h : Settled w S P) (hb : b ∈ w.live)
    (hpos : 0 < size) (hfit : Fits w.a size) {back : Nat → Option Nat} {c : RantAllocator}
    {r : Option Nat} (hc : w.a.alloc (some b.ptr) size back = (c, r)) :
    (r = none ∧ c = w.a) ∨ (r = some b.ptr ∧ c = w.a ∧ w.a.capOf size ≤ (w.a.page b.hdr).cap) ∨
      ∃ a' pg S' P', r = some (pg + pageHdr) ∧ (w.a.page b.hdr).cap < w.a.capOf size ∧
        Granted w.a a' (w.live.map Block.hdr) (w.fixeds.map Block.reserve) P (w.a.capOf size) pg S' P' ∧
        c = (a'.copy (pg + pageHdr) b.ptr (w.a.page b.hdr).cap).freeOwned b.hdr := by
  unfold RantAllocator.alloc at hc
  rw [if_neg (Nat.pos_iff_ne_zero.mp hpos)] at hc
  dsimp only at hc
  split at hc
  next hle =>
    obtain ⟨rfl, rfl⟩ := Prod.mk.inj hc
    exact Or.inr (Or.inl ⟨rfl, rfl, hle⟩)
  next hlt =>
    cases hn : w.a.newOwned (w.a.capOf size) back with
    | mk a' r' =>
      rw [hn] at hc
      rcases granted_of h.layout h.grain h.counted hfit hn with ⟨rfl, rfl⟩ | ⟨pg, S', P', rfl, hgr⟩
      · obtain ⟨rfl, rfl⟩ := Prod.mk.inj hc
        exact Or.inl ⟨rfl, rfl⟩
      · obtain ⟨rfl, rfl⟩ := Prod.mk.inj hc
        refine Or.inr (Or.inr ⟨a', pg, S', P', rfl, Nat.lt_of_not_le hlt, hgr, ?_⟩)
        have hold : (a'.page (b.ptr - pageHdr)).cap = (w.a.page b.hdr).cap :=
          hgr.kept b.hdr (List.mem_append_left P (List.mem_map_of_mem hb))
        rw [hold]
        rfl

/-- A freed block goes from one list to the other. -/
theorem freed_perm {H P : List Nat} {h : Nat} (hh : h ∈ H) : (H ++ P).Perm (H.erase h ++ h :: P) :=
  ((List.perm_cons_erase hh).append_right P).trans List.perm_middle.symm

/-- A resized block that moves: the new block went out before the old one came back. -/
theorem moved_keeps {H P P' : List Nat} {pg old : Nat} (hP : P' = P.erase pg) (i : Nat)
    (hi : i ∈ H ++ P) : i ∈ (pg :: H).erase old ++ old :: P' := by
  subst hP
  by_cases ho : i = old
  · exact List.mem_append_right _ (ho ▸ List.mem_cons_self)
  by_cases hp : i = pg
  · exact List.mem_append_left _ ((List.mem_erase_of_ne ho).mpr (hp ▸ List.mem_cons_self))
  rcases List.mem_append.mp hi with hi | hi
  · exact List.mem_append_left _ ((List.mem_erase_of_ne ho).mpr (List.mem_cons_of_mem _ hi))
  · exact List.mem_append_right _ (List.mem_cons_of_mem _ ((List.mem_erase_of_ne hp).mpr hi))

/-- Whether the step is the reset. -/
def MemEvent.isReset : MemEvent → Bool
  | .reset => true
  | _ => false

/-- What one step keeps; up to a reset no header is forgotten, it is out or pooled. -/
theorem settled_step (h : Settled w S P) {e : MemEvent} (hfit : e.Fits w) :
    ∃ S' P', Settled (w.step e) S' P' ∧ (e.isReset = false →
      ∀ i ∈ w.live.map Block.hdr ++ P, i ∈ (w.step e).live.map Block.hdr ++ P') := by
  have hsame : ∃ S' P', Settled w S' P' ∧ (e.isReset = false →
      ∀ i ∈ w.live.map Block.hdr ++ P, i ∈ w.live.map Block.hdr ++ P') := ⟨S, P, h, fun _ _ hi => hi⟩
  cases e with
  | alloc size back =>
    dsimp only [World.step]
    cases hc : w.a.alloc none size back with
    | mk b r =>
      unfold RantAllocator.alloc at hc
      split at hc
      next =>
        obtain ⟨rfl, rfl⟩ := Prod.mk.inj hc
        exact hsame
      next hpos =>
        have hfit := hfit (Nat.pos_of_ne_zero hpos)
        rcases granted_of h.layout h.grain h.counted hfit hc with ⟨rfl, rfl⟩ | ⟨pg, S', P', rfl, hgr⟩
        · exact hsame
        · refine ⟨S', P', settled_grant h hfit.1 hgr, fun _ i hi => ?_⟩
          dsimp only
          rw [List.map_cons, hdr_of, hgr.pool]
          by_cases hp : i = pg
          · exact hp ▸ List.mem_cons_self
          rcases List.mem_append.mp hi with hi | hi
          · exact List.mem_append_left _ (List.mem_cons_of_mem _ hi)
          · exact List.mem_append_right _ ((List.mem_erase_of_ne hp).mpr hi)
  | resize ptr size back =>
    dsimp only [World.step]
    cases hfind : w.find ptr with
    | none => exact hsame
    | some b =>
      obtain ⟨hb, rfl⟩ := find_spec hfind
      dsimp only
      by_cases hpos : size = 0
      · rw [if_pos hpos]
        exact hsame
      rw [if_neg hpos]
      have hfit := hfit (Nat.pos_of_ne_zero hpos)
      cases hc : w.a.alloc (some b.ptr) size back with
      | mk c r =>
        -- refused, grown in place, or moved
        rcases resize_cases h hb (Nat.pos_of_ne_zero hpos) hfit hc with
          ⟨rfl, rfl⟩ | ⟨rfl, rfl, hle⟩ | ⟨a', pg, S', P', rfl, -, hgr, rfl⟩
        · exact hsame
        · dsimp only
          rw [if_pos rfl]
          refine ⟨S, P, settled_inPlace h hb (Nat.le_trans (le_capOf hfit.1) hle), fun _ i hi => ?_⟩
          dsimp only
          rw [inPlace_hdr]
          exact hi
        · dsimp only
          have hne : pg + pageHdr ≠ b.ptr := by
            intro heq
            have hbh : b.hdr = pg := by
              unfold Block.hdr
              omega
            exact hgr.fresh (hbh ▸ List.mem_map_of_mem hb)
          rw [if_neg hne]
          have hnew := settled_mem (settled_grant h hfit.1 hgr)
            (a'.copy (pg + pageHdr) b.ptr (w.a.page b.hdr).cap).mem
          have hold : b ∈ (⟨pg + pageHdr, size⟩ :: w.live : List Block) := List.mem_cons_of_mem _ hb
          refine ⟨S', _, settled_free hnew hold, fun _ i hi => ?_⟩
          dsimp only
          rw [erase_hdr hnew.layout.lists_apart.2.2.1 hold, List.map_cons, hdr_of]
          exact moved_keeps hgr.pool i hi
  | free ptr =>
    dsimp only [World.step]
    cases hfind : w.find ptr with
    | none => exact hsame
    | some b =>
      obtain ⟨hb, rfl⟩ := find_spec hfind
      refine ⟨S, _, settled_free h hb, fun _ i hi => ?_⟩
      dsimp only
      rw [erase_hdr h.layout.lists_apart.2.2.1 hb]
      exact (freed_perm (List.mem_map_of_mem hb)).mem_iff.mp hi
  | fixed size back =>
    dsimp only [World.step]
    unfold RantAllocator.fixed
    by_cases hpos : size = 0
    · rw [if_pos hpos]
      exact hsame
    rw [if_neg hpos]
    have hfit := hfit (Nat.pos_of_ne_zero hpos)
    cases hc : w.a.bump size back with
    | mk b r =>
      rcases settled_fixed h hfit hc with ⟨rfl, rfl⟩ | ⟨p, S', rfl, hs, -⟩
      · exact hsame
      · exact ⟨S', P, hs, fun _ _ hi => hi⟩
  | store ptr i b =>
    dsimp only [World.step]
    split
    next => exact ⟨S, P, settled_mem h _, fun _ _ hi => hi⟩
    next => exact hsame
  | reset =>
    obtain ⟨S', hs⟩ := settled_reset h
    exact ⟨S', [], hs, fun hr => Bool.noConfusion hr⟩

end Rant.Memory
