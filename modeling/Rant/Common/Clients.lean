import Rant.Common.Sound
/-!
# What a client keeps of a block

A client holds an address. It is of a block that is out until the client frees it, and after that
of a pooled one: no block goes back to the heap before the reset, so a known address stays known.
The next ask may pick the block again, and then its address is the new block's. An ask that is
served otherwise gets an address that no block had before.
-/

namespace Rant.Memory

/-- An ask for `size` bytes, and where the block is. A size with which a sum would wrap is past
the end of memory, and refused. -/
def World.ask (w : World) (size : Nat) (back : Nat → Option Nat) : World × Option Nat :=
  if Fits w.a size then (w.step (.alloc size back), (w.a.alloc none size back).2) else (w, none)

/-- The block that is freed or resized. -/
def MemEvent.block : MemEvent → Option Nat
  | .free ptr => some ptr
  | .resize ptr _ _ => some ptr
  | _ => none

namespace World

variable (w : World)

/-- The blocks lie as they should. -/
def Ok : Prop := ∃ S P, Settled w S P

/-- Address `x` is of a block that is out. -/
def Out (x : Nat) : Prop := x ∈ w.live.map Block.ptr

/-- Address `x` is of a block, out or pooled. -/
def Known (x : Nat) : Prop := ∃ i ∈ w.live.map Block.hdr ++ w.a.poolList, i + pageHdr = x

variable {w} {S P : List Nat} {x : Nat}

/-- The pool that the layout names is the one on the list. -/
theorem known_iff (h : Settled w S P) : w.Known x ↔ ∃ i ∈ w.live.map Block.hdr ++ P, i + pageHdr = x := by
  have hpool : w.a.poolList = P := h.layout.walks.2.2
  unfold Known
  rw [hpool]

theorem not_known_zero : ¬ w.Known 0 := by
  rintro ⟨i, -, hi⟩
  exact absurd (Nat.eq_zero_of_add_eq_zero_left hi) (by decide)

theorem Out.known (h : w.Ok) (hx : w.Out x) : w.Known x := by
  obtain ⟨S, P, hs⟩ := h
  obtain ⟨b, hb, rfl⟩ := List.mem_map.mp hx
  exact ⟨b.hdr, List.mem_append_left _ (List.mem_map_of_mem hb), Nat.sub_add_cancel (hs.hdr b hb)⟩

/-- What an ask comes to: nothing, or a block that was not out, and one whose address was known
only if the pool picked it. -/
theorem ask_spec (h : w.Ok) {size : Nat} (hpos : 0 < size) (back : Nat → Option Nat) :
    w.ask size back = (w, none) ∨ ∃ w' x, w.ask size back = (w', some x) ∧ w'.Ok ∧ ¬ w.Out x ∧
      (∀ y, w'.Out y ↔ y = x ∨ w.Out y) ∧ (∀ y, w'.Known y ↔ y = x ∨ w.Known y) ∧
      (w.Known x ↔ ∃ i, w.a.pick (w.a.capOf size) = some i ∧ i + pageHdr = x) := by
  obtain ⟨S, P, hs⟩ := h
  unfold ask
  by_cases hfit : Fits w.a size
  · rw [if_pos hfit]
    have hnew : w.a.alloc none size back = w.a.newOwned (w.a.capOf size) back := by
      unfold RantAllocator.alloc
      rw [if_neg (Nat.pos_iff_ne_zero.mp hpos)]
    dsimp only [World.step]
    rw [hnew]
    cases hc : w.a.newOwned (w.a.capOf size) back with
    | mk b r =>
      rcases granted_of hs.layout hs.grain hs.counted hfit hc with ⟨rfl, rfl⟩ | ⟨pg, S', P', rfl, hgr⟩
      · exact Or.inl rfl
      · have hs' := settled_grant hs hfit.1 hgr
        refine Or.inr ⟨_, _, rfl, ⟨S', P', hs'⟩, fun hout => ?_, fun y => List.mem_cons, fun y => ?_, ?_⟩
        · obtain ⟨c, hc, hptr⟩ := List.mem_map.mp hout
          refine hgr.fresh (List.mem_map.mpr ⟨c, hc, ?_⟩)
          unfold Block.hdr
          omega
        · rw [known_iff hs, known_iff hs']
          dsimp only
          rw [List.map_cons, hdr_of, hgr.pool]
          constructor
          · rintro ⟨i, hi, rfl⟩
            rcases List.mem_cons.mp hi with rfl | hi
            · exact Or.inl rfl
            · refine Or.inr ⟨i, ?_, rfl⟩
              exact (List.mem_append.mp hi).elim (List.mem_append_left _) fun hi =>
                List.mem_append_right _ (List.mem_of_mem_erase hi)
          · rintro (rfl | ⟨i, hi, rfl⟩)
            · exact ⟨pg, List.mem_cons_self, rfl⟩
            · by_cases hp : i = pg
              · exact ⟨pg, List.mem_cons_self, by rw [hp]⟩
              refine ⟨i, List.mem_cons_of_mem _ ?_, rfl⟩
              exact (List.mem_append.mp hi).elim (List.mem_append_left _) fun hi =>
                List.mem_append_right _ ((List.mem_erase_of_ne hp).mpr hi)
        · rw [known_iff hs]
          constructor
          · rintro ⟨i, hi, hip⟩
            have hip : i = pg := by omega
            subst hip
            -- it is not out, so it was pooled, and then it was picked
            rcases hgr.source with ⟨-, -, -, hpick⟩ | ⟨hno, -⟩
            · exact ⟨i, hpick, rfl⟩
            · exact absurd hi fun hi => (List.mem_append.mp hi).elim hgr.fresh hno
          · rintro ⟨i, hi, hip⟩
            exact ⟨i, List.mem_append_right _ (pick_spec hs.layout hi).1, hip⟩
  · rw [if_neg hfit]
    exact Or.inl rfl

/-- A block that came back is known and no more out, and the others are as they were. -/
theorem free_spec (h : w.Ok) (x : Nat) : (w.step (.free x)).Ok ∧
    (∀ y, (w.step (.free x)).Known y ↔ w.Known y) ∧
    ∀ y, (w.step (.free x)).Out y ↔ w.Out y ∧ y ≠ x := by
  obtain ⟨S, P, hs⟩ := h
  dsimp only [World.step]
  cases hfind : w.find x with
  | none =>
    refine ⟨⟨S, P, hs⟩, fun y => Iff.rfl, fun y => ⟨fun hy => ⟨hy, ?_⟩, And.left⟩⟩
    rintro rfl
    obtain ⟨b, hb, hptr⟩ := List.mem_map.mp hy
    exact List.find?_eq_none.mp hfind b hb (beq_iff_eq.mpr hptr)
  | some b =>
    obtain ⟨hb, rfl⟩ := find_spec hfind
    have hnodup := hs.layout.lists_apart.2.2.1
    have hs' := settled_free hs hb
    have hkeep : ∀ c ∈ w.live, c.ptr = b.ptr → c = b := fun c hc hptr =>
      List.inj_on_of_nodup_map hnodup hc hb (by unfold Block.hdr; rw [hptr])
    refine ⟨⟨S, _, hs'⟩, fun y => ?_, fun y => ?_⟩
    · have hmem : ∀ i, i ∈ (w.live.erase b).map Block.hdr ++ b.hdr :: P ↔ i ∈ w.live.map Block.hdr ++ P := by
        intro i
        rw [erase_hdr hnodup hb]
        exact (freed_perm (List.mem_map_of_mem hb)).mem_iff.symm
      rw [known_iff hs]
      exact (known_iff hs').trans (exists_congr fun i => and_congr_left fun _ => hmem i)
    · have hmem : ∀ c, c ∈ w.live.erase b ↔ c ≠ b ∧ c ∈ w.live := fun c => hnodup.of_map.mem_erase_iff
      unfold Out
      simp only [List.mem_map]
      constructor
      · rintro ⟨c, hc, rfl⟩
        obtain ⟨hne, hc⟩ := (hmem c).mp hc
        exact ⟨⟨c, hc, rfl⟩, fun heq => hne (hkeep c hc heq)⟩
      · rintro ⟨⟨c, hc, rfl⟩, hne⟩
        refine ⟨c, (hmem c).mpr ⟨?_, hc⟩, rfl⟩
        rintro rfl
        exact hne rfl

/-- Up to the reset a step forgets no address, and takes no block that it does not name. -/
theorem step_spec (h : w.Ok) {e : MemEvent} (hfit : e.Fits w) (hr : e.isReset = false) :
    (w.step e).Ok ∧ (∀ y, w.Known y → (w.step e).Known y) ∧
      ∀ y, w.Out y → e.block ≠ some y → (w.step e).Out y := by
  obtain ⟨S, P, hs⟩ := h
  obtain ⟨S', P', hs', hkeep⟩ := settled_step hs hfit
  refine ⟨⟨S', P', hs'⟩, fun y hy => ?_, fun y hy hne => ?_⟩
  · obtain ⟨i, hi, hiy⟩ := (known_iff hs).mp hy
    exact (known_iff hs').mpr ⟨i, hkeep hr i hi, hiy⟩
  · obtain ⟨c, hc, rfl⟩ := List.mem_map.mp hy
    have hstays : ∀ b : Block, b.ptr ≠ c.ptr → ∀ l : List Block, c ∈ l → c ∈ l.erase b := by
      intro b hb l hl
      refine (List.mem_erase_of_ne ?_).mpr hl
      rintro rfl
      exact hb rfl
    cases e with
    | reset => cases hr
    | alloc size back =>
      dsimp only [World.step]
      split
      next => exact List.mem_cons_of_mem _ hy
      next => exact hy
    | fixed size back =>
      dsimp only [World.step]
      split <;> exact hy
    | store ptr i b =>
      dsimp only [World.step]
      split <;> exact hy
    | free ptr =>
      dsimp only [World.step]
      cases hfind : w.find ptr with
      | none => exact hy
      | some b =>
        obtain ⟨-, rfl⟩ := find_spec hfind
        exact List.mem_map_of_mem (hstays b (fun heq => hne (congrArg some heq)) _ hc)
    | resize ptr size back =>
      dsimp only [World.step]
      cases hfind : w.find ptr with
      | none => exact hy
      | some b =>
        obtain ⟨-, rfl⟩ := find_spec hfind
        have hcb : b.ptr ≠ c.ptr := fun heq => hne (congrArg some heq)
        dsimp only
        split
        next => exact hy
        split
        next =>
          split
          next =>
            refine List.mem_map.mpr ⟨c, List.mem_map.mpr ⟨c, hc, if_neg ?_⟩, rfl⟩
            rintro rfl
            exact hcb rfl
          next => exact List.mem_map_of_mem (hstays b hcb _ (List.mem_cons_of_mem _ hc))
        next => exact hy

end World

end Rant.Memory
