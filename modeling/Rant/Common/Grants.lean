import Rant.Common.Moves
import Mathlib.Order.Interval.Finset.Nat
/-!
# What a request is granted

The sizes are rounded up, not down, where they do not wrap. Then one lemma for each way a request
is served: a bump, a pooled block, a block of its own.

What a grant is stands in one structure, `Granted`: the block is new to the layout, has the room
asked for, is counted, and came from the pool or through the guard. `Frame`, `Grain` and `Counted`
are the parts every way of serving keeps.
-/

namespace Rant.Memory

open Rant.Lib

variable {a : RantAllocator} {H S P : List Nat} {F : List Extent}

/-! ## Sizes -/

theorem align_dvd (n : Nat) : 16 ∣ align n := Nat.dvd_mul_left 16 _

variable {n : Nat}

theorem le_align (h : n + 15 < 2 ^ 64) : n ≤ align n := by
  unfold align wrap
  rw [Nat.mod_eq_of_lt h]
  omega

/-- What is rounded stays. -/
theorem align_self (hd : 16 ∣ n) (h : n < 2 ^ 64) : align n = n := by
  obtain ⟨k, rfl⟩ := hd
  unfold align wrap
  rw [Nat.mod_eq_of_lt (by omega)]
  omega

/-- The power is at most `n`, and 16 divides it. -/
theorem topPower_spec (n : Nat) : ∀ (k p : Nat), p ≤ n → 16 ≤ p → 4 ∣ p →
    topPower n k p ≤ n ∧ 16 ≤ topPower n k p ∧ 4 ∣ topPower n k p := by
  intro k
  induction k with
  | zero => exact fun p hp hle hd => ⟨hp, hle, hd⟩
  | succ k ih =>
    intro p hp hle hd
    show (if 2 * p ≤ n then topPower n k (2 * p) else p) ≤ n ∧
      16 ≤ (if 2 * p ≤ n then topPower n k (2 * p) else p) ∧
      4 ∣ if 2 * p ≤ n then topPower n k (2 * p) else p
    by_cases h : 2 * p ≤ n
    · rw [if_pos h]
      exact ih (2 * p) h (by omega) (Dvd.dvd.mul_left hd 2)
    · rw [if_neg h]
      exact ⟨hp, hle, hd⟩

/-- A class holds what was asked for. -/
theorem le_sizeClass (h : n + 15 < 2 ^ 64) : n ≤ sizeClass n := by
  unfold sizeClass
  by_cases hs : n ≤ 16
  · rw [if_pos hs]
    exact hs
  rw [if_neg hs]
  by_cases hl : n ≥ 4096
  · rw [if_pos hl]
    exact le_align h
  rw [if_neg hl]
  dsimp only
  obtain ⟨hp, hge, hd⟩ := topPower_spec n 12 16 (by omega) (Nat.le_refl 16) (by decide)
  generalize topPower n 12 16 = p at hp hge hd
  obtain ⟨q, rfl⟩ := hd
  rw [Nat.mul_div_cancel_left q (by decide)]
  -- the quarters that are needed, rounded up
  have hq : 0 < q := by omega
  have hdiv := Nat.div_add_mod (n - 4 * q + q - 1) q
  have hmod := Nat.mod_lt (n - 4 * q + q - 1) hq
  rw [Nat.mul_comm] at hdiv
  omega

theorem le_capOf (h : n + 15 < 2 ^ 64) : n ≤ a.capOf n := by
  unfold RantAllocator.capOf
  cases a.dynamic with
  | true => exact le_sizeClass h
  | false => exact le_align h

/-! ## The room there is -/

/-- The addresses of some extents. -/
def cover (l : List Extent) : Finset Nat :=
  l.foldr (fun e s => Finset.Ico e.off (e.off + e.len) ∪ s) ∅

theorem mem_cover {l : List Extent} {i : Nat} :
    i ∈ cover l ↔ ∃ e ∈ l, e.off ≤ i ∧ i < e.off + e.len := by
  induction l with
  | nil =>
    refine iff_of_false (Finset.notMem_empty i) ?_
    rintro ⟨e, he, -⟩
    exact List.not_mem_nil he
  | cons e l ih =>
    show i ∈ Finset.Ico e.off (e.off + e.len) ∪ cover l ↔ _
    rw [Finset.mem_union, Finset.mem_Ico, ih]
    constructor
    · rintro (h | ⟨x, hx, h⟩)
      · exact ⟨e, List.mem_cons_self, h⟩
      · exact ⟨x, List.mem_cons_of_mem e hx, h⟩
    · rintro ⟨x, hx, h⟩
      rcases List.mem_cons.mp hx with rfl | hx
      · exact Or.inl h
      · exact Or.inr ⟨x, hx, h⟩

theorem card_cover {l : List Extent} (h : l.Pairwise Extent.Apart) :
    (cover l).card = (l.map Extent.len).sum := by
  induction l with
  | nil => rfl
  | cons e l ih =>
    obtain ⟨he, hl⟩ := List.pairwise_cons.mp h
    have hdisj : Disjoint (Finset.Ico e.off (e.off + e.len)) (cover l) := by
      refine Finset.disjoint_left.mpr fun i hi hc => ?_
      obtain ⟨x, hx, hlo, hhi⟩ := mem_cover.mp hc
      obtain ⟨hlo', hhi'⟩ := Finset.mem_Ico.mp hi
      rcases he x hx with hap | hap <;> omega
    show (Finset.Ico e.off (e.off + e.len) ∪ cover l).card = _
    rw [Finset.card_union_of_disjoint hdisj, Nat.card_Ico, ih hl, List.map_cons, List.sum_cons]
    omega

/-- Extents apart take no more than the room they lie in. -/
theorem apart_total {l : List Extent} {lo hi : Nat} (h : l.Pairwise Extent.Apart)
    (hin : ∀ e ∈ l, lo ≤ e.off ∧ e.off + e.len ≤ hi) : (l.map Extent.len).sum ≤ hi - lo := by
  rw [← card_cover h, ← Nat.card_Ico]
  refine Finset.card_le_card fun i hi' => ?_
  obtain ⟨e, he, hlo, hhi⟩ := mem_cover.mp hi'
  obtain ⟨hl, hh⟩ := hin e he
  exact Finset.mem_Ico.mpr ⟨by omega, by omega⟩

/-- What some blocks hold. -/
def caps (page : Nat → Page) (l : List Nat) : Nat := (l.map fun h => (page h).cap).sum

theorem caps_congr {page page' : Nat → Page} {l : List Nat} (h : ∀ i ∈ l, (page' i).cap = (page i).cap) :
    caps page' l = caps page l := by
  unfold caps
  rw [List.map_congr_left h]

theorem caps_perm {page : Nat → Page} {l m : List Nat} (h : l.Perm m) : caps page l = caps page m :=
  (h.map _).sum_nat

theorem caps_append (page : Nat → Page) (l m : List Nat) :
    caps page (l ++ m) = caps page l + caps page m := by
  unfold caps
  rw [List.map_append, List.sum_append]

/-- The caps are counted among the places. -/
theorem caps_le_blocks (page : Nat → Page) (l : List Nat) :
    caps page l ≤ ((l.map (block page)).map Extent.len).sum := by
  induction l with
  | nil => exact Nat.le_refl _
  | cons h l ih =>
    unfold caps at ih ⊢
    rw [List.map_cons, List.sum_cons, List.map_cons, List.map_cons, List.sum_cons]
    have hb : (block page h).len = pageHdr + (page h).cap := rfl
    omega

/-- In dynamic mode all there is fits the address space. -/
theorem Layout.total (h : Layout a H F S P) (hd : a.dynamic = true)
    (hmem : ∀ e ∈ a.held, 0 < e.off ∧ e.off + e.len ≤ 2 ^ 64) :
    caps a.page H + caps a.page P + (F.map Extent.len).sum < 2 ^ 64 := by
  have htotal := @apart_total _ 1 (2 ^ 64) h.apart (fun e he => by
    obtain ⟨x, hx, hlo, hhi⟩ := h.leaf_held hd he
    obtain ⟨hpos, htop⟩ := hmem x hx
    exact ⟨by omega, by omega⟩)
  have hblocks := caps_le_blocks a.page (H ++ P)
  rw [caps_append] at hblocks
  unfold leaves at htotal
  simp only [List.map_append, List.sum_append] at htotal hblocks
  omega

/-! ## The backing heap -/

/-- What it gives is room of its own. -/
theorem backing_spec {psz x : Nat} {answer : Option Nat} (h : a.backing psz answer = some x) :
    0 < x ∧ x + psz ≤ 2 ^ 64 ∧ ∀ e ∈ a.held, Extent.Apart ⟨x, psz⟩ e := by
  unfold RantAllocator.backing at h
  obtain ⟨-, hx⟩ := Option.filter_eq_some_iff.mp h
  rw [Bool.and_eq_true, Bool.and_eq_true, List.all_eq_true] at hx
  obtain ⟨⟨hne, htop⟩, hall⟩ := hx
  exact ⟨Nat.pos_of_ne_zero (of_decide_eq_true hne), of_decide_eq_true htop, fun e he => of_decide_eq_true (hall e he)⟩

/-- The page it gives has at least `floor` bytes. -/
theorem takePage_spec {floor : Nat} {back : Nat → Option Nat} : ∀ {n k psz x sz : Nat},
    a.takePage floor back n k psz = some (x, sz) → floor ≤ psz →
      floor ≤ sz ∧ 0 < x ∧ x + sz ≤ 2 ^ 64 ∧ ∀ e ∈ a.held, Extent.Apart ⟨x, sz⟩ e := by
  intro n
  induction n with
  | zero =>
    intro k psz x sz h _
    exact absurd h.symm (Option.some_ne_none _)
  | succ n ih =>
    intro k psz x sz h hle
    unfold RantAllocator.takePage at h
    split at h
    next y hy =>
      obtain ⟨rfl, rfl⟩ := Prod.mk.inj (Option.some.inj h)
      exact ⟨hle, backing_spec hy⟩
    split at h
    next hgt =>
      refine ih h ?_
      split <;> omega
    next => exact absurd h.symm (Option.some_ne_none _)

/-- What a request leaves of the allocator. -/
structure Frame (a b : RantAllocator) : Prop where
  dynamic : b.dynamic = a.dynamic
  maxBytes : b.maxBytes = a.maxBytes
  mem : b.mem = a.mem
  inUse : b.inUse = a.inUse
  pooled : b.pooled = a.pooled

/-- The pages that are bumped, and where the backing's memory is. -/
structure Grain (a : RantAllocator) (S : List Nat) : Prop where
  pages : ∀ g ∈ S, 16 ∣ (a.page g).used ∧ (a.page g).used < 2 ^ 64
  memory : ∀ e ∈ a.held, 0 < e.off ∧ e.off + e.len ≤ 2 ^ 64

variable {b : RantAllocator}

theorem Grain.congr (h : Grain a S)
    (hu : ∀ g ∈ S, (b.page g).used = (a.page g).used) (hh : b.held = a.held) : Grain b S := by
  constructor
  · intro g hg
    rw [hu g hg]
    exact h.pages g hg
  · rw [hh]
    exact h.memory

/-- A bump in the page `pg`. -/
theorem bumpIn_spec (h : Layout a H F S P) (hg : Grain a S) {pg need : Nat} (hpg : pg ∈ S)
    (hn : 16 ∣ need) (hwrap : (a.page pg).used + need < 2 ^ 64)
    (hroom : (a.page pg).used + need ≤ (a.page pg).cap) :
    Layout (a.bumpIn pg need).1 H (⟨(a.bumpIn pg need).2, need⟩ :: F) S P ∧
      Grain (a.bumpIn pg need).1 S ∧ Frame a (a.bumpIn pg need).1 ∧
      ∀ i, ((a.bumpIn pg need).1.page i).cap = (a.page i).cap := by
  obtain ⟨hdvd, hlt⟩ := hg.pages pg hpg
  have hself : align (a.page pg).used = (a.page pg).used := align_self hdvd hlt
  refine ⟨bumpIn_layout h hpg (Nat.le_of_eq hself.symm) (by rw [hself]; exact hwrap) (by rw [hself]; exact hroom), ?_,
    ⟨rfl, rfl, rfl, rfl, rfl⟩, fun i => ?_⟩
  · refine ⟨fun g hgS => ?_, hg.memory⟩
    show 16 ∣ (upd a.page pg (fun p => { p with used := wrap (align (a.page pg).used + need) }) g).used ∧
      (upd a.page pg (fun p => { p with used := wrap (align (a.page pg).used + need) }) g).used < 2 ^ 64
    by_cases heq : g = pg
    · subst heq
      rw [upd_self, hself]
      show 16 ∣ wrap ((a.page g).used + need) ∧ wrap ((a.page g).used + need) < 2 ^ 64
      have hw : wrap ((a.page g).used + need) = (a.page g).used + need := Nat.mod_eq_of_lt hwrap
      rw [hw]
      exact ⟨Nat.dvd_add hdvd hn, hwrap⟩
    · rw [upd_other _ heq]
      exact hg.pages g hgS
  · show (upd a.page pg (fun p => { p with used := wrap (align (a.page pg).used + need) }) i).cap = _
    by_cases heq : i = pg
    · rw [heq, upd_self]
    · rw [upd_other _ heq]

/-- A piece bumped off a page, a new one where the current one is full. -/
theorem bump_spec (h : Layout a H F S P) (hg : Grain a S) {size : Nat} {back : Nat → Option Nat}
    (hcur : ∀ pg, a.shared = some pg → (a.page pg).used + align size < 2 ^ 64)
    (hnew : a.dynamic = true → align size + pageHdr < 2 ^ 64) {r : Option Nat}
    (hb : a.bump size back = (b, r)) :
    (r = none ∧ b = a) ∨ ∃ p S', r = some p ∧ Layout b H (⟨p, align size⟩ :: F) S' P ∧ Grain b S' ∧
      Frame a b ∧ (∀ i ∈ H ++ P, (b.page i).cap = (a.page i).cap) := by
  have hn := align_dvd size
  unfold RantAllocator.bump at hb
  dsimp only at hb
  generalize align size = need at *
  split at hb
  next pg hpg =>
    obtain ⟨rfl, rfl⟩ := Prod.mk.inj hb
    obtain ⟨hs, hroom⟩ := Option.filter_eq_some_iff.mp hpg
    have hS : pg ∈ S := by
      have hhead : a.shared = S.head? := h.shared.forward.head_eq
      exact List.mem_of_head? (hhead.symm.trans hs)
    obtain ⟨hdvd, hlt⟩ := hg.pages pg hS
    have hself : align (a.page pg).used = (a.page pg).used := align_self hdvd hlt
    have hroom : (a.page pg).used + need ≤ (a.page pg).cap := by
      have hle := of_decide_eq_true hroom
      have hw : wrap ((a.page pg).used + need) = (a.page pg).used + need :=
        Nat.mod_eq_of_lt (hcur pg hs)
      rw [hself, hw] at hle
      exact hle
    obtain ⟨hl, hg', hf, hc⟩ := bumpIn_spec h hg hS hn (hcur pg hs) hroom
    exact Or.inr ⟨_, S, rfl, hl, hg', hf, fun i _ => hc i⟩
  next =>
    split at hb
    next =>
      obtain ⟨rfl, rfl⟩ := Prod.mk.inj hb
      exact Or.inl ⟨rfl, rfl⟩
    next hdyn =>
      rw [Bool.or_eq_true, not_or, Bool.not_eq_true', Bool.not_eq_false] at hdyn
      have hd := hdyn.1
      have hfloor : wrap (need + pageHdr) = need + pageHdr := Nat.mod_eq_of_lt (hnew hd)
      rw [hfloor] at hb
      split at hb
      next =>
        obtain ⟨rfl, rfl⟩ := Prod.mk.inj hb
        exact Or.inl ⟨rfl, rfl⟩
      next np psz htake =>
        obtain ⟨rfl, rfl⟩ := Prod.mk.inj hb
        obtain ⟨hle, hpos, htop, hap⟩ := takePage_spec htake (by split <;> omega)
        have hlt : psz < 2 ^ 64 := by omega
        obtain ⟨hl, ⟨hcap, hused⟩, hkeep, hpages⟩ := addShared_layout h hd (by omega) hlt hap
        -- the new page is empty and takes the piece
        have hg' : Grain (a.addShared np psz) (np :: S) := by
          refine ⟨fun g hgS => ?_, ?_⟩
          · rcases List.mem_cons.mp hgS with rfl | hgS
            · rw [hused]
              exact ⟨Nat.dvd_zero 16, by decide⟩
            · rw [hpages g hgS]
              exact hg.pages g hgS
          · intro e he
            rcases List.mem_cons.mp he with rfl | he
            · exact ⟨hpos, htop⟩
            · exact hg.memory e he
        obtain ⟨hl', hg'', hf, hc⟩ := bumpIn_spec hl hg' List.mem_cons_self hn
          (by rw [hused]; omega) (by rw [hused, hcap]; omega)
        refine Or.inr ⟨_, np :: S, rfl, hl', hg'', ?_, fun i hi => (hc i).trans (hkeep i hi)⟩
        exact ⟨hf.dynamic, hf.maxBytes, hf.mem, hf.inUse, hf.pooled⟩

/-! ## Blocks -/

variable {cap : Nat}

/-- The search keeps to the pool, and to what fits. -/
theorem bestFrom_spec {X : List Nat} : ∀ {l : List Nat} {n : Nat} {it best : Option Nat},
    Links.From (fun i => (a.page i).next) it l → (∀ i ∈ l, i ∈ X) →
      (∀ b, best = some b → b ∈ X ∧ cap ≤ (a.page b).cap) →
        ∀ b, a.bestFrom cap n it best = some b → b ∈ X ∧ cap ≤ (a.page b).cap := by
  intro l n
  induction n generalizing l with
  | zero =>
    intro it best _ _ hbest b hb
    cases it <;> exact hbest b hb
  | succ n ih =>
    intro it best hl hX hbest b hb
    cases l with
    | nil =>
      have hl : it = none := hl
      subst hl
      exact hbest b hb
    | cons i l =>
      obtain ⟨rfl, hl⟩ := hl
      refine ih hl (fun j hj => hX j (List.mem_cons_of_mem i hj)) ?_ b hb
      intro c hc
      split at hc
      next hfit =>
        obtain rfl := Option.some.inj hc
        rw [Bool.and_eq_true] at hfit
        exact ⟨hX i List.mem_cons_self, of_decide_eq_true hfit.1⟩
      next => exact hbest c hc

/-- A pooled block that is picked is in the pool and within twice the ask. -/
theorem pick_spec (h : Layout a H F S P) {best : Nat} (hp : a.pick cap = some best) :
    best ∈ P ∧ cap ≤ (a.page best).cap ∧ (a.page best).cap ≤ 2 * cap := by
  obtain ⟨hbest, htwice⟩ := Option.filter_eq_some_iff.mp hp
  have hspec := bestFrom_spec (X := P) h.pool.forward (fun i hi => hi)
    (fun b hb => absurd hb.symm (Option.some_ne_none b)) best hbest
  have hle := of_decide_eq_true htwice
  exact ⟨hspec.1, hspec.2, by omega⟩

/-- The sums the allocator counts. -/
structure Counted (a : RantAllocator) (H : List Nat) (F : List Extent) (P : List Nat) : Prop where
  inUse : a.inUse = caps a.page H + (F.map Extent.len).sum
  pooled : a.pooled = caps a.page P
  sums : a.inUse + a.pooled < 2 ^ 64

/-- A block for `cap` bytes went out. -/
structure Granted (a b : RantAllocator) (H : List Nat) (F : List Extent) (P : List Nat) (cap h : Nat)
    (S' P' : List Nat) : Prop where
  layout : Layout b (h :: H) F S' P'
  grain : Grain b S'
  counted : Counted b (h :: H) F P'
  fresh : h ∉ H
  room : cap ≤ (b.page h).cap
  frame : b.dynamic = a.dynamic ∧ b.maxBytes = a.maxBytes ∧ b.mem = a.mem
  kept : ∀ i ∈ H ++ P, (b.page i).cap = (a.page i).cap
  pool : P' = P.erase h
  /-- It was picked from the pool, of at most twice the ask, or it is new and the guard let it
  through. -/
  source : (h ∈ P ∧ (a.page h).cap ≤ 2 * cap ∧ b.inUse + b.pooled = a.inUse + a.pooled ∧
      a.pick cap = some h) ∨
    (h ∉ P ∧ b.inUse + b.pooled = a.inUse + a.pooled + cap ∧ (a.dynamic = true → a.over cap = false))

/-- The counters of a block of its own. -/
theorem Counted.grow (hc : Counted a H F P) {pg : Nat}
    (hcap : (b.page pg).cap = cap) (hkept : ∀ i ∈ H ++ P, (b.page i).cap = (a.page i).cap)
    (hin : b.inUse = wrap (a.inUse + cap)) (hpool : b.pooled = a.pooled)
    (hsum : a.inUse + a.pooled + cap < 2 ^ 64) :
    Counted b (pg :: H) F P ∧ b.inUse + b.pooled = a.inUse + a.pooled + cap := by
  have hw : wrap (a.inUse + cap) = a.inUse + cap := Nat.mod_eq_of_lt (by omega)
  rw [hw] at hin
  have hH : caps b.page (pg :: H) = cap + caps a.page H := by
    have hcons : caps b.page (pg :: H) = (b.page pg).cap + caps b.page H := rfl
    rw [hcons, hcap, caps_congr fun i hi => hkept i (List.mem_append_left P hi)]
  have hP : caps b.page P = caps a.page P := caps_congr fun i hi => hkept i (List.mem_append_right H hi)
  have hi := hc.inUse
  have hp := hc.pooled
  exact ⟨⟨by omega, by omega, by omega⟩, by omega⟩

/-- A pooled block moves from one sum to the other. -/
theorem reuse_granted (h : Layout a H F S P) (hg : Grain a S) (hc : Counted a H F P) {best : Nat}
    (hpick : a.pick cap = some best) :
    Granted a (a.reuse best) H F P cap best S (P.erase best) := by
  obtain ⟨hbest, hle, htwice⟩ := pick_spec h hpick
  obtain ⟨hl, hcap, hused⟩ := reuse_layout h hbest
  have hframe : (a.reuse best).dynamic = a.dynamic ∧ (a.reuse best).maxBytes = a.maxBytes ∧
      (a.reuse best).mem = a.mem ∧ (a.reuse best).held = a.held ∧
      (a.reuse best).inUse = wrap (a.inUse + (a.page best).cap) ∧
      (a.reuse best).pooled = wsub a.pooled (a.page best).cap := by
    unfold RantAllocator.reuse RantAllocator.count
    dsimp only
    cases a.dynamic <;> exact ⟨rfl, rfl, rfl, rfl, rfl, rfl⟩
  obtain ⟨hd, hm, hmem, hheld, hin, hpool⟩ := hframe
  have hP : caps a.page P = (a.page best).cap + caps a.page (P.erase best) :=
    caps_perm (List.perm_cons_erase hbest)
  have hkeep : ∀ l, caps (a.reuse best).page l = caps a.page l := fun l => caps_congr fun i _ => hcap i
  have hsum := hc.sums
  have hpooled := hc.pooled
  have hw : wrap (a.inUse + (a.page best).cap) = a.inUse + (a.page best).cap :=
    Nat.mod_eq_of_lt (by omega)
  have hs : wsub a.pooled (a.page best).cap = a.pooled - (a.page best).cap := by
    have hle : (a.page best).cap ≤ a.pooled := by omega
    unfold wsub
    rw [show a.pooled + 2 ^ 64 - (a.page best).cap = a.pooled - (a.page best).cap + 2 ^ 64 by omega,
      Nat.add_mod_right, Nat.mod_eq_of_lt (by omega)]
  rw [hw] at hin
  rw [hs] at hpool
  have hH : caps (a.reuse best).page (best :: H) = (a.page best).cap + caps a.page H := by
    rw [hkeep]
    rfl
  have huse := hc.inUse
  constructor
  · exact hl
  · exact hg.congr hused hheld
  · refine ⟨?_, ?_, ?_⟩
    · omega
    · rw [hkeep]
      omega
    · omega
  · exact fun hmem => (h.lists_apart.2.1 best hmem) hbest
  · rw [hcap]
    exact hle
  · exact ⟨hd, hm, hmem⟩
  · exact fun i _ => hcap i
  · rfl
  · exact Or.inl ⟨hbest, htwice, by omega, hpick⟩

/-- A freeable block: a pooled one, or one of its own. -/
theorem newOwned_spec (h : Layout a H F S P) (hg : Grain a S) (hc : Counted a H F P)
    {back : Nat → Option Nat} (hcap : pageHdr + cap < 2 ^ 64)
    (hstat : a.dynamic = false → 16 ∣ cap ∧ a.inUse + a.pooled + cap < 2 ^ 64 ∧
      ∀ pg, a.shared = some pg → (a.page pg).used + (pageHdr + cap) < 2 ^ 64)
    {r : Option Nat} (hb : a.newOwned cap back = (b, r)) :
    (r = none ∧ b = a) ∨ ∃ pg S' P', r = some (pg + pageHdr) ∧ Granted a b H F P cap pg S' P' := by
  have hw : wrap (pageHdr + cap) = pageHdr + cap := Nat.mod_eq_of_lt hcap
  unfold RantAllocator.newOwned at hb
  rw [hw] at hb
  split at hb
  next best hpick =>
    obtain ⟨rfl, rfl⟩ := Prod.mk.inj hb
    exact Or.inr ⟨best, S, _, rfl, reuse_granted h hg hc hpick⟩
  next =>
    split at hb
    next hd =>
      split at hb
      next =>
        obtain ⟨rfl, rfl⟩ := Prod.mk.inj hb
        exact Or.inl ⟨rfl, rfl⟩
      next hover =>
        split at hb
        next =>
          obtain ⟨rfl, rfl⟩ := Prod.mk.inj hb
          exact Or.inl ⟨rfl, rfl⟩
        next pg hback =>
          obtain ⟨rfl, rfl⟩ := Prod.mk.inj hb
          obtain ⟨hpos, htop, hap⟩ := backing_spec hback
          obtain ⟨hl, hpcap, hnew, hkept, hused⟩ := addOwned_layout h hd hap
          have hg' : Grain (a.addOwned pg cap (pageHdr + cap)) S := by
            refine ⟨fun g hgS => ?_, fun e he => ?_⟩
            · rw [hused g hgS]
              exact hg.pages g hgS
            · rcases List.mem_cons.mp he with rfl | he
              · exact ⟨hpos, htop⟩
              · exact hg.memory e he
          -- the address space holds all of it
          have hsum : a.inUse + a.pooled + cap < 2 ^ 64 := by
            have htotal := hl.total hd hg'.memory
            have hH : caps (a.addOwned pg cap (pageHdr + cap)).page (pg :: H) = cap + caps a.page H := by
              have hcons : caps (a.addOwned pg cap (pageHdr + cap)).page (pg :: H) =
                  ((a.addOwned pg cap (pageHdr + cap)).page pg).cap +
                    caps (a.addOwned pg cap (pageHdr + cap)).page H := rfl
              rw [hcons, hpcap, caps_congr fun i hi => hkept i (List.mem_append_left P hi)]
            have hP : caps (a.addOwned pg cap (pageHdr + cap)).page P = caps a.page P :=
              caps_congr fun i hi => hkept i (List.mem_append_right H hi)
            have hi := hc.inUse
            have hp := hc.pooled
            omega
          obtain ⟨hc', hsums⟩ := hc.grow hpcap hkept rfl rfl hsum
          refine Or.inr ⟨pg, S, P, rfl, ?_⟩
          rw [List.mem_append, not_or] at hnew
          exact ⟨hl, hg', hc', hnew.1, Nat.le_of_eq hpcap.symm, ⟨rfl, rfl, rfl⟩, hkept,
            (List.erase_of_not_mem hnew.2).symm, Or.inr ⟨hnew.2, hsums, fun _ => Bool.not_eq_true _ ▸ hover⟩⟩
    next hd =>
      have hd : a.dynamic = false := Bool.not_eq_true _ ▸ hd
      obtain ⟨hdvd, hsum, hcur⟩ := hstat hd
      have halign : align (pageHdr + cap) = pageHdr + cap :=
        align_self (Nat.dvd_add ⟨2, rfl⟩ hdvd) hcap
      cases hbump : a.bump (pageHdr + cap) back with
      | mk c r' =>
        rw [hbump] at hb
        have hspec := bump_spec h hg (by rw [halign]; exact hcur)
          (fun hd' => absurd (hd.symm.trans hd') Bool.false_ne_true) hbump
        rw [halign] at hspec
        rcases hspec with ⟨rfl, rfl⟩ | ⟨pg, S', rfl, hl, hg', hf, hkept⟩
        · obtain ⟨rfl, rfl⟩ := Prod.mk.inj hb
          exact Or.inl ⟨rfl, rfl⟩
        · obtain ⟨rfl, rfl⟩ := Prod.mk.inj hb
          obtain ⟨hl', hpcap, hnew, hkept', hused⟩ := addBumped_layout hl (hf.dynamic.trans hd)
          have hall : ∀ i ∈ H ++ P, ((c.addBumped pg cap).page i).cap = (a.page i).cap :=
            fun i hi => (hkept' i hi).trans (hkept i hi)
          have hin : (c.addBumped pg cap).inUse = wrap (a.inUse + cap) := by
            show wrap (c.inUse + cap) = _
            rw [hf.inUse]
          obtain ⟨hc', hsums⟩ := hc.grow hpcap hall hin hf.pooled hsum
          refine Or.inr ⟨pg, S', P, rfl, ?_⟩
          rw [List.mem_append, not_or] at hnew
          exact ⟨hl', hg'.congr hused rfl, hc', hnew.1, Nat.le_of_eq hpcap.symm,
            ⟨hf.dynamic, hf.maxBytes, hf.mem⟩, hall,
            (List.erase_of_not_mem hnew.2).symm, Or.inr ⟨hnew.2, hsums, fun hd' => absurd (hd.symm.trans hd') Bool.false_ne_true⟩⟩

end Rant.Memory
