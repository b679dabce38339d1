import Rant.Common.Layout
import Mathlib.Algebra.Order.Ring.Int
/-!
# Moves between the lists

What each operation on a page does to the layout. A bump cuts a piece off the rest of a shared
page, a new page comes from outside all the backing gave before, and a block that is freed or
reused changes its list and not its place.

`Layout` speaks of four lists: the blocks that are out, the fixed pieces, the shared pages and the
pool. An operation is shown on the lists, what it adds and what it takes, and on the links by the
library of linked lists. That the extents stay apart is then a permutation of those that were, or
one piece cut from one of them.
-/

namespace Rant.Memory

open Rant.Lib

variable {a : RantAllocator} {H S P : List Nat} {F : List Extent}

/-- The leaves with the rest of one shared page in front. -/
theorem leaves_tail (page : Nat → Page) (H : List Nat) (F : List Extent) (f r P : List Nat) (g : Nat) :
    (leaves page H F (f ++ g :: r) P).Perm (tail page g :: ((H ++ P).map (block page) ++
      (F ++ ((f ++ g :: r).map front ++ (f ++ r).map (tail page))))) := by
  refine List.perm_iff_count.mpr fun e => ?_
  unfold leaves
  simp only [List.count_append, List.map_append, List.map_cons, List.count_cons]
  omega

/-- A bump in a shared page. -/
theorem bumpIn_layout (h : Layout a H F S P) {pg need : Nat} (hpg : pg ∈ S)
    (hu : (a.page pg).used ≤ align (a.page pg).used)
    (hwrap : align (a.page pg).used + need < 2 ^ 64)
    (hroom : align (a.page pg).used + need ≤ (a.page pg).cap) :
    Layout (a.bumpIn pg need).1 H (⟨pg + pageHdr + align (a.page pg).used, need⟩ :: F) S P := by
  obtain ⟨f, r, rfl⟩ := List.append_of_mem hpg
  have hw : wrap (align (a.page pg).used + need) = align (a.page pg).used + need :=
    Nat.mod_eq_of_lt hwrap
  obtain ⟨page', hpage'⟩ : ∃ page', page' = (a.bumpIn pg need).1.page := ⟨_, rfl⟩
  have hself : page' pg = { a.page pg with used := align (a.page pg).used + need } := by
    rw [hpage', ← hw]
    exact if_pos rfl
  have hother : ∀ i, i ≠ pg → page' i = a.page i := by
    intro i hi
    rw [hpage']
    exact if_neg hi
  have hcap : ∀ i, (page' i).cap = (a.page i).cap := by
    intro i
    by_cases hi : i = pg
    · rw [hi, hself]
    · rw [hother i hi]
  have hlinks : ∀ {head l}, (listAt a.page head).Both l → (listAt page' head).Both l := by
    intro head l hl
    rw [hpage']
    exact upd_both hl fun _ => ⟨rfl, rfl⟩
  have hblock : block page' = block a.page := funext fun i => block_congr (hcap i)
  have hnd := h.nodup
  have hfr : ∀ i ∈ f ++ r, i ≠ pg := by
    rintro i hi rfl
    have hS : (f ++ i :: r).Nodup := (List.nodup_append.mp hnd).1
    have hcons := List.nodup_middle.mp hS
    exact (List.nodup_cons.mp hcons).1 hi
  constructor
  · exact hpage' ▸ hlinks h.shared
  · exact hpage' ▸ hlinks h.owned
  · exact hpage' ▸ hlinks h.pool
  · rw [← hpage']
    have hold := (apart_perm (leaves_tail a.page H F f r P pg)).mp h.apart
    refine (apart_perm (leaves_tail page' H _ f r P pg)).mpr ?_
    have htail : (f ++ r).map (tail page') = (f ++ r).map (tail a.page) :=
      List.map_congr_left fun i hi => tail_congr (hcap i) (congrArg Page.used (hother i (hfr i hi)))
    rw [hblock, htail]
    -- the page's free tail is cut in two: what was handed out, and what is left
    have hcut := apart_cut hold (m := [tail page' pg, ⟨pg + pageHdr + align (a.page pg).used, need⟩])
      ?_ ?_
    · refine (apart_perm ?_).mp hcut
      refine List.perm_iff_count.mpr fun e => ?_
      simp only [List.count_append, List.count_cons, List.count_nil, List.cons_append]
      omega
    · refine List.pairwise_cons.mpr ⟨fun y hy => ?_, List.pairwise_singleton _ _⟩
      rw [List.mem_singleton.mp hy]
      refine Or.inr ?_
      show pg + pageHdr + align (a.page pg).used + need ≤ pg + pageHdr + (page' pg).used
      rw [hself]
      show pg + pageHdr + align (a.page pg).used + need ≤
        pg + pageHdr + (align (a.page pg).used + need)
      omega
    · intro y hy
      rw [List.mem_cons, List.mem_singleton] at hy
      rcases hy with rfl | rfl
      · unfold tail
        rw [hself]
        constructor
        · show pg + pageHdr + (a.page pg).used ≤ pg + pageHdr + (align (a.page pg).used + need)
          omega
        · show pg + pageHdr + (align (a.page pg).used + need) +
            ((a.page pg).cap - (align (a.page pg).used + need)) ≤
            pg + pageHdr + (a.page pg).used + ((a.page pg).cap - (a.page pg).used)
          omega
      · constructor
        · show pg + pageHdr + (a.page pg).used ≤ pg + pageHdr + align (a.page pg).used
          omega
        · show pg + pageHdr + align (a.page pg).used + need ≤
            pg + pageHdr + (a.page pg).used + ((a.page pg).cap - (a.page pg).used)
          omega
  · rw [← hpage']
    intro g hg
    rw [hcap]
    by_cases hi : g = pg
    · rw [hi, hself]
      exact hroom
    · rw [hother g hi]
      exact h.used g hg
  · rw [← hpage', hblock]
    intro e he
    rcases List.mem_cons.mp he with rfl | he
    · refine ⟨pg, hpg, ?_, ?_⟩
      · show pg ≤ pg + pageHdr + align (a.page pg).used
        omega
      · show pg + pageHdr + align (a.page pg).used + need ≤ pg + (pageHdr + (a.page pg).cap)
        omega
    · exact h.inside e he
  · rw [← hpage', hblock]
    exact h.buffer
  · rw [← hpage', hblock]
    exact h.held
  · exact h.one
  · exact h.made

/-! ## New pages -/

/-- A page the backing gives is none of those there are, and apart from all they hold. -/
theorem Layout.fresh (h : Layout a H F S P) (hd : a.dynamic = true) {np psz : Nat} (hpos : 0 < psz)
    (hap : ∀ e ∈ a.held, Extent.Apart ⟨np, psz⟩ e) :
    np ∉ S ++ (H ++ P) ∧ ∀ x : Extent, x.Inside ⟨np, psz⟩ → ∀ e ∈ leaves a.page H F S P, x.Apart e := by
  refine ⟨fun hmem => ?_, fun x hx e he => ?_⟩
  · have hheld : block a.page np ∈ a.held := (h.held hd).mem_iff.mpr (List.mem_map_of_mem hmem)
    have hlen : 0 < (block a.page np).len := Nat.add_pos_left (by decide) _
    exact apart_off_ne (hap _ hheld) hpos hlen rfl
  · obtain ⟨y, hy, hin⟩ := h.leaf_held hd he
    exact (hap y hy).mono hx hin

/-- Where the pages keep their room and what is used of it, all that lies in them stays. -/
theorem Layout.same (h : Layout a H F S P) {page' : Nat → Page}
    (hsame : ∀ i ∈ S ++ (H ++ P), (page' i).cap = (a.page i).cap ∧ (page' i).used = (a.page i).used) :
    (∀ F', leaves page' H F' S P = leaves a.page H F' S P) ∧
      (∀ g ∈ S, (page' g).used ≤ (page' g).cap) ∧ (∀ e ∈ F, ∃ g ∈ S, e.Inside (block page' g)) ∧
      ∀ i ∈ S ++ (H ++ P), block page' i = block a.page i := by
  have hS : ∀ g ∈ S, (page' g).cap = (a.page g).cap ∧ (page' g).used = (a.page g).used := fun g hg =>
    hsame g (List.mem_append_left _ hg)
  refine ⟨fun F' => leaves_congr (fun i hi => (hsame i (List.mem_append_right S hi)).1) hS, fun g hg => ?_,
    fun e he => ?_, fun i hi => block_congr (hsame i hi).1⟩
  · rw [(hS g hg).1, (hS g hg).2]
    exact h.used g hg
  · obtain ⟨g, hg, hin⟩ := h.inside e he
    exact ⟨g, hg, (block_congr (hS g hg).1).symm ▸ hin⟩

/-- A page put first on a list and given its room: the rest, and the lists. -/
theorem put_front {page page' : Nat → Page} {head : Option Nat} {np : Nat} {l : List Nat}
    {f : Page → Page} (hl : (listAt page head).Both l) (hnew : np ∉ l)
    (hpage : page' = upd (linkFront page head np) np f)
    (hf : ∀ p, (f p).next = p.next ∧ (f p).prev = p.prev) :
    (∀ i, i ≠ np → (page' i).cap = (page i).cap ∧ (page' i).used = (page i).used) ∧
    (listAt page' (some np)).Both (np :: l) ∧
    ∀ {head' m}, (listAt page head').Both m → np ∉ m → (∀ i ∈ m, i ∉ l) →
      (listAt page' head').Both m := by
  subst hpage
  refine ⟨fun i hi => ?_, upd_both (linkFront_both hl hnew) fun _ => hf _, fun hm hnm hd =>
    upd_both (linkFront_apart hl hm hnm hd) fun _ => hf _⟩
  rw [upd_other _ hi]
  exact (linkFront_links (head_ne hl hnew) i).2.2

theorem mem_owned {d : Bool} {i : Nat} (hi : i ∈ if d = true then H else []) : i ∈ H := by
  cases d with
  | false => exact absurd hi List.not_mem_nil
  | true => exact hi

/-- The leaves with a new shared page. -/
theorem leaves_cons_shared (page : Nat → Page) (H : List Nat) (F : List Extent) (S P : List Nat)
    (g : Nat) : (leaves page H F (g :: S) P).Perm
      ([front g, tail page g] ++ leaves page H F S P) := by
  refine List.perm_iff_count.mpr fun e => ?_
  unfold leaves
  simp only [List.count_append, List.map_cons, List.count_cons, List.count_nil]
  omega

/-- A shared page of `psz` bytes put first. -/
theorem addShared_layout (h : Layout a H F S P) (hd : a.dynamic = true) {np psz : Nat}
    (hsz : pageHdr ≤ psz) (hlt : psz < 2 ^ 64) (hap : ∀ e ∈ a.held, Extent.Apart ⟨np, psz⟩ e) :
    Layout (a.addShared np psz) H F (np :: S) P ∧
      (((a.addShared np psz).page np).cap = psz - pageHdr ∧ ((a.addShared np psz).page np).used = 0) ∧
      (∀ i ∈ H ++ P, ((a.addShared np psz).page i).cap = (a.page i).cap) ∧
      ∀ g ∈ S, ((a.addShared np psz).page g).used = (a.page g).used := by
  obtain ⟨hnew, hfar⟩ := h.fresh hd (Nat.lt_of_lt_of_le (by decide) hsz) hap
  have hne : ∀ i ∈ S ++ (H ++ P), i ≠ np := fun i hi heq => hnew (heq ▸ hi)
  rw [List.mem_append, List.mem_append, not_or, not_or] at hnew
  obtain ⟨hnS, hnH, hnP⟩ := hnew
  obtain ⟨-, -, hSHP⟩ := List.nodup_append.mp h.nodup
  have hsub : wsub psz pageHdr = psz - pageHdr := by
    unfold wsub pageHdr at *
    omega
  obtain ⟨page', hpage'⟩ : ∃ page', page' = (a.addShared np psz).page := ⟨_, rfl⟩
  have hself : (page' np).cap = psz - pageHdr ∧ (page' np).used = 0 := by
    rw [hpage']
    exact ⟨(congrArg Page.cap (if_pos rfl)).trans hsub, congrArg Page.used (if_pos rfl)⟩
  obtain ⟨hother, hfirst, hlists⟩ := put_front h.shared hnS
    (f := fun p => { p with cap := wsub psz pageHdr, used := 0 }) hpage' fun _ => ⟨rfl, rfl⟩
  obtain ⟨hleaves, hused, hinside, hblock⟩ := h.same fun i hi => hother i (hne i hi)
  refine ⟨⟨hpage' ▸ hfirst, hpage' ▸ hlists h.owned (fun hi => hnH (mem_owned hi)) ?_,
    hpage' ▸ hlists h.pool hnP ?_, ?_, ?_, ?_, ?_, ?_, ?_, ?_⟩, hpage' ▸ hself, fun i hi => ?_,
    fun g hg => ?_⟩
  · exact fun i hi hS => hSHP i hS i (List.mem_append_left P (mem_owned hi)) rfl
  · exact fun i hi hS => hSHP i hS i (List.mem_append_right H hi) rfl
  · rw [← hpage']
    refine (apart_perm (leaves_cons_shared page' H F S P np)).mpr ?_
    rw [hleaves]
    -- the new page is a header and a tail, and both are in it
    have hfront : (front np).Inside ⟨np, psz⟩ := ⟨Nat.le_refl _, Nat.add_le_add_left hsz np⟩
    have htail : (tail page' np).Inside ⟨np, psz⟩ := by
      unfold tail
      rw [hself.1, hself.2]
      constructor
      · show np ≤ np + pageHdr + 0
        omega
      · show np + pageHdr + 0 + (psz - pageHdr - 0) ≤ np + psz
        omega
    refine List.pairwise_append.mpr ⟨?_, h.apart, fun x hx e he => ?_⟩
    · refine List.pairwise_cons.mpr ⟨fun y hy => ?_, List.pairwise_singleton _ _⟩
      rw [List.mem_singleton.mp hy]
      exact Or.inl (Nat.le_add_right _ _)
    · rw [List.mem_cons, List.mem_singleton] at hx
      rcases hx with rfl | rfl
      · exact hfar _ hfront e he
      · exact hfar _ htail e he
  · rw [← hpage']
    intro g hg
    rcases List.mem_cons.mp hg with rfl | hg
    · rw [hself.2]
      exact Nat.zero_le _
    · exact hused g hg
  · rw [← hpage']
    intro e he
    obtain ⟨g, hg, hin⟩ := hinside e he
    exact ⟨g, List.mem_cons_of_mem np hg, hin⟩
  · exact fun hd' => Bool.noConfusion (hd.symm.trans hd')
  · intro _
    rw [← hpage']
    have hpiece : block page' np = ⟨np, psz⟩ := by
      unfold block
      rw [hself.1, Nat.add_sub_cancel' hsz]
    rw [List.cons_append, List.map_cons, hpiece, List.map_congr_left hblock]
    exact (h.held hd).cons _
  · exact fun hd' => Bool.noConfusion (hd.symm.trans hd')
  · have hm := h.made
    show (np :: S).length + H.length + P.length ≤ a.made + 1
    rw [List.length_cons]
    omega
  · rw [← hpage']
    exact (hother i (hne i (List.mem_append_right S hi))).1
  · rw [← hpage']
    exact (hother g (hne g (List.mem_append_left _ hg))).2

/-- A block page put first. -/
theorem addOwned_layout (h : Layout a H F S P) (hd : a.dynamic = true) {pg cap : Nat}
    (hap : ∀ e ∈ a.held, Extent.Apart ⟨pg, pageHdr + cap⟩ e) :
    Layout (a.addOwned pg cap (pageHdr + cap)) (pg :: H) F S P ∧
      ((a.addOwned pg cap (pageHdr + cap)).page pg).cap = cap ∧ pg ∉ H ++ P ∧
      (∀ i ∈ H ++ P, ((a.addOwned pg cap (pageHdr + cap)).page i).cap = (a.page i).cap) ∧
      ∀ g ∈ S, ((a.addOwned pg cap (pageHdr + cap)).page g).used = (a.page g).used := by
  obtain ⟨hnew, hfar⟩ := h.fresh hd (Nat.add_pos_left (by decide) cap) hap
  have hne : ∀ i ∈ S ++ (H ++ P), i ≠ pg := fun i hi heq => hnew (heq ▸ hi)
  rw [List.mem_append, List.mem_append, not_or, not_or] at hnew
  obtain ⟨hnS, hnH, hnP⟩ := hnew
  obtain ⟨-, hHP, hSHP⟩ := List.nodup_append.mp h.nodup
  obtain ⟨page', hpage'⟩ : ∃ page', page' = (a.addOwned pg cap (pageHdr + cap)).page := ⟨_, rfl⟩
  have howned : (listAt a.page a.owned).Both H := by
    have ho := h.owned
    rw [hd] at ho
    exact ho
  have hself : (page' pg).cap = cap := by
    rw [hpage']
    exact congrArg Page.cap (if_pos rfl)
  obtain ⟨hother, hfirst, hlists⟩ := put_front howned hnH
    (f := fun q => { q with cap := cap, used := cap }) hpage' fun _ => ⟨rfl, rfl⟩
  obtain ⟨hleaves, hused, hinside, hblock⟩ := h.same fun i hi => hother i (hne i hi)
  have hpiece : block page' pg = ⟨pg, pageHdr + cap⟩ := by
    unfold block
    rw [hself]
  refine ⟨⟨hpage' ▸ hlists h.shared hnS ?_, ?_, hpage' ▸ hlists h.pool hnP ?_, ?_, hpage' ▸ hused,
    hpage' ▸ hinside, ?_, ?_, h.one, ?_⟩, hpage' ▸ hself,
    fun hmem => hne pg (List.mem_append_right S hmem) rfl, fun i hi => ?_, fun g hg => ?_⟩
  · exact fun i hi hH => hSHP i hi i (List.mem_append_left P hH) rfl
  · show (listAt (a.addOwned pg cap (pageHdr + cap)).page (some pg)).Both
      (if a.dynamic = true then pg :: H else [])
    rw [if_pos hd, ← hpage']
    exact hfirst
  · exact fun i hi hH => (List.nodup_append.mp hHP).2.2 i hH i hi rfl
  · rw [← hpage']
    have hsplit : leaves page' (pg :: H) F S P = block page' pg :: leaves page' H F S P := rfl
    rw [hsplit, hleaves, hpiece]
    exact List.pairwise_cons.mpr ⟨hfar _ ⟨Nat.le_refl _, Nat.le_refl _⟩, h.apart⟩
  · exact fun hd' => Bool.noConfusion (hd.symm.trans hd')
  · intro _
    rw [← hpage']
    have hmid : (S ++ (pg :: H ++ P)).Perm (pg :: (S ++ (H ++ P))) := List.perm_middle
    refine List.Perm.trans ?_ (hmid.map (block page')).symm
    rw [List.map_cons, hpiece, List.map_congr_left hblock]
    exact (h.held hd).cons _
  · have hm := h.made
    show S.length + (pg :: H).length + P.length ≤ a.made + 1
    rw [List.length_cons]
    omega
  · rw [← hpage']
    exact (hother i (hne i (List.mem_append_right S hi))).1
  · rw [← hpage']
    exact (hother g (hne g (List.mem_append_left _ hg))).2

/-- In static mode a block is a piece of the buffer. -/
theorem addBumped_layout {pg cap : Nat} (h : Layout a H (⟨pg, pageHdr + cap⟩ :: F) S P)
    (hd : a.dynamic = false) :
    Layout (a.addBumped pg cap) (pg :: H) F S P ∧ ((a.addBumped pg cap).page pg).cap = cap ∧
      pg ∉ H ++ P ∧ (∀ i ∈ H ++ P, ((a.addBumped pg cap).page i).cap = (a.page i).cap) ∧
      ∀ g ∈ S, ((a.addBumped pg cap).page g).used = (a.page g).used := by
  have hpiece : (⟨pg, pageHdr + cap⟩ : Extent) ∈ leaves a.page H (⟨pg, pageHdr + cap⟩ :: F) S P :=
    mem_leaves.mpr (Or.inr (Or.inl List.mem_cons_self))
  obtain ⟨page', hpage'⟩ : ∃ page', page' = (a.addBumped pg cap).page := ⟨_, rfl⟩
  have hself : (page' pg).cap = cap := by
    rw [hpage']
    exact congrArg Page.cap (if_pos rfl)
  have hother : ∀ i, i ≠ pg → page' i = a.page i := by
    intro i hi
    rw [hpage']
    exact if_neg hi
  -- the piece comes first, and nothing else starts where it does
  have hfirst : (leaves a.page H (⟨pg, pageHdr + cap⟩ :: F) S P).Perm
      (⟨pg, pageHdr + cap⟩ :: leaves a.page H F S P) := List.perm_middle
  have hapart := List.pairwise_cons.mp ((apart_perm hfirst).mp h.apart)
  have hne : ∀ i ∈ S ++ (H ++ P), i ≠ pg := by
    intro i hi heq
    have hlen : 0 < pageHdr + cap := Nat.add_pos_left (by decide) cap
    rcases List.mem_append.mp hi with hi | hi
    · have hx := hapart.1 (front i) (mem_leaves.mpr (Or.inr (Or.inr (Or.inl ⟨i, hi, rfl⟩))))
      exact apart_off_ne hx hlen (Nat.zero_lt_succ 31) heq.symm
    · have hx := hapart.1 (block a.page i) (mem_leaves.mpr (Or.inl ⟨i, hi, rfl⟩))
      exact apart_off_ne hx hlen (Nat.add_pos_left (by decide) _) heq.symm
  have hlinks : ∀ {head l}, (∀ i ∈ l, i ∈ S ++ (H ++ P)) → (listAt a.page head).Both l →
      (listAt page' head).Both l := by
    intro head l hin hl
    refine both_congr hl fun i hi => ?_
    rw [hother i (hne i (hin i hi))]
    exact ⟨rfl, rfl⟩
  have hsame : ∀ i ∈ S ++ (H ++ P), (page' i).cap = (a.page i).cap ∧ (page' i).used = (a.page i).used :=
    fun i hi => hother i (hne i hi) ▸ ⟨rfl, rfl⟩
  obtain ⟨hleaves, hused, hinside, hblock⟩ := h.same hsame
  have hb : block page' pg = ⟨pg, pageHdr + cap⟩ := by
    unfold block
    rw [hself]
  refine ⟨⟨hpage' ▸ hlinks (fun i hi => List.mem_append_left _ hi) h.shared, ?_,
    hpage' ▸ hlinks (fun i hi => List.mem_append_right S (List.mem_append_right H hi)) h.pool, ?_,
    hpage' ▸ hused, hpage' ▸ fun e he => hinside e (List.mem_cons_of_mem _ he), ?_, ?_, h.one, ?_⟩,
    hpage' ▸ hself, fun hmem => hne pg (List.mem_append_right S hmem) rfl, fun i hi => ?_,
    fun g hg => ?_⟩
  · have ho := h.owned
    show (listAt (a.addBumped pg cap).page a.owned).Both (if a.dynamic = true then pg :: H else [])
    rw [hd] at ho ⊢
    exact hpage' ▸ hlinks (fun i hi => absurd hi List.not_mem_nil) ho
  · rw [← hpage']
    have hsplit : leaves page' (pg :: H) F S P = block page' pg :: leaves page' H F S P := rfl
    rw [hsplit, hleaves, hb]
    exact List.pairwise_cons.mpr hapart
  · rw [← hpage']
    intro _ i hi
    rcases List.mem_cons.mp hi with rfl | hi
    · rw [hb]
      exact hinside _ List.mem_cons_self
    · obtain ⟨g, hg, hin⟩ := h.buffer hd i hi
      refine ⟨g, hg, ?_⟩
      rw [hblock g (List.mem_append_left _ hg), hblock i (List.mem_append_right S hi)]
      exact hin
  · exact fun hd' => Bool.noConfusion (hd.symm.trans hd')
  · have hm := h.made
    show S.length + (pg :: H).length + P.length ≤ a.made + 1
    rw [List.length_cons]
    omega
  · rw [← hpage']
    exact (hsame i (List.mem_append_right S hi)).1
  · rw [← hpage']
    exact (hsame g (List.mem_append_left _ hg)).2

/-! ## Blocks that change hands -/

/-- Other lists over the same pages. -/
theorem Layout.move {b : RantAllocator} {H' P' : List Nat} (h : Layout a H F S P)
    (hperm : (H' ++ P').Perm (H ++ P)) (hcap : ∀ i, (b.page i).cap = (a.page i).cap)
    (hused : ∀ g ∈ S, (b.page g).used = (a.page g).used)
    (hshared : (listAt b.page b.shared).Both S)
    (howned : (listAt b.page b.owned).Both (if b.dynamic = true then H' else []))
    (hpool : (listAt b.page b.freePool).Both P') (hd : b.dynamic = a.dynamic)
    (hheld : b.held = a.held) (hmade : b.made = a.made) : Layout b H' F S P' := by
  have hblock : block b.page = block a.page := funext fun i => block_congr (hcap i)
  have htail : S.map (tail b.page) = S.map (tail a.page) :=
    List.map_congr_left fun g hg => tail_congr (hcap g) (hused g hg)
  constructor
  · exact hshared
  · exact howned
  · exact hpool
  · refine (apart_perm ?_).mp h.apart
    unfold leaves
    rw [hblock, htail]
    exact (hperm.symm.map _).append_right _
  · intro g hg
    rw [hcap, hused g hg]
    exact h.used g hg
  · rw [hblock]
    exact h.inside
  · rw [hblock]
    exact fun hdyn i hi => h.buffer (hd ▸ hdyn) i (hperm.mem_iff.mp hi)
  · intro hdyn
    rw [hheld, hblock]
    exact (h.held (hd ▸ hdyn)).trans ((hperm.symm.append_left S).map _)
  · intro hdyn
    exact h.one (hd ▸ hdyn)
  · have hm := h.made
    have hlen := hperm.length_eq
    rw [List.length_append, List.length_append] at hlen
    rw [hmade]
    omega

/-- The lists share no page. -/
theorem Layout.lists_apart (h : Layout a H F S P) :
    (∀ i ∈ S, i ∉ H ∧ i ∉ P) ∧ (∀ i ∈ H, i ∉ P) ∧ H.Nodup ∧ P.Nodup := by
  obtain ⟨-, hHP, hSHP⟩ := List.nodup_append.mp h.nodup
  obtain ⟨hH, hP, hcross⟩ := List.nodup_append.mp hHP
  refine ⟨fun i hi => ⟨fun hiH => ?_, fun hiP => ?_⟩, fun i hi hiP => ?_, hH, hP⟩
  · exact hSHP i hi i (List.mem_append_left P hiH) rfl
  · exact hSHP i hi i (List.mem_append_right H hiP) rfl
  · exact hcross i hi i hiP rfl

/-- A pooled block goes out again. -/
theorem reuse_layout (h : Layout a H F S P) {best : Nat} (hbest : best ∈ P) :
    Layout (a.reuse best) (best :: H) F S (P.erase best) ∧
      (∀ i, ((a.reuse best).page i).cap = (a.page i).cap) ∧
      ∀ g ∈ S, ((a.reuse best).page g).used = (a.page g).used := by
  obtain ⟨hS, hHP, hH, hP⟩ := h.lists_apart
  obtain ⟨f, r, rfl⟩ := List.append_of_mem hbest
  have hf : best ∉ f := fun hmem =>
    (List.nodup_append.mp hP).2.2 best hmem best List.mem_cons_self rfl
  have herase : (f ++ best :: r).erase best = f ++ r := by
    rw [List.erase_append_right _ hf, List.erase_cons_head]
  rw [herase]
  have hsub : ∀ i ∈ f ++ r, i ∈ f ++ best :: r := by
    intro i hi
    rcases List.mem_append.mp hi with hi | hi
    · exact List.mem_append_left _ hi
    · exact List.mem_append_right _ (List.mem_cons_of_mem best hi)
  have hbestH : best ∉ H := fun hmem => hHP best hmem hbest
  have hbestS : best ∉ S := fun hmem => (hS best hmem).2 hbest
  have hbestP : best ∉ f ++ r := (List.nodup_cons.mp (List.nodup_middle.mp hP)).1
  have hperm : (best :: H ++ (f ++ r)).Perm (H ++ (f ++ best :: r)) := by
    refine List.perm_iff_count.mpr fun e => ?_
    simp only [List.count_append, List.count_cons, List.cons_append]
    omega
  -- off the pool
  have hpool := unlinkPage_both h.pool
  have hshared := unlinkPage_apart h.pool h.shared hbest fun i hi => (hS i hi).2
  have howned := unlinkPage_apart h.pool h.owned hbest fun i hi => hHP i (mem_owned hi)
  have hroom := fun i => (@unlinkPage_fields a.page best i).2.2
  obtain ⟨page1, hpage1⟩ : ∃ page1, page1 = unlinkPage a.page best := ⟨_, rfl⟩
  rw [← hpage1] at hpool hshared howned hroom
  obtain ⟨hs, hp, hdyn, hheld, hmade⟩ : (a.reuse best).shared = a.shared ∧
      (a.reuse best).freePool = (if (a.page best).prev = none then (a.page best).next else a.freePool) ∧
      (a.reuse best).dynamic = a.dynamic ∧ (a.reuse best).held = a.held ∧
      (a.reuse best).made = a.made := by
    unfold RantAllocator.reuse RantAllocator.count
    dsimp only
    split <;> exact ⟨rfl, rfl, rfl, rfl, rfl⟩
  cases hd : a.dynamic with
  | true =>
    rw [hd] at howned
    have howned : (listAt page1 a.owned).Both H := howned
    have hlinks := @linkFront_links page1 _ _ (head_ne howned hbestH)
    have hpage : (a.reuse best).page = upd (linkFront page1 a.owned best) best
        fun q => { q with used := (a.page best).cap } := by
      unfold RantAllocator.reuse RantAllocator.count
      rw [hpage1]
      dsimp only
      rw [if_pos hd]
    have ho : (a.reuse best).owned = some best := by
      unfold RantAllocator.reuse RantAllocator.count
      dsimp only
      rw [if_pos hd]
    have hcap : ∀ i, ((a.reuse best).page i).cap = (a.page i).cap := by
      intro i
      rw [hpage, ← (hroom i).1, ← (hlinks i).2.2.1]
      by_cases hi : i = best
      · rw [hi, upd_self]
      · rw [upd_other _ hi]
    have hused : ∀ g ∈ S, ((a.reuse best).page g).used = (a.page g).used := by
      intro g hg
      have hg' : g ≠ best := fun heq => hbestS (heq ▸ hg)
      rw [hpage, upd_other _ hg', (hlinks g).2.2.2, (hroom g).2]
    refine ⟨h.move hperm hcap hused ?_ ?_ ?_ hdyn hheld hmade, hcap, hused⟩
    · rw [hpage, hs]
      exact upd_both (linkFront_apart howned hshared hbestS fun i hi => (hS i hi).1)
        fun _ => ⟨rfl, rfl⟩
    · rw [hpage, ho, hdyn, if_pos hd]
      exact upd_both (linkFront_both howned hbestH) fun _ => ⟨rfl, rfl⟩
    · rw [hpage, hp]
      refine upd_both (linkFront_apart howned hpool hbestP fun i hi hiH => ?_) fun _ => ⟨rfl, rfl⟩
      exact hHP i hiH (hsub i hi)
  | false =>
    rw [hd] at howned
    have hpage : (a.reuse best).page = upd (upd page1 best fun q => { q with prev := none, next := none })
        best fun q => { q with used := (a.page best).cap } := by
      unfold RantAllocator.reuse RantAllocator.count
      rw [hpage1]
      dsimp only
      rw [if_neg (by rw [hd]; exact Bool.false_ne_true)]
    have ho : (a.reuse best).owned = a.owned := by
      unfold RantAllocator.reuse RantAllocator.count
      dsimp only
      rw [if_neg (by rw [hd]; exact Bool.false_ne_true)]
    have hcap : ∀ i, ((a.reuse best).page i).cap = (a.page i).cap := by
      intro i
      rw [hpage, ← (hroom i).1]
      by_cases hi : i = best
      · rw [hi, upd_self, upd_self]
      · rw [upd_other _ hi, upd_other _ hi]
    have hkeep : ∀ {head l}, best ∉ l → (listAt page1 head).Both l →
        (listAt (a.reuse best).page head).Both l := by
      intro head l hl hb
      rw [hpage]
      exact upd_both (upd_both hb fun hmem => absurd hmem hl) fun hmem => absurd hmem hl
    have hused : ∀ g ∈ S, ((a.reuse best).page g).used = (a.page g).used := by
      intro g hg
      have hg' : g ≠ best := fun heq => hbestS (heq ▸ hg)
      rw [hpage, upd_other _ hg', upd_other _ hg', (hroom g).2]
    refine ⟨h.move hperm hcap hused ?_ ?_ ?_ hdyn hheld hmade, hcap, hused⟩
    · rw [hs]
      exact hkeep hbestS hshared
    · rw [ho, hdyn, hd]
      exact hkeep List.not_mem_nil howned
    · rw [hp]
      exact hkeep hbestP hpool

/-- A block goes to the pool. -/
theorem freeOwned_layout (h : Layout a H F S P) {pg : Nat} (hpg : pg ∈ H) :
    Layout (a.freeOwned pg) (H.erase pg) F S (pg :: P) ∧
      (∀ i, ((a.freeOwned pg).page i).cap = (a.page i).cap) ∧
      ∀ i, ((a.freeOwned pg).page i).used = (a.page i).used := by
  obtain ⟨hS, hHP, hH, hP⟩ := h.lists_apart
  have hpgP : pg ∉ P := hHP pg hpg
  have hpgS : pg ∉ S := fun hmem => (hS pg hmem).1 hpg
  have hperm : (H.erase pg ++ pg :: P).Perm (H ++ P) :=
    List.perm_middle.trans ((List.perm_cons_erase hpg).symm.append_right P)
  -- what the pool is pushed onto
  obtain ⟨page1, hpage1⟩ : ∃ page1, page1 = if a.dynamic = true then unlinkPage a.page pg else a.page :=
    ⟨_, rfl⟩
  have hrest : (listAt page1 a.shared).Both S ∧ (listAt page1 a.freePool).Both P ∧
      (listAt page1 (if a.dynamic = true then
        (if (a.page pg).prev = none then (a.page pg).next else a.owned) else a.owned)).Both
          (if a.dynamic = true then H.erase pg else []) ∧
      ∀ i, (page1 i).cap = (a.page i).cap ∧ (page1 i).used = (a.page i).used := by
    rw [hpage1]
    have ho := h.owned
    cases hd : a.dynamic with
    | false =>
      rw [hd] at ho
      exact ⟨h.shared, h.pool, ho, fun i => ⟨rfl, rfl⟩⟩
    | true =>
      rw [hd] at ho
      have ho : (listAt a.page a.owned).Both H := ho
      refine ⟨unlinkPage_apart ho h.shared hpg fun i hi => (hS i hi).1,
        unlinkPage_apart ho h.pool hpg fun i hi hiH => hHP i hiH hi, ?_,
        fun i => (unlinkPage_fields pg i).2.2⟩
      obtain ⟨f, r, rfl⟩ := List.append_of_mem hpg
      have hf : pg ∉ f := fun hmem =>
        (List.nodup_append.mp hH).2.2 pg hmem pg List.mem_cons_self rfl
      have herase : (f ++ pg :: r).erase pg = f ++ r := by
        rw [List.erase_append_right _ hf, List.erase_cons_head]
      rw [herase]
      exact unlinkPage_both ho
  obtain ⟨hshared, hpool, howned, hroom⟩ := hrest
  have hfields : (a.freeOwned pg).page = linkFront page1 a.freePool pg ∧
      (a.freeOwned pg).shared = a.shared ∧ (a.freeOwned pg).freePool = some pg ∧
      (a.freeOwned pg).owned = (if a.dynamic = true then
        (if (a.page pg).prev = none then (a.page pg).next else a.owned) else a.owned) ∧
      (a.freeOwned pg).dynamic = a.dynamic ∧ (a.freeOwned pg).held = a.held ∧
      (a.freeOwned pg).made = a.made := by
    rw [hpage1]
    unfold RantAllocator.freeOwned
    dsimp only
    cases a.dynamic with
    | false => exact ⟨rfl, rfl, rfl, rfl, rfl, rfl, rfl⟩
    | true => exact ⟨rfl, rfl, rfl, rfl, rfl, rfl, rfl⟩
  obtain ⟨hpage, hs, hp, ho, hdyn, hheld, hmade⟩ := hfields
  have hne : a.freePool ≠ some pg := by
    intro heq
    have hhead : a.freePool = P.head? := h.pool.forward.head_eq
    exact hpgP (List.mem_of_head? (hhead.symm.trans heq))
  have hlinks := @linkFront_links page1 _ _ hne
  have hcap : ∀ i, ((a.freeOwned pg).page i).cap = (a.page i).cap := by
    intro i
    rw [hpage, (hlinks i).2.2.1, (hroom i).1]
  have hused : ∀ i, ((a.freeOwned pg).page i).used = (a.page i).used := by
    intro i
    rw [hpage, (hlinks i).2.2.2, (hroom i).2]
  refine ⟨h.move hperm hcap (fun g _ => hused g) ?_ ?_ ?_ hdyn hheld hmade, hcap, hused⟩
  · rw [hpage, hs]
    exact linkFront_apart hpool hshared hpgS fun i hi => (hS i hi).2
  · have hin : ∀ i ∈ (if a.dynamic = true then H.erase pg else []), i ∈ H.erase pg :=
      fun i hi => mem_owned hi
    rw [hpage, ho, hdyn]
    refine linkFront_apart hpool howned (fun hmem => ?_) fun i hi => ?_
    · exact List.Nodup.not_mem_erase hH (hin pg hmem)
    · exact hHP i (List.mem_of_mem_erase (hin i hi))
  · rw [hpage, hp]
    exact linkFront_both hpool hpgP

/-! ## Reset -/

/-- The walk of a list. -/
theorem walk_of {page : Nat → Page} : ∀ {l : List Nat} {head : Option Nat} {n : Nat},
    Links.From (fun i => (page i).next) head l → l.length ≤ n → walk page n head = l
  | [], head, n, hl, _ => by
    have hl : head = none := hl
    subst hl
    cases n <;> rfl
  | h :: l, head, 0, _, hlen => absurd hlen (Nat.not_succ_le_zero _)
  | h :: l, head, n + 1, ⟨hh, hl⟩, hlen => by
    subst hh
    show h :: walk page n (page h).next = h :: l
    rw [walk_of hl (Nat.le_of_succ_le_succ hlen)]

/-- The three walks of an allocator. -/
theorem Layout.walks (h : Layout a H F S P) : walk a.page a.made a.shared = S ∧
    walk a.page a.made a.owned = (if a.dynamic = true then H else []) ∧
    walk a.page a.made a.freePool = P := by
  have hm := h.made
  refine ⟨walk_of h.shared.forward (by omega), walk_of h.owned.forward ?_,
    walk_of h.pool.forward (by omega)⟩
  cases a.dynamic with
  | false => exact Nat.zero_le _
  | true =>
    show H.length ≤ a.made
    omega

/-- A dynamic reset gives everything back. -/
theorem reset_dynamic (h : Layout a H F S P) (hd : a.dynamic = true) :
    Layout a.reset [] [] [] [] ∧ a.reset.held = [] := by
  obtain ⟨hwS, hwH, hwP⟩ := h.walks
  rw [if_pos hd] at hwH
  have hfields : a.reset.page = a.page ∧ a.reset.shared = none ∧ a.reset.owned = none ∧
      a.reset.freePool = none ∧ a.reset.dynamic = true ∧
      a.reset.held = a.held.filter fun e => !(H ++ P ++ S).contains e.off := by
    unfold RantAllocator.reset
    rw [if_pos hd]
    dsimp only
    rw [hwS, hwH, hwP]
    exact ⟨rfl, rfl, rfl, rfl, hd, rfl⟩
  obtain ⟨-, hs, ho, hp, hdyn, hheld⟩ := hfields
  have hnone : a.reset.held = [] := by
    rw [hheld]
    refine List.filter_eq_nil_iff.mpr fun e he => ?_
    have hmem := (h.held hd).mem_iff.mp he
    obtain ⟨i, hi, rfl⟩ := List.mem_map.mp hmem
    have hin : (H ++ P ++ S).contains (block a.page i).off = true := by
      rw [List.contains_iff_mem, block_off]
      exact (List.mem_append.mp hi).elim (List.mem_append_right _) (List.mem_append_left _)
    rw [hin]
    exact Bool.false_ne_true
  refine ⟨?_, hnone⟩
  constructor
  · rw [hs]
    exact ⟨rfl, trivial⟩
  · rw [ho, hdyn]
    exact ⟨rfl, trivial⟩
  · rw [hp]
    exact ⟨rfl, trivial⟩
  · exact List.Pairwise.nil
  · exact fun g hg => absurd hg List.not_mem_nil
  · exact fun e he => absurd he List.not_mem_nil
  · exact fun _ i hi => absurd hi List.not_mem_nil
  · intro _
    rw [hnone]
    exact List.Perm.nil
  · intro _
    exact Nat.zero_le _
  · exact Nat.zero_le _

/-- A static reset leaves the buffer, unused. -/
theorem reset_static (h : Layout a H F S P) (hd : a.dynamic = false) (hne : S ≠ []) :
    Layout a.reset [] [] S [] ∧ (∀ g ∈ S, (a.reset.page g).used = 0) ∧ a.reset.held = a.held := by
  obtain ⟨pg, hS⟩ : ∃ pg, S = [pg] := by
    have hone := h.one hd
    cases S with
    | nil => exact absurd rfl hne
    | cons pg r =>
      rw [List.length_cons] at hone
      exact ⟨pg, congrArg (pg :: ·) (List.length_eq_zero_iff.mp (by omega))⟩
  subst hS
  have hs : a.shared = some pg := h.shared.forward.head_eq
  have hfields : a.reset.page = (upd a.page pg fun p => { p with used := 0 }) ∧
      a.reset.shared = some pg ∧ a.reset.owned = a.owned ∧ a.reset.freePool = none ∧
      a.reset.dynamic = false ∧ a.reset.made = a.made ∧ a.reset.held = a.held := by
    unfold RantAllocator.reset
    rw [if_neg (by rw [hd]; exact Bool.false_ne_true), hs]
    exact ⟨rfl, rfl, rfl, rfl, hd, rfl, rfl⟩
  obtain ⟨hpage, hs', ho, hp, hdyn, hmade, hheld⟩ := hfields
  have hown := h.owned
  rw [hd] at hown
  have hused : ∀ g ∈ [pg], (a.reset.page g).used = 0 := by
    intro g hg
    rw [List.mem_singleton.mp hg, hpage, upd_self]
  refine ⟨?_, hused, hheld⟩
  constructor
  · rw [hpage, hs', ← hs]
    exact upd_both h.shared fun _ => ⟨rfl, rfl⟩
  · rw [hpage, ho, hdyn]
    exact upd_both hown fun _ => ⟨rfl, rfl⟩
  · rw [hp]
    exact ⟨rfl, trivial⟩
  · show [front pg, tail a.reset.page pg].Pairwise Extent.Apart
    refine List.pairwise_cons.mpr ⟨fun y hy => ?_, List.pairwise_singleton _ _⟩
    rw [List.mem_singleton.mp hy]
    exact Or.inl (Nat.le_add_right _ _)
  · intro g hg
    rw [hused g hg]
    exact Nat.zero_le _
  · exact fun e he => absurd he List.not_mem_nil
  · exact fun _ i hi => absurd hi List.not_mem_nil
  · intro hd'
    exact absurd (hdyn.symm.trans hd') Bool.false_ne_true
  · exact fun _ => Nat.le_refl 1
  · have hm := h.made
    show 1 + 0 + 0 ≤ _
    rw [hmade]
    rw [List.length_singleton] at hm
    omega

end Rant.Memory
