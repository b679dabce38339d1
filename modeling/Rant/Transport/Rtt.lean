import Rant.Transport.Types
import Mathlib.Data.List.MinMax
/-!
# The round trip estimator over a run

`src/transport/core.c`: the smoothed value and the deviation are folded by truncating divisions, one
sample after the other. `Estimates` bounds both by the samples seen so far. `rttSampleWide` and
`rttRtoWide` are the two functions in the widths of the source: `none` is a value that does not fit.
-/

namespace Rant.Transport

/-- A sample as the estimator takes it. -/
def rttCut (sampleUs : Nat) : Nat := min sampleUs 0xFFFFFFFF

/-- The estimate after a run of samples. -/
def rttRun (samples : List Nat) : PeerRtt := samples.foldl rttSample {}

/-! ## In the source's widths -/

/-- A value of `w` bits. -/
def held (w x : Nat) : Option Nat := if x < 2 ^ w then some x else none

/-- `i_rant_rtt_sample`, each intermediate in its width. -/
def rttSampleWide (e : PeerRtt) (sampleUs : Nat) : Option PeerRtt := do
  let r ← held 32 (if sampleUs > 0xFFFFFFFF then 0xFFFFFFFF else sampleUs)
  let e' ←
    if e.samples = 0 then some { e with rttUs := r, jitterUs := r / 2, minUs := r }
    else do
      let diff ← held 32 (if r < e.rttUs then e.rttUs - r else r - e.rttUs)
      let j3 ← held 64 (3 * e.jitterUs)
      let jsum ← held 64 (j3 + diff)
      let jitter ← held 32 (jsum / 4)
      let s7 ← held 64 (7 * e.rttUs)
      let ssum ← held 64 (s7 + r)
      let smoothed ← held 32 (ssum / 8)
      some { e with jitterUs := jitter, rttUs := smoothed, minUs := if r < e.minUs then r else e.minUs }
  let samples ← held 32 (if e.samples ≠ 0xFFFFFFFF then e.samples + 1 else e.samples)
  some { e' with lastUs := r, samples := samples }

/-- `i_rant_rtt_rto`, each intermediate in its width. -/
def rttRtoWide (e : PeerRtt) (fallbackUs : Nat) : Option Nat :=
  if e.samples = 0 then some fallbackUs
  else do
    let var ← held 64 (4 * e.jitterUs)
    let var := if var < rtoGrainUs then rtoGrainUs else var
    let rto ← held 64 (e.rttUs + var)
    let rto := if rto < rtoMinUs then rtoMinUs else rto
    held 32 (if rto > 0xFFFFFFFF then 0xFFFFFFFF else rto)

def rttRunWide (e : PeerRtt) : List Nat → Option PeerRtt
  | [] => some e
  | s :: samples => (rttSampleWide e s).bind fun e' => rttRunWide e' samples

/-! ## What a sample keeps -/

/-- What the estimate says of samples between `lo` and `hi` of which the first was `first`. -/
structure Estimates (e : PeerRtt) (first lo hi : Nat) : Prop where
  above : lo ≤ e.rttUs
  below : e.rttUs ≤ hi
  jitter : e.jitterUs ≤ max (first / 2) (hi - lo)
  smallest : e.minUs = lo
  field : hi < 2 ^ 32
  seen : e.samples ≠ 0
  counted : e.samples < 2 ^ 32

variable {e : PeerRtt} {first lo hi : Nat}

theorem rttCut_lt (s : Nat) : rttCut s < 2 ^ 32 := Nat.lt_of_le_of_lt (Nat.min_le_right _ _) (by decide)

theorem rttCut_eq (s : Nat) : (if s > 0xFFFFFFFF then 0xFFFFFFFF else s) = rttCut s := by
  unfold rttCut
  split
  · rename_i h
    exact (Nat.min_eq_right (Nat.le_of_lt h)).symm
  · rename_i h
    exact (Nat.min_eq_left (Nat.not_lt.mp h)).symm

/-- The first sample seeds both values. -/
theorem Estimates.seed (s : Nat) : Estimates (rttSample {} s) (rttCut s) (rttCut s) (rttCut s) where
  above := Nat.le_refl _
  below := Nat.le_refl _
  jitter := Nat.le_max_left _ _
  smallest := rfl
  field := rttCut_lt s
  seen := Nat.one_ne_zero
  counted := Nat.one_lt_two_pow (by decide)

theorem smoothed_bounds {x r a b : Nat} (hx : a ≤ x ∧ x ≤ b) (hr : a ≤ r ∧ r ≤ b) :
    a ≤ (7 * x + r) / 8 ∧ (7 * x + r) / 8 ≤ b := by
  omega

/-- The deviation never leaves the larger of what it was and the new distance. -/
theorem deviation_le {j d b : Nat} (hj : j ≤ b) (hd : d ≤ b) : (3 * j + d) / 4 ≤ b := by
  omega

/-- A sample after the first. -/
theorem rttSample_next (h : e.samples ≠ 0) (s : Nat) :
    rttSample e s =
      { rttUs := (7 * e.rttUs + rttCut s) / 8
        jitterUs := (3 * e.jitterUs + (if rttCut s < e.rttUs then e.rttUs - rttCut s else rttCut s - e.rttUs)) / 4
        minUs := if rttCut s < e.minUs then rttCut s else e.minUs
        lastUs := rttCut s
        samples := if e.samples ≠ 0xFFFFFFFF then e.samples + 1 else e.samples } := by
  unfold rttSample
  dsimp only
  rw [if_neg h]
  rfl

/-- One sample widens the bounds by itself. -/
theorem Estimates.sample (h : Estimates e first lo hi) (s : Nat) :
    Estimates (rttSample e s) first (min lo (rttCut s)) (max hi (rttCut s)) := by
  have hcut := rttCut_lt s
  have hseen := h.seen
  have hcounted := h.counted
  have hlow : min lo (rttCut s) ≤ e.rttUs ∧ e.rttUs ≤ max hi (rttCut s) :=
    ⟨(Nat.min_le_left _ _).trans h.above, h.below.trans (Nat.le_max_left _ _)⟩
  have hnew : min lo (rttCut s) ≤ rttCut s ∧ rttCut s ≤ max hi (rttCut s) :=
    ⟨Nat.min_le_right _ _, Nat.le_max_right _ _⟩
  have hsmoothed := smoothed_bounds hlow hnew
  have hdiff : (if rttCut s < e.rttUs then e.rttUs - rttCut s else rttCut s - e.rttUs) ≤
      max hi (rttCut s) - min lo (rttCut s) := by
    split <;> omega
  have hspread : hi - lo ≤ max hi (rttCut s) - min lo (rttCut s) := by omega
  have hbound : e.jitterUs ≤ max (first / 2) (max hi (rttCut s) - min lo (rttCut s)) :=
    h.jitter.trans (max_le_max (Nat.le_refl _) hspread)
  rw [rttSample_next hseen]
  exact
    { above := hsmoothed.1
      below := hsmoothed.2
      jitter := deviation_le hbound (hdiff.trans (Nat.le_max_right _ _))
      smallest := by
        show (if rttCut s < e.minUs then rttCut s else e.minUs) = _
        rw [h.smallest]
        split <;> omega
      field := max_lt h.field hcut
      seen := by
        show (if e.samples ≠ 0xFFFFFFFF then e.samples + 1 else e.samples) ≠ 0
        split <;> omega
      counted := by
        show (if e.samples ≠ 0xFFFFFFFF then e.samples + 1 else e.samples) < 2 ^ 32
        split <;> omega }

theorem held_of_lt {w x : Nat} (h : x < 2 ^ w) : held w x = some x := if_pos h

theorem Estimates.jitter_lt (h : Estimates e first lo hi) (hfirst : first < 2 ^ 32) : e.jitterUs < 2 ^ 32 := by
  refine h.jitter.trans_lt (max_lt ?_ ?_)
  · exact (Nat.div_le_self _ _).trans_lt hfirst
  · exact (Nat.sub_le _ _).trans_lt h.field

/-- No intermediate of a sample overflows. -/
theorem Estimates.wide (h : Estimates e first lo hi) (hfirst : first < 2 ^ 32) (s : Nat) :
    rttSampleWide e s = some (rttSample e s) := by
  have hcut := rttCut_lt s
  have hrtt := h.below.trans_lt h.field
  have hjitter := h.jitter_lt hfirst
  have hdiff : (if rttCut s < e.rttUs then e.rttUs - rttCut s else rttCut s - e.rttUs) < 2 ^ 32 := by
    split <;> omega
  have hcount : (if e.samples ≠ 0xFFFFFFFF then e.samples + 1 else e.samples) < 2 ^ 32 := by
    have hcounted := h.counted
    split <;> omega
  unfold rttSampleWide
  rw [rttCut_eq, held_of_lt hcut]
  simp only [Option.bind_eq_bind, Option.bind_some]
  rw [if_neg h.seen, held_of_lt hdiff]
  simp only [Option.bind_some]
  rw [@held_of_lt 64 (3 * e.jitterUs) (by omega)]
  simp only [Option.bind_some]
  generalize hd : (if rttCut s < e.rttUs then e.rttUs - rttCut s else rttCut s - e.rttUs) = diff at hdiff ⊢
  rw [@held_of_lt 64 (3 * e.jitterUs + diff) (by omega)]
  simp only [Option.bind_some]
  rw [@held_of_lt 32 ((3 * e.jitterUs + diff) / 4) (by omega)]
  simp only [Option.bind_some]
  rw [@held_of_lt 64 (7 * e.rttUs) (by omega)]
  simp only [Option.bind_some]
  rw [@held_of_lt 64 (7 * e.rttUs + rttCut s) (by omega)]
  simp only [Option.bind_some]
  rw [@held_of_lt 32 ((7 * e.rttUs + rttCut s) / 8) (by omega)]
  simp only [Option.bind_some]
  rw [held_of_lt hcount]
  simp only [Option.bind_some]
  rw [rttSample_next h.seen, hd]

/-- The timeout is what the source computes, at least the floor and at least one tick over the smoothed
value unless it is saturated. -/
theorem Estimates.rto (h : Estimates e first lo hi) (hfirst : first < 2 ^ 32) (fallbackUs : Nat) :
    rttRtoWide e fallbackUs = some (rttRto e fallbackUs) ∧ rtoMinUs ≤ rttRto e fallbackUs ∧
      (rttRto e fallbackUs = 0xFFFFFFFF ∨ e.rttUs + rtoGrainUs ≤ rttRto e fallbackUs) := by
  have hrtt := h.below.trans_lt h.field
  have hjitter := h.jitter_lt hfirst
  have hvar : (if 4 * e.jitterUs < rtoGrainUs then rtoGrainUs else 4 * e.jitterUs) = max (4 * e.jitterUs) rtoGrainUs := by
    split <;> omega
  have hmax : max (4 * e.jitterUs) rtoGrainUs < 2 ^ 34 + 1000 := by
    unfold rtoGrainUs
    omega
  unfold rttRtoWide rttRto
  rw [if_neg h.seen, if_neg h.seen, @held_of_lt 64 (4 * e.jitterUs) (by omega)]
  simp only [Option.bind_eq_bind, Option.bind_some]
  rw [hvar]
  generalize hv : max (4 * e.jitterUs) rtoGrainUs = var at hmax ⊢
  have hgrain : rtoGrainUs ≤ var := hv ▸ Nat.le_max_right _ _
  rw [@held_of_lt 64 (e.rttUs + var) (by omega)]
  simp only [Option.bind_some]
  have hmin : rtoMinUs ≤ 0xFFFFFFFF := by decide
  refine ⟨?_, by omega, by omega⟩
  have hrto : (if e.rttUs + var < rtoMinUs then rtoMinUs else e.rttUs + var) = max (e.rttUs + var) rtoMinUs := by
    split <;> omega
  rw [hrto, rttCut_eq]
  exact held_of_lt (rttCut_lt _)

/-! ## The run -/

/-- The smallest and the largest of the samples, from the first on. -/
def smallestFrom (lo : Nat) (samples : List Nat) : Nat := samples.foldl (fun a s => min a (rttCut s)) lo
def largestFrom (hi : Nat) (samples : List Nat) : Nat := samples.foldl (fun a s => max a (rttCut s)) hi

theorem smallestFrom_spec (samples : List Nat) : ∀ lo,
    smallestFrom lo samples ≤ lo ∧ (∀ s ∈ samples, smallestFrom lo samples ≤ rttCut s) ∧
      (smallestFrom lo samples = lo ∨ ∃ s ∈ samples, smallestFrom lo samples = rttCut s) := by
  induction samples with
  | nil => exact fun lo => ⟨Nat.le_refl _, fun _ hs => absurd hs List.not_mem_nil, Or.inl rfl⟩
  | cons s samples ih =>
    intro lo
    obtain ⟨hle, hall, hone⟩ := ih (min lo (rttCut s))
    refine ⟨hle.trans (Nat.min_le_left _ _), ?_, ?_⟩
    · intro x hx
      obtain rfl | hx := List.mem_cons.mp hx
      · exact hle.trans (Nat.min_le_right _ _)
      · exact hall x hx
    · obtain heq | ⟨x, hx, heq⟩ := hone
      · obtain hm | hm := Nat.le_total lo (rttCut s)
        · exact Or.inl (heq.trans (Nat.min_eq_left hm))
        · exact Or.inr ⟨s, List.mem_cons_self, heq.trans (Nat.min_eq_right hm)⟩
      · exact Or.inr ⟨x, List.mem_cons_of_mem _ hx, heq⟩

theorem largestFrom_spec (samples : List Nat) : ∀ hi,
    hi ≤ largestFrom hi samples ∧ (∀ s ∈ samples, rttCut s ≤ largestFrom hi samples) ∧
      (largestFrom hi samples = hi ∨ ∃ s ∈ samples, largestFrom hi samples = rttCut s) := by
  induction samples with
  | nil => exact fun hi => ⟨Nat.le_refl _, fun _ hs => absurd hs List.not_mem_nil, Or.inl rfl⟩
  | cons s samples ih =>
    intro hi
    obtain ⟨hle, hall, hone⟩ := ih (max hi (rttCut s))
    refine ⟨(Nat.le_max_left _ _).trans hle, ?_, ?_⟩
    · intro x hx
      obtain rfl | hx := List.mem_cons.mp hx
      · exact (Nat.le_max_right _ _).trans hle
      · exact hall x hx
    · obtain heq | ⟨x, hx, heq⟩ := hone
      · obtain hm | hm := Nat.le_total hi (rttCut s)
        · exact Or.inr ⟨s, List.mem_cons_self, heq.trans (Nat.max_eq_right hm)⟩
        · exact Or.inl (heq.trans (Nat.max_eq_left hm))
      · exact Or.inr ⟨x, List.mem_cons_of_mem _ hx, heq⟩

/-- The bounds over a run, and the run in the source's widths. -/
theorem Estimates.run (hfirst : first < 2 ^ 32) (samples : List Nat) : ∀ {e : PeerRtt} {lo hi : Nat},
    Estimates e first lo hi →
    Estimates (samples.foldl rttSample e) first (smallestFrom lo samples) (largestFrom hi samples) ∧
      rttRunWide e samples = some (samples.foldl rttSample e) := by
  induction samples with
  | nil => exact fun h => ⟨h, rfl⟩
  | cons s samples ih =>
    intro e lo hi h
    obtain ⟨hrun, hwide⟩ := ih (h.sample s)
    refine ⟨hrun, ?_⟩
    unfold rttRunWide
    rw [h.wide hfirst s]
    exact hwide

/-- The first sample in the source's widths. -/
theorem rttSampleWide_first (s : Nat) : rttSampleWide {} s = some (rttSample {} s) := by
  unfold rttSampleWide
  rw [rttCut_eq, held_of_lt (rttCut_lt s)]
  rfl

/-- After any run of samples the smoothed value is between the smallest and the largest of them, the
deviation within half the first or their spread, the minimum the smallest, and the timeout over the
floor and over the smoothed value, no intermediate having overflowed. -/
theorem estimator_bounded (s : Nat) (samples : List Nat) (fallbackUs : Nat) :
    ∃ lo hi, (∀ x ∈ s :: samples, lo ≤ rttCut x ∧ rttCut x ≤ hi) ∧
      (∃ x ∈ s :: samples, lo = rttCut x) ∧ (∃ x ∈ s :: samples, hi = rttCut x) ∧
      lo ≤ (rttRun (s :: samples)).rttUs ∧ (rttRun (s :: samples)).rttUs ≤ hi ∧
      (rttRun (s :: samples)).jitterUs ≤ max (rttCut s / 2) (hi - lo) ∧
      (rttRun (s :: samples)).minUs = lo ∧
      rttRunWide {} (s :: samples) = some (rttRun (s :: samples)) ∧
      rttRtoWide (rttRun (s :: samples)) fallbackUs = some (rttRto (rttRun (s :: samples)) fallbackUs) ∧
      rtoMinUs ≤ rttRto (rttRun (s :: samples)) fallbackUs ∧
      (rttRto (rttRun (s :: samples)) fallbackUs = 0xFFFFFFFF ∨
        (rttRun (s :: samples)).rttUs + rtoGrainUs ≤ rttRto (rttRun (s :: samples)) fallbackUs) := by
  obtain ⟨hrun, hwide⟩ := Estimates.run (rttCut_lt s) samples (Estimates.seed s)
  obtain ⟨hsmall, hsmallAll, hsmallOne⟩ := smallestFrom_spec samples (rttCut s)
  obtain ⟨hlarge, hlargeAll, hlargeOne⟩ := largestFrom_spec samples (rttCut s)
  obtain ⟨hrto, hfloor, htick⟩ := hrun.rto (rttCut_lt s) fallbackUs
  refine ⟨smallestFrom (rttCut s) samples, largestFrom (rttCut s) samples, ?_, ?_, ?_, hrun.above, hrun.below,
    hrun.jitter, hrun.smallest, ?_, hrto, hfloor, htick⟩
  · intro x hx
    obtain rfl | hx := List.mem_cons.mp hx
    · exact ⟨hsmall, hlarge⟩
    · exact ⟨hsmallAll x hx, hlargeAll x hx⟩
  · obtain heq | ⟨x, hx, heq⟩ := hsmallOne
    · exact ⟨s, List.mem_cons_self, heq⟩
    · exact ⟨x, List.mem_cons_of_mem _ hx, heq⟩
  · obtain heq | ⟨x, hx, heq⟩ := hlargeOne
    · exact ⟨s, List.mem_cons_self, heq⟩
    · exact ⟨x, List.mem_cons_of_mem _ hx, heq⟩
  · unfold rttRunWide
    rw [rttSampleWide_first]
    exact hwide

end Rant.Transport
