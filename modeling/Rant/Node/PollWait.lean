import Mathlib.Algebra.Order.Ring.Int
/-!
# How long a poll waits

`i_rant_node_wait_ms` of `src/node/runtime.c` folds three times into one: the transport's next
deadline and the patterns tick, where 0 is none, and discovery's next due time, where 0 is now.
A due time of 0 ends up in the variable in which the tick reads a 0 as none, so a tick that is
still to come takes its place and the poll sleeps until it (`solicit_overslept`). In every other
state the wait is punctual (`waitMs_punctual`).
-/

namespace Rant.Node

/-- `i_rant_node_wait_ms`: `next` is the transport's deadline, `due` discovery's and `tick` the
patterns'. -/
def waitMs (next due tick now : Nat) (timeoutMs : Int) : Int :=
  let timeoutMs := if timeoutMs < 0 then 0 else timeoutMs
  let next := if next = 0 ∨ due < next then due else next
  let next := if tick ≠ 0 ∧ (next = 0 ∨ tick < next) then tick else next
  if next ≠ 0 then
    let us := if next > now then next - now else 0
    let ms : Int := if (us : Int) ≥ timeoutMs * 1000 then timeoutMs else ((us + 999) / 1000 : Nat)
    if ms < timeoutMs then ms else timeoutMs
  else 0                                           -- something is due right now

/-- The times a poll must be back for: discovery's, and the others where they are set. -/
inductive Due (next due tick : Nat) : Nat → Prop
  | transport : next ≠ 0 → Due next due tick next
  | discovery : Due next due tick due
  | patterns : tick ≠ 0 → Due next due tick tick

/-- A wait that never oversleeps. A negative timeout asks for no wait. -/
structure Punctual (next due tick now : Nat) (timeoutMs wait : Int) : Prop where
  nonneg : 0 ≤ wait
  asked : wait ≤ max timeoutMs 0
  due_now : ∀ t, Due next due tick t → t ≤ now → wait = 0
  back : ∀ t, Due next due tick t → now < t → wait ≤ ((t - now + 999) / 1000 : Nat)

variable {next due tick now : Nat} {timeoutMs : Int}

/-- The wait up to a time, which is 0 where it came. -/
theorem wait_upto {t : Nat} (ht : t ≠ 0) (hnext : (if tick ≠ 0 ∧
      ((if next = 0 ∨ due < next then due else next) = 0 ∨
        tick < if next = 0 ∨ due < next then due else next) then tick
      else if next = 0 ∨ due < next then due else next) = t) :
    waitMs next due tick now timeoutMs = min (max timeoutMs 0) ((t - now + 999) / 1000 : Nat) := by
  unfold waitMs
  dsimp only
  rw [hnext, if_pos ht]
  split <;> split <;> split <;> omega

/-- The wait is punctual unless discovery is due now, which a 0 says, the tick is still to come
and the poll may wait. -/
theorem waitMs_punctual (next due tick now : Nat) (timeoutMs : Int) :
    Punctual next due tick now timeoutMs (waitMs next due tick now timeoutMs) ↔
      ¬ (due = 0 ∧ now < tick ∧ 0 < timeoutMs) := by
  obtain ⟨t, ht⟩ : ∃ t, (if tick ≠ 0 ∧ ((if next = 0 ∨ due < next then due else next) = 0 ∨
        tick < if next = 0 ∨ due < next then due else next) then tick
      else if next = 0 ∨ due < next then due else next) = t := ⟨_, rfl⟩
  constructor
  · rintro h ⟨hdue, htick, hpos⟩
    -- the tick took the place of the 0
    have htt : t = tick := by
      rw [← ht, if_pos]
      refine ⟨by omega, Or.inl ?_⟩
      split <;> omega
    have hwait := h.due_now due Due.discovery (by omega)
    rw [wait_upto (by omega) ht] at hwait
    omega
  · intro h
    by_cases hzero : t = 0
    · have hwait : waitMs next due tick now timeoutMs = 0 := by
        unfold waitMs
        dsimp only
        rw [ht, if_neg (not_not.mpr hzero)]
      rw [hwait]
      exact ⟨Int.le_refl 0, by omega, fun _ _ _ => rfl, fun _ _ _ => by omega⟩
    · rw [wait_upto hzero ht]
      by_cases hlate : now < t ∧ 0 < timeoutMs
      · have hdue : due ≠ 0 := by
          intro hdue
          refine h ⟨hdue, ?_, hlate.2⟩
          split at ht <;> split at ht <;> omega
        -- it is no later than any of the three
        have hearliest : ∀ s, Due next due tick s → t ≤ s := by
          intro s hs
          cases hs <;> split at ht <;> split at ht <;> omega
        refine ⟨by omega, by omega, fun s hs hnow => ?_, fun s hs _ => ?_⟩
        · have := hearliest s hs
          omega
        · have := hearliest s hs
          omega
      · exact ⟨by omega, by omega, fun _ _ _ => by omega, fun _ _ _ => by omega⟩

/-- Discovery wants its solicit out now and a call times out in 50 ms: the poll sleeps those. -/
theorem solicit_overslept : ¬ Punctual 0 0 1050000 1000000 100 (waitMs 0 0 1050000 1000000 100) := by
  intro h
  have hwait := h.due_now 0 Due.discovery (Nat.zero_le _)
  revert hwait
  decide

end Rant.Node
