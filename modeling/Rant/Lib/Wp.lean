import Mathlib.Algebra.Order.Ring.Int
/-!
# Total correctness of a step over a state

A computation over a state `σ` that may run out of fuel is `StateT σ Option`. `wp x Q s` says
that `x` ends when it starts from `s` and that what it returns and leaves meets `Q`. The rules
follow the way such a computation is put together, so a loop or a recursion with enough fuel is
shown to end in the same induction that says what it leaves.
-/

namespace Rant.Lib

variable {σ α β : Type}

/-- `x` ends from `s`, and its answer and state meet `Q`. -/
def wp (x : StateT σ Option α) (Q : α → σ → Prop) (s : σ) : Prop :=
  ∃ a s', x s = some (a, s') ∧ Q a s'

variable {x : StateT σ Option α} {Q : α → σ → Prop} {s : σ}

theorem wp_mono {R : α → σ → Prop} (h : wp x Q s)
    (hQ : ∀ a s', Q a s' → R a s') : wp x R s := by
  obtain ⟨a, s', hx, ha⟩ := h
  exact ⟨a, s', hx, hQ a s' ha⟩

/-- What is known of the run that ended. -/
theorem wp_run {a : α} {s' : σ}
    (h : wp x Q s) (hx : x s = some (a, s')) : Q a s' := by
  obtain ⟨b, t, hb, hq⟩ := h
  obtain ⟨rfl, rfl⟩ : a = b ∧ s' = t := by simpa using hx.symm.trans hb
  exact hq

@[simp] theorem wp_pure {a : α} :
    wp (pure a : StateT σ Option α) Q s ↔ Q a s := by
  constructor
  · intro h
    exact wp_run h rfl
  · intro h
    exact ⟨a, s, rfl, h⟩

@[simp] theorem wp_bind {f : α → StateT σ Option β} {Q : β → σ → Prop}
    : wp (x >>= f) Q s ↔ wp x (fun a s' => wp (f a) Q s') s := by
  constructor
  · rintro ⟨b, t, hb, hq⟩
    obtain ⟨⟨a, s'⟩, hx, hf⟩ := Option.bind_eq_some_iff.mp hb
    exact ⟨a, s', hx, b, t, hf, hq⟩
  · rintro ⟨a, s', hx, b, t, hf, hq⟩
    exact ⟨b, t, Option.bind_eq_some_iff.mpr ⟨(a, s'), hx, hf⟩, hq⟩

@[simp] theorem wp_get {Q : σ → σ → Prop} :
    wp (get : StateT σ Option σ) Q s ↔ Q s s := by
  constructor
  · intro h
    exact wp_run h rfl
  · intro h
    exact ⟨s, s, rfl, h⟩

@[simp] theorem wp_modify {f : σ → σ} {Q : Unit → σ → Prop} :
    wp (modify f : StateT σ Option Unit) Q s ↔ Q () (f s) := by
  constructor
  · intro h
    exact wp_run h rfl
  · intro h
    exact ⟨(), f s, rfl, h⟩

theorem wp_ite {c : Prop} [Decidable c] {y : StateT σ Option α}
    (hx : c → wp x Q s) (hy : ¬ c → wp y Q s) : wp (if c then x else y) Q s := by
  by_cases h : c
  · rw [if_pos h]
    exact hx h
  · rw [if_neg h]
    exact hy h

end Rant.Lib
