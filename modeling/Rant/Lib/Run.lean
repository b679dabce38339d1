import Mathlib.Algebra.Order.Ring.Int
/-!
# Runs of an event system

An event system is a step function `σ → ε → σ`: whatever may happen next is an
event, and a run is the fold of the step function over the events in the order
they happened. Every interleaving of several parties is one list of events, so
a statement about every interleaving is a statement about every list.

Two rules carry an invariant from one step to a whole run: `run_invariant`, and
`run_invariant_along` for the runs whose every step meets a side condition.
-/

namespace Rant.Lib

variable {σ ε : Type}

/-- The state a list of events leads to. -/
def run (step : σ → ε → σ) (s : σ) (es : List ε) : σ :=
  es.foldl step s

@[simp] theorem run_cons (step : σ → ε → σ) (s : σ) (e : ε) (es : List ε) :
    run step s (e :: es) = run step (step s e) es := rfl

/-- A run over two lists is the second run from where the first one ended. -/
theorem run_append (step : σ → ε → σ) (s : σ) (es fs : List ε) :
    run step s (es ++ fs) = run step (run step s es) fs := by
  unfold run
  exact List.foldl_append

/-- Every step of the run from `s` meets `P` in the state it starts from. -/
def Along (step : σ → ε → σ) (P : σ → ε → Prop) : σ → List ε → Prop
  | _, [] => True
  | s, e :: es => P s e ∧ Along step P (step s e) es

instance decAlong {step : σ → ε → σ} {P : σ → ε → Prop} [∀ s e, Decidable (P s e)] :
    ∀ s es, Decidable (Along step P s es)
  | _, [] => .isTrue trivial
  | s, e :: es => @instDecidableAnd _ _ _ (decAlong (step s e) es)

variable {step : σ → ε → σ}

/-- A side condition on the events alone holds along every run over such events. -/
theorem along_of_forall {Q : ε → Prop} :
    ∀ {es : List ε} (s : σ), (∀ e ∈ es, Q e) → Along step (fun _ e => Q e) s es
  | [], _, _ => trivial
  | e :: _, s, h => ⟨h e List.mem_cons_self,
      along_of_forall (step s e) fun f hf => h f (List.mem_cons_of_mem e hf)⟩

variable {P : σ → ε → Prop}

/-- Two side conditions of one run. -/
theorem Along.and {Q : σ → ε → Prop} :
    ∀ {es : List ε} {s : σ}, Along step P s es → Along step Q s es →
      Along step (fun s e => P s e ∧ Q s e) s es
  | [], _, _, _ => trivial
  | _ :: _, _, h, h' => ⟨⟨h.1, h'.1⟩, h.2.and h'.2⟩

/-- What holds along a run holds along its start. -/
theorem Along.left :
    ∀ {es fs : List ε} {s : σ}, Along step P s (es ++ fs) → Along step P s es
  | [], _, _, _ => trivial
  | _ :: _, _, _, h => ⟨h.1, Along.left h.2⟩

/-- What one step preserves under its side condition, a run whose steps all
meet the condition preserves. -/
theorem run_invariant_along (Inv : σ → Prop)
    (hstep : ∀ s e, Inv s → P s e → Inv (step s e)) :
    ∀ (es : List ε) (s : σ), Inv s → Along step P s es → Inv (run step s es)
  | [], _, hs, _ => hs
  | e :: es, s, hs, hp => by
    rw [run_cons]
    exact run_invariant_along Inv hstep es (step s e) (hstep s e hs hp.1) hp.2

/-- Where a step under `P` keeps the invariant and meets `Q`, a run whose steps all meet `P`
meets `Q` at every step. -/
theorem along_of_invariant {Q : σ → ε → Prop} (Inv : σ → Prop)
    (hstep : ∀ s e, Inv s → P s e → Inv (step s e) ∧ Q s e) :
    ∀ (es : List ε) (s : σ), Inv s → Along step P s es → Along step Q s es
  | [], _, _, _ => trivial
  | e :: es, s, hs, hp => by
    obtain ⟨hs', hq⟩ := hstep s e hs hp.1
    exact ⟨hq, along_of_invariant Inv hstep es (step s e) hs' hp.2⟩

/-- What every step preserves, every run preserves. -/
theorem run_invariant (Inv : σ → Prop)
    (hstep : ∀ s e, Inv s → Inv (step s e)) :
    ∀ (es : List ε) (s : σ), Inv s → Inv (run step s es)
  | [], _, hs => hs
  | e :: es, s, hs => by
    rw [run_cons]
    exact run_invariant Inv hstep es (step s e) (hstep s e hs)

/-- Where a step that misses the condition leads to `Bad`, and `Bad` is never left, a run
keeps the condition or ends in `Bad`. -/
theorem run_along_or {Inv Bad : σ → Prop}
    (hstep : ∀ s e, Inv s → Inv (step s e)) (hmiss : ∀ s e, Inv s → ¬ P s e → Bad (step s e))
    (hstay : ∀ s e, Inv s → Bad s → Bad (step s e)) :
    ∀ (es : List ε) (s : σ), Inv s → Along step P s es ∨ Bad (run step s es)
  | [], _, _ => Or.inl trivial
  | e :: es, s, hs => by
    have hs' := hstep s e hs
    have hkeep : Bad (step s e) → Bad (run step (step s e) es) := fun hbad =>
      (run_invariant (fun s => Inv s ∧ Bad s)
        (fun s e h => ⟨hstep s e h.1, hstay s e h.1 h.2⟩) es _ ⟨hs', hbad⟩).2
    rw [run_cons]
    by_cases hp : P s e
    · rcases run_along_or hstep hmiss hstay es _ hs' with halong | hbad
      · exact Or.inl ⟨hp, halong⟩
      · exact Or.inr hbad
    · exact Or.inr (hkeep (hmiss s e hs hp))

/-- Where `Inv` gives `Good`, a step under the condition keeps `Inv` and one that misses it
leads to a state that is not `Good`, the states a run reaches are all `Good` exactly when its
steps meet the condition. -/
theorem along_iff_reached {Inv Good : σ → Prop}
    (hgood : ∀ s, Inv s → Good s) (hstep : ∀ s e, Inv s → P s e → Inv (step s e))
    (hmiss : ∀ s e, Inv s → ¬ P s e → ¬ Good (step s e)) :
    ∀ (es : List ε) (s : σ), Inv s →
      ((∀ fs, fs <+: es → Good (run step s fs)) ↔ Along step P s es)
  | [], s, hs => by
    refine ⟨fun _ => trivial, fun _ fs hfs => ?_⟩
    rw [List.prefix_nil.mp hfs]
    exact hgood s hs
  | e :: es, s, hs => by
    constructor
    · intro hall
      have hp : P s e := by
        by_contra hno
        exact hmiss s e hs hno (hall [e] ⟨es, rfl⟩)
      refine ⟨hp, (along_iff_reached hgood hstep hmiss es _ (hstep s e hs hp)).mp ?_⟩
      intro fs hfs
      exact hall (e :: fs) (List.cons_prefix_cons.mpr ⟨rfl, hfs⟩)
    · rintro ⟨hp, halong⟩ fs hfs
      cases fs with
      | nil => exact hgood s hs
      | cons f fs =>
        obtain ⟨rfl, hrest⟩ := List.cons_prefix_cons.mp hfs
        exact (along_iff_reached hgood hstep hmiss es _ (hstep s f hs hp)).mpr halong fs hrest

/-- Where a step under `P` keeps the invariant and meets `Q`, and one that meets `Q` is under
`P`, the two conditions say the same of a run. -/
theorem along_iff {Q : σ → ε → Prop} (Inv : σ → Prop)
    (hstep : ∀ s e, Inv s → P s e → Inv (step s e) ∧ Q s e)
    (hback : ∀ s e, Inv s → Q s e → P s e) :
    ∀ (es : List ε) (s : σ), Inv s → (Along step Q s es ↔ Along step P s es)
  | [], _, _ => Iff.rfl
  | e :: es, s, hs => by
    constructor
    · rintro ⟨hq, halong⟩
      have hp := hback s e hs hq
      exact ⟨hp, (along_iff Inv hstep hback es _ (hstep s e hs hp).1).mp halong⟩
    · rintro ⟨hp, halong⟩
      obtain ⟨hs', hq⟩ := hstep s e hs hp
      exact ⟨hq, (along_iff Inv hstep hback es _ hs').mpr halong⟩

/-- A condition on what `f` shows of the state, where the steps of the shown part are steps
of their own. -/
theorem along_map {τ : Type} {step' : τ → ε → τ} {P : τ → ε → Prop}
    (f : σ → τ) (hf : ∀ s e, f (step s e) = step' (f s) e) :
    ∀ {es : List ε} {s : σ}, Along step (fun s e => P (f s) e) s es ↔ Along step' P (f s) es
  | [], _ => Iff.rfl
  | e :: es, s => by
    have ih : Along step (fun s e => P (f s) e) (step s e) es ↔ Along step' P (f (step s e)) es :=
      along_map f hf
    rw [hf] at ih
    exact and_congr Iff.rfl ih

end Rant.Lib
