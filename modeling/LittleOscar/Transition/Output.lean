import LittleOscar.Transition.Run

/-!
# Steps with an output

A partial step that also gives an output. `trace` are the outputs of a run and its last
state. If a function takes the states of one such system to those of another and commutes
with the step, the two have the same outputs (`trace_map`).
-/

namespace Transition

variable {σ τ ℓ ω : Type*}

/-- The outputs of a list of labels, and the state behind them. -/
def trace (step : σ → ℓ → Option (ω × σ)) : σ → List ℓ → Option (List ω × σ)
  | s, [] => some ([], s)
  | s, l :: ls => (step s l).bind fun (o, s') =>
      (trace step s' ls).map fun (os, t) => (o :: os, t)

variable {step : σ → ℓ → Option (ω × σ)} {step' : τ → ℓ → Option (ω × τ)}

/-- A run is simulated where the invariant lets every step be simulated. -/
theorem trace_map (Inv : σ → Prop) (f : σ → τ)
    (hstep : ∀ s l, Inv s → step' (f s) l = (step s l).map fun (o, s') => (o, f s'))
    (hinv : ∀ s l o s', Inv s → step s l = some (o, s') → Inv s') {s : σ} (hs : Inv s)
    (ls : List ℓ) : trace step' (f s) ls = (trace step s ls).map fun (os, t) => (os, f t) := by
  induction ls generalizing s with
  | nil => rfl
  | cons l ls ih =>
      rw [trace, trace, hstep s l hs]
      cases h : step s l with
      | none => rfl
      | some next =>
          obtain ⟨o, s'⟩ := next
          simp only [Option.map_some, Option.bind_some, ih (hinv s l o s' hs h), Option.map_map]
          rfl

/-! ## Specifications -/

/-- The step without its output. -/
def toStep (step : σ → ℓ → Option (ω × σ)) (s : σ) (l : ℓ) : Option σ := (step s l).map Prod.snd

/-- The outputs of a system that always has a result. -/
def outputs (spec : τ → ℓ → ω × τ) : τ → List ℓ → List ω
  | _, [] => []
  | t, l :: ls => (spec t l).1 :: outputs spec (spec t l).2 ls

/-- A run whose steps are simulated by the specification has its outputs. -/
theorem trace_of_simulation {spec : τ → ℓ → ω × τ} {G : σ → ℓ → Prop} (R : σ → τ → Prop)
    (hstep : ∀ s t l, R s t → G s l →
      ∃ s', step s l = some ((spec t l).1, s') ∧ R s' (spec t l).2) {s : σ} {t : τ} (hR : R s t)
    {ls : List ℓ} (hG : Along (toStep step) G s ls) :
    ∃ s', trace step s ls = some (outputs spec t ls, s') := by
  induction ls generalizing s t with
  | nil => exact ⟨s, rfl⟩
  | cons l ls ih =>
      obtain ⟨s₁, hs₁, hR₁⟩ := hstep s t l hR hG.1
      have hnext : toStep step s l = some s₁ := by rw [toStep, hs₁, Option.map_some]
      obtain ⟨s', htrace⟩ := ih hR₁ (hG.2 s₁ hnext)
      refine ⟨s', ?_⟩
      simp only [trace, hs₁, Option.bind_some, htrace, Option.map_some, outputs]

end Transition
