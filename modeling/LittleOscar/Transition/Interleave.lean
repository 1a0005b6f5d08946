import LittleOscar.Transition.Run

/-!
# Components that share a state

A component has a local state of its own and sees a state that it shares with the
others; a step of a component gives a result. A composite takes the steps of its
components in any order, and `labelsOf i` are the labels that it gave to `i`.

The only way in which one component can notice another is the shared state.
`project_run` says so: as long as every step does to its component what it would have
done beside the shared state that the component has when it runs alone, the composite
gives every component the results and the local state of its lone run.
-/

namespace Transition

variable {ι σ γ ℓ ρ : Type} [DecidableEq ι]

/-- The local states, the shared state and the results so far, each with the component
that got it. -/
structure Composite (ι σ γ ρ : Type) where
  locals : ι → σ
  shared : γ
  results : List (ι × ρ)

/-- A step of the component that the label names. -/
def compositeStep (step : σ → γ → ℓ → Option (ρ × σ × γ)) (c : Composite ι σ γ ρ)
    (l : ι × ℓ) : Option (Composite ι σ γ ρ) :=
  (step (c.locals l.1) c.shared l.2).map fun (r, s, g) =>
    { locals := Function.update c.locals l.1 s
      shared := g
      results := c.results ++ [(l.1, r)] }

/-- The labels of the component `i`, in order. -/
def labelsOf (i : ι) (ls : List (ι × ℓ)) : List (ι × ℓ) := ls.filter fun l => l.1 = i

/-- The results of the component `i`, in order. -/
def Composite.resultsOf (c : Composite ι σ γ ρ) (i : ι) : List (ι × ρ) :=
  c.results.filter fun r => r.1 = i

@[simp] theorem labelsOf_cons_self (i : ι) (l : ℓ) (ls : List (ι × ℓ)) :
    labelsOf i ((i, l) :: ls) = (i, l) :: labelsOf i ls := by
  simp [labelsOf]

theorem labelsOf_cons_of_ne {i j : ι} (h : j ≠ i) (l : ℓ) (ls : List (ι × ℓ)) :
    labelsOf i ((j, l) :: ls) = labelsOf i ls := by
  simp [labelsOf, h]

/-- The component `i` stands in `c` as it does in its lone run `d`; the shared states
are related by `R`. -/
structure SameComponent (R : γ → γ → Prop) (i : ι) (c d : Composite ι σ γ ρ) : Prop where
  locals : c.locals i = d.locals i
  results : c.resultsOf i = d.resultsOf i
  shared : R c.shared d.shared

variable {step : σ → γ → ℓ → Option (ρ × σ × γ)} {R : γ → γ → Prop}
  {Q : σ → γ → ℓ → Prop}

theorem compositeStep_eq_some {c c' : Composite ι σ γ ρ} {i : ι} {l : ℓ} :
    compositeStep step c (i, l) = some c' ↔
      ∃ r s g, step (c.locals i) c.shared l = some (r, s, g) ∧
        c' = ⟨Function.update c.locals i s, g, c.results ++ [(i, r)]⟩ := by
  rw [compositeStep, Option.map_eq_some_iff]
  constructor
  · rintro ⟨⟨r, s, g⟩, hstep, rfl⟩
    exact ⟨r, s, g, hstep, rfl⟩
  · rintro ⟨r, s, g, hstep, rfl⟩
    exact ⟨(r, s, g), hstep, rfl⟩

/-- A step of another component is not noticed. -/
theorem SameComponent.step_other
    (hother : ∀ s g h l r s' g', R g h → step s g l = some (r, s', g') → R g' h)
    {c c' d : Composite ι σ γ ρ} {i j : ι} {l : ℓ} (hne : j ≠ i) (hsame : SameComponent R i c d)
    (hstep : compositeStep step c (j, l) = some c') : SameComponent R i c' d := by
  obtain ⟨r, s, g, hcall, rfl⟩ := compositeStep_eq_some.mp hstep
  constructor
  · simp only [Function.update_of_ne hne.symm]
    exact hsame.locals
  · have hnew : [(j, r)].filter (fun r => r.1 = i) = [] := by simp [hne]
    rw [Composite.resultsOf, List.filter_append, hnew, List.append_nil]
    exact hsame.results
  · exact hother _ _ _ _ _ _ _ hsame.shared hcall

/-- A step of the component itself is taken in the composite as in its lone run. -/
theorem SameComponent.step_own
    (hown : ∀ s g h l r s' h', R g h → Q s g l → step s h l = some (r, s', h') →
      ∃ g', step s g l = some (r, s', g') ∧ R g' h')
    {c d d' : Composite ι σ γ ρ} {i : ι} {l : ℓ} (hsame : SameComponent R i c d)
    (hQ : Q (c.locals i) c.shared l) (hstep : compositeStep step d (i, l) = some d') :
    ∃ c', compositeStep step c (i, l) = some c' ∧ SameComponent R i c' d' := by
  obtain ⟨r, s, h, hcall, rfl⟩ := compositeStep_eq_some.mp hstep
  rw [← hsame.locals] at hcall
  obtain ⟨g, hcall', hshared⟩ := hown _ _ _ _ _ _ _ hsame.shared hQ hcall
  refine ⟨_, compositeStep_eq_some.mpr ⟨r, s, g, hcall', rfl⟩, ?_, ?_, hshared⟩
  · simp only [Function.update_self]
  · have hresults := hsame.results
    simp only [Composite.resultsOf, List.filter_append] at hresults ⊢
    rw [hresults]

variable (step R Q) in
/-- A run of a composite gives every component what its lone run gives it. -/
theorem project_run
    (hown : ∀ s g h l r s' h', R g h → Q s g l → step s h l = some (r, s', h') →
      ∃ g', step s g l = some (r, s', g') ∧ R g' h')
    (hother : ∀ s g h l r s' g', R g h → step s g l = some (r, s', g') → R g' h)
    (c : Composite ι σ γ ρ) (d : ι → Composite ι σ γ ρ) (ls : List (ι × ℓ))
    (hsame : ∀ i, SameComponent R i c (d i))
    (halone : ∀ i, ∃ e, run (compositeStep step) (d i) (labelsOf i ls) = some e)
    (hQ : Along (compositeStep step) (fun c l => Q (c.locals l.1) c.shared l.2) c ls) :
    ∃ c', run (compositeStep step) c ls = some c' ∧
      ∀ i, ∃ e, run (compositeStep step) (d i) (labelsOf i ls) = some e ∧
        SameComponent R i c' e := by
  induction ls generalizing c d with
  | nil => exact ⟨c, rfl, fun i => ⟨d i, rfl, hsame i⟩⟩
  | cons l ls ih =>
      obtain ⟨j, l⟩ := l
      obtain ⟨e, he⟩ := halone j
      rw [labelsOf_cons_self] at he
      obtain ⟨d', hd', hrest⟩ := run_cons_eq_some.mp he
      obtain ⟨c', hc', hsame'⟩ := (hsame j).step_own hown hQ.1 hd'
      -- only the lone run of `j` moves
      have hlabels : ∀ i, run (compositeStep step) (Function.update d j d' i) (labelsOf i ls) =
          run (compositeStep step) (d i) (labelsOf i ((j, l) :: ls)) := by
        intro i
        by_cases hij : j = i
        · subst hij
          rw [Function.update_self, labelsOf_cons_self, run_cons, hd', Option.bind_some]
        · rw [Function.update_of_ne (Ne.symm hij), labelsOf_cons_of_ne hij]
      have hmoved : ∀ i, SameComponent R i c' (Function.update d j d' i) := by
        intro i
        by_cases hij : j = i
        · subst hij
          rw [Function.update_self]
          exact hsame'
        · rw [Function.update_of_ne (Ne.symm hij)]
          exact (hsame i).step_other hother hij hc'
      obtain ⟨c'', hrun, hall⟩ := ih c' (Function.update d j d') hmoved
        (fun i => by rw [hlabels]; exact halone i) (hQ.2 c' hc')
      refine ⟨c'', run_cons_eq_some.mpr ⟨c', hc', hrun⟩, ?_⟩
      intro i
      rw [← hlabels]
      exact hall i

end Transition
