import Mathlib.Data.Option.Basic

/-!
# Runs of a partial step

A partial step takes a state and a label to the next state, or has no result. A
run feeds it a list of labels. `Along step P s ls` says that `P` holds of every
state the run from `s` visits and of the label it takes there; a property of the
last state is not asked for.

The rules are the usual ones of a transition system: an invariant that every step
preserves holds at the end of a run, and two properties that agree wherever the
invariant holds agree along whole runs. Both rules may assume a side condition
`G` on the steps of the run, which is where the legality of a call goes.
-/

namespace Transition

variable {σ ℓ : Type*} {step : σ → ℓ → Option σ}

/-- The state after a list of labels. -/
def run (step : σ → ℓ → Option σ) : σ → List ℓ → Option σ
  | s, [] => some s
  | s, l :: ls => (step s l).bind fun s' => run step s' ls

/-- `P` holds of every state a run takes a step from, and of the label of that
step. -/
def Along (step : σ → ℓ → Option σ) (P : σ → ℓ → Prop) : σ → List ℓ → Prop
  | _, [] => True
  | s, l :: ls => P s l ∧ ∀ s', step s l = some s' → Along step P s' ls

@[simp] theorem run_nil (s : σ) : run step s [] = some s := rfl

theorem run_cons (s : σ) (l : ℓ) (ls : List ℓ) :
    run step s (l :: ls) = (step s l).bind fun s' => run step s' ls := rfl

theorem run_cons_eq_some {s t : σ} {l : ℓ} {ls : List ℓ} :
    run step s (l :: ls) = some t ↔ ∃ s', step s l = some s' ∧ run step s' ls = some t := by
  rw [run_cons, Option.bind_eq_some_iff]

theorem run_append (s : σ) (ls ks : List ℓ) :
    run step s (ls ++ ks) = (run step s ls).bind fun s' => run step s' ks := by
  induction ls generalizing s with
  | nil => rfl
  | cons l ls ih =>
      rw [List.cons_append, run_cons, run_cons]
      cases step s l with
      | none => rfl
      | some s' => exact ih s'

@[simp] theorem along_nil {P : σ → ℓ → Prop} (s : σ) : Along step P s [] := trivial

theorem along_cons {P : σ → ℓ → Prop} {s : σ} {l : ℓ} {ls : List ℓ} :
    Along step P s (l :: ls) ↔ P s l ∧ ∀ s', step s l = some s' → Along step P s' ls :=
  Iff.rfl

theorem along_cons_of_eq_some {P : σ → ℓ → Prop} {s s' : σ} {l : ℓ} {ls : List ℓ}
    (h : step s l = some s') : Along step P s (l :: ls) ↔ P s l ∧ Along step P s' ls := by
  rw [along_cons]
  constructor
  · rintro ⟨hP, hrest⟩
    exact ⟨hP, hrest s' h⟩
  · rintro ⟨hP, hrest⟩
    refine ⟨hP, ?_⟩
    intro t ht
    rw [h] at ht
    cases ht
    exact hrest

/-- A property that can be decided at one step can be decided along a run. -/
instance Along.decidable {P : σ → ℓ → Prop} [∀ s l, Decidable (P s l)] :
    ∀ (s : σ) (ls : List ℓ), Decidable (Along step P s ls)
  | s, [] => isTrue (along_nil s)
  | s, l :: ls =>
      match hstep : step s l with
      | none => decidable_of_iff (P s l)
          ⟨fun h => ⟨h, fun s' hs' => by cases hstep.symm.trans hs'⟩, And.left⟩
      | some s' =>
          have := Along.decidable (P := P) s' ls
          decidable_of_iff (P s l ∧ Along step P s' ls) (along_cons_of_eq_some hstep).symm

theorem along_of_forall {P : σ → ℓ → Prop} (h : ∀ s l, P s l) (s : σ) (ls : List ℓ) :
    Along step P s ls := by
  induction ls generalizing s with
  | nil => exact along_nil s
  | cons l ls ih => exact ⟨h s l, fun s' _ => ih s'⟩

theorem Along.and {P Q : σ → ℓ → Prop} {s : σ} {ls : List ℓ} (hP : Along step P s ls)
    (hQ : Along step Q s ls) : Along step (fun s l => P s l ∧ Q s l) s ls := by
  induction ls generalizing s with
  | nil => exact along_nil s
  | cons l ls ih => exact ⟨⟨hP.1, hQ.1⟩, fun s' hs' => ih (hP.2 s' hs') (hQ.2 s' hs')⟩

/-- What holds along a run holds along its beginning. -/
theorem Along.of_append {P : σ → ℓ → Prop} {s : σ} {ls ks : List ℓ}
    (h : Along step P s (ls ++ ks)) : Along step P s ls := by
  induction ls generalizing s with
  | nil => exact along_nil s
  | cons l ls ih => exact ⟨h.1, fun s' hs' => ih (h.2 s' hs')⟩

/-- Every step of a run that ends was taken. -/
theorem along_of_run {s t : σ} {ls : List ℓ} (h : run step s ls = some t) :
    Along step (fun s l => ∃ s', step s l = some s') s ls := by
  induction ls generalizing s with
  | nil => exact along_nil s
  | cons l ls ih =>
      obtain ⟨s', hs', hrest⟩ := run_cons_eq_some.mp h
      exact (along_cons_of_eq_some hs').mpr ⟨⟨s', hs'⟩, ih hrest⟩

/-- Where the invariant and the side condition let every step be taken, a run ends, and
the invariant holds in its last state. -/
theorem exists_run {G : σ → ℓ → Prop} (Inv : σ → Prop)
    (hstep : ∀ s l, Inv s → G s l → ∃ s', step s l = some s' ∧ Inv s') {s : σ}
    {ls : List ℓ} (hs : Inv s) (hG : Along step G s ls) :
    ∃ t, run step s ls = some t ∧ Inv t := by
  induction ls generalizing s with
  | nil => exact ⟨s, rfl, hs⟩
  | cons l ls ih =>
      obtain ⟨s', hs', hinv⟩ := hstep s l hs hG.1
      obtain ⟨t, hrun, ht⟩ := ih hinv (hG.2 s' hs')
      exact ⟨t, run_cons_eq_some.mpr ⟨s', hs', hrun⟩, ht⟩

/-- What every step of a run preserves holds in its last state. -/
theorem invariant_run {G : σ → ℓ → Prop} (Inv : σ → Prop)
    (hstep : ∀ s l s', Inv s → G s l → step s l = some s' → Inv s') {s t : σ}
    {ls : List ℓ} (hs : Inv s) (hG : Along step G s ls) (hrun : run step s ls = some t) :
    Inv t := by
  induction ls generalizing s with
  | nil => cases hrun; exact hs
  | cons l ls ih =>
      obtain ⟨s', hs', hrest⟩ := run_cons_eq_some.mp hrun
      exact ih (hstep s l s' hs hG.1 hs') (hG.2 s' hs') hrest

/-- Two systems have the same runs if from related states they take the same steps, to related
states. -/
theorem run_rel {τ : Type*} {step' : τ → ℓ → Option τ} {G : σ → ℓ → Prop} (R : σ → τ → Prop)
    (hstep : ∀ s t l, R s t → G s l → Option.Rel R (step s l) (step' t l)) {s : σ} {t : τ}
    {ls : List ℓ} (hR : R s t) (hG : Along step G s ls) :
    Option.Rel R (run step s ls) (run step' t ls) := by
  induction ls generalizing s t with
  | nil => exact .some hR
  | cons l ls ih =>
      have hnext := hstep s t l hR hG.1
      rw [run_cons, run_cons]
      cases hs : step s l with
      | none =>
          rw [hs] at hnext
          generalize step' t l = next at hnext
          cases hnext
          exact .none
      | some s' =>
          rw [hs] at hnext
          generalize step' t l = next at hnext
          cases hnext with
          | some hR' => exact ih hR' (hG.2 s' hs)

/-- What is seen alike of related states is seen alike of related results. -/
theorem map_eq_map_of_rel {τ ω : Type*} {R : σ → τ → Prop} {f : σ → ω} {g : τ → ω}
    (hsame : ∀ s t, R s t → f s = g t) {s : Option σ} {t : Option τ} (h : Option.Rel R s t) :
    s.map f = t.map g := by
  cases h with
  | none => rfl
  | some hR => exact congrArg some (hsame _ _ hR)

/-- What the invariant gives at one step holds along a run. -/
theorem along_of_invariant {G P : σ → ℓ → Prop} (Inv : σ → Prop)
    (hP : ∀ s l, Inv s → G s l → P s l)
    (hstep : ∀ s l s', Inv s → G s l → step s l = some s' → Inv s') {s : σ} {ls : List ℓ}
    (hs : Inv s) (hG : Along step G s ls) : Along step P s ls := by
  induction ls generalizing s with
  | nil => exact along_nil s
  | cons l ls ih =>
      exact ⟨hP s l hs hG.1, fun s' hs' => ih (hstep s l s' hs hG.1 hs') (hG.2 s' hs')⟩

/-- Two properties that agree at one step wherever the invariant holds, and of
which the second preserves it, agree along whole runs. The invariant may speak of
the labels that are still to come. -/
theorem along_iff_of_remaining {G P Q : σ → ℓ → Prop} (Inv : σ → List ℓ → Prop)
    (hiff : ∀ s l ls, Inv s (l :: ls) → G s l → (P s l ↔ Q s l))
    (hstep : ∀ s l ls s', Inv s (l :: ls) → G s l → Q s l → step s l = some s' → Inv s' ls)
    {s : σ} {ls : List ℓ} (hs : Inv s ls) (hG : Along step G s ls) :
    Along step P s ls ↔ Along step Q s ls := by
  induction ls generalizing s with
  | nil => exact Iff.rfl
  | cons l ls ih =>
      constructor
      · rintro ⟨hP, hrest⟩
        have hQ := (hiff s l ls hs hG.1).mp hP
        exact ⟨hQ, fun s' hs' =>
          (ih (hstep s l ls s' hs hG.1 hQ hs') (hG.2 s' hs')).mp (hrest s' hs')⟩
      · rintro ⟨hQ, hrest⟩
        exact ⟨(hiff s l ls hs hG.1).mpr hQ, fun s' hs' =>
          (ih (hstep s l ls s' hs hG.1 hQ hs') (hG.2 s' hs')).mpr (hrest s' hs')⟩

/-- The same rule for an invariant of the state alone. -/
theorem along_iff_of_invariant {G P Q : σ → ℓ → Prop} (Inv : σ → Prop)
    (hiff : ∀ s l, Inv s → G s l → (P s l ↔ Q s l))
    (hstep : ∀ s l s', Inv s → G s l → Q s l → step s l = some s' → Inv s') {s : σ}
    {ls : List ℓ} (hs : Inv s) (hG : Along step G s ls) :
    Along step P s ls ↔ Along step Q s ls :=
  along_iff_of_remaining (fun s _ => Inv s) (fun s l _ => hiff s l)
    (fun s l _ s' => hstep s l s') hs hG

end Transition
