import Mathlib.Data.Nat.Notation
import Mathlib.Data.Option.Basic

/-!
# Steps without labels

A step without labels is iterated `n` times by `steps`. `Leads` forgets how often. Where
every step but those of the final states lowers a measure, what is reached at all is
reached in as many steps as the measure says (`Leads.steps_le`).
-/

namespace Transition

variable {σ : Type*} {step : σ → Option σ}

/-- The state after `n` steps. -/
def steps (step : σ → Option σ) : ℕ → σ → Option σ
  | 0, s => some s
  | n + 1, s => (step s).bind (steps step n)

/-- Some number of steps leads from `s` to `t`. -/
def Leads (step : σ → Option σ) (s t : σ) : Prop := ∃ n, steps step n s = some t

@[simp] theorem steps_zero (s : σ) : steps step 0 s = some s := rfl

theorem steps_succ (n : ℕ) (s : σ) : steps step (n + 1) s = (step s).bind (steps step n) := rfl

theorem steps_succ_of_eq_some {s s' : σ} (h : step s = some s') (n : ℕ) :
    steps step (n + 1) s = steps step n s' := by
  rw [steps_succ, h, Option.bind_some]

theorem steps_add (n k : ℕ) (s : σ) :
    steps step (n + k) s = (steps step n s).bind (steps step k) := by
  induction n generalizing s with
  | zero => rw [Nat.zero_add, steps_zero, Option.bind_some]
  | succ n ih =>
      rw [Nat.succ_add, steps_succ, steps_succ]
      cases step s with
      | none => rfl
      | some s' => exact ih s'

namespace Leads

variable {s t u : σ}

theorem refl (step : σ → Option σ) (s : σ) : Leads step s s := ⟨0, rfl⟩

theorem head (h : step s = some t) (h' : Leads step t u) : Leads step s u := by
  obtain ⟨n, hn⟩ := h'
  exact ⟨n + 1, (steps_succ_of_eq_some h n).trans hn⟩

theorem single (h : step s = some t) : Leads step s t := head h (refl step t)

theorem trans (h : Leads step s t) (h' : Leads step t u) : Leads step s u := by
  obtain ⟨n, hn⟩ := h
  obtain ⟨k, hk⟩ := h'
  exact ⟨n + k, by rw [steps_add, hn, Option.bind_some, hk]⟩

/-- What is reached is reached within the measure. -/
theorem steps_le {final : σ → Prop} (measure : σ → ℕ)
    (hfinal : ∀ s, final s → step s = some s)
    (hlt : ∀ s s', ¬ final s → step s = some s' → measure s' < measure s)
    (h : Leads step s t) : ∃ n ≤ measure s, steps step n s = some t := by
  obtain ⟨n, hn⟩ := h
  induction n generalizing s with
  | zero => exact ⟨0, Nat.zero_le _, hn⟩
  | succ n ih =>
      obtain ⟨s', hs', hrest⟩ := Option.bind_eq_some_iff.mp hn
      by_cases hs : final s
      · obtain rfl : s = s' := Option.some.inj ((hfinal s hs).symm.trans hs')
        exact ih hrest
      · obtain ⟨k, hk, hsteps⟩ := ih hrest
        have hless := hlt s s' hs hs'
        exact ⟨k + 1, by omega, (steps_succ_of_eq_some hs' k).trans hsteps⟩

end Leads

end Transition
