import LittleOscar.Transition.Run
import Mathlib.Algebra.BigOperators.Group.Finset.Piecewise
import Mathlib.Algebra.Order.Ring.Int
import Mathlib.Data.Fintype.Card

/-!
# Counting the parties in a state

A system of finitely many parties keeps a state for each of them. `count p f` is the
number of parties whose state satisfies `p`, and `count_update` is what it becomes when
one party changes its state. `sum_change` says the same of a sum over the parties, and with
`length_add_le` such a sum bounds the length of a run.
-/

namespace Transition

variable {τ α : Type*} [Fintype τ] (p : α → Bool)

/-- The number of parties whose state satisfies `p`. -/
def count (f : τ → α) : ℕ := (Finset.univ.filter fun t => p (f t) = true).card

variable {p} {f : τ → α}

theorem count_pos : 0 < count p f ↔ ∃ t, p (f t) = true := by
  rw [count, Finset.card_pos]
  constructor
  · rintro ⟨t, ht⟩
    exact ⟨t, (Finset.mem_filter.mp ht).2⟩
  · rintro ⟨t, ht⟩
    exact ⟨t, Finset.mem_filter.mpr ⟨Finset.mem_univ t, ht⟩⟩

variable [DecidableEq τ]

/-- Apart from the party that changes, the count stays the same. -/
theorem count_update (t : τ) (x : α) :
    count p (Function.update f t x) + (p (f t)).toNat = count p f + (p x).toNat := by
  have hsum : ∀ g : τ → α, count p g =
      (p (g t)).toNat + ∑ u ∈ Finset.univ.erase t, (p (g u)).toNat := by
    intro g
    rw [count, Finset.card_filter, Finset.add_sum_erase Finset.univ
      (fun u => (p (g u)).toNat) (Finset.mem_univ t)]
    apply Finset.sum_congr rfl
    intro u _
    cases p (g u) with
    | true => rfl
    | false => rfl
  have hrest : ∑ u ∈ Finset.univ.erase t, (p (Function.update f t x u)).toNat =
      ∑ u ∈ Finset.univ.erase t, (p (f u)).toNat := by
    apply Finset.sum_congr rfl
    intro u hu
    rw [Function.update_of_ne (Finset.ne_of_mem_erase hu)]
  rw [hsum, hsum f, hrest, Function.update_self]
  omega

theorem count_update_of_eq {t : τ} {x : α} (h : p x = p (f t)) :
    count p (Function.update f t x) = count p f := by
  have hcount := count_update (p := p) (f := f) t x
  rw [h] at hcount
  exact Nat.add_right_cancel hcount

/-- A sum over the parties when only one of them changes. -/
theorem sum_change {f g : τ → ℕ} (t : τ) (h : ∀ u, u ≠ t → g u = f u) :
    ∑ u, g u + f t = ∑ u, f u + g t := by
  have hrest : ∑ u ∈ Finset.univ.erase t, g u = ∑ u ∈ Finset.univ.erase t, f u :=
    Finset.sum_congr rfl fun u hu => h u (Finset.ne_of_mem_erase hu)
  rw [← Finset.add_sum_erase Finset.univ g (Finset.mem_univ t),
    ← Finset.add_sum_erase Finset.univ f (Finset.mem_univ t), hrest]
  omega

section Length

variable {σ ℓ : Type*} {step : σ → ℓ → Option σ}

/-- A run pays for its steps out of the measure of the state it starts from. A step may bring
something with it. -/
theorem length_add_le {G : σ → ℓ → Prop} (Inv : σ → Prop) (measure : σ → Nat) (extra : ℓ → Nat)
    (hstep : ∀ s l s', Inv s → G s l → step s l = some s' →
      Inv s' ∧ measure s' + 1 ≤ measure s + extra l) {s t : σ} {ls : List ℓ} (hs : Inv s)
    (hG : Along step G s ls) (hrun : run step s ls = some t) :
    ls.length + measure t ≤ measure s + (ls.map extra).sum := by
  induction ls generalizing s with
  | nil =>
      cases hrun
      simp
  | cons l ls ih =>
      obtain ⟨s', hs', hrest⟩ := run_cons_eq_some.mp hrun
      obtain ⟨hinv, hle⟩ := hstep s l s' hs hG.1 hs'
      have htail := ih hinv (hG.2 s' hs') hrest
      rw [List.length_cons, List.map_cons, List.sum_cons]
      omega

end Length

end Transition
