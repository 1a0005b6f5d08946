import LittleOscar.Pattern.Pointer

/-!
# The rounds of the matcher

A group sends the pointer into the input back at every alternative that does not fit, and an
alternative is compared character by character. What was compared has moved the pointer into
the pattern as well, which never goes back. So the matcher needs two rounds for a character of
the pattern and one for a character of the input, whatever the two are
(`doPatternMatch_rounds`).
-/

namespace LittleOscar

open Machine Glob Transition

variable {pattern input : CString}

/-! ## What a step pays -/

/-- Where the pointer into the input does not go back behind. -/
def MatchState.kept (s : MatchState) : ℕ :=
  match s.point with
  | .group mark | .next mark => min mark s.i
  | _ => s.i

/-- The rounds that may come before one of the pointers is moved for good. -/
def MatchState.due (pattern : CString) (s : MatchState) : ℕ :=
  match s.point with
  | .loop => if s.p ≤ pattern.bytes.length then 2 else 0
  | .group _ => 2
  | .star | .next _ | .close => 1
  | .returned _ => 0

/-- Two rounds for each character of the pattern that is left, and one for each of the input. -/
def MatchState.budget (pattern input : CString) (s : MatchState) : ℕ :=
  2 * (pattern.bytes.length + 1 - s.p) + (input.bytes.length - s.kept) + s.due pattern

theorem lt_of_charAt {s : CString} {ix : ℕ} {c : UInt8} (h : charAt s ix = some c)
    (hc : c ≠ 0) : ix < s.bytes.length := by
  refine lt_of_le_of_ne (le_of_charAt h) ?_
  rintro rfl
  rw [charAt, List.getElem?_concat_length] at h
  exact hc (Option.some.inj h).symm

section Budget

variable {s s' : MatchState}

theorem kept_le (s : MatchState) : s.kept ≤ s.i := by
  rw [MatchState.kept]
  split
  · exact Nat.min_le_right _ _
  · exact Nat.min_le_right _ _
  · exact le_rfl

theorem due_le_two (s : MatchState) : s.due pattern ≤ 2 := by
  rw [MatchState.due]
  split
  · split <;> omega
  all_goals omega

theorem due_pos (hfinal : ¬ s.Final) (hp : s.p ≤ pattern.bytes.length) :
    0 < s.due pattern := by
  rw [MatchState.due]
  split
  · rw [if_pos hp]
    exact Nat.succ_pos 1
  · exact Nat.succ_pos 1
  · exact Nat.one_pos
  · exact Nat.one_pos
  · exact Nat.one_pos
  next ret hpoint => exact absurd ⟨ret, hpoint⟩ hfinal

/-- A `return` is paid with what was due. -/
theorem budget_returns (hfinal : ¬ s.Final) (hp : s.p ≤ pattern.bytes.length) (ret : Int) :
    (s.returns ret).budget pattern input < s.budget pattern input := by
  have hdue : (s.returns ret).due pattern = 0 := rfl
  have hkept : (s.returns ret).kept = s.i := rfl
  have hsame : (s.returns ret).p = s.p := rfl
  have hpos := due_pos hfinal hp
  have hle := kept_le s
  rw [MatchState.budget, MatchState.budget, hdue, hkept, hsame]
  omega

/-- The pointer into the pattern is moved, and the one into the input does not go back. -/
theorem budget_of_next (hfinal : ¬ s.Final) (hp : s.p ≤ pattern.bytes.length) (hlt : s.p < s'.p)
    (hkept : s.kept ≤ s'.kept) : s'.budget pattern input < s.budget pattern input := by
  have hpos := due_pos hfinal hp
  have hle : s'.due pattern ≤ 2 := due_le_two s'
  rw [MatchState.budget, MatchState.budget]
  omega

variable (hfinal : ¬ s.Final)
include hfinal

theorem budget_returnStep (hp : s.p ≤ pattern.bytes.length)
    (h : returnStep pattern input s = some s') :
    s'.budget pattern input < s.budget pattern input := by
  obtain ⟨c, -, h⟩ := Option.bind_eq_some_iff.mp h
  obtain ⟨c', -, h⟩ := Option.bind_eq_some_iff.mp h
  split at h
  · cases h
    exact budget_returns hfinal hp 0
  · obtain ⟨d, -, h⟩ := Option.bind_eq_some_iff.mp h
    cases h
    exact budget_returns hfinal hp _

theorem budget_slashStep {c : UInt8} (hpoint : s.point = .loop) (hp : s.p ≤ pattern.bytes.length)
    (h : slashStep pattern c s = some s') :
    s'.budget pattern input < s.budget pattern input := by
  rw [slashStep] at h
  split at h
  · cases h
    exact budget_returns hfinal hp 0
  · obtain ⟨c', -, h⟩ := Option.bind_eq_some_iff.mp h
    split at h
    · cases h
      exact budget_returns hfinal hp 0
    · cases h
      refine budget_of_next hfinal hp ?_ ?_
      · simp only
        split <;> omega
      · simp [MatchState.kept, hpoint]

theorem budget_loopStep (hpoint : s.point = .loop) (h : loopStep pattern input s = some s') :
    s'.budget pattern input < s.budget pattern input := by
  obtain ⟨c, hc, h⟩ := Option.bind_eq_some_iff.mp h
  have hp : s.p ≤ pattern.bytes.length := le_of_charAt hc
  have hkept : s.kept = s.i := by rw [MatchState.kept, hpoint]
  split at h
  · exact budget_returnStep hfinal hp h
  obtain ⟨d, -, h⟩ := Option.bind_eq_some_iff.mp h
  -- a character that both pointers pass
  have hpass : MatchState.budget pattern input { s with p := s.p + 1, i := s.i + 1 } <
      s.budget pattern input := by
    refine budget_of_next hfinal hp (Nat.lt_succ_self _) ?_
    simp [MatchState.kept, hpoint]
  split at h
  · exact budget_returnStep hfinal hp h
  split at h
  · exact budget_slashStep hfinal hpoint hp h
  split at h
  · cases h
    exact hpass
  split at h
  · -- the scan of a star has what was due, less this round
    cases h
    rw [MatchState.budget, MatchState.budget, hkept, MatchState.due, MatchState.due, hpoint]
    simp only [MatchState.kept, if_pos hp]
    omega
  split at h
  · cases h
    exact budget_returns hfinal hp 0
  split at h
  · cases h
    refine budget_of_next hfinal hp (Nat.lt_succ_self _) ?_
    simp [MatchState.kept, hpoint]
  split at h
  · cases h
    exact budget_returns hfinal hp 0
  · cases h
    exact hpass

theorem budget_groupStep {mark : ℕ} (hpoint : s.point = .group mark)
    (h : groupStep pattern input mark s = some s') :
    s'.budget pattern input < s.budget pattern input := by
  obtain ⟨c, hc, h⟩ := Option.bind_eq_some_iff.mp h
  have hp : s.p ≤ pattern.bytes.length := le_of_charAt hc
  have hkept : s.kept = min mark s.i := by rw [MatchState.kept, hpoint]
  have hle : min mark s.i ≤ s.i + 1 := (Nat.min_le_right mark s.i).trans (Nat.le_succ _)
  obtain ⟨d, -, h⟩ := Option.bind_eq_some_iff.mp h
  split at h
  · obtain ⟨c', -, h⟩ := Option.bind_eq_some_iff.mp h
    split at h
    · cases h
      refine budget_of_next hfinal hp (Nat.lt_add_of_pos_right (Nat.succ_pos 1)) ?_
      rw [hkept]
      exact hle
    split at h
    · cases h
      refine budget_of_next hfinal hp (Nat.lt_add_of_pos_right (Nat.succ_pos 1)) ?_
      rw [hkept]
      exact hle
    · cases h
      refine budget_of_next hfinal hp (Nat.lt_succ_self _) ?_
      rw [hkept]
      simp only [MatchState.kept, hpoint]
      omega
  · -- the pointer goes back to the mark, where it was kept
    cases h
    rw [MatchState.budget, MatchState.budget, hkept, MatchState.due, MatchState.due, hpoint]
    simp only [MatchState.kept, Nat.min_self]
    omega

theorem budget_nextStep {mark : ℕ} (hpoint : s.point = .next mark)
    (h : nextStep pattern mark s = some s') :
    s'.budget pattern input < s.budget pattern input := by
  obtain ⟨c, hc, h⟩ := Option.bind_eq_some_iff.mp h
  have hp : s.p ≤ pattern.bytes.length := le_of_charAt hc
  split at h
  · cases h
    refine budget_of_next hfinal hp (Nat.lt_succ_self _) ?_
    simp [MatchState.kept, hpoint]
  split at h
  · cases h
    refine budget_of_next hfinal hp (Nat.lt_succ_self _) ?_
    simp [MatchState.kept, hpoint]
  · cases h
    exact budget_returns hfinal hp 0

theorem budget_closeStep (hpoint : s.point = .close) (h : closeStep pattern s = some s') :
    s'.budget pattern input < s.budget pattern input := by
  obtain ⟨c, hc, h⟩ := Option.bind_eq_some_iff.mp h
  have hp : s.p ≤ pattern.bytes.length := le_of_charAt hc
  split at h
  · cases h
    refine budget_of_next hfinal hp (Nat.lt_succ_self _) ?_
    simp [MatchState.kept, hpoint]
  · cases h
    refine budget_of_next hfinal hp (Nat.lt_succ_self _) ?_
    simp [MatchState.kept, hpoint]

omit hfinal in
/-- A character of the input is passed, or the star is. -/
theorem budget_starStep (hpoint : s.point = .star) (h : starStep input s = some s') :
    s'.budget pattern input < s.budget pattern input := by
  obtain ⟨d, hd, h⟩ := Option.bind_eq_some_iff.mp h
  split at h
  · next hchar =>
      cases h
      have hi := lt_of_charAt hd hchar.1
      simp only [MatchState.budget, MatchState.kept, MatchState.due, hpoint]
      omega
  · cases h
    simp only [MatchState.budget, MatchState.kept, MatchState.due, hpoint]
    split <;> omega

/-- Every step but those behind a `return` is paid. -/
theorem budget_matchStep (h : matchStep pattern input s = some s') :
    s'.budget pattern input < s.budget pattern input := by
  rw [matchStep] at h
  split at h
  next hpoint => exact budget_loopStep hfinal hpoint h
  next hpoint => exact budget_starStep hpoint h
  next hpoint => exact budget_groupStep hfinal hpoint h
  next hpoint => exact budget_nextStep hfinal hpoint h
  next hpoint => exact budget_closeStep hfinal hpoint h
  next ret hpoint => exact absurd ⟨ret, hpoint⟩ hfinal

end Budget

/-! ## The bound -/

theorem budget_matchStart {s : MatchState} (h : matchStart input = some s) :
    s.budget pattern input ≤ 2 * pattern.bytes.length + input.bytes.length + 1 := by
  obtain ⟨d, hd, h⟩ := Option.bind_eq_some_iff.mp h
  simp only at h
  split at h
  · cases h
    simp only [MatchState.budget, MatchState.kept, MatchState.due, MatchState.returns]
    omega
  · next hslash =>
      rw [not_not] at hslash
      have hi := lt_of_charAt hd (hslash ▸ by decide)
      cases h
      have hdue : MatchState.due pattern ⟨.loop, 1, 1, 0⟩ ≤ 2 := due_le_two _
      simp only [MatchState.budget, MatchState.kept]
      omega

/-- The matcher returns within two rounds for each character of an accepted pattern and one for
each character of the input. -/
theorem doPatternMatch_rounds {s : CString} (h : oscPatternVerify (some s) ≠ oscPatternInvalid)
    (input : CString) :
    ∃ start n t ret, matchStart input = some start ∧
      n ≤ 2 * s.bytes.length + input.bytes.length + 1 ∧
      steps (matchStep s input) n start = some t ∧ t.point = .returned ret ∧
      doPatternMatch s input = some ret := by
  obtain ⟨ps, htail, hs, -⟩ := exists_shape h
  obtain ⟨ret, hmatch⟩ : ∃ ret, doPatternMatch s input = some ret := by
    rcases doPatternMatch_render htail hs input with ⟨-, hone⟩ | ⟨-, hzero⟩
    · exact ⟨1, hone⟩
    · exact ⟨0, hzero⟩
  obtain ⟨start, k, t, hstart, -, hsteps, hret⟩ := endsInside_of_eq_some hmatch
  have hleads : Leads (matchStep s input) start t := ⟨k, hsteps⟩
  obtain ⟨n, hn, hbudget⟩ := hleads.steps_le (MatchState.budget s input)
    (fun _ => matchStep_final) (fun _ _ hfinal hstep => budget_matchStep hfinal hstep)
  exact ⟨start, n, t, ret, hstart, hn.trans (budget_matchStart hstart), hbudget, hret, hmatch⟩

/-- The group of `/{a,b}*` goes back to the beginning of `/b` for its second alternative. -/
theorem doPatternMatch_rounds_groupThenStar :
    ∃ start n t ret, matchStart ⟨['/', 'b'].map Char.toUInt8, by decide, by decide⟩ = some start ∧
      n ≤ 17 ∧
      steps (matchStep groupThenStar ⟨['/', 'b'].map Char.toUInt8, by decide, by decide⟩) n start =
        some t ∧ t.point = .returned ret ∧
      doPatternMatch groupThenStar ⟨['/', 'b'].map Char.toUInt8, by decide, by decide⟩ =
        some ret :=
  doPatternMatch_rounds (s := groupThenStar) (by decide) _

end LittleOscar
