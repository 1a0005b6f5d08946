import LittleOscar.Pattern.Match
import LittleOscar.Transition.Steps

/-!
# The matcher with its pointers

`do_pattern_match` once more, with `p`, `i`, `slash` and `mark` as indices into the two
strings and one step for each round of a loop. Nothing here ends by construction: the loop
over the alternatives has no test of its own, and the two scans inside it stop only at a
character that they hope to find. A read behind the terminating NUL has no result.

`doPatternMatch` is what these steps compute (`simulates`), and every step makes progress
(`progress_matchStep`). So on an accepted pattern they come to a `return`, within as many
steps as there are characters to look at (`endsInside_of_accepted`).
-/

namespace LittleOscar

open Machine Glob Transition

/-- The character at `s[ix]`. The NUL is there, and nothing behind it. -/
def charAt (s : CString) (ix : ℕ) : Option UInt8 := (s.bytes ++ [0])[ix]?

/-- Where the matcher stands: at the head of its loop, in the scan of a star, at the head of
the loop over the alternatives, in the scan behind a mismatch or behind an alternative that
was found, or behind a `return`. -/
inductive MatchPoint
  | loop
  | star
  | group (mark : ℕ)
  | next (mark : ℕ)
  | close
  | returned (ret : Int)
  deriving DecidableEq

/-- The point and the three pointers that all of it uses. -/
structure MatchState where
  point : MatchPoint
  p : ℕ
  i : ℕ
  slash : ℕ
  deriving DecidableEq

namespace MatchState

/-- `return ret`. -/
def returns (s : MatchState) (ret : Int) : MatchState := { s with point := .returned ret }

/-- The matcher has returned. -/
def Final (s : MatchState) : Prop := ∃ ret, s.point = .returned ret

end MatchState

variable (pattern input : CString)

/-- The `return` behind the loop. -/
def returnStep (s : MatchState) : Option MatchState := do
  let c ← charAt pattern s.p
  let p := if c = '*'.toUInt8 then s.p + 1 else s.p
  let c ← charAt pattern p
  if c ≠ 0 then some (s.returns 0)
  else do
    let d ← charAt input s.i
    some (s.returns (if d = 0 then 1 else 0))

/-- A slash of the input. -/
def slashStep (c : UInt8) (s : MatchState) : Option MatchState :=
  if (s.i : Int) - s.slash = 1 then some (s.returns 0)
  else do
    let p := if c = '*'.toUInt8 then s.p + 1 else s.p
    let c ← charAt pattern p
    if c ≠ '/'.toUInt8 then some (s.returns 0)
    else some { s with p := p + 1, i := s.i + 1, slash := s.i }

/-- A round of the loop, up to the loops inside it. -/
def loopStep (s : MatchState) : Option MatchState := do
  let c ← charAt pattern s.p
  if c = 0 then returnStep pattern input s
  else do
    let d ← charAt input s.i
    if d = 0 then returnStep pattern input s
    else if d = '/'.toUInt8 then slashStep pattern c s
    else if c = '?'.toUInt8 then some { s with p := s.p + 1, i := s.i + 1 }
    else if c = '*'.toUInt8 then some { s with point := .star }
    else if c = '['.toUInt8 then some (s.returns 0)
    else if c = '{'.toUInt8 then some { s with point := .group s.i, p := s.p + 1 }
    else if c ≠ d then some (s.returns 0)
    else some { s with p := s.p + 1, i := s.i + 1 }

/-- `while (*i && *i != '/') i++`, and the `p++` behind it. -/
def starStep (s : MatchState) : Option MatchState := do
  let d ← charAt input s.i
  if d ≠ 0 ∧ d ≠ '/'.toUInt8 then some { s with i := s.i + 1 }
  else some { s with point := .loop, p := s.p + 1 }

/-- A round of the loop over the alternatives. -/
def groupStep (mark : ℕ) (s : MatchState) : Option MatchState := do
  let c ← charAt pattern s.p
  let d ← charAt input s.i
  if c = d then do
    let s := { s with p := s.p + 1, i := s.i + 1 }
    let c ← charAt pattern s.p
    if c = ','.toUInt8 then some { s with point := .close, p := s.p + 1 }
    else if c = '}'.toUInt8 then some { s with point := .loop, p := s.p + 1 }
    else some s
  else some { s with point := .next mark, i := mark }

/-- `while (*p != ',' && *p != '}') p++`, and what follows it. -/
def nextStep (mark : ℕ) (s : MatchState) : Option MatchState := do
  let c ← charAt pattern s.p
  if c ≠ ','.toUInt8 ∧ c ≠ '}'.toUInt8 then some { s with p := s.p + 1 }
  else if c = ','.toUInt8 then some { s with point := .group mark, p := s.p + 1 }
  else some (s.returns 0)

/-- `while ((*p) != '}') p++`, and the `p++` behind it. -/
def closeStep (s : MatchState) : Option MatchState := do
  let c ← charAt pattern s.p
  if c ≠ '}'.toUInt8 then some { s with p := s.p + 1 }
  else some { s with point := .loop, p := s.p + 1 }

/-- A step of `do_pattern_match`. -/
def matchStep (s : MatchState) : Option MatchState :=
  match s.point with
  | .loop => loopStep pattern input s
  | .star => starStep input s
  | .group mark => groupStep pattern input mark s
  | .next mark => nextStep pattern mark s
  | .close => closeStep pattern s
  | .returned _ => some s

/-- The state before the loop. -/
def matchStart : Option MatchState := do
  let d ← charAt input 0
  let s : MatchState := { point := .loop, p := 1, i := 1, slash := 0 }
  if d ≠ '/'.toUInt8 then some (s.returns 0) else some s

variable {pattern input}

/-! ## Every step makes progress -/

/-- The steps that may come before `p` is moved: those of a star's scan and the one into it,
and those from the loop over the alternatives to its `return`. -/
def MatchState.slack (pattern input : CString) (s : MatchState) : ℕ :=
  match s.point with
  | .loop => if s.p ≤ pattern.bytes.length then input.bytes.length + 2 else 0
  | .star => input.bytes.length + 1 - s.i
  | .group _ => 2
  | .next _ => 1
  | _ => 0

/-- What is left of the pattern, a whole input for each character, and the slack. -/
def MatchState.rounds (pattern input : CString) (s : MatchState) : ℕ :=
  (pattern.bytes.length + 1 - s.p) * (input.bytes.length + 3) + s.slack pattern input

/-- `p` is moved inside the pattern, or there is less slack. -/
def Progress (pattern input : CString) (s s' : MatchState) : Prop :=
  s.p ≤ pattern.bytes.length ∧ s.p < s'.p ∨
    s.p ≤ s'.p ∧ s'.slack pattern input < s.slack pattern input

theorem le_of_charAt {s : CString} {ix : ℕ} {c : UInt8} (h : charAt s ix = some c) :
    ix ≤ s.bytes.length := by
  obtain ⟨hlt, -⟩ := List.getElem?_eq_some_iff.mp h
  rw [List.length_append, List.length_singleton] at hlt
  omega

theorem MatchState.slack_le (s : MatchState) :
    s.slack pattern input ≤ input.bytes.length + 2 := by
  rw [slack]
  split
  · split <;> omega
  all_goals omega

theorem Progress.rounds_lt {s s' : MatchState} (h : Progress pattern input s s') :
    s'.rounds pattern input < s.rounds pattern input := by
  rw [MatchState.rounds, MatchState.rounds]
  rcases h with ⟨hle, hlt⟩ | ⟨hmono, hslack⟩
  · have hchars : (pattern.bytes.length + 1 - s'.p + 1) * (input.bytes.length + 3) ≤
        (pattern.bytes.length + 1 - s.p) * (input.bytes.length + 3) :=
      Nat.mul_le_mul_right _ (by omega)
    have hslack : s'.slack pattern input ≤ input.bytes.length + 2 := s'.slack_le
    rw [Nat.add_mul, Nat.one_mul] at hchars
    omega
  · have hchars : (pattern.bytes.length + 1 - s'.p) * (input.bytes.length + 3) ≤
        (pattern.bytes.length + 1 - s.p) * (input.bytes.length + 3) :=
      Nat.mul_le_mul_right _ (by omega)
    omega

section Progress

variable {s s' : MatchState} {c : UInt8}

/-- A `return` in the loop. -/
theorem progress_returns (hpoint : s.point = .loop) (hc : s.p ≤ pattern.bytes.length)
    (ret : Int) : Progress pattern input s (s.returns ret) := by
  refine Or.inr ⟨le_rfl, ?_⟩
  rw [MatchState.slack, MatchState.slack, hpoint]
  simp [MatchState.returns, hc]

theorem progress_returnStep (hpoint : s.point = .loop) (hc : s.p ≤ pattern.bytes.length)
    (h : returnStep pattern input s = some s') : Progress pattern input s s' := by
  obtain ⟨c, -, h⟩ := Option.bind_eq_some_iff.mp h
  obtain ⟨c', -, h⟩ := Option.bind_eq_some_iff.mp h
  split at h
  · cases h
    exact progress_returns hpoint hc 0
  · obtain ⟨d, -, h⟩ := Option.bind_eq_some_iff.mp h
    cases h
    exact progress_returns hpoint hc _

theorem progress_slashStep (hpoint : s.point = .loop) (hc : s.p ≤ pattern.bytes.length)
    (h : slashStep pattern c s = some s') : Progress pattern input s s' := by
  rw [slashStep] at h
  split at h
  · cases h
    exact progress_returns hpoint hc 0
  · obtain ⟨c', -, h⟩ := Option.bind_eq_some_iff.mp h
    split at h
    · cases h
      exact progress_returns hpoint hc 0
    · cases h
      refine Or.inl ⟨hc, ?_⟩
      dsimp only
      split <;> omega

theorem progress_loopStep (hpoint : s.point = .loop) (h : loopStep pattern input s = some s') :
    Progress pattern input s s' := by
  obtain ⟨c, hc, h⟩ := Option.bind_eq_some_iff.mp h
  have hle : s.p ≤ pattern.bytes.length := le_of_charAt hc
  split at h
  · exact progress_returnStep hpoint hle h
  obtain ⟨d, hd, h⟩ := Option.bind_eq_some_iff.mp h
  split at h
  · exact progress_returnStep hpoint hle h
  split at h
  · exact progress_slashStep hpoint hle h
  split at h
  · cases h
    exact Or.inl ⟨hle, Nat.lt_succ_self _⟩
  split at h
  · cases h
    refine Or.inr ⟨le_rfl, ?_⟩
    simp only [MatchState.slack, hpoint, if_pos hle]
    omega
  split at h
  · cases h
    exact progress_returns hpoint hle 0
  split at h
  · cases h
    exact Or.inl ⟨hle, Nat.lt_succ_self _⟩
  split at h
  · cases h
    exact progress_returns hpoint hle 0
  · cases h
    exact Or.inl ⟨hle, Nat.lt_succ_self _⟩

theorem progress_starStep (hpoint : s.point = .star) (h : starStep input s = some s') :
    Progress pattern input s s' := by
  obtain ⟨d, hd, h⟩ := Option.bind_eq_some_iff.mp h
  have hle : s.i ≤ input.bytes.length := le_of_charAt hd
  split at h
  · cases h
    refine Or.inr ⟨le_rfl, ?_⟩
    simp only [MatchState.slack, hpoint]
    omega
  · cases h
    by_cases hp : s.p ≤ pattern.bytes.length
    · exact Or.inl ⟨hp, Nat.lt_succ_self _⟩
    · refine Or.inr ⟨Nat.le_succ _, ?_⟩
      have hp' : ¬ s.p + 1 ≤ pattern.bytes.length := by omega
      simp only [MatchState.slack, hpoint, if_neg hp']
      omega

theorem progress_groupStep {mark : ℕ} (hpoint : s.point = .group mark)
    (h : groupStep pattern input mark s = some s') : Progress pattern input s s' := by
  obtain ⟨c, hc, h⟩ := Option.bind_eq_some_iff.mp h
  have hle : s.p ≤ pattern.bytes.length := le_of_charAt hc
  obtain ⟨d, -, h⟩ := Option.bind_eq_some_iff.mp h
  split at h
  · obtain ⟨c', -, h⟩ := Option.bind_eq_some_iff.mp h
    refine Or.inl ⟨hle, ?_⟩
    split at h
    · cases h
      exact Nat.lt_add_of_pos_right (Nat.succ_pos 1)
    split at h
    · cases h
      exact Nat.lt_add_of_pos_right (Nat.succ_pos 1)
    · cases h
      exact Nat.lt_succ_self _
  · cases h
    refine Or.inr ⟨le_rfl, ?_⟩
    simp only [MatchState.slack, hpoint]
    omega

theorem progress_nextStep {mark : ℕ} (hpoint : s.point = .next mark)
    (h : nextStep pattern mark s = some s') : Progress pattern input s s' := by
  obtain ⟨c, hc, h⟩ := Option.bind_eq_some_iff.mp h
  have hle : s.p ≤ pattern.bytes.length := le_of_charAt hc
  split at h
  · cases h
    exact Or.inl ⟨hle, Nat.lt_succ_self _⟩
  split at h
  · cases h
    exact Or.inl ⟨hle, Nat.lt_succ_self _⟩
  · cases h
    refine Or.inr ⟨le_rfl, ?_⟩
    simp [MatchState.slack, MatchState.returns, hpoint]

theorem progress_closeStep (h : closeStep pattern s = some s') :
    Progress pattern input s s' := by
  obtain ⟨c, hc, h⟩ := Option.bind_eq_some_iff.mp h
  have hle : s.p ≤ pattern.bytes.length := le_of_charAt hc
  split at h
  · cases h
    exact Or.inl ⟨hle, Nat.lt_succ_self _⟩
  · cases h
    exact Or.inl ⟨hle, Nat.lt_succ_self _⟩

/-- Every step but those behind a `return` makes progress. -/
theorem progress_matchStep (hfinal : ¬ s.Final) (h : matchStep pattern input s = some s') :
    Progress pattern input s s' := by
  rw [matchStep] at h
  split at h
  next hpoint => exact progress_loopStep hpoint h
  next hpoint => exact progress_starStep hpoint h
  next hpoint => exact progress_groupStep hpoint h
  next hpoint => exact progress_nextStep hpoint h
  next => exact progress_closeStep h
  next ret hpoint => exact absurd ⟨ret, hpoint⟩ hfinal

theorem matchStep_final (h : s.Final) : matchStep pattern input s = some s := by
  obtain ⟨ret, hret⟩ := h
  rw [matchStep, hret]

end Progress

/-! ## The steps compute the loops -/

/-- The pointer `ix` into `s` is at the head of `l`. -/
structure Points (s : CString) (ix : ℕ) (l : List UInt8) : Prop where
  drop_eq : s.bytes.drop ix = l
  le : ix ≤ s.bytes.length

namespace Points

variable {s : CString} {ix iy : ℕ} {c : UInt8} {l k : List UInt8}

theorem next (h : Points s ix (c :: l)) : Points s (ix + 1) l := by
  have hlt : ix < s.bytes.length := by
    by_contra hge
    have hnil := h.drop_eq
    rw [List.drop_eq_nil_of_le (by omega)] at hnil
    cases hnil
  exact ⟨by rw [← List.tail_drop, h.drop_eq, List.tail_cons], hlt⟩

theorem length_add (h : Points s ix l) : ix + l.length = s.bytes.length := by
  have hlength := congrArg List.length h.drop_eq
  rw [List.length_drop] at hlength
  have hle := h.le
  omega

/-- The distance of two pointers is that of what they point at. -/
theorem sub_eq (h : Points s ix l) (h' : Points s iy k) :
    (ix : Int) - iy = (k.length : Int) - l.length := by
  have hix := h.length_add
  have hiy := h'.length_add
  omega

theorem charAt_eq (h : Points s ix l) : charAt s ix = some (l.headD 0) := by
  rw [charAt]
  cases l with
  | nil =>
      have hix : ix = s.bytes.length := h.length_add
      rw [hix, List.getElem?_concat_length]
      rfl
  | cons c l =>
      have hhead : s.bytes[ix]? = some c := by
        rw [← List.head?_drop, h.drop_eq, List.head?_cons]
      obtain ⟨hlt, -⟩ := List.getElem?_eq_some_iff.mp hhead
      rw [List.getElem?_append_left hlt, hhead]
      rfl

theorem ne_nul (h : Points s ix (c :: l)) : c ≠ 0 := by
  rintro rfl
  refine s.noNul (List.mem_of_mem_drop (i := ix) ?_)
  rw [h.drop_eq]
  exact List.mem_cons_self

theorem headD_eq_zero_iff (h : Points s ix l) : l.headD 0 = 0 ↔ l = [] := by
  cases l with
  | nil => simp
  | cons c l => simpa using h.ne_nul

/-- A star is skipped. -/
theorem skip (h : Points s ix l) :
    Points s (if l.headD 0 = '*'.toUInt8 then ix + 1 else ix)
      (if l.head? = some '*'.toUInt8 then l.tail else l) := by
  cases l with
  | nil =>
      rw [if_neg (by decide), if_neg (by simp)]
      exact h
  | cons c l =>
      by_cases hc : c = '*'.toUInt8
      · simpa [hc] using h.next
      · simpa [hc] using h

end Points

/-- The steps from `s` lead to a `return` of the result, if there is one. -/
def Returns (pattern input : CString) (s : MatchState) (r : Option Int) : Prop :=
  ∀ ret, r = some ret →
    ∃ t, Leads (matchStep pattern input) s t ∧ t.point = .returned ret

namespace Returns

variable {s t : MatchState} {r : Option Int}

theorem none : Returns pattern input s none := fun _ habs => by cases habs

theorem done (s : MatchState) (ret : Int) :
    Returns pattern input (s.returns ret) (some ret) := by
  rintro _ ⟨⟩
  exact ⟨_, .refl _ _, rfl⟩

theorem head (hstep : matchStep pattern input s = some t) (h : Returns pattern input t r) :
    Returns pattern input s r := by
  intro ret hret
  obtain ⟨u, hu, hpoint⟩ := h ret hret
  exact ⟨u, hu.head hstep, hpoint⟩

theorem trans (hleads : Leads (matchStep pattern input) s t)
    (h : Returns pattern input t r) : Returns pattern input s r := by
  intro ret hret
  obtain ⟨u, hu, hpoint⟩ := h ret hret
  exact ⟨u, hleads.trans hu, hpoint⟩

end Returns

/-- From the pointers to `p` on, the steps compute what the functions on lists do. -/
structure Simulates (pattern input : CString) (p : List UInt8) : Prop where
  loop : ∀ {ix iy iz : ℕ} {i slash : List UInt8}, Points pattern ix p → Points input iy i →
    Points input iz slash → Returns pattern input ⟨.loop, ix, iy, iz⟩ (matchLoop slash p i)
  group : ∀ {ix iy iz im : ℕ} {i slash mark : List UInt8}, Points pattern ix p →
    Points input iy i → Points input iz slash → Points input im mark →
    Returns pattern input ⟨.group im, ix, iy, iz⟩ (matchGroup slash mark p i)
  next : ∀ {ix iz im : ℕ} {slash mark : List UInt8}, Points pattern ix p →
    Points input iz slash → Points input im mark →
    Returns pattern input ⟨.next im, ix, im, iz⟩ (nextAlternative slash mark p)
  close : ∀ {ix iy iz : ℕ} {i slash : List UInt8}, Points pattern ix p → Points input iy i →
    Points input iz slash → Returns pattern input ⟨.close, ix, iy, iz⟩ (closeGroup slash i p)

section Simulation

variable {ix iy iz im : ℕ} {c : UInt8} {p i slash mark : List UInt8}

theorem returnStep_eq (hp : Points pattern ix p) (hi : Points input iy i) :
    returnStep pattern input ⟨.loop, ix, iy, iz⟩ =
      some (MatchState.returns ⟨.loop, ix, iy, iz⟩ (matchEnd p i)) := by
  have hskip := hp.skip
  simp only [returnStep, hp.charAt_eq, hskip.charAt_eq, hi.charAt_eq, Option.bind_eq_bind,
    Option.bind_some, ne_eq, hskip.headD_eq_zero_iff, hi.headD_eq_zero_iff, matchEnd]
  by_cases hend : (if p.head? = some '*'.toUInt8 then p.tail else p) = []
  · simp [hend]
  · simp [hend]

theorem simulates_close (ih : ∀ q, q.length < (c :: p).length → Simulates pattern input q)
    (hp : Points pattern ix (c :: p)) (hi : Points input iy i) (hslash : Points input iz slash) :
    Returns pattern input ⟨.close, ix, iy, iz⟩ (closeGroup slash i (c :: p)) := by
  have hrest := ih p (Nat.lt_succ_self _)
  have hstep : matchStep pattern input ⟨.close, ix, iy, iz⟩ =
      some (if c ≠ '}'.toUInt8 then ⟨.close, ix + 1, iy, iz⟩ else ⟨.loop, ix + 1, iy, iz⟩) := by
    simp only [matchStep, closeStep, hp.charAt_eq, Option.bind_eq_bind, Option.bind_some,
      List.headD_cons, ← apply_ite some]
  refine .head hstep ?_
  rw [closeGroup]
  by_cases hc : c ≠ '}'.toUInt8
  · rw [if_pos hc, if_pos hc]
    exact hrest.close hp.next hi hslash
  · rw [if_neg hc, if_neg hc]
    exact hrest.loop hp.next hi hslash

theorem simulates_next (ih : ∀ q, q.length < (c :: p).length → Simulates pattern input q)
    (hp : Points pattern ix (c :: p)) (hslash : Points input iz slash)
    (hmark : Points input im mark) :
    Returns pattern input ⟨.next im, ix, im, iz⟩ (nextAlternative slash mark (c :: p)) := by
  have hrest := ih p (Nat.lt_succ_self _)
  have hstep : matchStep pattern input ⟨.next im, ix, im, iz⟩ =
      if c ≠ ','.toUInt8 ∧ c ≠ '}'.toUInt8 then some ⟨.next im, ix + 1, im, iz⟩
      else if c = ','.toUInt8 then some ⟨.group im, ix + 1, im, iz⟩
      else some (MatchState.returns ⟨.next im, ix, im, iz⟩ 0) := by
    simp only [matchStep, nextStep, hp.charAt_eq, Option.bind_eq_bind, Option.bind_some,
      List.headD_cons]
  rw [nextAlternative]
  by_cases hcomma : c = ','.toUInt8
  · rw [if_neg (by simp [hcomma]), if_pos hcomma] at hstep
    rw [if_pos hcomma]
    exact .head hstep (hrest.group hp.next hmark hslash hmark)
  by_cases hclose : c = '}'.toUInt8
  · rw [if_neg (by simp [hclose]), if_neg hcomma] at hstep
    rw [if_neg hcomma, if_pos hclose]
    exact .head hstep (.done _ 0)
  · rw [if_pos ⟨hcomma, hclose⟩] at hstep
    rw [if_neg hcomma, if_neg hclose]
    exact .head hstep (hrest.next hp.next hslash hmark)

/-- A mismatch at the head of an alternative is a mismatch behind its first character. -/
theorem matchGroup_eq_nextAlternative (h : i.head? ≠ some c) :
    matchGroup slash mark (c :: p) i = nextAlternative slash mark (c :: p) := by
  rw [matchGroup.eq_def, nextAlternative]
  simp only [if_neg h]

theorem simulates_group (ih : ∀ q, q.length < (c :: p).length → Simulates pattern input q)
    (hp : Points pattern ix (c :: p)) (hi : Points input iy i) (hslash : Points input iz slash)
    (hmark : Points input im mark) :
    Returns pattern input ⟨.group im, ix, iy, iz⟩ (matchGroup slash mark (c :: p) i) := by
  by_cases hhead : i.head? = some c
  · obtain ⟨i, rfl⟩ := List.head?_eq_some_iff.mp hhead
    cases p with
    | nil =>
        have hnone : matchGroup slash mark [c] (c :: i) = none := by
          rw [matchGroup.eq_def]
          simp only [List.head?_cons, if_true]
          rw [matchGroup]
        rw [hnone]
        exact .none
    | cons c' p =>
        have hrest := ih p (Nat.lt_succ_of_lt (Nat.lt_succ_self _))
        have hstep : matchStep pattern input ⟨.group im, ix, iy, iz⟩ =
            if c' = ','.toUInt8 then some ⟨.close, ix + 2, iy + 1, iz⟩
            else if c' = '}'.toUInt8 then some ⟨.loop, ix + 2, iy + 1, iz⟩
            else some ⟨.group im, ix + 1, iy + 1, iz⟩ := by
          simp only [matchStep, groupStep, hp.charAt_eq, hi.charAt_eq, hp.next.charAt_eq,
            Option.bind_eq_bind, Option.bind_some, List.headD_cons, if_true]
        rw [matchGroup_hit]
        by_cases hcomma : c' = ','.toUInt8
        · rw [if_pos hcomma] at hstep
          rw [if_pos (Or.inl hcomma), behindWord, if_pos hcomma]
          exact .head hstep (hrest.close hp.next.next hi.next hslash)
        by_cases hclose : c' = '}'.toUInt8
        · rw [if_neg hcomma, if_pos hclose] at hstep
          rw [if_pos (Or.inr hclose), behindWord, if_neg hcomma]
          exact .head hstep (hrest.loop hp.next.next hi.next hslash)
        · rw [if_neg hcomma, if_neg hclose] at hstep
          rw [if_neg (not_or.mpr ⟨hcomma, hclose⟩)]
          exact .head hstep ((ih _ (Nat.lt_succ_self _)).group hp.next hi.next hslash hmark)
  · have hne : c ≠ i.headD 0 := by
      cases i with
      | nil => exact hp.ne_nul
      | cons d i => simpa [eq_comm] using hhead
    have hstep : matchStep pattern input ⟨.group im, ix, iy, iz⟩ =
        some ⟨.next im, ix, im, iz⟩ := by
      simp only [matchStep, groupStep, hp.charAt_eq, hi.charAt_eq, Option.bind_eq_bind,
        Option.bind_some, List.headD_cons, if_neg hne]
    rw [matchGroup_eq_nextAlternative hhead]
    exact .head hstep (simulates_next ih hp hslash hmark)

/-- The scan of a star leads behind what the star takes. -/
theorem leads_star (hi : Points input iy i) :
    ∃ iy', Points input iy' (i.dropWhile (· ≠ '/'.toUInt8)) ∧
      Leads (matchStep pattern input) ⟨.star, ix, iy, iz⟩ ⟨.loop, ix + 1, iy', iz⟩ := by
  induction i generalizing iy with
  | nil =>
      refine ⟨iy, hi, .single ?_⟩
      simp [matchStep, starStep, hi.charAt_eq]
  | cons d i ih =>
      by_cases hd : d = '/'.toUInt8
      · refine ⟨iy, by simpa [hd] using hi, .single ?_⟩
        simp [matchStep, starStep, hi.charAt_eq, hd]
      · obtain ⟨iy', hi', hleads⟩ := ih hi.next
        refine ⟨iy', by simpa [hd] using hi', hleads.head ?_⟩
        simp [matchStep, starStep, hi.charAt_eq, hd, hi.ne_nul]

theorem simulates_slash (ih : ∀ q, q.length < (c :: p).length → Simulates pattern input q)
    (hp : Points pattern ix (c :: p)) (hi : Points input iy ('/'.toUInt8 :: i))
    (hslash : Points input iz slash) :
    Returns pattern input ⟨.loop, ix, iy, iz⟩
      (matchLoop slash (c :: p) ('/'.toUInt8 :: i)) := by
  have hstep : matchStep pattern input ⟨.loop, ix, iy, iz⟩ =
      slashStep pattern c ⟨.loop, ix, iy, iz⟩ := by
    simp only [matchStep, loopStep, hp.charAt_eq, hi.charAt_eq, Option.bind_eq_bind,
      Option.bind_some, List.headD_cons, if_neg hp.ne_nul, if_neg hi.ne_nul, if_true]
  rw [slashStep, hi.sub_eq hslash] at hstep
  rw [matchLoop.eq_def]
  simp only [if_true]
  by_cases hempty : (slash.length : Int) - ('/'.toUInt8 :: i).length = 1
  · rw [if_pos hempty] at hstep ⊢
    exact .head hstep (.done _ 0)
  · rw [if_neg hempty] at hstep ⊢
    by_cases hstar : c = '*'.toUInt8
    · rw [if_pos hstar]
      cases p with
      | nil =>
          simp only [if_pos hstar, hp.next.charAt_eq, Option.bind_eq_bind,
            Option.bind_some] at hstep
          exact .head hstep (.done _ 0)
      | cons c' p =>
          have hrest := ih p (Nat.lt_succ_of_lt (Nat.lt_succ_self _))
          have hread : charAt pattern (ix + 1) = some c' := hp.next.charAt_eq
          simp only [if_pos hstar, hread, Option.bind_eq_bind, Option.bind_some] at hstep
          dsimp only
          by_cases hc : c' = '/'.toUInt8
          · rw [if_neg (not_not.mpr hc)] at hstep ⊢
            exact .head hstep (hrest.loop hp.next.next hi.next hi)
          · rw [if_pos hc] at hstep ⊢
            exact .head hstep (.done _ 0)
    · rw [if_neg hstar]
      simp only [if_neg hstar, hp.charAt_eq, Option.bind_eq_bind, Option.bind_some,
        List.headD_cons] at hstep
      by_cases hc : c = '/'.toUInt8
      · rw [if_neg (not_not.mpr hc)] at hstep ⊢
        exact .head hstep ((ih p (Nat.lt_succ_self _)).loop hp.next hi.next hi)
      · rw [if_pos hc] at hstep ⊢
        exact .head hstep (.done _ 0)

/-- A round of the loop away from the slashes of the input. -/
theorem simulates_char {d : UInt8}
    (ih : ∀ q, q.length < (c :: p).length → Simulates pattern input q)
    (hp : Points pattern ix (c :: p)) (hi : Points input iy (d :: i)) (hd : d ≠ '/'.toUInt8)
    (hslash : Points input iz slash) :
    Returns pattern input ⟨.loop, ix, iy, iz⟩ (matchLoop slash (c :: p) (d :: i)) := by
  have hrest := ih p (Nat.lt_succ_self _)
  have hstep : matchStep pattern input ⟨.loop, ix, iy, iz⟩ =
      if c = '?'.toUInt8 then some ⟨.loop, ix + 1, iy + 1, iz⟩
      else if c = '*'.toUInt8 then some ⟨.star, ix, iy, iz⟩
      else if c = '['.toUInt8 then some (MatchState.returns ⟨.loop, ix, iy, iz⟩ 0)
      else if c = '{'.toUInt8 then some ⟨.group iy, ix + 1, iy, iz⟩
      else if c ≠ d then some (MatchState.returns ⟨.loop, ix, iy, iz⟩ 0)
      else some ⟨.loop, ix + 1, iy + 1, iz⟩ := by
    simp only [matchStep, loopStep, hp.charAt_eq, hi.charAt_eq, Option.bind_eq_bind,
      Option.bind_some, List.headD_cons, if_neg hp.ne_nul, if_neg hi.ne_nul, if_neg hd]
  rw [matchLoop.eq_def]
  simp only [if_neg hd]
  by_cases hany : c = '?'.toUInt8
  · rw [if_pos hany] at hstep ⊢
    exact .head hstep (hrest.loop hp.next hi.next hslash)
  rw [if_neg hany] at hstep ⊢
  by_cases hstar : c = '*'.toUInt8
  · rw [if_pos hstar] at hstep ⊢
    obtain ⟨iy', hi', hleads⟩ := leads_star hi
    exact .head hstep (.trans hleads (hrest.loop hp.next hi' hslash))
  rw [if_neg hstar] at hstep ⊢
  by_cases hbracket : c = '['.toUInt8
  · rw [if_pos hbracket] at hstep ⊢
    exact .head hstep (.done _ 0)
  rw [if_neg hbracket] at hstep ⊢
  by_cases hopen : c = '{'.toUInt8
  · rw [if_pos hopen] at hstep ⊢
    exact .head hstep (hrest.group hp.next hi hslash hi)
  rw [if_neg hopen] at hstep ⊢
  by_cases hcd : c ≠ d
  · rw [if_pos hcd] at hstep ⊢
    exact .head hstep (.done _ 0)
  · rw [if_neg hcd] at hstep ⊢
    exact .head hstep (hrest.loop hp.next hi.next hslash)

theorem simulates_loop (ih : ∀ q, q.length < p.length → Simulates pattern input q)
    (hp : Points pattern ix p) (hi : Points input iy i) (hslash : Points input iz slash) :
    Returns pattern input ⟨.loop, ix, iy, iz⟩ (matchLoop slash p i) := by
  cases p with
  | nil =>
      have hstep : matchStep pattern input ⟨.loop, ix, iy, iz⟩ =
          returnStep pattern input ⟨.loop, ix, iy, iz⟩ := by
        simp [matchStep, loopStep, hp.charAt_eq]
      rw [matchLoop]
      exact .head (hstep.trans (returnStep_eq hp hi)) (.done _ _)
  | cons c p =>
      cases i with
      | nil =>
          have hstep : matchStep pattern input ⟨.loop, ix, iy, iz⟩ =
              returnStep pattern input ⟨.loop, ix, iy, iz⟩ := by
            simp [matchStep, loopStep, hp.charAt_eq, hi.charAt_eq]
          rw [matchLoop]
          exact .head (hstep.trans (returnStep_eq hp hi)) (.done _ _)
      | cons d i =>
          by_cases hd : d = '/'.toUInt8
          · subst hd
            exact simulates_slash ih hp hi hslash
          · exact simulates_char ih hp hi hd hslash

/-- By induction on what is left of the pattern. -/
theorem simulates (pattern input : CString) (p : List UInt8) : Simulates pattern input p := by
  induction hn : p.length using Nat.strong_induction_on generalizing p with
  | _ n ih =>
      subst hn
      have ih' (q : List UInt8) (hq : q.length < p.length) : Simulates pattern input q :=
        ih _ hq q rfl
      refine ⟨simulates_loop ih', ?_, ?_, ?_⟩
      · intro ix iy iz im i slash mark hp hi hslash hmark
        cases p with
        | nil => rw [matchGroup]; exact .none
        | cons c p => exact simulates_group ih' hp hi hslash hmark
      · intro ix iz im slash mark hp hslash hmark
        cases p with
        | nil => rw [nextAlternative]; exact .none
        | cons c p => exact simulates_next ih' hp hslash hmark
      · intro ix iy iz i slash hp hi hslash
        cases p with
        | nil => rw [closeGroup]; exact .none
        | cons c p => exact simulates_close ih' hp hi hslash

end Simulation

/-! ## The run on an accepted pattern -/

/-- `do_pattern_match` comes to a `return` within `MatchState.rounds` steps, and no character
is read behind a NUL. -/
def EndsInside (pattern input : CString) (ret : Int) : Prop :=
  ∃ s n t, matchStart input = some s ∧ n ≤ s.rounds pattern input ∧
    steps (matchStep pattern input) n s = some t ∧ t.point = .returned ret

theorem points_zero (s : CString) : Points s 0 s.bytes := ⟨rfl, Nat.zero_le _⟩

/-- What the functions on lists compute is what the steps come to. -/
theorem endsInside_of_eq_some {ret : Int} (h : doPatternMatch pattern input = some ret) :
    EndsInside pattern input ret := by
  let s : MatchState := ⟨.loop, 1, 1, 0⟩
  have hstart : matchStart input =
      some (if input.bytes.headD 0 ≠ '/'.toUInt8 then s.returns 0 else s) := by
    simp only [matchStart, (points_zero input).charAt_eq, Option.bind_eq_bind, Option.bind_some,
      ← apply_ite some]
    rfl
  rw [doPatternMatch] at h
  cases hinput : input.bytes with
  | nil =>
      rw [hinput] at h hstart
      cases h
      exact ⟨_, 0, _, hstart, Nat.zero_le _, rfl, rfl⟩
  | cons d i =>
      rw [hinput, List.headD_cons] at hstart
      simp only [hinput] at h
      by_cases hd : d ≠ '/'.toUInt8
      · rw [if_pos hd] at h hstart
        cases h
        exact ⟨_, 0, _, hstart, Nat.zero_le _, rfl, rfl⟩
      · rw [if_neg hd] at h hstart
        cases hpattern : pattern.bytes with
        | nil =>
            rw [hpattern] at h
            cases h
        | cons c p =>
            simp only [hpattern] at h
            have hp : Points pattern 0 (c :: p) := hpattern ▸ points_zero pattern
            have hi : Points input 0 (d :: i) := hinput ▸ points_zero input
            obtain ⟨t, hleads, hpoint⟩ :=
              (simulates pattern input p).loop hp.next hi.next hi ret h
            obtain ⟨n, hn, hsteps⟩ := hleads.steps_le (MatchState.rounds pattern input)
              (fun _ => matchStep_final)
              (fun _ _ hfinal hstep => (progress_matchStep hfinal hstep).rounds_lt)
            exact ⟨s, n, t, hstart, hn, hsteps, hpoint⟩

/-- On an accepted pattern the matcher ends inside the strings, whatever the input. -/
theorem endsInside_of_accepted {s : CString}
    (h : oscPatternVerify (some s) ≠ oscPatternInvalid) (input : CString) :
    ∃ ret, EndsInside s input ret ∧ doPatternMatch s input = some ret := by
  obtain ⟨ps, htail, hs, -⟩ := exists_shape h
  have hret : ∃ ret, doPatternMatch s input = some ret := by
    rcases doPatternMatch_render htail hs input with ⟨-, hone⟩ | ⟨-, hzero⟩
    · exact ⟨1, hone⟩
    · exact ⟨0, hzero⟩
  obtain ⟨ret, hret⟩ := hret
  exact ⟨ret, endsInside_of_eq_some hret, hret⟩

/-- The pattern `/{a,b}*` on the input `/b`. -/
theorem endsInside_of_accepted_groupThenStar :
    ∃ ret, EndsInside groupThenStar ⟨['/', 'b'].map Char.toUInt8, by decide, by decide⟩ ret ∧
      doPatternMatch groupThenStar ⟨['/', 'b'].map Char.toUInt8, by decide, by decide⟩ =
        some ret :=
  endsInside_of_accepted (by decide) _

end LittleOscar
