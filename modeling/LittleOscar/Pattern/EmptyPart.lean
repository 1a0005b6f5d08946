import LittleOscar.Pattern.Match

/-!
# Inputs with an empty part

`do_pattern_match` looks for an empty part where it meets the next slash of the input. An
empty part at the end has no slash behind it, so a star may stand for it: the loop is left
with `p` at the star, which the `return` skips. `rejectsEmptyPart_iff` says that this is
the only way in which an input with an empty part is matched.
-/

namespace LittleOscar

open Machine Glob

/-- There is a `//`, or a slash at the end. -/
def HasEmptyPart (w : List UInt8) : Prop :=
  ['/', '/'].map Char.toUInt8 <:+: w ∨ w.getLast? = some '/'.toUInt8

/-- An accepted pattern does not match an input with an empty part. -/
def RejectsEmptyPart (s input : CString) : Prop :=
  oscPatternVerify (some s) ≠ oscPatternInvalid → HasEmptyPart input.bytes →
    ∀ out, oscPatternMatch (oscPatternCompile out s).2 input = some 0

/-- The pattern ends with a part that is one star, the input with an empty part and no other
one, and what comes before is split as the scan does it. -/
def StarForLastPart (pattern w : List UInt8) : Prop :=
  ∃ q v, pattern = q ++ ['/', '*'].map Char.toUInt8 ∧ w = v ++ ['/'.toUInt8] ∧
    ¬ ['/', '/'].map Char.toUInt8 <:+: w ∧ GreedySplit q v

variable {s : CString} {first : Bool} {ps qs rs : List (Piece UInt8)}

theorem Tail.inner (h : Tail ShapeWord first ps) :
    ∀ p ∈ ps, p = .char '/'.toUInt8 ∨ p.Inner '/'.toUInt8 := by
  induction h with
  | nil => simp
  | slash _ ih => exact List.forall_mem_cons.mpr ⟨Or.inl rfl, ih⟩
  | piece hp _ ih => exact List.forall_mem_cons.mpr ⟨Or.inr fun u hu => hp.slash_notMem hu, ih⟩

/-- Behind a slash of the pattern a part begins. -/
theorem Tail.of_append_slash (h : Tail ShapeWord first (qs ++ .char '/'.toUInt8 :: rs)) :
    Tail ShapeWord true rs := by
  have hpiece : ¬ ValidPiece ShapeWord (.char '/'.toUInt8) := by
    intro habs
    have hliteral : Literal '/'.toUInt8 := habs
    exact absurd hliteral (by decide)
  induction qs generalizing first with
  | nil =>
      cases h with
      | slash htail => exact htail
      | piece habs _ => exact absurd habs hpiece
  | cons q qs ih =>
      cases h with
      | slash htail => exact ih htail
      | piece _ htail => exact ih htail

/-- An input that ends with a slash is split only if the pattern ends with one star behind a
slash. -/
theorem Tail.greedy_append_slash_iff (h : Tail ShapeWord first ps) {w : List UInt8} :
    Greedy '/'.toUInt8 ps (w ++ ['/'.toUInt8]) ↔
      ∃ qs, ps = qs ++ [.char '/'.toUInt8, .star] ∧ Greedy '/'.toUInt8 qs w := by
  rw [greedy_append_sep_iff h.inner]
  constructor
  · rintro ⟨qs, rs, rfl, hqs, hrs⟩
    have htail := h.of_append_slash
    rcases htail.greedy_nil_iff.mp hrs with rfl | rfl
    · cases htail
    · exact ⟨qs, rfl, hqs⟩
  · rintro ⟨qs, rfl, hqs⟩
    exact ⟨qs, [.star], rfl, hqs, h.of_append_slash.greedy_nil_iff.mpr (Or.inr rfl)⟩

/-- What an accepted pattern does with an input that has an empty part. -/
theorem matched_emptyPart_iff (h : oscPatternVerify (some s) ≠ oscPatternInvalid)
    {input : CString} (hempty : HasEmptyPart input.bytes) (out : OscPattern) :
    Answers (oscPatternMatch (oscPatternCompile out s).2 input)
      (StarForLastPart s.bytes input.bytes) := by
  obtain ⟨ps, htail, hs, -⟩ := exists_shape h
  obtain ⟨hpattern, hreadable⟩ := spells_of_tail htail hs
  have hslash : Tail ShapeWord false (.char '/'.toUInt8 :: ps) := .slash htail
  rw [oscPatternMatch_compiled h]
  refine (doPatternMatch_render htail hs input).congr ?_
  constructor
  · rintro ⟨q, v, hq, hv, hinfix, qs, hqs, hgreedy⟩
    have hps : .char '/'.toUInt8 :: ps = qs ++ [.char '/'.toUInt8, .star] := by
      refine render_injective hreadable ?_ ?_
      · rw [List.forall_mem_append]
        exact ⟨hqs.2, by decide⟩
      · rw [← hpattern, hq, hqs.1, render_append]
        rfl
    have hwhole := hslash.greedy_append_slash_iff.mpr ⟨qs, hps, hgreedy⟩
    obtain ⟨i, hi, hrest⟩ := greedy_char_iff.mp hwhole
    have hinput := hv.trans hi
    exact ⟨i, hinput, hrest, separated_true_iff.mpr (hinput ▸ hinfix)⟩
  · rintro ⟨i, hi, hgreedy, hsep⟩
    have hinfix : ¬ ['/', '/'].map Char.toUInt8 <:+: input.bytes := by
      rw [hi]
      exact separated_true_iff.mp hsep
    obtain ⟨v, hv⟩ := List.getLast?_eq_some_iff.mp (hempty.resolve_left hinfix)
    have hwhole : Greedy '/'.toUInt8 (.char '/'.toUInt8 :: ps) (v ++ ['/'.toUInt8]) := by
      rw [← hv, hi]
      exact greedy_char_iff.mpr ⟨i, rfl, hgreedy⟩
    obtain ⟨qs, hqs, hsplit⟩ := hslash.greedy_append_slash_iff.mp hwhole
    rw [hqs] at hpattern hreadable
    refine ⟨render qs, v, ?_, hv, hinfix, qs, ⟨rfl, ?_⟩, hsplit⟩
    · rw [hpattern, render_append]
      rfl
    · exact fun p hp => hreadable p (List.mem_append_left _ hp)

/-- An input with an empty part is rejected, unless a star stands for its last part. -/
theorem rejectsEmptyPart_iff (s input : CString) :
    RejectsEmptyPart s input ↔
      (oscPatternVerify (some s) ≠ oscPatternInvalid → ¬ StarForLastPart s.bytes input.bytes) := by
  constructor
  · intro hrejects haccept hstar
    let out : OscPattern := ⟨true, s⟩
    obtain ⟨q, v, -, hv, -⟩ := id hstar
    have hempty : HasEmptyPart input.bytes := Or.inr (by rw [hv, List.getLast?_concat])
    have hmatch := (matched_emptyPart_iff haccept hempty out).eq_one_iff.mpr hstar
    cases (hrejects haccept hempty out).symm.trans hmatch
  · intro hstar haccept hempty out
    rcases matched_emptyPart_iff haccept hempty out with ⟨habs, -⟩ | ⟨-, hmatch⟩
    · exact absurd habs (hstar haccept)
    · exact hmatch

/-- The pattern of one star. -/
def starPattern : CString where
  bytes := ['/', '*'].map Char.toUInt8
  noNul := by decide
  length_lt := by decide

/-- It matches the input of one slash. -/
theorem starPattern_not_rejectsEmptyPart :
    ¬ RejectsEmptyPart starPattern ⟨['/'].map Char.toUInt8, by decide, by decide⟩ := by
  intro hrejects
  have hmatch := hrejects (by decide) (Or.inr rfl) ⟨false, starPattern⟩
  exact absurd hmatch (by decide)

end LittleOscar
