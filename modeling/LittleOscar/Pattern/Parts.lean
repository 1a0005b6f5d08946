import LittleOscar.Pattern.Match

/-!
# Part by part

A pattern and an input are a number of parts, each of them a slash and what follows it up to
the next one. `osc_pattern_verify` and `osc_pattern_match` go through the whole strings, but
they could as well be called for each part: no group and no star goes over a slash, and what the
scan of a part leaves does not depend on the parts behind it.
-/

namespace LittleOscar

open Machine Glob

/-- The string is made of the parts. -/
structure Parts (s : CString) (parts : List CString) : Prop where
  bytes : s.bytes = parts.flatMap CString.bytes
  slash : ∀ p ∈ parts, p.bytes = '/'.toUInt8 :: p.bytes.tail
  notMem : ∀ p ∈ parts, '/'.toUInt8 ∉ p.bytes.tail

variable {s input : CString} {parts inputs : List CString} {us : List (List UInt8)}

theorem Parts.words (h : Parts s parts) :
    s.bytes = (parts.map fun p => p.bytes.tail).flatMap fun u => '/'.toUInt8 :: u := by
  rw [h.bytes, List.flatMap_map]
  exact List.flatMap_congr h.slash

theorem Parts.words_notMem (h : Parts s parts) :
    ∀ u ∈ parts.map fun p => p.bytes.tail, '/'.toUInt8 ∉ u := by
  intro u hu
  obtain ⟨p, hp, rfl⟩ := List.mem_map.mp hu
  exact h.notMem p hp

/-- A part is a string with one part. -/
theorem Parts.single (h : Parts s parts) {p : CString} (hp : p ∈ parts) : Parts p [p] := by
  refine ⟨by simp, ?_, ?_⟩
  · rw [List.forall_mem_singleton]
    exact h.slash p hp
  · rw [List.forall_mem_singleton]
    exact h.notMem p hp

theorem exists_words (w : List UInt8) : ∃ u us, w = u ++ us.flatMap (fun v => '/'.toUInt8 :: v) ∧
    ∀ v ∈ u :: us, '/'.toUInt8 ∉ v := by
  induction w with
  | nil => exact ⟨[], [], rfl, by simp⟩
  | cons c w ih =>
      obtain ⟨u, us, rfl, hnotMem⟩ := ih
      by_cases hc : c = '/'.toUInt8
      · subst hc
        exact ⟨[], u :: us, rfl, List.forall_mem_cons.mpr ⟨by simp, hnotMem⟩⟩
      · obtain ⟨hu, hus⟩ := List.forall_mem_cons.mp hnotMem
        refine ⟨c :: u, us, rfl, List.forall_mem_cons.mpr ⟨?_, hus⟩⟩
        rw [List.mem_cons, not_or]
        exact ⟨Ne.symm hc, hu⟩

/-- Every string that begins with a slash is made of parts. -/
theorem exists_parts (h : s.bytes.head? = some '/'.toUInt8) : ∃ parts, Parts s parts := by
  obtain ⟨w, hw⟩ := List.head?_eq_some_iff.mp h
  obtain ⟨u, us, rfl, hnotMem⟩ := exists_words w
  have hbytes : s.bytes = (u :: us).flatMap fun v => '/'.toUInt8 :: v := hw
  have hpart : ∀ v ∈ u :: us, ∃ p : CString, p.bytes = '/'.toUInt8 :: v := by
    intro v hv
    refine ⟨⟨'/'.toUInt8 :: v, fun hzero => s.noNul ?_, lt_of_le_of_lt ?_ s.length_lt⟩, rfl⟩
    · rw [hbytes]
      exact List.mem_flatMap.mpr ⟨v, hv, hzero⟩
    · rw [hbytes, List.flatMap_def]
      exact (List.sublist_flatten_of_mem (List.mem_map_of_mem hv)).length_le
  have hnonempty : Nonempty CString := ⟨s⟩
  choose! part hslash using hpart
  refine ⟨(u :: us).map part, ?_, ?_, ?_⟩
  · rw [hbytes, List.flatMap_map]
    exact List.flatMap_congr fun v hv => (hslash v hv).symm
  · intro p hp
    obtain ⟨v, hv, rfl⟩ := List.mem_map.mp hp
    rw [hslash v hv, List.tail_cons]
  · intro p hp
    obtain ⟨v, hv, rfl⟩ := List.mem_map.mp hp
    rw [hslash v hv, List.tail_cons]
    exact hnotMem v hv

/-- The strings that are made of parts. -/
theorem exists_parts_iff (s : CString) :
    (∃ parts, Parts s parts) ↔ s.bytes = [] ∨ s.bytes.head? = some '/'.toUInt8 := by
  constructor
  · rintro ⟨parts, hparts⟩
    cases parts with
    | nil => exact Or.inl hparts.bytes
    | cons p parts =>
        refine Or.inr ?_
        rw [hparts.bytes, List.flatMap_cons, hparts.slash p List.mem_cons_self]
        rfl
  · rintro (hempty | hslash)
    · exact ⟨[], hempty, by simp, by simp⟩
    · exact exists_parts hslash

/-! ## What is accepted -/

/-- The pieces of a part. -/
def PartGlob (ps : List (Piece UInt8)) : Prop :=
  ps ≠ [] ∧ ∀ p ∈ ps, ValidPiece AcceptedWord p

theorem intercalate_eq_flatMap (sep : UInt8) (v : List UInt8) (us : List (List UInt8)) :
    [sep].intercalate (v :: us) = v ++ us.flatMap fun u => sep :: u := by
  induction us generalizing v with
  | nil => simp
  | cons u us ih => rw [List.intercalate_cons_cons, ih, List.flatMap_cons]; simp

/-- A string has its parts in one way only. -/
theorem flatMap_slash_injective {us vs : List (List UInt8)} (hus : ∀ u ∈ us, '/'.toUInt8 ∉ u)
    (hvs : ∀ v ∈ vs, '/'.toUInt8 ∉ v)
    (h : us.flatMap (fun u => '/'.toUInt8 :: u) = vs.flatMap fun v => '/'.toUInt8 :: v) :
    us = vs := by
  have hjoin : ['/'.toUInt8].intercalate ([] :: us) = ['/'.toUInt8].intercalate ([] :: vs) := by
    rw [intercalate_eq_flatMap, intercalate_eq_flatMap, h]
  have hsplit := congrArg (List.splitOn '/'.toUInt8) hjoin
  rw [List.splitOn_intercalate _ (List.forall_mem_cons.mpr ⟨by simp, hus⟩) (by simp),
    List.splitOn_intercalate _ (List.forall_mem_cons.mpr ⟨by simp, hvs⟩) (by simp)] at hsplit
  exact (List.cons.inj hsplit).2

theorem accepted_iff_isPatternOf :
    oscPatternVerify (some s) ≠ oscPatternInvalid ↔ IsPatternOf AcceptedWord s.bytes := by
  rw [isPatternOf_iff]
  constructor
  · exact exists_tail_of_accepted
  · rintro ⟨ps, htail, hs⟩
    rw [oscPatternVerify_render htail hs]
    exact acceptedResult_ne_invalid _

theorem ValidPiece.shape {p : Piece UInt8} (h : ValidPiece AcceptedWord p) :
    ValidPiece ShapeWord p := by
  cases p with
  | char c => exact h
  | any => trivial
  | star => trivial
  | choice alts => exact ⟨h.1, fun a ha => ((acceptedWord_iff a).mp (h.2 a ha)).1⟩

theorem renderPiece_slash_notMem {p : Piece UInt8} (h : ValidPiece ShapeWord p) :
    '/'.toUInt8 ∉ renderPiece p := by
  cases p with
  | char c =>
      rw [renderPiece, List.mem_singleton]
      rintro rfl
      have hliteral : Literal '/'.toUInt8 := h
      exact absurd hliteral (by decide)
  | any => decide
  | star => decide
  | choice alts =>
      have hbody : '/'.toUInt8 ∉ [','.toUInt8].intercalate alts :=
        notMem_intercalate (by decide) fun a ha => notMem_of_groupChars (h.2 a ha).2
      simp only [renderPiece, List.mem_cons, List.mem_append, List.not_mem_nil, or_false, not_or]
      exact ⟨by decide, hbody, by decide⟩

theorem PartGlob.render_notMem {ps : List (Piece UInt8)} (h : PartGlob ps) :
    '/'.toUInt8 ∉ render ps := by
  rw [render, List.mem_flatMap]
  rintro ⟨p, hp, hslash⟩
  exact renderPiece_slash_notMem (h.2 p hp).shape hslash

/-- The accepted strings, by what stands between their slashes. -/
theorem accepted_iff_words (hs : s.bytes = us.flatMap fun u => '/'.toUInt8 :: u)
    (hus : ∀ u ∈ us, '/'.toUInt8 ∉ u) :
    oscPatternVerify (some s) ≠ oscPatternInvalid ↔
      us ≠ [] ∧ ∀ u ∈ us, ∃ ps, PartGlob ps ∧ render ps = u := by
  rw [accepted_iff_isPatternOf, hs]
  constructor
  · rintro ⟨globs, hne, hglobs, heq⟩
    have hmap : us = globs.map render := by
      refine flatMap_slash_injective hus ?_ ?_
      · intro v hv
        obtain ⟨ps, hps, rfl⟩ := List.mem_map.mp hv
        exact PartGlob.render_notMem (hglobs ps hps)
      · rw [heq, List.flatMap_map]
        rfl
    rw [hmap]
    refine ⟨by simpa using hne, fun u hu => ?_⟩
    obtain ⟨ps, hps, rfl⟩ := List.mem_map.mp hu
    exact ⟨ps, hglobs ps hps, rfl⟩
  · rintro ⟨hne, hglobs⟩
    choose! glob hglob hrender using hglobs
    refine ⟨us.map glob, by simpa using hne, ?_, ?_⟩
    · intro ps hps
      obtain ⟨u, hu, rfl⟩ := List.mem_map.mp hps
      exact hglob u hu
    · rw [List.map_map, ← List.flatMap_def]
      refine List.flatMap_congr fun u hu => ?_
      rw [Function.comp_apply, hrender u hu]

/-- A string is accepted if it has a part and all its parts are. -/
theorem Parts.accepted_iff (h : Parts s parts) :
    oscPatternVerify (some s) ≠ oscPatternInvalid ↔
      parts ≠ [] ∧ ∀ p ∈ parts, oscPatternVerify (some p) ≠ oscPatternInvalid := by
  rw [accepted_iff_words h.words h.words_notMem, ne_eq, List.map_eq_nil_iff, List.forall_mem_map]
  refine and_congr_right fun _ => forall₂_congr fun p hp => ?_
  rw [accepted_iff_words (h.single hp).words (h.single hp).words_notMem]
  simp

/-! ## What is matched -/

/-- What the matcher says about the accepted pattern of the parts. -/
theorem doPatternMatch_joinParts {globs : List (List (Piece UInt8))} (hne : globs ≠ [])
    (hglobs : ∀ ps ∈ globs, PartGlob ps) (hs : s.bytes = render (joinParts globs))
    (input : CString) :
    Answers (doPatternMatch s input)
      (Greedy '/'.toUInt8 (joinParts globs) input.bytes ∧ Separated false input.bytes) := by
  have hpart : ∀ ps ∈ globs, ps ≠ [] ∧ ∀ p ∈ ps, ValidPiece ShapeWord p := fun ps hps =>
    ⟨(hglobs ps hps).1, fun p hp => ((hglobs ps hps).2 p hp).shape⟩
  obtain ⟨ps, globs, rfl⟩ := List.exists_cons_of_ne_nil hne
  obtain ⟨hps, hrest⟩ := List.forall_mem_cons.mp hpart
  have hcons : joinParts (ps :: globs) = .char '/'.toUInt8 :: (ps ++ joinParts globs) := rfl
  refine (doPatternMatch_render ((tail_joinParts hrest).append_part hps.1 hps.2) hs input).congr ?_
  rw [hcons, greedy_char_iff]
  constructor
  · rintro ⟨⟨i, hi, hgreedy⟩, hsep⟩
    rw [hi, separated_slash] at hsep
    exact ⟨i, hi, hgreedy, hsep.2⟩
  · rintro ⟨i, hi, hgreedy, hsep⟩
    rw [hi, separated_slash]
    exact ⟨⟨i, rfl, hgreedy⟩, rfl, hsep⟩

/-- No part but the last one is a slash alone. -/
theorem separated_flatMap_iff (hus : ∀ u ∈ us, '/'.toUInt8 ∉ u) :
    Separated false (us.flatMap fun u => '/'.toUInt8 :: u) ↔ ∀ u ∈ us.dropLast, u ≠ [] := by
  induction us with
  | nil => simp [Separated]
  | cons u us ih =>
      obtain ⟨hu, hrest⟩ := List.forall_mem_cons.mp hus
      rw [List.flatMap_cons, List.cons_append, separated_slash, and_iff_right rfl]
      cases u with
      | nil =>
          cases us with
          | nil => simp [Separated]
          | cons v us => simp [Separated]
      | cons c u =>
          rw [List.mem_cons, not_or] at hu
          rw [List.cons_append, separated_char (Ne.symm hu.1), separated_append hu.2, ih hrest]
          cases us with
          | nil => simp
          | cons v us => simp

/-- The matcher goes part by part. -/
theorem Parts.answers (hs : Parts s parts) (hinput : Parts input inputs) (hne : parts ≠ [])
    {glob : CString → List (Piece UInt8)} (hglob : ∀ p ∈ parts, PartGlob (glob p))
    (hrender : ∀ p ∈ parts, render (glob p) = p.bytes.tail) :
    Answers (doPatternMatch s input)
      (List.Forall₂ (fun p i => Greedy '/'.toUInt8 (glob p) i.bytes.tail) parts inputs ∧
        ∀ i ∈ inputs.dropLast, i.bytes.tail ≠ []) := by
  have hglobs : ∀ ps ∈ parts.map glob, PartGlob ps := List.forall_mem_map.mpr hglob
  have hbytes : s.bytes = render (joinParts (parts.map glob)) := by
    rw [render_joinParts, List.map_map, ← List.flatMap_def, hs.words, List.flatMap_map]
    refine List.flatMap_congr fun p hp => ?_
    rw [Function.comp_apply, hrender p hp]
  have hinner : ∀ ps ∈ parts.map glob, ∀ p ∈ ps, p.Inner '/'.toUInt8 := fun ps hps p hp u =>
    (((hglobs ps hps).2 p hp).shape).slash_notMem
  refine (doPatternMatch_joinParts (by simpa using hne) hglobs hbytes input).congr ?_
  rw [hinput.words, separated_flatMap_iff hinput.words_notMem, joinParts,
    greedy_segments_iff hinner hinput.words_notMem, List.forall₂_map_left_iff,
    List.forall₂_map_right_iff, ← List.map_dropLast, List.forall_mem_map]

/-- `osc_pattern_verify` and `osc_pattern_match` work part by part: a string is accepted if all
its parts are, and then matches an input of as many parts each of which matches the part of the
string at its place, if no part of the input but the last one is empty. It is so for all
strings that are empty or begin with a slash. -/
theorem oscPatternMatch_parts (hs : Parts s parts) (hinput : Parts input inputs) :
    (oscPatternVerify (some s) ≠ oscPatternInvalid ↔
      parts ≠ [] ∧ ∀ p ∈ parts, oscPatternVerify (some p) ≠ oscPatternInvalid) ∧
    (oscPatternVerify (some s) ≠ oscPatternInvalid → ∀ out,
      Answers (oscPatternMatch (oscPatternCompile out s).2 input)
        (List.Forall₂ (fun p i => oscPatternMatch (oscPatternCompile out p).2 i = some 1)
            parts inputs ∧
          ∀ i ∈ inputs.dropLast, i.bytes ≠ ['/'.toUInt8])) ∧
    ∀ t : CString, (∃ ts, Parts t ts) ↔ t.bytes = [] ∨ t.bytes.head? = some '/'.toUInt8 := by
  refine ⟨hs.accepted_iff, fun haccept out => ?_, exists_parts_iff⟩
  rw [oscPatternMatch_compiled haccept]
  obtain ⟨hne, hparts⟩ := hs.accepted_iff.mp haccept
  have hglobs : ∀ p ∈ parts, ∃ ps, PartGlob ps ∧ render ps = p.bytes.tail := fun p hp =>
    ((accepted_iff_words (hs.single hp).words (hs.single hp).words_notMem).mp (hparts p hp)).2 _
      (by simp)
  choose! glob hglob hrender using hglobs
  refine (hs.answers hinput hne hglob hrender).congr ?_
  rw [List.forall₂_iff_zip, List.forall₂_iff_zip]
  refine and_congr (and_congr_right fun _ => ?_) ?_
  · -- one part against one part
    refine forall_congr' fun p => forall_congr' fun i => forall_congr' fun hmem => ?_
    obtain ⟨hp, hi⟩ := List.of_mem_zip hmem
    have hsingle := (hs.single hp).answers (hinput.single hi) (by simp)
      (by simpa using hglob p hp) (by simpa using hrender p hp)
    rw [oscPatternMatch_compiled (hparts p hp), hsingle.eq_one_iff]
    simp
  · refine forall₂_congr fun i hi => ?_
    rw [hinput.slash i (List.dropLast_subset inputs hi)]
    simp

/-- The pattern `/a/*`. -/
def wordThenStar : CString where
  bytes := ['/', 'a', '/', '*'].map Char.toUInt8
  noNul := by decide
  length_lt := by decide

/-- On the input `/a/b`. -/
theorem oscPatternMatch_parts_wordThenStar :
    Answers
      (oscPatternMatch (oscPatternCompile ⟨true, wordThenStar⟩ wordThenStar).2
        ⟨['/', 'a', '/', 'b'].map Char.toUInt8, by decide, by decide⟩)
      (List.Forall₂
          (fun p i => oscPatternMatch (oscPatternCompile ⟨true, wordThenStar⟩ p).2 i = some 1)
          [⟨['/', 'a'].map Char.toUInt8, by decide, by decide⟩,
            ⟨['/', '*'].map Char.toUInt8, by decide, by decide⟩]
          [⟨['/', 'a'].map Char.toUInt8, by decide, by decide⟩,
            ⟨['/', 'b'].map Char.toUInt8, by decide, by decide⟩] ∧
        ∀ i ∈ [(⟨['/', 'a'].map Char.toUInt8, by decide, by decide⟩ : CString)],
          i.bytes ≠ ['/'.toUInt8]) :=
  (oscPatternMatch_parts (s := wordThenStar) ⟨rfl, by decide, by decide⟩
    ⟨rfl, by decide, by decide⟩).2.1 (by decide) _

end LittleOscar
