import Mathlib.Data.List.Find
import Mathlib.Data.List.Forall2
import Mathlib.Data.List.TakeWhile

/-!
# Globs

A glob is a list of pieces over any alphabet with a separator: a letter, one letter
other than the separator, a run of such letters, or a choice between words. `Matches`
is the language of a glob, that is the existence of a split of the word.

`Greedy` is the split that a scan without backtracking finds: a star takes all that is
left of its segment, a star that takes nothing is not followed by another one, and a
choice takes its first word that is a prefix of what is left. It is a part of the
language, and all of it for the globs in which the scan never has to choose
(`Matches.greedy`). A word is scanned segment by segment (`greedy_segments_iff`).
-/

namespace Glob

inductive Piece (α : Type) where
  | char (c : α)
  | any
  | star
  | choice (alts : List (List α))

variable {α : Type}

/-- The words of a piece. -/
def Piece.Matches (sep : α) : Piece α → List α → Prop
  | .char c, u => u = [c]
  | .any, u => ∃ c, c ≠ sep ∧ u = [c]
  | .star, u => sep ∉ u
  | .choice alts, u => u ∈ alts

/-- The language of a glob. -/
inductive Matches (sep : α) : List (Piece α) → List α → Prop
  | nil : Matches sep [] []
  | cons {p : Piece α} {ps : List (Piece α)} {u v : List α} :
      p.Matches sep u → Matches sep ps v → Matches sep (p :: ps) (u ++ v)

variable [DecidableEq α]

/-- The first of the words that is a prefix of `w`. -/
def firstPrefix (alts : List (List α)) (w : List α) : Option (List α) :=
  alts.find? fun a => a.isPrefixOf w

/-- The scan gives `u` to the piece `p` when `v` follows, to be matched with `ps`. -/
def Piece.Takes (sep : α) (ps : List (Piece α)) (u v : List α) : Piece α → Prop
  | .char _ | .any => True
  | .star => (∀ c ∈ v.head?, c = sep) ∧ (u = [] → ps.head? ≠ some .star)
  | .choice alts => firstPrefix alts (u ++ v) = some u

/-- The words that the scan finds in the language. -/
inductive Greedy (sep : α) : List (Piece α) → List α → Prop
  | nil : Greedy sep [] []
  | cons {p : Piece α} {ps : List (Piece α)} {u v : List α} :
      p.Matches sep u → p.Takes sep ps u v → Greedy sep ps v → Greedy sep (p :: ps) (u ++ v)

variable {sep : α} {ps : List (Piece α)} {u v w : List α}

theorem Greedy.matches (h : Greedy sep ps w) : Matches sep ps w := by
  induction h with
  | nil => exact .nil
  | cons hp _ _ ih => exact .cons hp ih

/-! ## The scan, piece by piece -/

theorem firstPrefix_eq_some {alts : List (List α)} (h : firstPrefix alts w = some u) :
    u ∈ alts ∧ u <+: w := by
  rw [firstPrefix] at h
  have hfound : u.isPrefixOf w = true := by simpa using List.find?_some h
  exact ⟨List.mem_of_find?_eq_some h, List.isPrefixOf_iff_prefix.mp hfound⟩

theorem greedy_nil_iff : Greedy sep [] w ↔ w = [] := by
  constructor
  · intro h
    cases h
    rfl
  · rintro rfl
    exact .nil

theorem greedy_cons_iff {p : Piece α} :
    Greedy sep (p :: ps) w ↔
      ∃ u v, w = u ++ v ∧ p.Matches sep u ∧ p.Takes sep ps u v ∧ Greedy sep ps v := by
  constructor
  · intro h
    cases h with
    | cons hp htakes hrest => exact ⟨_, _, rfl, hp, htakes, hrest⟩
  · rintro ⟨u, v, rfl, hp, htakes, hrest⟩
    exact .cons hp htakes hrest

theorem greedy_char_iff {c : α} :
    Greedy sep (.char c :: ps) w ↔ ∃ v, w = c :: v ∧ Greedy sep ps v := by
  rw [greedy_cons_iff]
  constructor
  · rintro ⟨u, v, rfl, rfl, -, hrest⟩
    exact ⟨v, rfl, hrest⟩
  · rintro ⟨v, rfl, hrest⟩
    exact ⟨[c], v, rfl, rfl, trivial, hrest⟩

theorem greedy_any_iff :
    Greedy sep (.any :: ps) w ↔ ∃ c v, c ≠ sep ∧ w = c :: v ∧ Greedy sep ps v := by
  rw [greedy_cons_iff]
  constructor
  · rintro ⟨u, v, rfl, ⟨c, hc, rfl⟩, -, hrest⟩
    exact ⟨c, v, hc, rfl, hrest⟩
  · rintro ⟨c, v, hc, rfl, hrest⟩
    exact ⟨[c], v, rfl, ⟨c, hc, rfl⟩, trivial, hrest⟩

/-- The rest of the segment, and what follows it. -/
theorem takeWhile_of_segment (hu : sep ∉ u) (hv : ∀ c ∈ v.head?, c = sep) :
    (u ++ v).takeWhile (· ≠ sep) = u ∧ (u ++ v).dropWhile (· ≠ sep) = v := by
  have hall : ∀ c ∈ u, decide (c ≠ sep) = true := by
    intro c hc
    rw [decide_eq_true_iff]
    rintro rfl
    exact hu hc
  rw [List.takeWhile_append_of_pos hall, List.dropWhile_append_of_pos hall]
  cases v with
  | nil => simp
  | cons c v =>
      have hc : c = sep := hv c rfl
      simp [hc]

theorem greedy_star_iff :
    Greedy sep (.star :: ps) w ↔
      (ps.head? = some .star → w.takeWhile (· ≠ sep) ≠ []) ∧
        Greedy sep ps (w.dropWhile (· ≠ sep)) := by
  rw [greedy_cons_iff]
  constructor
  · rintro ⟨u, v, rfl, hu, ⟨hv, hstar⟩, hrest⟩
    obtain ⟨htake, hdrop⟩ := takeWhile_of_segment hu hv
    rw [htake, hdrop]
    exact ⟨fun hps hnil => hstar hnil hps, hrest⟩
  · rintro ⟨hstar, hrest⟩
    refine ⟨_, _, List.takeWhile_append_dropWhile.symm, ?_, ⟨?_, ?_⟩, hrest⟩
    · intro hsep
      simpa using List.mem_takeWhile_imp hsep
    · intro c hc
      have hne := List.head?_dropWhile_not (· ≠ sep) w
      rw [hc] at hne
      simpa using hne
    · exact fun hnil hps => hstar hps hnil

theorem greedy_choice_iff {alts : List (List α)} :
    Greedy sep (.choice alts :: ps) w ↔
      ∃ u, firstPrefix alts w = some u ∧ Greedy sep ps (w.drop u.length) := by
  rw [greedy_cons_iff]
  constructor
  · rintro ⟨u, v, rfl, -, htakes, hrest⟩
    exact ⟨u, htakes, by rwa [List.drop_left]⟩
  · rintro ⟨u, hu, hrest⟩
    obtain ⟨hmem, v, rfl⟩ := firstPrefix_eq_some hu
    rw [List.drop_left] at hrest
    exact ⟨u, v, rfl, hmem, hu, hrest⟩

/-! ## A word that ends with the separator -/

/-- The words of a piece lie inside a segment. -/
def Piece.Inner (sep : α) (p : Piece α) : Prop := ∀ u, p.Matches sep u → sep ∉ u

theorem isPrefixOf_append_sep {a : List α} (ha : sep ∉ a) (x : List α) :
    a.isPrefixOf (w ++ sep :: x) = a.isPrefixOf w := by
  rw [Bool.eq_iff_iff, List.isPrefixOf_iff_prefix, List.isPrefixOf_iff_prefix]
  constructor
  · intro h
    rcases List.prefix_or_prefix_of_prefix h (List.prefix_append w (sep :: x)) with hle | ⟨b, rfl⟩
    · exact hle
    · -- the word goes on behind `w`, where the separator is
      rw [List.prefix_append_right_inj] at h
      cases b with
      | nil => simp
      | cons c b =>
          obtain rfl : c = sep := (List.cons_prefix_cons.mp h).1
          exact absurd (List.mem_append_right w List.mem_cons_self) ha
  · exact fun h => h.trans (List.prefix_append w (sep :: x))

/-- What the scan gives to a piece of a segment does not depend on the separator behind it. -/
theorem Piece.Inner.takes_append_sep {p : Piece α} {rs : List (Piece α)} {x : List α}
    (h : p.Inner sep) :
    p.Takes sep (ps ++ .char sep :: rs) u (v ++ sep :: x) ↔ p.Takes sep ps u v := by
  cases p with
  | char c => exact Iff.rfl
  | any => exact Iff.rfl
  | star =>
      have hletter : (∀ c ∈ (v ++ sep :: x).head?, c = sep) ↔ ∀ c ∈ v.head?, c = sep := by
        cases v with
        | nil => simp
        | cons d v => simp
      have hpiece : (ps ++ .char sep :: rs).head? ≠ some .star ↔ ps.head? ≠ some .star := by
        cases ps with
        | nil => simp
        | cons q ps => simp
      rw [Piece.Takes, Piece.Takes, hletter, hpiece]
  | choice alts =>
      have hfirst : firstPrefix alts (u ++ (v ++ sep :: x)) = firstPrefix alts (u ++ v) := by
        rw [firstPrefix, firstPrefix, ← List.append_assoc]
        exact List.find?_congr fun a ha => isPrefixOf_append_sep (h a ha) x
      rw [Piece.Takes, Piece.Takes, hfirst]

/-- The scan matches a last separator with the last one of the glob, and what follows it there
with nothing. -/
theorem greedy_append_sep_iff (h : ∀ p ∈ ps, p = .char sep ∨ p.Inner sep) :
    Greedy sep ps (w ++ [sep]) ↔
      ∃ qs rs, ps = qs ++ .char sep :: rs ∧ Greedy sep qs w ∧ Greedy sep rs [] := by
  constructor
  · intro hgreedy
    induction ps generalizing w with
    | nil => exact absurd (greedy_nil_iff.mp hgreedy) (by simp)
    | cons p ps ih =>
        obtain ⟨hp, hps⟩ := List.forall_mem_cons.mp h
        obtain ⟨u, v, heq, hmatch, htakes, hrest⟩ := greedy_cons_iff.mp hgreedy
        rcases List.eq_nil_or_concat v with rfl | ⟨v, d, rfl⟩
        · -- the piece takes the separator
          rw [List.append_nil] at heq
          rcases hp with rfl | hinner
          · obtain rfl : w = [] := by
              have hone : w ++ [sep] = [sep] := heq.trans hmatch
              simpa using hone
            exact ⟨[], ps, rfl, .nil, hrest⟩
          · exact absurd (heq ▸ List.mem_append_right w List.mem_cons_self) (hinner u hmatch)
        · rw [List.concat_eq_append, ← List.append_assoc] at heq
          obtain ⟨rfl, hd⟩ := List.append_inj' heq rfl
          obtain rfl : d = sep := by simpa using hd.symm
          rw [List.concat_eq_append] at hrest htakes
          obtain ⟨qs, rs, rfl, hqs, hrs⟩ := ih hps hrest
          refine ⟨p :: qs, rs, rfl, .cons hmatch ?_ hqs, hrs⟩
          rcases hp with rfl | hinner
          · trivial
          · exact hinner.takes_append_sep.mp htakes
  · rintro ⟨qs, rs, rfl, hqs, hrs⟩
    induction hqs with
    | nil => exact .cons (u := [sep]) rfl trivial hrs
    | @cons p qs u v hmatch htakes _ ih =>
        obtain ⟨hp, hps⟩ := List.forall_mem_cons.mp h
        rw [List.append_assoc]
        refine .cons hmatch ?_ (ih hps)
        rcases hp with rfl | hinner
        · trivial
        · exact hinner.takes_append_sep.mpr htakes

/-! ## Segment by segment -/

/-- What is matched inside a segment has no separator. -/
theorem Greedy.sep_notMem (hps : ∀ p ∈ ps, p.Inner sep) (h : Greedy sep ps w) : sep ∉ w := by
  induction h with
  | nil => simp
  | cons hmatch _ _ ih =>
      obtain ⟨hp, hps⟩ := List.forall_mem_cons.mp hps
      rw [List.mem_append, not_or]
      exact ⟨hp _ hmatch, ih hps⟩

/-- A separator of the glob is one of the word. -/
theorem Greedy.sep_mem (hsep : .char sep ∈ ps) (h : Greedy sep ps w) : sep ∈ w := by
  induction h with
  | nil => cases hsep
  | cons hmatch _ _ ih =>
      rcases List.mem_cons.mp hsep with rfl | hsep
      · rw [show _ = [sep] from hmatch]
        exact List.mem_append_left _ List.mem_cons_self
      · exact List.mem_append_right _ (ih hsep)

/-- The scan goes through a segment of the word with a segment of the glob. -/
theorem greedy_append_iff {rs : List (Piece α)} {x : List α} (hps : ∀ p ∈ ps, p.Inner sep)
    (hw : sep ∉ w) :
    Greedy sep (ps ++ .char sep :: rs) (w ++ sep :: x) ↔ Greedy sep ps w ∧ Greedy sep rs x := by
  induction ps generalizing w with
  | nil =>
      rw [List.nil_append, greedy_char_iff, greedy_nil_iff]
      constructor
      · rintro ⟨v, heq, hrest⟩
        cases w with
        | nil => exact ⟨rfl, (List.cons.inj heq).2 ▸ hrest⟩
        | cons c w => exact absurd ((List.cons.inj heq).1 ▸ List.mem_cons_self) hw
      · rintro ⟨rfl, hrest⟩
        exact ⟨x, rfl, hrest⟩
  | cons p ps ih =>
      obtain ⟨hp, hps⟩ := List.forall_mem_cons.mp hps
      constructor
      · intro h
        obtain ⟨u, v, heq, hmatch, htakes, hrest⟩ := greedy_cons_iff.mp h
        -- the piece ends in front of the separator
        obtain ⟨v, rfl, rfl⟩ : ∃ t, w = u ++ t ∧ v = t ++ sep :: x := by
          rcases List.append_eq_append_iff.mp heq with ⟨t, rfl, htail⟩ | ⟨t, rfl, hv⟩
          · cases t with
            | nil => exact ⟨[], by simp, htail.symm⟩
            | cons c t =>
                obtain rfl : sep = c := (List.cons.inj htail).1
                exact absurd (List.mem_append_right w List.mem_cons_self) (hp _ hmatch)
          · exact ⟨t, rfl, hv⟩
        obtain ⟨hsegment, hx⟩ := (ih hps fun hv => hw (List.mem_append_right u hv)).mp hrest
        exact ⟨.cons hmatch (hp.takes_append_sep.mp htakes) hsegment, hx⟩
      · rintro ⟨h, hx⟩
        obtain ⟨u, v, rfl, hmatch, htakes, hrest⟩ := greedy_cons_iff.mp h
        rw [List.append_assoc]
        refine .cons hmatch (hp.takes_append_sep.mpr htakes) ?_
        exact (ih hps fun hv => hw (List.mem_append_right u hv)).mpr ⟨hrest, hx⟩

/-- A glob of segments, each behind a separator, is matched with a word of as many segments, one
by one. -/
theorem greedy_segments_iff {segments : List (List (Piece α))} {words : List (List α)}
    (hsegments : ∀ ps ∈ segments, ∀ p ∈ ps, p.Inner sep) (hwords : ∀ w ∈ words, sep ∉ w) :
    Greedy sep (segments.flatMap fun ps => .char sep :: ps) (words.flatMap fun w => sep :: w) ↔
      List.Forall₂ (Greedy sep) segments words := by
  induction segments generalizing words with
  | nil => cases words <;> simp [greedy_nil_iff]
  | cons ps segments ih =>
      obtain ⟨hps, hrest⟩ := List.forall_mem_cons.mp hsegments
      cases words with
      | nil => simp [greedy_char_iff]
      | cons w words =>
          obtain ⟨hw, hwords'⟩ := List.forall_mem_cons.mp hwords
          have hpeel : ∀ qs v, Greedy sep (.char sep :: qs) (sep :: v) ↔ Greedy sep qs v := by
            intro qs v
            simp [greedy_char_iff]
          rw [List.flatMap_cons, List.flatMap_cons, List.cons_append, List.cons_append, hpeel,
            List.forall₂_cons, ← ih hrest hwords']
          cases segments with
          | nil =>
              cases words with
              | nil => simp [greedy_nil_iff]
              | cons w' words =>
                  -- the glob ends before the word
                  have hshort : ¬ Greedy sep ps (w ++ sep :: (w' ++ words.flatMap (sep :: ·))) :=
                    fun h => h.sep_notMem hps (List.mem_append_right w List.mem_cons_self)
                  simpa [greedy_nil_iff] using hshort
          | cons ps' segments =>
              cases words with
              | nil =>
                  -- the word ends before the glob
                  have hlong : ¬ Greedy sep (ps ++ .char sep ::
                      (ps' ++ segments.flatMap (.char sep :: ·))) w :=
                    fun h => hw (h.sep_mem (List.mem_append_right ps List.mem_cons_self))
                  simpa [greedy_char_iff] using hlong
              | cons w' words =>
                  rw [List.flatMap_cons, List.flatMap_cons, List.cons_append, List.cons_append,
                    greedy_append_iff hps hw, hpeel]

/-! ## Globs without a choice for the scan -/

/-- Every star ends its segment, and no word of a choice is a prefix of another one. -/
def Deterministic (sep : α) : List (Piece α) → Prop
  | [] => True
  | .star :: ps => (∀ p ∈ ps.head?, p = .char sep) ∧ Deterministic sep ps
  | .choice alts :: ps =>
      (∀ a ∈ alts, ∀ b ∈ alts, a <+: b → a = b) ∧ Deterministic sep ps
  | _ :: ps => Deterministic sep ps

theorem firstPrefix_of_unique {alts : List (List α)}
    (halts : ∀ a ∈ alts, ∀ b ∈ alts, a <+: b → a = b) (hu : u ∈ alts) :
    firstPrefix alts (u ++ v) = some u := by
  have hprefix : u.isPrefixOf (u ++ v) = true :=
    List.isPrefixOf_iff_prefix.mpr (List.prefix_append u v)
  cases hfirst : firstPrefix alts (u ++ v) with
  | none => exact absurd hprefix (List.find?_eq_none.mp hfirst u hu)
  | some a =>
      obtain ⟨ha, haprefix⟩ := firstPrefix_eq_some hfirst
      rcases List.prefix_or_prefix_of_prefix haprefix (List.prefix_append u v) with hle | hle
      · rw [halts a ha u hu hle]
      · rw [halts u hu a ha hle]

/-- There the scan finds every word of the language. -/
theorem Matches.greedy (h : Matches sep ps w) (hdet : Deterministic sep ps) :
    Greedy sep ps w := by
  induction h with
  | nil => exact .nil
  | @cons p ps u v hp hrest ih =>
      cases p with
      | char c => exact .cons hp trivial (ih hdet)
      | any => exact .cons hp trivial (ih hdet)
      | star =>
          obtain ⟨hend, hdet'⟩ := hdet
          refine .cons hp ⟨?_, ?_⟩ (ih hdet')
          · cases hrest with
            | nil => simp
            | cons hq _ =>
                obtain rfl := hend _ rfl
                obtain rfl := hq
                simp
          · intro _ habs
            cases hend _ habs
      | choice alts => exact .cons hp (firstPrefix_of_unique hdet.1 hp) (ih hdet.2)

end Glob
