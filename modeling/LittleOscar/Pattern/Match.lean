import LittleOscar.Pattern.Verify

/-!
# What the matcher finds

`do_pattern_match` scans pattern and input once. On an accepted pattern it finds the
greedy split of the input along the glob, and no other one (`matchLoop_render`). So
what it finds is in the language of the pattern, and a static pattern matches itself
only.
-/

namespace LittleOscar

open Machine Glob

variable {slash mark : List UInt8}

/-! ## The loop over the alternatives -/

theorem groupChar_ne_comma {c : UInt8} (h : GroupChar c) : c ≠ ','.toUInt8 := by
  rintro rfl
  exact absurd h (by unfold GroupChar; decide)

theorem groupChar_ne_close {c : UInt8} (h : GroupChar c) : c ≠ '}'.toUInt8 := by
  rintro rfl
  exact absurd h (by unfold GroupChar; decide)

/-- The pointer behind a mismatch, at the end of the alternative. -/
theorem nextAlternative_word {a : List UInt8} (h : ∀ c ∈ a, GroupChar c) (p : List UInt8) :
    nextAlternative slash mark (a ++ p) = nextAlternative slash mark p := by
  induction a with
  | nil => rfl
  | cons c a ih =>
      obtain ⟨hc, ha⟩ := List.forall_mem_cons.mp h
      rw [List.cons_append, nextAlternative, if_neg (groupChar_ne_comma hc),
        if_neg (groupChar_ne_close hc), ih ha]

theorem closeGroup_alts {s : List UInt8} (h : '}'.toUInt8 ∉ s) (i p : List UInt8) :
    closeGroup slash i (s ++ '}'.toUInt8 :: p) = matchLoop slash p i := by
  induction s with
  | nil => rw [List.nil_append, closeGroup, if_neg (not_not.mpr rfl)]
  | cons c s ih =>
      rw [List.mem_cons, not_or] at h
      rw [List.cons_append, closeGroup, if_pos (Ne.symm h.1), ih h.2]

/-- What the loop does at the end of an alternative that was found. -/
def behindWord (slash i : List UInt8) : List UInt8 → Option Int
  | [] => none
  | c :: p => if c = ','.toUInt8 then closeGroup slash i p else matchLoop slash p i

theorem matchGroup_hit (b c : UInt8) (p i : List UInt8) :
    matchGroup slash mark (b :: c :: p) (b :: i) =
      if c = ','.toUInt8 ∨ c = '}'.toUInt8 then behindWord slash i (c :: p)
      else matchGroup slash mark (c :: p) i := by
  rw [matchGroup.eq_def]
  by_cases hcomma : c = ','.toUInt8
  · simp [hcomma, behindWord]
  · simp [hcomma, behindWord]

theorem matchGroup_miss {b : UInt8} (hb : GroupChar b) (p : List UInt8) {i : List UInt8}
    (h : i.head? ≠ some b) : matchGroup slash mark (b :: p) i = nextAlternative slash mark p := by
  rw [matchGroup.eq_def]
  simp only [if_neg h, if_neg (groupChar_ne_comma hb), if_neg (groupChar_ne_close hb)]

/-- An alternative that is a prefix of the input is found, and any other is left at its
end. -/
theorem matchGroup_word {a p : List UInt8} {c : UInt8} (hne : a ≠ [])
    (h : ∀ c ∈ a, GroupChar c) (hc : c = ','.toUInt8 ∨ c = '}'.toUInt8) (i : List UInt8) :
    matchGroup slash mark (a ++ c :: p) i =
      if a.isPrefixOf i then behindWord slash (i.drop a.length) (c :: p)
      else nextAlternative slash mark (c :: p) := by
  induction a generalizing i with
  | nil => exact absurd rfl hne
  | cons b a ih =>
      obtain ⟨hb, ha⟩ := List.forall_mem_cons.mp h
      rw [List.cons_append]
      cases i with
      | nil => rw [matchGroup_miss hb _ (by simp), nextAlternative_word ha]; rfl
      | cons d i =>
          by_cases hbd : d = b
          · subst hbd
            cases a with
            | nil => rw [List.nil_append, matchGroup_hit, if_pos hc]; simp
            | cons b' a =>
                obtain ⟨hb', -⟩ := List.forall_mem_cons.mp ha
                have hother : ¬ (b' = ','.toUInt8 ∨ b' = '}'.toUInt8) :=
                  not_or.mpr ⟨groupChar_ne_comma hb', groupChar_ne_close hb'⟩
                rw [List.cons_append, matchGroup_hit, if_neg hother, ← List.cons_append,
                  ih (by simp) ha]
                simp
          · rw [matchGroup_miss hb _ (by simpa using hbd), nextAlternative_word ha, if_neg]
            simp [Ne.symm hbd]

/-- The loop finds the first alternative that is a prefix of the input. -/
theorem matchGroup_alts {alts : List (List UInt8)} (hne : alts ≠ [])
    (h : ∀ a ∈ alts, ShapeWord a) (p : List UInt8) :
    matchGroup slash mark ([','.toUInt8].intercalate alts ++ '}'.toUInt8 :: p) mark =
      match firstPrefix alts mark with
      | none => some 0
      | some u => matchLoop slash p (mark.drop u.length) := by
  induction alts with
  | nil => exact absurd rfl hne
  | cons a alts ih =>
      obtain ⟨⟨hane, ha⟩, halts⟩ := List.forall_mem_cons.mp h
      cases alts with
      | nil =>
          have hclose : '}'.toUInt8 ≠ ','.toUInt8 := by decide
          rw [List.intercalate_singleton, matchGroup_word hane ha (Or.inr rfl)]
          by_cases hprefix : a.isPrefixOf mark
          · simp [firstPrefix, hprefix, behindWord, hclose]
          · simp [firstPrefix, hprefix, nextAlternative, hclose]
      | cons b alts =>
          have hbody : '}'.toUInt8 ∉ [','.toUInt8].intercalate (b :: alts) :=
            notMem_intercalate (by decide) fun a ha habs =>
              groupChar_ne_close ((halts a ha).2 _ habs) rfl
          rw [List.intercalate_cons_cons, List.append_assoc, List.append_assoc,
            List.singleton_append, matchGroup_word hane ha (Or.inl rfl)]
          by_cases hprefix : a.isPrefixOf mark
          · simp [firstPrefix, hprefix, behindWord, closeGroup_alts hbody]
          · rw [if_neg hprefix, nextAlternative, if_pos rfl, ih (by simp) halts]
            simp [firstPrefix, hprefix]

/-! ## The scan -/

/-- The matcher returns, and says whether `P` holds. -/
def Answers (r : Option Int) (P : Prop) : Prop :=
  (P ∧ r = some 1) ∨ (¬ P ∧ r = some 0)

theorem Answers.congr {r : Option Int} {P Q : Prop} (h : Answers r P) (hPQ : Q ↔ P) :
    Answers r Q := by
  rwa [Answers, hPQ]

theorem Answers.no {P : Prop} (h : ¬ P) : Answers (some 0) P := Or.inr ⟨h, rfl⟩

theorem Answers.eq_one_iff {r : Option Int} {P : Prop} (h : Answers r P) : r = some 1 ↔ P := by
  rcases h with ⟨hP, rfl⟩ | ⟨hP, rfl⟩
  · simp [hP]
  · simp [hP]

/-- No part is empty but the last one; `first` says that a part begins. -/
def Separated : Bool → List UInt8 → Prop
  | _, [] => True
  | first, c :: i =>
      if c = '/'.toUInt8 then first = false ∧ Separated true i else Separated false i

variable {first : Bool} {i : List UInt8}

theorem separated_slash :
    Separated first ('/'.toUInt8 :: i) ↔ first = false ∧ Separated true i := by
  rw [Separated, if_pos rfl]

theorem separated_char {d : UInt8} (h : d ≠ '/'.toUInt8) :
    Separated first (d :: i) ↔ Separated false i := by
  rw [Separated, if_neg h]

theorem separated_append {u v : List UInt8} (h : '/'.toUInt8 ∉ u) :
    Separated false (u ++ v) ↔ Separated false v := by
  induction u with
  | nil => rfl
  | cons d u ih =>
      rw [List.mem_cons, not_or] at h
      rw [List.cons_append, separated_char (Ne.symm h.1), ih h.2]

theorem ValidPiece.slash_notMem {p : Piece UInt8} (h : ValidPiece ShapeWord p)
    {u : List UInt8} (hu : p.Matches '/'.toUInt8 u) : '/'.toUInt8 ∉ u := by
  cases p with
  | char c =>
      obtain rfl := hu
      rw [List.mem_singleton]
      rintro rfl
      have hc : Literal '/'.toUInt8 := h
      exact absurd hc (by decide)
  | any =>
      obtain ⟨c, hc, rfl⟩ := hu
      rw [List.mem_singleton]
      exact Ne.symm hc
  | star => exact hu
  | choice alts => exact notMem_of_groupChars (h.2 u hu).2

theorem ValidPiece.ne_nil {p : Piece UInt8} (h : ValidPiece ShapeWord p) (hstar : p ≠ .star)
    {u : List UInt8} (hu : p.Matches '/'.toUInt8 u) : u ≠ [] := by
  cases p with
  | char c => exact hu ▸ List.cons_ne_nil c []
  | any =>
      obtain ⟨c, -, rfl⟩ := hu
      exact List.cons_ne_nil c []
  | star => exact absurd rfl hstar
  | choice alts => exact (h.2 u hu).1

/-- A piece other than a star takes something, and no slash. -/
theorem ValidPiece.exists_cons {p : Piece UInt8} {ps : List (Piece UInt8)} {w : List UInt8}
    (h : ValidPiece ShapeWord p) (hstar : p ≠ .star) (hw : Greedy '/'.toUInt8 (p :: ps) w) :
    ∃ d i, w = d :: i ∧ d ≠ '/'.toUInt8 := by
  obtain ⟨u, v, rfl, hu, -, -⟩ := greedy_cons_iff.mp hw
  obtain ⟨d, u, rfl⟩ := List.exists_cons_of_ne_nil (h.ne_nil hstar hu)
  refine ⟨d, u ++ v, rfl, ?_⟩
  rintro rfl
  exact h.slash_notMem hu List.mem_cons_self

variable {ps : List (Piece UInt8)}

/-- At the end of the input nothing may be left but one star. -/
theorem Tail.greedy_nil_iff (h : Tail ShapeWord first ps) :
    Greedy '/'.toUInt8 ps [] ↔ ps = [] ∨ ps = [.star] := by
  cases h with
  | nil => simp [greedy_nil_iff]
  | slash _ => simp [greedy_char_iff]
  | @piece _ p ps hp htail =>
      by_cases hstar : p = .star
      · subst hstar
        rw [greedy_star_iff]
        constructor
        · rintro ⟨hnext, hrest⟩
          cases htail with
          | nil => exact Or.inr rfl
          | slash _ => simp [greedy_char_iff] at hrest
          | @piece _ q _ hq _ =>
              have hne : q ≠ .star := by
                rintro rfl
                exact hnext rfl rfl
              obtain ⟨d, i, habs, -⟩ := hq.exists_cons hne hrest
              cases habs
        · intro hps
          obtain rfl : ps = [] := by simpa using hps
          exact ⟨by simp, .nil⟩
      · constructor
        · intro hgreedy
          obtain ⟨d, i, habs, -⟩ := hp.exists_cons hstar hgreedy
          cases habs
        · simp [hstar]

theorem renderPiece_head_eq_star {p : Piece UInt8} (hp : Readable p) {s : List UInt8}
    (h : (renderPiece p ++ s).head? = some '*'.toUInt8) : p = .star := by
  cases p with
  | char c => exact absurd (Option.some.inj h) hp.2.1
  | any => exact absurd (Option.some.inj h) (by decide)
  | star => rfl
  | choice alts => exact absurd (Option.some.inj h) (by decide)

theorem matchEnd_render (h : ∀ p ∈ ps, Readable p) :
    Answers (some (matchEnd (render ps) [])) (ps = [] ∨ ps = [.star]) := by
  cases ps with
  | nil => exact Or.inl ⟨Or.inl rfl, rfl⟩
  | cons p ps =>
      rw [matchEnd, render_cons, Answers]
      by_cases hstar : p = .star
      · subst hstar
        by_cases hps : ps = []
        · simp [renderPiece, hps]
        · simp [renderPiece, render_eq_nil_iff, hps]
      · have hhead : (renderPiece p ++ render ps).head? ≠ some '*'.toUInt8 := fun habs =>
          hstar (renderPiece_head_eq_star (h p List.mem_cons_self) habs)
        rw [if_neg hhead]
        simp [hstar, renderPiece_ne_nil]

theorem matchLoop_end (h : Tail ShapeWord first ps) :
    Answers (matchLoop slash (render ps) []) (Greedy '/'.toUInt8 ps []) := by
  have hloop : matchLoop slash (render ps) [] = some (matchEnd (render ps) []) := by
    cases render ps with
    | nil => rw [matchLoop]
    | cons c p => rw [matchLoop]
  rw [hloop]
  exact (matchEnd_render h.readable).congr h.greedy_nil_iff

/-! ### At a slash of the input -/

theorem matchLoop_empty_part {c : UInt8} {p : List UInt8}
    (h : SlashAt slash ('/'.toUInt8 :: i) true) :
    matchLoop slash (c :: p) ('/'.toUInt8 :: i) = some 0 := by
  rw [matchLoop.eq_def]
  simp only [if_pos (h.distance.mpr rfl), if_true]

theorem matchLoop_slash {c : UInt8} {p : List UInt8} (hc : c ≠ '*'.toUInt8)
    (h : SlashAt slash ('/'.toUInt8 :: i) false) :
    matchLoop slash (c :: p) ('/'.toUInt8 :: i) =
      if c = '/'.toUInt8 then matchLoop ('/'.toUInt8 :: i) p i else some 0 := by
  have hdistance : ¬ (slash.length : Int) - ('/'.toUInt8 :: i).length = 1 := fun habs =>
    Bool.false_ne_true (h.distance.mp habs)
  rw [matchLoop.eq_def]
  simp only [if_neg hdistance, if_neg hc, if_true]
  by_cases hslash : c = '/'.toUInt8
  · simp [hslash]
  · simp [hslash]

/-- A star that takes nothing is skipped, if no other one follows. -/
theorem matchLoop_slash_star {p : List UInt8}
    (h : SlashAt slash ('/'.toUInt8 :: i) false) :
    matchLoop slash ('*'.toUInt8 :: p) ('/'.toUInt8 :: i) =
      if p.head? = some '/'.toUInt8 then matchLoop ('/'.toUInt8 :: i) p.tail i else some 0 := by
  have hdistance : ¬ (slash.length : Int) - ('/'.toUInt8 :: i).length = 1 := fun habs =>
    Bool.false_ne_true (h.distance.mp habs)
  rw [matchLoop.eq_def]
  simp only [if_neg hdistance, if_true]
  cases p with
  | nil => simp
  | cons c p =>
      by_cases hslash : c = '/'.toUInt8
      · simp [hslash]
      · simp [hslash]

theorem ValidPiece.exists_head {p : Piece UInt8} (h : ValidPiece ShapeWord p) :
    ∃ c s, renderPiece p = c :: s ∧ c ≠ '/'.toUInt8 ∧ (c = '*'.toUInt8 → p = .star) := by
  cases p with
  | char c =>
      have hc : Literal c := h
      refine ⟨c, [], rfl, ?_, ?_⟩
      · rintro rfl
        exact absurd hc (by decide)
      · rintro rfl
        exact absurd hc (by decide)
  | any => exact ⟨_, _, rfl, by decide, fun habs => absurd habs (by decide)⟩
  | star => exact ⟨_, _, rfl, by decide, fun _ => rfl⟩
  | choice alts => exact ⟨_, _, rfl, by decide, fun habs => absurd habs (by decide)⟩

/-- A piece of a part at a slash of the input; `ih` is the rest of the scan. -/
theorem matchLoop_piece_slash {p : Piece UInt8} (hp : ValidPiece ShapeWord p)
    (htail : Tail ShapeWord false ps) (h : SlashAt slash ('/'.toUInt8 :: i) first)
    (ih : SlashAt slash ('/'.toUInt8 :: i) false →
      Answers (matchLoop slash (render ps) ('/'.toUInt8 :: i))
        (Greedy '/'.toUInt8 ps ('/'.toUInt8 :: i) ∧ Separated false ('/'.toUInt8 :: i))) :
    Answers (matchLoop slash (render (p :: ps)) ('/'.toUInt8 :: i))
      (Greedy '/'.toUInt8 (p :: ps) ('/'.toUInt8 :: i) ∧
        Separated first ('/'.toUInt8 :: i)) := by
  obtain ⟨c, s, hrender, hslash, hstar⟩ := hp.exists_head
  cases first with
  | true =>
      rw [render_cons, hrender, List.cons_append, matchLoop_empty_part h]
      refine .no ?_
      rintro ⟨-, hsep⟩
      exact Bool.noConfusion (separated_slash.mp hsep).1
  | false =>
      by_cases hp' : p = .star
      · subst hp'
        have hcons : render (.star :: ps) = '*'.toUInt8 :: render ps := rfl
        have hgreedy : Greedy '/'.toUInt8 (.star :: ps) ('/'.toUInt8 :: i) ↔
            ps.head? ≠ some .star ∧ Greedy '/'.toUInt8 ps ('/'.toUInt8 :: i) := by
          simp [greedy_star_iff]
        rw [hcons, matchLoop_slash_star h]
        cases htail with
        | nil =>
            refine .no ?_
            rintro ⟨habs, -⟩
            simp [hgreedy, greedy_nil_iff] at habs
        | slash _ =>
            have hrest := ih h
            have hcons' (qs : List (Piece UInt8)) :
                render (.char '/'.toUInt8 :: qs) = '/'.toUInt8 :: render qs := rfl
            rw [hcons', matchLoop_slash (by decide) h, if_pos rfl] at hrest
            rw [hcons', List.head?_cons, if_pos rfl, List.tail_cons]
            exact hrest.congr (by simp [hgreedy])
        | @piece _ q qs hq _ =>
            obtain ⟨c', s', hrender', hslash', -⟩ := hq.exists_head
            rw [render_cons, hrender', List.cons_append, if_neg (by simpa using hslash')]
            refine .no ?_
            rintro ⟨habs, -⟩
            obtain ⟨hnext, hrest⟩ := hgreedy.mp habs
            obtain ⟨d, i', hcons', hd⟩ := hq.exists_cons (fun hq' => hnext (by rw [hq']; rfl)) hrest
            exact hd (List.cons.inj hcons').1.symm
      · rw [render_cons, hrender, List.cons_append,
          matchLoop_slash (fun hc => hp' (hstar hc)) h, if_neg hslash]
        refine .no ?_
        rintro ⟨habs, -⟩
        obtain ⟨d, i', hcons', hd⟩ := hp.exists_cons hp' habs
        exact hd (List.cons.inj hcons').1.symm

/-! ### At another character of the input -/

section Char

variable {c d : UInt8} {p : List UInt8}

theorem matchLoop_char (hc : Literal c ∨ c = '/'.toUInt8) (hd : d ≠ '/'.toUInt8) :
    matchLoop slash (c :: p) (d :: i) = if c = d then matchLoop slash p i else some 0 := by
  have hother : c ≠ '?'.toUInt8 ∧ c ≠ '*'.toUInt8 ∧ c ≠ '['.toUInt8 ∧ c ≠ '{'.toUInt8 := by
    rcases hc with hc | rfl
    · refine ⟨?_, ?_, ?_, ?_⟩ <;>
      · rintro rfl
        exact absurd hc (by decide)
    · decide
  obtain ⟨hany, hstar, hbracket, hopen⟩ := hother
  rw [matchLoop.eq_def]
  simp only [if_neg hd, if_neg hany, if_neg hstar, if_neg hbracket, if_neg hopen, ne_eq, ite_not]

theorem matchLoop_any (hd : d ≠ '/'.toUInt8) :
    matchLoop slash ('?'.toUInt8 :: p) (d :: i) = matchLoop slash p i := by
  rw [matchLoop.eq_def]
  simp only [if_neg hd, if_true]

theorem matchLoop_star (hd : d ≠ '/'.toUInt8) :
    matchLoop slash ('*'.toUInt8 :: p) (d :: i) =
      matchLoop slash p ((d :: i).dropWhile (· ≠ '/'.toUInt8)) := by
  rw [matchLoop.eq_def]
  simp only [if_neg hd, if_neg (show '*'.toUInt8 ≠ '?'.toUInt8 by decide), if_true]

theorem matchLoop_group (hd : d ≠ '/'.toUInt8) :
    matchLoop slash ('{'.toUInt8 :: p) (d :: i) = matchGroup slash (d :: i) p (d :: i) := by
  have hother : '{'.toUInt8 ≠ '?'.toUInt8 ∧ '{'.toUInt8 ≠ '*'.toUInt8 ∧
      '{'.toUInt8 ≠ '['.toUInt8 := by decide
  rw [matchLoop.eq_def]
  simp only [if_neg hd, if_neg hother.1, if_neg hother.2.1, if_neg hother.2.2, if_true]

end Char

/-- A piece of a part at another character; `ih` is the rest of the scan. -/
theorem matchLoop_piece_char {p : Piece UInt8} {d : UInt8} (hp : ValidPiece ShapeWord p)
    (hd : d ≠ '/'.toUInt8) (h : SlashAt slash (d :: i) first)
    (ih : ∀ j, SlashAt slash j false → Answers (matchLoop slash (render ps) j)
      (Greedy '/'.toUInt8 ps j ∧ Separated false j)) :
    Answers (matchLoop slash (render (p :: ps)) (d :: i))
      (Greedy '/'.toUInt8 (p :: ps) (d :: i) ∧ Separated first (d :: i)) := by
  rw [separated_char hd]
  cases p with
  | char c =>
      have hcons : render (.char c :: ps) = c :: render ps := rfl
      rw [hcons, matchLoop_char (Or.inl hp) hd, greedy_char_iff]
      by_cases hcd : c = d
      · subst hcd
        rw [if_pos rfl]
        exact (ih i h.char).congr (by simp)
      · rw [if_neg hcd]
        refine .no ?_
        rintro ⟨⟨v, habs, -⟩, -⟩
        exact hcd (List.cons.inj habs).1.symm
  | any =>
      have hcons : render (.any :: ps) = '?'.toUInt8 :: render ps := rfl
      rw [hcons, matchLoop_any hd, greedy_any_iff]
      exact (ih i h.char).congr (by simp [hd])
  | star =>
      have hcons : render (.star :: ps) = '*'.toUInt8 :: render ps := rfl
      have hdrop : (d :: i).dropWhile (· ≠ '/'.toUInt8) = i.dropWhile (· ≠ '/'.toUInt8) := by
        simp [hd]
      have hsep : Separated false i ↔ Separated false (i.dropWhile (· ≠ '/'.toUInt8)) := by
        rw [← separated_append (v := i.dropWhile _), List.takeWhile_append_dropWhile]
        intro habs
        simpa using List.mem_takeWhile_imp habs
      have hlt : (i.dropWhile (· ≠ '/'.toUInt8)).length < (d :: i).length :=
        Nat.lt_succ_of_le (List.dropWhile_sublist _).length_le
      rw [hcons, matchLoop_star hd, greedy_star_iff, hdrop, hsep]
      exact (ih _ (h.of_lt hlt)).congr (by simp [hd])
  | choice alts =>
      have hcons : render (.choice alts :: ps) =
          '{'.toUInt8 :: ([','.toUInt8].intercalate alts ++ '}'.toUInt8 :: render ps) := by
        simp [render_cons, renderPiece]
      rw [hcons, matchLoop_group hd, matchGroup_alts hp.1 hp.2, greedy_choice_iff]
      cases hfirst : firstPrefix alts (d :: i) with
      | none => exact .no (by simp)
      | some u =>
          obtain ⟨hu, v, hv⟩ := firstPrefix_eq_some hfirst
          have hne := (hp.2 u hu).1
          have hsep : Separated false i ↔ Separated false v := by
            have hchar : Separated false (d :: i) ↔ Separated false i := separated_char hd
            rw [← hchar, ← hv]
            exact separated_append (notMem_of_groupChars (hp.2 u hu).2)
          have hdrop : (d :: i).drop u.length = v := by rw [← hv, List.drop_left]
          have hlt : v.length < (d :: i).length := by
            have hpos := List.length_pos_iff.mpr hne
            rw [← hv, List.length_append]
            omega
          rw [hsep]
          simp only [hdrop, Option.some.injEq, exists_eq_left']
          exact ih v (h.of_lt hlt)

/-- The scan finds the greedy split of an input without empty parts, and returns 0 where
there is none. -/
theorem matchLoop_render (htail : Tail ShapeWord first ps) (h : SlashAt slash i first) :
    Answers (matchLoop slash (render ps) i) (Greedy '/'.toUInt8 ps i ∧ Separated first i) := by
  induction htail generalizing slash i with
  | nil =>
      cases i with
      | nil => exact (matchLoop_end .nil).congr (by simp [Separated])
      | cons d i =>
          rw [render_nil, matchLoop]
          exact .no (by simp [greedy_nil_iff])
  | @slash ps htail ih =>
      have hcons : render (.char '/'.toUInt8 :: ps) = '/'.toUInt8 :: render ps := rfl
      cases i with
      | nil => exact (matchLoop_end (.slash htail)).congr (by simp [Separated])
      | cons d i =>
          rw [hcons, greedy_char_iff]
          by_cases hd : d = '/'.toUInt8
          · subst hd
            rw [matchLoop_slash (by decide) h, if_pos rfl, separated_slash]
            exact (ih (.next _ i)).congr (by simp)
          · rw [matchLoop_char (Or.inr rfl) hd, if_neg (Ne.symm hd)]
            exact .no (by simp [hd])
  | @piece first p ps hp htail ih =>
      cases i with
      | nil =>
          have hpiece : Tail ShapeWord first (p :: ps) := .piece hp htail
          exact (matchLoop_end hpiece).congr (by simp [Separated])
      | cons d i =>
          by_cases hd : d = '/'.toUInt8
          · subst hd
            exact matchLoop_piece_slash hp htail h ih
          · exact matchLoop_piece_char hp hd h fun j => ih

/-! ## The results of the functions -/

/-- What the matcher says about an accepted pattern. -/
theorem doPatternMatch_render {s : CString} (htail : Tail ShapeWord true ps)
    (hs : s.bytes = '/'.toUInt8 :: render ps) (input : CString) :
    Answers (doPatternMatch s input)
      (∃ i, input.bytes = '/'.toUInt8 :: i ∧ Greedy '/'.toUInt8 ps i ∧ Separated true i) := by
  rw [doPatternMatch, hs]
  cases hinput : input.bytes with
  | nil => exact .no (by simp)
  | cons d i =>
      by_cases hd : d = '/'.toUInt8
      · subst hd
        simp only [ne_eq, not_true_eq_false, if_false]
        exact (matchLoop_render htail (.next _ i)).congr (by simp)
      · simp only [if_pos hd]
        exact .no (by simp [hd])

theorem strcmp_eq_zero_iff (s t : List UInt8) (hs : 0 ∉ s) (ht : 0 ∉ t) :
    strcmp s t = 0 ↔ s = t := by
  induction s generalizing t with
  | nil =>
      cases t with
      | nil => simp [strcmp]
      | cons b t =>
          rw [List.mem_cons, not_or] at ht
          have hb : b.toNat ≠ 0 := fun habs => ht.1 (UInt8.toNat_inj.mp habs).symm
          simpa [strcmp] using hb
  | cons a s ih =>
      rw [List.mem_cons, not_or] at hs
      cases t with
      | nil =>
          have ha : a.toNat ≠ 0 := fun habs => hs.1 (UInt8.toNat_inj.mp habs).symm
          simpa [strcmp] using ha
      | cons b t =>
          rw [List.mem_cons, not_or] at ht
          rw [strcmp]
          by_cases hab : a = b
          · rw [if_pos hab, ih t hs.2 ht.2, hab]
            simp
          · have hne : a.toNat ≠ b.toNat := fun habs => hab (UInt8.toNat_inj.mp habs)
            rw [if_neg hab]
            constructor
            · intro habs
              omega
            · intro habs
              exact absurd (List.cons.inj habs).1 hab

/-- A glob of characters only. -/
theorem greedy_chars_iff (h : ps.any isMeta = false) (i : List UInt8) :
    Greedy '/'.toUInt8 ps i ↔ i = render ps := by
  induction ps generalizing i with
  | nil => exact greedy_nil_iff
  | cons p ps ih =>
      rw [List.any_cons, Bool.or_eq_false_iff] at h
      cases p with
      | char c =>
          have hcons : render (.char c :: ps) = c :: render ps := rfl
          simp only [greedy_char_iff, ih h.2, hcons, exists_eq_right]
      | any => exact absurd h.1 (by decide)
      | star => exact absurd h.1 (by decide)
      | choice alts => exact absurd h.1 (by simp [isMeta])

/-- A static pattern has no empty part. -/
theorem Tail.separated (h : Tail ShapeWord first ps) (hchars : ps.any isMeta = false) :
    Separated first (render ps) := by
  induction h with
  | nil => trivial
  | slash _ ih => exact separated_slash.mpr ⟨rfl, ih (by simpa [isMeta] using hchars)⟩
  | @piece first p ps hp _ ih =>
      rw [List.any_cons, Bool.or_eq_false_iff] at hchars
      cases p with
      | char c =>
          have hc : c ≠ '/'.toUInt8 := by
            have hliteral : Literal c := hp
            rintro rfl
            exact absurd hliteral (by decide)
          exact (separated_char hc).mpr (ih hchars.2)
      | any => exact absurd hchars.1 (by decide)
      | star => exact absurd hchars.1 (by decide)
      | choice alts => exact absurd hchars.1 (by simp [isMeta])

section Accepted

variable {s : CString}

/-- An accepted pattern is static if its glob has characters only. -/
theorem exists_shape (h : oscPatternVerify (some s) ≠ oscPatternInvalid) :
    ∃ ps, Tail ShapeWord true ps ∧ s.bytes = '/'.toUInt8 :: render ps ∧
      oscPatternVerify (some s) = acceptedResult (ps.any isMeta) := by
  obtain ⟨ps, htail, hs⟩ := exists_tail_of_accepted h
  exact ⟨ps, ((tail_and_iff acceptedWord_iff).mp htail).1, hs, oscPatternVerify_render htail hs⟩

theorem acceptedResult_eq_static {hasMeta : Bool}
    (h : acceptedResult hasMeta = oscPatternStatic) : hasMeta = false := by
  cases hasMeta with
  | false => rfl
  | true => exact absurd h (by decide)

/-- A static pattern matches itself only. -/
theorem doPatternMatch_static (h : oscPatternVerify (some s) = oscPatternStatic)
    (input : CString) : Answers (doPatternMatch s input) (s.bytes = input.bytes) := by
  have haccept : oscPatternVerify (some s) ≠ oscPatternInvalid := h ▸ by decide
  obtain ⟨ps, htail, hs, hresult⟩ := exists_shape haccept
  have hchars : ps.any isMeta = false := acceptedResult_eq_static (hresult ▸ h)
  refine (doPatternMatch_render htail hs input).congr ?_
  rw [hs]
  constructor
  · intro hinput
    exact ⟨render ps, hinput.symm, (greedy_chars_iff hchars _).mpr rfl, htail.separated hchars⟩
  · rintro ⟨i, hinput, hgreedy, -⟩
    rw [hinput, (greedy_chars_iff hchars i).mp hgreedy]

theorem oscPatternMatch_static (h : oscPatternVerify (some s) = oscPatternStatic)
    (input : CString) : oscPatternMatch ⟨true, s⟩ input = doPatternMatch s input := by
  rw [oscPatternMatch, if_pos rfl]
  simp only [strcmp_eq_zero_iff _ _ s.noNul input.noNul]
  rcases doPatternMatch_static h input with ⟨heq, hmatch⟩ | ⟨hne, hmatch⟩
  · rw [hmatch, if_pos heq]
  · rw [hmatch, if_neg hne]

/-- The static fast path and the matcher give the same answer. -/
theorem staticPath_agrees (h : oscPatternVerify (some s) = oscPatternStatic)
    (input : CString) :
    (doPatternMatch s input = some 1 ↔ strcmp s.bytes input.bytes = 0) ∧
      oscPatternMatch ⟨true, s⟩ input = oscPatternMatch ⟨false, s⟩ input := by
  constructor
  · rw [(doPatternMatch_static h input).eq_one_iff,
      strcmp_eq_zero_iff _ _ s.noNul input.noNul]
  · rw [oscPatternMatch_static h]
    rfl

theorem staticPath_agrees_foo :
    oscPatternMatch ⟨true, ⟨['/', 'f', 'o', 'o'].map Char.toUInt8, by decide, by decide⟩⟩
        ⟨['/', 'f', 'o'].map Char.toUInt8, by decide, by decide⟩ =
      oscPatternMatch ⟨false, ⟨['/', 'f', 'o', 'o'].map Char.toUInt8, by decide, by decide⟩⟩
        ⟨['/', 'f', 'o'].map Char.toUInt8, by decide, by decide⟩ :=
  (staticPath_agrees (by decide) _).2

/-- On a compiled pattern the answer is that of the matcher. -/
theorem oscPatternMatch_compiled (h : oscPatternVerify (some s) ≠ oscPatternInvalid)
    (out : OscPattern) (input : CString) :
    oscPatternMatch (oscPatternCompile out s).2 input = doPatternMatch s input := by
  have hne : ¬ oscPatternVerify (some s) = 0 := h
  rw [oscPatternCompile]
  simp only [if_neg hne]
  by_cases hstatic : oscPatternVerify (some s) = oscPatternStatic
  · rw [decide_eq_true hstatic, oscPatternMatch_static hstatic]
  · rw [decide_eq_false hstatic]
    rfl

/-- The glob of an accepted pattern. -/
theorem spells_of_tail (htail : Tail ShapeWord true ps)
    (hs : s.bytes = '/'.toUInt8 :: render ps) : Spells s.bytes (.char '/'.toUInt8 :: ps) := by
  refine ⟨hs, List.forall_mem_cons.mpr ⟨?_, htail.readable⟩⟩
  exact ⟨by decide, by decide, by decide⟩

/-- What matches an accepted pattern is in its language. -/
theorem oscPatternMatch_sound (h : oscPatternVerify (some s) ≠ oscPatternInvalid)
    (out : OscPattern) (input : CString)
    (hmatch : oscPatternMatch (oscPatternCompile out s).2 input = some 1) :
    InLanguage s.bytes input.bytes := by
  obtain ⟨ps, htail, hs, -⟩ := exists_shape h
  rw [oscPatternMatch_compiled h, (doPatternMatch_render htail hs input).eq_one_iff] at hmatch
  obtain ⟨i, hinput, hgreedy, -⟩ := hmatch
  refine ⟨_, spells_of_tail htail hs, ?_⟩
  rw [hinput]
  exact (greedy_char_iff.mpr ⟨i, rfl, hgreedy⟩).matches

/-- The pattern `/{a,b}*`. -/
def groupThenStar : CString where
  bytes := ['/', '{', 'a', ',', 'b', '}', '*'].map Char.toUInt8
  noNul := by decide
  length_lt := by decide

theorem oscPatternMatch_sound_groupThenStar :
    InLanguage groupThenStar.bytes (['/', 'b', 'c', 'd'].map Char.toUInt8) :=
  oscPatternMatch_sound (s := groupThenStar) (by decide) ⟨true, groupThenStar⟩
    ⟨['/', 'b', 'c', 'd'].map Char.toUInt8, by decide, by decide⟩ (by decide)

end Accepted

/-! ## What the matcher misses -/

/-- There is no `//`, and no slash at the end. -/
def NoEmptyPart (w : List UInt8) : Prop :=
  ¬ ['/', '/'].map Char.toUInt8 <:+: w ∧ w.getLast? ≠ some '/'.toUInt8

/-- A split of the input along the pattern in which every star takes all that is left of
its part, a star that takes nothing is not followed by another one, and every group takes
the first of its alternatives that is a prefix of what is left. -/
def GreedySplit (pattern w : List UInt8) : Prop :=
  ∃ ps, Spells pattern ps ∧ Greedy '/'.toUInt8 ps w

/-- Where a slash stands in front, another one may not follow it. -/
theorem separated_iff : Separated first i ↔
    ¬ ['/', '/'].map Char.toUInt8 <:+: i ∧ (first = true → i.head? ≠ some '/'.toUInt8) := by
  induction i generalizing first with
  | nil => simp [Separated]
  | cons d i ih =>
      rw [List.infix_cons_iff, not_or]
      by_cases hd : d = '/'.toUInt8
      · subst hd
        have hprefix : ['/', '/'].map Char.toUInt8 <+: '/'.toUInt8 :: i ↔
            i.head? = some '/'.toUInt8 := by
          rw [List.map_cons, List.cons_prefix_cons, List.head?_eq_some_iff]
          constructor
          · rintro ⟨-, j, hj⟩
            exact ⟨j, hj.symm⟩
          · rintro ⟨j, rfl⟩
            exact ⟨rfl, j, rfl⟩
        rw [separated_slash, ih, hprefix]
        cases first with
        | false => simp [and_comm]
        | true => simp
      · have hprefix : ¬ ['/', '/'].map Char.toUInt8 <+: d :: i := by
          intro habs
          exact hd (List.cons_prefix_cons.mp habs).1.symm
        rw [separated_char hd, ih, and_iff_right hprefix]
        simp [hd]

theorem separated_true_iff :
    Separated true i ↔ ¬ ['/', '/'].map Char.toUInt8 <:+: '/'.toUInt8 :: i := by
  have hslash : Separated false ('/'.toUInt8 :: i) ↔
      ¬ ['/', '/'].map Char.toUInt8 <:+: '/'.toUInt8 :: i := by
    rw [separated_iff]
    simp
  rw [← hslash, separated_slash]
  simp

variable {s : CString}

/-- What the matcher finds among the inputs without an empty part. -/
theorem matched_iff (h : oscPatternVerify (some s) ≠ oscPatternInvalid) (out : OscPattern)
    {input : CString} (hslash : input.bytes.head? = some '/'.toUInt8)
    (hparts : NoEmptyPart input.bytes) :
    oscPatternMatch (oscPatternCompile out s).2 input = some 1 ↔
      GreedySplit s.bytes input.bytes := by
  obtain ⟨ps, htail, hs, -⟩ := exists_shape h
  obtain ⟨i, hi⟩ := List.head?_eq_some_iff.mp hslash
  have hspells := spells_of_tail htail hs
  have hsep : Separated true i := separated_true_iff.mpr (hi ▸ hparts.1)
  rw [oscPatternMatch_compiled h, (doPatternMatch_render htail hs input).eq_one_iff]
  constructor
  · rintro ⟨j, hj, hgreedy, -⟩
    exact ⟨_, hspells, greedy_char_iff.mpr ⟨j, hj, hgreedy⟩⟩
  · rintro ⟨qs, hqs, hgreedy⟩
    obtain rfl := render_injective hqs.2 hspells.2 (hqs.1.symm.trans hspells.1)
    obtain ⟨j, hj, hrest⟩ := greedy_char_iff.mp hgreedy
    obtain rfl : j = i := (List.cons.inj (hj.symm.trans hi)).2
    exact ⟨j, hj, hrest, hsep⟩

/-- An accepted pattern, and an input without empty parts in its language. -/
structure ToBeFound (s input : CString) : Prop where
  accepted : oscPatternVerify (some s) ≠ oscPatternInvalid
  slash : input.bytes.head? = some '/'.toUInt8
  parts : NoEmptyPart input.bytes
  inLanguage : InLanguage s.bytes input.bytes

/-- What is to be found is found. -/
def Finds (s input : CString) : Prop :=
  ToBeFound s input → ∀ out, oscPatternMatch (oscPatternCompile out s).2 input = some 1

/-- A pattern in which every star ends its part, and no alternative of a group is a prefix
of another one, misses nothing. -/
theorem finds_of_deterministic {input : CString} (hspells : Spells s.bytes ps)
    (h : Deterministic '/'.toUInt8 ps) : Finds s input := by
  intro hfound out
  obtain ⟨qs, hqs, hmatches⟩ := hfound.inLanguage
  obtain rfl := render_injective hqs.2 hspells.2 (hqs.1.symm.trans hspells.1)
  rw [matched_iff hfound.accepted out hfound.slash hfound.parts]
  exact ⟨qs, hqs, hmatches.greedy h⟩

/-- It is found exactly where the scan has nothing to choose against, and so wherever every
star ends its part and no alternative is a prefix of another one. -/
theorem finds_iff (s input : CString) :
    (Finds s input ↔ (ToBeFound s input → GreedySplit s.bytes input.bytes)) ∧
      ∀ ps, Spells s.bytes ps → Deterministic '/'.toUInt8 ps → Finds s input := by
  refine ⟨⟨?_, ?_⟩, fun ps => finds_of_deterministic⟩
  · intro hfinds hfound
    let out : OscPattern := ⟨true, s⟩
    exact (matched_iff hfound.accepted out hfound.slash hfound.parts).mp (hfinds hfound out)
  · intro hsplit hfound out
    exact (matched_iff hfound.accepted out hfound.slash hfound.parts).mpr (hsplit hfound)

/-- The pattern `/{a,ab}c`, where an alternative is a prefix of the next one. -/
def prefixAlternative : CString where
  bytes := ['/', '{', 'a', ',', 'a', 'b', '}', 'c'].map Char.toUInt8
  noNul := by decide
  length_lt := by decide

/-- Its second alternative is not tried. -/
theorem prefixAlternative_not_finds :
    ¬ Finds prefixAlternative ⟨['/', 'a', 'b', 'c'].map Char.toUInt8, by decide, by decide⟩ := by
  intro hfinds
  have hmatches : Matches '/'.toUInt8
      [.char '/'.toUInt8, .choice [['a'].map Char.toUInt8, ['a', 'b'].map Char.toUInt8],
        .char 'c'.toUInt8] (['/', 'a', 'b', 'c'].map Char.toUInt8) := by
    refine .cons (u := ['/'].map Char.toUInt8) rfl ?_
    refine .cons (u := ['a', 'b'].map Char.toUInt8) ?_ ?_
    · exact List.mem_cons_of_mem _ List.mem_cons_self
    · exact .cons (u := ['c'].map Char.toUInt8) rfl .nil
  have hlang : InLanguage prefixAlternative.bytes (['/', 'a', 'b', 'c'].map Char.toUInt8) := by
    exact ⟨_, ⟨rfl, by decide⟩, hmatches⟩
  have hmatch := hfinds ⟨by decide, rfl, ⟨by decide, by decide⟩, hlang⟩ ⟨true, prefixAlternative⟩
  exact absurd hmatch (by decide)

end LittleOscar
