import LittleOscar.Pattern.Grammar

/-!
# What the verification accepts

`osc_pattern_verify` accepts a grammar of the documented shape, with other
alternatives: its inner loop does not refuse `[` and `{`, and it takes an alternative
for empty when its length is a multiple of 2 ^ 32, where the counter comes back to zero.
`accepted_iff` is that grammar, and `verifyDecides_iff` compares it with the documented
one.
-/

namespace LittleOscar

open Machine Glob

/-- The characters that the loop over a group lets through. -/
def GroupChar (c : UInt8) : Prop :=
  c ∉ ['/', '#', ']', ' ', '*', '?', ',', '}'].map Char.toUInt8

/-- The alternatives that the loop over a group accepts. -/
def AcceptedWord (a : List UInt8) : Prop :=
  a.length % 4294967296 ≠ 0 ∧ ∀ c ∈ a, GroupChar c

/-- A piece other than a character. -/
def isMeta : Piece UInt8 → Bool
  | .char _ => false
  | _ => true

/-- The result for a pattern that is accepted. -/
def acceptedResult (hasMeta : Bool) : Int :=
  if hasMeta then oscPatternDynamic else oscPatternStatic

theorem acceptedResult_ne_invalid (hasMeta : Bool) :
    acceptedResult hasMeta ≠ oscPatternInvalid := by
  cases hasMeta <;> decide

/-! ## The loop over a group -/

variable {pattern slash : List UInt8}

theorem wrap32_add_one (k : Nat) : wrap32 (wrap32 k + 1) = wrap32 ((k + 1 : Nat) : Int) := by
  unfold wrap32
  omega

theorem wrap32_eq_zero_iff (k : Nat) : wrap32 k = 0 ↔ k % 4294967296 = 0 := by
  unfold wrap32
  omega

theorem verifyGroup_char {c : UInt8} (h : GroupChar c) (k : Nat) (p : List UInt8) :
    verifyGroup pattern slash (wrap32 k) (c :: p) =
      verifyGroup pattern slash (wrap32 ((k + 1 : Nat) : Int)) p := by
  simp only [GroupChar, List.map_cons, List.map_nil, List.mem_cons, List.not_mem_nil,
    or_false, not_or] at h
  obtain ⟨h₁, h₂, h₃, h₄, h₅, h₆, h₇, h₈⟩ := h
  rw [verifyGroup, if_neg (by simp only [not_or]; exact ⟨h₁, h₂, h₃, h₄, h₅, h₆⟩), if_neg h₇,
    if_neg h₈, wrap32_add_one]

theorem verifyGroup_comma (k : Nat) (p : List UInt8) :
    verifyGroup pattern slash (wrap32 k) (','.toUInt8 :: p) =
      if k % 4294967296 = 0 then oscPatternInvalid else verifyGroup pattern slash 0 p := by
  rw [verifyGroup, if_neg (by decide), if_pos rfl]
  simp only [wrap32_eq_zero_iff]

theorem verifyGroup_close (k : Nat) (p : List UInt8) :
    verifyGroup pattern slash (wrap32 k) ('}'.toUInt8 :: p) =
      if k % 4294967296 = 0 then oscPatternInvalid else verifyLoop pattern slash true p := by
  rw [verifyGroup, if_neg (by decide), if_neg (by decide), if_pos rfl]
  simp only [wrap32_eq_zero_iff]

theorem verifyGroup_other {c : UInt8} (h : ¬ GroupChar c) (hcomma : c ≠ ','.toUInt8)
    (hclose : c ≠ '}'.toUInt8) (segLen : Int) (p : List UInt8) :
    verifyGroup pattern slash segLen (c :: p) = oscPatternInvalid := by
  simp only [GroupChar, List.map_cons, List.map_nil, List.mem_cons, List.not_mem_nil,
    or_false, not_not] at h
  rw [verifyGroup, if_pos]
  tauto

theorem verifyGroup_word {a : List UInt8} (h : ∀ c ∈ a, GroupChar c) (k : Nat)
    (p : List UInt8) :
    verifyGroup pattern slash (wrap32 k) (a ++ p) =
      verifyGroup pattern slash (wrap32 ((k + a.length : Nat) : Int)) p := by
  induction a generalizing k with
  | nil => rfl
  | cons c a ih =>
      obtain ⟨hc, ha⟩ := List.forall_mem_cons.mp h
      rw [List.cons_append, verifyGroup_char hc, ih ha, List.length_cons]
      congr 3
      omega

/-- A group of accepted alternatives is passed. -/
theorem verifyGroup_alts {alts : List (List UInt8)} (hne : alts ≠ [])
    (h : ∀ a ∈ alts, AcceptedWord a) (p : List UInt8) :
    verifyGroup pattern slash 0 ([','.toUInt8].intercalate alts ++ '}'.toUInt8 :: p) =
      verifyLoop pattern slash true p := by
  induction alts with
  | nil => exact absurd rfl hne
  | cons a alts ih =>
      obtain ⟨⟨hlen, hchars⟩, halts⟩ := List.forall_mem_cons.mp h
      have hzero : (0 : Int) = wrap32 ((0 : Nat) : Int) := rfl
      cases alts with
      | nil =>
          rw [List.intercalate_singleton, hzero, verifyGroup_word hchars, verifyGroup_close,
            Nat.zero_add, if_neg hlen]
      | cons b alts =>
          rw [List.intercalate_cons_cons, List.append_assoc, List.append_assoc,
            List.singleton_append, hzero, verifyGroup_word hchars, verifyGroup_comma,
            Nat.zero_add, if_neg hlen]
          exact ih (by simp) halts

/-! ## The outer loop -/

/-- `slash` begins at the last slash before `p`, directly before it if `first` says so. -/
structure SlashAt (slash p : List UInt8) (first : Bool) : Prop where
  distance : (slash.length : Int) - p.length = 1 ↔ first = true
  lt : p.length < slash.length

namespace SlashAt

variable {c : UInt8} {p q : List UInt8} {first : Bool}

theorem of_lt (h : SlashAt slash p first) (hlt : q.length < p.length) :
    SlashAt slash q false := by
  have hslash := h.lt
  refine ⟨?_, by omega⟩
  constructor
  · intro habs
    omega
  · intro habs
    cases habs

theorem char (h : SlashAt slash (c :: p) first) : SlashAt slash p false :=
  h.of_lt (by simp)

theorem next (c : UInt8) (p : List UInt8) : SlashAt (c :: p) p true := by
  constructor <;> simp

end SlashAt

/-- The outer loop is at `p`, behind a slash if `first` says so. -/
structure LoopAt (pattern slash p : List UInt8) (first : Bool) : Prop
    extends SlashAt slash p first where
  before : ∃ pre, pattern = pre ++ p ∧ (pre.getLast? = some '/'.toUInt8 ↔ first = true)

namespace LoopAt

variable {c : UInt8} {p : List UInt8} {first : Bool}

theorem char (h : LoopAt pattern slash (c :: p) first) (hc : c ≠ '/'.toUInt8) :
    LoopAt pattern slash p false := by
  obtain ⟨pre, rfl, -⟩ := h.before
  exact ⟨h.toSlashAt.char, pre ++ [c], by simp, by simp [hc]⟩

theorem next (h : LoopAt pattern slash ('/'.toUInt8 :: p) first) :
    LoopAt pattern ('/'.toUInt8 :: p) p true := by
  obtain ⟨pre, rfl, -⟩ := h.before
  exact ⟨.next _ p, pre ++ ['/'.toUInt8], by simp, by simp⟩

theorem word {a : List UInt8} (ha : '/'.toUInt8 ∉ a)
    (h : LoopAt pattern slash (a ++ p) false) : LoopAt pattern slash p false := by
  induction a with
  | nil => exact h
  | cons c a ih =>
      rw [List.mem_cons, not_or] at ha
      exact ih ha.2 (h.char (Ne.symm ha.1))

end LoopAt

section Loop

variable {c : UInt8} {p : List UInt8} {first hasMeta : Bool}

theorem verifyLoop_nil (h : LoopAt pattern slash [] first) :
    verifyLoop pattern slash hasMeta [] =
      if first then oscPatternInvalid else acceptedResult hasMeta := by
  obtain ⟨pre, hpre, hlast⟩ := h.before
  rw [List.append_nil] at hpre
  subst hpre
  rw [verifyLoop, acceptedResult]
  simp only [hlast]

theorem verifyLoop_slash (h : LoopAt pattern slash ('/'.toUInt8 :: p) first) :
    verifyLoop pattern slash hasMeta ('/'.toUInt8 :: p) =
      if first then oscPatternInvalid
      else verifyLoop pattern ('/'.toUInt8 :: p) hasMeta p := by
  rw [verifyLoop, if_pos rfl]
  simp only [h.distance]

theorem verifyLoop_literal (h : Literal c) :
    verifyLoop pattern slash hasMeta (c :: p) = verifyLoop pattern slash hasMeta p := by
  simp only [Literal, List.map_cons, List.map_nil, List.mem_cons, List.not_mem_nil, or_false,
    not_or] at h
  obtain ⟨h₁, h₂, h₃, h₄, h₅, h₆, h₇, h₈, h₉, h₁₀⟩ := h
  rw [verifyLoop, if_neg h₁, if_neg h₇, if_neg h₉, if_neg (not_or.mpr ⟨h₄, h₅⟩),
    if_neg (by simp only [not_or]; exact ⟨h₂, h₈, h₁₀, h₆, h₃⟩)]

theorem verifyLoop_wildcard (h : c = '*'.toUInt8 ∨ c = '?'.toUInt8) :
    verifyLoop pattern slash hasMeta (c :: p) = verifyLoop pattern slash true p := by
  have hother : c ≠ '/'.toUInt8 ∧ c ≠ '['.toUInt8 ∧ c ≠ '{'.toUInt8 := by
    rcases h with rfl | rfl <;> decide
  rw [verifyLoop, if_neg hother.1, if_neg hother.2.1, if_neg hother.2.2, if_pos h]

theorem verifyLoop_group :
    verifyLoop pattern slash hasMeta ('{'.toUInt8 :: p) = verifyGroup pattern slash 0 p := by
  rw [verifyLoop, if_neg (by decide), if_neg (by decide), if_pos rfl]

theorem verifyLoop_other (hslash : c ≠ '/'.toUInt8) (hliteral : ¬ Literal c)
    (hwildcard : ¬ (c = '*'.toUInt8 ∨ c = '?'.toUInt8)) (hgroup : c ≠ '{'.toUInt8) :
    verifyLoop pattern slash hasMeta (c :: p) = oscPatternInvalid := by
  simp only [Literal, List.map_cons, List.map_nil, List.mem_cons, List.not_mem_nil, or_false,
    not_not] at hliteral
  rw [verifyLoop, if_neg hslash]
  by_cases hbracket : c = '['.toUInt8
  · rw [if_pos hbracket]
  · rw [if_neg hbracket, if_neg hgroup, if_neg hwildcard, if_pos]
    tauto

end Loop

theorem notMem_of_groupChars {a : List UInt8} (h : ∀ c ∈ a, GroupChar c) :
    '/'.toUInt8 ∉ a := by
  intro habs
  exact absurd (h _ habs) (by unfold GroupChar; decide)

/-- A tail of the accepted grammar is accepted. -/
theorem verifyLoop_render {ps : List (Piece UInt8)} {first : Bool}
    (htail : Tail AcceptedWord first ps) (hasMeta : Bool)
    (h : LoopAt pattern slash (render ps) first) :
    verifyLoop pattern slash hasMeta (render ps) = acceptedResult (hasMeta || ps.any isMeta) := by
  induction htail generalizing slash hasMeta with
  | nil => rw [render_nil, verifyLoop_nil h, List.any_nil, Bool.or_false]; rfl
  | @slash ps _ ih =>
      have hcons : render (.char '/'.toUInt8 :: ps) = '/'.toUInt8 :: render ps := rfl
      rw [hcons] at h ⊢
      rw [verifyLoop_slash h, ih hasMeta h.next]
      rfl
  | @piece first p ps hp _ ih =>
      cases p with
      | char c =>
          have hcons : render (.char c :: ps) = c :: render ps := rfl
          have hliteral : Literal c := hp
          have hc : c ≠ '/'.toUInt8 := by
            rintro rfl
            exact absurd hliteral (by decide)
          rw [hcons] at h ⊢
          rw [verifyLoop_literal hliteral, ih hasMeta (h.char hc)]
          rfl
      | any =>
          have hcons : render (.any :: ps) = '?'.toUInt8 :: render ps := rfl
          rw [hcons] at h ⊢
          rw [verifyLoop_wildcard (Or.inr rfl), ih true (h.char (by decide))]
          simp [isMeta]
      | star =>
          have hcons : render (.star :: ps) = '*'.toUInt8 :: render ps := rfl
          rw [hcons] at h ⊢
          rw [verifyLoop_wildcard (Or.inl rfl), ih true (h.char (by decide))]
          simp [isMeta]
      | choice alts =>
          have hcons : render (.choice alts :: ps) =
              '{'.toUInt8 :: ([','.toUInt8].intercalate alts ++ '}'.toUInt8 :: render ps) := by
            simp [render_cons, renderPiece]
          have hbody : '/'.toUInt8 ∉ [','.toUInt8].intercalate alts :=
            notMem_intercalate (by decide) fun a ha => notMem_of_groupChars (hp.2 a ha).2
          rw [hcons] at h ⊢
          rw [verifyLoop_group, verifyGroup_alts hp.1 hp.2,
            ih true (((h.char (by decide)).word hbody).char (by decide))]
          simp [isMeta]

/-- What is accepted at `p` in the outer loop is a tail of the accepted grammar. -/
def LoopAccepts (pattern p : List UInt8) : Prop :=
  ∀ slash first hasMeta, LoopAt pattern slash p first →
    verifyLoop pattern slash hasMeta p ≠ oscPatternInvalid →
      ∃ ps, Tail AcceptedWord first ps ∧ p = render ps

/-- What is accepted at `p` in the loop over a group are the rest of an alternative, of which
`k` characters have been read, the alternatives behind it and a tail. -/
def GroupAccepts (pattern p : List UInt8) : Prop :=
  ∀ slash (k : Nat), LoopAt pattern slash p false →
    verifyGroup pattern slash (wrap32 k) p ≠ oscPatternInvalid →
      ∃ a alts ps, ((k + a.length) % 4294967296 ≠ 0 ∧ ∀ c ∈ a, GroupChar c) ∧
        (∀ b ∈ alts, AcceptedWord b) ∧ Tail AcceptedWord false ps ∧
        p = [','.toUInt8].intercalate (a :: alts) ++ '}'.toUInt8 :: render ps

theorem loopAccepts_nil : LoopAccepts pattern [] := by
  intro slash first hasMeta h haccept
  cases first with
  | false => exact ⟨[], .nil, rfl⟩
  | true => exact absurd (verifyLoop_nil h) haccept

theorem loopAccepts_cons {c : UInt8} {p : List UInt8} (hloop : LoopAccepts pattern p)
    (hgroup : GroupAccepts pattern p) : LoopAccepts pattern (c :: p) := by
  intro slash first hasMeta h haccept
  by_cases hslash : c = '/'.toUInt8
  · subst hslash
    rw [verifyLoop_slash h] at haccept
    cases first with
    | true => exact absurd rfl haccept
    | false =>
        obtain ⟨ps, htail, rfl⟩ := hloop _ _ _ h.next haccept
        exact ⟨_, .slash htail, rfl⟩
  by_cases hliteral : Literal c
  · rw [verifyLoop_literal hliteral] at haccept
    obtain ⟨ps, htail, rfl⟩ := hloop _ _ _ (h.char hslash) haccept
    exact ⟨.char c :: ps, .piece hliteral htail, rfl⟩
  by_cases hwildcard : c = '*'.toUInt8 ∨ c = '?'.toUInt8
  · rw [verifyLoop_wildcard hwildcard] at haccept
    obtain ⟨ps, htail, rfl⟩ := hloop _ _ _ (h.char hslash) haccept
    rcases hwildcard with rfl | rfl
    · exact ⟨.star :: ps, .piece trivial htail, rfl⟩
    · exact ⟨.any :: ps, .piece trivial htail, rfl⟩
  by_cases hopen : c = '{'.toUInt8
  · subst hopen
    rw [verifyLoop_group] at haccept
    obtain ⟨a, alts, ps, ⟨hlen, ha⟩, halts, htail, rfl⟩ :=
      hgroup slash 0 (h.char hslash) haccept
    rw [Nat.zero_add] at hlen
    refine ⟨.choice (a :: alts) :: ps, .piece ⟨by simp, ?_⟩ htail, ?_⟩
    · exact List.forall_mem_cons.mpr ⟨⟨hlen, ha⟩, halts⟩
    · simp [render_cons, renderPiece]
  · exact absurd (verifyLoop_other hslash hliteral hwildcard hopen) haccept

theorem groupAccepts_cons {c : UInt8} {p : List UInt8} (hloop : LoopAccepts pattern p)
    (hgroup : GroupAccepts pattern p) : GroupAccepts pattern (c :: p) := by
  intro slash k h haccept
  by_cases hchar : GroupChar c
  · have hslash : c ≠ '/'.toUInt8 := by
      rintro rfl
      exact absurd hchar (by unfold GroupChar; decide)
    rw [verifyGroup_char hchar] at haccept
    obtain ⟨a, alts, ps, ⟨hlen, ha⟩, halts, htail, rfl⟩ :=
      hgroup slash (k + 1) (h.char hslash) haccept
    refine ⟨c :: a, alts, ps, ⟨?_, List.forall_mem_cons.mpr ⟨hchar, ha⟩⟩, halts, htail, ?_⟩
    · rw [List.length_cons]
      omega
    · rw [List.intercalate_cons_cons_left, List.cons_append]
  by_cases hcomma : c = ','.toUInt8
  · subst hcomma
    rw [verifyGroup_comma] at haccept
    split at haccept
    · exact absurd rfl haccept
    next hk =>
      obtain ⟨a, alts, ps, ⟨hlen, ha⟩, halts, htail, rfl⟩ :=
        hgroup slash 0 (h.char (by decide)) haccept
      rw [Nat.zero_add] at hlen
      refine ⟨[], a :: alts, ps, ⟨hk, by simp⟩, ?_, htail, by simp⟩
      exact List.forall_mem_cons.mpr ⟨⟨hlen, ha⟩, halts⟩
  by_cases hclose : c = '}'.toUInt8
  · subst hclose
    rw [verifyGroup_close] at haccept
    split at haccept
    · exact absurd rfl haccept
    next hk =>
      obtain ⟨ps, htail, rfl⟩ := hloop _ _ _ (h.char (by decide)) haccept
      exact ⟨[], [], ps, ⟨hk, by simp⟩, by simp, htail, by simp⟩
  · exact absurd (verifyGroup_other hchar hcomma hclose _ p) haccept

/-- The two loops read the same characters, so their tails are found together. -/
theorem exists_pieces (p : List UInt8) : LoopAccepts pattern p ∧ GroupAccepts pattern p := by
  induction p with
  | nil => exact ⟨loopAccepts_nil, fun _ _ _ haccept => absurd rfl haccept⟩
  | cons c p ih => exact ⟨loopAccepts_cons ih.1 ih.2, groupAccepts_cons ih.1 ih.2⟩

theorem loopAt_start (p : List UInt8) :
    LoopAt ('/'.toUInt8 :: p) ('/'.toUInt8 :: p) p true :=
  ⟨.next _ p, ['/'.toUInt8], rfl, by simp⟩

/-- The accepted grammar, and the result for what is in it. -/
theorem oscPatternVerify_render {s : CString} {ps : List (Piece UInt8)}
    (htail : Tail AcceptedWord true ps) (hs : s.bytes = '/'.toUInt8 :: render ps) :
    oscPatternVerify (some s) = acceptedResult (ps.any isMeta) := by
  simp only [oscPatternVerify, hs, ne_eq, not_true_eq_false, if_false]
  rw [verifyLoop_render htail false (loopAt_start _), Bool.false_or]

theorem exists_tail_of_accepted {s : CString}
    (h : oscPatternVerify (some s) ≠ oscPatternInvalid) :
    ∃ ps, Tail AcceptedWord true ps ∧ s.bytes = '/'.toUInt8 :: render ps := by
  cases hs : s.bytes with
  | nil => simp [oscPatternVerify, hs] at h
  | cons c p =>
      simp only [oscPatternVerify, hs] at h
      split at h
      · exact absurd rfl h
      next hc =>
        obtain rfl : c = '/'.toUInt8 := not_not.mp hc
        obtain ⟨ps, htail, rfl⟩ := (exists_pieces p).1 _ _ _ (loopAt_start p) h
        exact ⟨ps, htail, rfl⟩

/-! ## The documented grammar and the accepted one -/

/-- What the alternatives of both grammars have in common. -/
def ShapeWord (a : List UInt8) : Prop := a ≠ [] ∧ ∀ c ∈ a, GroupChar c

/-- The alternatives of all groups. -/
def alternatives (ps : List (Piece UInt8)) : List (List UInt8) :=
  ps.flatMap fun
    | .choice alts => alts
    | _ => []

def BracketFree (ps : List (Piece UInt8)) : Prop :=
  ∀ a ∈ alternatives ps, '['.toUInt8 ∉ a ∧ '{'.toUInt8 ∉ a

/-- No alternative brings the counter of `osc_pattern_verify` back to zero. -/
def CounterRuns (ps : List (Piece UInt8)) : Prop :=
  ∀ a ∈ alternatives ps, a.length % 4294967296 ≠ 0

theorem literal_iff {c : UInt8} :
    Literal c ↔ GroupChar c ∧ c ≠ '['.toUInt8 ∧ c ≠ '{'.toUInt8 := by
  simp only [Literal, GroupChar, List.map_cons, List.map_nil, List.mem_cons,
    List.not_mem_nil, or_false, not_or]
  tauto

theorem literalWord_iff (a : List UInt8) :
    LiteralWord a ↔ ShapeWord a ∧ '['.toUInt8 ∉ a ∧ '{'.toUInt8 ∉ a := by
  simp only [LiteralWord, ShapeWord, literal_iff]
  constructor
  · rintro ⟨hne, h⟩
    refine ⟨⟨hne, fun c hc => (h c hc).1⟩, ?_, ?_⟩
    · exact fun habs => (h _ habs).2.1 rfl
    · exact fun habs => (h _ habs).2.2 rfl
  · rintro ⟨⟨hne, h⟩, hbracket, hbrace⟩
    refine ⟨hne, fun c hc => ⟨h c hc, ?_, ?_⟩⟩
    · rintro rfl
      exact hbracket hc
    · rintro rfl
      exact hbrace hc

theorem acceptedWord_iff (a : List UInt8) :
    AcceptedWord a ↔ ShapeWord a ∧ a.length % 4294967296 ≠ 0 := by
  constructor
  · rintro ⟨hlen, h⟩
    refine ⟨⟨?_, h⟩, hlen⟩
    rintro rfl
    exact hlen rfl
  · rintro ⟨⟨-, h⟩, hlen⟩
    exact ⟨hlen, h⟩

/-- A condition on the words of the groups is one on all alternatives. -/
theorem tail_and_iff {P Q R : List UInt8 → Prop} (hP : ∀ a, P a ↔ Q a ∧ R a) {first : Bool}
    {ps : List (Piece UInt8)} :
    Tail P first ps ↔ Tail Q first ps ∧ ∀ a ∈ alternatives ps, R a := by
  constructor
  · intro h
    induction h with
    | nil => exact ⟨.nil, by simp [alternatives]⟩
    | slash _ ih => exact ⟨.slash ih.1, by simpa [alternatives] using ih.2⟩
    | @piece first p ps hp _ ih =>
        cases p with
        | char c => exact ⟨.piece hp ih.1, by simpa [alternatives] using ih.2⟩
        | any => exact ⟨.piece hp ih.1, by simpa [alternatives] using ih.2⟩
        | star => exact ⟨.piece hp ih.1, by simpa [alternatives] using ih.2⟩
        | choice alts =>
            refine ⟨.piece ⟨hp.1, fun a ha => ((hP a).mp (hp.2 a ha)).1⟩ ih.1, ?_⟩
            intro a ha
            rcases List.mem_append.mp ha with ha | ha
            · exact ((hP a).mp (hp.2 a ha)).2
            · exact ih.2 a ha
  · rintro ⟨h, hall⟩
    induction h with
    | nil => exact .nil
    | slash _ ih => exact .slash (ih (by simpa [alternatives] using hall))
    | @piece first p ps hp _ ih =>
        cases p with
        | char c => exact .piece hp (ih (by simpa [alternatives] using hall))
        | any => exact .piece hp (ih (by simpa [alternatives] using hall))
        | star => exact .piece hp (ih (by simpa [alternatives] using hall))
        | choice alts =>
            have halts : ∀ a ∈ alts ++ alternatives ps, R a := hall
            rw [List.forall_mem_append] at halts
            refine .piece ⟨hp.1, fun a ha => ?_⟩ (ih halts.2)
            exact (hP a).mpr ⟨hp.2 a ha, halts.1 a ha⟩

theorem isPattern_iff {s : List UInt8} :
    IsPattern s ↔
      ∃ ps, Tail ShapeWord true ps ∧ s = '/'.toUInt8 :: render ps ∧ BracketFree ps := by
  simp only [IsPattern, isPatternOf_iff, tail_and_iff literalWord_iff, BracketFree, and_assoc,
    and_comm (a := s = _)]

/-- The grammar of what `osc_pattern_verify` accepts. -/
theorem accepted_iff {s : CString} :
    oscPatternVerify (some s) ≠ oscPatternInvalid ↔
      ∃ ps, Tail ShapeWord true ps ∧ s.bytes = '/'.toUInt8 :: render ps ∧ CounterRuns ps := by
  constructor
  · intro h
    obtain ⟨ps, htail, hs⟩ := exists_tail_of_accepted h
    obtain ⟨hshape, hruns⟩ := (tail_and_iff acceptedWord_iff).mp htail
    exact ⟨ps, hshape, hs, hruns⟩
  · rintro ⟨ps, hshape, hs, hruns⟩
    rw [oscPatternVerify_render ((tail_and_iff acceptedWord_iff).mpr ⟨hshape, hruns⟩) hs]
    exact acceptedResult_ne_invalid _

theorem ValidPiece.readable {p : Piece UInt8} (h : ValidPiece ShapeWord p) : Readable p := by
  cases p with
  | char c =>
      have hc : Literal c := h
      refine ⟨?_, ?_, ?_⟩ <;>
      · rintro rfl
        exact absurd hc (by decide)
  | any => trivial
  | star => trivial
  | choice alts =>
      refine ⟨h.1, fun a ha => ⟨?_, ?_⟩⟩ <;>
      · intro habs
        exact absurd ((h.2 a ha).2 _ habs) (by unfold GroupChar; decide)

theorem Tail.readable {first : Bool} {ps : List (Piece UInt8)} (h : Tail ShapeWord first ps) :
    ∀ p ∈ ps, Readable p := by
  induction h with
  | nil => simp
  | slash _ ih => exact List.forall_mem_cons.mpr ⟨⟨by decide, by decide, by decide⟩, ih⟩
  | piece hp _ ih => exact List.forall_mem_cons.mpr ⟨hp.readable, ih⟩

/-- The characters that make a pattern dynamic. -/
def HasMeta (s : List UInt8) : Prop :=
  '?'.toUInt8 ∈ s ∨ '*'.toUInt8 ∈ s ∨ '{'.toUInt8 ∈ s

instance (s : List UInt8) : Decidable (HasMeta s) := by
  unfold HasMeta
  infer_instance

theorem any_isMeta_iff {ps : List (Piece UInt8)} (h : ∀ p ∈ ps, Readable p) :
    ps.any isMeta = true ↔ HasMeta (render ps) := by
  induction ps with
  | nil => simp [HasMeta]
  | cons p ps ih =>
      obtain ⟨hp, hps⟩ := List.forall_mem_cons.mp h
      rw [List.any_cons, Bool.or_eq_true, ih hps, render_cons]
      cases p with
      | char c =>
          obtain ⟨hany, hstar, hopen⟩ := hp
          simp [isMeta, HasMeta, renderPiece, hany.symm, hstar.symm, hopen.symm]
      | any => simp [isMeta, HasMeta, renderPiece]
      | star => simp [isMeta, HasMeta, renderPiece]
      | choice alts => simp [isMeta, HasMeta, renderPiece]

/-- An accepted pattern is static if it has none of the characters that make it dynamic. -/
theorem oscPatternVerify_of_accepted {s : CString}
    (h : oscPatternVerify (some s) ≠ oscPatternInvalid) :
    oscPatternVerify (some s) =
      if HasMeta s.bytes then oscPatternDynamic else oscPatternStatic := by
  obtain ⟨ps, htail, hs⟩ := exists_tail_of_accepted h
  have hread := ((tail_and_iff acceptedWord_iff).mp htail).1.readable
  have hcons : HasMeta s.bytes ↔ HasMeta (render ps) := by
    rw [hs]
    simp [HasMeta, show '?'.toUInt8 ≠ '/'.toUInt8 by decide,
      show '*'.toUInt8 ≠ '/'.toUInt8 by decide, show '{'.toUInt8 ≠ '/'.toUInt8 by decide]
  rw [oscPatternVerify_render htail hs, acceptedResult]
  simp only [hcons, any_isMeta_iff hread]

/-- The documentation of `osc_pattern_verify`: what it accepts, and which of its results
an accepted string has. -/
def VerifyDecides (s : CString) : Prop :=
  (oscPatternVerify (some s) ≠ oscPatternInvalid ↔ IsPattern s.bytes) ∧
    (oscPatternVerify (some s) ≠ oscPatternInvalid →
      oscPatternVerify (some s) =
        if HasMeta s.bytes then oscPatternDynamic else oscPatternStatic)

/-- A string of the common shape has a bracket in an alternative exactly if the counter
comes back to zero in one. In a string of less than 2 ^ 32 bytes that is to have none. -/
def GroupsPlain (s : List UInt8) : Prop :=
  ∀ ps, Tail ShapeWord true ps → s = '/'.toUInt8 :: render ps →
    (BracketFree ps ↔ CounterRuns ps)

/-- The verification decides the documented grammar on the strings whose groups are
plain, and on no others. -/
theorem verifyDecides_iff (s : CString) : VerifyDecides s ↔ GroupsPlain s.bytes := by
  have hunique : ∀ ps qs, Tail ShapeWord true ps → Tail ShapeWord true qs →
      s.bytes = '/'.toUInt8 :: render ps → s.bytes = '/'.toUInt8 :: render qs → ps = qs := by
    intro ps qs hps hqs hs hs'
    rw [hs] at hs'
    exact render_injective hps.readable hqs.readable (List.cons.inj hs').2
  constructor
  · rintro ⟨hdecides, -⟩ ps htail hs
    rw [accepted_iff, isPattern_iff] at hdecides
    constructor
    · intro hfree
      obtain ⟨qs, hqs, hs', hruns⟩ := hdecides.mpr ⟨ps, htail, hs, hfree⟩
      rwa [hunique ps qs htail hqs hs hs']
    · intro hruns
      obtain ⟨qs, hqs, hs', hfree⟩ := hdecides.mp ⟨ps, htail, hs, hruns⟩
      rwa [hunique ps qs htail hqs hs hs']
  · intro hplain
    refine ⟨?_, oscPatternVerify_of_accepted⟩
    rw [accepted_iff, isPattern_iff]
    constructor
    · rintro ⟨ps, htail, hs, hruns⟩
      exact ⟨ps, htail, hs, (hplain ps htail hs).mpr hruns⟩
    · rintro ⟨ps, htail, hs, hfree⟩
      exact ⟨ps, htail, hs, (hplain ps htail hs).mp hfree⟩

/-- The pattern `/{a{b}`, which has a brace inside a group. -/
def nestedBrace : CString where
  bytes := ['/', '{', 'a', '{', 'b', '}'].map Char.toUInt8
  noNul := by decide
  length_lt := by decide

/-- It is accepted. -/
theorem nestedBrace_not_verifyDecides : ¬ VerifyDecides nestedBrace := by
  rintro ⟨hdecides, -⟩
  have haccept : oscPatternVerify (some nestedBrace) ≠ oscPatternInvalid := by decide
  obtain ⟨ps, htail, hs, hfree⟩ := isPattern_iff.mp (hdecides.mp haccept)
  obtain rfl : ps = [.choice [['a', '{', 'b'].map Char.toUInt8]] := by
    exact render_injective htail.readable (by decide) (List.cons.inj hs).2.symm
  have hbrace := (hfree _ (List.mem_append_left _ List.mem_cons_self)).2
  exact hbrace (by decide)

end LittleOscar
