import LittleOscar.Language.Glob
import LittleOscar.Pattern.Definitions

/-!
# The grammar of patterns

A pattern spells a glob over the bytes, with `/` as the separator: `render` writes a
glob down, and the language of a pattern is that of the glob it spells. The glob is
determined by the pattern (`render_injective`).

`IsPatternOf` is the documented grammar, with the words that are allowed in a group
as a parameter. The documented ones are the `LiteralWord`s. `Tail` says the same piece
by piece, which is how a scan meets a pattern.
-/

namespace LittleOscar

open Glob

/-- The characters with a meaning of their own. -/
def Literal (c : UInt8) : Prop :=
  c ∉ ['/', '#', ' ', '*', '?', ',', '[', ']', '{', '}'].map Char.toUInt8

instance (c : UInt8) : Decidable (Literal c) := by
  unfold Literal
  infer_instance

/-- The alternatives that the documentation allows in a group. -/
def LiteralWord (a : List UInt8) : Prop := a ≠ [] ∧ ∀ c ∈ a, Literal c

def renderPiece : Piece UInt8 → List UInt8
  | .char c => [c]
  | .any => ['?'.toUInt8]
  | .star => ['*'.toUInt8]
  | .choice alts => '{'.toUInt8 :: ([','.toUInt8].intercalate alts ++ ['}'.toUInt8])

def render (ps : List (Piece UInt8)) : List UInt8 := ps.flatMap renderPiece

/-- The pieces that a pattern can spell: a group ends at the first closing brace, and its
alternatives at the commas. -/
def Readable : Piece UInt8 → Prop
  | .char c => c ≠ '?'.toUInt8 ∧ c ≠ '*'.toUInt8 ∧ c ≠ '{'.toUInt8
  | .any | .star => True
  | .choice alts => alts ≠ [] ∧ ∀ a ∈ alts, ','.toUInt8 ∉ a ∧ '}'.toUInt8 ∉ a

instance (p : Piece UInt8) : Decidable (Readable p) := by
  cases p <;> unfold Readable <;> infer_instance

/-- The glob that a pattern spells. -/
def Spells (pattern : List UInt8) (ps : List (Piece UInt8)) : Prop :=
  pattern = render ps ∧ ∀ p ∈ ps, Readable p

/-- The language of a pattern. -/
def InLanguage (pattern w : List UInt8) : Prop :=
  ∃ ps, Spells pattern ps ∧ Matches '/'.toUInt8 ps w

/-- A piece of a part; `altOk` are the alternatives that a group may have. -/
def ValidPiece (altOk : List UInt8 → Prop) : Piece UInt8 → Prop
  | .char c => Literal c
  | .any | .star => True
  | .choice alts => alts ≠ [] ∧ ∀ a ∈ alts, altOk a

/-- One or more parts, each behind a slash and none of them empty. -/
def IsPatternOf (altOk : List UInt8 → Prop) (s : List UInt8) : Prop :=
  ∃ parts : List (List (Piece UInt8)), parts ≠ [] ∧
    (∀ part ∈ parts, part ≠ [] ∧ ∀ p ∈ part, ValidPiece altOk p) ∧
    s = (parts.map fun part => '/'.toUInt8 :: render part).flatten

/-- The documented grammar. -/
def IsPattern : List UInt8 → Prop := IsPatternOf LiteralWord

/-- The pieces that may follow, at the beginning of a part or inside it. -/
inductive Tail (altOk : List UInt8 → Prop) : Bool → List (Piece UInt8) → Prop
  | nil : Tail altOk false []
  | slash {ps : List (Piece UInt8)} :
      Tail altOk true ps → Tail altOk false (.char '/'.toUInt8 :: ps)
  | piece {first : Bool} {p : Piece UInt8} {ps : List (Piece UInt8)} :
      ValidPiece altOk p → Tail altOk false ps → Tail altOk first (p :: ps)

variable {altOk : List UInt8 → Prop} {ps : List (Piece UInt8)}

@[simp] theorem render_nil : render [] = [] := rfl

theorem render_cons (p : Piece UInt8) (ps : List (Piece UInt8)) :
    render (p :: ps) = renderPiece p ++ render ps := rfl

theorem render_append (ps qs : List (Piece UInt8)) :
    render (ps ++ qs) = render ps ++ render qs := List.flatMap_append

theorem renderPiece_ne_nil (p : Piece UInt8) : renderPiece p ≠ [] := by
  cases p <;> simp [renderPiece]

theorem render_eq_nil_iff : render ps = [] ↔ ps = [] := by
  cases ps with
  | nil => simp
  | cons p ps => simp [render_cons, renderPiece_ne_nil]

/-! ## Parts and pieces -/

theorem Tail.append {part : List (Piece UInt8)} (hpart : ∀ p ∈ part, ValidPiece altOk p)
    (h : Tail altOk false ps) : Tail altOk false (part ++ ps) := by
  induction part with
  | nil => exact h
  | cons p part ih =>
      exact .piece (hpart p List.mem_cons_self)
        (ih fun q hq => hpart q (List.mem_cons_of_mem p hq))

theorem Tail.append_part {part : List (Piece UInt8)} (hne : part ≠ [])
    (hpart : ∀ p ∈ part, ValidPiece altOk p) (h : Tail altOk false ps) :
    Tail altOk true (part ++ ps) := by
  obtain ⟨p, part, rfl⟩ := List.exists_cons_of_ne_nil hne
  exact .piece (hpart p List.mem_cons_self)
    (h.append fun q hq => hpart q (List.mem_cons_of_mem p hq))

/-- The pieces of the parts, each behind a slash. -/
def joinParts (parts : List (List (Piece UInt8))) : List (Piece UInt8) :=
  parts.flatMap fun part => .char '/'.toUInt8 :: part

theorem render_joinParts (parts : List (List (Piece UInt8))) :
    render (joinParts parts) = (parts.map fun part => '/'.toUInt8 :: render part).flatten := by
  induction parts with
  | nil => rfl
  | cons part parts ih =>
      have hcons : joinParts (part :: parts) =
          .char '/'.toUInt8 :: part ++ joinParts parts := rfl
      rw [hcons, render_append, ih]
      rfl

theorem tail_joinParts {parts : List (List (Piece UInt8))}
    (h : ∀ part ∈ parts, part ≠ [] ∧ ∀ p ∈ part, ValidPiece altOk p) :
    Tail altOk false (joinParts parts) := by
  induction parts with
  | nil => exact .nil
  | cons part parts ih =>
      obtain ⟨hne, hpart⟩ := h part List.mem_cons_self
      exact .slash ((ih fun q hq => h q (List.mem_cons_of_mem part hq)).append_part hne hpart)

/-- What follows is the rest of a part, and then whole parts. -/
theorem Tail.exists_parts {first : Bool} (h : Tail altOk first ps) :
    ∃ part parts, ps = part ++ joinParts parts ∧ (first → part ≠ []) ∧
      (∀ p ∈ part, ValidPiece altOk p) ∧
      ∀ part ∈ parts, part ≠ [] ∧ ∀ p ∈ part, ValidPiece altOk p := by
  induction h with
  | nil => exact ⟨[], [], rfl, by simp, by simp, by simp⟩
  | slash _ ih =>
      obtain ⟨part, parts, rfl, hne, hpart, hparts⟩ := ih
      refine ⟨[], part :: parts, rfl, by simp, by simp, ?_⟩
      rw [List.forall_mem_cons]
      exact ⟨⟨hne rfl, hpart⟩, hparts⟩
  | @piece first p _ hp _ ih =>
      obtain ⟨part, parts, rfl, -, hpart, hparts⟩ := ih
      refine ⟨p :: part, parts, rfl, by simp, ?_, hparts⟩
      rw [List.forall_mem_cons]
      exact ⟨hp, hpart⟩

/-- The grammar, piece by piece. -/
theorem isPatternOf_iff {s : List UInt8} :
    IsPatternOf altOk s ↔ ∃ ps, Tail altOk true ps ∧ s = '/'.toUInt8 :: render ps := by
  constructor
  · rintro ⟨parts, hne, hparts, rfl⟩
    obtain ⟨part, parts, rfl⟩ := List.exists_cons_of_ne_nil hne
    obtain ⟨hpart, hrest⟩ := List.forall_mem_cons.mp hparts
    refine ⟨part ++ joinParts parts, (tail_joinParts hrest).append_part hpart.1 hpart.2, ?_⟩
    rw [render_append, render_joinParts]
    rfl
  · rintro ⟨ps, htail, rfl⟩
    obtain ⟨part, parts, rfl, hne, hpart, hparts⟩ := htail.exists_parts
    refine ⟨part :: parts, by simp, List.forall_mem_cons.mpr ⟨⟨hne rfl, hpart⟩, hparts⟩, ?_⟩
    rw [render_append, render_joinParts]
    rfl

/-! ## What a pattern spells -/

theorem notMem_intercalate {sep c : UInt8} (hsep : c ≠ sep) {alts : List (List UInt8)}
    (h : ∀ a ∈ alts, c ∉ a) : c ∉ [sep].intercalate alts := by
  induction alts with
  | nil => simp
  | cons a alts ih =>
      obtain ⟨ha, halts⟩ := List.forall_mem_cons.mp h
      cases alts with
      | nil => simpa using ha
      | cons b alts =>
          rw [List.intercalate_cons_cons]
          simp [ha, hsep, ih halts]

/-- The first piece is read off the string. -/
theorem renderPiece_append_inj {p q : Piece UInt8} {s t : List UInt8} (hp : Readable p)
    (hq : Readable q) (h : renderPiece p ++ s = renderPiece q ++ t) : p = q ∧ s = t := by
  have hhead := congrArg List.head? h
  cases p with
  | char c =>
      cases q with
      | char d =>
          obtain ⟨rfl, rfl⟩ := List.cons.inj h
          exact ⟨rfl, rfl⟩
      | any => exact absurd (Option.some.inj hhead) hp.1
      | star => exact absurd (Option.some.inj hhead) hp.2.1
      | choice alts => exact absurd (Option.some.inj hhead) hp.2.2
  | any =>
      cases q with
      | char d => exact absurd (Option.some.inj hhead).symm hq.1
      | any => exact ⟨rfl, (List.cons.inj h).2⟩
      | star => exact absurd (Option.some.inj hhead) (by decide)
      | choice alts => exact absurd (Option.some.inj hhead) (by decide)
  | star =>
      cases q with
      | char d => exact absurd (Option.some.inj hhead).symm hq.2.1
      | any => exact absurd (Option.some.inj hhead) (by decide)
      | star => exact ⟨rfl, (List.cons.inj h).2⟩
      | choice alts => exact absurd (Option.some.inj hhead) (by decide)
  | choice alts =>
      cases q with
      | char d => exact absurd (Option.some.inj hhead).symm hq.2.2
      | any => exact absurd (Option.some.inj hhead) (by decide)
      | star => exact absurd (Option.some.inj hhead) (by decide)
      | choice alts' =>
          have hclose : '}'.toUInt8 ≠ ','.toUInt8 := by decide
          have hbody : [','.toUInt8].intercalate alts ++ '}'.toUInt8 :: s =
              [','.toUInt8].intercalate alts' ++ '}'.toUInt8 :: t := by
            simpa [renderPiece] using h
          obtain ⟨htake, hdrop⟩ := takeWhile_of_segment (v := '}'.toUInt8 :: s)
            (notMem_intercalate hclose fun a ha => (hp.2 a ha).2) (by simp)
          obtain ⟨htake', hdrop'⟩ := takeWhile_of_segment (v := '}'.toUInt8 :: t)
            (notMem_intercalate hclose fun a ha => (hq.2 a ha).2) (by simp)
          rw [hbody, htake'] at htake
          rw [hbody, hdrop'] at hdrop
          have hsplit := congrArg (List.splitOn ','.toUInt8) htake
          rw [List.splitOn_intercalate _ (fun a ha => (hp.2 a ha).1) hp.1,
            List.splitOn_intercalate _ (fun a ha => (hq.2 a ha).1) hq.1] at hsplit
          exact ⟨by rw [hsplit], (List.cons.inj hdrop).2.symm⟩

/-- A pattern spells one glob only. -/
theorem render_injective {qs : List (Piece UInt8)} (hps : ∀ p ∈ ps, Readable p)
    (hqs : ∀ q ∈ qs, Readable q) (h : render ps = render qs) : ps = qs := by
  induction ps generalizing qs with
  | nil => exact (render_eq_nil_iff.mp h.symm).symm
  | cons p ps ih =>
      cases qs with
      | nil => exact absurd (render_eq_nil_iff.mp h) (by simp)
      | cons q qs =>
          obtain ⟨hp, hps'⟩ := List.forall_mem_cons.mp hps
          obtain ⟨hq, hqs'⟩ := List.forall_mem_cons.mp hqs
          rw [render_cons, render_cons] at h
          obtain ⟨rfl, hrest⟩ := renderPiece_append_inj hp hq h
          rw [ih hps' hqs' hrest]

end LittleOscar
