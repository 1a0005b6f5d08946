import LittleOscar.Osc.Writer.Definitions

/-!
# The loops of the writer in closed form

Every loop of `write.c` that stores bytes is `putAll` of a list of bytes that is
known beforehand: the copy of a string with its terminator and padding, the
filling of the tag area, a word, a blob. `putAll` in turn either leaves the object
(and then has no result) or ends in `filled s bs`.
-/

namespace LittleOscar

open Machine

namespace WriterState

/-- The state after the bytes `bs` were put at the cursor. -/
def filled (s : WriterState) (bs : List UInt8) : WriterState :=
  { s with mem := overwrite s.mem (s.data + s.pos).toNat bs, pos := s.pos + bs.length }

/-- The state after the tag `t` was added. -/
def tagged (s : WriterState) (t : UInt8) : WriterState :=
  { s with mem := s.mem.set (s.data + s.typePos).toNat t, typePos := s.typePos + 1 }

/-- The bytes from the cursor on that a run of `n` stores needs lie in the object. -/
def Fits (s : WriterState) (n : Nat) : Prop :=
  0 ≤ s.data + s.pos ∧ s.data + s.pos + n ≤ s.mem.length

variable (s : WriterState)

theorem writeFixed_eq (raw : List UInt8) :
    s.writeFixed raw = (storeBytes s.mem (s.data + s.pos) raw).map fun mem =>
      { s with mem, pos := s.pos + raw.length } := by
  unfold writeFixed
  cases storeBytes s.mem (s.data + s.pos) raw <;> rfl

theorem putAll_eq (bs : List UInt8) :
    s.putAll bs = (storeBytes s.mem (s.data + s.pos) bs).map fun mem =>
      { s with mem, pos := s.pos + bs.length } := by
  induction bs generalizing s with
  | nil => simp [putAll, storeBytes]
  | cons b bs ih =>
      rw [putAll, put, storeBytes]
      cases h : storeByte s.mem (s.data + s.pos) b with
      | none => rfl
      | some mem =>
          have hdata : s.data + (s.pos + 1) = s.data + s.pos + 1 := by omega
          have hpos : s.pos + 1 + bs.length = s.pos + (b :: bs).length := by
            simp only [List.length_cons]
            omega
          simp only [Option.bind_eq_bind, Option.bind_some, ih, hdata, hpos]

theorem writeFixed_eq_putAll (raw : List UInt8) : s.writeFixed raw = s.putAll raw := by
  rw [writeFixed_eq, putAll_eq]

theorem putAll_of_fits {bs : List UInt8} (h : s.Fits bs.length) :
    s.putAll bs = some (s.filled bs) := by
  have hcond : bs = [] ∨ (0 ≤ s.data + s.pos ∧ s.data + s.pos + bs.length ≤ s.mem.length) :=
    Or.inr h
  rw [putAll_eq, storeBytes_eq, if_pos hcond]
  rfl

theorem putAll_of_not_fits {bs : List UInt8} (hbs : bs ≠ []) (h : ¬ s.Fits bs.length) :
    s.putAll bs = none := by
  have hcond : ¬ (bs = [] ∨
      (0 ≤ s.data + s.pos ∧ s.data + s.pos + bs.length ≤ s.mem.length)) :=
    fun hor => hor.elim hbs h
  rw [putAll_eq, storeBytes_eq, if_neg hcond]
  rfl

theorem putAll_append (bs cs : List UInt8) :
    s.putAll (bs ++ cs) = (s.putAll bs).bind fun s' => s'.putAll cs := by
  induction bs generalizing s with
  | nil => rfl
  | cons b bs ih =>
      rw [List.cons_append, putAll, putAll]
      cases s.put b with
      | none => rfl
      | some s' => exact ih s'

/-- What `putAll` leaves as it was, and where it leaves the cursor. -/
theorem putAll_eq_some {s s' : WriterState} {bs : List UInt8} (h : s.putAll bs = some s') :
    s' = s.filled bs := by
  rw [putAll_eq, storeBytes_eq] at h
  split at h
  · exact (Option.some.inj h).symm
  · cases h

theorem fits_of_putAll {s s' : WriterState} {bs : List UInt8} (hbs : bs ≠ [])
    (h : s.putAll bs = some s') : s.Fits bs.length := by
  by_contra hfits
  rw [putAll_of_not_fits s hbs hfits] at h
  cases h

theorem length_of_putAll {s s' : WriterState} {bs : List UInt8} (h : s.putAll bs = some s') :
    s'.mem.length = s.mem.length := by
  rw [putAll_eq] at h
  obtain ⟨mem, hstore, rfl⟩ := Option.map_eq_some_iff.mp h
  exact length_of_storeBytes hstore

/-- The zeros that `PAD()` stores at the cursor `pos`. -/
def padZeros (pos : Int) : List UInt8 := List.replicate ((-pos) % 4).toNat 0

theorem padZeros_of_mod {pos : Int} (h : pos % 4 = 0) : padZeros pos = [] := by
  rw [padZeros, show ((-pos) % 4).toNat = 0 by omega]
  rfl

theorem padZeros_of_not_mod {pos : Int} (h : pos % 4 ≠ 0) :
    padZeros pos = 0 :: padZeros (pos + 1) := by
  rw [padZeros, padZeros,
    show ((-pos) % 4).toNat = ((-(pos + 1)) % 4).toNat + 1 by omega, List.replicate_succ]

theorem pad_eq (n : Nat) (h : ((-s.pos) % 4).toNat ≤ n) :
    s.pad n = s.putAll (padZeros s.pos) := by
  induction n generalizing s with
  | zero => rw [padZeros_of_mod (by omega)]; rfl
  | succ n ih =>
      rw [pad]
      split
      · next hmod => rw [padZeros_of_mod hmod]; rfl
      · next hmod =>
          rw [padZeros_of_not_mod hmod, putAll, put]
          cases storeByte s.mem (s.data + s.pos) 0 with
          | none => rfl
          | some mem => exact ih _ (by simp only; omega)

theorem pad_three : s.pad 3 = s.putAll (padZeros s.pos) :=
  pad_eq s 3 (by omega)

/-- The bytes that `WRITE_STRING` stores at the cursor `pos`. -/
def stringBytes (pos : Int) (str : CString) : List UInt8 :=
  str.bytes ++ 0 :: padZeros (pos + str.bytes.length + 1)

theorem stringBytes_ne_nil (pos : Int) (str : CString) : stringBytes pos str ≠ [] := by
  simp [stringBytes]

/-- A string ends at a multiple of four, wherever it begins. -/
theorem stringBytes_mod (pos : Int) (str : CString) :
    (pos + (stringBytes pos str).length) % 4 = 0 := by
  simp only [stringBytes, padZeros, List.length_append, List.length_cons, List.length_replicate]
  omega

/-- At an aligned cursor these are the padded string of the format. -/
theorem stringBytes_of_mod {pos : Int} (h : pos % 4 = 0) (str : CString) :
    stringBytes pos str = padString str.bytes := by
  rw [stringBytes, padString, padZeros, paddedSize, roundUp]
  congr 3
  omega

theorem writeString_eq (str : CString) :
    s.writeString str = s.putAll (stringBytes s.pos str) := by
  have hsplit : stringBytes s.pos str =
      str.bytes ++ ([0] ++ padZeros (s.pos + str.bytes.length + 1)) := rfl
  rw [hsplit, putAll_append, writeString]
  cases h : s.putAll str.bytes with
  | none => rfl
  | some s₁ =>
      have hpos₁ : s₁.pos = s.pos + str.bytes.length := by
        rw [putAll_eq_some h]
        rfl
      simp only [Option.bind_eq_bind, Option.bind_some]
      rw [putAll_append, putAll]
      cases hput : s₁.put 0 with
      | none => rfl
      | some s₂ =>
          have hpos₂ : s₂.pos = s₁.pos + 1 := by
            have hall : s₁.putAll [0] = some s₂ := by rw [putAll, hput]; rfl
            rw [putAll_eq_some hall]
            rfl
          simp only [Option.bind_eq_bind, Option.bind_some, putAll]
          rw [pad_three, hpos₂, hpos₁]

theorem addType_of_range {t : UInt8} (h : 0 ≤ s.data + s.typePos)
    (h' : s.data + s.typePos < s.mem.length) : s.addType t = some (s.tagged t) := by
  rw [addType, storeByte, if_pos ⟨h, h'⟩]
  rfl

theorem addType_eq_some {s s' : WriterState} {t : UInt8} (h : s.addType t = some s') :
    s' = s.tagged t := by
  unfold addType storeByte at h
  split at h
  · exact (Option.some.inj h).symm
  · cases h

/-! ## What the two updates leave as it was -/

section Frame

variable (bs : List UInt8) (t : UInt8)

@[simp] theorem filled_data : (s.filled bs).data = s.data := rfl

@[simp] theorem filled_len : (s.filled bs).len = s.len := rfl

@[simp] theorem filled_pos : (s.filled bs).pos = s.pos + bs.length := rfl

@[simp] theorem filled_msgStart : (s.filled bs).msgStart = s.msgStart := rfl

@[simp] theorem filled_typePos : (s.filled bs).typePos = s.typePos := rfl

@[simp] theorem filled_state : (s.filled bs).state = s.state := rfl

@[simp] theorem filled_kBundle : (s.filled bs).kBundle = s.kBundle := rfl

@[simp] theorem filled_mem :
    (s.filled bs).mem = overwrite s.mem (s.data + s.pos).toNat bs := rfl

@[simp] theorem tagged_data : (s.tagged t).data = s.data := rfl

@[simp] theorem tagged_len : (s.tagged t).len = s.len := rfl

@[simp] theorem tagged_pos : (s.tagged t).pos = s.pos := rfl

@[simp] theorem tagged_msgStart : (s.tagged t).msgStart = s.msgStart := rfl

@[simp] theorem tagged_typePos : (s.tagged t).typePos = s.typePos + 1 := rfl

@[simp] theorem tagged_state : (s.tagged t).state = s.state := rfl

@[simp] theorem tagged_kBundle : (s.tagged t).kBundle = s.kBundle := rfl

@[simp] theorem tagged_mem :
    (s.tagged t).mem = s.mem.set (s.data + s.typePos).toNat t := rfl

@[simp] theorem tagged_remain : (s.tagged t).remain = s.remain := rfl

@[simp] theorem filled_remain : (s.filled bs).remain = s.remain - bs.length := by
  simp only [remain, filled_len, filled_pos]
  omega

end Frame

end WriterState

end LittleOscar
