import LittleOscar.Machine.Integer
import Mathlib.Data.Prod.Lex

/-!
# The times of the message queue

`osc_time_t` is a `struct timeval`: seconds and microseconds, both of type `long`. The
macros of the header become functions. `OSC_TIME_CMP` takes the operator as an argument,
as the macro does, and with `<` it is the order of `OscTime.key`, seconds first.
`OSC_TIMEVAL_DIFF` has no result where one of its subtractions overflows.

`_osc_is_msg_due` reads the clock once; the reading is an argument here. On normalised
times it asks whether a message is due at that reading, give or take the threshold,
counted in microseconds, provided that the time from the reading to the message can be
counted in seconds of type `long` (`oscIsMsgDue_spec`). The threshold makes no further
difference: it is subtracted from a time that is not negative.
-/

namespace LittleOscar

open Machine

/-- `osc_time_t`. -/
structure OscTime where
  tvSec : Int64
  tvUsec : Int64
  deriving DecidableEq

namespace OscTime

/-- Seconds first, then microseconds. -/
def key (t : OscTime) : Int ×ₗ Int := toLex (t.tvSec.toInt, t.tvUsec.toInt)

theorem key_injective : Function.Injective key := by
  intro t u h
  obtain ⟨hsec, husec⟩ := Prod.mk.inj (toLex.injective h)
  cases t
  cases u
  simp only at hsec husec
  rw [Int64.toInt_inj.mp hsec, Int64.toInt_inj.mp husec]

/-- The microseconds are a fraction of a second. -/
def Normalised (t : OscTime) : Prop := 0 ≤ t.tvUsec.toInt ∧ t.tvUsec.toInt < 1000000

instance (t : OscTime) : Decidable t.Normalised :=
  inferInstanceAs (Decidable (0 ≤ t.tvUsec.toInt ∧ t.tvUsec.toInt < 1000000))

/-- A time in microseconds. -/
def micros (t : OscTime) : Int := t.tvSec.toInt * 1000000 + t.tvUsec.toInt

end OscTime

/-- On normalised times the order of the keys is that of the microseconds. -/
theorem OscTime.Normalised.micros_le {t u : OscTime} (ht : t.Normalised) (hu : u.Normalised)
    (h : t.key ≤ u.key) : t.micros ≤ u.micros := by
  rw [OscTime.key, OscTime.key, Prod.Lex.toLex_le_toLex] at h
  simp only [OscTime.Normalised] at ht hu
  simp only [OscTime.micros]
  omega

/-- `OSC_TIME_CMP(i1, OP, i2)`. -/
def oscTimeCmp (op : Int64 → Int64 → Bool) (i1 i2 : OscTime) : Bool :=
  if i1.tvSec = i2.tvSec then op i1.tvUsec i2.tvUsec else op i1.tvSec i2.tvSec

/-- With `<` the macro is the order of the keys. -/
theorem oscTimeCmp_lt (i1 i2 : OscTime) :
    oscTimeCmp (fun a b => decide (a < b)) i1 i2 = true ↔ i1.key < i2.key := by
  rw [OscTime.key, OscTime.key, Prod.Lex.toLex_lt_toLex, oscTimeCmp]
  by_cases hsec : i1.tvSec = i2.tvSec
  · rw [if_pos hsec, decide_eq_true_iff, Int64.lt_iff_toInt_lt]
    simp only [hsec, lt_irrefl, true_and, false_or]
  · rw [if_neg hsec, decide_eq_true_iff, Int64.lt_iff_toInt_lt]
    simp only [Int64.toInt_inj, hsec, false_and, or_false]

/-- With `>` it is the order the other way round. -/
theorem oscTimeCmp_gt (i1 i2 : OscTime) :
    oscTimeCmp (fun a b => decide (a > b)) i1 i2 = true ↔ i2.key < i1.key := by
  rw [← oscTimeCmp_lt, oscTimeCmp, oscTimeCmp]
  by_cases hsec : i1.tvSec = i2.tvSec
  · rw [if_pos hsec, if_pos hsec.symm]
  · rw [if_neg hsec, if_neg (Ne.symm hsec)]

/-- `OSC_TIMEVAL_DIFF(t1, t2, out)`: the value of `t2 - t1` it stores. -/
def oscTimevalDiff (t1 t2 : OscTime) : Option OscTime := do
  let sec ← toLong (t2.tvSec.toInt - t1.tvSec.toInt)
  let usec ← toLong (t2.tvUsec.toInt - t1.tvUsec.toInt)
  if usec < 0 then do
    let sec ← toLong (sec.toInt - 1)
    let usec ← toLong (usec.toInt + 1000000)
    some ⟨sec, usec⟩
  else some ⟨sec, usec⟩

/-- The seconds of `t2 - t1` are of type `long`, before the borrow and after it. -/
def DiffFits (t1 t2 : OscTime) : Prop :=
  FitsLong (t2.tvSec.toInt - t1.tvSec.toInt) ∧
    (t2.tvUsec.toInt < t1.tvUsec.toInt → FitsLong (t2.tvSec.toInt - t1.tvSec.toInt - 1))

instance (t1 t2 : OscTime) : Decidable (DiffFits t1 t2) := inferInstanceAs (Decidable (_ ∧ _))

/-- The difference of normalised times is the one of the microseconds, and the borrow keeps
it normalised; or it overflows. -/
theorem oscTimevalDiff_spec {t1 t2 : OscTime} (h1 : t1.Normalised) (h2 : t2.Normalised) :
    (¬ DiffFits t1 t2 ∧ oscTimevalDiff t1 t2 = none) ∨
      (DiffFits t1 t2 ∧ ∃ diff, oscTimevalDiff t1 t2 = some diff ∧ diff.Normalised ∧
        diff.micros = t2.micros - t1.micros) := by
  simp only [OscTime.Normalised] at h1 h2
  have husec : FitsLong (t2.tvUsec.toInt - t1.tvUsec.toInt) := by
    unfold FitsLong
    omega
  obtain ⟨usec, husec, husec_eq⟩ := exists_toLong husec
  rw [oscTimevalDiff, husec, DiffFits]
  by_cases hsec : FitsLong (t2.tvSec.toInt - t1.tvSec.toInt)
  · obtain ⟨sec, hsec', hsec_eq⟩ := exists_toLong hsec
    simp only [hsec', Option.bind_eq_bind, Option.bind_some]
    by_cases hborrow : t2.tvUsec.toInt < t1.tvUsec.toInt
    · have hneg : usec < 0 := by
        rw [Int64.lt_iff_toInt_lt, husec_eq, Int64.toInt_zero]
        omega
      rw [if_pos hneg, hsec_eq]
      by_cases hsec₁ : FitsLong (t2.tvSec.toInt - t1.tvSec.toInt - 1)
      · obtain ⟨sec₁, hsec₁', hsec₁_eq⟩ := exists_toLong hsec₁
        obtain ⟨usec₁, husec₁, husec₁_eq⟩ :=
          exists_toLong (show FitsLong (usec.toInt + 1000000) by unfold FitsLong; omega)
        rw [hsec₁', husec₁]
        refine Or.inr ⟨⟨hsec, fun _ => hsec₁⟩, ⟨sec₁, usec₁⟩, rfl, ?_, ?_⟩
        · simp only [OscTime.Normalised]
          omega
        · simp only [OscTime.micros]
          omega
      · rw [toLong_of_not_fitsLong hsec₁]
        exact Or.inl ⟨fun habs => hsec₁ (habs.2 hborrow), rfl⟩
    · have hpos : ¬ usec < 0 := by
        rw [Int64.lt_iff_toInt_lt, husec_eq, Int64.toInt_zero]
        omega
      rw [if_neg hpos]
      refine Or.inr ⟨⟨hsec, fun habs => absurd habs hborrow⟩, ⟨sec, usec⟩, rfl, ?_, ?_⟩
      · simp only [OscTime.Normalised]
        omega
      · simp only [OscTime.micros]
        omega
  · rw [toLong_of_not_fitsLong hsec]
    exact Or.inl ⟨fun habs => hsec habs.1, rfl⟩

/-- Times from the epoch on are less than `2 ^ 63` seconds apart. -/
theorem diffFits_of_nonneg {t1 t2 : OscTime} (h1 : 0 ≤ t1.tvSec.toInt)
    (h2 : 0 ≤ t2.tvSec.toInt) : DiffFits t1 t2 := by
  have h1' := fitsLong_toInt t1.tvSec
  have h2' := fitsLong_toInt t2.tvSec
  unfold FitsLong at h1' h2'
  refine ⟨?_, fun _ => ?_⟩
  · unfold FitsLong
    omega
  · unfold FitsLong
    omega

/-- `_osc_is_msg_due` on a message that is due at `due`, with the clock at `now`. A
`NULL` threshold is `none`. -/
def oscIsMsgDue (now due : OscTime) (threshold : Option OscTime) : Option Bool := do
  let diff ← oscTimevalDiff now due
  if diff.tvSec < 0 then some true
  else
    match threshold with
    | none => some (decide (diff.tvSec = 0 ∧ diff.tvUsec = 0))
    | some threshold => do
        let diff ← oscTimevalDiff threshold diff
        some (decide (diff.tvSec < 0 ∨ (diff.tvSec = 0 ∧ diff.tvUsec = 0)))

/-- A threshold in microseconds; `NULL` counts as zero. -/
def thresholdMicros : Option OscTime → Int
  | none => 0
  | some threshold => threshold.micros

/-- A threshold a caller may pass: `NULL`, or normalised and not negative. -/
def ThresholdSane (threshold : Option OscTime) : Prop :=
  ∀ t ∈ threshold, t.Normalised ∧ 0 ≤ t.tvSec.toInt

instance (threshold : Option OscTime) : Decidable (ThresholdSane threshold) :=
  inferInstanceAs (Decidable (∀ t ∈ threshold, t.Normalised ∧ 0 ≤ t.tvSec.toInt))

/-- A time is due at a reading of the clock, give or take the threshold. -/
def IsDue (now : OscTime) (threshold : Option OscTime) (t : OscTime) : Prop :=
  t.micros ≤ now.micros + thresholdMicros threshold

instance (now : OscTime) (threshold : Option OscTime) (t : OscTime) :
    Decidable (IsDue now threshold t) := inferInstanceAs (Decidable (_ ≤ _))

/-- The test of a normalised difference is that it is not positive. -/
theorem OscTime.Normalised.micros_nonpos_iff {t : OscTime} (h : t.Normalised) :
    t.micros ≤ 0 ↔ t.tvSec < 0 ∨ (t.tvSec = 0 ∧ t.tvUsec = 0) := by
  simp only [OscTime.Normalised] at h
  simp only [OscTime.micros, Int64.lt_iff_toInt_lt, ← Int64.toInt_inj, Int64.toInt_zero]
  omega

/-- On normalised times a message is found due exactly when it is due at the reading
plus the threshold; or the time from the reading to the message overflows. -/
theorem oscIsMsgDue_spec {now due : OscTime} {threshold : Option OscTime}
    (hnow : now.Normalised) (hdue : due.Normalised) (hthreshold : ThresholdSane threshold) :
    (¬ DiffFits now due ∧ oscIsMsgDue now due threshold = none) ∨
      (DiffFits now due ∧
        oscIsMsgDue now due threshold = some (decide (IsDue now threshold due))) := by
  rcases oscTimevalDiff_spec hnow hdue with ⟨hfits, hnone⟩ | ⟨hfits, diff, hdiff, hnormal, hmicros⟩
  · exact Or.inl ⟨hfits, by rw [oscIsMsgDue, hnone]; rfl⟩
  refine Or.inr ⟨hfits, ?_⟩
  have hnonpos := hnormal.micros_nonpos_iff
  rw [oscIsMsgDue, hdiff, Option.bind_eq_bind, Option.bind_some]
  by_cases hneg : diff.tvSec < 0
  · have hlate := hnonpos.mpr (Or.inl hneg)
    have hzero : 0 ≤ thresholdMicros threshold := by
      cases threshold with
      | none => exact le_rfl
      | some t =>
          obtain ⟨⟨husec, -⟩, hsec⟩ := hthreshold t rfl
          simp only [thresholdMicros, OscTime.micros]
          omega
    rw [if_pos hneg, decide_eq_true]
    unfold IsDue
    omega
  · rw [if_neg hneg]
    cases threshold with
    | none =>
        refine congrArg some (decide_eq_decide.mpr ?_)
        rw [IsDue, thresholdMicros]
        constructor
        · intro hzero
          have hle := hnonpos.mpr (Or.inr hzero)
          omega
        · intro hle
          exact (hnonpos.mp (by omega)).resolve_left hneg
    | some t =>
        obtain ⟨hsane, hsec⟩ := hthreshold t rfl
        have hpos : 0 ≤ diff.tvSec.toInt := by
          rw [Int64.lt_iff_toInt_lt, Int64.toInt_zero] at hneg
          omega
        rcases oscTimevalDiff_spec hsane hnormal with
          ⟨habs, -⟩ | ⟨-, last, hlast, hlast_normal, hlast_micros⟩
        · exact absurd (diffFits_of_nonneg hsec hpos) habs
        simp only [hlast, Option.bind_some]
        refine congrArg some (decide_eq_decide.mpr ?_)
        rw [← hlast_normal.micros_nonpos_iff, IsDue, thresholdMicros]
        omega

end LittleOscar
