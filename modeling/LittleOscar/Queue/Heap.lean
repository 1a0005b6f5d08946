import LittleOscar.Order.BinaryHeap
import LittleOscar.Queue.Definitions
import Mathlib.Order.WithBot

/-!
# The queue is a binary heap

`OscMsgQueue.Valid` says that the block is there, that the positions in use lie in it
and hold messages, and that they are a binary heap in the order of the due times.
`osc_msg_queue_add` and `osc_msg_queue_remove` keep it. The first adds its message to
the queued ones, or refuses it where there is no room; the second takes out a message
that no queued one precedes, or returns `NULL` on an empty queue.

Two things can go wrong in a valid queue. The `int ix` of the second loop overflows at
positions from `2 ^ 30` on, and where the first message is asked whether it is due, the time
from the clock to it may overflow.
-/

namespace LittleOscar

open BinaryHeap

variable {μ : Type} (due : μ → OscTime)

/-- The place of a cell in the order of the heap; a cell without a value comes
first. -/
def cellKey (cell : Option μ) : WithBot (Int ×ₗ Int) :=
  cell.elim ⊥ fun msg => ((due msg).key : WithBot (Int ×ₗ Int))

theorem cellKey_some (msg : μ) : cellKey due (some msg) = ((due msg).key : WithBot _) := rfl

theorem heapParent_eq : heapParent = parent := rfl

theorem heapLeftIx_eq : heapLeftIx = left := rfl

theorem heapRightIx_eq : heapRightIx = right := rfl

/-- The indices of `osc_msg_queue_remove` fit `int`: after it has taken out a message,
the children of every position in use have a position of type `int`. -/
def IndicesFit (queue : OscMsgQueue μ) : Prop :=
  ∀ ix, ix + 1 < queue.cItems → heapRightIx ix ≤ intMax

/-- They do as long as at most `2 ^ 30` messages are queued. -/
theorem indicesFit_iff {queue : OscMsgQueue μ} : IndicesFit queue ↔ queue.cItems ≤ 1073741824 := by
  simp only [IndicesFit, heapRightIx, intMax]
  constructor
  · intro h
    by_contra hlt
    have hlast := h 1073741823 (by omega)
    omega
  · intro h ix hix
    omega

instance (queue : OscMsgQueue μ) : Decidable (IndicesFit queue) :=
  decidable_of_iff _ indicesFit_iff.symm

/-- If a queued message is due, the indices for its removal fit. -/
def DueIndicesFit (now : OscTime) (threshold : Option OscTime) (queue : OscMsgQueue μ) : Prop :=
  (∃ msg ∈ queue.queued, IsDue now threshold (due msg)) → IndicesFit queue

instance (now : OscTime) (threshold : Option OscTime) (queue : OscMsgQueue μ) :
    Decidable (DueIndicesFit due now threshold queue) :=
  have : Decidable (∃ msg ∈ queue.queued, IsDue now threshold (due msg)) :=
    Multiset.decidableExistsMultiset
  inferInstanceAs (Decidable (_ → _))

/-- The time from the clock to the message that is due first does not overflow. -/
def FirstDiffFits (now : OscTime) (queue : OscMsgQueue μ) : Prop :=
  ∀ msg ∈ queue.queued, (∀ other ∈ queue.queued, (due msg).key ≤ (due other).key) →
    DiffFits now (due msg)

instance (now : OscTime) (queue : OscMsgQueue μ) : Decidable (FirstDiffFits due now queue) :=
  inferInstanceAs (Decidable (∀ msg ∈ queue.queued, _ → _))

namespace OscMsgQueue

/-- The queue with other cells. -/
def withHeap (queue : OscMsgQueue μ) (cells : ℕ → Option μ) : OscMsgQueue μ :=
  { queue with heap := some cells }

section WithHeap

variable {queue : OscMsgQueue μ} {cells : ℕ → Option μ} {i j : ℕ}

@[simp] theorem withHeap_cItems : (queue.withHeap cells).cItems = queue.cItems := rfl

theorem load_withHeap (hi : i < queue.nItems) : (queue.withHeap cells).load i = cells i := by
  rw [load, withHeap, Option.bind_eq_bind, Option.bind_some, if_pos hi]

theorem store_withHeap (queue : OscMsgQueue μ) (hi : i < queue.nItems) (msg : μ) :
    (queue.withHeap cells).store i msg =
      some (queue.withHeap (Function.update cells i (some msg))) := by
  rw [store, withHeap, Option.bind_eq_bind, Option.bind_some, if_pos hi]
  rfl

theorem exchange_withHeap (hi : i < queue.nItems) (hj : j < queue.nItems) {a b : μ}
    (ha : cells i = some a) (hb : cells j = some b) :
    (queue.withHeap cells).exchange i j = some (queue.withHeap (swap cells i j)) := by
  simp only [exchange, load_withHeap hi, ha, load_withHeap hj, hb, store_withHeap queue hi,
    store_withHeap queue hj, swap, Option.bind_eq_bind, Option.bind_some]

end WithHeap

/-- What holds of a queue between two calls. -/
structure Valid (queue : OscMsgQueue μ) (cells : ℕ → Option μ) : Prop where
  heap : queue.heap = some cells
  positive : 0 < queue.nItems
  le : queue.cItems ≤ queue.nItems
  filled : none ∉ contents queue.cItems cells
  ordered : IsHeap (cellKey due) queue.cItems cells

end OscMsgQueue

theorem exists_cell {n i : ℕ} {cells : ℕ → Option μ} (hfilled : none ∉ contents n cells)
    (hi : i < n) : ∃ msg, cells i = some msg := by
  cases hcell : cells i with
  | none => exact absurd (mem_contents.mpr ⟨i, hi, hcell⟩) hfilled
  | some msg => exact ⟨msg, rfl⟩

/-! ## The two loops -/

variable {due} {queue : OscMsgQueue μ} {cells : ℕ → Option μ}

/-- The first loop ends, with a heap of the same messages. -/
theorem siftUp_spec (queue : OscMsgQueue μ) {msg : μ} {fuel ix : ℕ}
    (hle : queue.cItems ≤ queue.nItems) (hfuel : ix < fuel) (hix : ix < queue.cItems)
    (hmsg : cells ix = some msg) (hfilled : none ∉ contents queue.cItems cells)
    (hsift : SiftUp (cellKey due) queue.cItems cells ix) :
    ∃ cells', siftUp due msg fuel ix (queue.withHeap cells) = some (queue.withHeap cells') ∧
      IsHeap (cellKey due) queue.cItems cells' ∧
      contents queue.cItems cells' = contents queue.cItems cells := by
  induction fuel generalizing ix cells with
  | zero => omega
  | succ fuel ih =>
      rw [siftUp]
      by_cases hpos : 0 < ix
      · have hup := parent_lt hpos
        obtain ⟨above, habove⟩ := exists_cell hfilled (show parent ix < _ by omega)
        rw [if_pos hpos, heapParent_eq, OscMsgQueue.load_withHeap (by omega), habove,
          Option.bind_eq_bind, Option.bind_some]
        by_cases hlater : oscTimeCmp (fun a b => decide (a > b)) (due above) (due msg) = true
        · have hlt : cellKey due (cells ix) < cellKey due (cells (parent ix)) := by
            rw [habove, hmsg, cellKey_some, cellKey_some]
            exact WithBot.coe_lt_coe.mpr ((oscTimeCmp_gt _ _).mp hlater)
          have hsame := contents_swap cells (show parent ix < queue.cItems by omega) hix
          have hmoved : swap cells (parent ix) ix (parent ix) = some msg := by
            rw [swap_left (by omega), hmsg]
          obtain ⟨cells', hrun, hheap, hcontents⟩ := ih (by omega) (by omega) hmoved
            (hsame ▸ hfilled) (hsift.swap hpos hix hlt)
          rw [if_pos hlater, OscMsgQueue.exchange_withHeap (by omega) (by omega) habove hmsg,
            Option.bind_eq_bind, Option.bind_some]
          exact ⟨cells', hrun, hheap, hcontents.trans hsame⟩
        · rw [if_neg hlater]
          refine ⟨cells, rfl, hsift.isHeap ?_, rfl⟩
          intro _
          rw [habove, hmsg, cellKey_some, cellKey_some]
          rw [oscTimeCmp_gt, not_lt] at hlater
          exact WithBot.coe_le_coe.mpr hlater
      · rw [if_neg hpos]
        exact ⟨cells, rfl, hsift.isHeap fun habs => absurd habs hpos, rfl⟩

theorem smallerIx_eq {ix s : ℕ} (hle : queue.cItems ≤ queue.nItems)
    (hfilled : none ∉ contents queue.cItems cells)
    (hs : ix < queue.cItems → s < queue.cItems) :
    smallerIx due (queue.withHeap cells) ix s =
      some (smaller (cellKey due) queue.cItems cells ix s) := by
  rw [smallerIx, OscMsgQueue.withHeap_cItems]
  by_cases hix : ix < queue.cItems
  · obtain ⟨msg, hmsg⟩ := exists_cell hfilled hix
    obtain ⟨least, hleast⟩ := exists_cell hfilled (hs hix)
    have hkey : oscTimeCmp (fun a b => decide (a < b)) (due msg) (due least) = true ↔
        cellKey due (cells ix) < cellKey due (cells s) := by
      rw [hmsg, hleast, cellKey_some, cellKey_some, WithBot.coe_lt_coe]
      exact oscTimeCmp_lt _ _
    have hin := hs hix
    rw [if_pos hix, OscMsgQueue.load_withHeap (by omega), hmsg, Option.bind_eq_bind,
      Option.bind_some, OscMsgQueue.load_withHeap (by omega), hleast, Option.bind_some]
    by_cases hlt : cellKey due (cells ix) < cellKey due (cells s)
    · rw [if_pos (hkey.mpr hlt), smaller, if_pos ⟨hix, hlt⟩]
    · rw [if_neg (hkey.not.mpr hlt), smaller, if_neg fun habs => hlt habs.2]
  · rw [if_neg hix, smaller, if_neg fun habs => hix habs.1]

theorem smaller_lt {n c s : ℕ} (hs : s < n) : smaller (cellKey due) n cells c s < n := by
  unfold smaller
  split
  next hc => exact hc.1
  next => exact hs

/-- The second loop overflows at a position in use, or ends with a heap of the same
messages. -/
theorem siftDown_spec (queue : OscMsgQueue μ) {fuel ix : ℕ} (hle : queue.cItems ≤ queue.nItems)
    (hfuel : queue.cItems < fuel + ix) (hix : ix < queue.cItems ∨ ix = 0)
    (hfilled : none ∉ contents queue.cItems cells)
    (hsift : SiftDown (cellKey due) queue.cItems cells ix) :
    (siftDown due fuel ix (queue.withHeap cells) = none ∧
      ∃ i, i < queue.cItems ∧ intMax < heapRightIx i) ∨
    ∃ cells', siftDown due fuel ix (queue.withHeap cells) = some (queue.withHeap cells') ∧
      IsHeap (cellKey due) queue.cItems cells' ∧
      contents queue.cItems cells' = contents queue.cItems cells := by
  induction fuel generalizing ix cells with
  | zero => omega
  | succ fuel ih =>
      rw [siftDown]
      by_cases hint : heapRightIx ix ≤ intMax
      · have hleft : left ix < queue.cItems → ix < queue.cItems := by
          unfold left
          omega
        have hright : right ix < queue.cItems →
            smaller (cellKey due) queue.cItems cells (left ix) ix < queue.cItems := by
          intro hlt
          apply smaller_lt
          unfold right at hlt
          omega
        rw [if_pos hint, heapLeftIx_eq, heapRightIx_eq, smallerIx_eq hle hfilled hleft,
          Option.bind_eq_bind, Option.bind_some, smallerIx_eq hle hfilled hright,
          Option.bind_some, ← smallest]
        by_cases hstop : smallest (cellKey due) queue.cItems cells ix = ix
        · rw [if_neg (not_not.mpr hstop)]
          exact Or.inr ⟨cells, rfl, hsift.isHeap hstop, rfl⟩
        · rcases smallest_cases (cellKey due) queue.cItems cells ix with habs | hchild
          · exact absurd habs hstop
          · obtain ⟨hc, hcpos, hparent, -⟩ := hchild
            have hlt := parent_lt hcpos
            obtain ⟨a, ha⟩ := exists_cell hfilled (show ix < queue.cItems by omega)
            obtain ⟨b, hb⟩ := exists_cell hfilled hc
            have hsame := contents_swap cells (show ix < queue.cItems by omega) hc
            rw [if_pos hstop, OscMsgQueue.exchange_withHeap (by omega) (by omega) ha hb,
              Option.bind_eq_bind, Option.bind_some]
            rcases ih (by omega) (Or.inl hc) (hsame ▸ hfilled) (hsift.swap rfl hstop) with
              hoverflow | ⟨cells', hrun, hheap, hcontents⟩
            · exact Or.inl hoverflow
            · exact Or.inr ⟨cells', hrun, hheap, hcontents.trans hsame⟩
      · rw [if_neg hint]
        refine Or.inl ⟨rfl, ix, ?_, not_le.mp hint⟩
        rcases hix with hlt | hzero
        · exact hlt
        · subst hzero
          exact absurd (by decide) hint

/-! ## The queued messages -/

namespace OscMsgQueue

theorem queued_eq (queue : OscMsgQueue μ) :
    queue.queued = (contents queue.cItems queue.load).filterMap id := by
  rw [contents, Multiset.filterMap_map, queued]
  rfl

theorem queued_of_zero (h : queue.cItems = 0) : queue.queued = 0 := by
  rw [queued, h, Multiset.range_zero, Multiset.filterMap_zero]

namespace Valid

theorem load_eq (h : queue.Valid due cells) {i : ℕ} (hi : i < queue.cItems) :
    queue.load i = cells i := by
  rw [load, h.heap, Option.bind_eq_bind, Option.bind_some,
    if_pos (Nat.lt_of_lt_of_le hi h.le)]

theorem queued_eq (h : queue.Valid due cells) :
    queue.queued = (contents queue.cItems cells).filterMap id := by
  rw [OscMsgQueue.queued_eq]
  exact congrArg _ (contents_congr fun i hi => h.load_eq hi)

theorem exists_load (h : queue.Valid due cells) {i : ℕ} (hi : i < queue.cItems) :
    ∃ msg, queue.load i = some msg := by
  rw [h.load_eq hi]
  exact exists_cell h.filled hi

/-- Every cell of the heap is in order with the one above it. -/
theorem exists_above (h : queue.Valid due cells) {i : ℕ} (hpos : 0 < i)
    (hi : i < queue.cItems) : ∃ above msg, queue.load (heapParent i) = some above ∧
      queue.load i = some msg ∧ (due above).key ≤ (due msg).key := by
  have hup := parent_lt hpos
  have hup' : heapParent i < queue.cItems := by
    rw [heapParent_eq]
    omega
  obtain ⟨above, habove⟩ := h.exists_load hup'
  obtain ⟨msg, hmsg⟩ := h.exists_load hi
  have hle := h.ordered i hpos hi
  rw [← heapParent_eq, ← h.load_eq hup', ← h.load_eq hi, habove, hmsg, cellKey_some,
    cellKey_some, WithBot.coe_le_coe] at hle
  exact ⟨above, msg, habove, hmsg, hle⟩

/-- No queued message comes before the first one. -/
theorem root_le (h : queue.Valid due cells) {root other : μ} (hroot : cells 0 = some root)
    (hother : other ∈ queue.queued) : (due root).key ≤ (due other).key := by
  rw [h.queued_eq, Multiset.mem_filterMap] at hother
  obtain ⟨cell, hmem, rfl⟩ := hother
  obtain ⟨i, hi, hcell⟩ := mem_contents.mp hmem
  have hle := h.ordered.le hi
  rw [hroot, hcell] at hle
  exact WithBot.coe_le_coe.mp hle

theorem exists_root (h : queue.Valid due cells) (hpos : 0 < queue.cItems) :
    ∃ root, queue.load 0 = some root ∧ root ∈ queue.queued ∧
      ∀ other ∈ queue.queued, (due root).key ≤ (due other).key := by
  obtain ⟨root, hroot⟩ := h.exists_load hpos
  refine ⟨root, hroot, ?_, fun other hother => ?_⟩
  · exact (Multiset.mem_filterMap _ _).mpr ⟨0, Multiset.mem_range.mpr hpos, hroot⟩
  · exact h.root_le ((h.load_eq hpos).symm.trans hroot) hother

/-- The test of the first message answers for all of them: it overflows, or the first one is
due, or none is. -/
theorem isMsgDue_spec (h : queue.Valid due cells) (hpos : 0 < queue.cItems)
    (hnormal : ∀ msg, (due msg).Normalised) {now : OscTime} {threshold : Option OscTime}
    (hnow : now.Normalised) (hthreshold : ThresholdSane threshold) :
    ∃ root, queue.load 0 = some root ∧
      ((¬ FirstDiffFits due now queue ∧ oscIsMsgDue now (due root) threshold = none) ∨
      (FirstDiffFits due now queue ∧ root ∈ queue.queued ∧ IsDue now threshold (due root) ∧
        oscIsMsgDue now (due root) threshold = some true) ∨
      (FirstDiffFits due now queue ∧ (∀ msg ∈ queue.queued, ¬ IsDue now threshold (due msg)) ∧
        oscIsMsgDue now (due root) threshold = some false)) := by
  obtain ⟨root, hroot, hmem, hle⟩ := h.exists_root hpos
  refine ⟨root, hroot, ?_⟩
  have hfirst : FirstDiffFits due now queue ↔ DiffFits now (due root) := by
    refine ⟨fun hfits => hfits root hmem hle, fun hfits msg hmsg hmsg_le => ?_⟩
    have hsame := OscTime.key_injective (le_antisymm (hmsg_le root hmem) (hle msg hmsg))
    rwa [hsame]
  rcases oscIsMsgDue_spec hnow (hnormal root) hthreshold with ⟨hfits, htest⟩ | ⟨hfits, htest⟩
  · exact Or.inl ⟨mt hfirst.mp hfits, htest⟩
  by_cases hdue : IsDue now threshold (due root)
  · rw [decide_eq_true hdue] at htest
    exact Or.inr (Or.inl ⟨hfirst.mpr hfits, hmem, hdue, htest⟩)
  · rw [decide_eq_false hdue] at htest
    refine Or.inr (Or.inr ⟨hfirst.mpr hfits, fun msg hmsg habs => hdue ?_, htest⟩)
    exact ((hnormal root).micros_le (hnormal msg) (hle msg hmsg)).trans habs

end Valid

end OscMsgQueue

/-! ## The two operations -/

/-- The new queue of `osc_msg_queue_init` is valid. -/
theorem valid_oscMsgQueueInit {capacity flags : Int} {queue : OscMsgQueue μ}
    (hcapacity : 1 ≤ capacity) (hint : capacity ≤ intMax)
    (h : oscMsgQueueInit true capacity flags = some queue) :
    queue.Valid due fun _ => none := by
  have hsize : capacity ≤ 2147483647 := hint
  obtain rfl := Option.some.inj h
  constructor
  · rfl
  · show 0 < Machine.sizeT capacity
    rw [Machine.sizeT_of_nonneg (by omega) (by omega)]
    omega
  · exact Nat.zero_le _
  · exact Multiset.notMem_zero _
  · intro i _ hi
    exact absurd hi (Nat.not_lt_zero i)

theorem queued_oscMsgQueueInit {capacity flags : Int} {queue : OscMsgQueue μ}
    (h : oscMsgQueueInit true capacity flags = some queue) : queue.queued = 0 := by
  obtain rfl := Option.some.inj h
  exact OscMsgQueue.queued_of_zero rfl

/-- A message goes into a free cell and moves up to its place. -/
theorem placeMsg_spec (hlt : queue.cItems < queue.nItems)
    (hfilled : none ∉ contents queue.cItems cells)
    (hordered : IsHeap (cellKey due) queue.cItems cells) (msg : μ) :
    ∃ queue' cells', placeMsg due msg (queue.withHeap cells) = some queue' ∧
      queue'.Valid due cells' ∧ queue'.cItems = queue.cItems + 1 ∧
      contents queue'.cItems cells' = some msg ::ₘ contents queue.cItems cells := by
  let larger : OscMsgQueue μ := { queue with cItems := queue.cItems + 1 }
  have hpush := contents_push queue.cItems cells (some msg)
  have hfilled' : none ∉ contents larger.cItems
      (Function.update cells queue.cItems (some msg)) := by
    rw [hpush, Multiset.mem_cons]
    rintro (habs | habs)
    · cases habs
    · exact hfilled habs
  obtain ⟨cells', hrun, hheap, hcontents⟩ := siftUp_spec larger
    (Nat.succ_le_of_lt hlt) (Nat.lt_succ_self _) (Nat.lt_succ_self _)
    (Function.update_self _ _ _) hfilled' (hordered.siftUp (some msg))
  refine ⟨larger.withHeap cells', cells', ?_, ?_, rfl, hcontents.trans hpush⟩
  · show ((larger.withHeap cells).store queue.cItems msg).bind
      (siftUp due msg (queue.cItems + 1) queue.cItems) = _
    rw [OscMsgQueue.store_withHeap larger hlt, Option.bind_some]
    exact hrun
  · exact ⟨rfl, Nat.lt_of_le_of_lt (Nat.zero_le _) hlt, Nat.succ_le_of_lt hlt,
      hcontents ▸ hfilled', hheap⟩

/-- `osc_msg_queue_add` accepts a message exactly when there is room for it, and then
it is one more queued message. -/
theorem oscMsgQueueAdd_spec (h : queue.Valid due cells) (msg : μ) :
    ∃ ret queue' cells', oscMsgQueueAdd due true msg queue = some (ret, queue') ∧
      queue'.Valid due cells' ∧
      queue'.queued = (if ret then msg ::ₘ queue.queued else queue.queued) := by
  have haccept : ∀ (q : OscMsgQueue μ), q.cItems < q.nItems → q.cItems = queue.cItems →
      ∀ (held : ℕ → Option μ), (∀ i, i < queue.cItems → held i = cells i) →
      ∃ queue' cells', placeMsg due msg (q.withHeap held) = some queue' ∧
        queue'.Valid due cells' ∧ queue'.queued = msg ::ₘ queue.queued := by
    intro q hlt hsize held hheld
    have hsame : contents q.cItems held = contents queue.cItems cells := by
      rw [hsize]
      exact contents_congr hheld
    obtain ⟨queue', cells', hplace, hvalid, -, hcontents⟩ := placeMsg_spec hlt
      (hsame ▸ h.filled) (by rw [hsize]; exact h.ordered.congr hheld) msg
    refine ⟨queue', cells', hplace, hvalid, ?_⟩
    rw [hvalid.queued_eq, hcontents, hsame, h.queued_eq,
      Multiset.filterMap_cons_some id _ _ rfl]
  rw [oscMsgQueueAdd]
  by_cases hfull : queue.cItems = queue.nItems
  · rw [if_pos hfull]
    by_cases hgrow : Growable queue.flags
    · obtain ⟨queue', cells', hplace, hvalid, hqueued⟩ :=
        haccept { queue with nItems := queue.nItems * 2 }
          (by have := h.positive; simp only; omega) rfl queue.load (fun i hi => h.load_eq hi)
      refine ⟨true, queue', cells', ?_, hvalid, hqueued⟩
      rw [if_pos hgrow, if_pos rfl]
      exact congrArg (Option.map fun queue => (true, queue)) hplace
    · rw [if_neg hgrow]
      exact ⟨false, queue, cells, rfl, h, rfl⟩
  · have hlt := Nat.lt_of_le_of_ne h.le hfull
    obtain ⟨queue', cells', hplace, hvalid, hqueued⟩ := haccept queue hlt rfl cells fun _ _ => rfl
    have hself : queue.withHeap cells = queue := by
      rw [OscMsgQueue.withHeap, ← h.heap]
    rw [hself] at hplace
    refine ⟨true, queue', cells', ?_, hvalid, hqueued⟩
    rw [if_neg hfull, hplace]
    rfl

/-- `osc_msg_queue_remove` takes out the first message and lets the last one move down
from its place. -/
theorem oscMsgQueueRemove_eq (h : queue.Valid due cells) {n : ℕ} {out last : μ}
    (hn : queue.cItems = n + 1) (hout : cells 0 = some out) (hlast : cells n = some last) :
    oscMsgQueueRemove due queue =
      (siftDown due (n + 1) 0 ({ queue with cItems := n }.withHeap
        (Function.update cells 0 (some last)))).map fun queue => (some out, queue) := by
  have hpositive := h.positive
  have hheap := h.heap
  have hle := h.le
  cases queue with
  | mk heap nItems cItems flags =>
      subst hheap
      subst hn
      have hload : ∀ i, i < nItems → ∀ size,
          OscMsgQueue.load ⟨some cells, nItems, size, flags⟩ i = cells i := by
        intro i hi size
        rw [OscMsgQueue.load, Option.bind_eq_bind, Option.bind_some, if_pos hi]
      have hstore : OscMsgQueue.store ⟨some cells, nItems, n, flags⟩ 0 last =
          some ⟨some (Function.update cells 0 (some last)), nItems, n, flags⟩ := by
        rw [OscMsgQueue.store, Option.bind_eq_bind, Option.bind_some, if_pos hpositive]
      rw [oscMsgQueueRemove, if_neg (Nat.succ_ne_zero n), hload 0 hpositive, hout]
      simp only [Option.bind_eq_bind, Option.bind_some, Nat.add_sub_cancel]
      rw [hload n hle, hlast, Option.bind_some, hstore, Option.bind_some, Option.map_eq_bind]
      rfl

/-- `osc_msg_queue_remove` overflows, or returns `NULL` from an empty queue, or takes
out a message that no queued one precedes. -/
theorem oscMsgQueueRemove_spec (h : queue.Valid due cells) :
    (oscMsgQueueRemove due queue = none ∧ ¬ IndicesFit queue) ∨
    (queue.cItems = 0 ∧ oscMsgQueueRemove due queue = some (none, queue)) ∨
    ∃ out queue' cells', oscMsgQueueRemove due queue = some (some out, queue') ∧
      queue'.Valid due cells' ∧ queue.load 0 = some out ∧
      queue.queued = out ::ₘ queue'.queued ∧
      ∀ other ∈ queue.queued, (due out).key ≤ (due other).key := by
  by_cases hempty : queue.cItems = 0
  · exact Or.inr (Or.inl ⟨hempty, if_pos hempty⟩)
  · obtain ⟨n, hn⟩ := Nat.exists_eq_succ_of_ne_zero hempty
    have hle : n < queue.nItems := Nat.lt_of_lt_of_le (hn ▸ Nat.lt_succ_self n) h.le
    obtain ⟨out, hout⟩ := exists_cell h.filled (show 0 < queue.cItems by omega)
    obtain ⟨last, hlast⟩ := exists_cell h.filled (show n < queue.cItems by omega)
    have hpop := contents_pop n cells
    rw [← Nat.succ_eq_add_one, ← hn, hout, hlast] at hpop
    have hfilled : none ∉ contents n (Function.update cells 0 (some last)) :=
      fun habs => h.filled (hpop ▸ Multiset.mem_cons_of_mem habs)
    have hordered := (h.ordered.mono (show n ≤ queue.cItems by omega)).siftDown (some last)
    rw [oscMsgQueueRemove_eq h hn hout hlast]
    rcases siftDown_spec { queue with cItems := n } (Nat.le_of_lt hle) (Nat.lt_succ_self _)
        (Or.inr rfl) hfilled hordered with
      ⟨hnone, i, hi, hoverflow⟩ | ⟨cells', hrun, hheap, hcontents⟩
    · refine Or.inl ⟨by rw [hnone]; rfl, fun hfit => ?_⟩
      exact absurd (hfit i (by rw [hn]; exact Nat.succ_lt_succ hi)) (not_le.mpr hoverflow)
    · have hvalid : ({ queue with cItems := n }.withHeap cells').Valid due cells' :=
        ⟨rfl, h.positive, Nat.le_of_lt hle, hcontents ▸ hfilled, hheap⟩
      have hload := (h.load_eq (show 0 < queue.cItems by omega)).trans hout
      refine Or.inr (Or.inr ⟨out, _, cells', by rw [hrun]; rfl, hvalid, hload, ?_,
        fun other hother => h.root_le hout hother⟩)
      rw [hvalid.queued_eq, h.queued_eq, hpop, OscMsgQueue.withHeap_cItems, hcontents]
      exact Multiset.filterMap_cons_some id _ _ rfl

end LittleOscar
