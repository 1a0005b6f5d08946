import LittleOscar.Queue.History
import LittleOscar.Queue.Thread.Definitions

/-!
# Removing a message that is due

`osc_msg_queue_remove_due_s` looks at the first message of the heap and at the clock. On a
queue that is reached by adding and removing it answers for the whole queue: it returns
`NULL` where no queued message is due, and otherwise one that no queued message precedes
(`run_removesDue`).

Two computations have to come out for that. The time from the clock to the first message is
one of `time_t`, which it is not for a message that is due at the earliest or the latest
second of that type. And where a message is due, at most `2 ^ 30` of them are queued: from
there on the `int ix` of `osc_msg_queue_remove` overflows, as messages that come in the order
of their due times make the last one go down the left side of the heap
(`siftDown_overflows`).
-/

namespace LittleOscar

open Machine Transition BinaryHeap

variable {μ : Type} (due : μ → OscTime)

/-- What a call that returned `out` should have done to the queue. -/
structure DueRemoved (now : OscTime) (threshold : Option OscTime) (queue : OscMsgQueue μ)
    (out : Option μ) (queue' : OscMsgQueue μ) : Prop where
  null_iff : out = none ↔ ∀ msg ∈ queue.queued, ¬ IsDue now threshold (due msg)
  unchanged : out = none → queue' = queue
  least : ∀ msg ∈ out, ∀ other ∈ queue.queued, (due msg).key ≤ (due other).key
  isDue : ∀ msg ∈ out, IsDue now threshold (due msg)
  keeps : ∀ msg ∈ out, queue.queued = msg ::ₘ queue'.queued

/-- `osc_msg_queue_remove_due_s` returns, and has done so. -/
def RemovesDue (now : OscTime) (threshold : Option OscTime) (queue : OscMsgQueue μ) : Prop :=
  ∃ out queue', oscMsgQueueRemoveDueS due threshold now queue =
      some ⟨queue', false, .gives out⟩ ∧ DueRemoved due now threshold queue out queue'

variable {due} {queue : OscMsgQueue μ} {cells : ℕ → Option μ} {now : OscTime}
  {threshold : Option OscTime}

/-- Nothing is returned, and nothing was due. -/
theorem dueRemoved_none (h : ∀ msg ∈ queue.queued, ¬ IsDue now threshold (due msg)) :
    DueRemoved due now threshold queue none queue := by
  constructor
  · exact ⟨fun _ => h, fun _ => rfl⟩
  · exact fun _ => rfl
  · exact fun msg habs => absurd habs (Option.not_mem_none msg)
  · exact fun msg habs => absurd habs (Option.not_mem_none msg)
  · exact fun msg habs => absurd habs (Option.not_mem_none msg)

/-- The first message is returned, and it was due. -/
theorem dueRemoved_some {root : μ} {queue' : OscMsgQueue μ} (hdue : IsDue now threshold (due root))
    (hqueued : queue.queued = root ::ₘ queue'.queued)
    (hle : ∀ other ∈ queue.queued, (due root).key ≤ (due other).key) :
    DueRemoved due now threshold queue (some root) queue' := by
  constructor
  · refine iff_of_false (Option.some_ne_none root) fun habs => ?_
    exact habs root (hqueued ▸ Multiset.mem_cons_self root _) hdue
  · exact fun habs => absurd habs (Option.some_ne_none root)
  · intro msg hmsg
    obtain rfl := Option.some.inj hmsg
    exact hle
  · intro msg hmsg
    obtain rfl := Option.some.inj hmsg
    exact hdue
  · intro msg hmsg
    obtain rfl := Option.some.inj hmsg
    exact hqueued

/-- The first message of a heap answers for the whole queue, if the time until it is due does
not overflow. -/
theorem removesDue_iff (h : queue.Valid due cells) (hnormal : ∀ msg, (due msg).Normalised)
    (hnow : now.Normalised) (hthreshold : ThresholdSane threshold)
    (hindices : DueIndicesFit due now threshold queue) :
    RemovesDue due now threshold queue ↔ FirstDiffFits due now queue := by
  rw [RemovesDue, oscMsgQueueRemoveDueS, oscMsgQueueSize]
  by_cases hpos : 0 < queue.cItems
  · obtain ⟨root, hroot, ⟨hfits, htest⟩ | ⟨hfits, hmem, hdue, htest⟩ | ⟨hfits, hnone, htest⟩⟩ :=
      h.isMsgDue_spec hpos hnormal hnow hthreshold
    · rw [if_pos hpos, hroot, Option.bind_eq_bind, Option.bind_some, htest]
      refine iff_of_false ?_ hfits
      rintro ⟨out, queue', habs, -⟩
      cases habs
    · refine iff_of_true ?_ hfits
      rw [if_pos hpos, hroot, Option.bind_eq_bind, Option.bind_some, htest]
      rcases oscMsgQueueRemove_spec h with ⟨-, habs⟩ | ⟨habs, -⟩ |
        ⟨out, queue', -, hremove, -, hload, hqueued, hle⟩
      · exact absurd (hindices ⟨root, hmem, hdue⟩) habs
      · omega
      · obtain rfl : root = out := Option.some.inj (hroot.symm.trans hload)
        exact ⟨some root, queue', by rw [hremove]; rfl, dueRemoved_some hdue hqueued hle⟩
    · refine iff_of_true ⟨none, queue, ?_, dueRemoved_none hnone⟩ hfits
      rw [if_pos hpos, hroot, Option.bind_eq_bind, Option.bind_some, htest]
      rfl
  · have hempty : queue.queued = 0 := OscMsgQueue.queued_of_zero (by omega)
    rw [if_neg hpos]
    refine iff_of_true ⟨none, queue, rfl, dueRemoved_none fun msg hmsg => ?_⟩ fun msg hmsg => ?_
    · exact absurd (hempty ▸ hmsg) (Multiset.notMem_zero msg)
    · exact absurd (hempty ▸ hmsg) (Multiset.notMem_zero msg)

/-- Whatever was added and removed before, a message that is due is found, as long as the time
until the first one is due does not overflow and the indices of the removals are of type
`int`. -/
theorem run_removesDue (due : μ → OscTime) (hnormal : ∀ msg, (due msg).Normalised)
    (capacity flags : Int) (queue : OscMsgQueue μ) (calls : List (QueueCall μ))
    (hcapacity : 1 ≤ capacity) (hint : capacity ≤ intMax)
    (hinit : oscMsgQueueInit true capacity flags = some queue)
    (hfit : Along (historyStep due) CallFits ⟨queue, 0, 0⟩ calls) :
    ∃ t, run (historyStep due) ⟨queue, 0, 0⟩ calls = some t ∧
      ∀ now threshold, now.Normalised → ThresholdSane threshold →
        DueIndicesFit due now threshold t.queue →
        (RemovesDue due now threshold t.queue ↔ FirstDiffFits due now t.queue) := by
  have hstart : Sound due ⟨queue, 0, 0⟩ :=
    ⟨⟨_, valid_oscMsgQueueInit hcapacity hint hinit⟩,
      (Multiset.zero_add _).trans (queued_oscMsgQueueInit hinit)⟩
  obtain ⟨t, hrun, ⟨cells, hvalid⟩, -⟩ :=
    exists_run (Sound due) (fun t c ht hc => ht.step c hc) hstart hfit
  exact ⟨t, hrun, fun now threshold hnow hthreshold hindices =>
    removesDue_iff hvalid hnormal hnow hthreshold hindices⟩

/-- A message is due as many seconds after the epoch as its number says. -/
def dueAtSecond (msg : ℕ) : OscTime := ⟨Int64.ofNat msg, 0⟩

theorem normalised_dueAtSecond (msg : ℕ) : (dueAtSecond msg).Normalised :=
  ⟨le_rfl, show (0 : Int) < 1000000 by decide⟩

theorem dueAtSecond_lt {i j : ℕ} (hij : i < j) (hj : j < 1073741825) :
    (dueAtSecond i).key < (dueAtSecond j).key := by
  have hsec {k : ℕ} (hk : k < 1073741825) : (dueAtSecond k).tvSec.toInt = k :=
    Int64.toInt_ofNat_of_lt (by omega)
  rw [OscTime.key, OscTime.key, Prod.Lex.toLex_lt_toLex, hsec (hij.trans hj), hsec hj]
  exact Or.inl (Int.ofNat_lt.mpr hij)

/-- The first of two messages is due when the second one is not. -/
theorem run_removesDue_firstOfTwo : ∃ t, run (historyStep dueAtSecond)
      ⟨⟨some fun _ => none, 1, 0, 1⟩, 0, 0⟩ [.add 2 true, .add 1 true] = some t ∧
    RemovesDue dueAtSecond ⟨0, 500000⟩ (some ⟨0, 500000⟩) t.queue := by
  obtain ⟨t, hrun, hexact⟩ := run_removesDue dueAtSecond normalised_dueAtSecond 1 1 _
    [.add 2 true, .add 1 true] le_rfl (by decide) rfl
    ((along_cons_of_eq_some rfl).mpr ⟨rfl, (along_cons_of_eq_some rfl).mpr ⟨rfl, along_nil _⟩⟩)
  refine ⟨t, hrun, (hexact _ _ (by decide) (by decide) ?_).mpr ?_⟩
  all_goals
    obtain rfl := Option.some.inj hrun
    decide

/-! ## More messages than an `int` can index -/

section Ascending

variable {msgs : ℕ → μ} {n size : ℕ} {flags : Int}

/-- The first `n` positions hold the first `n` messages. -/
def ascending (msgs : ℕ → μ) (n i : ℕ) : Option μ := if i < n then some (msgs i) else none

theorem ascending_of_lt {i : ℕ} (h : i < n) : ascending msgs n i = some (msgs i) := if_pos h

theorem update_ascending : Function.update (ascending msgs n) n (some (msgs n)) =
    ascending msgs (n + 1) := by
  funext i
  by_cases hi : i = n
  · rw [hi, Function.update_self, ascending_of_lt (Nat.lt_succ_self n)]
  · rw [Function.update_of_ne hi, ascending, ascending]
    by_cases hlt : i < n
    · rw [if_pos hlt, if_pos (by omega)]
    · rw [if_neg hlt, if_neg (by omega)]

/-- A message that is due last stays behind the others. -/
theorem add_ascending (hle : ∀ i, i < n → (due (msgs i)).key ≤ (due (msgs n)).key)
    (hlt : n < size) :
    oscMsgQueueAdd due true (msgs n) ⟨some (ascending msgs n), size, n, flags⟩ =
      some (true, ⟨some (ascending msgs (n + 1)), size, n + 1, flags⟩) := by
  have hstore : OscMsgQueue.store ⟨some (ascending msgs n), size, n + 1, flags⟩ n (msgs n) =
      some ⟨some (ascending msgs (n + 1)), size, n + 1, flags⟩ := by
    rw [OscMsgQueue.store, Option.bind_eq_bind, Option.bind_some, if_pos hlt, update_ascending]
  rw [oscMsgQueueAdd, if_neg (Nat.ne_of_lt hlt), placeMsg]
  simp only [Option.bind_eq_bind, hstore, Option.bind_some]
  rw [siftUp]
  by_cases hpos : 0 < n
  · have hup : heapParent n < n := parent_lt hpos
    have habove : OscMsgQueue.load ⟨some (ascending msgs (n + 1)), size, n + 1, flags⟩
        (heapParent n) = some (msgs (heapParent n)) := by
      rw [OscMsgQueue.load, Option.bind_eq_bind, Option.bind_some,
        if_pos (show heapParent n < size by omega), ascending_of_lt (by omega)]
    have hstay : ¬ oscTimeCmp (fun a b => decide (a > b)) (due (msgs (heapParent n)))
        (due (msgs n)) = true := by
      rw [oscTimeCmp_gt, not_lt]
      exact hle _ hup
    rw [if_pos hpos, habove, Option.bind_eq_bind, Option.bind_some, if_neg hstay]
    rfl
  · rw [if_neg hpos]
    rfl

/-- Messages that come in the order of their due times stay where they are. -/
theorem run_ascending (hmono : ∀ i j, i ≤ j → j < n → (due (msgs i)).key ≤ (due (msgs j)).key)
    (hle : n ≤ size) : ∃ accepted, run (historyStep due)
      ⟨⟨some fun _ => none, size, 0, flags⟩, 0, 0⟩
      ((List.range n).map fun i => .add (msgs i) true) =
    some ⟨⟨some (ascending msgs n), size, n, flags⟩, accepted, 0⟩ := by
  induction n with
  | zero => exact ⟨0, rfl⟩
  | succ n ih =>
      obtain ⟨accepted, hrun⟩ := ih (fun i j hij hj => hmono i j hij (by omega)) (by omega)
      have hadd : oscMsgQueueAdd due true (msgs n) ⟨some (ascending msgs n), size, n, flags⟩ =
          some (true, ⟨some (ascending msgs (n + 1)), size, n + 1, flags⟩) :=
        add_ascending (fun i hi => hmono i n (by omega) (Nat.lt_succ_self n)) (by omega)
      refine ⟨msgs n ::ₘ accepted, ?_⟩
      rw [List.range_succ, List.map_append, run_append, hrun, Option.bind_some, List.map_singleton,
        run_cons, historyStep, hadd]
      rfl

/-- A message that is due last goes down to the left, where all others lie in the order in
which they are due. -/
theorem siftDown_goesLeft {last : μ} {fuel ix : ℕ} {queue : OscMsgQueue μ}
    {cells : ℕ → Option μ}
    (hmono : ∀ i j, i < j → j < queue.cItems → (due (msgs i)).key < (due (msgs j)).key)
    (hlast : ∀ i, i < queue.cItems → (due (msgs i)).key < (due last).key)
    (hle : queue.cItems ≤ queue.nItems)
    (hbehind : ∀ i, ix < i → i < queue.cItems → cells i = some (msgs i))
    (hcell : cells ix = some last) (hleft : heapLeftIx ix < queue.cItems)
    (hint : heapRightIx ix ≤ intMax) :
    siftDown due (fuel + 1) ix (queue.withHeap cells) =
      siftDown due fuel (heapLeftIx ix) (queue.withHeap (swap cells ix (heapLeftIx ix))) := by
  have hix : ix < heapLeftIx ix := by
    rw [heapLeftIx]
    omega
  have hload : ∀ i, i < queue.cItems → (queue.withHeap cells).load i = cells i :=
    fun i hi => OscMsgQueue.load_withHeap (by omega)
  have hfirst : cells (heapLeftIx ix) = some (msgs (heapLeftIx ix)) := hbehind _ hix hleft
  have hsmaller : smallerIx due (queue.withHeap cells) (heapLeftIx ix) ix =
      some (heapLeftIx ix) := by
    rw [smallerIx, OscMsgQueue.withHeap_cItems, if_pos hleft, hload _ hleft, hfirst,
      hload ix (by omega), hcell]
    exact if_pos ((oscTimeCmp_lt _ _).mpr (hlast _ hleft))
  have hsame : smallerIx due (queue.withHeap cells) (heapRightIx ix) (heapLeftIx ix) =
      some (heapLeftIx ix) := by
    rw [smallerIx, OscMsgQueue.withHeap_cItems]
    by_cases hright : heapRightIx ix < queue.cItems
    · rw [if_pos hright, hload _ hright, hload _ hleft, hfirst,
        hbehind _ (by rw [heapRightIx]; omega) hright]
      refine if_neg fun habs => ?_
      exact lt_asymm ((oscTimeCmp_lt _ _).mp habs) (hmono _ _ (Nat.lt_succ_self _) hright)
    · exact if_neg hright
  rw [siftDown, if_pos hint, hsmaller, Option.bind_eq_bind, Option.bind_some, hsame,
    Option.bind_some, if_pos hix.ne',
    OscMsgQueue.exchange_withHeap (by omega) (by omega) hcell hfirst, Option.bind_eq_bind,
    Option.bind_some]

/-- Down the left side of the heap such a message reaches a position whose children no `int`
can index. -/
theorem siftDown_overflows {last : μ} {fuel ix k : ℕ} {queue : OscMsgQueue μ}
    {cells : ℕ → Option μ}
    (hmono : ∀ i j, i < j → j < queue.cItems → (due (msgs i)).key < (due (msgs j)).key)
    (hlast : ∀ i, i < queue.cItems → (due (msgs i)).key < (due last).key)
    (hle : queue.cItems ≤ queue.nItems) (hmany : 1073741824 ≤ queue.cItems)
    (hbehind : ∀ i, ix < i → i < queue.cItems → cells i = some (msgs i))
    (hcell : cells ix = some last) (hix : ix + 1 = 2 ^ k) (hk : k ≤ 30) (hfuel : 30 < fuel + k) :
    siftDown due fuel ix (queue.withHeap cells) = none := by
  induction fuel generalizing ix k cells with
  | zero => omega
  | succ fuel ih =>
      rcases Nat.lt_or_ge k 30 with hlt | hge
      · have hpow : 2 ^ k ≤ 2 ^ 29 := Nat.pow_le_pow_right (by decide) (by omega)
        have hnext : heapLeftIx ix + 1 = 2 ^ (k + 1) := by
          rw [Nat.pow_succ, ← hix, heapLeftIx]
          omega
        rw [siftDown_goesLeft hmono hlast hle hbehind hcell (by rw [heapLeftIx]; omega)
          (by rw [heapRightIx, intMax]; omega)]
        refine ih ?_ ?_ hnext hlt (by omega)
        · intro i hi hin
          rw [swap_of_ne (by rw [heapLeftIx] at hi; omega) (by omega)]
          exact hbehind i (by rw [heapLeftIx] at hi; omega) hin
        · rw [swap_right, hcell]
      · obtain rfl : k = 30 := by omega
        rw [siftDown]
        exact if_neg (by rw [heapRightIx, intMax]; omega)

theorem valid_ascending
    (hmono : ∀ i j, i < j → j < n → (due (msgs i)).key < (due (msgs j)).key)
    (hpos : 0 < size) (hle : n ≤ size) :
    OscMsgQueue.Valid due ⟨some (ascending msgs n), size, n, flags⟩ (ascending msgs n) := by
  refine ⟨rfl, hpos, hle, ?_, ?_⟩
  · intro habs
    obtain ⟨i, hi, hnone⟩ := mem_contents.mp habs
    cases (ascending_of_lt hi).symm.trans hnone
  · intro i hi hin
    have hup := parent_lt hi
    have hin' : i < n := hin
    rw [ascending_of_lt hin', ascending_of_lt (hup.trans hin'), cellKey_some, cellKey_some,
      WithBot.coe_le_coe]
    exact (hmono _ _ hup hin').le

/-- With more than `2 ^ 30` of them the first one cannot be removed. -/
theorem remove_ascending
    (hmono : ∀ i j, i < j → j < n + 1 → (due (msgs i)).key < (due (msgs j)).key)
    (hmany : 1073741824 ≤ n) (hle : n < size) :
    oscMsgQueueRemove due ⟨some (ascending msgs (n + 1)), size, n + 1, flags⟩ = none := by
  have hvalid : OscMsgQueue.Valid due ⟨some (ascending msgs (n + 1)), size, n + 1, flags⟩
      (ascending msgs (n + 1)) := valid_ascending hmono (by omega) hle
  rw [oscMsgQueueRemove_eq hvalid rfl (ascending_of_lt (Nat.succ_pos n))
    (ascending_of_lt (Nat.lt_succ_self n))]
  refine congrArg (Option.map _) (siftDown_overflows (k := 0)
    (fun i j hij hj => hmono i j hij (Nat.lt_succ_of_lt hj))
    (fun i hi => hmono i n hi (Nat.lt_succ_self n)) (Nat.le_of_lt hle) hmany ?_
    (Function.update_self _ _ _) rfl (by decide) (by omega))
  intro i hi hin
  rw [Function.update_of_ne (Nat.ne_of_gt hi)]
  exact ascending_of_lt (Nat.lt_succ_of_lt hin)

end Ascending

/-! ## The conditions are needed -/

/-- After these calls on a new queue `osc_msg_queue_remove_due_s` does not do its work. -/
def FailsAfter (due : μ → OscTime) (capacity : Int) (calls : List (QueueCall μ)) (now : OscTime) :
    Prop :=
  ∃ queue t, oscMsgQueueInit true capacity 0 = some queue ∧
    run (historyStep due) ⟨queue, 0, 0⟩ calls = some t ∧ ¬ RemovesDue due now none t.queue

/-- A message is due at the earliest second that there is. -/
def dueEarliest (_ : Unit) : OscTime := ⟨Int64.minValue, 0⟩

/-- The time from the first second after the epoch back to it overflows. -/
theorem earliest_failsAfter : FailsAfter dueEarliest 1 [.add () true] ⟨1, 0⟩ := by
  refine ⟨_, _, rfl, rfl, ?_⟩
  rintro ⟨out, queue', hremove, -⟩
  cases hremove

/-- On a queue of `2 ^ 30 + 1` messages the removal of one that is due overflows. -/
theorem crowded_failsAfter : FailsAfter dueAtSecond 1073741825
    ((List.range 1073741825).map fun msg => .add msg true) ⟨0, 0⟩ := by
  have hle : ∀ i j, i ≤ j → j < 1073741825 → (dueAtSecond i).key ≤ (dueAtSecond j).key := by
    intro i j hij hj
    rcases Nat.lt_or_eq_of_le hij with hlt | rfl
    · exact (dueAtSecond_lt hlt hj).le
    · exact le_rfl
  have hsize : sizeT 1073741825 = 1073741825 := sizeT_of_nonneg (by decide) (by decide)
  let queue : OscMsgQueue ℕ := ⟨some fun _ => none, 1073741825, 0, 0⟩
  let full : OscMsgQueue ℕ := ⟨some (ascending id 1073741825), 1073741825, 1073741825, 0⟩
  obtain ⟨accepted, hrun⟩ : ∃ accepted, run (historyStep dueAtSecond) ⟨queue, 0, 0⟩
      ((List.range 1073741825).map fun msg => .add msg true) = some ⟨full, accepted, 0⟩ :=
    run_ascending hle (Nat.le_refl 1073741825)
  have hnone : oscMsgQueueRemove dueAtSecond full = none :=
    remove_ascending (fun i j hij hj => dueAtSecond_lt hij hj) (Nat.le_refl 1073741824)
      (Nat.lt_succ_self 1073741824)
  have hroot : full.load 0 = some 0 := by
    rw [OscMsgQueue.load, Option.bind_eq_bind, Option.bind_some, if_pos (by decide),
      ascending_of_lt (by decide)]
    rfl
  have hdue : oscIsMsgDue ⟨0, 0⟩ (dueAtSecond 0) none = some true := by decide
  refine ⟨queue, _, by rw [oscMsgQueueInit, hsize]; rfl, hrun, ?_⟩
  rintro ⟨out, queue', hremove, -⟩
  have hpos : 0 < oscMsgQueueSize full := show 0 < 1073741825 by decide
  rw [oscMsgQueueRemoveDueS, if_pos hpos, hroot, Option.bind_eq_bind, Option.bind_some, hdue,
    Option.bind_eq_bind, Option.bind_some, if_pos rfl, hnone] at hremove
  cases hremove

/-- Neither the times nor the number of the messages may be just any. -/
theorem failsAfter_earliest_crowded : FailsAfter dueEarliest 1 [.add () true] ⟨1, 0⟩ ∧
    FailsAfter dueAtSecond 1073741825 ((List.range 1073741825).map fun msg => .add msg true)
      ⟨0, 0⟩ :=
  ⟨earliest_failsAfter, crowded_failsAfter⟩

end LittleOscar
