import LittleOscar.Order.SortedQueue
import LittleOscar.Queue.History
import LittleOscar.Transition.Output

/-!
# The queue and the sorted list

What the callers of the queue see of it are the results of the calls and when the messages are
due that they get. In this it is no different from a list in which the times are kept in order,
whatever calls came before and however the heap has arranged the messages
(`run_refines_sortedQueue`).
-/

namespace LittleOscar

open Machine Transition

/-- The times in the order of their keys. -/
instance : LinearOrder OscTime := LinearOrder.lift' OscTime.key OscTime.key_injective

variable {μ : Type} (due : μ → OscTime)

/-- What a caller sees: whether the message was accepted, or when the one that was removed is
due. -/
inductive QueueResult
  | added (ret : Bool)
  | removed (due : Option OscTime)

/-- A call, and what its caller sees of it. -/
def queueStep (queue : OscMsgQueue μ) : QueueCall μ → Option (QueueResult × OscMsgQueue μ)
  | .add msg grown =>
      (oscMsgQueueAdd due grown msg queue).map fun (ret, queue) => (.added ret, queue)
  | .remove =>
      (oscMsgQueueRemove due queue).map fun (out, queue) => (.removed (out.map due), queue)

/-- The call on a sorted list of the times. -/
def sortedStep (q : SortedQueue OscTime) : QueueCall μ → QueueResult × SortedQueue OscTime
  | .add msg _ => (.added (q.insert (due msg)).1, (q.insert (due msg)).2)
  | .remove => (.removed q.extractMin.1, q.extractMin.2)

/-- The queue holds messages that are due at the times of the list. -/
structure Refines (queue : OscMsgQueue μ) (q : SortedQueue OscTime) : Prop where
  valid : ∃ cells, queue.Valid due cells
  keys : (q.keys : Multiset OscTime) = queue.queued.map due
  length : q.keys.length = queue.cItems
  cells : q.cells = queue.nItems
  growable : q.growable = true ↔ Growable queue.flags

variable {due} {queue queue' : OscMsgQueue μ} {q : SortedQueue OscTime}

namespace Refines

theorem nil_iff (h : Refines due queue q) : q.keys = [] ↔ queue.cItems = 0 := by
  rw [← h.length, List.length_eq_zero_iff]

/-- The list puts the time of a message to the others as the heap does the message. -/
theorem insert (h : Refines due queue q) {msg : μ} {ret : Bool}
    (hadd : oscMsgQueueAdd due true msg queue = some (ret, queue')) :
    (q.insert (due msg)).1 = ret ∧ Refines due queue' (q.insert (due msg)).2 := by
  obtain ⟨cells, hvalid⟩ := h.valid
  obtain ⟨ret', queue'', cells', hadd', hvalid', hqueued⟩ := oscMsgQueueAdd_spec hvalid msg
  obtain ⟨rfl, rfl⟩ := Prod.mk.inj (Option.some.inj (hadd.symm.trans hadd'))
  have hlength := List.orderedInsert_length (· ≤ ·) q.keys (due msg)
  rw [h.length] at hlength
  have hkeys (haccepted : ret = true) : ((q.keys.orderedInsert (· ≤ ·) (due msg) : List _) :
      Multiset _) = queue'.queued.map due := by
    have hperm : ((q.keys.orderedInsert (· ≤ ·) (due msg) : List _) : Multiset _) =
        due msg ::ₘ (q.keys : Multiset _) :=
      Multiset.coe_eq_coe.mpr (List.perm_orderedInsert _ _ _)
    rw [hperm, hqueued, if_pos haccepted, Multiset.map_cons, h.keys]
  rw [SortedQueue.insert, h.length, h.cells]
  rcases cases_of_add hadd with ⟨hfree, rfl, hplace⟩ | ⟨hfull, hgrow, -, rfl, hplace⟩ |
    ⟨-, -, habs, -, -⟩ | ⟨hfull, hgrow, rfl, rfl⟩
  · have hblock := sameBlock_of_placeMsg hplace
    rw [if_pos hfree]
    refine ⟨rfl, ⟨cells', hvalid'⟩, hkeys rfl, hlength.trans hblock.cItems.symm,
      hblock.nItems.symm, ?_⟩
    rw [hblock.flags]
    exact h.growable
  · have hblock := sameBlock_of_placeMsg hplace
    rw [if_neg (not_not.mpr hfull), if_pos (h.growable.mpr hgrow)]
    refine ⟨rfl, ⟨cells', hvalid'⟩, hkeys rfl, hlength.trans hblock.cItems.symm,
      hblock.nItems.symm, ?_⟩
    rw [hblock.flags]
    exact h.growable
  · cases habs
  · rw [if_neg (not_not.mpr hfull), if_neg fun habs => hgrow (h.growable.mp habs)]
    exact ⟨rfl, h⟩

/-- A message that no other precedes is due at the head of the list. -/
theorem keys_of_first (h : Refines due queue q) {out : μ} {rest : Multiset μ}
    (hqueued : queue.queued = out ::ₘ rest)
    (hle : ∀ other ∈ queue.queued, (due out).key ≤ (due other).key) :
    q.keys.head? = some (due out) ∧ (q.keys.tail : Multiset OscTime) = rest.map due := by
  have hkeys := h.keys
  rw [hqueued, Multiset.map_cons] at hkeys
  refine q.keys_eq_cons hkeys fun t ht => ?_
  obtain ⟨msg, hmsg, rfl⟩ := Multiset.mem_map.mp ht
  exact hle msg (hqueued ▸ Multiset.mem_cons_of_mem hmsg)

/-- The list gives the time of the message that the heap gives. -/
theorem extractMin (h : Refines due queue q) {out : Option μ}
    (hremove : oscMsgQueueRemove due queue = some (out, queue')) :
    q.extractMin.1 = out.map due ∧ Refines due queue' q.extractMin.2 := by
  obtain ⟨cells, hvalid⟩ := h.valid
  rcases oscMsgQueueRemove_spec hvalid with ⟨hnone, -⟩ | ⟨hzero, hremove'⟩ |
    ⟨out', queue'', cells', hremove', hvalid', -, hqueued, hle⟩
  · cases hnone.symm.trans hremove
  · obtain ⟨rfl, rfl⟩ := Prod.mk.inj (Option.some.inj (hremove.symm.trans hremove'))
    have hnil := h.nil_iff.mpr hzero
    have htail : q.keys.tail = q.keys := by rw [hnil, List.tail_nil]
    refine ⟨List.head?_eq_none_iff.mpr hnil, h.valid, ?_, ?_, h.cells, h.growable⟩
    · exact (congrArg _ htail).trans h.keys
    · exact (congrArg _ htail).trans h.length
  · obtain ⟨rfl, rfl⟩ := Prod.mk.inj (Option.some.inj (hremove.symm.trans hremove'))
    obtain ⟨hhead, htail⟩ := h.keys_of_first hqueued hle
    obtain ⟨hflags, hcells⟩ := block_of_oscMsgQueueRemove hremove
    have hsize := cItems_of_removed hremove
    refine ⟨hhead, ⟨cells', hvalid'⟩, htail, ?_, h.cells.trans hcells.symm, ?_⟩
    · have hlength := h.length
      rw [SortedQueue.extractMin, List.length_tail]
      omega
    · rw [hflags]
      exact h.growable

/-- A call that fits does with the heap what it does with the list. -/
theorem step (h : Refines due queue q) (c : QueueCall μ) (hfit : CallFits ⟨queue, 0, 0⟩ c) :
    ∃ queue', queueStep due queue c = some ((sortedStep due q c).1, queue') ∧
      Refines due queue' (sortedStep due q c).2 := by
  obtain ⟨cells, hvalid⟩ := h.valid
  cases c with
  | add msg grown =>
      obtain rfl : grown = true := hfit
      obtain ⟨ret, queue', -, hadd, -⟩ := oscMsgQueueAdd_spec hvalid msg
      obtain ⟨hret, hrefines⟩ := h.insert hadd
      refine ⟨queue', ?_, hrefines⟩
      rw [queueStep, hadd, sortedStep, hret, Option.map_some]
  | remove =>
      obtain ⟨out, queue', hremove⟩ :
          ∃ out queue', oscMsgQueueRemove due queue = some (out, queue') := by
        rcases oscMsgQueueRemove_spec hvalid with ⟨-, habs⟩ | ⟨-, hremove⟩ |
          ⟨out, queue', -, hremove, -⟩
        · exact absurd hfit habs
        · exact ⟨none, queue, hremove⟩
        · exact ⟨some out, queue', hremove⟩
      obtain ⟨hout, hrefines⟩ := h.extractMin hremove
      refine ⟨queue', ?_, hrefines⟩
      rw [queueStep, hremove, sortedStep, hout, Option.map_some]

end Refines

/-- A new queue and an empty list. -/
theorem refines_oscMsgQueueInit {capacity flags : Int} (hcapacity : 1 ≤ capacity)
    (hint : capacity ≤ intMax) (hinit : oscMsgQueueInit true capacity flags = some queue) :
    Refines due queue (.empty capacity.toNat (decide (Growable flags))) := by
  have hsize : capacity ≤ 2147483647 := hint
  refine ⟨⟨_, valid_oscMsgQueueInit hcapacity hint hinit⟩, ?_, ?_, ?_, ?_⟩
  · rw [queued_oscMsgQueueInit hinit]
    rfl
  all_goals cases hinit
  · rfl
  · exact (sizeT_of_nonneg (by omega) (by omega)).symm
  · exact decide_eq_true_iff

/-- The results of any calls on a new queue are those of the calls on a sorted list. -/
theorem run_refines_sortedQueue (due : μ → OscTime) (capacity flags : Int)
    (queue : OscMsgQueue μ) (calls : List (QueueCall μ)) (hcapacity : 1 ≤ capacity)
    (hint : capacity ≤ intMax) (hinit : oscMsgQueueInit true capacity flags = some queue)
    (hfit : Along (toStep (queueStep due)) (fun queue => CallFits ⟨queue, 0, 0⟩) queue calls) :
    ∃ queue', trace (queueStep due) queue calls =
      some (outputs (sortedStep due)
        (.empty capacity.toNat (decide (Growable flags))) calls, queue') :=
  trace_of_simulation (Refines due) (fun _ _ c hR hc => hR.step c hc)
    (refines_oscMsgQueueInit hcapacity hint hinit) hfit

/-- Two messages, the later one first, go through a queue that grows. -/
theorem run_refines_sortedQueue_growing :
    ∃ queue', trace (queueStep id) ⟨some fun _ => none, 1, 0, 1⟩
      [.add ⟨2, 0⟩ true, .add ⟨1, 500000⟩ true, .remove] =
      some (outputs (sortedStep id) (.empty 1 true)
        [.add ⟨2, 0⟩ true, .add ⟨1, 500000⟩ true, .remove], queue') := by
  refine run_refines_sortedQueue id 1 1 _ _ le_rfl (by decide) rfl ?_
  refine (along_cons_of_eq_some rfl).mpr ⟨rfl, (along_cons_of_eq_some rfl).mpr ⟨rfl, ?_⟩⟩
  refine ⟨?_, fun s _ => along_nil s⟩
  intro ix hix
  have hsmall : ix + 1 < 2 := hix
  show 2 * ix + 2 ≤ 2147483647
  omega

end LittleOscar
