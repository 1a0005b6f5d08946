import LittleOscar.Queue.Heap
import LittleOscar.Queue.Size
import LittleOscar.Transition.Run

/-!
# Whole runs of the queue

A history is a queue with the messages it has accepted and the ones it has returned so
far. `run_isPriorityQueue` is about all histories of calls to `osc_msg_queue_add` and
`osc_msg_queue_remove` on a new queue: after every call the queue is a heap of exactly
the messages that were accepted and not returned, the next one to be returned is one
that no other precedes, and removing until `NULL` returns them all in order.
-/

namespace LittleOscar

open Transition

variable {μ : Type} (due : μ → OscTime)

/-- A call of the queue. `grown` says whether `realloc` succeeds, should the call need
it. -/
inductive QueueCall (μ : Type)
  | add (msg : μ) (grown : Bool)
  | remove

/-- A queue, and the messages it has accepted and returned. -/
structure History (μ : Type) where
  queue : OscMsgQueue μ
  accepted : Multiset μ
  returned : Multiset μ

/-- A call, with its result entered in the history. -/
def historyStep (t : History μ) : QueueCall μ → Option (History μ)
  | .add msg grown => do
      let (ret, queue) ← oscMsgQueueAdd due grown msg t.queue
      some { t with
        queue := queue
        accepted := if ret then msg ::ₘ t.accepted else t.accepted }
  | .remove => do
      let (out, queue) ← oscMsgQueueRemove due t.queue
      some { t with
        queue := queue
        returned := match out with
          | none => t.returned
          | some msg => msg ::ₘ t.returned }

/-- The allocation of a call succeeds and its indices are of type `int`. -/
def CallFits (t : History μ) : QueueCall μ → Prop
  | .add _ grown => grown = true
  | .remove => IndicesFit t.queue

/-- `osc_msg_queue_remove` until it returns `NULL`. -/
def drain : ℕ → OscMsgQueue μ → Option (List μ × OscMsgQueue μ)
  | 0, _ => none
  | fuel + 1, queue => do
      let (out, queue) ← oscMsgQueueRemove due queue
      match out with
      | none => some ([], queue)
      | some msg => do
          let (msgs, queue) ← drain fuel queue
          some (msg :: msgs, queue)

/-- What makes the queue of a history a priority queue. -/
structure IsPriorityQueue (t : History μ) : Prop where
  loaded : ∀ i, i < t.queue.cItems → ∃ msg, t.queue.load i = some msg
  ordered : ∀ i, 0 < i → i < t.queue.cItems → ∃ above msg,
    t.queue.load (heapParent i) = some above ∧ t.queue.load i = some msg ∧
      (due above).key ≤ (due msg).key
  accounted : t.returned + t.queue.queued = t.accepted
  removes : IndicesFit t.queue → ∃ out queue, oscMsgQueueRemove due t.queue = some (out, queue) ∧
    (out = none ↔ oscMsgQueueSize t.queue = 0) ∧
    ∀ msg ∈ out, msg ∈ t.queue.queued ∧
      ∀ other ∈ t.queue.queued, (due msg).key ≤ (due other).key
  drains : IndicesFit t.queue → ∃ msgs queue,
    drain due (oscMsgQueueSize t.queue + 1) t.queue = some (msgs, queue) ∧
    (msgs : Multiset μ) = t.queue.queued ∧ oscMsgQueueSize queue = 0 ∧
    msgs.Pairwise fun a b => (due a).key ≤ (due b).key

variable {due} {queue : OscMsgQueue μ} {cells : ℕ → Option μ}

/-- A queue that is valid and fits is drained in order. -/
theorem drain_spec {fuel : ℕ} (h : queue.Valid due cells) (hfuel : queue.cItems < fuel)
    (hfit : IndicesFit queue) : ∃ msgs queue', drain due fuel queue = some (msgs, queue') ∧
      (msgs : Multiset μ) = queue.queued ∧ queue'.cItems = 0 ∧
      msgs.Pairwise fun a b => (due a).key ≤ (due b).key := by
  induction fuel generalizing queue cells with
  | zero => omega
  | succ fuel ih =>
      rcases oscMsgQueueRemove_spec h with
        ⟨-, habs⟩ | ⟨hzero, hremove⟩ | ⟨out, queue₁, cells₁, hremove, hvalid, -, hqueued, hle⟩
      · exact absurd hfit habs
      · refine ⟨[], queue, ?_, ?_, hzero, List.Pairwise.nil⟩
        · rw [drain, hremove]
          rfl
        · rw [OscMsgQueue.queued_of_zero hzero]
          rfl
      · have hsize := cItems_of_removed hremove
        have hfit₁ : IndicesFit queue₁ := fun ix hix => hfit ix (by omega)
        obtain ⟨msgs, queue', hdrain, hmsgs, hempty, hsorted⟩ := ih hvalid (by omega) hfit₁
        refine ⟨out :: msgs, queue', ?_, ?_, hempty, List.pairwise_cons.mpr ⟨?_, hsorted⟩⟩
        · rw [drain, hremove, Option.bind_eq_bind, Option.bind_some]
          simp only [hdrain, Option.bind_eq_bind, Option.bind_some]
        · rw [hqueued, ← hmsgs, Multiset.cons_coe]
        · intro other hother
          apply hle
          rw [hqueued, ← hmsgs]
          exact Multiset.mem_cons_of_mem (Multiset.mem_coe.mpr hother)

/-- A history whose queue is valid and whose messages are accounted for. -/
def Sound (due : μ → OscTime) (t : History μ) : Prop :=
  (∃ cells, t.queue.Valid due cells) ∧ t.returned + t.queue.queued = t.accepted

theorem Sound.isPriorityQueue {t : History μ} (h : Sound due t) : IsPriorityQueue due t := by
  obtain ⟨⟨cells, hvalid⟩, haccounted⟩ := h
  refine ⟨fun i hi => hvalid.exists_load hi, fun i hpos hi => hvalid.exists_above hpos hi,
    haccounted, ?_, fun hfit => drain_spec hvalid (Nat.lt_succ_self _) hfit⟩
  intro hfit
  rcases oscMsgQueueRemove_spec hvalid with
    ⟨-, habs⟩ | ⟨hzero, hremove⟩ | ⟨out, queue, cells', hremove, -, -, hqueued, hle⟩
  · exact absurd hfit habs
  · exact ⟨none, t.queue, hremove, iff_of_true rfl hzero, fun msg hmsg => by cases hmsg⟩
  · refine ⟨some out, queue, hremove, iff_of_false (Option.some_ne_none out) ?_, ?_⟩
    · rw [oscMsgQueueSize, cItems_of_removed hremove]
      exact Nat.succ_ne_zero _
    · intro msg hmsg
      obtain rfl := Option.some.inj hmsg
      refine ⟨?_, hle⟩
      rw [hqueued]
      exact Multiset.mem_cons_self out _

/-- A call that fits has a result and keeps the history sound. -/
theorem Sound.step {t : History μ} (h : Sound due t) (c : QueueCall μ) (hfit : CallFits t c) :
    ∃ t', historyStep due t c = some t' ∧ Sound due t' := by
  obtain ⟨⟨cells, hvalid⟩, haccounted⟩ := h
  cases c with
  | add msg grown =>
      obtain rfl : grown = true := hfit
      obtain ⟨ret, queue', cells', hadd, hvalid', hqueued⟩ := oscMsgQueueAdd_spec hvalid msg
      refine ⟨_, by rw [historyStep, hadd]; rfl, ⟨cells', hvalid'⟩, ?_⟩
      cases ret with
      | true =>
          simp only [if_true] at hqueued ⊢
          rw [hqueued, Multiset.add_cons, haccounted]
      | false => exact hqueued ▸ haccounted
  | remove =>
      rcases oscMsgQueueRemove_spec hvalid with
        ⟨-, habs⟩ | ⟨hzero, hremove⟩ | ⟨out, queue', cells', hremove, hvalid', -, hqueued, -⟩
      · exact absurd hfit habs
      · exact ⟨_, by rw [historyStep, hremove]; rfl, ⟨cells, hvalid⟩, haccounted⟩
      · refine ⟨_, by rw [historyStep, hremove]; rfl, ⟨cells', hvalid'⟩, ?_⟩
        rw [hqueued, Multiset.add_cons] at haccounted
        rw [← haccounted, Multiset.cons_add]

/-- After every call of a run on a new queue the queue is a priority queue. -/
theorem run_isPriorityQueue (due : μ → OscTime) (capacity flags : Int) (queue : OscMsgQueue μ)
    (calls done : List (QueueCall μ)) (hcapacity : 1 ≤ capacity) (hint : capacity ≤ intMax)
    (hinit : oscMsgQueueInit true capacity flags = some queue)
    (hfit : Along (historyStep due) CallFits ⟨queue, 0, 0⟩ calls) (hdone : done <+: calls) :
    ∃ t, run (historyStep due) ⟨queue, 0, 0⟩ done = some t ∧ IsPriorityQueue due t := by
  obtain ⟨rest, rfl⟩ := hdone
  have hstart : Sound due ⟨queue, 0, 0⟩ :=
    ⟨⟨_, valid_oscMsgQueueInit hcapacity hint hinit⟩,
      (Multiset.zero_add _).trans (queued_oscMsgQueueInit hinit)⟩
  obtain ⟨t, hrun, hsound⟩ := exists_run (Sound due) (fun t c ht hc => ht.step c hc) hstart
    hfit.of_append
  exact ⟨t, hrun, hsound.isPriorityQueue⟩

/-- Two messages, the later one first, go through a queue that grows. -/
theorem run_isPriorityQueue_growing : ∃ t, run (historyStep id)
      ⟨⟨some fun _ => none, 1, 0, 1⟩, 0, 0⟩
      [.add ⟨2, 0⟩ true, .add ⟨1, 500000⟩ true, .remove] = some t ∧ IsPriorityQueue id t := by
  refine run_isPriorityQueue id 1 1 _ _ _ le_rfl (by decide) rfl ?_ (List.prefix_refl _)
  refine (along_cons_of_eq_some rfl).mpr ⟨rfl, (along_cons_of_eq_some rfl).mpr ⟨rfl, ?_⟩⟩
  refine ⟨?_, fun s _ => along_nil s⟩
  intro ix hix
  have hsmall : ix + 1 < 2 := hix
  show 2 * ix + 2 ≤ 2147483647
  omega

end LittleOscar
