import LittleOscar.Queue.Definitions
import Mathlib.Data.Fintype.Basic

/-!
# Threads on one queue

The functions of `queue.c` that end in `_s` lock the mutex, and `take_s` and
`take_due_s` also give it up in the middle. What a thread does between acquiring and
releasing the mutex is a `Stretch`; it is one step, since no other thread can see the
queue meanwhile. The definitions `oscMsgQueueAddS` to `oscMsgQueueTakeDueS` are the
bodies of the functions from a lock to the next unlock. A thread that waits or sleeps
comes back to the head of its loop, so its next stretch is the same one.

A thread is outside the queue, on its way to the mutex, parked in `pthread_cond_wait`,
or woken from there and on its way to the mutex again. `pthread_cond_signal` wakes one
parked thread if there is any; which one, the event says. A parked thread may also wake
up without a signal.
-/

namespace LittleOscar

variable {T μ : Type} (due : μ → OscTime)

/-- A call of one of the thread-safe functions. -/
inductive QueueOp (μ : Type)
  | add (msg : μ)
  | remove
  | removeDue (threshold : Option OscTime)
  | take
  | takeDue (threshold : Option OscTime)
  deriving DecidableEq

namespace QueueOp

/-- The call waits for a message. -/
def Takes : QueueOp μ → Prop
  | take => True
  | takeDue _ => True
  | _ => False

/-- The threshold of a call that returns only messages that are due. -/
def threshold : QueueOp μ → Option (Option OscTime)
  | removeDue threshold => some threshold
  | takeDue threshold => some threshold
  | _ => none

end QueueOp

/-- How a thread gives up the mutex: it returns from the call, or it waits for a signal,
or it sleeps for a while. -/
inductive Ending (μ : Type)
  | added (msg : μ) (ret : Bool)
  | gives (out : Option μ)
  | waits
  | sleeps
  deriving DecidableEq

/-- What a thread has done when it gives up the mutex: the queue it leaves, whether it
has signalled the condition, and how it goes on. -/
structure Stretch (μ : Type) where
  queue : OscMsgQueue μ
  signal : Bool
  ending : Ending μ

/-- `osc_msg_queue_add_s`. -/
def oscMsgQueueAddS (grown : Bool) (msg : μ) (queue : OscMsgQueue μ) : Option (Stretch μ) := do
  let wasEmpty := decide (oscMsgQueueSize queue = 0)
  let (ret, queue) ← oscMsgQueueAdd due grown msg queue
  some ⟨queue, ret && wasEmpty, .added msg ret⟩

/-- `osc_msg_queue_remove_s`. -/
def oscMsgQueueRemoveS (queue : OscMsgQueue μ) : Option (Stretch μ) := do
  let (msg, queue) ← oscMsgQueueRemove due queue
  some ⟨queue, false, .gives msg⟩

/-- `osc_msg_queue_remove_due_s`, with the clock at `now`. -/
def oscMsgQueueRemoveDueS (threshold : Option OscTime) (now : OscTime)
    (queue : OscMsgQueue μ) : Option (Stretch μ) :=
  if 0 < oscMsgQueueSize queue then do
    let root ← queue.load 0
    if ← oscIsMsgDue now (due root) threshold then
      let (msg, queue) ← oscMsgQueueRemove due queue
      some ⟨queue, false, .gives msg⟩
    else some ⟨queue, false, .gives none⟩
  else some ⟨queue, false, .gives none⟩

/-- One round of the loop of `osc_msg_queue_take_s`. -/
def oscMsgQueueTakeS (queue : OscMsgQueue μ) : Option (Stretch μ) :=
  if oscMsgQueueSize queue = 0 then some ⟨queue, false, .waits⟩
  else do
    let (msg, queue) ← oscMsgQueueRemove due queue
    some ⟨queue, false, .gives msg⟩

/-- One round of the loop of `osc_msg_queue_take_due_s`, with the clock at `now`. -/
def oscMsgQueueTakeDueS (threshold : Option OscTime) (now : OscTime)
    (queue : OscMsgQueue μ) : Option (Stretch μ) :=
  if oscMsgQueueSize queue = 0 then some ⟨queue, false, .waits⟩
  else do
    let root ← queue.load 0
    if ← oscIsMsgDue now (due root) threshold then
      let (msg, queue) ← oscMsgQueueRemove due queue
      some ⟨queue, false, .gives msg⟩
    else some ⟨queue, false, .sleeps⟩

/-- The stretch of a call. -/
def stretch (grown : Bool) (now : OscTime) (queue : OscMsgQueue μ) :
    QueueOp μ → Option (Stretch μ)
  | .add msg => oscMsgQueueAddS due grown msg queue
  | .remove => oscMsgQueueRemoveS due queue
  | .removeDue threshold => oscMsgQueueRemoveDueS due threshold now queue
  | .take => oscMsgQueueTakeS due queue
  | .takeDue threshold => oscMsgQueueTakeDueS due threshold now queue

/-- Where a thread stands: outside the queue, before `LOCK`, in `pthread_cond_wait`, or
woken there and before the mutex. -/
inductive ThreadState (μ : Type)
  | idle
  | ready (op : QueueOp μ)
  | parked (op : QueueOp μ)
  | woken (op : QueueOp μ)
  deriving DecidableEq

namespace ThreadState

/-- The call of a thread. -/
def op : ThreadState μ → Option (QueueOp μ)
  | idle => none
  | ready op => some op
  | parked op => some op
  | woken op => some op

/-- The call of a thread that is about to acquire the mutex. -/
def running : ThreadState μ → Option (QueueOp μ)
  | ready op => some op
  | woken op => some op
  | _ => none

/-- The call of a thread that waits for a signal. -/
def waiting : ThreadState μ → Option (QueueOp μ)
  | parked op => some op
  | _ => none

end ThreadState

/-- The state of a thread after a stretch of the call `op`. -/
def Ending.next (op : QueueOp μ) : Ending μ → ThreadState μ
  | .added _ _ => .idle
  | .gives _ => .idle
  | .waits => .parked op
  | .sleeps => .ready op

/-- A result other than that of `osc_msg_queue_add_s`: the call that has returned it,
the clock and the queued messages at the step that decided it. -/
structure Return (μ : Type) where
  op : QueueOp μ
  now : OscTime
  queued : Multiset μ
  out : Option μ

/-- A queue and the threads that use it, with the messages it has accepted and the
results it has given so far. -/
structure System (T μ : Type) where
  queue : OscMsgQueue μ
  threads : T → ThreadState μ
  accepted : Multiset μ
  log : List (Return μ)

namespace System

/-- A queue that no thread uses yet. -/
def start (queue : OscMsgQueue μ) : System T μ := ⟨queue, fun _ => .idle, 0, []⟩

/-- The messages that have been returned. -/
def returned (s : System T μ) : Multiset μ := (s.log.filterMap Return.out : List μ)

end System

/-- What can happen: a thread calls a function, a thread acquires the mutex and keeps it
for a stretch, or a parked thread wakes up without a signal. A stretch comes with a
reading of the clock, the success of `realloc` and the thread a signal would wake. -/
inductive Event (T μ : Type)
  | call (t : T) (op : QueueOp μ)
  | enter (t : T) (now : OscTime) (grown : Bool) (wake : Option T)
  | spurious (t : T)

variable [DecidableEq T]

/-- `pthread_cond_signal`, which wakes the thread `wake`. -/
def wakeUp (threads : T → ThreadState μ) (wake : Option T) : T → ThreadState μ :=
  match wake with
  | none => threads
  | some u =>
      match (threads u).waiting with
      | none => threads
      | some op => Function.update threads u (.woken op)

/-- The messages accepted so far, after a stretch. -/
def Ending.accept (accepted : Multiset μ) : Ending μ → Multiset μ
  | .added msg true => msg ::ₘ accepted
  | _ => accepted

/-- The results given so far, after a stretch that began with the messages `queued`. -/
def Ending.enter (op : QueueOp μ) (now : OscTime) (queued : Multiset μ)
    (log : List (Return μ)) : Ending μ → List (Return μ)
  | .gives out => ⟨op, now, queued, out⟩ :: log
  | _ => log

/-- What an event does. It has no result where the thread is not in the state the event
needs, or where the stretch runs into undefined behaviour. -/
def systemStep (s : System T μ) : Event T μ → Option (System T μ)
  | .call t op =>
      match s.threads t with
      | .idle => some { s with threads := Function.update s.threads t (.ready op) }
      | _ => none
  | .enter t now grown wake => do
      let op ← (s.threads t).running
      let done ← stretch due grown now s.queue op
      some {
        queue := done.queue
        threads := Function.update
          (if done.signal then wakeUp s.threads wake else s.threads) t (done.ending.next op)
        accepted := done.ending.accept s.accepted
        log := done.ending.enter op now s.queue.queued s.log }
  | .spurious t => do
      let op ← (s.threads t).waiting
      some { s with threads := Function.update s.threads t (.woken op) }

/-- The thread of an event is in the state the event needs. -/
def CanAct (s : System T μ) : Event T μ → Prop
  | .call t _ => s.threads t = .idle
  | .enter t _ _ _ => (s.threads t).running ≠ none
  | .spurious t => (s.threads t).waiting ≠ none

instance [DecidableEq μ] (s : System T μ) : DecidablePred (CanAct s)
  | .call t _ => inferInstanceAs (Decidable (s.threads t = .idle))
  | .enter t _ _ _ => inferInstanceAs (Decidable ((s.threads t).running ≠ none))
  | .spurious t => inferInstanceAs (Decidable ((s.threads t).waiting ≠ none))

/-- A thread that a signal wakes is a parked one, and there is one unless no thread is
parked. -/
def WakesParked (s : System T μ) : Event T μ → Prop
  | .enter _ _ _ (some u) => (s.threads u).waiting ≠ none
  | .enter _ _ _ none => ∀ u, (s.threads u).waiting = none
  | _ => True

instance [Fintype T] [DecidableEq μ] (s : System T μ) : DecidablePred (WakesParked s)
  | .call _ _ => isTrue trivial
  | .enter _ _ _ (some u) => inferInstanceAs (Decidable ((s.threads u).waiting ≠ none))
  | .enter _ _ _ none => inferInstanceAs (Decidable (∀ u, (s.threads u).waiting = none))
  | .spurious _ => isTrue trivial

end LittleOscar
