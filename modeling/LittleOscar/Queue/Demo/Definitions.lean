import LittleOscar.Queue.Thread.Exchange
import Mathlib.Data.Fintype.Sum
import Mathlib.Tactic.DeriveFintype

/-!
# The program on the queue

The threads of `main.c`: `produce` adds the items one by one, each due a tenth of a second
after the one before it, and every `consume` takes an item that is due and prints its number.
There may be any number of consumers; `main` starts three.

A message is the index of its item, which is also its `value`. The fields of an item are
assigned before its address goes to the queue and never afterwards, so `itemDue` is a
function of the index. A thread is between two calls, or in a call of the queue, or it holds
the pointer that `osc_msg_queue_take_due_s` has returned and has yet to print.

A clock shows no time before the epoch, and the last items of `produce` are due thirteen
seconds after the one it has read, which must still be a second of `time_t`.
-/

namespace LittleOscar.QueueDemo

open Machine

/-- The number of `items`. -/
def itemCount : ℕ := 128

/-- The `now` of `produce` after one round more. -/
def nextTime (now : OscTime) : Option OscTime := do
  let usec ← toLong (now.tvUsec.toInt + 100000)
  if usec = 1000000 then do
    let sec ← toLong (now.tvSec.toInt + 1)
    some ⟨sec, 0⟩
  else some ⟨now.tvSec, usec⟩

/-- The `now` of `produce` that goes to `items[i]`, where `start` is what `OSC_TIME_MK_NOW` has
read. -/
def produceTime (start : OscTime) : ℕ → Option OscTime
  | 0 => do
      let sec ← toLong (start.tvSec.toInt + 1)
      nextTime ⟨sec, 0⟩
  | i + 1 => do
      let now ← produceTime start i
      nextTime now

/-- `items[i].due`; an item to which nothing was assigned is zero. -/
def itemDue (start : OscTime) (i : ℕ) : OscTime := (produceTime start i).getD ⟨0, 0⟩

/-- What `produce` may read from the clock: the time of the last item is one of the type. -/
def ClockFits (start : OscTime) : Prop :=
  0 ≤ start.tvSec.toInt ∧ start.tvSec.toInt + 13 < 9223372036854775808

instance (start : OscTime) : Decidable (ClockFits start) := inferInstanceAs (Decidable (_ ∧ _))

/-- The threads; `ι` are the consumers. -/
inductive DemoThread (ι : Type) where
  | producer
  | consumer (c : ι)
  deriving DecidableEq, Fintype

/-- The threads and their queue: the number of items that `produce` has filled in, the
pointers that the consumers hold, and the numbers that were printed. -/
structure Demo (ι : Type) where
  system : System (DemoThread ι) ℕ
  filled : ℕ
  taken : ι → Option (Option ℕ)
  printed : List ℕ

/-- The queue of `main`, if `malloc` succeeds. -/
def demoQueue (allocated : Bool) : Option (OscMsgQueue ℕ) := oscMsgQueueInit allocated 32 1

/-- `main` behind the calls of `pthread_create`. -/
def Demo.start {ι : Type} (queue : OscMsgQueue ℕ) : Demo ι :=
  ⟨.start queue, 0, fun _ => none, []⟩

/-- What can happen: `produce` fills in an item and calls `osc_msg_queue_add_s`, a consumer
calls `osc_msg_queue_take_due_s`, a thread acquires the mutex, a thread wakes up without a
signal, and a consumer prints the value of the item it holds. -/
inductive DemoEvent (ι : Type) where
  | produce
  | consume (c : ι)
  | enter (t : DemoThread ι) (now : OscTime) (grown : Bool) (wake : Option (DemoThread ι))
  | spurious (t : DemoThread ι)
  | print (c : ι)

variable {ι : Type} [DecidableEq ι]

/-- The pointers that the consumers hold after a stretch of the thread `t`. -/
def hold (taken : ι → Option (Option ℕ)) : DemoThread ι → Ending ℕ → ι → Option (Option ℕ)
  | .consumer c, .gives out => Function.update taken c (some out)
  | _, _ => taken

variable (start : OscTime)

/-- What an event does. It has no result where the thread is somewhere else, or where the
program runs into undefined behaviour; `printf` does, if it follows `NULL`. -/
def demoStep (d : Demo ι) : DemoEvent ι → Option (Demo ι)
  | .produce =>
      if d.filled < itemCount then do
        let _ ← produceTime start d.filled
        let system ← systemStep (itemDue start) d.system (.call .producer (.add d.filled))
        some { d with system, filled := d.filled + 1 }
      else none
  | .consume c =>
      match d.taken c with
      | none => (systemStep (itemDue start) d.system (.call (.consumer c) (.takeDue none))).map
          fun system => { d with system }
      | some _ => none
  | .enter t now grown wake => do
      let op ← (d.system.threads t).running
      let done ← stretch (itemDue start) grown now d.system.queue op
      let system ← systemStep (itemDue start) d.system (.enter t now grown wake)
      some { d with system, taken := hold d.taken t done.ending }
  | .spurious t => (systemStep (itemDue start) d.system (.spurious t)).map fun system =>
      { d with system }
  | .print c => do
      let msg ← d.taken c
      let value ← msg
      some { d with
        taken := Function.update d.taken c none
        printed := d.printed ++ [value] }

/-- The thread of an event is where the event needs it. -/
def CanMove (d : Demo ι) : DemoEvent ι → Prop
  | .produce => d.filled < itemCount ∧ d.system.threads .producer = .idle
  | .consume c => d.taken c = none ∧ d.system.threads (.consumer c) = .idle
  | .enter t _ _ _ => (d.system.threads t).running ≠ none
  | .spurious t => (d.system.threads t).waiting ≠ none
  | .print c => d.taken c ≠ none

/-- The environment does its part: the clock is normalised and not before the epoch, allocations
succeed, and a signal wakes a parked thread if there is one. -/
def Supported (d : Demo ι) : DemoEvent ι → Prop
  | .enter t now grown wake =>
      WakesParked d.system (.enter t now grown wake) ∧ now.Normalised ∧ grown = true ∧
        0 ≤ now.tvSec.toInt
  | _ => True

instance [Fintype ι] (d : Demo ι) : DecidablePred (Supported d)
  | .enter _ _ _ _ => inferInstanceAs (Decidable (_ ∧ _ ∧ _ ∧ _))
  | .produce => isTrue trivial
  | .consume _ => isTrue trivial
  | .spurious _ => isTrue trivial
  | .print _ => isTrue trivial

end LittleOscar.QueueDemo
