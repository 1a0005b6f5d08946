import LittleOscar.Machine.Integer
import LittleOscar.Queue.Time
import Mathlib.Data.Multiset.Filter
import Mathlib.Data.Multiset.Range
import Mathlib.Logic.Function.Basic

/-!
# The message queue

The queue keeps pointers to messages in a block of `n_items` cells. `μ` is the type
of these pointers and `due` reads the field of the message that one points to. A
cell that was never written has no value. Reading such a cell, reaching past the
block and following a null block are undefined behaviour, and so is an overflow of
the `int ix` of `osc_msg_queue_remove`; a function that runs into one of them has no
result. (That `int` is an index, and so is not taken to wrap: what it wraps to lies in
front of the block.) Sizes and the indices of type `size_t` are natural numbers.

`malloc` and `realloc` are not part of the source. A call of a function that uses
them carries whether they succeed.
-/

namespace LittleOscar

open Machine

variable {μ : Type} (due : μ → OscTime)

/-- `OSC_QUEUE_GROWABLE`, the lowest bit of the flags. -/
def Growable (flags : Int) : Prop := flags % 2 = 1

instance (flags : Int) : Decidable (Growable flags) := inferInstanceAs (Decidable (_ = _))

/-- `osc_msg_queue_t` without its mutex and its condition variable. -/
structure OscMsgQueue (μ : Type) where
  heap : Option (ℕ → Option μ)
  nItems : ℕ
  cItems : ℕ
  flags : Int

/-- `HEAP_PARENT(ix)` of a position other than zero. -/
def heapParent (ix : ℕ) : ℕ := (ix - 1) / 2

/-- `HEAP_LEFT_IX(ix)`. -/
def heapLeftIx (ix : ℕ) : ℕ := 2 * ix + 1

/-- `HEAP_RIGHT_IX(ix)`. -/
def heapRightIx (ix : ℕ) : ℕ := 2 * ix + 2

/-- The greatest `int`. -/
def intMax : ℕ := 2147483647

namespace OscMsgQueue

/-- The pointer `queue->heap[ix]` reads. -/
def load (queue : OscMsgQueue μ) (ix : ℕ) : Option μ := do
  let cells ← queue.heap
  if ix < queue.nItems then cells ix else none

/-- The assignment `queue->heap[ix] = msg`. -/
def store (queue : OscMsgQueue μ) (ix : ℕ) (msg : μ) : Option (OscMsgQueue μ) := do
  let cells ← queue.heap
  if ix < queue.nItems then
    some { queue with heap := some (Function.update cells ix (some msg)) }
  else none

/-- The exchange of two pointers through a temporary. -/
def exchange (queue : OscMsgQueue μ) (i j : ℕ) : Option (OscMsgQueue μ) := do
  let tmp ← queue.load i
  let other ← queue.load j
  let queue ← queue.store i other
  queue.store j tmp

/-- The messages at the positions in use. -/
def queued (queue : OscMsgQueue μ) : Multiset μ :=
  (Multiset.range queue.cItems).filterMap queue.load

/-- A cell of the block is free, or the block may grow and `realloc` succeeds. -/
def HasRoom (queue : OscMsgQueue μ) (grown : Bool) : Prop :=
  queue.cItems ≠ queue.nItems ∨ (Growable queue.flags ∧ grown = true)

instance (queue : OscMsgQueue μ) (grown : Bool) : Decidable (queue.HasRoom grown) :=
  inferInstanceAs (Decidable (_ ∨ _))

end OscMsgQueue

/-- `osc_msg_queue_init`; it returns 0 when `malloc` fails. -/
def oscMsgQueueInit (allocated : Bool) (initialCapacity flags : Int) :
    Option (OscMsgQueue μ) :=
  if allocated then
    some {
      heap := some fun _ => none
      nItems := sizeT initialCapacity
      cItems := 0
      flags := flags }
  else none

/-- `osc_msg_queue_size`. -/
def oscMsgQueueSize (queue : OscMsgQueue μ) : ℕ := queue.cItems

/-- The loop of `osc_msg_queue_add`: the new message moves up from `ix` while the one
above it is due later. Every round moves to a smaller position, so `ix + 1` rounds
are enough. -/
def siftUp (msg : μ) : ℕ → ℕ → OscMsgQueue μ → Option (OscMsgQueue μ)
  | 0, _, _ => none
  | fuel + 1, ix, queue => do
      if 0 < ix then
        let above ← queue.load (heapParent ix)
        if oscTimeCmp (fun a b => decide (a > b)) (due above) (due msg) then
          let queue ← queue.exchange (heapParent ix) ix
          siftUp msg fuel (heapParent ix) queue
        else some queue
      else some queue

/-- The end of `osc_msg_queue_add`: the message goes to the first free cell and moves
up from there. -/
def placeMsg (msg : μ) (queue : OscMsgQueue μ) : Option (OscMsgQueue μ) := do
  let ix := queue.cItems
  let queue ← { queue with cItems := queue.cItems + 1 }.store ix msg
  siftUp due msg (ix + 1) ix queue

/-- The block `realloc` returns: it keeps the cells of the old one. -/
def reallocHeap (queue : OscMsgQueue μ) : OscMsgQueue μ :=
  { queue with
    heap := some fun ix => queue.load ix
    nItems := queue.nItems * 2 }

/-- `osc_msg_queue_add`, where `grown` says whether `realloc` succeeds. A failing
`realloc` leaves the queue with a null block. -/
def oscMsgQueueAdd (grown : Bool) (msg : μ) (queue : OscMsgQueue μ) :
    Option (Bool × OscMsgQueue μ) :=
  if queue.cItems = queue.nItems then
    if Growable queue.flags then
      if grown then (placeMsg due msg (reallocHeap queue)).map fun queue => (true, queue)
      else some (false, { queue with heap := none, nItems := queue.nItems * 2 / 2 })
    else some (false, queue)
  else (placeMsg due msg queue).map fun queue => (true, queue)

/-- One of the two tests of the loop of `osc_msg_queue_remove`: the child `ix` in place
of `smallest` when it is in the heap and due earlier. -/
def smallerIx (queue : OscMsgQueue μ) (ix smallest : ℕ) : Option ℕ :=
  if ix < queue.cItems then do
    let msg ← queue.load ix
    let least ← queue.load smallest
    if oscTimeCmp (fun a b => decide (a < b)) (due msg) (due least) then some ix
    else some smallest
  else some smallest

/-- The loop of `osc_msg_queue_remove`: the message at `ix` moves down while a child is
due earlier. The positions of the children are computed on `int`. Every round moves
to a greater position, so `queue.cItems + 1` rounds are enough. -/
def siftDown : ℕ → ℕ → OscMsgQueue μ → Option (OscMsgQueue μ)
  | 0, _, _ => none
  | fuel + 1, ix, queue =>
      if heapRightIx ix ≤ intMax then do
        let smallest ← smallerIx due queue (heapLeftIx ix) ix
        let smallest ← smallerIx due queue (heapRightIx ix) smallest
        if smallest ≠ ix then
          let queue ← queue.exchange ix smallest
          siftDown fuel smallest queue
        else some queue
      else none

/-- `osc_msg_queue_remove`; `none` in the result is its `NULL`. -/
def oscMsgQueueRemove (queue : OscMsgQueue μ) : Option (Option μ × OscMsgQueue μ) :=
  if queue.cItems = 0 then some (none, queue)
  else do
    let out ← queue.load 0
    let queue := { queue with cItems := queue.cItems - 1 }
    let last ← queue.load queue.cItems
    let queue ← queue.store 0 last
    let queue ← siftDown due (queue.cItems + 1) 0 queue
    some (some out, queue)

end LittleOscar
