import LittleOscar.Queue.Sorted
import LittleOscar.Queue.Thread.Exchange

/-!
# Threads on a sorted list

The threads of `queue.c` once more, with a sorted list of times in the place of the heap, and
with numbers of microseconds in the place of the differences of times. Such a list does not
depend on anything but the order in which the threads got the mutex, and what they found there.
`run_refines_sortedSystem` says that the threads of the queue cannot tell the difference, as
long as nothing overflows: in every interleaving they return, wait, sleep and wake where those
on the list do, with messages that are due at the same times.
-/

namespace LittleOscar

open Transition

variable {T μ : Type} (due : μ → OscTime)

/-! ## The specification -/

/-- What a thread has done with the list when it gives up the mutex. -/
structure SortedStretch where
  queue : SortedQueue OscTime
  signal : Bool
  ending : Ending OscTime

/-- The first time is due. -/
def firstIsDue (threshold : Option OscTime) (now : OscTime) (q : SortedQueue OscTime) : Bool :=
  q.keys.head?.any fun t => decide (IsDue now threshold t)

/-- The first time is given out. -/
def giveFirst (q : SortedQueue OscTime) : SortedStretch :=
  ⟨q.extractMin.2, false, .gives q.extractMin.1⟩

/-- The stretch of a call on the list. -/
def sortedStretch (now : OscTime) (q : SortedQueue OscTime) : QueueOp μ → SortedStretch
  | .add msg =>
      ⟨(q.insert (due msg)).2, (q.insert (due msg)).1 && q.keys.isEmpty,
        .added (due msg) (q.insert (due msg)).1⟩
  | .remove => giveFirst q
  | .removeDue threshold =>
      if firstIsDue threshold now q then giveFirst q else ⟨q, false, .gives none⟩
  | .take => if q.keys = [] then ⟨q, false, .waits⟩ else giveFirst q
  | .takeDue threshold =>
      if q.keys = [] then ⟨q, false, .waits⟩
      else if firstIsDue threshold now q then giveFirst q else ⟨q, false, .sleeps⟩

/-- The state of a thread after a stretch of the call `op`. -/
def sortedNext (op : QueueOp μ) : Ending OscTime → ThreadState μ
  | .added _ _ => .idle
  | .gives _ => .idle
  | .waits => .parked op
  | .sleeps => .ready op

/-- A result that a thread has got: the call, the clock and when the message is due. -/
structure SortedReturn (μ : Type) where
  op : QueueOp μ
  now : OscTime
  out : Option OscTime

/-- A list and the threads that use it, with the results so far. -/
structure SortedSystem (T μ : Type) where
  queue : SortedQueue OscTime
  threads : T → ThreadState μ
  log : List (SortedReturn μ)

def sortedEnter (op : QueueOp μ) (now : OscTime) (log : List (SortedReturn μ)) :
    Ending OscTime → List (SortedReturn μ)
  | .gives out => ⟨op, now, out⟩ :: log
  | _ => log

/-- What an event does. -/
def sortedSystemStep [DecidableEq T] (a : SortedSystem T μ) :
    Event T μ → Option (SortedSystem T μ)
  | .call t op =>
      match a.threads t with
      | .idle => some { a with threads := Function.update a.threads t (.ready op) }
      | _ => none
  | .enter t now _ wake => do
      let op ← (a.threads t).running
      let done := sortedStretch due now a.queue op
      some {
        queue := done.queue
        threads := Function.update
          (if done.signal then wakeUp a.threads wake else a.threads) t (sortedNext op done.ending)
        log := sortedEnter op now a.log done.ending }
  | .spurious t => do
      let op ← (a.threads t).waiting
      some { a with threads := Function.update a.threads t (.woken op) }

/-! ## One stretch -/

/-- The message of an ending by the time when it is due. -/
def Ending.time : Ending μ → Ending OscTime
  | .added msg ret => .added (due msg) ret
  | .gives out => .gives (out.map due)
  | .waits => .waits
  | .sleeps => .sleeps

/-- The two stretches end in the same way. -/
structure SameStretch (done : Stretch μ) (a : SortedStretch) : Prop where
  refines : Refines due done.queue a.queue
  signal : a.signal = done.signal
  ending : a.ending = done.ending.time due

variable {due} {queue : OscMsgQueue μ} {q : SortedQueue OscTime} {now : OscTime}
  {op : QueueOp μ} {done : Stretch μ}

theorem Refines.giveFirst (h : Refines due queue q)
    (hdone : oscMsgQueueRemoveS due queue = some done) : SameStretch due done (giveFirst q) := by
  obtain ⟨⟨out, queue'⟩, hremove, hdone⟩ := Option.bind_eq_some_iff.mp hdone
  cases hdone
  obtain ⟨hout, hrefines⟩ := h.extractMin hremove
  exact ⟨hrefines, rfl, congrArg Ending.gives hout⟩

/-- The first message of a heap is due at the first time of the list. -/
theorem Refines.firstIsDue (h : Refines due queue q) {root : μ} (hpos : 0 < queue.cItems)
    (hroot : queue.load 0 = some root) (threshold : Option OscTime) :
    firstIsDue threshold now q = decide (IsDue now threshold (due root)) := by
  obtain ⟨cells, hvalid⟩ := h.valid
  obtain ⟨root', hroot', hmem, hle⟩ := hvalid.exists_root hpos
  obtain rfl := Option.some.inj (hroot.symm.trans hroot')
  obtain ⟨rest, hrest⟩ := Multiset.exists_cons_of_mem hmem
  obtain ⟨hhead, -⟩ := h.keys_of_first hrest hle
  rw [LittleOscar.firstIsDue, hhead, Option.any_some]

theorem firstIsDue_of_nil (hnil : q.keys = []) (threshold : Option OscTime) :
    firstIsDue threshold now q = false := by
  rw [firstIsDue, hnil]
  rfl

/-- The first message is given out if it is due, and else the stretch ends as `later` says. -/
theorem Refines.whenDue (h : Refines due queue q) (hnormal : ∀ msg, (due msg).Normalised)
    (hnow : now.Normalised) (hpos : 0 < queue.cItems) {threshold : Option OscTime}
    (hsane : ThresholdSane threshold) {later : Ending μ}
    (hdone : ((queue.load 0).bind fun root =>
      (oscIsMsgDue now (due root) threshold).bind fun isDue =>
        if isDue then oscMsgQueueRemoveS due queue else some ⟨queue, false, later⟩) = some done) :
    SameStretch due done (if LittleOscar.firstIsDue threshold now q then LittleOscar.giveFirst q
      else ⟨q, false, later.time due⟩) := by
  obtain ⟨cells, hvalid⟩ := h.valid
  obtain ⟨root, hroot, ⟨-, htest⟩ | ⟨-, hmem, hdue, htest⟩ | ⟨-, hnone, htest⟩⟩ :=
    hvalid.isMsgDue_spec hpos hnormal hnow hsane
  all_goals rw [hroot, Option.bind_some, htest] at hdone
  · cases hdone
  · rw [h.firstIsDue hpos hroot, if_pos (decide_eq_true hdue)]
    exact h.giveFirst hdone
  · have hmem : root ∈ queue.queued := by
      obtain ⟨root', hroot', hmem, -⟩ := hvalid.exists_root hpos
      exact Option.some.inj (hroot'.symm.trans hroot) ▸ hmem
    rw [h.firstIsDue hpos hroot, decide_eq_false (hnone root hmem), if_neg Bool.false_ne_true]
    cases hdone
    exact ⟨h, rfl, rfl⟩

/-- A stretch on the heap is one on the list. -/
theorem Refines.stretch (h : Refines due queue q) (hnormal : ∀ msg, (due msg).Normalised)
    (hnow : now.Normalised) (hop : op.Sane)
    (hdone : stretch due true now queue op = some done) :
    SameStretch due done (sortedStretch due now q op) := by
  cases op with
  | add msg =>
      obtain ⟨⟨ret, queue'⟩, hadd, hdone⟩ := Option.bind_eq_some_iff.mp hdone
      cases hdone
      obtain ⟨hret, hrefines⟩ := h.insert hadd
      have hempty : q.keys.isEmpty = decide (oscMsgQueueSize queue = 0) := by
        rw [oscMsgQueueSize, ← h.length]
        cases q.keys <;> rfl
      refine ⟨hrefines, ?_, ?_⟩
      · rw [sortedStretch, hret, hempty]
      · rw [sortedStretch, hret]
        rfl
  | remove => exact h.giveFirst hdone
  | removeDue threshold =>
      rw [LittleOscar.stretch, oscMsgQueueRemoveDueS, oscMsgQueueSize] at hdone
      split at hdone
      · next hpos => exact h.whenDue hnormal hnow hpos (hop threshold rfl) hdone
      · next hpos =>
          have hnil := h.nil_iff.mpr (Nat.eq_zero_of_not_pos hpos)
          cases hdone
          rw [sortedStretch, firstIsDue_of_nil hnil, if_neg Bool.false_ne_true]
          exact ⟨h, rfl, rfl⟩
  | take =>
      rw [LittleOscar.stretch, oscMsgQueueTakeS, oscMsgQueueSize] at hdone
      rw [sortedStretch]
      split at hdone
      · next hempty =>
          cases hdone
          rw [if_pos (h.nil_iff.mpr hempty)]
          exact ⟨h, rfl, rfl⟩
      · next hempty =>
          rw [if_neg fun hnil => hempty (h.nil_iff.mp hnil)]
          exact h.giveFirst hdone
  | takeDue threshold =>
      rw [LittleOscar.stretch, oscMsgQueueTakeDueS, oscMsgQueueSize] at hdone
      rw [sortedStretch]
      split at hdone
      · next hempty =>
          cases hdone
          rw [if_pos (h.nil_iff.mpr hempty)]
          exact ⟨h, rfl, rfl⟩
      · next hempty =>
          rw [if_neg fun hnil => hempty (h.nil_iff.mp hnil)]
          exact h.whenDue hnormal hnow (Nat.pos_of_ne_zero hempty) (hop threshold rfl) hdone

/-! ## The system -/

variable [DecidableEq T]

/-- The threads stand at the same places, and have got the same results. -/
structure SameSystem (due : μ → OscTime) (s : System T μ) (a : SortedSystem T μ) : Prop where
  refines : Refines due s.queue a.queue
  threads : a.threads = s.threads
  log : a.log = s.log.map fun r => ⟨r.op, r.now, r.out.map due⟩
  sane : Calls QueueOp.Sane s.threads

/-- What an event does to the heap it does to the list as well, if nothing overflows. -/
theorem SameSystem.step {s : System T μ} {a : SortedSystem T μ} {e : Event T μ}
    (h : SameSystem due s a) (hnormal : ∀ msg, (due msg).Normalised) (he : Benign e)
    (hindices : IndicesFitAt due s e) (hdiff : DiffFitsAt due s e) :
    Option.Rel (SameSystem due) (systemStep due s e) (sortedSystemStep due a e) := by
  have hsane : ∀ s', systemStep due s e = some s' → Calls QueueOp.Sane s'.threads := by
    intro s' hstep
    refine h.sane.step ?_ hstep
    rintro t op rfl
    exact he
  cases e with
  | call t op =>
      rw [systemStep, sortedSystemStep, h.threads]
      cases hthread : s.threads t with
      | idle =>
          refine .some ⟨h.refines, rfl, h.log, hsane _ ?_⟩
          rw [systemStep, hthread]
      | ready _ => exact .none
      | parked _ => exact .none
      | woken _ => exact .none
  | spurious t =>
      rw [systemStep, sortedSystemStep, h.threads]
      cases hwaiting : (s.threads t).waiting with
      | none => exact .none
      | some op =>
          refine .some ⟨h.refines, rfl, h.log, hsane _ ?_⟩
          rw [systemStep, hwaiting]
          rfl
  | enter t now grown wake =>
      obtain ⟨hnow, rfl⟩ : now.Normalised ∧ grown = true := he
      rw [systemStep, sortedSystemStep, h.threads]
      cases hrunning : (s.threads t).running with
      | none => exact .none
      | some op =>
          obtain ⟨cells, hvalid⟩ := h.refines.valid
          have hop := h.sane t op (ThreadState.op_of_running hrunning)
          rcases stretch_spec hvalid hnormal hnow hop with
            ⟨habs, -⟩ | ⟨habs, -⟩ | ⟨-, done, hdone, -⟩
          · exact absurd (hdiff op hrunning) habs
          · exact absurd (hindices op hrunning) habs
          obtain ⟨hrefines, hsignal, hending⟩ := h.refines.stretch hnormal hnow hop hdone
          have hnext : sortedNext op (sortedStretch due now a.queue op).ending =
              done.ending.next op := by
            rw [hending]
            cases done.ending <;> rfl
          simp only [Option.bind_eq_bind, Option.bind_some, hdone]
          refine .some ⟨hrefines, ?_, ?_, hsane _ ?_⟩
          · simp only [hnext, hsignal]
          · rw [hending, h.log]
            cases done.ending <;> rfl
          · rw [systemStep, hrunning, Option.bind_eq_bind, Option.bind_some, hdone]
            rfl

/-- In every interleaving the threads on a new queue return, wait, sleep and wake where those on
a sorted list do, and with messages that are due at the same times. -/
theorem run_refines_sortedSystem (due : μ → OscTime) (hnormal : ∀ msg, (due msg).Normalised)
    (capacity flags : Int) (queue : OscMsgQueue μ) (events : List (Event T μ))
    (hcapacity : 1 ≤ capacity) (hint : capacity ≤ intMax)
    (hinit : oscMsgQueueInit true capacity flags = some queue)
    (hfit : Along (systemStep due)
      (fun s e => Benign e ∧ IndicesFitAt due s e ∧ DiffFitsAt due s e) (.start queue) events) :
    (run (sortedSystemStep due)
        ⟨.empty capacity.toNat (decide (Growable flags)), fun _ => .idle, []⟩ events).map
        (fun a => (a.threads, a.log)) =
      (run (systemStep due) (.start queue) events).map fun s =>
        (s.threads, s.log.map fun r => ⟨r.op, r.now, r.out.map due⟩) := by
  have hstart : SameSystem due (.start queue : System T μ)
      ⟨.empty capacity.toNat (decide (Growable flags)), fun _ => .idle, []⟩ :=
    ⟨refines_oscMsgQueueInit hcapacity hint hinit, rfl, rfl,
      fun _ op habs => absurd habs (Option.not_mem_none op)⟩
  have hstep (s : System T μ) (a : SortedSystem T μ) (e : Event T μ) (hsame : SameSystem due s a)
      (he : Benign e ∧ IndicesFitAt due s e ∧ DiffFitsAt due s e) :
      Option.Rel (SameSystem due) (systemStep due s e) (sortedSystemStep due a e) :=
    hsame.step hnormal he.1 he.2.1 he.2.2
  refine (map_eq_map_of_rel (fun s a hsame => ?_) (run_rel _ hstep hstart hfit)).symm
  exact Prod.ext hsame.threads.symm hsame.log.symm

/-- Times of which some are due at the reading of the clock. -/
def dueInHalfSeconds (msg : Fin 4) : OscTime :=
  ⟨Int64.ofNat (msg / 2), Int64.ofNat (msg % 2 * 500000)⟩

/-- A consumer parks, a producer wakes it with the first of two messages, and it leaves with the
second, which is due earlier. -/
def overtaking : List (Event Bool (Fin 4)) :=
  [.call true (.takeDue none), .enter true ⟨0, 0⟩ true none, .call false (.add 3),
    .enter false ⟨0, 0⟩ true (some true), .call false (.add 1),
    .enter false ⟨0, 0⟩ true none, .enter true ⟨0, 0⟩ true none, .enter true ⟨1, 0⟩ true none]

theorem run_refines_sortedSystem_overtaking : ∃ s a,
    run (systemStep dueInHalfSeconds) (.start ⟨some fun _ => none, 1, 0, 1⟩) overtaking = some s ∧
      run (sortedSystemStep dueInHalfSeconds) ⟨.empty 1 true, fun _ => .idle, []⟩ overtaking =
        some a ∧
      a.log = s.log.map fun r => ⟨r.op, r.now, r.out.map dueInHalfSeconds⟩ := by
  obtain ⟨s, hrun⟩ : ∃ s, run (systemStep dueInHalfSeconds)
      (.start ⟨some fun _ => none, 1, 0, 1⟩) overtaking = some s := ⟨_, rfl⟩
  obtain ⟨a, hlist, hpair⟩ := Option.map_eq_some_iff.mp
    ((run_refines_sortedSystem dueInHalfSeconds (by decide) 1 1 _ overtaking le_rfl (by decide) rfl
      (by decide)).trans (congrArg _ hrun))
  exact ⟨s, a, hrun, hlist, (Prod.mk.inj hpair).2⟩

end LittleOscar
