import LittleOscar.Queue.Heap
import LittleOscar.Queue.Thread.Calls
import LittleOscar.Transition.Run

/-!
# What the threads exchange

However the stretches of the threads interleave, the messages that were accepted are
the returned ones and the queued ones, none of them twice; a returned message is one
that no message queued at that step precedes; the functions that wait never return
`NULL`; and the ones that look at the clock return only messages that are due.

The argument is one invariant of the system. A stretch starts from a valid queue and
leaves one, `stretch_spec`, so the order in which the threads get the mutex does not
matter, nor who was woken or why, nor what the clock showed before. What a stretch has to
compute may overflow: the indices of a removal, and the time from the clock to the first
message. `run_exchanges` says that as long as the indices fit, all goes well exactly if the
times do.
-/

namespace LittleOscar

open Transition

variable {T μ : Type} (due : μ → OscTime)

/-- What a result promises: no `NULL` from a function that waits, a first message, and
a message that is due where the function looks at the clock. -/
structure Return.Safe (r : Return μ) : Prop where
  takes : r.out = none → ¬ r.op.Takes
  least : ∀ msg ∈ r.out, msg ∈ r.queued ∧ ∀ other ∈ r.queued, (due msg).key ≤ (due other).key
  isDue : ∀ msg ∈ r.out, ∀ threshold ∈ r.op.threshold, IsDue r.now threshold (due msg)

/-- The thresholds of a call are ones a caller may pass. -/
def QueueOp.Sane (op : QueueOp μ) : Prop :=
  ∀ threshold ∈ op.threshold, ThresholdSane threshold

instance (op : QueueOp μ) : Decidable op.Sane :=
  inferInstanceAs (Decidable (∀ threshold ∈ op.threshold, ThresholdSane threshold))

/-- The environment does its part: thresholds and readings of the clock are normalised,
thresholds are not negative, and allocations succeed. -/
def Benign : Event T μ → Prop
  | .call _ op => op.Sane
  | .enter _ now grown _ => now.Normalised ∧ grown = true
  | .spurious _ => True

instance : DecidablePred (Benign (T := T) (μ := μ))
  | .call _ op => inferInstanceAs (Decidable op.Sane)
  | .enter _ now grown _ => inferInstanceAs (Decidable (now.Normalised ∧ grown = true))
  | .spurious _ => isTrue trivial

/-- The indices for the removal of a stretch fit, if it removes a message. -/
def StretchIndicesFit (now : OscTime) (queue : OscMsgQueue μ) : QueueOp μ → Prop
  | .add _ => True
  | .remove => IndicesFit queue
  | .removeDue threshold => DueIndicesFit due now threshold queue
  | .take => IndicesFit queue
  | .takeDue threshold => DueIndicesFit due now threshold queue

instance (now : OscTime) (queue : OscMsgQueue μ) : DecidablePred (StretchIndicesFit due now queue)
  | .add _ => isTrue trivial
  | .remove => inferInstanceAs (Decidable (IndicesFit queue))
  | .removeDue threshold => inferInstanceAs (Decidable (DueIndicesFit due now threshold queue))
  | .take => inferInstanceAs (Decidable (IndicesFit queue))
  | .takeDue threshold => inferInstanceAs (Decidable (DueIndicesFit due now threshold queue))

/-- The time from the clock to the first message does not overflow, if the call asks for it. -/
def StretchDiffFits (now : OscTime) (queue : OscMsgQueue μ) (op : QueueOp μ) : Prop :=
  op.threshold ≠ none → FirstDiffFits due now queue

instance (now : OscTime) (queue : OscMsgQueue μ) : DecidablePred (StretchDiffFits due now queue) :=
  fun _ => inferInstanceAs (Decidable (_ → _))

/-- What a stretch of the call `op` does to a valid queue. -/
structure StretchSafe (op : QueueOp μ) (now : OscTime) (queue : OscMsgQueue μ)
    (done : Stretch μ) : Prop where
  valid : ∃ cells, done.queue.Valid due cells
  exchange : match done.ending with
    | .added msg ret =>
        done.queue.queued = if ret then msg ::ₘ queue.queued else queue.queued
    | .gives none => done.queue.queued = queue.queued
    | .gives (some msg) => queue.queued = msg ::ₘ done.queue.queued
    | .waits => done.queue.queued = queue.queued
    | .sleeps => done.queue.queued = queue.queued
  safe : ∀ out, done.ending = .gives out → Return.Safe due ⟨op, now, queue.queued, out⟩

variable {due} {queue : OscMsgQueue μ} {cells : ℕ → Option μ} {op : QueueOp μ} {now : OscTime}

theorem stretchSafe_waits (h : queue.Valid due cells) :
    StretchSafe due op now queue ⟨queue, false, .waits⟩ :=
  ⟨⟨cells, h⟩, rfl, fun _ habs => by cases habs⟩

theorem stretchSafe_sleeps (h : queue.Valid due cells) :
    StretchSafe due op now queue ⟨queue, false, .sleeps⟩ :=
  ⟨⟨cells, h⟩, rfl, fun _ habs => by cases habs⟩

theorem stretchSafe_null (h : queue.Valid due cells) (hop : ¬ op.Takes) :
    StretchSafe due op now queue ⟨queue, false, .gives none⟩ := by
  refine ⟨⟨cells, h⟩, rfl, ?_⟩
  intro out hout
  cases hout
  constructor
  · exact fun _ => hop
  · exact fun msg habs => absurd habs (Option.not_mem_none msg)
  · exact fun msg habs => absurd habs (Option.not_mem_none msg)

/-- A stretch that removes the first message overflows, or is safe: where the call
waits the queue must not be empty, and where it looks at the clock the first message
must be due. -/
theorem stretchSafe_remove (h : queue.Valid due cells) (hop : op.Takes → queue.cItems ≠ 0)
    (hdue : ∀ threshold ∈ op.threshold, ∀ root, queue.load 0 = some root →
      IsDue now threshold (due root)) :
    (oscMsgQueueRemoveS due queue = none ∧ ¬ IndicesFit queue) ∨
      ∃ done, oscMsgQueueRemoveS due queue = some done ∧ StretchSafe due op now queue done := by
  rw [oscMsgQueueRemoveS]
  rcases oscMsgQueueRemove_spec h with ⟨hnone, hfit⟩ | ⟨hzero, hremove⟩ |
    ⟨out, queue', cells', hremove, hvalid, hroot, hqueued, hle⟩
  · exact Or.inl ⟨by rw [hnone]; rfl, hfit⟩
  · refine Or.inr ⟨_, by rw [hremove]; rfl, stretchSafe_null h ?_⟩
    intro habs
    exact hop habs hzero
  · refine Or.inr ⟨⟨queue', false, .gives (some out)⟩, by rw [hremove]; rfl, ?_⟩
    refine ⟨⟨cells', hvalid⟩, hqueued, ?_⟩
    intro out' hout
    cases hout
    refine ⟨fun habs => absurd habs (Option.some_ne_none out), ?_, ?_⟩
    · intro msg hmsg
      obtain rfl := Option.some.inj hmsg
      refine ⟨?_, hle⟩
      show out ∈ queue.queued
      rw [hqueued]
      exact Multiset.mem_cons_self out _
    · intro msg hmsg threshold hthreshold
      obtain rfl := Option.some.inj hmsg
      exact hdue threshold hthreshold out hroot

variable (due) in
/-- A stretch overflows in a time or in an index, or is safe. -/
def StretchSettled (op : QueueOp μ) (now : OscTime) (queue : OscMsgQueue μ)
    (result : Option (Stretch μ)) : Prop :=
  (¬ StretchDiffFits due now queue op ∧ result = none) ∨
    (¬ StretchIndicesFit due now queue op ∧ result = none) ∨
    (StretchDiffFits due now queue op ∧
      ∃ done, result = some done ∧ StretchSafe due op now queue done)

/-- A stretch that does not look at the clock. -/
theorem StretchSettled.of_remove {result : Option (Stretch μ)} (hop : op.threshold = none)
    (h : (result = none ∧ ¬ StretchIndicesFit due now queue op) ∨
      ∃ done, result = some done ∧ StretchSafe due op now queue done) :
    StretchSettled due op now queue result :=
  h.elim (fun habs => Or.inr (Or.inl habs.symm)) fun hsafe =>
    Or.inr (Or.inr ⟨fun habs => absurd hop habs, hsafe⟩)

/-- A stretch that removes the first message when it is due, and ends as `later` says
when it is not. -/
theorem stretchSettled_whenDue (h : queue.Valid due cells) (hpos : 0 < queue.cItems)
    (hnormal : ∀ msg, (due msg).Normalised) (hnow : now.Normalised) (hop : op.Sane)
    {threshold : Option OscTime} (hthreshold : threshold ∈ op.threshold)
    (hindices : StretchIndicesFit due now queue op ↔ DueIndicesFit due now threshold queue)
    {later : Ending μ} (hlater : StretchSafe due op now queue ⟨queue, false, later⟩) :
    ∃ root, queue.load 0 = some root ∧
      StretchSettled due op now queue ((oscIsMsgDue now (due root) threshold).bind fun isDue =>
        if isDue then oscMsgQueueRemoveS due queue else some ⟨queue, false, later⟩) := by
  have hlooks : op.threshold ≠ none := Option.ne_none_iff_exists'.mpr ⟨threshold, hthreshold⟩
  obtain ⟨root, hroot, ⟨hfits, htest⟩ | ⟨hfits, hmem, hdue, htest⟩ | ⟨hfits, -, htest⟩⟩ :=
    h.isMsgDue_spec hpos hnormal hnow (hop threshold hthreshold)
  · exact ⟨root, hroot, Or.inl ⟨fun habs => hfits (habs hlooks), by rw [htest]; rfl⟩⟩
  · refine ⟨root, hroot, ?_⟩
    have hroot_due : ∀ threshold ∈ op.threshold, ∀ root, queue.load 0 = some root →
        IsDue now threshold (due root) := by
      intro threshold' hthreshold' root' hroot'
      obtain rfl := Option.some.inj (hroot.symm.trans hroot')
      obtain rfl := Option.mem_unique hthreshold hthreshold'
      exact hdue
    rw [htest, Option.bind_some, if_pos rfl]
    rcases stretchSafe_remove h (fun _ => Nat.ne_of_gt hpos) hroot_due with ⟨hnone, hfit⟩ | hsafe
    · exact Or.inr (Or.inl ⟨fun habs => hfit (hindices.mp habs ⟨root, hmem, hdue⟩), hnone⟩)
    · exact Or.inr (Or.inr ⟨fun _ => hfits, hsafe⟩)
  · refine ⟨root, hroot, Or.inr (Or.inr ⟨fun _ => hfits, _, ?_, hlater⟩)⟩
    rw [htest]
    rfl

/-- A stretch on a valid queue overflows, or is safe. -/
theorem stretch_spec (h : queue.Valid due cells) (hnormal : ∀ msg, (due msg).Normalised)
    (hnow : now.Normalised) (hop : op.Sane) :
    StretchSettled due op now queue (stretch due true now queue op) := by
  cases op with
  | add msg =>
      obtain ⟨ret, queue', cells', hadd, hvalid, hqueued⟩ := oscMsgQueueAdd_spec h msg
      refine .of_remove rfl (Or.inr ⟨_, by rw [stretch, oscMsgQueueAddS, hadd]; rfl, ?_⟩)
      exact ⟨⟨cells', hvalid⟩, hqueued, fun _ habs => by cases habs⟩
  | remove =>
      refine .of_remove rfl ?_
      exact stretchSafe_remove h (fun habs => absurd habs id) fun _ habs => by cases habs
  | removeDue threshold =>
      rw [stretch, oscMsgQueueRemoveDueS, oscMsgQueueSize]
      by_cases hpos : 0 < queue.cItems
      · obtain ⟨root, hroot, hwhen⟩ := stretchSettled_whenDue h hpos hnormal hnow hop rfl Iff.rfl
          (stretchSafe_null h id)
        rw [if_pos hpos, hroot, Option.bind_eq_bind, Option.bind_some]
        exact hwhen
      · rw [if_neg hpos]
        refine Or.inr (Or.inr ⟨fun _ msg hmsg => ?_, _, rfl, stretchSafe_null h id⟩)
        rw [OscMsgQueue.queued_of_zero (Nat.eq_zero_of_not_pos hpos)] at hmsg
        exact absurd hmsg (Multiset.notMem_zero msg)
  | take =>
      rw [stretch, oscMsgQueueTakeS, oscMsgQueueSize]
      by_cases hempty : queue.cItems = 0
      · rw [if_pos hempty]
        exact .of_remove rfl (Or.inr ⟨_, rfl, stretchSafe_waits h⟩)
      · rw [if_neg hempty]
        refine .of_remove rfl ?_
        exact stretchSafe_remove h (fun _ => hempty) fun _ habs => by cases habs
  | takeDue threshold =>
      rw [stretch, oscMsgQueueTakeDueS, oscMsgQueueSize]
      by_cases hempty : queue.cItems = 0
      · rw [if_pos hempty]
        refine Or.inr (Or.inr ⟨fun _ msg hmsg => ?_, _, rfl, stretchSafe_waits h⟩)
        rw [OscMsgQueue.queued_of_zero hempty] at hmsg
        exact absurd hmsg (Multiset.notMem_zero msg)
      · obtain ⟨root, hroot, hwhen⟩ := stretchSettled_whenDue h (Nat.pos_of_ne_zero hempty)
          hnormal hnow hop rfl Iff.rfl (stretchSafe_sleeps h)
        rw [if_neg hempty, hroot, Option.bind_eq_bind, Option.bind_some]
        exact hwhen

/-! ## Runs of the system -/

variable [DecidableEq T]

/-- What holds of the system whenever the mutex is free. -/
structure Exchanges (due : μ → OscTime) (s : System T μ) : Prop where
  valid : ∃ cells, s.queue.Valid due cells
  accounted : s.returned + s.queue.queued = s.accepted
  safe : ∀ r ∈ s.log, r.Safe due
  sane : Calls QueueOp.Sane s.threads

/-- A stretch moves a message from the accepted ones to the queue or from the queue to
the returned ones. -/
theorem StretchSafe.accounted {done : Stretch μ} (h : StretchSafe due op now queue done)
    {accepted : Multiset μ} {log : List (Return μ)}
    (haccounted : (log.filterMap Return.out : Multiset μ) + queue.queued = accepted) :
    ((done.ending.enter op now queue.queued log).filterMap Return.out : Multiset μ) +
      done.queue.queued = done.ending.accept accepted := by
  have hexchange := h.exchange
  obtain ⟨queue', signal, ending⟩ := done
  cases ending with
  | added msg ret =>
      cases ret with
      | true =>
          simp only [if_true] at hexchange
          simp only [Ending.enter, Ending.accept, hexchange, Multiset.add_cons, haccounted]
      | false => exact hexchange ▸ haccounted
  | gives out =>
      cases out with
      | none => exact hexchange ▸ haccounted
      | some msg =>
          simp only at hexchange
          rw [hexchange, Multiset.add_cons, ← Multiset.cons_add, Multiset.cons_coe] at haccounted
          exact haccounted
  | waits => exact hexchange ▸ haccounted
  | sleeps => exact hexchange ▸ haccounted

theorem StretchSafe.safe_enter {done : Stretch μ} (h : StretchSafe due op now queue done)
    {log : List (Return μ)} (hlog : ∀ r ∈ log, r.Safe due) :
    ∀ r ∈ done.ending.enter op now queue.queued log, r.Safe due := by
  intro r hr
  have hsafe := h.safe
  obtain ⟨queue', signal, ending⟩ := done
  cases ending with
  | added msg ret => exact hlog r hr
  | gives out =>
      rcases List.mem_cons.mp hr with rfl | hr
      · exact hsafe out rfl
      · exact hlog r hr
  | waits => exact hlog r hr
  | sleeps => exact hlog r hr

/-- An event keeps what holds of the system. -/
theorem Exchanges.step {s s' : System T μ} {e : Event T μ} (h : Exchanges due s)
    (hnormal : ∀ msg, (due msg).Normalised) (he : Benign e)
    (hstep : systemStep due s e = some s') : Exchanges due s' := by
  have hsane : Calls QueueOp.Sane s'.threads := by
    refine h.sane.step ?_ hstep
    rintro t op rfl
    exact he
  rcases systemStep_cases hstep with ⟨t, op, rfl, -, rfl⟩ | ⟨t, op, rfl, -, rfl⟩ |
    ⟨t, now, grown, wake, op, done, rfl, hrunning, hdone, rfl⟩
  · exact ⟨h.valid, h.accounted, h.safe, hsane⟩
  · exact ⟨h.valid, h.accounted, h.safe, hsane⟩
  · obtain ⟨hnow, rfl⟩ : now.Normalised ∧ grown = true := he
    obtain ⟨cells, hvalid⟩ := h.valid
    have hop := h.sane t op (ThreadState.op_of_running hrunning)
    rcases stretch_spec hvalid hnormal hnow hop with
      ⟨-, hnone⟩ | ⟨-, hnone⟩ | ⟨-, done', hdone', hsafe⟩
    · cases hnone.symm.trans hdone
    · cases hnone.symm.trans hdone
    · obtain rfl := Option.some.inj (hdone'.symm.trans hdone)
      exact ⟨hsafe.valid, hsafe.accounted h.accounted, hsafe.safe_enter h.safe, hsane⟩

/-- The indices for the removal of an event fit. -/
def IndicesFitAt (due : μ → OscTime) (s : System T μ) : Event T μ → Prop
  | .enter t now _ _ => ∀ op ∈ (s.threads t).running, StretchIndicesFit due now s.queue op
  | _ => True

instance (s : System T μ) : DecidablePred (IndicesFitAt due s)
  | .call _ _ => isTrue trivial
  | .enter t now _ _ => inferInstanceAs
      (Decidable (∀ op ∈ (s.threads t).running, StretchIndicesFit due now s.queue op))
  | .spurious _ => isTrue trivial

/-- The time that an event computes does not overflow. -/
def DiffFitsAt (due : μ → OscTime) (s : System T μ) : Event T μ → Prop
  | .enter t now _ _ => ∀ op ∈ (s.threads t).running, StretchDiffFits due now s.queue op
  | _ => True

instance (s : System T μ) : DecidablePred (DiffFitsAt due s)
  | .call _ _ => isTrue trivial
  | .enter t now _ _ => inferInstanceAs
      (Decidable (∀ op ∈ (s.threads t).running, StretchDiffFits due now s.queue op))
  | .spurious _ => isTrue trivial

/-- An event whose thread can act has a result exactly if its time does not overflow, as long
as its indices fit. -/
theorem Exchanges.exists_step_iff {s : System T μ} {e : Event T μ} (h : Exchanges due s)
    (hnormal : ∀ msg, (due msg).Normalised) (he : Benign e) (hact : CanAct s e)
    (hfit : IndicesFitAt due s e) :
    (∃ s', systemStep due s e = some s') ↔ DiffFitsAt due s e := by
  cases e with
  | call t op =>
      have hidle : s.threads t = .idle := hact
      rw [systemStep, hidle]
      exact iff_of_true ⟨_, rfl⟩ trivial
  | enter t now grown wake =>
      obtain ⟨hnow, rfl⟩ : now.Normalised ∧ grown = true := he
      obtain ⟨op, hrunning⟩ := Option.ne_none_iff_exists'.mp hact
      obtain ⟨cells, hvalid⟩ := h.valid
      have hop := h.sane t op (ThreadState.op_of_running hrunning)
      have hdiff : DiffFitsAt due s (.enter t now true wake) ↔
          StretchDiffFits due now s.queue op := by
        refine ⟨fun hfits => hfits op hrunning, fun hfits op' hop' => ?_⟩
        obtain rfl := Option.some.inj (hrunning.symm.trans hop')
        exact hfits
      rw [hdiff, systemStep, hrunning, Option.bind_eq_bind, Option.bind_some]
      rcases stretch_spec hvalid hnormal hnow hop with
        ⟨hfits, hnone⟩ | ⟨habs, -⟩ | ⟨hfits, done, hdone, -⟩
      · rw [hnone]
        refine iff_of_false ?_ hfits
        rintro ⟨s', habs⟩
        cases habs
      · exact absurd (hfit op hrunning) habs
      · rw [hdone]
        exact iff_of_true ⟨_, rfl⟩ hfits
  | spurious t =>
      obtain ⟨op, hwaiting⟩ := Option.ne_none_iff_exists'.mp hact
      rw [systemStep, hwaiting]
      exact iff_of_true ⟨_, rfl⟩ trivial

omit [DecidableEq T] in
theorem exchanges_start {capacity flags : Int} {queue : OscMsgQueue μ} (hcapacity : 1 ≤ capacity)
    (hint : capacity ≤ intMax) (hinit : oscMsgQueueInit true capacity flags = some queue) :
    Exchanges due (.start queue : System T μ) :=
  ⟨⟨_, valid_oscMsgQueueInit hcapacity hint hinit⟩,
    (Multiset.zero_add _).trans (queued_oscMsgQueueInit hinit),
    fun _ habs => absurd habs List.not_mem_nil,
    fun _ op habs => absurd habs (Option.not_mem_none op)⟩

/-- All the events happen, and then the accepted messages are the returned and the queued ones,
and every result so far is safe. -/
def DeliversMessages (due : μ → OscTime) (queue : OscMsgQueue μ) (events : List (Event T μ)) :
    Prop :=
  ∃ s, run (systemStep due) (.start queue) events = some s ∧
    s.returned + s.queue.queued = s.accepted ∧ ∀ r ∈ s.log, r.Safe due

/-- Whatever threads do on a new queue, they exchange their messages exactly if no time
overflows that a test for a due message computes. That is as long as the indices of the removals
are of type `int`. -/
theorem run_exchanges (due : μ → OscTime) (hnormal : ∀ msg, (due msg).Normalised)
    (capacity flags : Int) (queue : OscMsgQueue μ) (events : List (Event T μ))
    (hcapacity : 1 ≤ capacity) (hint : capacity ≤ intMax)
    (hinit : oscMsgQueueInit true capacity flags = some queue)
    (hlegal : Along (systemStep due) (fun s e => CanAct s e ∧ WakesParked s e ∧ Benign e)
      (.start queue) events)
    (hindices : Along (systemStep due) (IndicesFitAt due) (.start queue) events) :
    DeliversMessages due queue events ↔
      Along (systemStep due) (DiffFitsAt due) (.start queue) events := by
  have hstart : Exchanges due (.start queue : System T μ) :=
    exchanges_start hcapacity hint hinit
  have hsteps := hlegal.and hindices
  have hkept : ∀ (s : System T μ) e s', Exchanges due s →
      (CanAct s e ∧ WakesParked s e ∧ Benign e) ∧ IndicesFitAt due s e →
      systemStep due s e = some s' → Exchanges due s' :=
    fun s e s' hs he hstep => hs.step hnormal he.1.2.2 hstep
  constructor
  · rintro ⟨s, hrun, -⟩
    refine along_of_invariant (Exchanges due) ?_ (fun s e s' hs he => hkept s e s' hs he.1) hstart
      (hsteps.and (along_of_run hrun))
    intro s e hs he
    exact (hs.exists_step_iff hnormal he.1.1.2.2 he.1.1.1 he.1.2).mp he.2
  · intro htimes
    obtain ⟨s, hrun, hs⟩ := exists_run (Exchanges due) (fun s e hs he => by
      obtain ⟨s', hstep⟩ :=
        (hs.exists_step_iff hnormal he.1.1.2.2 he.1.1.1 he.1.2).mpr he.2
      exact ⟨s', hstep, hkept s e s' hs he.1 hstep⟩) hstart (hsteps.and htimes)
    exact ⟨s, hrun, hs.accounted, hs.safe⟩

/-- A message is due as many seconds after the epoch as its number says. -/
def dueInSeconds (msg : Fin 2) : OscTime := ⟨Int64.ofNat msg, 0⟩

/-- A consumer parks, a producer wakes it, and it leaves with the message. -/
def handover : List (Event Bool (Fin 2)) :=
  [.call true (.takeDue none), .enter true ⟨0, 0⟩ true none, .call false (.add 1),
    .enter false ⟨0, 0⟩ true (some true), .enter true ⟨1, 0⟩ true none]

theorem run_exchanges_handover :
    DeliversMessages dueInSeconds ⟨some fun _ => none, 1, 0, 0⟩ handover := by
  have hnormal : ∀ msg, (dueInSeconds msg).Normalised := by decide
  exact (run_exchanges _ hnormal 1 0 _ handover le_rfl (by decide) rfl (by decide)
    (by decide)).mpr (by decide)

/-- A message is due at the latest second that there is. -/
def dueLatest (_ : Unit) : OscTime := ⟨Int64.maxValue, 0⟩

/-- A consumer asks for it one second before the epoch. -/
def tooEarly : List (Event Bool Unit) :=
  [.call false (.add ()), .enter false ⟨-1, 0⟩ true none, .call true (.takeDue none),
    .enter true ⟨-1, 0⟩ true none]

/-- The time that is left until then overflows. -/
theorem tooEarly_not_delivers : ∃ queue, oscMsgQueueInit true 1 0 = some queue ∧
    (∀ msg, (dueLatest msg).Normalised) ∧
    Along (systemStep dueLatest) (fun s e => CanAct s e ∧ WakesParked s e ∧ Benign e)
      (.start queue) tooEarly ∧ ¬ DeliversMessages dueLatest queue tooEarly := by
  refine ⟨_, rfl, by decide, by decide, ?_⟩
  rintro ⟨s, hrun, -⟩
  cases hrun

end LittleOscar
