import LittleOscar.Queue.Heap
import LittleOscar.Queue.Thread.Calls
import LittleOscar.Transition.Count
import LittleOscar.Transition.Run

/-!
# Who wakes the consumers

`osc_msg_queue_add_s` signals only when it finds the queue empty. A message that is
added to a non-empty queue wakes nobody: it relies on a consumer that is already on its
way to the mutex. When there are no more of these than queued messages, each of them
takes one, and the new message stays in the queue while a parked consumer sleeps on.

`run_notStranded` says that this is all that goes wrong. As long as every message that
is added to a non-empty queue, with a consumer parked, finds more consumers on the way
than queued messages, there is a consumer on the way whenever a message is queued and a
consumer is parked.
-/

namespace LittleOscar

open Transition

variable {T μ : Type} (due : μ → OscTime)

namespace ThreadState

/-- A consumer inside `osc_msg_queue_take_s` that runs, or has been woken, and has not
removed a message yet. -/
def onTheWay : ThreadState μ → Bool
  | ready .take => true
  | woken .take => true
  | _ => false

/-- A consumer inside `osc_msg_queue_take_s` that is parked and has not been woken. -/
def asleep : ThreadState μ → Bool
  | parked .take => true
  | _ => false

/-- A producer inside `osc_msg_queue_add_s` that runs. -/
def adding : ThreadState μ → Bool
  | ready (.add _) => true
  | woken (.add _) => true
  | _ => false

variable {thread : ThreadState μ}

theorem adding_of_running_add {msg : μ} (h : thread.running = some (.add msg)) :
    thread.adding = true := by
  cases thread with
  | idle => cases h
  | ready op => cases h; rfl
  | parked op => cases h
  | woken op => cases h; rfl

theorem exists_add_of_adding {op : QueueOp μ} (h : thread.adding = true)
    (hrunning : thread.running = some op) : ∃ msg, op = .add msg := by
  cases op with
  | add msg => exact ⟨msg, rfl⟩
  | _ =>
      cases thread with
      | idle => cases h
      | ready op => cases hrunning; cases h
      | parked op => cases h
      | woken op => cases hrunning; cases h

theorem onTheWay_of_running_add {msg : μ} (h : thread.running = some (.add msg)) :
    thread.onTheWay = false := by
  cases thread with
  | idle => cases h
  | ready op => cases h; rfl
  | parked op => cases h
  | woken op => cases h; rfl

theorem onTheWay_of_running_take (h : thread.running = some .take) :
    thread.onTheWay = true := by
  cases thread with
  | idle => cases h
  | ready op => cases h; rfl
  | parked op => cases h
  | woken op => cases h; rfl

theorem running_of_onTheWay (h : thread.onTheWay = true) : thread.running = some .take := by
  cases thread with
  | idle => cases h
  | ready op =>
      cases op with
      | take => rfl
      | _ => cases h
  | parked op => cases h
  | woken op =>
      cases op with
      | take => rfl
      | _ => cases h

theorem waiting_of_asleep (h : thread.asleep = true) : thread.waiting = some .take := by
  cases thread with
  | idle => cases h
  | ready op => cases h
  | parked op =>
      cases op with
      | take => rfl
      | _ => cases h
  | woken op => cases h

theorem not_asleep_of_running {op : QueueOp μ} (h : thread.running = some op) :
    thread.asleep = false := by
  cases thread with
  | idle => rfl
  | ready op' => rfl
  | parked op' => cases h
  | woken op' => rfl

end ThreadState

/-- The call is `osc_msg_queue_add_s` or `osc_msg_queue_take_s`. -/
def QueueOp.AddsOrTakes : QueueOp μ → Prop
  | .add _ => True
  | .take => True
  | _ => False

instance : DecidablePred (QueueOp.AddsOrTakes (μ := μ))
  | .add _ => isTrue trivial
  | .take => isTrue trivial
  | .remove => isFalse id
  | .removeDue _ => isFalse id
  | .takeDue _ => isFalse id

/-- The threads are producers and consumers. -/
def CallsAddOrTake : Event T μ → Prop
  | .call _ op => op.AddsOrTakes
  | _ => True

instance : DecidablePred (CallsAddOrTake (T := T) (μ := μ))
  | .call _ op => inferInstanceAs (Decidable op.AddsOrTakes)
  | .enter _ _ _ _ => isTrue trivial
  | .spurious _ => isTrue trivial

/-- No message is stranded: while one is queued and a consumer is parked, a consumer is
on the way. -/
def NotStranded (s : System T μ) : Prop :=
  0 < oscMsgQueueSize s.queue → (∃ t, (s.threads t).asleep = true) →
    ∃ u, (s.threads u).onTheWay = true

variable [Fintype T]

/-- A message that is accepted into a non-empty queue, with a consumer parked, finds
more consumers on the way than queued messages. -/
def KeepsUp (s : System T μ) : Event T μ → Prop
  | .enter t _ grown _ =>
      (s.threads t).adding = true → s.queue.HasRoom grown → 0 < oscMsgQueueSize s.queue →
        (∃ u, (s.threads u).asleep = true) →
        oscMsgQueueSize s.queue < count ThreadState.onTheWay s.threads
  | _ => True

instance (s : System T μ) : DecidablePred (KeepsUp s)
  | .call _ _ => isTrue trivial
  | .enter _ _ _ _ => inferInstanceAs (Decidable (_ → _ → _ → _ → _))
  | .spurious _ => isTrue trivial

/-- What `KeepsUp` maintains: while a consumer is parked, there are as many consumers on
the way as messages. -/
structure KeptUp (s : System T μ) : Prop where
  ops : Calls QueueOp.AddsOrTakes s.threads
  parked : ∀ t op, s.threads t = .parked op → op = .take
  pace : (∃ t, (s.threads t).asleep = true) →
    s.queue.cItems ≤ count ThreadState.onTheWay s.threads

theorem KeptUp.notStranded {s : System T μ} (h : KeptUp s) : NotStranded s := by
  intro hpos hasleep
  exact count_pos.mp (Nat.lt_of_lt_of_le hpos (h.pace hasleep))

variable {due} [DecidableEq T] {s s' : System T μ} {e : Event T μ}
  {threads : T → ThreadState μ} {t : T} {thread : ThreadState μ}

omit [Fintype T] in
theorem asleep_of_update (hawake : thread.asleep = false)
    (h : ∃ u, (Function.update threads t thread u).asleep = true) :
    ∃ u, (threads u).asleep = true := by
  obtain ⟨u, hu⟩ := h
  by_cases htu : u = t
  · rw [htu, Function.update_self, hawake] at hu
    cases hu
  · rw [Function.update_of_ne htu] at hu
    exact ⟨u, hu⟩

omit [Fintype T] in
theorem parked_update (h : ∀ u op, threads u = .parked op → op = .take)
    (hthread : ∀ op, thread = .parked op → op = .take) :
    ∀ u op, Function.update threads t thread u = .parked op → op = .take :=
  (Function.forall_update_iff threads fun _ state => ∀ op, state = .parked op → op = .take).mpr
    ⟨hthread, fun u _ => h u⟩

omit [Fintype T] in
theorem parked_wakeUp (h : ∀ u op, threads u = .parked op → op = .take) (wake : Option T) :
    ∀ u op, wakeUp threads wake u = .parked op → op = .take := by
  cases wake with
  | none => exact h
  | some u =>
      rw [wakeUp]
      cases (threads u).waiting with
      | none => exact h
      | some op => exact parked_update h fun op habs => by cases habs

/-- What a thread does outside a stretch leaves the pace as it is, or puts one more
consumer on the way. -/
theorem KeptUp.move (h : KeptUp s) (hold : (s.threads t).onTheWay = false)
    (hawake : thread.asleep = false) (hops : ∀ op ∈ thread.op, op.AddsOrTakes)
    (hparked : ∀ op, thread ≠ .parked op) :
    KeptUp { s with threads := Function.update s.threads t thread } := by
  refine ⟨h.ops.update t hops, parked_update h.parked fun op habs => absurd habs (hparked op), ?_⟩
  intro hasleep
  have hpace := h.pace (asleep_of_update hawake hasleep)
  have hcount := count_update (p := ThreadState.onTheWay) (f := s.threads) t thread
  rw [hold, Bool.toNat_false, Nat.add_zero] at hcount
  show s.queue.cItems ≤ count _ (Function.update s.threads t thread)
  rw [hcount]
  exact hpace.trans (Nat.le_add_right _ _)

section Stretch

variable {now : OscTime} {grown : Bool} {wake : Option T} {done : Stretch μ}

/-- The signal of a producer reaches a consumer that is parked, if there is one. -/
theorem KeptUp.exists_woken (h : KeptUp s) {op : QueueOp μ}
    (hrunning : (s.threads t).running = some op)
    (hwake : WakesParked s (.enter t now grown wake))
    (hasleep : ∃ u, (wakeUp s.threads wake u).asleep = true) :
    ∃ u, u ≠ t ∧ (wakeUp s.threads wake u).onTheWay = true := by
  cases wake with
  | none =>
      obtain ⟨u, hu⟩ := hasleep
      have hnone : (s.threads u).waiting = none := hwake u
      cases hnone.symm.trans (ThreadState.waiting_of_asleep hu)
  | some u =>
      obtain ⟨op', hwaiting⟩ := Option.ne_none_iff_exists'.mp hwake
      have hparked := ThreadState.eq_parked_of_waiting hwaiting
      obtain rfl := h.parked u op' hparked
      refine ⟨u, ?_, ?_⟩
      · rintro rfl
        cases hrunning.symm.trans (congrArg ThreadState.running hparked)
      · rw [wakeUp_some hparked, Function.update_self]
        rfl

/-- A message that is refused changes nothing, one that finds the queue empty wakes a
consumer, and any other one keeps up. -/
theorem KeptUp.pace_add (h : KeptUp s) {msg : μ}
    (hrunning : (s.threads t).running = some (.add msg))
    (hdone : stretch due grown now s.queue (.add msg) = some done)
    (hwake : WakesParked s (.enter t now grown wake))
    (hkeeps : KeepsUp s (.enter t now grown wake))
    (hasleep : ∃ u, (Function.update
      (if done.signal then wakeUp s.threads wake else s.threads) t .idle u).asleep = true) :
    done.queue.cItems ≤ count ThreadState.onTheWay
      (Function.update (if done.signal then wakeUp s.threads wake else s.threads) t .idle) := by
  have hcount : count ThreadState.onTheWay (Function.update s.threads t .idle) =
      count ThreadState.onTheWay s.threads :=
    count_update_of_eq (ThreadState.onTheWay_of_running_add hrunning).symm
  rcases stretch_add hdone with ⟨hroom, -, hsignal, hsize⟩ | ⟨-, -, hsignal, hsize⟩
  · by_cases hempty : s.queue.cItems = 0
    · rw [hsignal, decide_eq_true hempty, if_pos rfl] at hasleep ⊢
      obtain ⟨u, hne, hu⟩ := h.exists_woken hrunning hwake (asleep_of_update rfl hasleep)
      rw [hsize, hempty]
      refine count_pos.mpr ⟨u, ?_⟩
      rw [Function.update_of_ne hne]
      exact hu
    · rw [hsignal, decide_eq_false hempty, if_neg Bool.false_ne_true] at hasleep ⊢
      have hadding := ThreadState.adding_of_running_add hrunning
      have hless : s.queue.cItems < _ := hkeeps hadding hroom (Nat.pos_of_ne_zero hempty)
        (asleep_of_update rfl hasleep)
      rw [hcount, hsize]
      exact hless
  · rw [hsignal, if_neg Bool.false_ne_true] at hasleep ⊢
    rw [hcount, hsize]
    exact h.pace (asleep_of_update rfl hasleep)

/-- A consumer that takes a message leaves one consumer and one message less. -/
theorem KeptUp.pace_take (h : KeptUp s) (hrunning : (s.threads t).running = some .take)
    (hsize : s.queue.cItems = done.queue.cItems + 1)
    (hasleep : ∃ u, (Function.update s.threads t .idle u).asleep = true) :
    done.queue.cItems ≤ count ThreadState.onTheWay (Function.update s.threads t .idle) := by
  have hpace := h.pace (asleep_of_update rfl hasleep)
  have hcount := count_update (p := ThreadState.onTheWay) (f := s.threads) t .idle
  rw [ThreadState.onTheWay_of_running_take hrunning, Bool.toNat_true] at hcount
  have hidle : (ThreadState.idle : ThreadState μ).onTheWay.toNat = 0 := rfl
  omega

end Stretch

/-- A step that keeps up keeps the pace. -/
theorem KeptUp.step (h : KeptUp s) (hwake : WakesParked s e) (hcalls : CallsAddOrTake e)
    (hkeeps : KeepsUp s e) (hstep : systemStep due s e = some s') : KeptUp s' := by
  have hops : Calls QueueOp.AddsOrTakes s'.threads := by
    refine h.ops.step ?_ hstep
    rintro t op rfl
    exact hcalls
  rcases systemStep_cases hstep with ⟨t, op, rfl, hidle, rfl⟩ | ⟨t, op, rfl, hparked, rfl⟩ |
    ⟨t, now, grown, wake, op, done, rfl, hrunning, hdone, rfl⟩
  · refine h.move ?_ rfl ?_ fun op' habs => by cases habs
    · rw [hidle]
      rfl
    · intro op' hop
      obtain rfl := Option.some.inj hop
      exact hcalls
  · refine h.move ?_ rfl ?_ fun op' habs => by cases habs
    · rw [hparked]
      rfl
    · intro op' hop
      obtain rfl := Option.some.inj hop
      exact h.ops t op (by rw [hparked]; rfl)
  · have hop := h.ops t op (ThreadState.op_of_running hrunning)
    cases op with
    | add msg =>
        rw [next_of_stretch_add hdone] at hops ⊢
        refine ⟨hops, parked_update ?_ (fun op habs => by cases habs),
          h.pace_add hrunning hdone hwake hkeeps⟩
        split
        · exact parked_wakeUp h.parked wake
        · exact h.parked
    | take =>
        rcases stretch_take hdone with ⟨hempty, rfl⟩ | ⟨hsignal, hsize, out, hending⟩
        · refine ⟨hops, parked_update h.parked fun op habs => ?_, fun _ => ?_⟩
          · exact (ThreadState.parked.inj habs).symm
          · exact hempty ▸ Nat.zero_le _
        · simp only [hsignal, hending, if_neg Bool.false_ne_true] at hops ⊢
          exact ⟨hops, parked_update h.parked (fun op habs => by cases habs),
            h.pace_take hrunning hsize⟩
    | remove => exact absurd hop id
    | removeDue threshold => exact absurd hop id
    | takeDue threshold => exact absurd hop id

/-! ## The condition is needed -/

omit [Fintype T] in
/-- A consumer on the way leaves with a message. -/
theorem exists_takeStep {cells : ℕ → Option μ} (hvalid : s.queue.Valid due cells)
    (hfit : IndicesFit s.queue) (hpos : 0 < s.queue.cItems)
    (hrunning : (s.threads t).running = some .take) (wake : Option T) :
    ∃ s' cells', systemStep due s (.enter t ⟨0, 0⟩ true wake) = some s' ∧
      s'.queue.Valid due cells' ∧ s.queue.cItems = s'.queue.cItems + 1 ∧
      s'.threads = Function.update s.threads t .idle := by
  rcases oscMsgQueueRemove_spec hvalid with ⟨-, habs⟩ | ⟨hzero, -⟩ |
    ⟨out, queue', cells', hremove, hvalid', -⟩
  · exact absurd hfit habs
  · exact absurd hzero (Nat.ne_of_gt hpos)
  · have hdone : stretch due true ⟨0, 0⟩ s.queue .take =
        some ⟨queue', false, .gives (some out)⟩ := by
      rw [stretch, oscMsgQueueTakeS, oscMsgQueueSize, if_neg (Nat.ne_of_gt hpos), hremove]
      rfl
    rw [systemStep, hrunning, Option.bind_eq_bind, Option.bind_some, hdone]
    exact ⟨_, cells', rfl, hvalid', cItems_of_removed hremove, rfl⟩

/-- Where fewer consumers are on the way than messages are queued, the consumers on the
way can leave with a message each, and one that is parked is left behind. -/
theorem exists_stranded_of_lt {cells : ℕ → Option μ} (hvalid : s.queue.Valid due cells)
    (hfit : IndicesFit s.queue) (hasleep : ∃ t, (s.threads t).asleep = true)
    (hlt : count ThreadState.onTheWay s.threads < s.queue.cItems) :
    ∃ events s', Along (systemStep due) (fun s e => WakesParked s e ∧ CallsAddOrTake e) s events ∧
      run (systemStep due) s events = some s' ∧ ¬ NotStranded s' := by
  obtain ⟨k, hk⟩ : ∃ k, count ThreadState.onTheWay s.threads = k := ⟨_, rfl⟩
  have hpos : 0 < s.queue.cItems := Nat.lt_of_le_of_lt (Nat.zero_le _) hlt
  induction k generalizing s cells with
  | zero =>
      refine ⟨[], s, along_nil s, rfl, fun habs => ?_⟩
      exact absurd hk (Nat.ne_of_gt (count_pos.mpr (habs hpos hasleep)))
  | succ k ih =>
      obtain ⟨u, hu⟩ := count_pos.mp (Nat.lt_of_lt_of_eq (Nat.succ_pos k) hk.symm)
      obtain ⟨v, hv⟩ := hasleep
      have hrunning := ThreadState.running_of_onTheWay hu
      have hne : v ≠ u := by
        rintro rfl
        cases hv.symm.trans (ThreadState.not_asleep_of_running hrunning)
      obtain ⟨left, cells', hstep, hvalid', hsize, hthreads⟩ :=
        exists_takeStep hvalid hfit hpos hrunning (some v)
      have hleft : count ThreadState.onTheWay left.threads = k := by
        have hcount := count_update (p := ThreadState.onTheWay) (f := s.threads) u .idle
        rw [hu, hk] at hcount
        rw [hthreads]
        exact Nat.succ.inj hcount
      have hasleep : (left.threads v).asleep = true := by
        rw [hthreads, Function.update_of_ne hne]
        exact hv
      obtain ⟨events, s', hlegal, hrun, hstranded⟩ := ih hvalid'
        (fun ix hix => hfit ix (by omega)) ⟨v, hasleep⟩ (by omega) hleft (by omega)
      refine ⟨_ :: events, s', (along_cons_of_eq_some hstep).mpr ⟨⟨?_, trivial⟩, hlegal⟩,
        run_cons_eq_some.mpr ⟨_, hstep, hrun⟩, hstranded⟩
      show (s.threads v).waiting ≠ none
      rw [ThreadState.waiting_of_asleep hv]
      exact Option.some_ne_none _

/-- A step that does not keep up can be followed by steps that strand a message. -/
theorem exists_stranded_of_not_keepsUp {cells : ℕ → Option μ} (hkeeps : ¬ KeepsUp s e)
    (hstep : systemStep due s e = some s') (hvalid : s'.queue.Valid due cells)
    (hfit : IndicesFit s'.queue) :
    ∃ events s'', Along (systemStep due) (fun s e => WakesParked s e ∧ CallsAddOrTake e) s' events ∧
      run (systemStep due) s' events = some s'' ∧ ¬ NotStranded s'' := by
  rcases systemStep_cases hstep with ⟨t, op, rfl, -, -⟩ | ⟨t, op, rfl, -, -⟩ |
    ⟨t, now, grown, wake, op, done, rfl, hrunning, hdone, rfl⟩
  · exact absurd trivial hkeeps
  · exact absurd trivial hkeeps
  · simp only [KeepsUp, Classical.not_imp, oscMsgQueueSize, not_lt] at hkeeps
    obtain ⟨hadding, hroom, hpos, ⟨v, hv⟩, hle⟩ := hkeeps
    obtain ⟨msg, rfl⟩ := ThreadState.exists_add_of_adding hadding hrunning
    have hne : v ≠ t := by
      rintro rfl
      cases hv.symm.trans (ThreadState.not_asleep_of_running hrunning)
    rcases stretch_add hdone with ⟨-, hending, hsignal, hsize⟩ | ⟨habs, -⟩
    · rw [decide_eq_false (Nat.ne_of_gt hpos)] at hsignal
      simp only [hsignal, next_of_stretch_add hdone, if_neg Bool.false_ne_true] at hvalid hfit ⊢
      refine exists_stranded_of_lt hvalid hfit
        ⟨v, (congrArg _ (Function.update_of_ne hne _ _)).trans hv⟩ ?_
      rw [count_update_of_eq (ThreadState.onTheWay_of_running_add hrunning).symm, hsize]
      exact Nat.lt_succ_of_le hle
    · exact absurd hroom habs

/-- As long as every step keeps up, no message is stranded in any state that producers
and consumers reach on a new queue. If the next step does not, and leaves the heap as it
should be, then some steps behind it strand a message. -/
theorem run_notStranded (due : μ → OscTime) (allocated : Bool) (capacity flags : Int)
    (queue : OscMsgQueue μ) (events : List (Event T μ)) (s : System T μ)
    (hinit : oscMsgQueueInit allocated capacity flags = some queue)
    (hlegal : Along (systemStep due) (fun s e => WakesParked s e ∧ CallsAddOrTake e)
      (.start queue) events)
    (hkeeps : Along (systemStep due) KeepsUp (.start queue) events)
    (hrun : run (systemStep due) (.start queue) events = some s) :
    NotStranded s ∧ ∀ e s' cells, ¬ KeepsUp s e → systemStep due s e = some s' →
      s'.queue.Valid due cells → IndicesFit s'.queue →
        ∃ later s'', Along (systemStep due) (fun s e => WakesParked s e ∧ CallsAddOrTake e)
            s' later ∧
          run (systemStep due) s' later = some s'' ∧ ¬ NotStranded s'' := by
  have hempty : queue.cItems = 0 := by
    rw [oscMsgQueueInit] at hinit
    split at hinit
    · cases hinit
      rfl
    · cases hinit
  have hstart : KeptUp (.start queue : System T μ) := by
    refine ⟨fun t op habs => absurd habs (Option.not_mem_none op), fun t op habs => ?_, ?_⟩
    · cases habs
    · rintro ⟨t, habs⟩
      cases habs
  have hkept := invariant_run KeptUp
    (fun s e s' hs he hstep => hs.step he.1.1 he.1.2 he.2 hstep) hstart (hlegal.and hkeeps) hrun
  exact ⟨hkept.notStranded, fun e s' cells hbreaks hstep hvalid hfit =>
    exists_stranded_of_not_keepsUp hbreaks hstep hvalid hfit⟩

/-- With one consumer nobody is left behind. -/
theorem run_notStranded_oneConsumer : ∃ s,
    run (systemStep id) (.start ⟨some fun _ => none, 2, 0, 0⟩)
      [.call true .take, .enter true ⟨0, 0⟩ true none, .call false (.add ⟨1, 0⟩),
        .enter false ⟨0, 0⟩ true (some true)] = some s ∧ NotStranded s := by
  obtain ⟨s, hrun⟩ : ∃ s, run (systemStep id) (.start ⟨some fun _ => none, 2, 0, 0⟩)
      [.call true .take, .enter true ⟨0, 0⟩ true none, .call false (.add ⟨1, 0⟩),
        .enter false ⟨0, 0⟩ true (some true)] = some s := ⟨_, rfl⟩
  exact ⟨s, hrun, (run_notStranded id true 2 0 _ _ s rfl (by decide) (by decide) hrun).1⟩

/-- Two consumers park. The first message wakes one of them, the second finds the queue
not empty and wakes nobody, and the woken consumer leaves with one of the two. -/
def missedWakeUp : List (Event (Fin 3) OscTime) :=
  [.call 1 .take, .enter 1 ⟨0, 0⟩ true none, .call 2 .take, .enter 2 ⟨0, 0⟩ true (some 1),
    .call 0 (.add ⟨1, 0⟩), .enter 0 ⟨0, 0⟩ true (some 1),
    .call 0 (.add ⟨2, 0⟩), .enter 0 ⟨0, 0⟩ true (some 2), .enter 1 ⟨0, 0⟩ true (some 2)]

/-- The other message is stranded: the second consumer is parked, and nobody is on the
way. -/
theorem missedWakeUp_stranded : ∃ queue s, oscMsgQueueInit true 2 0 = some queue ∧
    Along (systemStep id) (fun s e => WakesParked s e ∧ CallsAddOrTake e) (.start queue)
      missedWakeUp ∧
    run (systemStep id) (.start queue) missedWakeUp = some s ∧ ¬ NotStranded s := by
  refine ⟨_, _, rfl, by decide, rfl, ?_⟩
  intro habs
  exact absurd (habs (by decide) ⟨2, rfl⟩) (by decide)

end LittleOscar
