import LittleOscar.Queue.Demo.Order
import LittleOscar.Transition.Count
import Mathlib.Algebra.Order.BigOperators.Group.Finset

/-!
# Where the program comes to rest

`osc_msg_queue_add_s` signals only if it finds the queue empty, so that a consumer can be
left parked while items are queued. Here that does no harm: a consumer parks only at an empty
queue, and each of them comes back for more, so that one of them is awake as long as an item
is queued (`Awake`). `run_rests` puts this together with a measure of the work that is left.
Once all items are due, the program takes a bounded number of steps, and when it can take no
more, every number has been printed.
-/

namespace LittleOscar.QueueDemo

open Transition

variable {ι : Type} [DecidableEq ι] {start : OscTime} {d d' : Demo ι} {e : DemoEvent ι} {k : ℕ}

/-- A consumer is awake if there is an item for it. -/
def Awake (d : Demo ι) : Prop :=
  d.system.queue.cItems ≠ 0 → ∃ c, (d.system.threads (.consumer c)).waiting = none

/-! ## One consumer is awake -/

section Threads

variable {threads : DemoThread ι → ThreadState ℕ}

/-- A thread that does not wait wakes nobody and puts nobody to sleep. -/
theorem awake_update (h : ∃ c, (threads (.consumer c)).waiting = none) (t : DemoThread ι)
    (thread : ThreadState ℕ) (hthread : thread.waiting = none) :
    ∃ c, (Function.update threads t thread (.consumer c)).waiting = none := by
  obtain ⟨c, hc⟩ := h
  refine ⟨c, ?_⟩
  by_cases ht : DemoThread.consumer c = t
  · rw [ht, Function.update_self]
    exact hthread
  · rw [Function.update_of_ne ht]
    exact hc

/-- A signal finds a consumer, or all of them are awake. -/
theorem awake_wakeUp [Nonempty ι] (hproducer : ∀ op, threads .producer ≠ .parked op)
    {wake : Option (DemoThread ι)} (hsome : ∀ u ∈ wake, (threads u).waiting ≠ none)
    (hnone : wake = none → ∀ u, (threads u).waiting = none) :
    ∃ c, (wakeUp threads wake (.consumer c)).waiting = none := by
  cases wake with
  | none => exact ‹Nonempty ι›.elim fun c => ⟨c, hnone rfl _⟩
  | some u =>
      obtain ⟨op, hop⟩ := Option.ne_none_iff_exists'.mp (hsome u rfl)
      have hparked := ThreadState.eq_parked_of_waiting hop
      cases u with
      | producer => exact absurd hparked (hproducer op)
      | consumer c =>
          refine ⟨c, ?_⟩
          rw [wakeUp, hop]
          simp only [Function.update_self]
          rfl

end Threads

theorem Awake.step [Nonempty ι] (h : Awake d) (hsupply : Supply start k d) (he : Supported d e)
    (hstep : demoStep start d e = some d') : Awake d' := by
  rcases demoStep_cases hstep with ⟨rfl, -, -, rfl⟩ | ⟨c, rfl, -, -, rfl⟩ |
    ⟨t, op, rfl, -, rfl⟩ | ⟨c, value, rfl, -, rfl⟩ |
    ⟨t, now, grown, wake, op, done, rfl, hrunning, hdone, rfl⟩
  · exact fun hitems => awake_update (h hitems) .producer (.ready (.add d.filled)) rfl
  · exact fun hitems => awake_update (h hitems) (.consumer c) _ rfl
  · exact fun hitems => awake_update (h hitems) t _ rfl
  · exact h
  · obtain ⟨hwake, -, rfl, -⟩ := he
    intro hitems
    cases t with
    | producer =>
        rcases hsupply.producer with ⟨hidle, -⟩ | ⟨hready, -⟩
        · rw [hidle] at hrunning
          cases hrunning
        rw [hready] at hrunning
        obtain rfl := Option.some.inj hrunning
        obtain ⟨hending, hsignal, -⟩ := stretch_add_of_growable hsupply.growable hdone
        rw [Demo.behind, hending, hsignal]
        refine awake_update ?_ .producer .idle rfl
        by_cases hempty : d.system.queue.cItems = 0
        · simp only [hempty, decide_true, if_true]
          refine awake_wakeUp hsupply.producer_ne ?_ ?_
          · rintro u rfl
            exact hwake
          · rintro rfl
            exact hwake
        · simp only [hempty, decide_false]
          exact h hempty
    | consumer c =>
        have hop := hsupply.consumers c op (ThreadState.op_of_running hrunning)
        subst hop
        rcases stretch_takeDue hdone with ⟨hempty, rfl⟩ | ⟨hne, rfl⟩ |
          ⟨msg, hsignal, hending, hsize, -⟩
        · exact absurd hempty hitems
        · exact awake_update (h hne) (.consumer c) _ rfl
        · rw [Demo.behind, hending, hsignal]
          exact awake_update (h (by omega)) (.consumer c) .idle rfl

/-! ## The work that is left -/

/-- What a consumer has to do before it parks. -/
def chores (thread : ThreadState ℕ) (taken : Option (Option ℕ)) : ℕ :=
  match thread, taken with
  | .parked _, _ => 0
  | .idle, none => 2
  | .idle, some _ => 3
  | _, _ => 1

/-- The producer has to add the item it has filled in. -/
def pending : ThreadState ℕ → ℕ
  | .idle => 0
  | _ => 5

/-- What all consumers have to do before they park. -/
def allChores [Fintype ι] (threads : DemoThread ι → ThreadState ℕ)
    (taken : ι → Option (Option ℕ)) : ℕ :=
  ∑ c, chores (threads (.consumer c)) (taken c)

/-- A measure of the work that is left. -/
def work [Fintype ι] (d : Demo ι) : ℕ :=
  6 * (itemCount - d.filled) + pending (d.system.threads .producer) +
    3 * d.system.queue.cItems + allChores d.system.threads d.taken

/-- A thread that wakes up without a signal has to look at the queue once more. -/
def needless : DemoEvent ι → ℕ
  | .spurious _ => 2
  | _ => 0

variable (start) in
/-- The clock has passed the last item. -/
def Late : DemoEvent ι → Prop
  | .enter _ now _ _ => (itemDue start (itemCount - 1)).micros ≤ now.micros
  | _ => True

omit [DecidableEq ι] in
theorem Supply.indicesFit (h : Supply start k d) : IndicesFit d.system.queue := by
  intro ix hix
  have hsize := h.size
  have hle := h.le_itemCount
  simp only [itemCount] at hle
  simp only [heapRightIx, intMax]
  omega

omit [DecidableEq ι] in
theorem Supply.stretchIndicesFit (h : Supply start k d) (now : OscTime) (op : QueueOp ℕ) :
    StretchIndicesFit (itemDue start) now d.system.queue op := by
  cases op with
  | add msg => trivial
  | remove => exact h.indicesFit
  | removeDue threshold => exact fun _ => h.indicesFit
  | take => exact h.indicesFit
  | takeDue threshold => exact fun _ => h.indicesFit

omit [DecidableEq ι] in
/-- Once the last item is due, nobody sleeps. -/
theorem Supply.not_sleeps (h : Supply start k d) {now : OscTime} {done : Stretch ℕ}
    (hnow : now.Normalised) (hlate : (itemDue start (itemCount - 1)).micros ≤ now.micros)
    (hdone : stretch (itemDue start) true now d.system.queue (.takeDue none) = some done) :
    done.ending ≠ .sleeps := by
  obtain ⟨cells, hvalid⟩ := h.exchanges.valid
  rw [stretch, oscMsgQueueTakeDueS, oscMsgQueueSize] at hdone
  rcases oscMsgQueueRemove_spec hvalid with ⟨-, habs⟩ | ⟨hempty, -⟩ |
    ⟨out, queue, cells', hremove, -, hroot, hqueued, -⟩
  · exact absurd h.indicesFit habs
  · rw [if_pos hempty] at hdone
    rw [← Option.some.inj hdone]
    simp
  · by_cases hempty : d.system.queue.cItems = 0
    · rw [if_pos hempty] at hdone
      rw [← Option.some.inj hdone]
      simp
    have hmem : out ∈ d.system.queue.queued := hqueued ▸ Multiset.mem_cons_self out _
    rw [h.queued_eq] at hmem
    obtain ⟨j, hj, rfl⟩ := Multiset.mem_map.mp hmem
    have hlt := Multiset.mem_range.mp hj
    have hsize := h.size
    have hle := h.le_itemCount
    have hdue : IsDue now none (itemDue start (d.system.log.length + j)) := by
      rw [micros_itemDue h.clock (by decide)] at hlate
      rw [IsDue, thresholdMicros, micros_itemDue h.clock (by omega)]
      simp only [itemCount] at hle hlate
      omega
    obtain ⟨root, hroot', ⟨-, htest⟩ | ⟨-, -, -, htest⟩ | ⟨-, hnone, -⟩⟩ :=
      hvalid.isMsgDue_spec (Nat.pos_of_ne_zero hempty) (normalised_itemDue start) hnow
        (show ThresholdSane none by decide)
    all_goals obtain rfl := Option.some.inj (hroot'.symm.trans hroot)
    · rw [if_neg hempty, hroot, Option.bind_eq_bind, Option.bind_some, htest] at hdone
      cases hdone
    · rw [if_neg hempty, hroot, Option.bind_eq_bind, Option.bind_some, htest, Option.bind_eq_bind,
        Option.bind_some, if_pos rfl, hremove] at hdone
      rw [← Option.some.inj hdone]
      simp
    · exact absurd hdue (hnone _ (hqueued ▸ Multiset.mem_cons_self _ _))

section Work

variable [Fintype ι]

/-- The chores when one consumer goes on. -/
theorem allChores_update (threads : DemoThread ι → ThreadState ℕ)
    (taken : ι → Option (Option ℕ)) (c : ι) (thread : ThreadState ℕ) (msg : Option (Option ℕ)) :
    allChores (Function.update threads (.consumer c) thread) (Function.update taken c msg) +
        chores (threads (.consumer c)) (taken c) =
      allChores threads taken + chores thread msg := by
  have hsum := sum_change (f := fun u => chores (threads (.consumer u)) (taken u))
    (g := fun u => chores (Function.update threads (.consumer c) thread (.consumer u))
      (Function.update taken c msg u)) c fun u hu => by
        have hne : DemoThread.consumer u ≠ .consumer c := fun heq => hu (by cases heq; rfl)
        rw [Function.update_of_ne hne, Function.update_of_ne hu]
  simp only [Function.update_self] at hsum
  exact hsum

theorem allChores_update_threads (threads : DemoThread ι → ThreadState ℕ)
    (taken : ι → Option (Option ℕ)) (c : ι) (thread : ThreadState ℕ) :
    allChores (Function.update threads (.consumer c) thread) taken +
        chores (threads (.consumer c)) (taken c) =
      allChores threads taken + chores thread (taken c) := by
  have hsum := allChores_update threads taken c thread (taken c)
  rwa [Function.update_eq_self] at hsum

theorem allChores_update_producer (threads : DemoThread ι → ThreadState ℕ)
    (taken : ι → Option (Option ℕ)) (thread : ThreadState ℕ) :
    allChores (Function.update threads .producer thread) taken = allChores threads taken := by
  rw [allChores, allChores]
  refine Finset.sum_congr rfl fun u _ => ?_
  rw [Function.update_of_ne (by simp)]

theorem chores_woken (op : QueueOp ℕ) (msg : Option (Option ℕ)) : chores (.woken op) msg = 1 := by
  cases msg with
  | none => rfl
  | some _ => rfl

theorem chores_ready (op : QueueOp ℕ) (msg : Option (Option ℕ)) : chores (.ready op) msg = 1 := by
  cases msg with
  | none => rfl
  | some _ => rfl

theorem chores_parked (op : QueueOp ℕ) (msg : Option (Option ℕ)) :
    chores (.parked op) msg = 0 := by
  cases msg with
  | none => rfl
  | some _ => rfl

theorem chores_of_running {thread : ThreadState ℕ} {op : QueueOp ℕ}
    (h : thread.running = some op) (msg : Option (Option ℕ)) : chores thread msg = 1 := by
  cases thread with
  | idle => cases h
  | ready op' => exact chores_ready op' msg
  | parked op' => cases h
  | woken op' => exact chores_woken op' msg

/-- A signal brings one consumer back. -/
theorem allChores_wakeUp (threads : DemoThread ι → ThreadState ℕ)
    (taken : ι → Option (Option ℕ)) (wake : Option (DemoThread ι)) :
    allChores (wakeUp threads wake) taken ≤ allChores threads taken + 1 := by
  cases wake with
  | none => exact Nat.le_succ _
  | some u =>
      rw [wakeUp]
      cases hwaiting : (threads u).waiting with
      | none => exact Nat.le_succ _
      | some op =>
          simp only
          cases u with
          | producer =>
              rw [allChores_update_producer]
              exact Nat.le_succ _
          | consumer c =>
              have hsum := allChores_update_threads threads taken c (.woken op)
              rw [chores_woken] at hsum
              omega

/-- Every event does some of the work, if the last item is due. -/
theorem work_step (h : InOrder start k d) (he : Supported d e) (hlate : Late start e)
    (hstep : demoStep start d e = some d') : work d' + 1 ≤ work d + needless e := by
  rcases demoStep_cases hstep with ⟨rfl, hlt, hidle, rfl⟩ | ⟨c, rfl, hnone, hidle, rfl⟩ |
    ⟨t, op, rfl, hparked, rfl⟩ | ⟨c, value, rfl, htaken, rfl⟩ |
    ⟨t, now, grown, wake, op, done, rfl, hrunning, hdone, rfl⟩
  · simp only [work, needless, allChores_update_producer, Function.update_self, hidle, pending]
    omega
  · have hsum := allChores_update_threads d.system.threads d.taken c (.ready (.takeDue none))
    rw [hidle, hnone, chores_ready] at hsum
    have htwo : chores .idle none = 2 := rfl
    simp only [work, needless]
    rw [Function.update_of_ne (by simp)]
    omega
  · cases t with
    | producer => exact absurd hparked (h.producer_ne op)
    | consumer c =>
        have hsum := allChores_update_threads d.system.threads d.taken c (.woken op)
        rw [hparked, chores_parked, chores_woken] at hsum
        simp only [work, needless]
        rw [Function.update_of_ne (by simp)]
        omega
  · have hidle := h.output.held c (by rw [htaken]; exact Option.some_ne_none _)
    have hsum := allChores_update d.system.threads d.taken c .idle none
    rw [← hidle, Function.update_eq_self, htaken, hidle] at hsum
    have htwo : chores .idle none = 2 := rfl
    have hthree : chores .idle (some (some value)) = 3 := rfl
    simp only [work, needless]
    omega
  · obtain ⟨-, hnow, rfl, -⟩ := he
    cases t with
    | producer =>
        rcases h.producer with ⟨hidle, -⟩ | ⟨hready, -⟩
        · rw [hidle] at hrunning
          cases hrunning
        rw [hready] at hrunning
        obtain rfl := Option.some.inj hrunning
        obtain ⟨hending, -, hsize, -⟩ := stretch_add_of_growable h.growable hdone
        have hsignal : allChores (if done.signal then wakeUp d.system.threads wake
            else d.system.threads) d.taken ≤ allChores d.system.threads d.taken + 1 := by
          split
          · exact allChores_wakeUp d.system.threads d.taken wake
          · exact Nat.le_succ _
        have hold_eq : hold d.taken .producer (.added k true) = d.taken := rfl
        simp only [work, needless, Demo.behind, hending, hold_eq, Ending.next,
          allChores_update_producer, Function.update_self, hready, pending]
        omega
    | consumer c =>
        have hop := h.consumers c op (ThreadState.op_of_running hrunning)
        subst hop
        have hbusy := chores_of_running hrunning (d.taken c)
        have hnone : d.taken c = none := h.output.taken_eq fun hidle => by
          rw [hidle] at hrunning
          cases hrunning
        rcases stretch_takeDue hdone with ⟨-, rfl⟩ | ⟨-, rfl⟩ |
          ⟨msg, hsignal, hending, hsize, -⟩
        · have hsum := allChores_update_threads d.system.threads d.taken c (.parked (.takeDue none))
          rw [chores_parked, hbusy] at hsum
          have hold_eq : hold d.taken (.consumer c) .waits = d.taken := rfl
          simp only [work, needless, Demo.behind, hold_eq, Ending.next, Bool.false_eq_true,
            if_false]
          rw [Function.update_of_ne (by simp)]
          omega
        · exact absurd rfl (h.toSupply.not_sleeps hnow hlate hdone)
        · have hsum := allChores_update d.system.threads d.taken c .idle (some (some msg))
          have hthree : chores .idle (some (some msg)) = 3 := rfl
          have hold_eq : hold d.taken (.consumer c) (.gives (some msg)) =
              Function.update d.taken c (some (some msg)) := rfl
          simp only [work, needless, Demo.behind, hending, hold_eq, Ending.next, hsignal,
            Bool.false_eq_true, if_false]
          rw [Function.update_of_ne (by simp)]
          omega

omit [DecidableEq ι] in
/-- The work that is left at any time. -/
theorem Supply.work_le (h : Supply start k d) :
    work d ≤ 6 * itemCount + 3 * Fintype.card ι := by
  have hchores : allChores d.system.threads d.taken ≤ 3 * Fintype.card ι := by
    rw [allChores, Nat.mul_comm]
    refine Finset.sum_le_card_nsmul Finset.univ _ 3 fun c _ => ?_
    cases d.system.threads (.consumer c) with
    | idle =>
        cases d.taken c with
        | none => exact Nat.le_succ 2
        | some _ => exact Nat.le_refl 3
    | ready op => rw [chores_ready]; omega
    | parked op => rw [chores_parked]; omega
    | woken op => rw [chores_woken]; omega
  have hsize := h.size
  have hfilled := h.filled
  rcases h.producer with ⟨hidle, heq⟩ | ⟨hready, heq⟩
  · simp only [work, hidle, pending]
    omega
  · simp only [work, hready, pending]
    omega

end Work

/-! ## Rest -/

/-- What holds of the program at any time: nothing has gone wrong, and it goes on. -/
structure Going [Fintype ι] (start : OscTime) (k : ℕ) (d : Demo ι) : Prop extends
    InOrder start k d where
  awake : Awake d

/-- Nothing but a wake-up without a signal can happen. -/
def AtRest (d : Demo ι) : Prop := ∀ e, CanMove d e → ∃ t, e = .spurious t

section Going

variable [Fintype ι]

theorem Going.step [Nonempty ι] (h : Going start k d) (he : Supported d e)
    (hstep : demoStep start d e = some d') : ∃ k', Going start k' d' := by
  obtain ⟨k', horder⟩ := h.toInOrder.step he hstep
  exact ⟨k', horder, h.awake.step h.toSupply he hstep⟩

/-- An event that can happen does happen. -/
theorem InOrder.exists_step (h : InOrder start k d) (hmove : CanMove d e) (he : Supported d e) :
    ∃ d', demoStep start d e = some d' := by
  have hnormal := normalised_itemDue start
  cases e with
  | produce =>
      obtain ⟨hlt, hidle⟩ := hmove
      obtain ⟨now, hnow⟩ := exists_produceTime h.clock hlt
      rw [demoStep, if_pos hlt, hnow, systemStep, hidle]
      exact ⟨_, rfl⟩
  | consume c =>
      obtain ⟨hnone, hidle⟩ := hmove
      rw [demoStep, hnone]
      simp only [systemStep, hidle]
      exact ⟨_, rfl⟩
  | enter t now grown wake =>
      have hindices : IndicesFitAt (itemDue start) d.system (.enter t now grown wake) :=
        fun op _ => h.toSupply.stretchIndicesFit now op
      have hdiff : DiffFitsAt (itemDue start) d.system (.enter t now grown wake) :=
        fun _ _ _ msg _ _ => diffFits_of_nonneg he.2.2.2 (nonneg_itemDue h.clock msg)
      obtain ⟨s, hs⟩ := (h.exchanges.exists_step_iff (e := .enter t now grown wake) hnormal
        ⟨he.2.1, he.2.2.1⟩ hmove hindices).mpr hdiff
      obtain ⟨op, hrunning, hdone⟩ := Option.bind_eq_some_iff.mp hs
      obtain ⟨done, hdone, -⟩ := Option.bind_eq_some_iff.mp hdone
      rw [demoStep, hrunning, Option.bind_eq_bind, Option.bind_some, hdone, Option.bind_eq_bind,
        Option.bind_some, hs]
      exact ⟨_, rfl⟩
  | spurious t =>
      obtain ⟨op, hop⟩ := Option.ne_none_iff_exists'.mp hmove
      rw [demoStep, systemStep, hop]
      exact ⟨_, rfl⟩
  | print c =>
      obtain ⟨msg, hmsg⟩ := Option.ne_none_iff_exists'.mp hmove
      cases msg with
      | none => exact absurd hmsg (h.output.value c)
      | some value =>
          rw [demoStep, hmsg]
          exact ⟨_, rfl⟩

omit [DecidableEq ι] in
/-- At rest every number has been printed. -/
theorem Going.printed (h : Going start k d) (hrest : AtRest d) :
    d.printed.Perm (List.range itemCount) ∧ d.system.queue.cItems = 0 := by
  have hstill : ∀ t, (d.system.threads t).running = none := by
    intro t
    by_contra hrunning
    obtain ⟨u, habs⟩ := hrest (.enter t ⟨0, 0⟩ true none) hrunning
    cases habs
  have hnobody : ∀ c, d.taken c = none := by
    intro c
    by_contra htaken
    obtain ⟨u, habs⟩ := hrest (.print c) htaken
    cases habs
  obtain ⟨hidle, hfilled⟩ := h.producer.resolve_right fun ⟨hready, _⟩ => by
    have hnone := hstill .producer
    rw [hready] at hnone
    cases hnone
  have hall : k = itemCount := by
    have hle := h.toSupply.le_itemCount
    by_contra hne
    obtain ⟨u, habs⟩ := hrest .produce ⟨by omega, hidle⟩
    cases habs
  have hempty : d.system.queue.cItems = 0 := by
    by_contra hitems
    obtain ⟨c, hc⟩ := h.awake hitems
    have hrunning := hstill (.consumer c)
    cases hthread : d.system.threads (.consumer c) with
    | idle =>
        obtain ⟨u, habs⟩ := hrest (.consume c) ⟨hnobody c, hthread⟩
        cases habs
    | ready op =>
        rw [hthread] at hrunning
        cases hrunning
    | parked op =>
        rw [hthread] at hc
        cases hc
    | woken op =>
        rw [hthread] at hrunning
        cases hrunning
  refine ⟨(List.perm_ext_iff_of_nodup h.output.nodup List.nodup_range).mpr fun v => ?_, hempty⟩
  have hsize := h.size
  rw [List.mem_range, ← hall, ← hsize, hempty, Nat.add_zero, h.output.out v]
  refine ⟨Or.inl, fun hv => hv.resolve_right ?_⟩
  rintro ⟨c, hc⟩
  rw [hnobody c] at hc
  cases hc

omit [DecidableEq ι] in
/-- Some thread can go on with the clock behind the last item, unless the program is at
rest. -/
theorem exists_late (hclock : ClockFits start) (hrest : ¬ AtRest d) :
    ∃ e, CanMove d e ∧ Supported d e ∧ Late start e ∧ needless e = 0 := by
  obtain ⟨e, he⟩ := not_forall.mp hrest
  obtain ⟨hmove, hne⟩ := Classical.not_imp.mp he
  cases e with
  | produce => exact ⟨.produce, hmove, trivial, trivial, rfl⟩
  | consume c => exact ⟨.consume c, hmove, trivial, trivial, rfl⟩
  | spurious t => exact absurd ⟨t, rfl⟩ hne
  | print c => exact ⟨.print c, hmove, trivial, trivial, rfl⟩
  | enter t now grown wake =>
      have hrunning : (d.system.threads t).running ≠ none := hmove
      have hnormal := normalised_itemDue start (itemCount - 1)
      have hnonneg := nonneg_itemDue hclock (itemCount - 1)
      have hlate : ∀ wake, Late start (.enter t (itemDue start (itemCount - 1)) true wake) := by
        intro wake
        rw [Late]
      by_cases hwaiting : ∃ u, (d.system.threads u).waiting ≠ none
      · obtain ⟨u, hu⟩ := hwaiting
        exact ⟨.enter t (itemDue start (itemCount - 1)) true (some u), hrunning,
          ⟨hu, hnormal, rfl, hnonneg⟩, hlate (some u), rfl⟩
      · have hnobody : ∀ u, (d.system.threads u).waiting = none := fun u =>
          not_not.mp (not_exists.mp hwaiting u)
        exact ⟨.enter t (itemDue start (itemCount - 1)) true none, hrunning,
          ⟨hnobody, hnormal, rfl, hnonneg⟩, hlate none, rfl⟩

/-- From everywhere the program can come to rest. -/
theorem Going.exists_rest [Nonempty ι] {n : ℕ} (h : Going start k d) (hn : work d ≤ n) :
    ∃ later d', Along (demoStep start) (fun d e => Supported d e ∧ Late start e) d later ∧
      run (demoStep start) d later = some d' ∧ AtRest d' := by
  induction n generalizing d k with
  | zero =>
      by_cases hrest : AtRest d
      · exact ⟨[], d, along_nil d, rfl, hrest⟩
      obtain ⟨e, hmove, he, hlate, hzero⟩ := exists_late h.clock hrest
      obtain ⟨d', hstep⟩ := h.toInOrder.exists_step hmove he
      have hwork := work_step h.toInOrder he hlate hstep
      omega
  | succ n ih =>
      by_cases hrest : AtRest d
      · exact ⟨[], d, along_nil d, rfl, hrest⟩
      obtain ⟨e, hmove, he, hlate, hzero⟩ := exists_late h.clock hrest
      obtain ⟨d', hstep⟩ := h.toInOrder.exists_step hmove he
      have hwork := work_step h.toInOrder he hlate hstep
      obtain ⟨k', hgoing⟩ := h.step he hstep
      obtain ⟨later, d'', halong, hrun, hatRest⟩ := ih hgoing (by omega)
      exact ⟨e :: later, d'', (along_cons_of_eq_some hstep).mpr ⟨⟨he, hlate⟩, halong⟩,
        run_cons_eq_some.mpr ⟨d', hstep, hrun⟩, hatRest⟩

end Going

/-- In every state that the program reaches, each event that can happen has a result, and
once the last item is due, only so many events are left, apart from wake-ups without a
signal. The program can then come to rest, and at rest all numbers have been printed, each
once, and the queue is empty. -/
theorem run_rests [Fintype ι] [Nonempty ι] (start : OscTime) (queue : OscMsgQueue ℕ)
    (events : List (DemoEvent ι)) (d : Demo ι) (hclock : ClockFits start)
    (hinit : demoQueue true = some queue)
    (hsupported : Along (demoStep start) Supported (.start queue) events)
    (hrun : run (demoStep start) (.start queue) events = some d) :
    (∀ e, CanMove d e → Supported d e → ∃ d', demoStep start d e = some d') ∧
      (∀ later d', Along (demoStep start) (fun d e => Supported d e ∧ Late start e) d later →
        run (demoStep start) d later = some d' →
        later.length ≤ 6 * itemCount + 3 * Fintype.card ι + (later.map needless).sum) ∧
      (∃ later d', Along (demoStep start) (fun d e => Supported d e ∧ Late start e) d later ∧
        run (demoStep start) d later = some d' ∧ AtRest d') ∧
      (AtRest d → d.printed.Perm (List.range itemCount) ∧ d.system.queue.cItems = 0) := by
  have hzero : Going start 0 (.start queue : Demo ι) := by
    refine ⟨inOrder_start hclock hinit, fun habs => absurd ?_ habs⟩
    cases hinit
    rfl
  obtain ⟨k, h⟩ := invariant_run (fun d => ∃ k, Going start k d)
    (fun d e d' ⟨k, hd⟩ he hstep => hd.step he hstep) ⟨0, hzero⟩ hsupported hrun
  refine ⟨fun e hmove he => h.toInOrder.exists_step hmove he, fun later d' halong hlater => ?_,
    h.exists_rest (Nat.le_refl _), h.printed⟩
  have hlength := length_add_le (fun d => ∃ k, InOrder start k d) work needless
    (fun d e d' ⟨k, hd⟩ he hstep =>
      ⟨hd.step he.1 hstep, work_step hd he.1 he.2 hstep⟩) ⟨k, h.toInOrder⟩ halong hlater
  have hwork := h.toSupply.work_le
  omega

/-- Two consumers park before the producer comes; it adds two items and wakes one of them
only, which takes both. -/
def oneForBoth : List (DemoEvent Bool) :=
  [.consume true, .enter (.consumer true) ⟨0, 0⟩ true none, .consume false,
    .enter (.consumer false) ⟨0, 0⟩ true (some (.consumer true)), .produce,
    .enter .producer ⟨0, 0⟩ true (some (.consumer true)), .produce,
    .enter .producer ⟨0, 0⟩ true (some (.consumer false)),
    .enter (.consumer true) ⟨9, 0⟩ true (some (.consumer false)), .print true, .consume true,
    .enter (.consumer true) ⟨9, 0⟩ true (some (.consumer false)), .print true]

theorem run_rests_oneForBoth : ∃ d : Demo Bool,
    run (demoStep ⟨0, 0⟩) (.start ⟨some fun _ => none, 32, 0, 1⟩) oneForBoth = some d ∧
      d.printed = [0, 1] ∧ ∃ later d',
        Along (demoStep ⟨0, 0⟩) (fun d e => Supported d e ∧ Late ⟨0, 0⟩ e) d later ∧
          run (demoStep ⟨0, 0⟩) d later = some d' ∧ AtRest d' := by
  obtain ⟨d, hrun, hprinted⟩ : ∃ d : Demo Bool,
      run (demoStep ⟨0, 0⟩) (.start ⟨some fun _ => none, 32, 0, 1⟩) oneForBoth = some d ∧
        d.printed = [0, 1] := ⟨_, rfl, rfl⟩
  obtain ⟨-, -, hrest, -⟩ := run_rests ⟨0, 0⟩ _ oneForBoth d (by decide) rfl (by decide) hrun
  exact ⟨d, hrun, hprinted, hrest⟩

end LittleOscar.QueueDemo
