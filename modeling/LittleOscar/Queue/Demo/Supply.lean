import LittleOscar.Queue.Demo.Definitions

/-!
# The items in the queue

One thread adds the items, each due later than the one before. So the queue always holds a
range of numbers, and the next one to leave is the least of them: however the threads
interleave, `osc_msg_queue_take_due_s` returns the items in the order of their numbers.
`Supply` says how far the producer and the consumers have come, and `Supply.step` that it
stays so, whatever happens.
-/

namespace LittleOscar.QueueDemo

open Machine Transition

variable {ι : Type} [DecidableEq ι] {start : OscTime}

/-! ## The times of the items -/

theorem normalised_wholeSecond (sec : Int64) : OscTime.Normalised ⟨sec, 0⟩ :=
  ⟨le_rfl, show (0 : Int) < 1000000 by decide⟩

theorem nextTime_spec {now now' : OscTime} (hnormal : now.Normalised)
    (hmod : now.tvUsec.toInt % 100000 = 0) (hnext : nextTime now = some now') :
    now'.Normalised ∧ now'.tvUsec.toInt % 100000 = 0 ∧ now'.micros = now.micros + 100000 := by
  simp only [OscTime.Normalised] at hnormal
  obtain ⟨usec, husec, hnext⟩ := Option.bind_eq_some_iff.mp hnext
  rw [toLong_eq_some] at husec
  split at hnext
  next hfull =>
    obtain ⟨sec, hsec, hnow⟩ := Option.bind_eq_some_iff.mp hnext
    rw [toLong_eq_some] at hsec
    cases hnow
    have hmillion : usec.toInt = 1000000 := by
      rw [hfull]
      rfl
    simp only [OscTime.Normalised, OscTime.micros, Int64.toInt_zero]
    omega
  next hfree =>
    cases hnext
    have hmillion : usec.toInt ≠ 1000000 := fun habs => hfree (Int64.toInt_inj.mp habs)
    simp only [OscTime.Normalised, OscTime.micros]
    omega

/-- Every item is due a tenth of a second after the one before it. -/
theorem produceTime_spec {i : ℕ} {now : OscTime} (h : produceTime start i = some now) :
    now.Normalised ∧ now.tvUsec.toInt % 100000 = 0 ∧
      now.micros = (start.tvSec.toInt + 1) * 1000000 + (i + 1) * 100000 := by
  induction i generalizing now with
  | zero =>
      obtain ⟨sec, hsec, hnext⟩ := Option.bind_eq_some_iff.mp h
      rw [toLong_eq_some] at hsec
      obtain ⟨hnormal, hmod, hmicros⟩ := nextTime_spec (normalised_wholeSecond sec) rfl hnext
      refine ⟨hnormal, hmod, hmicros.trans ?_⟩
      simp only [OscTime.micros, Int64.toInt_zero]
      omega
  | succ i ih =>
      obtain ⟨before, hbefore, hnext⟩ := Option.bind_eq_some_iff.mp h
      obtain ⟨hnormal, hmod, hmicros⟩ := ih hbefore
      obtain ⟨hnormal', hmod', hmicros'⟩ := nextTime_spec hnormal hmod hnext
      refine ⟨hnormal', hmod', hmicros'.trans ?_⟩
      rw [hmicros, Nat.cast_succ]
      omega

theorem exists_nextTime {now : OscTime} (hnormal : now.Normalised)
    (hfits : now.micros + 100000 < 9223372036854775808000000) :
    ∃ now', nextTime now = some now' := by
  simp only [OscTime.Normalised] at hnormal
  simp only [OscTime.micros] at hfits
  have hlow := (fitsLong_toInt now.tvSec).1
  obtain ⟨usec, husec, husec_eq⟩ :=
    exists_toLong (show FitsLong (now.tvUsec.toInt + 100000) by unfold FitsLong; omega)
  rw [nextTime, husec]
  simp only [Option.bind_eq_bind, Option.bind_some]
  split
  next hfull =>
    have hmillion : usec.toInt = 1000000 := by
      rw [hfull]
      rfl
    obtain ⟨sec, hsec, -⟩ :=
      exists_toLong (show FitsLong (now.tvSec.toInt + 1) by unfold FitsLong; omega)
    rw [hsec]
    exact ⟨_, rfl⟩
  next => exact ⟨_, rfl⟩

/-- The times of all items can be computed. -/
theorem exists_produceTime (h : ClockFits start) {i : ℕ} (hi : i < itemCount) :
    ∃ now, produceTime start i = some now := by
  obtain ⟨hlow, hhigh⟩ := h
  induction i with
  | zero =>
      obtain ⟨sec, hsec, hsec_eq⟩ :=
        exists_toLong (show FitsLong (start.tvSec.toInt + 1) by unfold FitsLong; omega)
      rw [produceTime, hsec, Option.bind_eq_bind, Option.bind_some]
      refine exists_nextTime (normalised_wholeSecond sec) ?_
      simp only [OscTime.micros, hsec_eq, Int64.toInt_zero]
      omega
  | succ i ih =>
      obtain ⟨now, hnow⟩ := ih (Nat.lt_of_succ_lt hi)
      obtain ⟨hnormal, -, hmicros⟩ := produceTime_spec hnow
      rw [produceTime, hnow, Option.bind_eq_bind, Option.bind_some]
      refine exists_nextTime hnormal ?_
      simp only [itemCount] at hi
      omega

theorem normalised_itemDue (start : OscTime) (i : ℕ) : (itemDue start i).Normalised := by
  rw [itemDue]
  cases h : produceTime start i with
  | none => decide
  | some now => exact (produceTime_spec h).1

theorem micros_itemDue (h : ClockFits start) {i : ℕ} (hi : i < itemCount) :
    (itemDue start i).micros = (start.tvSec.toInt + 1) * 1000000 + (i + 1) * 100000 := by
  obtain ⟨now, hnow⟩ := exists_produceTime h hi
  rw [itemDue, hnow, Option.getD_some]
  exact (produceTime_spec hnow).2.2

theorem nonneg_itemDue (h : ClockFits start) (i : ℕ) : 0 ≤ (itemDue start i).tvSec.toInt := by
  obtain ⟨hlow, -⟩ := h
  rw [itemDue]
  cases hnow : produceTime start i with
  | none => exact le_rfl
  | some now =>
      obtain ⟨hnormal, -, hmicros⟩ := produceTime_spec hnow
      simp only [OscTime.Normalised, OscTime.micros] at hnormal hmicros
      rw [Option.getD_some]
      omega

/-- The items are due in the order of their numbers. -/
theorem le_of_itemDue_le (h : ClockFits start) {i j : ℕ} (hi : i < itemCount) (hj : j < itemCount)
    (hle : (itemDue start i).key ≤ (itemDue start j).key) : i ≤ j := by
  have hmicros := (normalised_itemDue start i).micros_le (normalised_itemDue start j) hle
  rw [micros_itemDue h hi, micros_itemDue h hj] at hmicros
  omega

/-! ## What an event can do -/

variable {d d' : Demo ι} {e : DemoEvent ι}

/-- The program behind a stretch `done` of the call `op`. -/
def Demo.behind (d : Demo ι) (t : DemoThread ι) (now : OscTime) (op : QueueOp ℕ)
    (wake : Option (DemoThread ι)) (done : Stretch ℕ) : Demo ι :=
  { d with
    system := {
      queue := done.queue
      threads := Function.update
        (if done.signal then wakeUp d.system.threads wake else d.system.threads) t
        (done.ending.next op)
      accepted := done.ending.accept d.system.accepted
      log := done.ending.enter op now d.system.queue.queued d.system.log }
    taken := hold d.taken t done.ending }

theorem demoStep_cases (h : demoStep start d e = some d') :
    (e = .produce ∧ d.filled < itemCount ∧ d.system.threads .producer = .idle ∧
      d' = { d with
        system := { d.system with
          threads := Function.update d.system.threads .producer (.ready (.add d.filled)) }
        filled := d.filled + 1 }) ∨
    (∃ c, e = .consume c ∧ d.taken c = none ∧ d.system.threads (.consumer c) = .idle ∧
      d' = { d with
        system := { d.system with
          threads := Function.update d.system.threads (.consumer c)
            (.ready (.takeDue none)) } }) ∨
    (∃ t op, e = .spurious t ∧ d.system.threads t = .parked op ∧
      d' = { d with
        system := { d.system with
          threads := Function.update d.system.threads t (.woken op) } }) ∨
    (∃ c value, e = .print c ∧ d.taken c = some (some value) ∧
      d' = { d with
        taken := Function.update d.taken c none
        printed := d.printed ++ [value] }) ∨
    (∃ t now grown wake op done, e = .enter t now grown wake ∧
      (d.system.threads t).running = some op ∧
      stretch (itemDue start) grown now d.system.queue op = some done ∧
      d' = d.behind t now op wake done) := by
  cases e with
  | produce =>
      rw [demoStep] at h
      split at h
      · next hlt =>
          obtain ⟨-, -, h⟩ := Option.bind_eq_some_iff.mp h
          obtain ⟨system, hsystem, h⟩ := Option.bind_eq_some_iff.mp h
          cases h
          rcases systemStep_cases hsystem with ⟨t, op, heq, hidle, rfl⟩ | ⟨t, op, habs, -⟩ |
            ⟨t, now, grown, wake, op, done, habs, -⟩
          · cases heq
            exact Or.inl ⟨rfl, hlt, hidle, rfl⟩
          · cases habs
          · cases habs
      · cases h
  | consume c =>
      rw [demoStep] at h
      split at h
      · next hnone =>
          obtain ⟨system, hsystem, rfl⟩ := Option.map_eq_some_iff.mp h
          rcases systemStep_cases hsystem with ⟨t, op, heq, hidle, rfl⟩ | ⟨t, op, habs, -⟩ |
            ⟨t, now, grown, wake, op, done, habs, -⟩
          · cases heq
            exact Or.inr (Or.inl ⟨c, rfl, hnone, hidle, rfl⟩)
          · cases habs
          · cases habs
      · cases h
  | enter t now grown wake =>
      obtain ⟨op, hrunning, h⟩ := Option.bind_eq_some_iff.mp h
      obtain ⟨done, hdone, h⟩ := Option.bind_eq_some_iff.mp h
      obtain ⟨system, hsystem, h⟩ := Option.bind_eq_some_iff.mp h
      cases h
      rw [systemStep, hrunning, Option.bind_eq_bind, Option.bind_some, hdone,
        Option.bind_eq_bind, Option.bind_some] at hsystem
      cases hsystem
      exact Or.inr (Or.inr (Or.inr (Or.inr
        ⟨t, now, grown, wake, op, done, rfl, hrunning, hdone, rfl⟩)))
  | spurious t =>
      obtain ⟨system, hsystem, rfl⟩ := Option.map_eq_some_iff.mp h
      rcases systemStep_cases hsystem with ⟨t, op, habs, -⟩ | ⟨t, op, heq, hparked, rfl⟩ |
        ⟨t, now, grown, wake, op, done, habs, -⟩
      · cases habs
      · cases heq
        exact Or.inr (Or.inr (Or.inl ⟨_, op, rfl, hparked, rfl⟩))
      · cases habs
  | print c =>
      obtain ⟨msg, hmsg, h⟩ := Option.bind_eq_some_iff.mp h
      obtain ⟨value, rfl, h⟩ := Option.bind_eq_some_iff.mp h
      cases h
      exact Or.inr (Or.inr (Or.inr (Or.inl ⟨c, value, rfl, hmsg, rfl⟩)))

section Stretch

variable {queue : OscMsgQueue ℕ} {grown : Bool} {now : OscTime} {done : Stretch ℕ}
  {due : ℕ → OscTime} {threshold : Option OscTime}

/-- A consumer waits at an empty queue, sleeps before an item that is not due, or takes the
item. -/
theorem stretch_takeDue (h : stretch due grown now queue (.takeDue threshold) = some done) :
    (queue.cItems = 0 ∧ done = ⟨queue, false, .waits⟩) ∨
      (queue.cItems ≠ 0 ∧ done = ⟨queue, false, .sleeps⟩) ∨
      ∃ msg, done.signal = false ∧ done.ending = .gives (some msg) ∧
        queue.cItems = done.queue.cItems + 1 ∧ done.queue.flags = queue.flags := by
  rw [stretch, oscMsgQueueTakeDueS, oscMsgQueueSize] at h
  by_cases hempty : queue.cItems = 0
  · rw [if_pos hempty] at h
    exact Or.inl ⟨hempty, (Option.some.inj h).symm⟩
  · rw [if_neg hempty] at h
    obtain ⟨root, -, h⟩ := Option.bind_eq_some_iff.mp h
    obtain ⟨isDue, -, h⟩ := Option.bind_eq_some_iff.mp h
    split at h
    · obtain ⟨⟨out, queue'⟩, hremove, hdone⟩ := Option.bind_eq_some_iff.mp h
      cases hdone
      obtain ⟨hflags, -⟩ := block_of_oscMsgQueueRemove hremove
      rcases cItems_of_oscMsgQueueRemove hremove with ⟨habs, -⟩ | ⟨hout, hsize⟩
      · exact absurd habs hempty
      · obtain ⟨msg, rfl⟩ := Option.ne_none_iff_exists'.mp hout
        exact Or.inr (Or.inr ⟨msg, rfl, rfl, hsize, hflags⟩)
    · exact Or.inr (Or.inl ⟨hempty, (Option.some.inj h).symm⟩)

/-- A producer whose queue may grow gets rid of its item. -/
theorem stretch_add_of_growable {msg : ℕ} (hgrow : Growable queue.flags)
    (h : stretch due true now queue (.add msg) = some done) :
    done.ending = .added msg true ∧ done.signal = decide (queue.cItems = 0) ∧
      done.queue.cItems = queue.cItems + 1 ∧ done.queue.flags = queue.flags := by
  have hflags : done.queue.flags = queue.flags := by
    obtain ⟨⟨ret, queue'⟩, hadd, hdone⟩ := Option.bind_eq_some_iff.mp h
    cases hdone
    exact (block_of_oscMsgQueueAdd hadd).1
  rcases stretch_add h with ⟨-, hending, hsignal, hsize⟩ | ⟨habs, -⟩
  · exact ⟨hending, hsignal, hsize, hflags⟩
  · exact absurd (Or.inr ⟨hgrow, rfl⟩) habs

end Stretch

/-! ## The items in the queue -/

/-- The first `k` items were added, and the others are still to be. The items that were
returned are the first ones, in order. -/
structure Supply (start : OscTime) (k : ℕ) (d : Demo ι) : Prop where
  clock : ClockFits start
  exchanges : Exchanges (itemDue start) d.system
  growable : Growable d.system.queue.flags
  accepted : d.system.accepted = Multiset.range k
  returned : d.system.log.map Return.out = (List.range d.system.log.length).reverse.map some
  size : d.system.log.length + d.system.queue.cItems = k
  producer : (d.system.threads .producer = .idle ∧ d.filled = k) ∨
    (d.system.threads .producer = .ready (.add k) ∧ d.filled = k + 1)
  filled : d.filled ≤ itemCount
  consumers : ∀ c, ∀ op ∈ (d.system.threads (.consumer c)).op, op = .takeDue none

omit [DecidableEq ι] in
/-- The queue holds the items that were added and not returned. -/
theorem Supply.queued_eq {k : ℕ} (h : Supply start k d) :
    d.system.queue.queued =
      (Multiset.range d.system.queue.cItems).map (d.system.log.length + ·) := by
  have hout : d.system.log.filterMap Return.out = (List.range d.system.log.length).reverse := by
    calc d.system.log.filterMap Return.out = (d.system.log.map Return.out).filterMap id := by
          rw [List.filterMap_map, Function.id_comp]
      _ = (List.range d.system.log.length).reverse := by
          rw [h.returned, List.filterMap_map]
          exact List.filterMap_some
  have haccounted := h.exchanges.accounted
  rw [System.returned, hout, h.accepted, ← h.size, Multiset.range_add, Multiset.coe_reverse]
    at haccounted
  exact Multiset.add_right_inj.mp haccounted

omit [DecidableEq ι] in
theorem Supply.le_itemCount {k : ℕ} (h : Supply start k d) : k ≤ itemCount := by
  have hfilled := h.filled
  rcases h.producer with ⟨-, heq⟩ | ⟨-, heq⟩
  · omega
  · omega

omit [DecidableEq ι] in
/-- The first message of the queue is the next number. -/
theorem Supply.eq_next {k : ℕ} (h : Supply start k d) {out : ℕ}
    (hout : out ∈ d.system.queue.queued)
    (hle : ∀ other ∈ d.system.queue.queued, (itemDue start out).key ≤ (itemDue start other).key) :
    out = d.system.log.length := by
  rw [h.queued_eq] at hout hle
  obtain ⟨j, hj, rfl⟩ := Multiset.mem_map.mp hout
  have hpos := Multiset.mem_range.mp hj
  have hfirst := hle (d.system.log.length + 0)
    (Multiset.mem_map.mpr ⟨0, Multiset.mem_range.mpr (by omega), rfl⟩)
  have hsize := h.size
  have hle := h.le_itemCount
  have hzero := le_of_itemDue_le h.clock (by omega) (by omega) hfirst
  omega

theorem exchanges_step (h : Exchanges (itemDue start) d.system) (he : Supported d e)
    (hstep : demoStep start d e = some d') : Exchanges (itemDue start) d'.system := by
  have hnormal := normalised_itemDue start
  cases e with
  | produce =>
      rw [demoStep] at hstep
      split at hstep
      · obtain ⟨-, -, hstep⟩ := Option.bind_eq_some_iff.mp hstep
        obtain ⟨system, hsystem, hstep⟩ := Option.bind_eq_some_iff.mp hstep
        cases hstep
        have hsane : QueueOp.Sane (.add d.filled) := fun threshold habs => by cases habs
        exact h.step (e := .call .producer (.add d.filled)) hnormal hsane hsystem
      · cases hstep
  | consume c =>
      rw [demoStep] at hstep
      split at hstep
      · obtain ⟨system, hsystem, rfl⟩ := Option.map_eq_some_iff.mp hstep
        have hsane : QueueOp.Sane (μ := ℕ) (.takeDue none) := by decide
        exact h.step (e := .call (.consumer c) (.takeDue none)) hnormal hsane hsystem
      · cases hstep
  | enter t now grown wake =>
      obtain ⟨op, -, hstep⟩ := Option.bind_eq_some_iff.mp hstep
      obtain ⟨done, -, hstep⟩ := Option.bind_eq_some_iff.mp hstep
      obtain ⟨system, hsystem, hstep⟩ := Option.bind_eq_some_iff.mp hstep
      cases hstep
      exact h.step (e := .enter t now grown wake) hnormal ⟨he.2.1, he.2.2.1⟩ hsystem
  | spurious t =>
      obtain ⟨system, hsystem, rfl⟩ := Option.map_eq_some_iff.mp hstep
      exact h.step (e := .spurious t) hnormal trivial hsystem
  | print c =>
      obtain ⟨msg, -, hstep⟩ := Option.bind_eq_some_iff.mp hstep
      obtain ⟨value, -, hstep⟩ := Option.bind_eq_some_iff.mp hstep
      cases hstep
      exact h

/-- A thread that changes nothing but its own state is still one of the program. -/
theorem consumers_update {threads : DemoThread ι → ThreadState ℕ}
    (h : ∀ c, ∀ op ∈ (threads (.consumer c)).op, op = .takeDue none) (t : DemoThread ι)
    (thread : ThreadState ℕ) (hthread : t ≠ .producer → ∀ op ∈ thread.op, op = .takeDue none) :
    ∀ c, ∀ op ∈ (Function.update threads t thread (.consumer c)).op, op = .takeDue none := by
  intro c op hop
  by_cases ht : DemoThread.consumer c = t
  · subst ht
    rw [Function.update_self] at hop
    exact hthread (by simp) op hop
  · rw [Function.update_of_ne ht] at hop
    exact h c op hop

/-- A signal wakes a consumer if it wakes anybody. -/
theorem consumers_wakeUp {threads : DemoThread ι → ThreadState ℕ}
    (h : ∀ c, ∀ op ∈ (threads (.consumer c)).op, op = .takeDue none)
    (wake : Option (DemoThread ι)) :
    ∀ c, ∀ op ∈ (wakeUp threads wake (.consumer c)).op, op = .takeDue none := by
  cases wake with
  | none => exact h
  | some u =>
      rw [wakeUp]
      cases hwaiting : (threads u).waiting with
      | none => exact h
      | some op =>
          have hparked := ThreadState.eq_parked_of_waiting hwaiting
          refine consumers_update h u (.woken op) fun hu op' hop => ?_
          cases u with
          | producer => exact absurd rfl hu
          | consumer c =>
              obtain rfl := Option.some.inj hop
              exact h c op (by rw [hparked]; rfl)

theorem producer_wakeUp {threads : DemoThread ι → ThreadState ℕ}
    (h : ∀ op, threads .producer ≠ .parked op) (wake : Option (DemoThread ι)) :
    wakeUp threads wake .producer = threads .producer := by
  cases wake with
  | none => rfl
  | some u =>
      rw [wakeUp]
      cases hwaiting : (threads u).waiting with
      | none => rfl
      | some op =>
          have hparked := ThreadState.eq_parked_of_waiting hwaiting
          simp only
          rw [Function.update_of_ne]
          rintro rfl
          exact h op hparked

omit [DecidableEq ι] in
/-- The producer never waits. -/
theorem Supply.producer_ne {k : ℕ} (h : Supply start k d) (op : QueueOp ℕ) :
    d.system.threads .producer ≠ .parked op := by
  rcases h.producer with ⟨hidle, -⟩ | ⟨hready, -⟩
  · rw [hidle]
    exact fun habs => by cases habs
  · rw [hready]
    exact fun habs => by cases habs

theorem Supply.consumers_signal {k : ℕ} (h : Supply start k d) (signal : Bool)
    (wake : Option (DemoThread ι)) :
    ∀ c, ∀ op ∈ ((if signal then wakeUp d.system.threads wake else d.system.threads)
      (.consumer c)).op, op = .takeDue none := by
  cases signal with
  | false => exact h.consumers
  | true => exact consumers_wakeUp h.consumers wake

/-- The producer has put an item into the queue. -/
theorem Supply.added {k : ℕ} (h : Supply start k d) {now : OscTime} {op : QueueOp ℕ}
    {wake : Option (DemoThread ι)} {done : Stretch ℕ}
    (hrunning : (d.system.threads .producer).running = some op)
    (hdone : stretch (itemDue start) true now d.system.queue op = some done)
    (hexchanges : Exchanges (itemDue start) (d.behind .producer now op wake done).system) :
    Supply start (k + 1) (d.behind .producer now op wake done) := by
  rcases h.producer with ⟨hidle, -⟩ | ⟨hready, hfilled⟩
  · rw [hidle] at hrunning
    cases hrunning
  rw [hready] at hrunning
  obtain rfl := Option.some.inj hrunning
  obtain ⟨hending, -, hsize, hflags⟩ := stretch_add_of_growable h.growable hdone
  have hsum := h.size
  refine ⟨h.clock, hexchanges, ?_, ?_, ?_, ?_, Or.inl ⟨?_, hfilled⟩, h.filled, ?_⟩
  · rw [Demo.behind, hflags]
    exact h.growable
  · rw [Demo.behind, hending]
    simp only [Ending.accept]
    rw [h.accepted, Multiset.range_succ]
  · rw [Demo.behind, hending]
    exact h.returned
  · rw [Demo.behind, hending]
    simp only [Ending.enter]
    omega
  · rw [Demo.behind, hending]
    simp only [Function.update_self, Ending.next]
  · exact consumers_update (h.consumers_signal done.signal wake) .producer
      (done.ending.next (.add k)) fun habs => absurd rfl habs

/-- A consumer has waited, or slept, or taken the next item. -/
theorem Supply.consumed {k : ℕ} (h : Supply start k d) {c : ι} {now : OscTime} {op : QueueOp ℕ}
    {wake : Option (DemoThread ι)} {done : Stretch ℕ} (hnow : now.Normalised)
    (hrunning : (d.system.threads (.consumer c)).running = some op)
    (hdone : stretch (itemDue start) true now d.system.queue op = some done)
    (hexchanges : Exchanges (itemDue start) (d.behind (.consumer c) now op wake done).system) :
    Supply start k (d.behind (.consumer c) now op wake done) := by
  have hop := h.consumers c op (ThreadState.op_of_running hrunning)
  subst hop
  have hproducer : (d.behind (.consumer c) now (.takeDue none) wake done).system.threads
      .producer = d.system.threads .producer := by
    rw [Demo.behind]
    simp only
    rw [Function.update_of_ne (by simp)]
    split
    · exact producer_wakeUp h.producer_ne wake
    · rfl
  have hconsumers : ∀ c', ∀ op ∈ ((d.behind (.consumer c) now (.takeDue none) wake
      done).system.threads (.consumer c')).op, op = .takeDue none := by
    refine consumers_update (h.consumers_signal done.signal wake) (.consumer c)
      (done.ending.next (.takeDue none)) fun _ op hop => ?_
    rcases stretch_takeDue hdone with ⟨-, rfl⟩ | ⟨-, rfl⟩ | ⟨msg, -, hending, -⟩
    · exact (Option.some.inj hop).symm
    · exact (Option.some.inj hop).symm
    · rw [hending] at hop
      cases hop
  rcases stretch_takeDue hdone with ⟨-, rfl⟩ | ⟨-, rfl⟩ | ⟨msg, -, hending, hsize, hflags⟩
  · exact ⟨h.clock, hexchanges, h.growable, h.accepted, h.returned, h.size, hproducer ▸ h.producer,
      h.filled, hconsumers⟩
  · exact ⟨h.clock, hexchanges, h.growable, h.accepted, h.returned, h.size, hproducer ▸ h.producer,
      h.filled, hconsumers⟩
  · have hnext : msg = d.system.log.length := by
      obtain ⟨cells, hvalid⟩ := h.exchanges.valid
      have hsane : QueueOp.Sane (μ := ℕ) (.takeDue none) := by decide
      rcases stretch_spec hvalid (normalised_itemDue start) hnow hsane with
        ⟨-, hnone⟩ | ⟨-, hnone⟩ | ⟨-, done', hdone', hsafe⟩
      · cases hnone.symm.trans hdone
      · cases hnone.symm.trans hdone
      · obtain rfl := Option.some.inj (hdone'.symm.trans hdone)
        obtain ⟨hmem, hle⟩ := (hsafe.safe _ hending).least msg rfl
        exact h.eq_next hmem hle
    have hsum := h.size
    refine ⟨h.clock, hexchanges, ?_, ?_, ?_, ?_, hproducer ▸ h.producer, h.filled, hconsumers⟩
    · rw [Demo.behind, hflags]
      exact h.growable
    · rw [Demo.behind, hending]
      exact h.accepted
    · rw [Demo.behind, hending]
      simp only [Ending.enter, List.map_cons, List.length_cons, h.returned, hnext,
        List.range_succ, List.reverse_append, List.reverse_singleton, List.singleton_append]
    · rw [Demo.behind, hending]
      simp only [Ending.enter, List.length_cons]
      omega

/-- Whatever happens, the queue holds a range of numbers. -/
theorem Supply.step {k : ℕ} (h : Supply start k d) (he : Supported d e)
    (hstep : demoStep start d e = some d') : ∃ k', Supply start k' d' := by
  have hexchanges := exchanges_step h.exchanges he hstep
  rcases demoStep_cases hstep with ⟨rfl, hlt, hidle, rfl⟩ | ⟨c, rfl, hnone, hidle, rfl⟩ |
    ⟨t, op, rfl, hparked, rfl⟩ | ⟨c, value, rfl, htaken, rfl⟩ |
    ⟨t, now, grown, wake, op, done, rfl, hrunning, hdone, rfl⟩
  · obtain rfl : d.filled = k := by
      rcases h.producer with ⟨-, hfilled⟩ | ⟨habs, -⟩
      · exact hfilled
      · cases hidle.symm.trans habs
    refine ⟨d.filled, h.clock, hexchanges, h.growable, h.accepted, h.returned, h.size,
      Or.inr ⟨?_, rfl⟩, hlt, consumers_update h.consumers .producer (.ready (.add d.filled)) fun habs =>
        absurd rfl habs⟩
    simp only [Function.update_self]
  · refine ⟨k, h.clock, hexchanges, h.growable, h.accepted, h.returned, h.size, ?_, h.filled,
      consumers_update h.consumers (.consumer c) (.ready (.takeDue none)) fun _ op hop =>
        (Option.some.inj hop).symm⟩
    simp only
    rw [Function.update_of_ne (by simp)]
    exact h.producer
  · refine ⟨k, h.clock, hexchanges, h.growable, h.accepted, h.returned, h.size, ?_, h.filled, ?_⟩
    · simp only
      rw [Function.update_of_ne]
      · exact h.producer
      · rintro rfl
        exact h.producer_ne op hparked
    · refine consumers_update h.consumers t (.woken op) fun ht op' hop => ?_
      cases t with
      | producer => exact absurd rfl ht
      | consumer c =>
          obtain rfl := Option.some.inj hop
          exact h.consumers c op (by rw [hparked]; rfl)
  · exact ⟨k, h.clock, hexchanges, h.growable, h.accepted, h.returned, h.size, h.producer, h.filled,
      h.consumers⟩
  · obtain ⟨-, hnow, rfl, -⟩ := he
    cases t with
    | producer => exact ⟨k + 1, h.added hrunning hdone hexchanges⟩
    | consumer c => exact ⟨k, h.consumed hnow hrunning hdone hexchanges⟩

end LittleOscar.QueueDemo
