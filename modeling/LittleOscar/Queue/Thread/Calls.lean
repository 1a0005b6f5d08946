import LittleOscar.Queue.Size
import LittleOscar.Queue.Thread.Definitions

/-!
# What one step can do

`systemStep_cases` lists what an event can do to the system, and `stretch_add` and
`stretch_take` what a producer and a consumer do while they hold the mutex. The calls in
progress come from the events: `Calls.step` keeps what holds of all of them.
-/

namespace LittleOscar

variable {T μ : Type} {due : μ → OscTime}

namespace ThreadState

variable {thread : ThreadState μ} {op : QueueOp μ}

theorem eq_parked_of_waiting (h : thread.waiting = some op) : thread = parked op := by
  cases thread with
  | idle => cases h
  | ready op' => cases h
  | parked op' => exact congrArg parked (Option.some.inj h)
  | woken op' => cases h

theorem op_of_running (h : thread.running = some op) : thread.op = some op := by
  cases thread with
  | idle => cases h
  | ready op' => exact h
  | parked op' => cases h
  | woken op' => exact h

end ThreadState

/-! ## The stretches of producers and consumers -/

section Stretch

variable {queue : OscMsgQueue μ} {grown : Bool} {now : OscTime} {done : Stretch μ}

/-- A producer signals when it has put its message into an empty queue. -/
theorem stretch_add {msg : μ} (h : stretch due grown now queue (.add msg) = some done) :
    (queue.HasRoom grown ∧ done.ending = .added msg true ∧
        done.signal = decide (queue.cItems = 0) ∧ done.queue.cItems = queue.cItems + 1) ∨
      (¬ queue.HasRoom grown ∧ done.ending = .added msg false ∧ done.signal = false ∧
        done.queue.cItems = queue.cItems) := by
  obtain ⟨⟨ret, queue'⟩, hadd, hdone⟩ := Option.bind_eq_some_iff.mp h
  cases hdone
  rcases cItems_of_oscMsgQueueAdd hadd with ⟨hroom, rfl, hsize⟩ | ⟨hroom, rfl, hsize⟩
  · exact Or.inl ⟨hroom, rfl, rfl, hsize⟩
  · exact Or.inr ⟨hroom, rfl, rfl, hsize⟩

theorem next_of_stretch_add {msg : μ} (h : stretch due grown now queue (.add msg) = some done) :
    done.ending.next (.add msg) = .idle := by
  rcases stretch_add h with ⟨-, hending, -⟩ | ⟨-, hending, -⟩
  · rw [hending]
    rfl
  · rw [hending]
    rfl

/-- A consumer waits at an empty queue and takes a message from any other. -/
theorem stretch_take (h : stretch due grown now queue .take = some done) :
    (queue.cItems = 0 ∧ done = ⟨queue, false, .waits⟩) ∨
      (done.signal = false ∧ queue.cItems = done.queue.cItems + 1 ∧
        ∃ out, done.ending = .gives out) := by
  rw [stretch, oscMsgQueueTakeS, oscMsgQueueSize] at h
  by_cases hempty : queue.cItems = 0
  · rw [if_pos hempty] at h
    exact Or.inl ⟨hempty, (Option.some.inj h).symm⟩
  · rw [if_neg hempty] at h
    obtain ⟨⟨out, queue'⟩, hremove, hdone⟩ := Option.bind_eq_some_iff.mp h
    cases hdone
    rcases cItems_of_oscMsgQueueRemove hremove with ⟨habs, -⟩ | ⟨-, hsize⟩
    · exact absurd habs hempty
    · exact Or.inr ⟨rfl, hsize, out, rfl⟩

end Stretch

/-! ## The steps of the system -/

variable [DecidableEq T] {s s' : System T μ} {e : Event T μ}

/-- What an event can do. -/
theorem systemStep_cases (h : systemStep due s e = some s') :
    (∃ t op, e = .call t op ∧ s.threads t = .idle ∧
      s' = { s with threads := Function.update s.threads t (.ready op) }) ∨
    (∃ t op, e = .spurious t ∧ s.threads t = .parked op ∧
      s' = { s with threads := Function.update s.threads t (.woken op) }) ∨
    (∃ t now grown wake op done, e = .enter t now grown wake ∧
      (s.threads t).running = some op ∧ stretch due grown now s.queue op = some done ∧
      s' = {
        queue := done.queue
        threads := Function.update
          (if done.signal then wakeUp s.threads wake else s.threads) t (done.ending.next op)
        accepted := done.ending.accept s.accepted
        log := done.ending.enter op now s.queue.queued s.log }) := by
  cases e with
  | call t op =>
      rw [systemStep] at h
      split at h
      next hidle => exact Or.inl ⟨t, op, rfl, hidle, (Option.some.inj h).symm⟩
      next => cases h
  | spurious t =>
      obtain ⟨op, hwaiting, hstep⟩ := Option.bind_eq_some_iff.mp h
      exact Or.inr (Or.inl ⟨t, op, rfl, ThreadState.eq_parked_of_waiting hwaiting,
        (Option.some.inj hstep).symm⟩)
  | enter t now grown wake =>
      obtain ⟨op, hrunning, hstep⟩ := Option.bind_eq_some_iff.mp h
      obtain ⟨done, hdone, hstep⟩ := Option.bind_eq_some_iff.mp hstep
      exact Or.inr (Or.inr ⟨t, now, grown, wake, op, done, rfl, hrunning, hdone,
        (Option.some.inj hstep).symm⟩)

theorem wakeUp_some {threads : T → ThreadState μ} {u : T} {op : QueueOp μ}
    (h : threads u = .parked op) :
    wakeUp threads (some u) = Function.update threads u (.woken op) := by
  simp only [wakeUp, h, ThreadState.waiting]

/-- Every call in progress satisfies `P`. -/
def Calls (P : QueueOp μ → Prop) (threads : T → ThreadState μ) : Prop :=
  ∀ t, ∀ op ∈ (threads t).op, P op

namespace Calls

variable {P : QueueOp μ → Prop} {threads : T → ThreadState μ}

theorem update (h : Calls P threads) (t : T) {thread : ThreadState μ}
    (hthread : ∀ op ∈ thread.op, P op) : Calls P (Function.update threads t thread) := by
  intro u op hop
  by_cases hu : u = t
  · rw [hu, Function.update_self] at hop
    exact hthread op hop
  · rw [Function.update_of_ne hu] at hop
    exact h u op hop

theorem wakeUp (h : Calls P threads) (wake : Option T) :
    Calls P (LittleOscar.wakeUp threads wake) := by
  cases wake with
  | none => exact h
  | some u =>
      rw [LittleOscar.wakeUp]
      cases hwaiting : (threads u).waiting with
      | none => exact h
      | some op =>
          refine h.update u ?_
          intro op' hop
          obtain rfl := Option.some.inj hop
          exact h u op (by rw [ThreadState.eq_parked_of_waiting hwaiting]; rfl)

/-- A call in progress was made by an event. -/
theorem step (h : Calls P s.threads) (hcall : ∀ t op, e = .call t op → P op)
    (hstep : systemStep due s e = some s') : Calls P s'.threads := by
  rcases systemStep_cases hstep with ⟨t, op, rfl, -, rfl⟩ | ⟨t, op, rfl, hparked, rfl⟩ |
    ⟨t, now, grown, wake, op, done, rfl, hrunning, -, rfl⟩
  · refine h.update t ?_
    intro op' hop
    obtain rfl := Option.some.inj hop
    exact hcall t op rfl
  · refine h.update t ?_
    intro op' hop
    obtain rfl := Option.some.inj hop
    exact h t op (by rw [hparked]; rfl)
  · have hop := h t op (ThreadState.op_of_running hrunning)
    refine Calls.update ?_ t ?_
    · split
      · exact h.wakeUp wake
      · exact h
    · intro op' hop'
      cases hending : done.ending with
      | added msg ret => rw [hending] at hop'; cases hop'
      | gives out => rw [hending] at hop'; cases hop'
      | waits => rw [hending] at hop'; exact Option.some.inj hop' ▸ hop
      | sleeps => rw [hending] at hop'; exact Option.some.inj hop' ▸ hop

end Calls

end LittleOscar
