import LittleOscar.Queue.Due

/-!
# The block of the queue

`osc_msg_queue_add` asks for a block twice as large when its own is full. It assigns the
result of `realloc` before it looks at it, so that a growth that fails loses the block with
all queued messages (`intact_iff`), and twice nothing is nothing, so that a queue made for
no message cannot grow (`along_staysInBlock_iff`).
-/

namespace LittleOscar

open Machine Transition

variable {μ : Type} (due : μ → OscTime)

/-- What `n` calls of `osc_msg_queue_remove` return. -/
def removals : ℕ → OscMsgQueue μ → Option (List (Option μ))
  | 0, _ => some []
  | n + 1, queue => do
      let (out, queue) ← oscMsgQueueRemove due queue
      let outs ← removals n queue
      some (out :: outs)

/-- A call has left the queue as it was, and so no later removal can tell. -/
structure Intact (queue queue' : OscMsgQueue μ) : Prop where
  heap : queue'.heap = queue.heap
  nItems : queue'.nItems = queue.nItems
  cItems : queue'.cItems = queue.cItems
  queued : queue'.queued = queue.queued
  removals : ∀ n, removals due n queue' = removals due n queue

theorem Intact.refl (queue : OscMsgQueue μ) : Intact due queue queue :=
  ⟨rfl, rfl, rfl, rfl, fun _ => rfl⟩

variable {due}

/-- A call of `osc_msg_queue_add` that returns 0 leaves the queue as it was, unless it has
lost its block. -/
theorem intact_iff (queue queue' : OscMsgQueue μ) (msg : μ) (grown : Bool)
    (h : oscMsgQueueAdd due grown msg queue = some (false, queue')) :
    Intact due queue queue' ↔ ¬ Growable queue.flags ∨ queue.heap = none := by
  rcases cases_of_add h with ⟨-, habs, -⟩ | ⟨-, -, -, habs, -⟩ | ⟨-, hgrow, -, -, rfl⟩ |
    ⟨-, hgrow, -, rfl⟩
  · cases habs
  · cases habs
  · constructor
    · exact fun hintact => Or.inr hintact.heap.symm
    · rintro (habs | hnull)
      · exact absurd hgrow habs
      · have hsame : ({ queue with heap := none } : OscMsgQueue μ) = queue := by rw [← hnull]
        rw [hsame]
        exact .refl due queue
  · exact iff_of_true (.refl due queue') (Or.inl hgrow)

/-- A queue that may not grow refuses a second message and keeps the first. -/
theorem intact_refused : Intact dueAtSecond
    ⟨some (ascending id 1), 1, 1, 0⟩ ⟨some (ascending id 1), 1, 1, 0⟩ :=
  (intact_iff _ _ 1 true rfl).mpr (Or.inl (by decide))

/-- A growth that fails loses the message of a queue of one. -/
theorem lostBlock_not_intact : ∃ queue t queue',
    oscMsgQueueInit true 1 1 = some queue ∧
    run (historyStep dueAtSecond) ⟨queue, 0, 0⟩ [.add 7 true] = some t ∧
    oscMsgQueueAdd dueAtSecond false 8 t.queue = some (false, queue') ∧
    removals dueAtSecond 1 t.queue = some [some 7] ∧
    removals dueAtSecond 1 queue' = none ∧ ¬ Intact dueAtSecond t.queue queue' := by
  refine ⟨_, _, _, rfl, rfl, rfl, rfl, rfl, ?_⟩
  intro hintact
  cases hintact.heap

/-! ## Staying in the block -/

/-- What a call should do on a queue made for `capacity` messages. A call that reaches past
its block has no result. -/
def StaysInBlock (due : μ → OscTime) (capacity : Int) (t : History μ) : QueueCall μ → Prop
  | .add msg grown => ∃ ret queue', oscMsgQueueAdd due grown msg t.queue = some (ret, queue') ∧
      queue'.cItems ≤ queue'.nItems ∧ (Growable t.queue.flags → ret = true) ∧
      (¬ Growable t.queue.flags → (ret = false ↔ (t.queue.cItems : Int) = capacity))
  | .remove => ∃ out queue', oscMsgQueueRemove due t.queue = some (out, queue') ∧
      queue'.cItems ≤ queue'.nItems

/-- A call that adds finds cells in the block, or the block may not grow. -/
def HasCells (t : History μ) : QueueCall μ → Prop
  | .add _ _ => t.queue.nItems ≠ 0 ∨ ¬ Growable t.queue.flags
  | .remove => True

/-- The queue of a history is valid, or its block has no cell; a block that may not grow has
its first size. -/
structure Blocked (due : μ → OscTime) (capacity : Int) (t : History μ) : Prop where
  valid : (∃ cells, t.queue.Valid due cells) ∨ (t.queue.nItems = 0 ∧ t.queue.cItems = 0)
  fixed : ¬ Growable t.queue.flags → (t.queue.nItems : Int) = capacity

namespace Blocked

variable {capacity : Int} {t t' : History μ} {c : QueueCall μ}

theorem le (h : Blocked due capacity t) : t.queue.cItems ≤ t.queue.nItems := by
  rcases h.valid with ⟨cells, hvalid⟩ | ⟨hcells, hempty⟩
  · exact hvalid.le
  · omega

/-- An allocated block of no cells cannot be added to. -/
theorem add_of_noCells (msg : μ) (hcells : t.queue.nItems = 0) (hempty : t.queue.cItems = 0)
    (hgrow : Growable t.queue.flags) : oscMsgQueueAdd due true msg t.queue = none := by
  have hlarger : (reallocHeap t.queue).nItems = 0 := by
    show t.queue.nItems * 2 = 0
    omega
  rw [oscMsgQueueAdd, if_pos (by omega), if_pos hgrow, if_pos rfl, placeMsg]
  simp only [OscMsgQueue.store, hlarger, Nat.not_lt_zero, if_false, Option.bind_eq_bind]
  rfl

/-- An add whose allocation succeeds is safe exactly when it finds cells. -/
theorem staysInBlock_add_iff (h : Blocked due capacity t) (msg : μ) :
    StaysInBlock due capacity t (.add msg true) ↔ HasCells t (.add msg true) := by
  constructor
  · rintro ⟨ret, queue', hadd, -⟩
    by_cases hcells : t.queue.nItems = 0
    · have hempty : t.queue.cItems = 0 := by
        have hle := h.le
        omega
      refine Or.inr fun hgrow => ?_
      cases (add_of_noCells msg hcells hempty hgrow).symm.trans hadd
    · exact Or.inl hcells
  · intro hcells
    have hroom : (t.queue.HasRoom true ↔ ¬ (¬ Growable t.queue.flags ∧
        t.queue.cItems = t.queue.nItems)) := by
      rw [OscMsgQueue.HasRoom]
      tauto
    obtain ⟨ret, queue', hadd, hle⟩ : ∃ ret queue',
        oscMsgQueueAdd due true msg t.queue = some (ret, queue') ∧
          queue'.cItems ≤ queue'.nItems := by
      rcases h.valid with ⟨cells, hvalid⟩ | ⟨hzero, hempty⟩
      · obtain ⟨ret, queue', cells', hadd, hvalid', -⟩ := oscMsgQueueAdd_spec hvalid msg
        exact ⟨ret, queue', hadd, hvalid'.le⟩
      · have hgrow := hcells.resolve_left (not_not.mpr hzero)
        refine ⟨false, t.queue, ?_, by omega⟩
        rw [oscMsgQueueAdd, if_pos (by omega), if_neg hgrow]
    refine ⟨ret, queue', hadd, hle, ?_, ?_⟩
    · intro hgrow
      rcases cItems_of_oscMsgQueueAdd hadd with ⟨-, hret, -⟩ | ⟨habs, -⟩
      · exact hret
      · exact absurd (Or.inr ⟨hgrow, rfl⟩) habs
    · intro hgrow
      rw [← h.fixed hgrow, Int.ofNat_inj]
      rcases cItems_of_oscMsgQueueAdd hadd with ⟨hfree, hret, -⟩ | ⟨hfull, hret, -⟩
      · refine iff_of_false ?_ fun habs => hroom.mp hfree ⟨hgrow, habs⟩
        rw [hret]
        exact Bool.noConfusion
      · exact iff_of_true hret (not_not.mp (hroom.not.mp hfull)).2

/-- A removal that fits is safe. -/
theorem staysInBlock_remove (h : Blocked due capacity t) (hfit : CallFits t .remove) :
    StaysInBlock due capacity t .remove := by
  rcases h.valid with ⟨cells, hvalid⟩ | ⟨hzero, hempty⟩
  · rcases oscMsgQueueRemove_spec hvalid with
      ⟨-, habs⟩ | ⟨hempty, hremove⟩ | ⟨out, queue', cells', hremove, hvalid', -⟩
    · exact absurd hfit habs
    · exact ⟨none, t.queue, hremove, hvalid.le⟩
    · exact ⟨some out, queue', hremove, hvalid'.le⟩
  · exact ⟨none, t.queue, if_pos hempty, by omega⟩

/-- A call that fits is safe exactly when it finds cells. -/
theorem staysInBlock_iff (h : Blocked due capacity t) (hfit : CallFits t c) :
    StaysInBlock due capacity t c ↔ HasCells t c := by
  cases c with
  | add msg grown =>
      obtain rfl : grown = true := hfit
      exact h.staysInBlock_add_iff msg
  | remove => exact iff_of_true (h.staysInBlock_remove hfit) trivial

/-- A call that fits and finds cells keeps it so. -/
theorem step (h : Blocked due capacity t) (hfit : CallFits t c) (hcells : HasCells t c)
    (hstep : historyStep due t c = some t') : Blocked due capacity t' := by
  cases c with
  | add msg grown =>
      obtain rfl : grown = true := hfit
      obtain ⟨⟨ret, queue'⟩, hadd, hdone⟩ := Option.bind_eq_some_iff.mp hstep
      cases hdone
      obtain ⟨hflags, -, hsize⟩ := block_of_oscMsgQueueAdd hadd
      refine ⟨?_, ?_⟩
      · rcases h.valid with ⟨cells, hvalid⟩ | ⟨hzero, hempty⟩
        · obtain ⟨ret', queue₁, cells', hadd', hvalid', -⟩ := oscMsgQueueAdd_spec hvalid msg
          cases hadd.symm.trans hadd'
          exact Or.inl ⟨cells', hvalid'⟩
        · have hgrow := hcells.resolve_left (not_not.mpr hzero)
          rw [oscMsgQueueAdd, if_pos (by omega), if_neg hgrow] at hadd
          cases hadd
          exact Or.inr ⟨hzero, hempty⟩
      · intro hgrow
        rw [hflags] at hgrow
        exact (congrArg Nat.cast (hsize hgrow)).trans (h.fixed hgrow)
  | remove =>
      obtain ⟨⟨out, queue'⟩, hremove, hdone⟩ := Option.bind_eq_some_iff.mp hstep
      cases hdone
      obtain ⟨hflags, hsize⟩ := block_of_oscMsgQueueRemove hremove
      refine ⟨?_, ?_⟩
      · rcases h.valid with ⟨cells, hvalid⟩ | ⟨hzero, hempty⟩
        · rcases oscMsgQueueRemove_spec hvalid with
            ⟨hnone, -⟩ | ⟨-, hremove'⟩ | ⟨out', queue₁, cells', hremove', hvalid', -⟩
          · cases hnone.symm.trans hremove
          · cases hremove.symm.trans hremove'
            exact Or.inl ⟨cells, hvalid⟩
          · cases hremove.symm.trans hremove'
            exact Or.inl ⟨cells', hvalid'⟩
        · rw [oscMsgQueueRemove, if_pos hempty] at hremove
          cases hremove
          exact Or.inr ⟨hzero, hempty⟩
      · intro hgrow
        rw [hflags] at hgrow
        exact (congrArg Nat.cast hsize).trans (h.fixed hgrow)

end Blocked

/-- The flags stay, and the block does not shrink. -/
theorem block_of_historyStep {t t' : History μ} {c : QueueCall μ}
    (h : historyStep due t c = some t') :
    t'.queue.flags = t.queue.flags ∧ t.queue.nItems ≤ t'.queue.nItems := by
  cases c with
  | add msg grown =>
      obtain ⟨⟨ret, queue'⟩, hadd, hdone⟩ := Option.bind_eq_some_iff.mp h
      cases hdone
      obtain ⟨hflags, hle, -⟩ := block_of_oscMsgQueueAdd hadd
      exact ⟨hflags, hle⟩
  | remove =>
      obtain ⟨⟨out, queue'⟩, hremove, hdone⟩ := Option.bind_eq_some_iff.mp h
      cases hdone
      obtain ⟨hflags, hsize⟩ := block_of_oscMsgQueueRemove hremove
      exact ⟨hflags, hsize.ge⟩

/-- A queue without cells has cells for its calls only if it may not grow, or if none of them
adds. -/
theorem along_hasCells_of_noCells {t : History μ} (hcells : t.queue.nItems = 0)
    (hempty : t.queue.cItems = 0) (hgrow : Growable t.queue.flags) (calls : List (QueueCall μ)) :
    Along (historyStep due) HasCells t calls ↔ ∀ c ∈ calls, c = .remove := by
  induction calls with
  | nil => exact iff_of_true (along_nil t) (by simp)
  | cons c calls ih =>
      rw [List.forall_mem_cons]
      cases c with
      | add msg grown =>
          refine iff_of_false ?_ fun habs => by cases habs.1
          rintro ⟨habs | habs, -⟩
          · exact habs hcells
          · exact habs hgrow
      | remove =>
          have hremove : historyStep due t .remove = some t := by
            rw [historyStep, oscMsgQueueRemove, if_pos hempty]
            rfl
          rw [along_cons_of_eq_some hremove, ih]
          exact and_congr_left fun _ => iff_of_true trivial rfl

/-- The calls on a new queue stay in its block if and only if it has a cell, or may not grow,
or is not added to. Here all allocations succeed, and the indices are of type `int`. -/
theorem along_staysInBlock_iff (due : μ → OscTime) (capacity flags : Int) (queue : OscMsgQueue μ)
    (calls : List (QueueCall μ)) (hcapacity : 0 ≤ capacity) (hint : capacity ≤ intMax)
    (hinit : oscMsgQueueInit true capacity flags = some queue)
    (hfit : Along (historyStep due) CallFits ⟨queue, 0, 0⟩ calls) :
    Along (historyStep due) (StaysInBlock due capacity) ⟨queue, 0, 0⟩ calls ↔
      1 ≤ capacity ∨ ¬ Growable flags ∨ ∀ c ∈ calls, c = .remove := by
  have hqueue := Option.some.inj hinit
  have hlt : capacity ≤ 2147483647 := hint
  have hsize : queue.nItems = capacity.toNat := by
    rw [← hqueue]
    exact sizeT_of_nonneg hcapacity (by omega)
  have hempty : queue.cItems = 0 := by rw [← hqueue]
  have hflags : queue.flags = flags := by rw [← hqueue]
  have hfixed : (queue.nItems : Int) = capacity := by
    rw [hsize]
    omega
  have hstart : Blocked due capacity ⟨queue, 0, 0⟩ := by
    refine ⟨?_, fun _ => hfixed⟩
    by_cases hpos : 1 ≤ capacity
    · exact Or.inl ⟨_, valid_oscMsgQueueInit hpos hint hinit⟩
    · refine Or.inr ⟨?_, hempty⟩
      show queue.nItems = 0
      omega
  rw [along_iff_of_invariant (Blocked due capacity) (fun t c ht hc => ht.staysInBlock_iff hc)
    (fun t c t' ht hc hcells hstep => ht.step hc hcells hstep) hstart hfit]
  by_cases hpos : 1 ≤ capacity
  · refine iff_of_true ?_ (Or.inl hpos)
    refine along_of_invariant (fun t => t.queue.nItems ≠ 0) ?_ ?_ ?_ hfit
    · intro t c ht _
      cases c with
      | add msg grown => exact Or.inl ht
      | remove => trivial
    · intro t c t' ht _ hstep
      have hle := (block_of_historyStep hstep).2
      omega
    · show queue.nItems ≠ 0
      omega
  · by_cases hgrow : Growable flags
    · rw [along_hasCells_of_noCells (show queue.nItems = 0 by omega) hempty (hflags ▸ hgrow)]
      simp [hpos, hgrow]
    · refine iff_of_true ?_ (Or.inr (Or.inl hgrow))
      refine along_of_invariant (fun t => ¬ Growable t.queue.flags) ?_ ?_ (hflags ▸ hgrow) hfit
      · intro t c ht _
        cases c with
        | add msg grown => exact Or.inr ht
        | remove => trivial
      · intro t c t' ht _ hstep
        rw [(block_of_historyStep hstep).1]
        exact ht

/-- A queue of one message grows for the second one. -/
theorem along_staysInBlock_growing : Along (historyStep dueAtSecond)
    (StaysInBlock dueAtSecond 1) ⟨⟨some fun _ => none, 1, 0, 1⟩, 0, 0⟩
    [.add 8 true, .add 7 true, .remove] := by
  refine (along_staysInBlock_iff dueAtSecond 1 1 _ _ (by decide) (by decide) rfl ?_).mpr
    (Or.inl le_rfl)
  refine (along_cons_of_eq_some rfl).mpr ⟨rfl, (along_cons_of_eq_some rfl).mpr ⟨rfl, ?_⟩⟩
  refine ⟨?_, fun s _ => along_nil s⟩
  intro ix hix
  have hsmall : ix + 1 < 2 := hix
  show 2 * ix + 2 ≤ 2147483647
  omega

/-- A queue of no message may grow but does not. -/
theorem noCells_not_staysInBlock : ∃ queue, oscMsgQueueInit true 0 1 = some queue ∧
    Along (historyStep dueAtSecond) CallFits ⟨queue, 0, 0⟩ [.add 7 true] ∧
    ¬ Along (historyStep dueAtSecond) (StaysInBlock dueAtSecond 0) ⟨queue, 0, 0⟩
      [.add 7 true] := by
  refine ⟨_, rfl, ⟨rfl, fun s _ => along_nil s⟩, ?_⟩
  rintro ⟨⟨ret, queue', hadd, -⟩, -⟩
  cases hadd

end LittleOscar
