import LittleOscar.Queue.Definitions

/-!
# The size of the queue

What a call does to the number of queued messages and to the block does not depend on the
order of the messages, nor on the queue being valid: whatever result a call has, it has
this size.
-/

namespace LittleOscar

variable {μ : Type} {due : μ → OscTime} {queue queue' : OscMsgQueue μ}

/-- The two queues differ in the cells of the block at most. -/
structure SameBlock (queue queue' : OscMsgQueue μ) : Prop where
  nItems : queue'.nItems = queue.nItems
  cItems : queue'.cItems = queue.cItems
  flags : queue'.flags = queue.flags

namespace SameBlock

theorem refl (queue : OscMsgQueue μ) : SameBlock queue queue := ⟨rfl, rfl, rfl⟩

theorem trans {queue'' : OscMsgQueue μ} (h : SameBlock queue queue')
    (h' : SameBlock queue' queue'') : SameBlock queue queue'' :=
  ⟨h'.nItems.trans h.nItems, h'.cItems.trans h.cItems, h'.flags.trans h.flags⟩

end SameBlock

namespace OscMsgQueue

theorem sameBlock_of_store {i : ℕ} {msg : μ} (h : queue.store i msg = some queue') :
    SameBlock queue queue' := by
  rw [store, Option.bind_eq_bind, Option.bind_eq_some_iff] at h
  obtain ⟨cells, -, hstore⟩ := h
  split at hstore
  · cases hstore
    exact ⟨rfl, rfl, rfl⟩
  · cases hstore

theorem sameBlock_of_exchange {i j : ℕ} (h : queue.exchange i j = some queue') :
    SameBlock queue queue' := by
  simp only [exchange, Option.bind_eq_bind, Option.bind_eq_some_iff] at h
  obtain ⟨tmp, -, other, -, queue₁, hfirst, hsecond⟩ := h
  exact (sameBlock_of_store hfirst).trans (sameBlock_of_store hsecond)

end OscMsgQueue

theorem sameBlock_of_siftUp {msg : μ} {fuel ix : ℕ}
    (h : siftUp due msg fuel ix queue = some queue') : SameBlock queue queue' := by
  induction fuel generalizing ix queue with
  | zero => cases h
  | succ fuel ih =>
      rw [siftUp] at h
      split at h
      · obtain ⟨above, -, h⟩ := Option.bind_eq_some_iff.mp h
        split at h
        · obtain ⟨queue₁, hexchange, h⟩ := Option.bind_eq_some_iff.mp h
          exact (OscMsgQueue.sameBlock_of_exchange hexchange).trans (ih h)
        · cases h
          exact .refl queue'
      · cases h
        exact .refl queue'

theorem sameBlock_of_siftDown {fuel ix : ℕ} (h : siftDown due fuel ix queue = some queue') :
    SameBlock queue queue' := by
  induction fuel generalizing ix queue with
  | zero => cases h
  | succ fuel ih =>
      rw [siftDown] at h
      split at h
      · obtain ⟨first, -, h⟩ := Option.bind_eq_some_iff.mp h
        obtain ⟨smallest, -, h⟩ := Option.bind_eq_some_iff.mp h
        split at h
        · obtain ⟨queue₁, hexchange, h⟩ := Option.bind_eq_some_iff.mp h
          exact (OscMsgQueue.sameBlock_of_exchange hexchange).trans (ih h)
        · cases h
          exact .refl queue'
      · cases h

theorem sameBlock_of_placeMsg {msg : μ} (h : placeMsg due msg queue = some queue') :
    SameBlock { queue with cItems := queue.cItems + 1 } queue' := by
  obtain ⟨queue₁, hstore, hsift⟩ := Option.bind_eq_some_iff.mp h
  exact (OscMsgQueue.sameBlock_of_store hstore).trans (sameBlock_of_siftUp hsift)

/-- What a call of `osc_msg_queue_add` can do: place its message in the block or in a larger
one, lose the block, or refuse. -/
theorem cases_of_add {grown ret : Bool} {msg : μ}
    (h : oscMsgQueueAdd due grown msg queue = some (ret, queue')) :
    (queue.cItems ≠ queue.nItems ∧ ret = true ∧ placeMsg due msg queue = some queue') ∨
    (queue.cItems = queue.nItems ∧ Growable queue.flags ∧ grown = true ∧ ret = true ∧
      placeMsg due msg (reallocHeap queue) = some queue') ∨
    (queue.cItems = queue.nItems ∧ Growable queue.flags ∧ grown = false ∧ ret = false ∧
      queue' = { queue with heap := none }) ∨
    (queue.cItems = queue.nItems ∧ ¬ Growable queue.flags ∧ ret = false ∧ queue' = queue) := by
  rw [oscMsgQueueAdd] at h
  by_cases hfull : queue.cItems = queue.nItems
  · rw [if_pos hfull] at h
    by_cases hgrow : Growable queue.flags
    · rw [if_pos hgrow] at h
      cases grown with
      | true =>
          obtain ⟨queue₁, hplace, hpair⟩ := Option.map_eq_some_iff.mp h
          cases hpair
          exact Or.inr (Or.inl ⟨hfull, hgrow, rfl, rfl, hplace⟩)
      | false =>
          cases h
          rw [Nat.mul_div_cancel _ (by decide)]
          exact Or.inr (Or.inr (Or.inl ⟨hfull, hgrow, rfl, rfl, rfl⟩))
    · rw [if_neg hgrow] at h
      cases h
      exact Or.inr (Or.inr (Or.inr ⟨hfull, hgrow, rfl, rfl⟩))
  · rw [if_neg hfull] at h
    obtain ⟨queue₁, hplace, hpair⟩ := Option.map_eq_some_iff.mp h
    cases hpair
    exact Or.inl ⟨hfull, rfl, hplace⟩

/-- `osc_msg_queue_add` accepts its message exactly when there is room, and then the
queue is larger by one. -/
theorem cItems_of_oscMsgQueueAdd {grown ret : Bool} {msg : μ}
    (h : oscMsgQueueAdd due grown msg queue = some (ret, queue')) :
    (queue.HasRoom grown ∧ ret = true ∧ queue'.cItems = queue.cItems + 1) ∨
      (¬ queue.HasRoom grown ∧ ret = false ∧ queue'.cItems = queue.cItems) := by
  rcases cases_of_add h with ⟨hfree, hret, hplace⟩ | ⟨-, hgrow, hgrown, hret, hplace⟩ |
    ⟨hfull, -, hgrown, hret, rfl⟩ | ⟨hfull, hgrow, hret, rfl⟩
  · exact Or.inl ⟨Or.inl hfree, hret, (sameBlock_of_placeMsg hplace).cItems⟩
  · exact Or.inl ⟨Or.inr ⟨hgrow, hgrown⟩, hret, (sameBlock_of_placeMsg hplace).cItems⟩
  · refine Or.inr ⟨?_, hret, rfl⟩
    rintro (habs | ⟨-, habs⟩)
    · exact habs hfull
    · exact Bool.false_ne_true (hgrown.symm.trans habs)
  · refine Or.inr ⟨?_, hret, rfl⟩
    rintro (habs | ⟨habs, -⟩)
    · exact habs hfull
    · exact hgrow habs

/-- It keeps the flags, the block does not shrink, and one that may not grow keeps its size. -/
theorem block_of_oscMsgQueueAdd {grown ret : Bool} {msg : μ}
    (h : oscMsgQueueAdd due grown msg queue = some (ret, queue')) :
    queue'.flags = queue.flags ∧ queue.nItems ≤ queue'.nItems ∧
      (¬ Growable queue.flags → queue'.nItems = queue.nItems) := by
  rcases cases_of_add h with ⟨-, -, hplace⟩ | ⟨-, hgrow, -, -, hplace⟩ |
    ⟨-, -, -, -, rfl⟩ | ⟨-, -, -, rfl⟩
  · have hblock := sameBlock_of_placeMsg hplace
    exact ⟨hblock.flags, hblock.nItems.ge, fun _ => hblock.nItems⟩
  · have hblock := sameBlock_of_placeMsg hplace
    have hsize : queue'.nItems = queue.nItems * 2 := hblock.nItems
    exact ⟨hblock.flags, by omega, fun habs => absurd hgrow habs⟩
  · exact ⟨rfl, le_rfl, fun _ => rfl⟩
  · exact ⟨rfl, le_rfl, fun _ => rfl⟩

/-- What a call of `osc_msg_queue_remove` can do: return `NULL` from an empty queue, or a
message from another one. -/
theorem cases_of_remove {out : Option μ}
    (h : oscMsgQueueRemove due queue = some (out, queue')) :
    (queue.cItems = 0 ∧ out = none ∧ queue' = queue) ∨
      (queue.cItems ≠ 0 ∧ out ≠ none ∧
        SameBlock { queue with cItems := queue.cItems - 1 } queue') := by
  rw [oscMsgQueueRemove] at h
  by_cases hempty : queue.cItems = 0
  · rw [if_pos hempty] at h
    cases h
    exact Or.inl ⟨hempty, rfl, rfl⟩
  · rw [if_neg hempty] at h
    obtain ⟨root, -, h⟩ := Option.bind_eq_some_iff.mp h
    obtain ⟨last, -, h⟩ := Option.bind_eq_some_iff.mp h
    obtain ⟨queue₁, hstore, h⟩ := Option.bind_eq_some_iff.mp h
    obtain ⟨queue₂, hsift, h⟩ := Option.bind_eq_some_iff.mp h
    cases h
    exact Or.inr ⟨hempty, Option.some_ne_none root,
      (OscMsgQueue.sameBlock_of_store hstore).trans (sameBlock_of_siftDown hsift)⟩

/-- `osc_msg_queue_remove` returns `NULL` and leaves an empty queue, or it returns a
message and leaves a queue that is smaller by one. -/
theorem cItems_of_oscMsgQueueRemove {out : Option μ}
    (h : oscMsgQueueRemove due queue = some (out, queue')) :
    (queue.cItems = 0 ∧ out = none ∧ queue' = queue) ∨
      (out ≠ none ∧ queue.cItems = queue'.cItems + 1) := by
  rcases cases_of_remove h with hempty | ⟨hne, hout, hblock⟩
  · exact Or.inl hempty
  · have hsize : queue'.cItems = queue.cItems - 1 := hblock.cItems
    exact Or.inr ⟨hout, by omega⟩

/-- It keeps the flags and the size of the block. -/
theorem block_of_oscMsgQueueRemove {out : Option μ}
    (h : oscMsgQueueRemove due queue = some (out, queue')) :
    queue'.flags = queue.flags ∧ queue'.nItems = queue.nItems := by
  rcases cases_of_remove h with ⟨-, -, rfl⟩ | ⟨-, -, hblock⟩
  · exact ⟨rfl, rfl⟩
  · exact ⟨hblock.flags, hblock.nItems⟩

theorem cItems_of_removed {out : μ}
    (h : oscMsgQueueRemove due queue = some (some out, queue')) :
    queue.cItems = queue'.cItems + 1 := by
  rcases cItems_of_oscMsgQueueRemove h with ⟨-, habs, -⟩ | ⟨-, hsize⟩
  · cases habs
  · exact hsize

end LittleOscar
