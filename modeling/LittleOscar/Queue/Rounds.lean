import LittleOscar.Queue.History
import Mathlib.Data.Nat.Log

/-!
# The rounds of the loops

The loops of `osc_msg_queue_add` and `osc_msg_queue_remove` go along a path between a position
and the root of the heap, so they end after logarithmically many rounds, whatever the queue
holds and whether it is a heap or not. `run_rounds_log` says so of all calls of a run.
-/

namespace LittleOscar

open Transition

variable {μ : Type} {due : μ → OscTime} {queue : OscMsgQueue μ}

/-- The number of positions above `ix`. -/
def depth (ix : ℕ) : ℕ := Nat.log 2 (ix + 1)

theorem depth_heapParent (ix : ℕ) (hpos : 0 < ix) : depth (heapParent ix) + 1 = depth ix := by
  have hhalf : heapParent ix + 1 = (ix + 1) / 2 := by
    unfold heapParent
    omega
  rw [depth, depth, hhalf, ← Nat.log_of_one_lt_of_le (by decide) (by omega)]

theorem depth_heapLeftIx (ix : ℕ) : depth (heapLeftIx ix) = depth ix + 1 := by
  have hparent : heapParent (heapLeftIx ix) = ix := by
    unfold heapParent heapLeftIx
    omega
  have hdepth := depth_heapParent (heapLeftIx ix) (Nat.succ_pos _)
  rw [← hdepth, hparent]

theorem depth_heapRightIx (ix : ℕ) : depth (heapRightIx ix) = depth ix + 1 := by
  have hparent : heapParent (heapRightIx ix) = ix := by
    unfold heapParent heapRightIx
    omega
  have hdepth := depth_heapParent (heapRightIx ix) (Nat.succ_pos _)
  rw [← hdepth, hparent]

/-! ## Up -/

/-- More rounds than there are positions above make no difference. -/
theorem siftUp_rounds {msg : μ} {fuel fuel' ix : ℕ} (hfuel : depth ix < fuel)
    (hfuel' : depth ix < fuel') : siftUp due msg fuel ix queue = siftUp due msg fuel' ix queue := by
  induction fuel generalizing fuel' ix queue with
  | zero => omega
  | succ fuel ih =>
      obtain ⟨fuel', rfl⟩ : ∃ k, fuel' = k + 1 := ⟨fuel' - 1, by omega⟩
      rw [siftUp, siftUp]
      by_cases hpos : 0 < ix
      · have hdepth := depth_heapParent ix hpos
        rw [if_pos hpos, if_pos hpos]
        refine Option.bind_congr fun above habove => ?_
        split
        · exact Option.bind_congr fun queue' hqueue => ih (by omega) (by omega)
        · rfl
      · rw [if_neg hpos, if_neg hpos]

/-! ## Down -/

/-- A test of the loop keeps the position or takes the child, if it is in the heap. -/
theorem cases_of_smallerIx {ix smallest s : ℕ} (h : smallerIx due queue ix smallest = some s) :
    s = smallest ∨ s = ix ∧ ix < queue.cItems := by
  rw [smallerIx] at h
  split at h
  · next hlt =>
      obtain ⟨msg, -, h⟩ := Option.bind_eq_some_iff.mp h
      obtain ⟨least, -, h⟩ := Option.bind_eq_some_iff.mp h
      split at h
      · exact Or.inr ⟨(Option.some.inj h).symm, hlt⟩
      · exact Or.inl (Option.some.inj h).symm
  · exact Or.inl (Option.some.inj h).symm

/-- A round that does not end the loop goes one position down, in the heap. -/
theorem depth_of_smallerIx {ix s t : ℕ} (hleft : smallerIx due queue (heapLeftIx ix) ix = some s)
    (hright : smallerIx due queue (heapRightIx ix) s = some t) (hne : t ≠ ix) :
    depth t = depth ix + 1 ∧ depth t ≤ Nat.log 2 queue.cItems := by
  have hchild : (t = heapLeftIx ix ∨ t = heapRightIx ix) ∧ t < queue.cItems := by
    rcases cases_of_smallerIx hright with rfl | ⟨rfl, hlt⟩
    · rcases cases_of_smallerIx hleft with rfl | ⟨rfl, hlt⟩
      · exact absurd rfl hne
      · exact ⟨Or.inl rfl, hlt⟩
    · exact ⟨Or.inr rfl, hlt⟩
  obtain ⟨hcases, hlt⟩ := hchild
  refine ⟨?_, Nat.log_mono_right hlt⟩
  rcases hcases with rfl | rfl
  · exact depth_heapLeftIx ix
  · exact depth_heapRightIx ix

/-- More rounds than there are positions on the way down make no difference. -/
theorem siftDown_rounds {fuel fuel' ix : ℕ} (hix : depth ix ≤ Nat.log 2 queue.cItems)
    (hfuel : Nat.log 2 queue.cItems < fuel + depth ix)
    (hfuel' : Nat.log 2 queue.cItems < fuel' + depth ix) :
    siftDown due fuel ix queue = siftDown due fuel' ix queue := by
  induction fuel generalizing fuel' ix queue with
  | zero => omega
  | succ fuel ih =>
      obtain ⟨fuel', rfl⟩ : ∃ k, fuel' = k + 1 := ⟨fuel' - 1, by omega⟩
      rw [siftDown, siftDown]
      split
      · refine Option.bind_congr fun s hs => ?_
        refine Option.bind_congr fun t ht => ?_
        split
        · next hne =>
            obtain ⟨hdepth, hle⟩ := depth_of_smallerIx hs ht hne
            refine Option.bind_congr fun queue' hqueue => ?_
            have hsize := (OscMsgQueue.sameBlock_of_exchange hqueue).cItems
            exact ih (by rw [hsize]; omega) (by rw [hsize]; omega) (by rw [hsize]; omega)
        · rfl
      · rfl

/-! ## Whole runs -/

section Calls

variable (due)

/-- The message is placed by a loop of at most `rounds` rounds. -/
def PlacedIn (rounds : ℕ) (msg : μ) (queue queue' : OscMsgQueue μ) : Prop :=
  (OscMsgQueue.store { queue with cItems := queue.cItems + 1 } queue.cItems msg).bind
    (siftUp due msg rounds queue.cItems) = some queue'

/-- The last message takes the place of the first, and is moved by a loop of at most `rounds`
rounds. -/
def RemovedIn (rounds : ℕ) (queue queue' : OscMsgQueue μ) : Prop :=
  ∃ last, queue.load (queue.cItems - 1) = some last ∧
    (OscMsgQueue.store { queue with cItems := queue.cItems - 1 } 0 last).bind
      (siftDown due rounds 0) = some queue'

/-- The call has a result, and it does nothing, or its loop ends after logarithmically many
rounds. -/
def InLogRounds (t : History μ) (c : QueueCall μ) : Prop :=
  ∃ t', historyStep due t c = some t' ∧ (t' = t ∨ match c with
    | .add msg _ =>
        PlacedIn due (Nat.log 2 (t.queue.cItems + 1) + 1) msg t.queue t'.queue ∨
          PlacedIn due (Nat.log 2 (t.queue.cItems + 1) + 1) msg (reallocHeap t.queue) t'.queue
    | .remove => RemovedIn due (Nat.log 2 (t.queue.cItems - 1) + 1) t.queue t'.queue)

end Calls

theorem placedIn_of_placeMsg {msg : μ} {queue' : OscMsgQueue μ}
    (h : placeMsg due msg queue = some queue') :
    PlacedIn due (Nat.log 2 (queue.cItems + 1) + 1) msg queue queue' := by
  have hlt : Nat.log 2 (queue.cItems + 1) < queue.cItems + 1 :=
    Nat.log_lt_self 2 (Nat.succ_ne_zero _)
  rw [PlacedIn, ← h, placeMsg]
  exact Option.bind_congr fun queue₁ _ =>
    siftUp_rounds (Nat.lt_succ_self _) (by rw [depth]; omega)

theorem removedIn_of_remove {out : μ} {queue' : OscMsgQueue μ}
    (h : oscMsgQueueRemove due queue = some (some out, queue')) :
    RemovedIn due (Nat.log 2 (queue.cItems - 1) + 1) queue queue' := by
  rw [oscMsgQueueRemove] at h
  split at h
  · cases h
  · obtain ⟨out', -, h⟩ := Option.bind_eq_some_iff.mp h
    obtain ⟨last, hlast, h⟩ := Option.bind_eq_some_iff.mp h
    obtain ⟨queue₁, hstore, h⟩ := Option.bind_eq_some_iff.mp h
    obtain ⟨queue₂, hsift, h⟩ := Option.bind_eq_some_iff.mp h
    cases h
    have hsize : queue₁.cItems = queue.cItems - 1 :=
      (OscMsgQueue.sameBlock_of_store hstore).cItems
    have hroot : depth 0 = 0 := by
      rw [depth]
      simp
    have hlog := Nat.log_le_self 2 queue₁.cItems
    refine ⟨last, hlast, ?_⟩
    rw [hstore, Option.bind_some, ← hsize, ← hsift]
    exact siftDown_rounds (by omega) (by omega) (by omega)

/-- In a sound history, a call that fits ends after logarithmically many rounds. -/
theorem Sound.inLogRounds {t : History μ} (h : Sound due t) {c : QueueCall μ}
    (hfit : CallFits t c) : InLogRounds due t c := by
  obtain ⟨t', hstep, -⟩ := h.step c hfit
  refine ⟨t', hstep, ?_⟩
  cases c with
  | add msg grown =>
      obtain rfl : grown = true := hfit
      obtain ⟨⟨ret, queue'⟩, hadd, hresult⟩ := Option.bind_eq_some_iff.mp hstep
      cases hresult
      rw [oscMsgQueueAdd] at hadd
      split at hadd
      · split at hadd
        · rw [if_pos rfl] at hadd
          obtain ⟨queue₁, hplace, hqueue⟩ := Option.map_eq_some_iff.mp hadd
          cases hqueue
          exact Or.inr (Or.inr (placedIn_of_placeMsg hplace))
        · cases hadd
          exact Or.inl rfl
      · obtain ⟨queue₁, hplace, hqueue⟩ := Option.map_eq_some_iff.mp hadd
        cases hqueue
        exact Or.inr (Or.inl (placedIn_of_placeMsg hplace))
  | remove =>
      obtain ⟨⟨out, queue'⟩, hremove, hresult⟩ := Option.bind_eq_some_iff.mp hstep
      cases hresult
      cases out with
      | some out => exact Or.inr (removedIn_of_remove hremove)
      | none =>
          have hsame : queue' = t.queue := by
            rw [oscMsgQueueRemove] at hremove
            split at hremove
            · cases hremove
              rfl
            · simp [Option.bind_eq_some_iff] at hremove
          exact Or.inl (by rw [hsame])

/-- In every run on a new queue each call ends, and the loop of `osc_msg_queue_add` after at most
`log 2 (n + 1) + 1` rounds where the queue holds `n` messages, the one of `osc_msg_queue_remove`
after at most `log 2 (n - 1) + 1`. -/
theorem run_rounds_log (due : μ → OscTime) (capacity flags : Int) (queue : OscMsgQueue μ)
    (calls : List (QueueCall μ)) (hcapacity : 1 ≤ capacity) (hint : capacity ≤ intMax)
    (hinit : oscMsgQueueInit true capacity flags = some queue)
    (hfit : Along (historyStep due) CallFits ⟨queue, 0, 0⟩ calls) :
    Along (historyStep due) (InLogRounds due) ⟨queue, 0, 0⟩ calls := by
  have hstart : Sound due ⟨queue, 0, 0⟩ :=
    ⟨⟨_, valid_oscMsgQueueInit hcapacity hint hinit⟩,
      (Multiset.zero_add _).trans (queued_oscMsgQueueInit hinit)⟩
  refine along_of_invariant (Sound due) (fun t c ht hc => ht.inLogRounds hc) ?_ hstart hfit
  intro t c t' ht hc hstep
  obtain ⟨t'', hstep', hsound⟩ := ht.step c hc
  rwa [Option.some.inj (hstep.symm.trans hstep')]

/-- Two messages, the later one first, go through a queue that grows. -/
theorem run_rounds_log_growing : Along (historyStep id) (InLogRounds id)
      ⟨⟨some fun _ => none, 1, 0, 1⟩, 0, 0⟩
      [.add ⟨2, 0⟩ true, .add ⟨1, 500000⟩ true, .remove] := by
  refine run_rounds_log id 1 1 _ _ le_rfl (by decide) rfl ?_
  refine (along_cons_of_eq_some rfl).mpr ⟨rfl, (along_cons_of_eq_some rfl).mpr ⟨rfl, ?_⟩⟩
  refine ⟨?_, fun s _ => along_nil s⟩
  intro ix hix
  have hsmall : ix + 1 < 2 := hix
  show 2 * ix + 2 ≤ 2147483647
  omega

end LittleOscar
