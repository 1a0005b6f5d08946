import LittleOscar.Queue.Demo.Supply
import Mathlib.Data.Fintype.Card

/-!
# In which order the items are printed

A consumer may lose its turn between the queue and `printf`, so that the lines do not come in
the order in which the items leave the queue. But each consumer keeps at most one item from
being printed: when a number is printed, fewer numbers below it are still to come than there
are consumers (`run_order`).
-/

namespace LittleOscar.QueueDemo

open Transition

variable {ι : Type} [DecidableEq ι] {start : OscTime} {d d' : Demo ι} {e : DemoEvent ι}

/-- The numbers below `v` that are not in `pre`. -/
def unprinted (pre : List ℕ) (v : ℕ) : Finset ℕ := (Finset.range v).filter (· ∉ pre)

/-- The items that left the queue were printed, or a consumer holds them, and none of them
twice. A consumer holds one only between two calls. -/
structure Output (k : ℕ) (d : Demo ι) : Prop where
  held : ∀ c, d.taken c ≠ none → d.system.threads (.consumer c) = .idle
  value : ∀ c, d.taken c ≠ some none
  out : ∀ v, v < k ↔ v ∈ d.printed ∨ ∃ c, d.taken c = some (some v)
  nodup : d.printed.Nodup
  fresh : ∀ c v, d.taken c = some (some v) → v ∉ d.printed
  once : ∀ c c' v, d.taken c = some (some v) → d.taken c' = some (some v) → c = c'

/-- When a number was printed, fewer numbers below it were missing than there are
consumers. -/
def Spread [Fintype ι] (d : Demo ι) : Prop :=
  ∀ pre v post, d.printed = pre ++ v :: post → (unprinted pre v).card < Fintype.card ι

section Taken

variable {k : ℕ}

/-- A consumer takes the next item. -/
theorem Output.take (h : Output k d) {c : ι} (hnone : d.taken c = none)
    {system : System (DemoThread ι) ℕ} (hidle : system.threads (.consumer c) = .idle)
    (hothers : ∀ c', d.taken c' ≠ none → system.threads (.consumer c') = .idle) :
    Output (k + 1) { d with
      system
      taken := Function.update d.taken c (some (some k)) } := by
  have hnew : ∀ c' v, Function.update d.taken c (some (some k)) c' = some (some v) ↔
      (c' = c ∧ v = k) ∨ d.taken c' = some (some v) := by
    intro c' v
    by_cases hc : c' = c
    · subst hc
      rw [Function.update_self, hnone]
      simp [eq_comm]
    · rw [Function.update_of_ne hc]
      simp [hc]
  have hlt : ∀ c' v, d.taken c' = some (some v) → v < k := fun c' v hv =>
    (h.out v).mpr (Or.inr ⟨c', hv⟩)
  refine ⟨fun c' hc' => ?_, fun c' habs => ?_, fun v => ?_, h.nodup, fun c' v hv => ?_,
    fun c₁ c₂ v h₁ h₂ => ?_⟩
  · by_cases hc : c' = c
    · rw [hc]
      exact hidle
    · simp only at hc'
      rw [Function.update_of_ne hc] at hc'
      exact hothers c' hc'
  · by_cases hc : c' = c
    · simp only [hc, Function.update_self] at habs
      cases habs
    · simp only at habs
      rw [Function.update_of_ne hc] at habs
      exact h.value c' habs
  · simp only [hnew]
    rw [Nat.lt_succ_iff_lt_or_eq, h.out v]
    constructor
    · rintro ((hprinted | ⟨c', hc'⟩) | rfl)
      · exact Or.inl hprinted
      · exact Or.inr ⟨c', Or.inr hc'⟩
      · exact Or.inr ⟨c, Or.inl ⟨rfl, rfl⟩⟩
    · rintro (hprinted | ⟨c', ⟨-, rfl⟩ | hc'⟩)
      · exact Or.inl (Or.inl hprinted)
      · exact Or.inr rfl
      · exact Or.inl (Or.inr ⟨c', hc'⟩)
  · rcases (hnew c' v).mp hv with ⟨-, rfl⟩ | hv
    · intro habs
      exact absurd ((h.out v).mpr (Or.inl habs)) (Nat.lt_irrefl v)
    · exact h.fresh c' v hv
  · rcases (hnew c₁ v).mp h₁ with ⟨hc₁, hvk⟩ | hold₁
    · rcases (hnew c₂ v).mp h₂ with ⟨hc₂, -⟩ | hold₂
      · exact hc₁.trans hc₂.symm
      · exact absurd hvk (Nat.ne_of_lt (hlt c₂ v hold₂))
    · rcases (hnew c₂ v).mp h₂ with ⟨-, hvk⟩ | hold₂
      · exact absurd hvk (Nat.ne_of_lt (hlt c₁ v hold₁))
      · exact h.once c₁ c₂ v hold₁ hold₂

/-- A consumer prints its item. -/
theorem Output.print (h : Output k d) {c : ι} {v : ℕ} (hv : d.taken c = some (some v)) :
    Output k { d with
      taken := Function.update d.taken c none
      printed := d.printed ++ [v] } := by
  have hrest : ∀ c' x, Function.update d.taken c none c' = some x ↔
      c' ≠ c ∧ d.taken c' = some x := by
    intro c' x
    by_cases hc : c' = c
    · subst hc
      rw [Function.update_self]
      simp
    · rw [Function.update_of_ne hc]
      simp [hc]
  refine ⟨fun c' hc' => ?_, fun c' habs => ?_, fun u => ?_, ?_, fun c' u hu => ?_,
    fun c₁ c₂ u h₁ h₂ => ?_⟩
  · obtain ⟨x, hx⟩ := Option.ne_none_iff_exists'.mp hc'
    exact h.held c' (by rw [((hrest c' x).mp hx).2]; exact Option.some_ne_none x)
  · exact h.value c' ((hrest c' none).mp habs).2
  · rw [h.out u]
    simp only [hrest, List.mem_append, List.mem_singleton]
    constructor
    · rintro (hprinted | ⟨c', hc'⟩)
      · exact Or.inl (Or.inl hprinted)
      · by_cases hc : c' = c
        · subst hc
          obtain rfl := Option.some.inj (Option.some.inj (hv.symm.trans hc'))
          exact Or.inl (Or.inr rfl)
        · exact Or.inr ⟨c', hc, hc'⟩
    · rintro ((hprinted | rfl) | ⟨c', -, hc'⟩)
      · exact Or.inl hprinted
      · exact Or.inr ⟨c, hv⟩
      · exact Or.inr ⟨c', hc'⟩
  · refine List.nodup_append.mpr ⟨h.nodup, List.nodup_singleton v, fun a ha b hb => ?_⟩
    obtain rfl := List.mem_singleton.mp hb
    rintro rfl
    exact h.fresh c a hv ha
  · obtain ⟨hne, hold⟩ := (hrest c' (some u)).mp hu
    rw [List.mem_append, List.mem_singleton]
    rintro (hprinted | huv)
    · exact h.fresh c' u hold hprinted
    · exact hne (h.once c' c v (huv ▸ hold) hv)
  · exact h.once c₁ c₂ u ((hrest c₁ _).mp h₁).2 ((hrest c₂ _).mp h₂).2

/-- The numbers below an item that its consumer prints are with the other consumers. -/
theorem Output.spread [Fintype ι] (h : Output k d) {c : ι} {v : ℕ}
    (hv : d.taken c = some (some v)) : (unprinted d.printed v).card < Fintype.card ι := by
  have hsub : unprinted d.printed v ⊆
      (Finset.univ.erase c).image fun c' => ((d.taken c').join).getD 0 := by
    intro u hu
    obtain ⟨hlt, hnew⟩ := Finset.mem_filter.mp hu
    have huv := Finset.mem_range.mp hlt
    have hvk : v < k := (h.out v).mpr (Or.inr ⟨c, hv⟩)
    obtain ⟨c', hc'⟩ := ((h.out u).mp (by omega)).resolve_left hnew
    refine Finset.mem_image.mpr ⟨c', Finset.mem_erase.mpr ⟨?_, Finset.mem_univ c'⟩, ?_⟩
    · rintro rfl
      obtain rfl := Option.some.inj (Option.some.inj (hv.symm.trans hc'))
      exact absurd huv (Nat.lt_irrefl _)
    · rw [hc']
      rfl
  have hle := (Finset.card_le_card hsub).trans Finset.card_image_le
  rw [Finset.card_erase_of_mem (Finset.mem_univ c), Finset.card_univ] at hle
  have hpos : 0 < Fintype.card ι := Fintype.card_pos_iff.mpr ⟨c⟩
  omega

end Taken

/-! ## Runs of the program -/

/-- The items that left the queue were asked for by consumers, and are printed almost in
order. -/
structure Lines [Fintype ι] (d : Demo ι) : Prop where
  asked : ∀ r ∈ d.system.log, r.op = .takeDue none
  output : Output d.system.log.length d
  spread : Spread d

/-- What holds of the program at any time. -/
structure InOrder [Fintype ι] (start : OscTime) (k : ℕ) (d : Demo ι) : Prop extends
    Supply start k d, Lines d

section Held

variable {threads : DemoThread ι → ThreadState ℕ} {taken : ι → Option (Option ℕ)}

theorem held_update (h : ∀ c, taken c ≠ none → threads (.consumer c) = .idle)
    {t : DemoThread ι} (thread : ThreadState ℕ) (ht : ∀ c, t = .consumer c → taken c = none) :
    ∀ c, taken c ≠ none → Function.update threads t thread (.consumer c) = .idle := by
  intro c hc
  rw [Function.update_of_ne]
  · exact h c hc
  · exact fun heq => hc (ht c heq.symm)

/-- A signal finds no thread that is between two calls. -/
theorem held_signal (h : ∀ c, taken c ≠ none → threads (.consumer c) = .idle) (signal : Bool)
    (wake : Option (DemoThread ι)) :
    ∀ c, taken c ≠ none →
      (if signal then wakeUp threads wake else threads) (.consumer c) = .idle := by
  cases signal with
  | false => exact h
  | true =>
      cases wake with
      | none => exact h
      | some u =>
          rw [if_pos rfl, wakeUp]
          cases hwaiting : (threads u).waiting with
          | none => exact h
          | some op =>
              refine held_update h (.woken op) fun c hu => ?_
              by_contra hc
              rw [hu, h c hc] at hwaiting
              cases hwaiting

end Held

section Step

variable [Fintype ι] {k : ℕ}

omit [DecidableEq ι] [Fintype ι] in
/-- A consumer in a call of the queue holds no item. -/
theorem Output.taken_eq (h : Output k d) {c : ι}
    (hbusy : d.system.threads (.consumer c) ≠ .idle) : d.taken c = none := by
  by_contra hc
  exact hbusy (h.held c hc)

omit [DecidableEq ι] [Fintype ι] in
/-- The same output with other threads. -/
theorem Output.of_threads (h : Output k d) {system : System (DemoThread ι) ℕ} {filled : ℕ}
    (hheld : ∀ c, d.taken c ≠ none → system.threads (.consumer c) = .idle) :
    Output k { d with system, filled } :=
  ⟨hheld, h.value, h.out, h.nodup, h.fresh, h.once⟩

theorem InOrder.step (h : InOrder start k d) (he : Supported d e)
    (hstep : demoStep start d e = some d') : ∃ k', InOrder start k' d' := by
  obtain ⟨k', hsupply⟩ := h.toSupply.step he hstep
  refine ⟨k', { toSupply := hsupply, toLines := ?_ }⟩
  have hheld := h.output.held
  rcases demoStep_cases hstep with ⟨rfl, -, -, rfl⟩ | ⟨c, rfl, hnone, -, rfl⟩ |
    ⟨t, op, rfl, hparked, rfl⟩ | ⟨c, value, rfl, htaken, rfl⟩ |
    ⟨t, now, grown, wake, op, done, rfl, hrunning, hdone, rfl⟩
  · exact ⟨h.asked, h.output.of_threads (held_update (t := .producer) hheld
      (.ready (.add d.filled)) fun c habs => by cases habs), h.spread⟩
  · refine ⟨h.asked, h.output.of_threads (held_update hheld _ fun c' heq => ?_), h.spread⟩
    cases heq
    exact hnone
  · refine ⟨h.asked, h.output.of_threads (held_update hheld _ fun c heq => ?_), h.spread⟩
    subst heq
    exact h.output.taken_eq (by rw [hparked]; simp)
  · refine ⟨h.asked, h.output.print htaken, fun pre v post hprinted => ?_⟩
    rcases List.eq_nil_or_concat post with rfl | ⟨post, w, rfl⟩
    · obtain ⟨rfl, hlast⟩ := List.append_inj' hprinted rfl
      cases hlast
      exact h.output.spread htaken
    · rw [List.concat_eq_append, ← List.cons_append, ← List.append_assoc] at hprinted
      exact h.spread pre v post (List.append_inj' hprinted rfl).1
  · obtain ⟨-, hnow, rfl, -⟩ := he
    have hbusy : d.system.threads t ≠ .idle := by
      intro hidle
      rw [hidle] at hrunning
      cases hrunning
    cases t with
    | producer =>
        rcases h.producer with ⟨hidle, -⟩ | ⟨hready, -⟩
        · exact absurd hidle hbusy
        · rw [hready] at hrunning
          obtain rfl := Option.some.inj hrunning
          obtain ⟨hending, -⟩ := stretch_add_of_growable h.growable hdone
          rw [Demo.behind, hending]
          exact ⟨h.asked, h.output.of_threads (held_update (t := .producer)
            (held_signal hheld _ _) .idle fun c habs => by cases habs), h.spread⟩
    | consumer c =>
        have hop := h.consumers c op (ThreadState.op_of_running hrunning)
        subst hop
        have hnone := h.output.taken_eq hbusy
        have hkept : ∀ thread : ThreadState ℕ, ∀ c', d.taken c' ≠ none → Function.update
            (if done.signal then wakeUp d.system.threads wake else d.system.threads)
            (.consumer c) thread (.consumer c') = .idle := by
          refine fun thread => held_update (held_signal hheld _ _) thread fun c' heq => ?_
          cases heq
          exact hnone
        rcases stretch_takeDue hdone with ⟨-, rfl⟩ | ⟨-, rfl⟩ | ⟨msg, -, hending, -⟩
        · exact ⟨h.asked, h.output.of_threads (hkept _), h.spread⟩
        · exact ⟨h.asked, h.output.of_threads (hkept _), h.spread⟩
        · have hreturned := hsupply.returned
          rw [Demo.behind, hending] at hreturned ⊢
          simp only [Ending.enter, List.map_cons, List.length_cons, List.range_succ,
            List.reverse_append, List.reverse_singleton, List.singleton_append] at hreturned
          obtain rfl := Option.some.inj (List.cons.inj hreturned).1
          refine ⟨List.forall_mem_cons.mpr ⟨rfl, h.asked⟩, ?_, h.spread⟩
          exact h.output.take hnone (Function.update_self _ _ _) (hkept _)

omit [DecidableEq ι] in
theorem inOrder_start {queue : OscMsgQueue ℕ} (hclock : ClockFits start)
    (hinit : demoQueue true = some queue) :
    InOrder start 0 (.start queue : Demo ι) := by
  obtain rfl := Option.some.inj hinit
  refine { toSupply := ?_, toLines := ?_ }
  · exact ⟨hclock, exchanges_start (by decide) (by decide) hinit, rfl, rfl, rfl, rfl,
      Or.inl ⟨rfl, rfl⟩, Nat.zero_le _, fun c op habs => absurd habs (Option.not_mem_none op)⟩
  · refine ⟨fun r habs => absurd habs List.not_mem_nil, ?_, fun pre v post habs => ?_⟩
    · refine ⟨fun c habs => absurd rfl habs, fun c habs => (by cases habs), fun v => ?_,
        List.nodup_nil, fun c v habs => (by cases habs), fun c c' v habs => (by cases habs)⟩
      refine iff_of_false (Nat.not_lt_zero v) ?_
      rintro (habs | ⟨c, habs⟩)
      · exact List.not_mem_nil habs
      · cases habs
    · exact absurd habs (List.append_ne_nil_of_right_ne_nil pre (List.cons_ne_nil v post)).symm

end Step

/-- In every run of the program the items leave the queue in the order of their numbers, none
before it is due. No number is printed twice, and when one is printed, fewer numbers below it
were missing than there are consumers. -/
theorem run_order [Fintype ι] (start : OscTime) (queue : OscMsgQueue ℕ)
    (events : List (DemoEvent ι)) (d : Demo ι) (hclock : ClockFits start)
    (hinit : demoQueue true = some queue)
    (hsupported : Along (demoStep start) Supported (.start queue) events)
    (hrun : run (demoStep start) (.start queue) events = some d) :
    d.system.log.reverse.map Return.out = (List.range d.system.log.length).map some ∧
      (∀ r ∈ d.system.log, ∀ v ∈ r.out, (itemDue start v).micros ≤ r.now.micros) ∧
      d.printed.Nodup ∧ Spread d := by
  obtain ⟨k, h⟩ := invariant_run (fun d => ∃ k, InOrder start k d)
    (fun d e d' ⟨k, hd⟩ he hstep => hd.step he hstep) ⟨0, inOrder_start hclock hinit⟩
    hsupported hrun
  refine ⟨?_, fun r hr v hv => ?_, h.output.nodup, h.spread⟩
  · rw [List.map_reverse, h.returned, ← List.map_reverse, List.reverse_reverse]
  · have hdue := (h.exchanges.safe r hr).isDue v hv none (by rw [h.asked r hr]; rfl)
    rwa [IsDue, thresholdMicros, Int.add_zero] at hdue

/-- The producer adds two items, two consumers take them, and the second one prints first. -/
def overtaking : List (DemoEvent Bool) :=
  [.produce, .enter .producer ⟨0, 0⟩ true none, .produce, .enter .producer ⟨0, 0⟩ true none,
    .consume true, .enter (.consumer true) ⟨9, 0⟩ true none, .consume false,
    .enter (.consumer false) ⟨9, 0⟩ true none, .print false, .print true]

theorem run_order_overtaking : ∃ d : Demo Bool,
    run (demoStep ⟨0, 0⟩) (.start ⟨some fun _ => none, 32, 0, 1⟩) overtaking = some d ∧
      d.printed = [1, 0] ∧ d.system.log.reverse.map Return.out = [some 0, some 1] ∧ Spread d := by
  obtain ⟨d, hrun, hprinted, hlength⟩ : ∃ d : Demo Bool,
      run (demoStep ⟨0, 0⟩) (.start ⟨some fun _ => none, 32, 0, 1⟩) overtaking = some d ∧
        d.printed = [1, 0] ∧ d.system.log.length = 2 := ⟨_, rfl, rfl, rfl⟩
  obtain ⟨hout, -, -, hspread⟩ := run_order ⟨0, 0⟩ _ overtaking d (by decide) rfl (by decide) hrun
  rw [hlength] at hout
  exact ⟨d, hrun, hprinted, hout, hspread⟩

end LittleOscar.QueueDemo
