import Sequitur.EngineDelivery
import Sequitur.PriceBounds

namespace Sequitur.EngineProgress

open OrderBook MatchingEngine Protocol CoreLoop Rings SPSCQueue EngineProcess EngineDelivery

section Engine

theorem run_safe {packets : List IngressPacket} (hp : ∀ p ∈ packets, p.price.toNat ≤ maxPriceTicks) {c : Core}
    (h : Runs.run Core.consume .init packets = some c) : PriceBounds.Safe c := by
  refine Runs.run_preserves (P := fun _ p => p.price.toNat ≤ maxPriceTicks) (fun c p c' hc hprice hs => ?_)
    PriceBounds.init_safe (.of_forall fun p hm _ => hp p hm) h
  obtain ⟨c₁, hc₁, -, hsafe⟩ := PriceBounds.consume_steps hc p
  obtain rfl := Option.some.inj (hc₁.symm.trans hs)
  exact hsafe fun hleaves => absurd hprice (Nat.not_le.mpr hleaves.2.2.1)

theorem submit_total {packets : List IngressPacket} (hp : ∀ p ∈ packets, p.price.toNat ≤ maxPriceTicks) {c : Core}
    (h : Runs.run Core.consume .init packets = some c) (packet : IngressPacket) :
    ∃ r, submit c.engine packet (process packet) = some r := by
  obtain ⟨c', hc, -⟩ := PriceBounds.consume_steps (run_safe hp h) packet
  obtain ⟨r, hr, -⟩ := Option.map_eq_some_iff.mp hc
  exact ⟨r, hr⟩

end Engine

section Work

def coreRank (s : State) : Nat :=
  match s.loop with
  | .iterate =>
      match s.ingress.core with
      | .submitted _ _ _ => 0
      | .copied _ => 1
      | .found => 2
      | .waiting => 3
      | .priced _ _ _ => 12
      | .released _ _ => 13
  | .test => 4
  | .sample _ => 5 + s.metrics.push.rank
  | .account => 10
  | .report => 11
  | .exited => 0

def publisherRank (s : EgressPipeline.State) : Nat :=
  match s.publisher with
  | .popping => s.queue.pop.rank
  | .test => 4
  | .stored _ => 5
  | .ready _ => 6
  | .loading _ => 7
  | .full _ => 8
  | .testTail | .testHead _ | .exited => 0

/-- What is left to be done by the core with packets, by the core with
reports, by the publisher and by the gateway. A party that makes work for the
next one has less to do itself. -/
def work (s : State) : ℕ ×ₗ ℕ ×ₗ ℕ ×ₗ ℕ :=
  toLex (20 * (s.ingress.enqueued.length - s.ingress.consumed.length) + coreRank s,
    toLex (6 * s.egress.todo.length + s.egress.queue.push.rank,
      toLex (10 * (s.egress.queue.pushed.length - s.egress.queue.popped.length) + publisherRank s.egress,
        4 * (s.egress.written.length - s.egress.returned.length) + s.egress.gateway.rank)))

theorem lex_lt_right {α β : Type} [LT α] [LT β] {a a' : α} {b b' : β} (ha : a' = a) (hb : b' < b) :
    toLex (a', b') < toLex (a, b) := ha ▸ Prod.Lex.right _ hb

variable {R : Rounding} {inBase outBase : BitVec 64} {s : State}

theorem receive_works (h : Inv inBase outBase s) (hlt : s.egress.returned.length < s.egress.written.length) :
    ∃ s', step R s .receive = some s' ∧ work s' < work s := by
  refine ⟨_, rfl, lex_lt_right rfl (lex_lt_right rfl (lex_lt_right rfl ?_))⟩
  dsimp only
  rcases h.egress.ring.take_progress (by decide) hlt with ⟨hr, hrank⟩ | ⟨x, hr, hidle⟩
  · rw [hr]
    simp only [received, List.append_nil]
    omega
  · rw [hr, hidle]
    simp only [received, List.length_append, List.length_singleton, Take.rank]
    omega

theorem publisher_works (h : Running inBase outBase s) (hring : s.egress.returned.length = s.egress.written.length)
    (hq : s.egress.queue.popped.length < s.egress.queue.pushed.length ∨ s.egress.publisher.flight ≠ []) :
    ∃ s', step R s .publisher = some s' ∧ work s' < work s := by
  have hw := h.publisher
  have hlater : ∀ p : EgressPipeline.Publisher, publisherRank { s.egress with publisher := p } < publisherRank s.egress →
      work { s with egress := { s.egress with publisher := p } } < work s := fun p hp =>
    lex_lt_right rfl (lex_lt_right rfl (Prod.Lex.left _ _ (Nat.add_lt_add_left hp _)))
  rw [step, EgressPipeline.step, EgressPipeline.publisherStep]
  cases hp : s.egress.publisher with
  | test =>
      simp only [h.awake.active, if_true]
      refine ⟨_, rfl, hlater .popping ?_⟩
      simp only [publisherRank, hp]
      cases s.egress.queue.pop <;> simp [Take.rank]
  | testTail | testHead | exited =>
      rw [hp] at hw
      exact hw.elim
  | popping =>
      have hlt : s.egress.queue.popped.length < s.egress.queue.pushed.length :=
        hq.resolve_right (by simp [hp, EgressPipeline.Publisher.flight])
      refine ⟨_, rfl, lex_lt_right rfl (lex_lt_right rfl (Prod.Lex.left _ _ ?_))⟩
      simp only [publisherRank, hp, Queue.popStep]
      rcases h.egress.queue.ring.take_progress (by decide) hlt with ⟨hr, hrank⟩ | ⟨x, hr, -⟩
      · simp only [hr, EgressPipeline.Publisher.afterPop, received, List.append_nil]
        exact Nat.add_lt_add_left hrank _
      · simp only [hr, EgressPipeline.Publisher.afterPop, received, List.length_append, List.length_singleton]
        omega
  | loading packet =>
      have hroom : ¬ 65536 ≤ (s.egress.currentWrite - s.egress.ring.readIdx).toInt := by
        rw [h.egress.currentWrite, h.egress.distance_toInt, hring]
        simp
      simp only [if_neg hroom]
      exact ⟨_, rfl, hlater (.ready packet) (by simp [publisherRank, hp])⟩
  | full packet =>
      simp only [h.awake.active, if_true]
      exact ⟨_, rfl, hlater (.loading packet) (by simp [publisherRank, hp])⟩
  | ready packet =>
      exact ⟨_, rfl, lex_lt_right rfl (lex_lt_right rfl (Prod.Lex.left _ _ (by simp [publisherRank, hp])))⟩
  | stored packet =>
      exact ⟨_, rfl, lex_lt_right rfl (lex_lt_right rfl (Prod.Lex.left _ _ (by simp [publisherRank, hp])))⟩

theorem push_lightens {e : EgressPipeline.State} (h : SPSCQueue.Inv 13 0 e.queue) (hf : e.queue.stopFlag = false)
    (hroom : e.queue.pushed.length < e.queue.popped.length + 2 ^ 13) (ht : e.todo ≠ []) :
    ∃ e', EgressPipeline.step e .core = some e' ∧
      6 * e'.todo.length + e'.queue.push.rank < 6 * e.todo.length + e.queue.push.rank := by
  obtain ⟨packet, rest, htodo⟩ := List.exists_cons_of_ne_nil ht
  have hrank := pushStep_rank 13 e.queue packet
  have hne := pushStep_ne_false h (by decide) hf hroom packet
  rw [EgressPipeline.step, htodo]
  refine ⟨_, rfl, ?_⟩
  dsimp only
  rcases hr : (e.queue.pushStep 13 packet).2 with - | - | -
  · rw [if_pos hr] at hrank
    simp only [reduceCtorEq, if_false]
    omega
  · exact absurd hr hne
  · rw [if_neg (by simp [hr])] at hrank
    rw [hrank]
    simp only [if_true, List.length_cons, Push.rank]
    omega

theorem push_works (h : Running inBase outBase s) (hl : s.loop = .report) (ht : s.egress.todo ≠ [])
    (hq : s.egress.queue.popped.length = s.egress.queue.pushed.length) :
    ∃ s', step R s .core = some s' ∧ work s' < work s := by
  obtain ⟨e, he, hlt⟩ := push_lightens h.egress.queue h.stopFlag (by omega) ht
  refine ⟨{ s with egress := e }, by simp [step, coreStep, hl, ht, he], ?_⟩
  exact lex_lt_right (by simp [coreRank, hl]) (Prod.Lex.left _ _ hlt)

theorem push_rank_le {T : Type} (p : Push T) : p.rank ≤ 4 := by
  cases p <;> simp [Push.rank]

theorem submit_copied (h : Sound inBase s) (hp : ∀ p ∈ s.ingress.enqueued, p.price.toNat ≤ maxPriceTicks)
    {p : Processed} (hcore : s.ingress.core = .copied p) :
    ∃ r, submit s.ingress.engine (s.ingress.ring.buf (slot 16 s.ingress.currentRead)) p = some r := by
  have hsound := h.ingress.core
  have hfollows := h.own.follows
  rw [hcore] at hsound hfollows
  obtain ⟨packet, hx, rfl⟩ := hsound
  rw [h.ingress.slot_eq hx]
  exact submit_total (fun p hm => hp p (h.ingress.consumed.subset hm)) hfollows packet

theorem iterate_works (h : Running inBase outBase s) (hp : ∀ p ∈ s.ingress.enqueued, p.price.toNat ≤ maxPriceTicks)
    (hl : s.loop = .iterate)
    (hc : s.ingress.core ≠ .waiting ∨ s.ingress.consumed.length < s.ingress.enqueued.length) :
    ∃ s', step R s .core = some s' ∧ work s' < work s := by
  have hsound := h.ingress.core
  rw [step, coreStep]
  simp only [hl, IngressRing.coreStep]
  cases hcore : s.ingress.core with
  | waiting =>
      have hlt : s.ingress.consumed.length < s.ingress.enqueued.length := hc.resolve_left (by simp [hcore])
      have hne : s.ingress.currentRead ≠ s.ingress.ring.writeIdx := by
        rw [h.ingress.currentRead, Ne, h.ingress.ring.empty_iff (by decide)]
        exact Nat.ne_of_lt hlt
      simp only [if_neg hne]
      exact ⟨_, rfl, Prod.Lex.left _ _ (by simp [coreRank, hl, hcore, Loop.after])⟩
  | found => exact ⟨_, rfl, Prod.Lex.left _ _ (by simp [coreRank, hl, hcore, Loop.after])⟩
  | copied p =>
      obtain ⟨r, hr⟩ := submit_copied h.toSound hp hcore
      simp only [hr]
      exact ⟨_, rfl, Prod.Lex.left _ _ (by simp [coreRank, hl, hcore, Loop.after])⟩
  | submitted p accepted read =>
      rw [hcore] at hsound
      have hlt := (List.getElem?_eq_some_iff.mp hsound.1).1
      refine ⟨_, rfl, Prod.Lex.left _ _ ?_⟩
      simp only [coreRank, hl, hcore, Loop.after, List.length_append, List.length_singleton]
      omega
  | released p accepted =>
      by_cases hfills : accepted = true ∧ s.ingress.engine.market.execQ.items ≠ []
      · simp only [if_pos hfills]
        exact ⟨_, rfl, Prod.Lex.left _ _ (by simp [coreRank, hl, hcore, Loop.after, IngressRing.State.push])⟩
      · simp only [if_neg hfills]
        exact ⟨_, rfl, Prod.Lex.left _ _ (by simp [coreRank, hl, hcore, Loop.after])⟩
  | priced p accepted price =>
      exact ⟨_, rfl, Prod.Lex.left _ _ (by simp [coreRank, hl, hcore, Loop.after, IngressRing.State.push])⟩

theorem core_works (h : Running inBase outBase s) (hp : ∀ p ∈ s.ingress.enqueued, p.price.toNat ≤ maxPriceTicks)
    (ht : s.egress.todo = [])
    (hc : s.ingress.core ≠ .waiting ∨ s.ingress.consumed.length < s.ingress.enqueued.length) :
    ∃ a s', (a = .core ∨ a = .account 0) ∧ step R s a = some s' ∧ work s' < work s := by
  cases hl : s.loop with
  | test =>
      refine ⟨.core, { s with loop := .iterate }, .inl rfl, ?_, Prod.Lex.left _ _ (Nat.add_lt_add_left ?_ _)⟩
      · simp [step, coreStep, hl, h.awake.active]
      · have hcore := h.core (by simp [hl])
        simp [coreRank, hl, hcore]
  | iterate =>
      obtain ⟨s', hs, hlt⟩ := iterate_works h hp hl hc
      exact ⟨.core, s', .inl rfl, hs, hlt⟩
  | report =>
      refine ⟨.core, { s with loop := .account }, .inl rfl, ?_, Prod.Lex.left _ _ (Nat.add_lt_add_left ?_ _)⟩
      · simp [step, coreStep, hl, ht]
      · simp [coreRank, hl]
  | account =>
      obtain ⟨s', hs⟩ : ∃ s', step R s (.account 0) = some s' := by simp [step, accountStep, hl]
      refine ⟨.account 0, s', .inr rfl, hs, ?_⟩
      cases steps_of_step hs with
      | enqueue ha => simp [Action.enqueues] at ha
      | deliver ha => simp [Action.delivers] at ha
      | count => exact Prod.Lex.left _ _ (Nat.add_lt_add_left (by simp [coreRank, hl]) _)
      | batch =>
          have hle := push_rank_le s.metrics.push
          refine Prod.Lex.left _ _ (Nat.add_lt_add_left ?_ _)
          simp only [coreRank, hl]
          omega
  | sample packet =>
      have hrank := pushStep_rank 12 s.metrics packet
      by_cases hr : (s.metrics.pushStep 12 packet).2 = none
      · rw [if_pos hr] at hrank
        refine ⟨.core, { s with metrics := (s.metrics.pushStep 12 packet).1 }, .inl rfl, ?_,
          Prod.Lex.left _ _ (Nat.add_lt_add_left ?_ _)⟩
        · simp [step, coreStep, hl, hr]
        · simpa [coreRank, hl] using hrank
      · obtain ⟨s', hs⟩ : ∃ s', step R s .core = some s' := by simp [step, coreStep, hl, hr]
        have he : s' = { s with
            metrics := (s.metrics.pushStep 12 packet).1
            loop := .test
            iterationCounter := 0
            rollingCyclesSum := 0
            offered := s.offered ++ [packet] } := by
          simpa only [step, coreStep, hl, if_neg hr, Option.some.injEq] using hs.symm
        refine ⟨.core, s', .inl rfl, hs, ?_⟩
        rw [he]
        refine Prod.Lex.left _ _ (Nat.add_lt_add_left ?_ _)
        simp only [coreRank, hl]
        omega
  | exited => exact absurd hl h.loop

end Work

section Progress

variable {R : Rounding} {inBase outBase : BitVec 64} {s s' : State}

/-- A step of the engine, or of `Dequeue`. -/
def Serves (a : Action) : Prop := a = .receive ∨ a = .publisher ∨ a = .core ∨ a = .account 0

theorem step_enqueued {a : Action} (ha : Serves a) (h : step R s a = some s') :
    s'.ingress.enqueued = s.ingress.enqueued := by
  cases steps_of_step h with
  | enqueue he => rcases ha with rfl | rfl | rfl | rfl <;> simp [Action.enqueues] at he
  | iterate _ hi => exact coreStep_enqueued hi
  | signal | deliver | enter | leave | push | pushed | count | batch | sample | sampled | log | drain | early |
    due | join | clear | stop => rfl

theorem Serves.admitted {a : Action} (ha : Serves a) : a ≠ .signal ∧ a ≠ .send := by
  rcases ha with rfl | rfl | rfl | rfl <;> simp

/-- As long as something is on its way, one of the parties can bring it on. The
party furthest down the way goes first, so that there is room for the others. -/
theorem exists_work (h : Running inBase outBase s) (hp : ∀ p ∈ s.ingress.enqueued, p.price.toNat ≤ maxPriceTicks)
    (hq : ¬ Quiet s) : ∃ a s', Serves a ∧ step R s a = some s' ∧ work s' < work s := by
  have hreceived := h.egress.ring.carries.order
  have hpopped := h.egress.queue.ring.carries.order
  by_cases hring : s.egress.returned.length < s.egress.written.length
  · obtain ⟨s', hs, hlt⟩ := receive_works h.toInv hring
    exact ⟨.receive, s', .inl rfl, hs, hlt⟩
  have hring : s.egress.returned.length = s.egress.written.length := by omega
  by_cases hqueue : s.egress.queue.popped.length < s.egress.queue.pushed.length ∨ s.egress.publisher.flight ≠ []
  · obtain ⟨s', hs, hlt⟩ := publisher_works h hring hqueue
    exact ⟨.publisher, s', .inr (.inl rfl), hs, hlt⟩
  obtain ⟨hle, hflight⟩ := not_or.mp hqueue
  have hempty : s.egress.queue.popped.length = s.egress.queue.pushed.length := by omega
  by_cases ht : s.egress.todo = []
  · have hc : s.ingress.core ≠ .waiting ∨ s.ingress.consumed.length < s.ingress.enqueued.length := by
      by_contra hno
      obtain ⟨hcore, hconsumed⟩ := not_or.mp hno
      have hall := Nat.le_antisymm h.ingress.ring.order (Nat.not_lt.mp hconsumed)
      exact hq ⟨not_not.mp hcore, ht, (h.ingress.ring.empty_iff (by decide)).mpr hall,
        (h.egress.queue.ring.carries.empty_iff (by decide)).mpr hempty, not_not.mp hflight,
        (h.egress.ring.carries.empty_iff (by decide)).mpr hring⟩
    obtain ⟨a, s', ha, hs, hlt⟩ := core_works h hp ht hc
    exact ⟨a, s', .inr (.inr ha), hs, hlt⟩
  · have hl : s.loop = .report := by_contra fun hl => ht (h.todo hl)
    obtain ⟨s', hs, hlt⟩ := push_works h hl ht hempty
    exact ⟨.core, s', .inr (.inr (.inl rfl)), hs, hlt⟩

theorem serve_running {a : Action} (h : Running inBase outBase s) (ha : Serves a) (hs : step R s a = some s') :
    Running inBase outBase s' :=
  step_running h ha.admitted.1 (fun hsend => absurd hsend ha.admitted.2) hs

/-- Before the signal no state is a dead end: from wherever the run has come
to, the threads of the engine and `Dequeue` can go on, without anything from
outside, until every packet that was enqueued is answered in full. -/
theorem answers_arrive {packets : Nat → IngressPacket} {queued reports : Nat → EgressPacket}
    {snapshots : Nat → MetricsWorker.MetricsPacket} {actions : List Action}
    (h : Runs.Along (step R) (fun s a => a ≠ .signal ∧ ¬ Reuses s a)
      (init packets queued reports snapshots inBase outBase) actions)
    (hr : Runs.run (step R) (init packets queued reports snapshots inBase outBase) actions = some s)
    (hp : ∀ p ∈ s.ingress.enqueued, p.price.toNat ≤ maxPriceTicks) :
    ∃ more s' core, (∀ a ∈ more, Serves a) ∧ Runs.run (step R) s more = some s' ∧
      s'.ingress.enqueued = s.ingress.enqueued ∧
      Runs.run Core.consume .init s.ingress.enqueued = some core ∧ s'.egress.returned = core.pushed := by
  have hstep : ∀ t, Running inBase outBase t ∧ t.ingress.enqueued = s.ingress.enqueued → ¬ Quiet t →
      ∃ a t', Serves a ∧ step R t a = some t' ∧
        (Running inBase outBase t' ∧ t'.ingress.enqueued = s.ingress.enqueued) ∧ work t' < work t := by
    rintro t ⟨ht, henqueued⟩ hq
    obtain ⟨a, t', ha, hs, hlt⟩ := exists_work ht (henqueued ▸ hp) hq
    exact ⟨a, t', ha, hs, ⟨serve_running ht ha hs, (step_enqueued ha hs).trans henqueued⟩, hlt⟩
  obtain ⟨more, s', hmore, hrun, ⟨hrunning, henqueued⟩, hquiet⟩ :=
    Runs.exists_run_done work hstep ⟨run_running h (init_running ..) hr, rfl⟩
  obtain ⟨hconsumed, hreturned⟩ := hrunning.quiet hquiet
  have hfollows := hrunning.own.follows
  rw [hquiet.core, hconsumed, henqueued] at hfollows
  exact ⟨more, s', _, hmore, hrun, henqueued, hfollows, hreturned⟩

open ReportData (sell)

theorem answers_arrive_request :
    ∃ s more s' core, Runs.run (step .exact) start (request ++ []) = some s ∧ s.ingress.enqueued = [sell] ∧
      Runs.run (step .exact) s more = some s' ∧ Runs.run Core.consume .init [sell] = some core ∧
      s'.egress.returned = core.pushed := by
  have hrun : (Runs.run (step .exact) start (request ++ [])).map (fun s => s.ingress.enqueued) = some [sell] := by
    decide +kernel
  obtain ⟨s, hs, henqueued⟩ := Option.map_eq_some_iff.mp hrun
  obtain ⟨more, s', core, -, hmore, -, hcore, hreturned⟩ :=
    answers_arrive (along_request (by simp)) hs (by rw [henqueued]; decide +kernel)
  rw [henqueued] at hcore
  exact ⟨s, more, s', core, hs, henqueued, hmore, hcore, hreturned⟩

end Progress

end Sequitur.EngineProgress
