import Sequitur.EngineDelivery

namespace Sequitur.EngineTelemetry

open MatchingEngine Protocol CoreLoop Rings SPSCQueue MetricsWorker EngineProcess EngineDelivery
open Telemetry (batchWindow snapshot)

/-- The snapshot after the `j`-th full batch: the counters of a core that has
taken the first `64 * (j + 1)` packets, and the mean over the last 64. -/
def Shows (R : Rounding) (packets : List IngressPacket) (cycles : List UInt64) (j : Nat) (p : MetricsPacket) : Prop :=
  64 * (j + 1) ≤ packets.length ∧ 64 * (j + 1) ≤ cycles.length ∧
    ∃ c, Runs.run Core.consume .init (packets.take (64 * (j + 1))) = some c ∧
      p = snapshot R c.engine ((cycles.drop (64 * j)).take 64).sum

theorem Shows.extend {R : Rounding} {packets more : List IngressPacket} {cycles more' : List UInt64} {j : Nat}
    {p : MetricsPacket} (h : Shows R packets cycles j p) : Shows R (packets ++ more) (cycles ++ more') j p := by
  obtain ⟨hp, hc, c, hrun, he⟩ := h
  refine ⟨?_, ?_, c, ?_, ?_⟩
  · rw [List.length_append]
    omega
  · rw [List.length_append]
    omega
  · rw [List.take_append_of_le_length hp]
    exact hrun
  · rw [List.drop_append_of_le_length (by omega), List.take_append_of_le_length]
    · exact he
    · rw [List.length_drop]
      omega

section Sampling

def pending : Loop → IngressRing.Iteration → Nat
  | .iterate, .released _ _ | .iterate, .priced _ _ _ | .report, _ | .account, _ => 1
  | _, _ => 0

theorem iterate_pending {i i' : IngressRing.State} (h : IngressRing.coreStep i = some i') :
    i'.consumed.length + pending .iterate i.core =
      i.consumed.length + pending (.after i.core i'.core) i'.core := by
  rw [IngressRing.coreStep] at h
  split at h
  next hc => split at h <;> (obtain rfl := Option.some.inj h; simp [hc, Loop.after, pending])
  next hc =>
    obtain rfl := Option.some.inj h
    simp [hc, Loop.after, pending]
  next hc =>
    obtain ⟨r, -, rfl⟩ := Option.map_eq_some_iff.mp h
    simp [hc, Loop.after, pending]
  next hc =>
    obtain rfl := Option.some.inj h
    simp [hc, Loop.after, pending]
  next hc =>
    split at h <;> (obtain rfl := Option.some.inj h; simp [hc, Loop.after, pending, IngressRing.State.push])
  next hc =>
    obtain rfl := Option.some.inj h
    simp [hc, Loop.after, pending, IngressRing.State.push]

/-- The batches of the core: those that are closed have been offered to the
worker, and the open one is counted and summed up. -/
structure Sampling (R : Rounding) (s : State) : Prop where
  counted : s.cycles.length + pending s.loop s.ingress.core = s.ingress.consumed.length
  counter : 64 * s.offered.length + s.iterationCounter.toNat = s.cycles.length
  sum : s.rollingCyclesSum = (s.cycles.drop (64 * s.offered.length)).sum
  open_ : (∀ p, s.loop ≠ .sample p) → s.iterationCounter.toNat < 64
  closed : ∀ p, s.loop = .sample p →
    s.iterationCounter.toNat = 64 ∧ Shows R s.ingress.enqueued s.cycles s.offered.length p
  offered : ∀ j p, s.offered[j]? = some p → Shows R s.ingress.enqueued s.cycles j p

variable {R : Rounding} {inBase outBase : BitVec 64} {s s' : State} {a : Action}

theorem Sampling.enqueue (h : Sampling R s) {i : IngressRing.State} (hcore : i.core = s.ingress.core)
    (hconsumed : i.consumed = s.ingress.consumed) (henqueued : s.ingress.enqueued <+: i.enqueued) :
    Sampling R { s with ingress := i } := by
  obtain ⟨more, hmore⟩ := henqueued
  have hshows : ∀ j p, Shows R s.ingress.enqueued s.cycles j p → Shows R i.enqueued s.cycles j p := by
    intro j p hp
    rw [← hmore, ← List.append_nil s.cycles]
    exact hp.extend
  refine ⟨?_, h.counter, h.sum, h.open_, fun p hp => ?_, fun j p hp => hshows j p (h.offered j p hp)⟩
  · rw [hcore, hconsumed]
    exact h.counted
  · exact ⟨(h.closed p hp).1, hshows _ p (h.closed p hp).2⟩

theorem Sampling.move (h : Sampling R s) (hs : ∀ p, s.loop ≠ .sample p) {l : Loop} (hl : ∀ p, l ≠ .sample p)
    {i : IngressRing.State} {e : EgressPipeline.State} (henqueued : i.enqueued = s.ingress.enqueued)
    (hpending : i.consumed.length + pending s.loop s.ingress.core = s.ingress.consumed.length + pending l i.core) :
    Sampling R { s with loop := l, ingress := i, egress := e } := by
  have hcounted := h.counted
  refine ⟨?_, h.counter, h.sum, fun _ => h.open_ hs, fun p hp => absurd hp (hl p), ?_⟩
  · dsimp only
    omega
  · rw [henqueued]
    exact h.offered

theorem counter_succ (h : Sampling R s) (hl : s.loop = .account) :
    s.iterationCounter.toNat < 64 ∧ (s.iterationCounter + 1).toNat = s.iterationCounter.toNat + 1 := by
  have hlt := h.open_ (by simp [hl])
  refine ⟨hlt, ?_⟩
  rw [UInt64.toNat_add]
  exact Nat.mod_eq_of_lt (by simp; omega)

theorem sum_concat (h : Sampling R s) (cycles : UInt64) :
    s.rollingCyclesSum + cycles = ((s.cycles ++ [cycles]).drop (64 * s.offered.length)).sum := by
  have hcounter := h.counter
  rw [List.drop_append_of_le_length (by omega), List.sum_append, List.sum_singleton, h.sum]

theorem count_sampling (h : Sampling R s) (hl : s.loop = .account) (cycles : UInt64)
    (hc : s.iterationCounter + 1 < batchWindow) :
    Sampling R { s with
      rollingCyclesSum := s.rollingCyclesSum + cycles
      iterationCounter := s.iterationCounter + 1
      cycles := s.cycles ++ [cycles]
      loop := .test } := by
  obtain ⟨hlt, hsucc⟩ := counter_succ h hl
  have hcounted := h.counted
  have hcounter := h.counter
  rw [hl] at hcounted
  refine ⟨?_, ?_, sum_concat h cycles, fun _ => UInt64.lt_iff_toNat_lt.mp hc, by simp, fun j p hp => ?_⟩
  · rw [List.length_append]
    exact hcounted
  · dsimp only
    rw [hsucc, List.length_append, List.length_singleton]
    omega
  · rw [← List.append_nil s.ingress.enqueued]
    exact (h.offered j p hp).extend

theorem batch_sampling (hi : Inv inBase outBase s) (h : Sampling R s) (hl : s.loop = .account) (cycles : UInt64)
    (hc : batchWindow ≤ s.iterationCounter + 1) :
    Sampling R { s with
      rollingCyclesSum := s.rollingCyclesSum + cycles
      iterationCounter := s.iterationCounter + 1
      cycles := s.cycles ++ [cycles]
      loop := .sample (snapshot R s.ingress.engine (s.rollingCyclesSum + cycles)) } := by
  obtain ⟨hlt, hsucc⟩ := counter_succ h hl
  have hcounted := h.counted
  have hcounter := h.counter
  rw [hl] at hcounted
  have hle := UInt64.le_iff_toNat_le.mp hc
  have hfull : s.iterationCounter.toNat + 1 = 64 := by
    rw [hsucc] at hle
    have hwindow : batchWindow.toNat = 64 := rfl
    omega
  have hconsumed : s.ingress.consumed.length = 64 * (s.offered.length + 1) := by
    have hone : pending .account s.ingress.core = 1 := rfl
    omega
  have hcycles : (s.cycles ++ [cycles]).length = 64 * (s.offered.length + 1) := by
    rw [List.length_append, List.length_singleton]
    omega
  have hfollows := hi.own.follows
  rw [hi.core (by simp [hl])] at hfollows
  refine ⟨?_, ?_, sum_concat h cycles, fun hno => absurd rfl (hno _), fun p hp => ⟨?_, ?_⟩, fun j p hp => ?_⟩
  · rw [List.length_append]
    exact hcounted
  · dsimp only
    rw [hsucc, hcycles]
    omega
  · dsimp only
    rw [hsucc, hfull]
  · obtain rfl := Loop.sample.inj hp
    refine ⟨?_, hcycles.ge, ⟨s.ingress.engine, s.ingress.pushed.map Prod.snd⟩, ?_, ?_⟩
    · rw [← hconsumed]
      exact hi.ingress.consumed.length_le
    · rw [← hconsumed, ← List.prefix_iff_eq_take.mp hi.ingress.consumed]
      exact hfollows
    · -- The open batch has exactly 64 entries, so it is what is cut out for the snapshot.
      rw [List.take_of_length_le, sum_concat h cycles]
      rw [List.length_drop, hcycles]
      dsimp only
      omega
  · rw [← List.append_nil s.ingress.enqueued]
    exact (h.offered j p hp).extend

theorem sampled_sampling (h : Sampling R s) {p : MetricsPacket} (hl : s.loop = .sample p) (q : Queue MetricsPacket) :
    Sampling R { s with
      metrics := q
      loop := .test
      iterationCounter := 0
      rollingCyclesSum := 0
      offered := s.offered ++ [p] } := by
  have hcounted := h.counted
  have hcounter := h.counter
  obtain ⟨hfull, hshows⟩ := h.closed p hl
  rw [hl] at hcounted
  have hlen : (s.offered ++ [p]).length = s.offered.length + 1 := by simp
  refine ⟨hcounted, ?_, ?_, fun _ => by simp, by simp, fun j x hx => ?_⟩
  · dsimp only
    rw [hlen]
    simp only [UInt64.toNat_zero]
    omega
  · dsimp only
    rw [hlen, List.drop_eq_nil_of_le (by omega), List.sum_nil]
  · rcases Nat.lt_trichotomy j s.offered.length with hj | rfl | hj
    · rw [List.getElem?_append_left hj] at hx
      exact h.offered j x hx
    · rw [List.getElem?_concat_length] at hx
      exact Option.some.inj hx ▸ hshows
    · rw [List.getElem?_eq_none (by rw [hlen]; omega)] at hx
      simp at hx

theorem step_sampling (hi : Inv inBase outBase s) (h : Sampling R s) (hs : step R s a = some s') : Sampling R s' := by
  cases steps_of_step hs with
  | enqueue ha hb =>
      obtain ⟨-, hcore, hconsumed, henqueued⟩ := enqueue_frame (not_core_of_enqueues ha) hb
      exact h.enqueue hcore hconsumed henqueued
  | enter hl =>
      have hcore := hi.core (by simp [hl])
      exact h.move (by simp [hl]) (by simp) rfl (by simp [hl, hcore, pending])
  | leave hl => exact h.move (by simp [hl]) (by simp) rfl (by simp [hl, pending])
  | @iterate i hl hb =>
      refine h.move (by simp [hl]) (fun p => ?_) (coreStep_enqueued hb) ?_
      · rcases after_cases s.ingress.core i.core with ha | ha | ha <;> simp [ha]
      · rw [hl]
        exact iterate_pending hb
  | pushed hl => exact h.move (by simp [hl]) (by simp) rfl (by simp [hl, pending])
  | count hl hc => exact count_sampling h hl _ hc
  | batch hl hc => exact batch_sampling hi h hl _ hc
  | sampled hl => exact sampled_sampling h hl _
  | signal | deliver | push | sample | log | drain | early | due | join | clear | stop =>
      exact ⟨h.counted, h.counter, h.sum, h.open_, h.closed, h.offered⟩

end Sampling

section Logging

structure Logged (s : State) : Prop where
  metrics : SPSCQueue.Inv 12 0 s.metrics
  item : ∀ x, s.metrics.push.item = some x → s.loop = .sample x
  pushed : s.metrics.pushed.Sublist s.offered
  stopFlag : s.metrics.stopFlag = true → s.main = .done
  main : s.main ≠ .waiting → s.loop = .exited
  held : s.worker.currentOrders = (s.metrics.popped.getLast?.map MetricsPacket.totalOrders).getD 0
  reported : (s.log.map Report.throughputOps).sum = 4 * s.worker.lastOrders
  last : s.worker.lastOrders = 0 ∨ ∃ p ∈ s.metrics.popped, s.worker.lastOrders = p.totalOrders

variable {R : Rounding} {inBase outBase : BitVec 64} {s s' : State} {a : Action}

theorem Logged.move (h : Logged s) (hs : ∀ p, s.loop ≠ .sample p) (hl : s.loop ≠ .exited)
    (hm : s'.metrics = s.metrics) (ho : s'.offered = s.offered) (hmain : s'.main = s.main)
    (hw : s'.worker = s.worker) (hlog : s'.log = s.log) : Logged s' := by
  refine ⟨hm ▸ h.metrics, fun x hx => ?_, ?_, ?_, fun hne => ?_, ?_, ?_, ?_⟩
  · rw [hm] at hx
    exact absurd (h.item x hx) (hs x)
  · rw [hm, ho]
    exact h.pushed
  · rw [hm, hmain]
    exact h.stopFlag
  · rw [hmain] at hne
    exact absurd (h.main hne) hl
  · rw [hw, hm]
    exact h.held
  · rw [hlog, hw]
    exact h.reported
  · rw [hw, hm]
    exact h.last

theorem sample_logged (h : Logged s) {p : MetricsPacket} (hl : s.loop = .sample p)
    (hr : (s.metrics.pushStep 12 p).2 = none) : Logged { s with metrics := (s.metrics.pushStep 12 p).1 } := by
  have hown : ∀ y, s.metrics.push.item = some y → y = p := fun y hy =>
    (Loop.sample.inj (hl.symm.trans (h.item y hy))).symm
  obtain ⟨hitem, hpushed⟩ := pushStep_item 12 hown
  rw [if_neg (by simp [hr])] at hpushed
  refine ⟨pushStep_inv h.metrics (by decide) p, fun x hx => ?_, ?_, ?_, h.main, ?_, h.reported, ?_⟩
  · rw [hitem x hx]
    exact hl
  · rw [hpushed]
    exact h.pushed
  · rw [pushStep_stopFlag]
    exact h.stopFlag
  · rw [pushStep_popped]
    exact h.held
  · rw [pushStep_popped]
    exact h.last

theorem sampled_logged (h : Logged s) {p : MetricsPacket} (hl : s.loop = .sample p)
    (hr : (s.metrics.pushStep 12 p).2 ≠ none) :
    Logged { s with
      metrics := (s.metrics.pushStep 12 p).1
      loop := .test
      iterationCounter := 0
      rollingCyclesSum := 0
      offered := s.offered ++ [p] } := by
  have hown : ∀ y, s.metrics.push.item = some y → y = p := fun y hy =>
    (Loop.sample.inj (hl.symm.trans (h.item y hy))).symm
  have hpushed := (pushStep_item 12 hown).2
  have hidle := pushStep_rank 12 s.metrics p
  rw [if_neg hr] at hidle
  refine ⟨pushStep_inv h.metrics (by decide) p, ?_, ?_, ?_, fun hm => ?_, ?_, h.reported, ?_⟩
  · simp [hidle, Push.item]
  · dsimp only
    split at hpushed
    next =>
      rw [hpushed.1]
      exact h.pushed.append_right [p]
    next =>
      rw [hpushed]
      exact h.pushed.trans (List.sublist_append_left _ _)
  · rw [pushStep_stopFlag]
    exact h.stopFlag
  · exact absurd (h.main hm) (by simp [hl])
  · rw [pushStep_popped]
    exact h.held
  · rw [pushStep_popped]
    exact h.last

def lastTotal (packets : List MetricsPacket) : UInt64 := (packets.getLast?.map MetricsPacket.totalOrders).getD 0

theorem foldl_lastOrders (w : Worker) (packets : List MetricsPacket) :
    (packets.foldl Worker.consume w).lastOrders = w.lastOrders := by
  induction packets generalizing w with
  | nil => rfl
  | cons p ps ih => exact (ih (w.consume p)).trans (Telemetry.consume_lastOrders w p)

theorem foldl_currentOrders {w : Worker} {popped : List MetricsPacket} (h : w.currentOrders = lastTotal popped)
    (packets : List MetricsPacket) :
    (packets.foldl Worker.consume w).currentOrders = lastTotal (popped ++ packets) := by
  induction packets generalizing w popped with
  | nil => simpa using h
  | cons p ps ih =>
      have hp : (w.consume p).currentOrders = lastTotal (popped ++ [p]) := by
        simp [Telemetry.consume_currentOrders, lastTotal]
      simpa using ih hp

theorem drain_logged (h : Logged s) (l : Logging) :
    Logged { s with
      metrics := (s.metrics.popStep 12).1
      worker := (received (s.metrics.popStep 12).2).foldl Worker.consume s.worker
      logging := l } := by
  refine ⟨popStep_inv h.metrics (by decide), h.item, h.pushed, h.stopFlag, h.main, foldl_currentOrders h.held _, ?_, ?_⟩
  · rw [foldl_lastOrders]
    exact h.reported
  · rw [foldl_lastOrders]
    exact h.last.imp_right fun ⟨p, hp, he⟩ => ⟨p, List.mem_append_left _ hp, he⟩

theorem lastTotal_cases (packets : List MetricsPacket) :
    lastTotal packets = 0 ∨ ∃ p ∈ packets, lastTotal packets = p.totalOrders := by
  rcases List.eq_nil_or_concat packets with rfl | ⟨ps, p, rfl⟩
  · exact .inl rfl
  · exact .inr ⟨p, by simp, by simp [lastTotal]⟩

theorem report_logged (h : Logged s) :
    Logged { s with
      worker := (s.worker.report R).1
      logging := .test
      log := s.log ++ [(s.worker.report R).2] } := by
  refine ⟨h.metrics, h.item, h.pushed, h.stopFlag, h.main, h.held, ?_, ?_⟩
  · rw [List.map_append, List.sum_append, h.reported]
    simp only [Worker.report, List.map_cons, List.map_nil, List.sum_singleton]
    grind
  · have hheld : s.worker.currentOrders = lastTotal s.metrics.popped := h.held
    simp only [Worker.report, hheld]
    exact lastTotal_cases s.metrics.popped

theorem step_logged (h : Logged s) (hs : step R s a = some s') : Logged s' := by
  cases steps_of_step hs with
  | signal | enqueue | deliver | log | early =>
      exact ⟨h.metrics, h.item, h.pushed, h.stopFlag, h.main, h.held, h.reported, h.last⟩
  | push => exact ⟨h.metrics, h.item, h.pushed, h.stopFlag, h.main, h.held, h.reported, h.last⟩
  | enter hl | iterate hl | pushed hl | count hl | batch hl =>
      exact h.move (by simp [hl]) (by simp [hl]) rfl rfl rfl rfl rfl
  | leave hl =>
      refine ⟨h.metrics, fun x hx => ?_, h.pushed, h.stopFlag, fun _ => rfl, h.held, h.reported, h.last⟩
      exact absurd (h.item x hx) (by simp [hl])
  | sample hl hr => exact sample_logged h hl hr
  | sampled hl hr => exact sampled_logged h hl hr
  | drain => exact drain_logged h _
  | due => exact report_logged h
  | join hm hl =>
      refine ⟨h.metrics, h.item, h.pushed, fun hf => ?_, fun _ => hl, h.held, h.reported, h.last⟩
      exact absurd (hm.symm.trans (h.stopFlag hf)) (by simp)
  | clear hm =>
      refine ⟨h.metrics, h.item, h.pushed, fun hf => ?_, fun _ => h.main (by simp [hm]), h.held, h.reported, h.last⟩
      exact absurd (hm.symm.trans (h.stopFlag hf)) (by simp)
  | stop hm =>
      exact ⟨⟨h.metrics.ring, h.metrics.cached, h.metrics.producer⟩, h.item, h.pushed, fun _ => rfl,
        fun _ => h.main (by simp [hm]), h.held, h.reported, h.last⟩

end Logging

section Runs

variable {R : Rounding} {inBase outBase : BitVec 64} {s : State} {packets : Nat → IngressPacket}
  {queued reports : Nat → EgressPacket} {snapshots : Nat → MetricsPacket} {actions : List Action}

theorem init_sampling (R : Rounding) (packets : Nat → IngressPacket) (queued reports : Nat → EgressPacket)
    (snapshots : Nat → MetricsPacket) (inBase outBase : BitVec 64) :
    Sampling R (init packets queued reports snapshots inBase outBase) :=
  ⟨rfl, rfl, rfl, fun _ => by simp [init], by simp [init], by simp [init]⟩

theorem init_logged (packets : Nat → IngressPacket) (queued reports : Nat → EgressPacket)
    (snapshots : Nat → MetricsPacket) (inBase outBase : BitVec 64) :
    Logged (init packets queued reports snapshots inBase outBase) where
  metrics := SPSCQueue.init_inv 12 snapshots 0
  item := by simp [init, Queue.init, Push.item]
  pushed := List.Sublist.refl _
  stopFlag := by simp [init, Queue.init]
  main := by simp [init]
  held := rfl
  reported := rfl
  last := .inl rfl

theorem run_logged
    (h : Runs.Along (step R) (fun s a => ¬ Overwrites s a) (init packets queued reports snapshots inBase outBase)
      actions)
    (hr : Runs.run (step R) (init packets queued reports snapshots inBase outBase) actions = some s) :
    Sampling R s ∧ Logged s := by
  have hstep : ∀ s a s', Inv inBase outBase s ∧ Sampling R s ∧ Logged s → ¬ Overwrites s a → step R s a = some s' →
      Inv inBase outBase s' ∧ Sampling R s' ∧ Logged s' := fun s a s' hs hno hst =>
    ⟨step_inv hs.1 hno hst, step_sampling hs.1 hs.2.1 hst, step_logged hs.2.2 hst⟩
  exact (Runs.run_preserves hstep ⟨init_inv .., init_sampling .., init_logged ..⟩ h hr).2

/-- The core takes a snapshot after every 64 packets and at no other time. It
shows the counters of a core that has taken just these packets; what the worker
gets are some of the snapshots in their order, and one is left out only if 4096
others are waiting. The queues of the engine are taken to be long enough. -/
theorem snapshots_on_schedule
    (h : Runs.Along (step R) (fun s a => ¬ Overwrites s a) (init packets queued reports snapshots inBase outBase)
      actions)
    (hr : Runs.run (step R) (init packets queued reports snapshots inBase outBase) actions = some s) :
    64 * s.offered.length + s.iterationCounter.toNat = s.cycles.length ∧ s.iterationCounter.toNat ≤ 64 ∧
      s.cycles.length ≤ s.ingress.consumed.length ∧ s.ingress.consumed.length ≤ s.cycles.length + 1 ∧
      (∀ j p, s.offered[j]? = some p → Shows R s.ingress.enqueued s.cycles j p) ∧
      s.metrics.popped <+: s.metrics.pushed ∧ s.metrics.pushed.Sublist s.offered ∧
      ∀ s', step R s .core = some s' → s'.offered ≠ s.offered → s'.metrics.pushed = s.metrics.pushed →
        s.metrics.pushed.length = s.metrics.popped.length + 4096 := by
  obtain ⟨hsampling, hlogged⟩ := run_logged h hr
  have hcounted := hsampling.counted
  have hpending : pending s.loop s.ingress.core ≤ 1 := by
    rw [pending.eq_def]
    split <;> simp
  refine ⟨hsampling.counter, ?_, by omega, by omega, hsampling.offered, hlogged.metrics.ring.ordered, hlogged.pushed,
    fun s' hs hoffered hdropped => ?_⟩
  · by_cases hl : ∃ p, s.loop = .sample p
    · obtain ⟨p, hp⟩ := hl
      exact (hsampling.closed p hp).1.le
    · exact (hsampling.open_ fun p hp => hl ⟨p, hp⟩).le
  · cases steps_of_step hs with
    | @sampled p hl hend =>
        have hstop : s.metrics.stopFlag = false := by
          by_contra hf
          have hdone := hlogged.stopFlag (by simpa using hf)
          exact absurd (hlogged.main (by simp [hdone])) (by simp [hl])
        have hroom := hlogged.metrics.ring.carries.room
        by_contra hne
        have hok := pushStep_ne_false hlogged.metrics (by decide) hstop (by omega) p
        have hown : ∀ y, s.metrics.push.item = some y → y = p := fun y hy =>
          (Loop.sample.inj (hl.symm.trans (hlogged.item y hy))).symm
        have hpushed := (pushStep_item 12 hown).2
        have htrue : (s.metrics.pushStep 12 p).2 = some true := by
          rcases hr : (s.metrics.pushStep 12 p).2 with - | - | -
          · exact absurd hr hend
          · exact absurd hr hok
          · rfl
        rw [if_pos htrue] at hpushed
        simp [hpushed.1] at hdropped
    | enqueue ha => simp [Action.enqueues] at ha
    | deliver ha => simp [Action.delivers] at ha
    | enter | leave | iterate | push | pushed | sample => exact absurd rfl hoffered

def buy : IngressPacket := ⟨newOrder, 0, 1, 8, 5, 100, 2⟩

def requests : List Action := (List.replicate 32 (request ++ [.enqueue buy, .send, .send, .send])).flatten

/-- They are taken, answered and counted one after the other, the snapshot is
pushed, and the worker pops it and reports. The report of a fill takes one
access less, since it does not go back to the packet. -/
def batch : List Action :=
  (List.replicate 32 (List.replicate 12 .core ++ .account 100 :: List.replicate 11 .core ++ [.account 80])).flatten ++
    List.replicate 4 .core ++ List.replicate 7 .worker ++ [.clock true]

theorem along_batch : Runs.Along (step .exact) (fun s a => ¬ Overwrites s a) start (requests ++ batch) := by
  have hcalls : ∀ a ∈ requests, a.enqueues.isSome := by decide +kernel
  have hserved : ∀ a ∈ batch, a ≠ .signal ∧ a ≠ .send := by decide +kernel
  exact along_not_overwrites (along_requests hcalls hserved) (init_running ..)

theorem run_batch :
    ∃ s p, Runs.run (step .exact) start (requests ++ batch) = some s ∧ s.cycles.length = 64 ∧ s.offered = [p] ∧
      [p.totalOrders, p.totalTrades] = [64, 32] ∧ s.metrics.popped.length = 1 ∧
      s.log.map (fun r => [r.totalOrders, r.totalTrades, r.throughputOps]) = [[64, 32, 256]] := by
  have hrun : (Runs.run (step .exact) start (requests ++ batch)).map (fun s =>
      (s.cycles.length, s.offered.map fun p => [p.totalOrders, p.totalTrades], s.metrics.popped.length,
        s.log.map fun r => [r.totalOrders, r.totalTrades, r.throughputOps])) =
      some (64, [[64, 32]], 1, [[64, 32, 256]]) := by
    decide +kernel
  obtain ⟨s, hs, hstate⟩ := Option.map_eq_some_iff.mp hrun
  simp only [Prod.mk.injEq] at hstate
  obtain ⟨hcycles, hoffered, hpopped, hlog⟩ := hstate
  obtain ⟨p, hp, htotals⟩ := List.map_eq_singleton_iff.mp hoffered
  exact ⟨s, p, hs, hcycles, hp, htotals, hpopped, hlog⟩

theorem snapshots_on_schedule_batch :
    ∃ s p, Runs.run (step .exact) start (requests ++ batch) = some s ∧ s.cycles.length = 64 ∧ s.offered = [p] ∧
      [p.totalOrders, p.totalTrades] = [64, 32] ∧ Shows .exact s.ingress.enqueued s.cycles 0 p ∧
      s.metrics.popped.length = 1 ∧ s.metrics.popped <+: s.metrics.pushed := by
  obtain ⟨s, p, hs, hcycles, hp, htotals, hpopped, -⟩ := run_batch
  obtain ⟨-, -, -, -, hshows, hpre, -⟩ := snapshots_on_schedule along_batch hs
  exact ⟨s, p, hs, hcycles, hp, htotals, hshows 0 p (by rw [hp]; rfl), hpopped, hpre⟩

end Runs

end Sequitur.EngineTelemetry
