import Sequitur.EngineClosing
import Sequitur.IngressDelivery

namespace Sequitur.EngineShutdown

open OrderBook MatchingEngine Protocol CoreLoop Rings EngineProcess EngineDelivery EngineClosing

section Stuck

variable {R : Rounding} {inBase : BitVec 64} {s s' : State}

/-- The publisher has left, and the core has more to push than the queue can
hold. -/
structure Stuck (s : State) : Prop where
  handed : Teardown.Handed s.egress
  publisher : s.egress.publisher = .exited
  long : s.egress.queue.popped.length + 2 ^ 13 < (s.egress.queue.pushed ++ s.egress.todo).length
  loop : s.loop = .report
  main : s.main = .waiting

theorem egress_stuck (h : Stuck s) {b : EgressPipeline.Action} (hb : b = .gateway ∨ b = .core)
    {e : EgressPipeline.State} (he : EgressPipeline.step s.egress b = some e) : Stuck { s with egress := e } := by
  have hother : b ≠ .publisher := by rcases hb with rfl | rfl <;> simp
  have hnone : Teardown.reports b = [] := by rcases hb with rfl | rfl <;> rfl
  obtain ⟨hhanded, hpushed⟩ := Teardown.step_handed h.handed he
  obtain ⟨-, -, hpopped, -⟩ := Teardown.step_other hother he
  refine ⟨hhanded, exited_stays h.publisher he, ?_, h.loop, h.main⟩
  dsimp only
  rw [hpushed, hpopped, hnone, List.append_nil]
  exact h.long

theorem step_stuck {a : Action} (h : Stuck s) (hs : step R s a = some s') : Stuck s' := by
  cases steps_of_step hs with
  | signal => exact ⟨h.handed.move rfl rfl rfl, h.publisher, h.long, h.loop, h.main⟩
  | deliver ha he =>
      rcases party_of_delivers ha with rfl | rfl
      · exact egress_stuck h (.inl rfl) he
      · rw [EgressPipeline.step, EgressPipeline.publisherStep, h.publisher] at he
        simp at he
  | push _ _ he => exact egress_stuck h (.inr rfl) he
  | pushed _ ht =>
      have hlong := h.long
      rw [ht, List.append_nil] at hlong
      exact absurd h.handed.queue.ring.carries.room (Nat.not_le.mpr hlong)
  | enter hl | leave hl | iterate hl | count hl | batch hl | sample hl | sampled hl =>
      exact absurd (h.loop.symm.trans hl) (by simp)
  | join _ hl => exact absurd (h.loop.symm.trans hl) (by simp)
  | clear hm | stop hm => exact absurd (h.main.symm.trans hm) (by simp)
  | enqueue | log | drain | early | due => exact ⟨h.handed, h.publisher, h.long, h.loop, h.main⟩

theorem Stuck.not_over (h : Stuck s) {actions : List Action} (hr : Runs.run (step R) s actions = some s') :
    ¬ Over s' := by
  have hstuck := Runs.run_invariant (fun _ _ _ h hs => step_stuck h hs) h hr
  intro hover
  exact absurd (hstuck.main.symm.trans hover.main) (by simp)

end Stuck

section Reach

variable {R : Rounding} {inBase outBase : BitVec 64} {s₀ s s' : State}

/-- A run from `s₀` comes to `s` in which no slot of the ingress ring is reused
under the core. -/
def Reached (R : Rounding) (s₀ s : State) : Prop :=
  ∃ actions, Runs.Along (step R) (fun s a => ¬ Reuses s a) s₀ actions ∧ Runs.run (step R) s₀ actions = some s

theorem Reached.run (h : Reached R s₀ s) {actions : List Action}
    (ha : Runs.Along (step R) (fun s a => ¬ Reuses s a) s actions) (hr : Runs.run (step R) s actions = some s') :
    Reached R s₀ s' := by
  obtain ⟨before, halong, hrun⟩ := h
  refine ⟨before ++ actions, halong.append fun t ht => ?_, Runs.run_trans hrun hr⟩
  obtain rfl := Option.some.inj (hrun.symm.trans ht)
  exact ha

theorem Reached.step {a : Action} (h : Reached R s₀ s) (hno : ¬ Reuses s a) (hs : step R s a = some s') :
    Reached R s₀ s' := by
  have halong : Runs.Along (EngineProcess.step R) (fun s a => ¬ Reuses s a) s [a] := ⟨hno, fun _ _ => trivial⟩
  exact h.run halong (Runs.run_single hs)

variable {packets : Nat → IngressPacket} {queued reports : Nat → EgressPacket}
  {snapshots : Nat → MetricsWorker.MetricsPacket}

theorem Reached.closing (h : Reached R (init packets queued reports snapshots inBase outBase) s) :
    Closing inBase s := by
  obtain ⟨actions, halong, hr⟩ := h
  exact Runs.run_preserves (fun _ _ _ hs hno hstep => step_closing hs hno hstep) (init_closing ..) halong hr

def enqueueCall (p : IngressPacket) : List Action := [.enqueue p, .send, .send, .send]

theorem run_enqueueCall (hidle : s.ingress.gateway = .idle)
    (hempty : s.ingress.ring.readIdx = s.ingress.ring.writeIdx) (p : IngressPacket) :
    Runs.run (step R) s (enqueueCall p) = some { s with
      ingress := { s.ingress with
        ring := { s.ingress.ring with
          buf := Function.update s.ingress.ring.buf (slot 16 s.ingress.ring.writeIdx) p
          writeIdx := s.ingress.ring.writeIdx + 1 }
        gateway := .idle
        enqueued := s.ingress.enqueued ++ [p] } } := by
  have hroom : s.ingress.ring.writeIdx - s.ingress.ring.readIdx ≠ 65536#64 := by
    rw [hempty, BitVec.sub_self]
    decide
  simp [enqueueCall, Runs.run_cons, EngineProcess.step, IngressRing.step, IngressRing.gatewayStep, hidle, hroom]

structure Serving (R : Rounding) (inBase outBase : BitVec 64) (s₀ : State) (ps : List IngressPacket) (s : State) :
    Prop where
  reached : Reached R s₀ s
  running : Running inBase outBase s
  gateway : s.ingress.gateway = .idle
  enqueued : s.ingress.enqueued = ps

variable {ps : List IngressPacket}

theorem Serving.step {a : Action} (h : Serving R inBase outBase s₀ ps s) (ha : EngineProgress.Serves a)
    (hs : EngineProcess.step R s a = some s') : Serving R inBase outBase s₀ ps s' := by
  refine ⟨h.reached.step (fun hr => ha.admitted.2 hr.1) hs, EngineProgress.serve_running h.running ha hs, ?_,
    (EngineProgress.step_enqueued ha hs).trans h.enqueued⟩
  cases steps_of_step hs with
  | enqueue he => rcases ha with rfl | rfl | rfl | rfl <;> simp [Action.enqueues] at he
  | iterate _ hi => exact (IngressDelivery.coreStep_frame hi).1.trans h.gateway
  | signal | deliver | enter | leave | push | pushed | count | batch | sample | sampled | log | drain | early |
    due | join | clear | stop => exact h.gateway

theorem Serving.call (h : Serving R inBase outBase s₀ ps s) (hquiet : Quiet s) (p : IngressPacket) :
    ∃ s', Serving R inBase outBase s₀ (ps ++ [p]) s' ∧ s'.egress = s.egress := by
  have hcall := run_enqueueCall (R := R) h.gateway hquiet.ingress p
  have halong : Runs.Along (EngineProcess.step R) (fun s a => a ≠ .signal ∧ ¬ Reuses s a) s (enqueueCall p) :=
    along_call hquiet.core (by simp [enqueueCall, Action.enqueues])
  refine ⟨_, ⟨h.reached.run (halong.imp fun _ _ hno => hno.2) hcall, run_running halong h.running hcall, rfl, ?_⟩, rfl⟩
  exact congrArg (· ++ [p]) h.enqueued

theorem quiet_reached (hp : ∀ p ∈ ps, p.price.toNat ≤ maxPriceTicks) :
    ∃ s, Serving R inBase outBase (init packets queued reports snapshots inBase outBase) ps s ∧ Quiet s := by
  induction ps using List.reverseRecOn with
  | nil =>
      refine ⟨_, ⟨⟨[], trivial, rfl⟩, init_running .., rfl, rfl⟩, ?_⟩
      exact ⟨rfl, rfl, rfl, rfl, rfl, rfl⟩
  | append_singleton ps p ih =>
      obtain ⟨s, hs, hquiet⟩ := ih fun q hq => hp q (List.mem_append_left _ hq)
      obtain ⟨t, ht, -⟩ := hs.call hquiet p
      have hstep : ∀ t, Serving R inBase outBase (init packets queued reports snapshots inBase outBase) (ps ++ [p]) t →
          ¬ Quiet t → ∃ a t', EngineProgress.Serves a ∧ EngineProcess.step R t a = some t' ∧
            Serving R inBase outBase (init packets queued reports snapshots inBase outBase) (ps ++ [p]) t' ∧
            EngineProgress.work t' < EngineProgress.work t := by
        intro t ht hq
        obtain ⟨a, t', ha, hs, hlt⟩ := EngineProgress.exists_work ht.running (ht.enqueued ▸ hp) hq
        exact ⟨a, t', ha, hs, ht.step ha hs, hlt⟩
      obtain ⟨-, s', -, -, hs', hquiet'⟩ := Runs.exists_run_done EngineProgress.work hstep ht
      exact ⟨s', hs', hquiet'⟩

end Reach

section Shutdown

variable {R : Rounding} {inBase outBase : BitVec 64} {s₀ s s' : State}
  {packets : Nat → IngressPacket} {queued reports : Nat → EgressPacket}
  {snapshots : Nat → MetricsWorker.MetricsPacket}

theorem run_pushed {c c' : Core} {ps : List IngressPacket} (hr : Runs.run Core.consume c ps = some c') :
    c.pushed <+: c'.pushed := by
  have hstep : ∀ d p d', c.pushed <+: d.pushed → Core.consume d p = some d' → c.pushed <+: d'.pushed := by
    intro d p d' hd hs
    obtain ⟨r, -, rfl⟩ := Option.map_eq_some_iff.mp hs
    exact hd.trans (List.prefix_append _ _)
  exact Runs.run_invariant hstep List.prefix_rfl hr

theorem core_pushed {a : Action} (ha : a = .core ∨ a = .account 0) (ht : s.egress.todo = [])
    (hs : step R s a = some s') : s'.egress.queue.pushed = s.egress.queue.pushed := by
  cases steps_of_step hs with
  | deliver hd => rcases ha with rfl | rfl <;> simp [Action.delivers] at hd
  | push _ hne => exact absurd ht hne
  | signal | enqueue | enter | leave | iterate | pushed | count | batch | sample | sampled | log | drain | early |
    due | join | clear | stop => rfl

theorem reported_of_waiting (h : Sound inBase s) (hw : s.ingress.core = .waiting) :
    ∃ core, Runs.run Core.consume .init s.ingress.consumed = some core ∧
      core.pushed = s.egress.queue.pushed ++ s.egress.todo := by
  have hfollows := h.own.follows
  rw [hw] at hfollows
  exact ⟨_, hfollows, h.pushed.symm⟩

theorem reports_reached {ps : List IngressPacket} {p : IngressPacket} {core core' : Core}
    (hp : ∀ q ∈ ps ++ [p], q.price.toNat ≤ maxPriceTicks) (hcore : Runs.run Core.consume .init ps = some core)
    (hconsume : core.consume p = some core') (hmore : core.pushed.length < core'.pushed.length) :
    ∃ s, Serving R inBase outBase (init packets queued reports snapshots inBase outBase) (ps ++ [p]) s ∧
      core.pushed ++ s.egress.todo = core'.pushed := by
  obtain ⟨s, hs, hquiet⟩ : ∃ s,
      Serving R inBase outBase (init packets queued reports snapshots inBase outBase) ps s ∧ Quiet s :=
    quiet_reached fun q hq => hp q (List.mem_append_left _ hq)
  have hqueue : s.egress.queue.pushed = core.pushed := by
    obtain ⟨core₁, hrun, hpushed⟩ := reported_of_waiting hs.running.toSound hquiet.core
    rw [(hs.running.quiet hquiet).1, hs.enqueued, hcore] at hrun
    rw [hquiet.todo, List.append_nil] at hpushed
    rw [← hpushed, Option.some.inj hrun]
  obtain ⟨t, ht, htegress⟩ := hs.call hquiet p
  have hall : Runs.run Core.consume .init (ps ++ [p]) = some core' := Runs.run_concat hcore hconsume
  have hstep : ∀ t, (Serving R inBase outBase (init packets queued reports snapshots inBase outBase) (ps ++ [p]) t ∧
        t.egress.queue.pushed = core.pushed) → ¬ t.egress.todo ≠ [] →
      ∃ a t', (a = .core ∨ a = .account 0) ∧ step R t a = some t' ∧
        (Serving R inBase outBase (init packets queued reports snapshots inBase outBase) (ps ++ [p]) t' ∧
          t'.egress.queue.pushed = core.pushed) ∧ EngineProgress.work t' < EngineProgress.work t := by
    rintro t ⟨ht, hpushed⟩ htodo
    have htodo := not_not.mp htodo
    have hc : t.ingress.core ≠ .waiting ∨ t.ingress.consumed.length < t.ingress.enqueued.length := by
      by_contra hno
      obtain ⟨hwaiting, hconsumed⟩ := not_or.mp hno
      -- With all packets consumed and nothing to push, the reports of the last one are missing.
      obtain ⟨core₁, hrun, hreported⟩ := reported_of_waiting ht.running.toSound (not_not.mp hwaiting)
      rw [ht.running.ingress.consumed.eq_of_length_le (Nat.not_lt.mp hconsumed), ht.enqueued, hall] at hrun
      rw [← Option.some.inj hrun, htodo, List.append_nil, hpushed] at hreported
      exact absurd (congrArg List.length hreported) (Nat.ne_of_gt hmore)
    obtain ⟨a, t', ha, hs, hlt⟩ := EngineProgress.core_works ht.running (ht.enqueued ▸ hp) htodo hc
    exact ⟨a, t', ha, hs, ⟨ht.step (.inr (.inr ha)) hs, (core_pushed ha htodo hs).trans hpushed⟩, hlt⟩
  obtain ⟨-, u, -, -, ⟨hu, hupushed⟩, htodo⟩ :=
    Runs.exists_run_done EngineProgress.work hstep ⟨ht, htegress ▸ hqueue⟩
  refine ⟨u, hu, ?_⟩
  have hloop : u.loop = .report := by_contra fun hl => htodo (hu.running.todo hl)
  obtain ⟨core₁, hrun, hreported⟩ := reported_of_waiting hu.running.toSound (hu.running.core (by simp [hloop]))
  rw [hupushed] at hreported
  have hconsumed := hu.running.ingress.consumed
  rw [hu.enqueued] at hconsumed
  rcases List.prefix_concat_iff.mp hconsumed with hlast | ⟨rest, hrest⟩
  · rw [hlast, hall] at hrun
    rw [← hreported, Option.some.inj hrun]
  · -- Otherwise there would be no report to push yet.
    rw [← hrest, Runs.run_append, hrun, Option.bind_some] at hcore
    have hle := (run_pushed hcore).length_le
    rw [hreported, List.length_append] at hle
    exact absurd (List.length_eq_zero_iff.mp (by omega)) htodo

/-- The signal arrives when the core is about to push more reports than the
queue holds, and the publisher leaves before the first of them. -/
theorem stuck_reached {ps : List IngressPacket} {p : IngressPacket} {core core' : Core}
    (hp : ∀ q ∈ ps ++ [p], q.price.toNat ≤ maxPriceTicks) (hcore : Runs.run Core.consume .init ps = some core)
    (hconsume : core.consume p = some core') (hlong : core.pushed.length + 2 ^ 13 < core'.pushed.length) :
    ∃ s, Reached R (init packets queued reports snapshots inBase outBase) s ∧ s.egress.active = false ∧
      s.ingress.enqueued = ps ++ [p] ∧ Stuck s := by
  obtain ⟨t, ht, htodo⟩ : ∃ t,
      Serving R inBase outBase (init packets queued reports snapshots inBase outBase) (ps ++ [p]) t ∧
        core.pushed ++ t.egress.todo = core'.pushed :=
    reports_reached hp hcore hconsume (Nat.lt_of_le_of_lt (Nat.le_add_right _ _) hlong)
  have hlength : 2 ^ 13 < t.egress.todo.length := by
    rw [← htodo, List.length_append] at hlong
    exact Nat.lt_of_add_lt_add_left hlong
  have hloop : t.loop = .report := by
    by_contra hl
    rw [ht.running.todo hl] at hlength
    exact absurd hlength (by decide)
  have hsignal : step R t .signal = some { t with egress := { t.egress with active := false } } := rfl
  have hstep : ∀ u, (Reached R (init packets queued reports snapshots inBase outBase) u ∧ u.egress.active = false ∧
        u.ingress.enqueued = ps ++ [p] ∧ u.loop = .report ∧ u.egress.todo = t.egress.todo) →
        ¬ u.egress.publisher = .exited →
      ∃ a u', a = .publisher ∧ step R u a = some u' ∧
        (Reached R (init packets queued reports snapshots inBase outBase) u' ∧ u'.egress.active = false ∧
          u'.ingress.enqueued = ps ++ [p] ∧ u'.loop = .report ∧ u'.egress.todo = t.egress.todo) ∧
        publisherWork u'.egress < publisherWork u.egress := by
    rintro u ⟨hreached, hactive, henqueued, hloop, htodo⟩ hpub
    obtain ⟨e, he, htodo', -, hlt⟩ := publisher_leaves hreached.closing.handed hactive hpub
    have hends : Ends .publisher := .inr (.inr (.inl rfl))
    have hs : step R u .publisher = some { u with egress := e } := by rw [step, he]; rfl
    exact ⟨.publisher, _, rfl, hs, ⟨hreached.step (hends.not_reuses u) hs, (step_frame hends hs).2.trans hactive,
      henqueued, hloop, htodo'.trans htodo⟩, hlt⟩
  obtain ⟨-, s, -, -, ⟨hsreached, hactive, hsenqueued, hsloop, hstodo⟩, hexited⟩ :=
    Runs.exists_run_done (fun u : State => publisherWork u.egress) hstep
      ⟨ht.reached.step (by simp [Reuses]) hsignal, rfl, ht.enqueued, hloop, rfl⟩
  have hclosing := hsreached.closing
  refine ⟨s, hsreached, hactive, hsenqueued, hclosing.handed, hexited, ?_, hsloop, ?_⟩
  · have horder := hclosing.handed.queue.ring.carries.order
    rw [List.length_append, hstodo]
    omega
  · by_contra hm
    exact absurd (hsloop.symm.trans (hclosing.logged.main hm)) (by simp)

/-- Once the signal has arrived, the threads of the engine can always come to
their end, without the gateway and however full its ring is, exactly if no
order has more reports than `egress_queue` holds. Otherwise there is a run in
which the publisher leaves first and the core waits for ever. -/
theorem shutdown_completes_iff {ps : List IngressPacket} (hp : ∀ p ∈ ps, p.price.toNat ≤ maxPriceTicks) :
    (∀ s, Reached R (init packets queued reports snapshots inBase outBase) s → s.egress.active = false →
        s.ingress.enqueued <+: ps →
        ∃ more s', (∀ a ∈ more, Ends a) ∧ Runs.run (step R) s more = some s' ∧ Over s') ↔
      Fits ps := by
  constructor
  · intro hends done p core core' hpre hcore hconsume
    by_contra hlong
    obtain ⟨s, hreached, hactive, henqueued, hstuck⟩ :=
      stuck_reached (fun q hq => hp q (hpre.subset hq)) hcore hconsume (Nat.not_le.mp hlong)
    obtain ⟨more, s', -, hrun, hover⟩ := hends s hreached hactive (henqueued ▸ hpre)
    exact hstuck.not_over hrun hover
  · intro hfits s hreached hactive hpre
    exact hreached.closing.ends (hfits.anti hpre) (fun p hm => hp p (hpre.subset hm)) hactive

open ReportData (sell)

theorem shutdown_completes_iff_request :
    ∃ s more s', Runs.run (step .exact) start (enqueueCall sell ++ [.signal]) = some s ∧
      s.ingress.enqueued = [sell] ∧ Runs.run (step .exact) s more = some s' ∧ Over s' := by
  have hfits : Fits [sell] := by
    intro done p core core' hpre hcore hconsume
    have hone : (Core.init.consume sell).map (fun c => c.pushed.length) = some 1 := by decide +kernel
    cases done with
    | nil =>
        obtain rfl := (List.cons_prefix_cons.mp hpre).1
        obtain rfl := Option.some.inj hcore
        rw [hconsume] at hone
        have hlength : core'.pushed.length = 1 := Option.some.inj hone
        rw [hlength]
        exact Nat.le_trans (by decide) (Nat.le_add_left _ _)
    | cons q done => simpa using hpre.length_le
  have hrun : (Runs.run (step .exact) start (enqueueCall sell ++ [.signal])).map
      (fun s => (s.egress.active, s.ingress.enqueued)) = some (false, [sell]) := by
    decide +kernel
  have halong : Runs.Along (step .exact) (fun s a => ¬ Reuses s a) start (enqueueCall sell ++ [.signal]) := by
    have hcall : Runs.Along (step .exact) (fun s a => a ≠ .signal ∧ ¬ Reuses s a) start (enqueueCall sell) :=
      along_call rfl (by simp [enqueueCall, Action.enqueues])
    exact (hcall.imp fun _ _ hno => hno.2).append fun t _ => ⟨by simp [Reuses], fun _ _ => trivial⟩
  obtain ⟨s, hs, hresult⟩ := Option.map_eq_some_iff.mp hrun
  obtain ⟨hactive, henqueued⟩ := Prod.mk.inj hresult
  have hprice : ∀ p ∈ [sell], p.price.toNat ≤ maxPriceTicks := by decide +kernel
  obtain ⟨more, s', -, hmore, hover⟩ := (shutdown_completes_iff hprice).mpr hfits s
    ⟨enqueueCall sell ++ [.signal], halong, hs⟩ hactive (by rw [henqueued])
  exact ⟨s, more, s', hs, henqueued, hmore, hover⟩

end Shutdown

end Sequitur.EngineShutdown
