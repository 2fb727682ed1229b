import Sequitur.EgressDelivery
import Sequitur.EngineProcess
import Sequitur.ReportData
import Sequitur.Teardown

namespace Sequitur.EngineDelivery

open MatchingEngine Protocol CoreLoop Rings EngineProcess

section Iteration

variable {i i' : IngressRing.State}

theorem coreStep_cases (h : IngressRing.coreStep i = some i') :
    (i'.pushed = i.pushed ∧ (i'.core = .waiting → i.core = .waiting)) ∨
      ∃ rs, i' = i.push rs ∧ i.core ≠ .waiting := by
  rw [IngressRing.coreStep] at h
  split at h
  next hc =>
    split at h
    next => exact .inl (Option.some.inj h ▸ ⟨rfl, id⟩)
    next => exact .inl (Option.some.inj h ▸ ⟨rfl, fun _ => hc⟩)
  next => exact .inl (Option.some.inj h ▸ ⟨rfl, by simp⟩)
  next =>
    obtain ⟨r, -, rfl⟩ := Option.map_eq_some_iff.mp h
    exact .inl ⟨rfl, by simp⟩
  next => exact .inl (Option.some.inj h ▸ ⟨rfl, by simp⟩)
  next hc =>
    split at h
    next => exact .inr ⟨_, (Option.some.inj h).symm, by simp [hc]⟩
    next => exact .inl (Option.some.inj h ▸ ⟨rfl, by simp⟩)
  next hc => exact .inr ⟨_, (Option.some.inj h).symm, by simp [hc]⟩

theorem coreStep_enqueued (h : IngressRing.coreStep i = some i') :
    i'.enqueued = i.enqueued := by
  rw [IngressRing.coreStep] at h
  split at h
  · split at h <;> exact Option.some.inj h ▸ rfl
  · exact Option.some.inj h ▸ rfl
  · obtain ⟨r, -, rfl⟩ := Option.map_eq_some_iff.mp h
    rfl
  · exact Option.some.inj h ▸ rfl
  · split at h <;> exact Option.some.inj h ▸ rfl
  · exact Option.some.inj h ▸ rfl

theorem made_eq {l : List (Nat × EgressPacket)} (h : i'.pushed = i.pushed ++ l) : made i i' = l.map Prod.snd := by
  rw [made, h, List.drop_left]

theorem after_ne_waiting (c : IngressRing.Iteration) {d : IngressRing.Iteration} (h : d ≠ .waiting) :
    Loop.after c d = .iterate := by
  cases d with
  | waiting => exact absurd rfl h
  | found | copied | submitted | released | priced => cases c <;> rfl

theorem after_waiting {c : IngressRing.Iteration} (h : c ≠ .waiting) : Loop.after c .waiting = .report := by
  cases c with
  | waiting => exact absurd rfl h
  | found | copied | submitted | released | priced => rfl

theorem after_cases (c d : IngressRing.Iteration) :
    Loop.after c d = .test ∨ Loop.after c d = .report ∨ Loop.after c d = .iterate := by
  cases c <;> cases d <;> simp [Loop.after]

structure Iterated (i i' : IngressRing.State) : Prop where
  pushed : i'.pushed.map Prod.snd = i.pushed.map Prod.snd ++ made i i'
  todo : Loop.after i.core i'.core ≠ .report → made i i' = []
  core : Loop.after i.core i'.core ≠ .iterate → i'.core = .waiting

theorem coreStep_iterated (h : IngressRing.coreStep i = some i') : Iterated i i' := by
  rcases coreStep_cases h with ⟨hp, hc⟩ | ⟨rs, rfl, hc⟩
  · have hmade : made i i' = [] := made_eq (hp.trans (List.append_nil _).symm)
    refine ⟨by rw [hmade, hp, List.append_nil], fun _ => hmade, fun ha => ?_⟩
    by_contra hw
    exact ha (after_ne_waiting _ hw)
  · refine ⟨?_, fun ha => absurd (after_waiting hc) ha, fun _ => rfl⟩
    rw [made_eq rfl]
    exact List.map_append

end Iteration

/-- A slot is written that its reader has not done with: the gateway reuses a
slot of the ingress ring under the core, or the publisher a slot of the full
egress ring. -/
def Overwrites (s : State) : Action → Prop
  | .send => ReportData.Overwrites s.ingress .gateway
  | .publisher => EgressPipeline.Overwrites s.egress .publisher
  | _ => False

section Decidable

def writing : IngressRing.Enqueue → Option (IngressPacket × BitVec 64)
  | .checked packet currWrite => some (packet, currWrite)
  | .idle | .loadedRead _ _ | .stored _ _ => none

def storing : EgressPipeline.Publisher → Bool
  | .ready _ => true
  | .test | .testTail | .testHead _ | .popping | .loading _ | .full _ | .stored _ | .exited => false

theorem send_overwrites_iff {i : IngressRing.State} :
    (∃ x ∈ writing i.gateway, ReportData.reporting i.core ∧ slot 16 x.2 = slot 16 (i.currentRead - 1) ∧
      (x.1.price ≠ i.packet.price ∨ x.1.quantity ≠ i.packet.quantity)) ↔ ReportData.Overwrites i .gateway := by
  constructor
  · rintro ⟨⟨packet, currWrite⟩, hx, h⟩
    cases hg : i.gateway with
    | checked =>
        rw [hg] at hx
        obtain ⟨rfl, rfl⟩ := Prod.mk.inj (Option.some.inj hx)
        exact ⟨_, _, rfl, hg, h⟩
    | idle | loadedRead | stored => simp [writing, hg] at hx
  · rintro ⟨packet, currWrite, -, hg, h⟩
    exact ⟨(packet, currWrite), by rw [hg]; rfl, h⟩

theorem publisher_overwrites_iff {e : EgressPipeline.State} :
    (storing e.publisher = true ∧ e.ring.writeIdx - e.ring.readIdx = 65536) ↔
      EgressPipeline.Overwrites e .publisher := by
  have hiff : storing e.publisher = true ↔ ∃ packet, e.publisher = .ready packet := by
    cases e.publisher <;> simp [storing]
  rw [hiff, EgressPipeline.Overwrites]
  exact (and_iff_right rfl).symm

instance : DecidablePred ReportData.reporting
  | .submitted _ _ _ | .waiting | .found | .copied _ => inferInstanceAs (Decidable False)
  | .released _ _ | .priced _ _ _ => inferInstanceAs (Decidable True)

instance (s : State) : DecidablePred (Overwrites s)
  | .send => decidable_of_iff _ send_overwrites_iff
  | .publisher => decidable_of_iff _ publisher_overwrites_iff
  | .signal | .enqueue _ | .receive | .core | .account _ | .worker | .clock _ | .main => .isFalse id

end Decidable

def Reuses (s : State) (a : Action) : Prop := a = .send ∧ ReportData.Overwrites s.ingress .gateway

/-- The core between the ingress ring and `egress_queue`, whatever becomes of
the reports in the egress ring. -/
structure Sound (inBase : BitVec 64) (s : State) : Prop where
  ingress : IngressRing.Inv inBase s.ingress
  own : ReportData.Own s.ingress
  handed : Teardown.Handed s.egress
  pushed : s.egress.queue.pushed ++ s.egress.todo = s.ingress.pushed.map Prod.snd
  todo : s.loop ≠ .report → s.egress.todo = []
  core : s.loop ≠ .iterate → s.ingress.core = .waiting

structure Inv (inBase outBase : BitVec 64) (s : State) : Prop extends Sound inBase s where
  egress : EgressPipeline.Inv outBase s.egress

variable {R : Rounding} {inBase outBase : BitVec 64} {s s' : State} {a : Action}

section Sound

theorem init_sound (packets : Nat → IngressPacket) (queued reports : Nat → EgressPacket)
    (snapshots : Nat → MetricsWorker.MetricsPacket) (inBase outBase : BitVec 64) :
    Sound inBase (init packets queued reports snapshots inBase outBase) where
  ingress := IngressRing.init_inv packets inBase
  own := ReportData.init_own packets inBase
  handed := Teardown.init_handed queued reports outBase
  pushed := rfl
  todo := fun _ => rfl
  core := fun _ => rfl

theorem Sound.congr (h : Sound inBase s) (hi : s'.ingress = s.ingress) (he : s'.egress = s.egress)
    (ht : s'.loop ≠ .report → s.egress.todo = []) (hc : s'.loop ≠ .iterate → s.ingress.core = .waiting) :
    Sound inBase s' := by
  refine ⟨hi ▸ h.ingress, hi ▸ h.own, he ▸ h.handed, ?_, ?_, ?_⟩
  · rw [hi, he]
    exact h.pushed
  · rw [he]
    exact ht
  · rw [hi]
    exact hc

theorem not_core_of_enqueues {b : IngressRing.Action} (ha : a.enqueues = some b) : b ≠ .core := by
  cases a <;> simp [Action.enqueues] at ha <;> simp [← ha]

theorem enqueue_frame {i i' : IngressRing.State} {b : IngressRing.Action} (hb : b ≠ .core)
    (h : IngressRing.step i b = some i') :
    i'.pushed = i.pushed ∧ i'.core = i.core ∧ i'.consumed = i.consumed ∧ i.enqueued <+: i'.enqueued := by
  cases b with
  | enqueue packet =>
      rw [IngressRing.step] at h
      split at h
      next => exact Option.some.inj h ▸ ⟨rfl, rfl, rfl, List.prefix_rfl⟩
      next => simp at h
  | gateway =>
      rw [IngressRing.step, IngressRing.gatewayStep] at h
      split at h
      next => simp at h
      next => split at h <;> exact Option.some.inj h ▸ ⟨rfl, rfl, rfl, List.prefix_rfl⟩
      next => exact Option.some.inj h ▸ ⟨rfl, rfl, rfl, List.prefix_rfl⟩
      next => exact Option.some.inj h ▸ ⟨rfl, rfl, rfl, List.prefix_append _ _⟩
  | core => exact absurd rfl hb

theorem enqueue_sound (h : Sound inBase s) {b : IngressRing.Action} {i : IngressRing.State} (hb : b ≠ .core)
    (hno : ¬ ReportData.Overwrites s.ingress b) (hi : IngressRing.step s.ingress b = some i) :
    Sound inBase { s with ingress := i } := by
  obtain ⟨hp, hc, -⟩ := enqueue_frame hb hi
  refine ⟨IngressRing.step_inv h.ingress hi, ReportData.step_own h.ingress h.own hno hi, h.handed, ?_, h.todo, ?_⟩
  · rw [hp]
    exact h.pushed
  · rw [hc]
    exact h.core

theorem deliver_sound (h : Sound inBase s) {b : EgressPipeline.Action} {e : EgressPipeline.State}
    (hb : b = .gateway ∨ b = .publisher) (he : EgressPipeline.step s.egress b = some e) :
    Sound inBase { s with egress := e } := by
  obtain ⟨hh, hp⟩ := Teardown.step_handed h.handed he
  have hr : Teardown.reports b = [] := by rcases hb with rfl | rfl <;> rfl
  have htodo : e.todo = s.egress.todo := by
    rcases hb with rfl | rfl <;> cases EgressPipeline.steps_of_step he <;> rfl
  refine ⟨h.ingress, h.own, hh, ?_, ?_, h.core⟩
  · rw [hp, hr, List.append_nil]
    exact h.pushed
  · rw [htodo]
    exact h.todo

theorem iterate_sound (h : Sound inBase s) (hl : s.loop = .iterate) {i : IngressRing.State}
    (hi : IngressRing.step s.ingress .core = some i) :
    Sound inBase { s with
      ingress := i
      egress := { s.egress with todo := made s.ingress i }
      loop := .after s.ingress.core i.core } := by
  have hit := coreStep_iterated hi
  have htodo : s.egress.todo = [] := h.todo (by simp [hl])
  have hidle : ∀ x, s.egress.queue.push.item ≠ some x := fun x hx => by simpa [htodo] using h.handed.item x hx
  have hpushed := h.pushed
  rw [htodo, List.append_nil] at hpushed
  refine ⟨IngressRing.step_inv h.ingress hi,
    ReportData.step_own h.ingress h.own (ReportData.not_overwrites_core _) hi,
    ⟨h.handed.queue, h.handed.popped, fun x hx => absurd hx (hidle x)⟩, ?_, hit.todo, hit.core⟩
  rw [hit.pushed, ← hpushed]

theorem push_sound (h : Sound inBase s) (hl : s.loop = .report) {e : EgressPipeline.State}
    (he : EgressPipeline.step s.egress .core = some e) : Sound inBase { s with egress := e } := by
  obtain ⟨hh, hp⟩ := Teardown.step_handed h.handed he
  refine ⟨h.ingress, h.own, hh, ?_, fun hr => absurd hl hr, h.core⟩
  have hr : Teardown.reports .core = [] := rfl
  rw [hp, hr, List.append_nil]
  exact h.pushed

theorem party_of_delivers {b : EgressPipeline.Action} (ha : a.delivers = some b) : b = .gateway ∨ b = .publisher := by
  cases a <;> simp [Action.delivers] at ha <;> simp [← ha]

theorem step_sound (h : Sound inBase s) (hno : ¬ Reuses s a) (hs : step R s a = some s') : Sound inBase s' := by
  cases steps_of_step hs with
  | signal => exact ⟨h.ingress, h.own, h.handed.move rfl rfl rfl, h.pushed, h.todo, h.core⟩
  | @enqueue _ b i ha hi =>
      refine enqueue_sound h (not_core_of_enqueues ha) (fun ho => ?_) hi
      cases a with
      | enqueue packet =>
          obtain rfl := Option.some.inj ha
          simp [ReportData.Overwrites] at ho
      | send =>
          obtain rfl := Option.some.inj ha
          exact hno ⟨rfl, ho⟩
      | signal | receive | core | account | publisher | worker | clock | main => simp [Action.enqueues] at ha
  | deliver ha he => exact deliver_sound h (party_of_delivers ha) he
  | enter hl | leave hl =>
      exact h.congr rfl rfl (fun _ => h.todo (by simp [hl])) (fun _ => h.core (by simp [hl]))
  | iterate hl hi => exact iterate_sound h hl hi
  | push hl _ he => exact push_sound h hl he
  | pushed hl ht => exact h.congr rfl rfl (fun _ => ht) (fun _ => h.core (by simp [hl]))
  | count hl | batch hl | sampled hl =>
      exact h.congr rfl rfl (fun _ => h.todo (by simp [hl])) (fun _ => h.core (by simp [hl]))
  | sample | log | drain | early | due | join | clear | stop => exact h.congr rfl rfl h.todo h.core

end Sound

theorem init_inv (packets : Nat → IngressPacket) (queued reports : Nat → EgressPacket)
    (snapshots : Nat → MetricsWorker.MetricsPacket) (inBase outBase : BitVec 64) :
    Inv inBase outBase (init packets queued reports snapshots inBase outBase) :=
  ⟨init_sound .., EgressPipeline.init_inv queued reports outBase⟩

theorem not_reuses_of_not_overwrites (hno : ¬ Overwrites s a) : ¬ Reuses s a := by
  rintro ⟨rfl, ho⟩
  exact hno ho

theorem step_inv (h : Inv inBase outBase s) (hno : ¬ Overwrites s a) (hs : step R s a = some s') :
    Inv inBase outBase s' := by
  refine ⟨step_sound h.toSound (not_reuses_of_not_overwrites hno) hs, ?_⟩
  cases steps_of_step hs with
  | signal | iterate =>
      exact ⟨h.egress.queue, h.egress.ring, h.egress.currentWrite, h.egress.popped, h.egress.stored⟩
  | @deliver _ b e ha he =>
      refine EgressPipeline.step_inv h.egress ?_ he
      cases a with
      | receive =>
          obtain rfl := Option.some.inj ha
          simp [EgressPipeline.Overwrites]
      | publisher =>
          obtain rfl := Option.some.inj ha
          exact hno
      | signal | enqueue | send | core | account | worker | clock | main => simp [Action.delivers] at ha
  | push _ _ he => exact EgressPipeline.step_inv h.egress (by simp [EgressPipeline.Overwrites]) he
  | enqueue | enter | leave | pushed | count | batch | sample | sampled | log | drain | early | due | join | clear |
    stop => exact h.egress

theorem run_inv {packets : Nat → IngressPacket} {queued reports : Nat → EgressPacket}
    {snapshots : Nat → MetricsWorker.MetricsPacket} {actions : List Action}
    (h : Runs.Along (step R) (fun s a => ¬ Overwrites s a) (init packets queued reports snapshots inBase outBase)
      actions)
    (hr : Runs.run (step R) (init packets queued reports snapshots inBase outBase) actions = some s) :
    Inv inBase outBase s :=
  Runs.run_preserves (fun _ _ _ hs hno hstep => step_inv hs hno hstep) (init_inv ..) h hr

section Running

def AtWork : EgressPipeline.Publisher → Prop
  | .testTail | .testHead _ | .exited => False
  | _ => True

structure Running (inBase outBase : BitVec 64) (s : State) : Prop extends Inv inBase outBase s where
  awake : EgressDelivery.Awake outBase s.egress
  publisher : AtWork s.egress.publisher
  stopFlag : s.egress.queue.stopFlag = false
  loop : s.loop ≠ .exited

theorem step_atWork {e e' : EgressPipeline.State} {b : EgressPipeline.Action} (ha : e.active = true)
    (hw : AtWork e.publisher) (hs : EgressPipeline.step e b = some e') : AtWork e'.publisher := by
  cases EgressPipeline.steps_of_step hs with
  | signal | enter | leave | order | next | push | take => exact hw
  | goOn | wait | room | retry | giveUp | store | publish => trivial
  | windUp _ hstopped => exact absurd (ha.symm.trans hstopped) (by decide)
  | loadTail he | exit he | drain he =>
      rw [he] at hw
      exact hw.elim
  | pop =>
      rcases hr : (e.queue.popStep 13).2 with - | - | x <;> trivial

theorem step_stopFlag {e e' : EgressPipeline.State} {b : EgressPipeline.Action}
    (hs : EgressPipeline.step e b = some e') : e'.queue.stopFlag = e.queue.stopFlag := by
  cases EgressPipeline.steps_of_step hs with
  | push => exact SPSCQueue.pushStep_stopFlag ..
  | pop => rfl
  | signal | enter | leave | order | next | goOn | windUp | loadTail | exit | drain | wait | room | retry | giveUp |
    store | publish | take => rfl

theorem Running.not_overwrites (h : Running inBase outBase s)
    (hno : a = .send → ¬ ReportData.Overwrites s.ingress .gateway) : ¬ Overwrites s a := by
  cases a with
  | send => exact hno rfl
  | publisher => exact h.awake.not_overwrites
  | signal | enqueue | receive | core | account | worker | clock | main => exact id

theorem step_running (h : Running inBase outBase s) (ha : a ≠ .signal)
    (hno : a = .send → ¬ ReportData.Overwrites s.ingress .gateway) (hs : step R s a = some s') :
    Running inBase outBase s' := by
  have hi := step_inv h.toInv (h.not_overwrites hno) hs
  cases steps_of_step hs with
  | signal => exact absurd rfl ha
  | @deliver _ b e hb he =>
      have hsignal : b ≠ .signal := by rcases party_of_delivers hb with rfl | rfl <;> simp
      exact ⟨hi, EgressDelivery.step_awake h.awake hsignal he, step_atWork h.awake.active h.publisher he,
        (step_stopFlag he).trans h.stopFlag, h.loop⟩
  | leave _ hstopped => exact absurd (h.awake.active.symm.trans hstopped) (by decide)
  | @iterate i =>
      refine ⟨hi, ⟨hi.egress, h.awake.active, h.awake.ready⟩, h.publisher, h.stopFlag, ?_⟩
      rcases after_cases s.ingress.core i.core with ha | ha | ha <;> simp [ha]
  | push _ _ he =>
      exact ⟨hi, EgressDelivery.step_awake h.awake (by simp) he, step_atWork h.awake.active h.publisher he,
        (step_stopFlag he).trans h.stopFlag, h.loop⟩
  | enter | pushed | count | batch | sampled => exact ⟨hi, h.awake, h.publisher, h.stopFlag, by simp⟩
  | enqueue | sample | log | drain | early | due | join | clear | stop =>
      exact ⟨hi, h.awake, h.publisher, h.stopFlag, h.loop⟩

theorem init_running (packets : Nat → IngressPacket) (queued reports : Nat → EgressPacket)
    (snapshots : Nat → MetricsWorker.MetricsPacket) (inBase outBase : BitVec 64) :
    Running inBase outBase (init packets queued reports snapshots inBase outBase) where
  toInv := init_inv ..
  awake := ⟨EgressPipeline.init_inv queued reports outBase, rfl, by simp [init, EgressPipeline.init]⟩
  publisher := trivial
  stopFlag := rfl
  loop := by simp [init]

variable {packets : Nat → IngressPacket} {queued reports : Nat → EgressPacket}
  {snapshots : Nat → MetricsWorker.MetricsPacket} {actions : List Action}

theorem run_running (h : Runs.Along (step R) (fun s a => a ≠ .signal ∧ ¬ Reuses s a) s actions)
    (hs : Running inBase outBase s) (hr : Runs.run (step R) s actions = some s') : Running inBase outBase s' :=
  Runs.run_preserves (fun _ _ _ hs hno hstep => step_running hs hno.1 (fun ha ho => hno.2 ⟨ha, ho⟩) hstep) hs h hr

theorem along_not_overwrites (h : Runs.Along (step R) (fun s a => a ≠ .signal ∧ ¬ Reuses s a) s actions)
    (hs : Running inBase outBase s) : Runs.Along (step R) (fun s a => ¬ Overwrites s a) s actions :=
  Runs.Along.of_invariant (fun _ _ _ hs hno hstep => step_running hs hno.1 (fun ha ho => hno.2 ⟨ha, ho⟩) hstep)
    (fun _ _ hs hno => hs.not_overwrites fun ha ho => hno.2 ⟨ha, ho⟩) hs h

end Running

theorem follows_done {e : Engine} {consumed : List IngressPacket} {pushed : List EgressPacket}
    {c : IngressRing.Iteration} (h : ReportData.Follows e consumed pushed c) :
    ∃ done core, done <+: consumed ∧ Runs.run Core.consume .init done = some core ∧ core.pushed = pushed := by
  cases c with
  | waiting | found | copied => exact ⟨consumed, _, List.prefix_rfl, h, rfl⟩
  | submitted p accepted read =>
      obtain ⟨core, hc, hp, -⟩ := h
      exact ⟨consumed, core, List.prefix_rfl, hc, hp⟩
  | released p accepted =>
      obtain ⟨core, read, done, hd, -, hc, hp, -⟩ := h
      exact ⟨done, core, ⟨[read], hd.symm⟩, hc, hp⟩
  | priced p accepted price =>
      obtain ⟨core, read, done, hd, -, hc, hp, -⟩ := h
      exact ⟨done, core, ⟨[read], hd.symm⟩, hc, hp⟩

/-- Nothing is on its way: the core has no packet and no report at hand, and
both rings and the queue are empty. -/
structure Quiet (s : State) : Prop where
  core : s.ingress.core = .waiting
  todo : s.egress.todo = []
  ingress : s.ingress.ring.readIdx = s.ingress.ring.writeIdx
  queue : s.egress.queue.ring.readIdx = s.egress.queue.ring.writeIdx
  publisher : s.egress.publisher.flight = []
  egress : s.egress.ring.readIdx = s.egress.ring.writeIdx

theorem Inv.quiet (h : Inv inBase outBase s) (hq : Quiet s) :
    s.ingress.consumed = s.ingress.enqueued ∧ s.egress.returned = s.ingress.pushed.map Prod.snd := by
  have hconsumed : s.ingress.consumed = s.ingress.enqueued :=
    h.ingress.consumed.eq_of_length ((h.ingress.ring.empty_iff (by decide)).mp hq.ingress)
  have hreturned : s.egress.returned = s.egress.written := h.egress.ring.eq_of_empty (by decide) hq.egress
  have hpopped : s.egress.queue.popped = s.egress.queue.pushed :=
    h.egress.queue.ring.eq_of_empty (by decide) hq.queue
  have hwritten := h.egress.popped
  rw [hq.publisher, List.append_nil] at hwritten
  refine ⟨hconsumed, ?_⟩
  rw [← h.pushed, hq.todo, List.append_nil, ← hpopped, hwritten, hreturned]

theorem Inv.answered (h : Inv inBase outBase s) :
    ∃ done core, done <+: s.ingress.enqueued ∧ Runs.run Core.consume .init done = some core ∧
      s.egress.returned <+: core.pushed ∧
      (Quiet s → done = s.ingress.enqueued ∧ s.egress.returned = core.pushed) := by
  by_cases hq : Quiet s
  · -- All packets are consumed, so the core stands at the end of its last iteration.
    obtain ⟨hconsumed, hreturned⟩ := h.quiet hq
    have hfollows := h.own.follows
    rw [hq.core, hconsumed, ← hreturned] at hfollows
    exact ⟨_, _, List.prefix_rfl, hfollows, List.prefix_rfl, fun _ => ⟨rfl, rfl⟩⟩
  · obtain ⟨done, core, hdone, hcore, hpushed⟩ := follows_done h.own.follows
    refine ⟨done, core, hdone.trans h.ingress.consumed, hcore, ?_, fun hq' => absurd hq' hq⟩
    rw [hpushed, ← h.pushed]
    exact h.egress.delivered.trans (List.prefix_append _ _)

/-- Whatever the threads and the gateway do, the gateway has received, in their
order, the first reports of a core that takes the enqueued packets one after
the other. When nothing is on its way, it has received them all. -/
theorem answers_in_order {packets : Nat → IngressPacket} {queued reports : Nat → EgressPacket}
    {snapshots : Nat → MetricsWorker.MetricsPacket} {actions : List Action}
    (h : Runs.Along (step R) (fun s a => ¬ Overwrites s a) (init packets queued reports snapshots inBase outBase)
      actions)
    (hr : Runs.run (step R) (init packets queued reports snapshots inBase outBase) actions = some s) :
    ∃ done core, done <+: s.ingress.enqueued ∧ Runs.run Core.consume .init done = some core ∧
      s.egress.returned <+: core.pushed ∧
      (Quiet s → done = s.ingress.enqueued ∧ s.egress.returned = core.pushed) :=
  (run_inv h hr).answered

section Single

open ReportData (sell)

theorem not_reuses_of_waiting (h : s.ingress.core = .waiting) : ¬ Reuses s a := by
  rintro ⟨-, packet, currWrite, -, -, hreporting, -⟩
  rw [h] at hreporting
  exact hreporting

theorem along_call (h : s.ingress.core = .waiting) {actions : List Action}
    (ha : ∀ a ∈ actions, a.enqueues.isSome) :
    Runs.Along (step R) (fun s a => a ≠ .signal ∧ ¬ Reuses s a) s actions := by
  have hwaits : ∀ (s : State) (a : Action) (s' : State), s.ingress.core = .waiting → a.enqueues.isSome →
      step R s a = some s' → s'.ingress.core = .waiting := by
    intro s a s' hw ha hs
    cases steps_of_step hs with
    | enqueue ha hi => exact (enqueue_frame (not_core_of_enqueues ha) hi).2.1.trans hw
    | iterate => simp [Action.enqueues] at ha
    | signal | deliver | enter | leave | push | pushed | count | batch | sample | sampled | log | drain | early |
      due | join | clear | stop => exact hw
  refine Runs.Along.of_invariant hwaits (fun s a hw ha => ⟨?_, not_reuses_of_waiting hw⟩) h
    (.of_forall fun a hm _ => ha a hm)
  rintro rfl
  simp [Action.enqueues] at ha

def start : State :=
  init (fun _ => .zero) (fun _ => EgressDelivery.late) (fun _ => EgressDelivery.late)
    (fun _ => Telemetry.snapshot .exact (.init 1) 0) 0 0

def request : List Action := [.enqueue sell, .send, .send, .send]

def response : List Action :=
  [List.replicate 12 .core, List.replicate 8 .publisher, List.replicate 4 .receive].flatten

theorem along_requests {calls actions : List Action} (hc : ∀ a ∈ calls, a.enqueues.isSome)
    (ha : ∀ a ∈ actions, a ≠ .signal ∧ a ≠ .send) :
    Runs.Along (step R) (fun s a => a ≠ .signal ∧ ¬ Reuses s a) start (calls ++ actions) := by
  refine .append (along_call rfl hc) fun t _ => .of_forall fun a hm s => ?_
  exact ⟨(ha a hm).1, fun hr => (ha a hm).2 hr.1⟩

theorem along_request {actions : List Action} (ha : ∀ a ∈ actions, a ≠ .signal ∧ a ≠ .send) :
    Runs.Along (step R) (fun s a => a ≠ .signal ∧ ¬ Reuses s a) start (request ++ actions) :=
  along_requests (by simp [request, Action.enqueues]) ha

theorem answers_in_order_single :
    ∃ s core, Runs.run (step .exact) start (request ++ response) = some s ∧ s.ingress.enqueued = [sell] ∧
      s.egress.returned = [reportPacket (process sell) 100 5] ∧
      Runs.run Core.consume .init [sell] = some core ∧ s.egress.returned <+: core.pushed := by
  have hrun : (Runs.run (step .exact) start (request ++ response)).map
      (fun s => (s.ingress.enqueued, s.egress.returned)) =
      some ([sell], [reportPacket (process sell) 100 5]) := by
    decide +kernel
  obtain ⟨s, hs, he⟩ := Option.map_eq_some_iff.mp hrun
  obtain ⟨henqueued, hreturned⟩ := Prod.mk.inj he
  obtain ⟨done, core, hdone, hcore, hpre, -⟩ :=
    answers_in_order (along_not_overwrites (along_request (by decide)) (init_running ..)) hs
  rw [henqueued] at hdone
  -- A report has come back, so the packet is among those that were taken.
  rcases List.prefix_cons_iff.mp hdone with rfl | ⟨rest, rfl, hrest⟩
  · obtain rfl := Option.some.inj hcore
    rw [hreturned] at hpre
    simp [Core.init] at hpre
  · obtain rfl := List.prefix_nil.mp hrest
    exact ⟨s, core, hs, henqueued, hreturned, hcore, hpre⟩

end Single

end Sequitur.EngineDelivery
