import Sequitur.EngineDelivery
import Sequitur.SessionStreams

namespace Sequitur.TradingSystem

open Protocol CoreLoop Rings

/-- The gateway and the engine. The ring of the packets is that of both; the
gateway has the reports that `Dequeue` has returned. -/
structure State where
  gateway : SessionStreams.State
  engine : EngineProcess.State

def init (packets : Nat → IngressPacket) (queued reports : Nat → EgressPacket)
    (snapshots : Nat → MetricsWorker.MetricsPacket) (inBase outBase : BitVec 64) : State :=
  ⟨SessionStreams.init packets inBase, EngineProcess.init packets queued reports snapshots inBase outBase⟩

/-- A step of the gateway outside of the segment, the next access of `Enqueue`
or of `Dequeue`, or a step of the engine. -/
inductive Action
  | client (a : Gateway.Action)
  | enqueue
  | dequeue
  | engine (a : EngineProcess.Action)

def outside : Gateway.Action → Bool
  | .line _ _ | .session _ | .disconnect _ | .cleanup _ _ | .write _ _ | .receive | .egress => true
  | .enqueue | .core | .dequeue _ => false

def internal : EngineProcess.Action → Bool
  | .signal | .core | .account _ | .publisher | .worker | .clock _ | .main => true
  | .enqueue _ | .send | .receive => false

def iterates (e : EngineProcess.State) : EngineProcess.Action → Bool
  | .core =>
      match e.loop with
      | .iterate => true
      | .test | .report | .account | .sample _ | .exited => false
  | _ => false

def call (s : State) : Option EngineProcess.Action :=
  s.gateway.gateway.current.map fun x =>
    match s.gateway.gateway.ring.gateway with
    | .idle => .enqueue x.2
    | .loadedRead _ _ | .checked _ _ | .stored _ _ => .send

def arriving (e : EngineProcess.State) : List EgressPacket := received (take 16 e.egress.ring e.egress.gateway).2.2

def step (R : Rounding) (s : State) : Action → Option State
  | .client a => if outside a then (SessionStreams.step s.gateway a).map fun g => { s with gateway := g } else none
  | .enqueue =>
      (call s).bind fun a =>
        (SessionStreams.step s.gateway .enqueue).bind fun g =>
          (EngineProcess.step R s.engine a).map fun e => ⟨g, e⟩
  | .dequeue =>
      match s.gateway.gateway.egress with
      | .dequeuing =>
          (EngineProcess.step R s.engine .receive).bind fun e =>
            (Runs.run SessionStreams.step s.gateway ((arriving s.engine).map .dequeue)).map fun g => ⟨g, e⟩
      | _ => none
  | .engine a =>
      if internal a then
        (EngineProcess.step R s.engine a).bind fun e =>
          if iterates s.engine a then (SessionStreams.step s.gateway .core).map fun g => ⟨g, e⟩
          else some { s with engine := e }
      else none

inductive Steps (R : Rounding) (s : State) : Action → State → Prop
  | client {a : Gateway.Action} {g : SessionStreams.State} (ha : outside a = true)
      (hg : SessionStreams.step s.gateway a = some g) : Steps R s (.client a) { s with gateway := g }
  | enqueue {a : EngineProcess.Action} {g : SessionStreams.State} {e : EngineProcess.State} (ha : call s = some a)
      (hg : SessionStreams.step s.gateway .enqueue = some g) (he : EngineProcess.step R s.engine a = some e) :
      Steps R s .enqueue ⟨g, e⟩
  | dequeue {g : SessionStreams.State} {e : EngineProcess.State}
      (he : EngineProcess.step R s.engine .receive = some e)
      (hg : Runs.run SessionStreams.step s.gateway ((arriving s.engine).map .dequeue) = some g) :
      Steps R s .dequeue ⟨g, e⟩
  | core {g : SessionStreams.State} {e : EngineProcess.State} (hl : s.engine.loop = .iterate)
      (hg : SessionStreams.step s.gateway .core = some g) (he : EngineProcess.step R s.engine .core = some e) :
      Steps R s (.engine .core) ⟨g, e⟩
  | engine {a : EngineProcess.Action} {e : EngineProcess.State} (ha : internal a = true)
      (hi : iterates s.engine a = false) (he : EngineProcess.step R s.engine a = some e) :
      Steps R s (.engine a) { s with engine := e }

section Inversion

variable {R : Rounding} {s s' : State}

theorem loop_of_iterates {e : EngineProcess.State} {a : EngineProcess.Action} (h : iterates e a = true) :
    a = .core ∧ e.loop = .iterate := by
  cases a with
  | core =>
      refine ⟨rfl, ?_⟩
      cases hl : e.loop with
      | iterate => rfl
      | test | report | account | sample | exited => simp [iterates, hl] at h
  | signal | enqueue | send | receive | account | publisher | worker | clock | main => simp [iterates] at h

theorem steps_of_step {a : Action} (h : step R s a = some s') : Steps R s a s' := by
  cases a with
  | client a =>
      rw [step] at h
      split at h
      next ha =>
        obtain ⟨g, hg, rfl⟩ := Option.map_eq_some_iff.mp h
        exact .client ha hg
      next => simp at h
  | enqueue =>
      obtain ⟨a, ha, h⟩ := Option.bind_eq_some_iff.mp h
      obtain ⟨g, hg, h⟩ := Option.bind_eq_some_iff.mp h
      obtain ⟨e, he, rfl⟩ := Option.map_eq_some_iff.mp h
      exact .enqueue ha hg he
  | dequeue =>
      rw [step] at h
      split at h
      next =>
        obtain ⟨e, he, h⟩ := Option.bind_eq_some_iff.mp h
        obtain ⟨g, hg, rfl⟩ := Option.map_eq_some_iff.mp h
        exact .dequeue he hg
      next => simp at h
  | engine a =>
      rw [step] at h
      split at h
      next ha =>
        obtain ⟨e, he, h⟩ := Option.bind_eq_some_iff.mp h
        split at h
        next hi =>
          obtain ⟨g, hg, rfl⟩ := Option.map_eq_some_iff.mp h
          obtain ⟨rfl, hl⟩ := loop_of_iterates hi
          exact .core hl hg he
        next hi => exact Option.some.inj h ▸ .engine ha (Bool.eq_false_iff.mpr hi) he
      next => simp at h

end Inversion

section Parts

variable {R : Rounding}

theorem deliver_returned {e e' : EgressPipeline.State} {b : EgressPipeline.Action}
    (h : EgressPipeline.step e b = some e') (hb : b ≠ .gateway) : e'.returned = e.returned := by
  cases EgressPipeline.steps_of_step h with
  | take => exact absurd rfl hb
  | signal | enter | leave | order | next | push | goOn | windUp | loadTail | exit | drain | pop | wait | room |
    retry | giveUp | store | publish => rfl

theorem engine_returned {e e' : EngineProcess.State} {a : EngineProcess.Action} (h : EngineProcess.step R e a = some e')
    (ha : a ≠ .receive) : e'.egress.returned = e.egress.returned := by
  cases EngineProcess.steps_of_step h with
  | deliver hd he =>
      refine deliver_returned he ?_
      rintro rfl
      cases a <;> simp [EngineProcess.Action.delivers] at hd ha
  | push _ _ he => exact deliver_returned he (by simp)
  | signal | enqueue | enter | leave | iterate | pushed | count | batch | sample | sampled | log | drain | early | due |
    join | clear | stop => rfl

theorem receive_returned {e e' : EngineProcess.State} (h : EngineProcess.step R e .receive = some e') :
    e'.egress.returned = e.egress.returned ++ arriving e ∧ e'.ingress = e.ingress := by
  rw [EngineProcess.step] at h
  obtain ⟨x, hx, rfl⟩ := Option.map_eq_some_iff.mp h
  obtain rfl := Option.some.inj hx
  exact ⟨rfl, rfl⟩

theorem engine_ingress {e e' : EngineProcess.State} {a : EngineProcess.Action} (h : EngineProcess.step R e a = some e')
    (ha : internal a = true) (hi : iterates e a = false) : e'.ingress = e.ingress := by
  cases EngineProcess.steps_of_step h with
  | enqueue he => cases a <;> simp [EngineProcess.Action.enqueues, internal] at he ha
  | iterate hl => simp [iterates, hl] at hi
  | signal | deliver | enter | leave | push | pushed | count | batch | sample | sampled | log | drain | early | due |
    join | clear | stop => rfl

theorem core_ingress {e e' : EngineProcess.State} (h : EngineProcess.step R e .core = some e')
    (hl : e.loop = .iterate) : IngressRing.step e.ingress .core = some e'.ingress := by
  cases EngineProcess.steps_of_step h with
  | iterate _ hi => exact hi
  | enqueue he => simp [EngineProcess.Action.enqueues] at he
  | deliver he => simp [EngineProcess.Action.delivers] at he
  | enter hl' | leave hl' | push hl' | pushed hl' | sample hl' | sampled hl' => simp [hl] at hl'

theorem outside_frame {g g' : SessionStreams.State} {a : Gateway.Action} (h : SessionStreams.step g a = some g')
    (ha : outside a = true) : g'.gateway.ring = g.gateway.ring ∧ g'.dequeued = g.dequeued := by
  obtain ⟨x, hx, rfl⟩ := Option.map_eq_some_iff.mp h
  refine ⟨?_, ?_⟩
  · cases Gateway.steps_of_step hx with
    | sendTaker | sendMaker =>
        simp only [SessionStreams.State.next, Gateway.State.send]
        split <;> rfl
    | call | access | result | core => simp [outside] at ha
    | accept | skip | known | record | lock | register | unlock | send | delete | close | finish | disconnect |
      cleanup | write | receive | dequeue | readLock | findTaker | noTaker | findMaker | noMaker | readUnlock => rfl
  · cases a with
    | dequeue => simp [outside] at ha
    | line | session | disconnect | cleanup | write | receive | egress | enqueue | core =>
        exact List.append_nil _

theorem enqueue_ring {s : State} {a : EngineProcess.Action} {g : SessionStreams.State} {e : EngineProcess.State}
    (hring : s.gateway.gateway.ring = s.engine.ingress) (ha : call s = some a)
    (hg : SessionStreams.step s.gateway .enqueue = some g) (he : EngineProcess.step R s.engine a = some e) :
    g.gateway.ring = e.ingress ∧ e.egress = s.engine.egress ∧ g.dequeued = s.gateway.dequeued := by
  obtain ⟨x, hx, rfl⟩ := Option.map_eq_some_iff.mp hg
  obtain ⟨y, hy, hcall⟩ := Option.map_eq_some_iff.mp ha
  have hsend : ∀ r, IngressRing.gatewayStep s.gateway.gateway.ring = some r → a = .send →
      r = e.ingress ∧ e.egress = s.engine.egress := by
    rintro r hr rfl
    obtain ⟨i, hi, rfl⟩ := Option.map_eq_some_iff.mp he
    have hi : IngressRing.gatewayStep s.engine.ingress = some i := hi
    rw [hring, hi] at hr
    exact ⟨(Option.some.inj hr).symm, rfl⟩
  have hbusy : ∀ r, IngressRing.gatewayStep s.gateway.gateway.ring = some r → a = .send := by
    intro r hr
    cases hgw : s.gateway.gateway.ring.gateway with
    | idle => simp [IngressRing.gatewayStep, hgw] at hr
    | loadedRead | checked | stored =>
        rw [hgw] at hcall
        exact hcall.symm
  have hdequeued : s.gateway.dequeued ++ SessionStreams.taken .enqueue = s.gateway.dequeued := List.append_nil _
  cases Gateway.steps_of_step hx with
  | call hcur hidle hr =>
      obtain rfl := Option.some.inj (hy.symm.trans hcur)
      rw [hidle] at hcall
      subst hcall
      obtain ⟨i, hi, rfl⟩ := Option.map_eq_some_iff.mp he
      rw [hring, hi] at hr
      exact ⟨(Option.some.inj hr).symm, rfl, hdequeued⟩
  | access hr _ =>
      obtain ⟨h₁, h₂⟩ := hsend _ hr (hbusy _ hr)
      exact ⟨h₁, h₂, hdequeued⟩
  | result _ _ hr _ =>
      obtain ⟨h₁, h₂⟩ := hsend _ hr (hbusy _ hr)
      exact ⟨h₁, h₂, hdequeued⟩

theorem dequeue_frame {g g' : SessionStreams.State} {reports : List EgressPacket}
    (h : Runs.run SessionStreams.step g (reports.map .dequeue) = some g') :
    g'.gateway.ring = g.gateway.ring ∧ g'.dequeued = g.dequeued ++ reports ∧
      g'.gateway.sessions = g.gateway.sessions := by
  induction reports generalizing g with
  | nil =>
      obtain rfl := Option.some.inj h
      exact ⟨rfl, (List.append_nil _).symm, rfl⟩
  | cons report reports ih =>
      obtain ⟨t, ht, h⟩ := Runs.run_cons_some h
      obtain ⟨x, hx, rfl⟩ := Option.map_eq_some_iff.mp ht
      obtain ⟨hring, hdequeued, hsess⟩ := ih h
      cases Gateway.steps_of_step hx with
      | dequeue => exact ⟨hring, by rw [hdequeued, SessionStreams.State.next, List.append_assoc]; rfl, hsess⟩

theorem core_frame {g g' : SessionStreams.State} (h : SessionStreams.step g .core = some g') :
    IngressRing.step g.gateway.ring .core = some g'.gateway.ring ∧ g'.dequeued = g.dequeued ∧
      g'.gateway.sessions = g.gateway.sessions := by
  obtain ⟨x, hx, rfl⟩ := Option.map_eq_some_iff.mp h
  cases Gateway.steps_of_step hx with
  | core hr => exact ⟨hr, List.append_nil _, rfl⟩

end Parts

section Whole

def engineAction (s : State) : Action → Option EngineProcess.Action
  | .client _ => none
  | .enqueue => call s
  | .dequeue => some .receive
  | .engine a => some a

def Overwrites (s : State) (a : Action) : Prop :=
  ∃ b, engineAction s a = some b ∧ EngineDelivery.Overwrites s.engine b

instance (s : State) : DecidablePred (Overwrites s) :=
  fun a => inferInstanceAs (Decidable (∃ b ∈ engineAction s a, EngineDelivery.Overwrites s.engine b))

structure Inv (inBase outBase : BitVec 64) (s : State) : Prop where
  gateway : SessionStreams.Inv inBase s.gateway
  engine : EngineDelivery.Inv inBase outBase s.engine
  ring : s.gateway.gateway.ring = s.engine.ingress
  reports : s.gateway.dequeued = s.engine.egress.returned

variable {R : Rounding} {inBase outBase : BitVec 64} {s s' : State}

theorem step_inv {a : Action} (h : Inv inBase outBase s) (hno : ¬ Overwrites s a) (hs : step R s a = some s') :
    Inv inBase outBase s' := by
  have hengine : ∀ b e, engineAction s a = some b → EngineProcess.step R s.engine b = some e →
      EngineDelivery.Inv inBase outBase e :=
    fun b e hb he => EngineDelivery.step_inv h.engine (fun ho => hno ⟨b, hb, ho⟩) he
  cases steps_of_step hs with
  | client ha hg =>
      obtain ⟨hring, hdequeued⟩ := outside_frame hg ha
      exact ⟨SessionStreams.step_inv h.gateway hg, h.engine, hring.trans h.ring, hdequeued.trans h.reports⟩
  | enqueue ha hg he =>
      obtain ⟨hring, hegress, hdequeued⟩ := enqueue_ring h.ring ha hg he
      refine ⟨SessionStreams.step_inv h.gateway hg, hengine _ _ ha he, hring, ?_⟩
      rw [hdequeued, hegress]
      exact h.reports
  | dequeue he hg =>
      obtain ⟨hring, hdequeued, -⟩ := dequeue_frame hg
      obtain ⟨hreturned, hingress⟩ := receive_returned he
      refine ⟨Runs.run_invariant (fun _ _ _ hi hs => SessionStreams.step_inv hi hs) h.gateway hg,
        hengine _ _ rfl he, ?_, ?_⟩
      · rw [hring, hingress]
        exact h.ring
      · rw [hdequeued, hreturned, h.reports]
  | core hl hg he =>
      obtain ⟨hring, hdequeued, -⟩ := core_frame hg
      rw [h.ring, core_ingress he hl] at hring
      refine ⟨SessionStreams.step_inv h.gateway hg, hengine _ _ rfl he, (Option.some.inj hring).symm, ?_⟩
      rw [hdequeued, engine_returned he nofun]
      exact h.reports
  | engine ha hi he =>
      refine ⟨h.gateway, hengine _ _ rfl he, h.ring.trans (engine_ingress he ha hi).symm, ?_⟩
      rw [engine_returned he (by rintro rfl; simp [internal] at ha)]
      exact h.reports

theorem init_inv (packets : Nat → IngressPacket) (queued reports : Nat → EgressPacket)
    (snapshots : Nat → MetricsWorker.MetricsPacket) (inBase outBase : BitVec 64) :
    Inv inBase outBase (init packets queued reports snapshots inBase outBase) :=
  ⟨SessionStreams.init_inv packets inBase, EngineDelivery.init_inv .., rfl, rfl⟩

end Whole

section EndToEnd

open IngressDelivery (of)
open SessionStreams (doubled Names)

/-- The packets that are in the ring or have been, with their connections. -/
def admitted (g : Gateway.State) : List (Nat × IngressPacket) := (g.offered.filter Prod.snd).map Prod.fst

variable {R : Rounding} {inBase outBase : BitVec 64} {s : State}

theorem of_admitted {g : Gateway.State} (h : IngressDelivery.Inv inBase g) (c : Nat) :
    (of c (admitted g)).Sublist (g.sessions c).parsed := by
  have hsub : (admitted g).Sublist (IngressDelivery.sent g) := by
    rw [IngressDelivery.sent, List.append_assoc]
    exact ((List.filter_sublist).map _).trans (List.sublist_append_left _ _)
  rw [← h.flow c]
  exact ((hsub.filter _).map _).trans (List.sublist_append_left _ _)

theorem doubled_sublist {l l' : List EgressPacket} (h : l <+: l') : (doubled l).Sublist (doubled l') := by
  obtain ⟨rest, rfl⟩ := h
  rw [doubled, doubled, List.flatMap_append]
  exact List.sublist_append_left _ _

/-- From the lines of the clients to the reports that they get. The core has
taken the first of the packets that came into the ring; those of one client are
accepted lines of that client, in the order in which they were sent. What a
client gets are reports of this core, in their order and each at most twice, and
it has sent an order under one of the ids of each of them. If nothing is on its
way in the engine, the core has taken all packets and the gateway all reports. -/
theorem lines_to_reports {packets : Nat → IngressPacket} {queued reports : Nat → EgressPacket}
    {snapshots : Nat → MetricsWorker.MetricsPacket} {actions : List Action}
    (h : Runs.Along (step R) (fun s a => ¬ Overwrites s a) (init packets queued reports snapshots inBase outBase)
      actions)
    (hr : Runs.run (step R) (init packets queued reports snapshots inBase outBase) actions = some s) :
    ∃ done core, done <+: (admitted s.gateway.gateway).map Prod.snd ∧ Runs.run Core.consume .init done = some core ∧
      (∀ c, (of c (admitted s.gateway.gateway)).Sublist (s.gateway.gateway.sessions c).parsed) ∧
      (∀ c, (s.gateway.written c ++ (s.gateway.gateway.sessions c).ch).Sublist (doubled core.pushed)) ∧
      (∀ c, ∀ report ∈ s.gateway.written c, Names (s.gateway.gateway.sessions c) report) ∧
      (EngineDelivery.Quiet s.engine →
        done = (admitted s.gateway.gateway).map Prod.snd ∧ s.gateway.dequeued = core.pushed) := by
  have hstep : ∀ s a s', Inv inBase outBase s → ¬ Overwrites s a → step R s a = some s' → Inv inBase outBase s' :=
    fun _ _ _ hi hno hs => step_inv hi hno hs
  have hinv := Runs.run_preserves hstep (init_inv ..) h hr
  have henqueued : s.engine.ingress.enqueued = (admitted s.gateway.gateway).map Prod.snd := by
    rw [← hinv.ring, hinv.gateway.ingress.enqueued, admitted, List.map_map]
    rfl
  obtain ⟨done, core, hdone, hcore, hreturned, hquiet⟩ := hinv.engine.answered
  rw [henqueued] at hdone hquiet
  rw [← hinv.reports] at hreturned hquiet
  refine ⟨done, core, hdone, hcore, of_admitted hinv.gateway.ingress, fun c => ?_, fun c report hm => ?_, hquiet⟩
  · exact (hinv.gateway.stream c).trans ((hinv.gateway.routed_sublist c).trans (doubled_sublist hreturned))
  · exact hinv.gateway.named c report ((hinv.gateway.stream c).subset (List.mem_append_left _ hm))

open EgressDelivery (late)

def start : State :=
  init (fun _ => .zero) (fun _ => late) (fun _ => late) (fun _ => Telemetry.snapshot .exact (.init 1) 0) 0 0

def exchange : List Action :=
  [[.client (.line 0 Gateway.sellLine)], List.replicate 5 (.client (.session 0)), [.client .receive],
    List.replicate 4 .enqueue, List.replicate 12 (.engine .core), List.replicate 8 (.engine .publisher),
    List.replicate 4 .dequeue, List.replicate 5 (.client .egress), [.client (.write 0 true)]].flatten

theorem lines_to_reports_exchange :
    ∃ s core, Runs.run (step .exact) start exchange = some s ∧
      s.gateway.written 0 = [reportPacket (process Gateway.sell) 100 5] ∧
      Runs.run Core.consume .init [Gateway.sell] = some core ∧
      (s.gateway.written 0 ++ (s.gateway.gateway.sessions 0).ch).Sublist (doubled core.pushed) := by
  have hrun : (Runs.run (step .exact) start exchange).map
      (fun s => ((admitted s.gateway.gateway).map Prod.snd, s.gateway.written 0)) =
      some ([Gateway.sell], [reportPacket (process Gateway.sell) 100 5]) := by
    decide +kernel
  have halong : Runs.Along (step .exact) (fun s a => ¬ Overwrites s a) start exchange := by decide +kernel
  obtain ⟨s, hs, hresult⟩ := Option.map_eq_some_iff.mp hrun
  obtain ⟨hadmitted, hwritten⟩ := Prod.mk.inj hresult
  obtain ⟨done, core, hdone, hcore, -, hstream, -⟩ := lines_to_reports halong hs
  rw [hadmitted] at hdone
  -- A report has been written, so the packet is among those that were taken.
  rcases List.prefix_cons_iff.mp hdone with rfl | ⟨rest, rfl, hrest⟩
  · obtain rfl := Option.some.inj hcore
    have hlength := (hstream 0).length_le
    rw [hwritten] at hlength
    simp [doubled, Core.init] at hlength
  · obtain rfl := List.prefix_nil.mp hrest
    exact ⟨s, core, hs, hwritten, hcore, hstream 0⟩

end EndToEnd

end Sequitur.TradingSystem
