import Sequitur.EngineProgress
import Sequitur.GatewayProgress
import Sequitur.TradingSystem

namespace Sequitur.SystemProgress

open OrderBook Protocol CoreLoop Rings TradingSystem
open IngressDelivery (of pending)
open GatewayProgress (lineRank load stage)

section Alive

def Harmless (s : State) (a : Action) : Prop :=
  ∀ b, engineAction s a = some b → b ≠ .signal ∧ ¬ EngineDelivery.Reuses s.engine b

structure Alive (inBase outBase : BitVec 64) (s : State) : Prop extends Inv inBase outBase s where
  running : EngineDelivery.Running inBase outBase s.engine

variable {R : Rounding} {inBase outBase : BitVec 64} {s s' : State}

theorem step_alive {a : Action} (h : Alive inBase outBase s) (ha : Harmless s a) (hs : step R s a = some s') :
    Alive inBase outBase s' := by
  have hrunning : ∀ b e, engineAction s a = some b → EngineProcess.step R s.engine b = some e →
      EngineDelivery.Running inBase outBase e :=
    fun b e hb he => EngineDelivery.step_running h.running (ha b hb).1 (fun hb' ho => (ha b hb).2 ⟨hb', ho⟩) he
  have hno : ¬ Overwrites s a := by
    rintro ⟨b, hb, ho⟩
    exact h.running.not_overwrites (fun hb' hr => (ha b hb).2 ⟨hb', hr⟩) ho
  refine ⟨step_inv h.toInv hno hs, ?_⟩
  cases steps_of_step hs with
  | client => exact h.running
  | enqueue hb _ he => exact hrunning _ _ hb he
  | dequeue he | core _ _ he | engine _ _ he => exact hrunning _ _ rfl he

theorem init_alive (packets : Nat → IngressPacket) (queued reports : Nat → EgressPacket)
    (snapshots : Nat → MetricsWorker.MetricsPacket) (inBase outBase : BitVec 64) :
    Alive inBase outBase (init packets queued reports snapshots inBase outBase) :=
  ⟨init_inv .., EngineDelivery.init_running ..⟩

theorem mem_parsed (h : Inv inBase outBase s) {p : IngressPacket} (hp : p ∈ s.engine.ingress.enqueued) :
    ∃ c, p ∈ (s.gateway.gateway.sessions c).parsed := by
  rw [← h.ring, h.gateway.ingress.enqueued] at hp
  obtain ⟨x, hx, rfl⟩ := List.mem_map.mp hp
  refine ⟨x.1.1, (of_admitted h.gateway.ingress x.1.1).subset ?_⟩
  refine List.mem_map.mpr ⟨x.1, List.mem_filter.mpr ⟨?_, by simp⟩, rfl⟩
  exact List.mem_map.mpr ⟨x, hx, rfl⟩

end Alive

section Steps

/-- A step with what the system has already got: no line arrives, and no client
has to read or to leave. -/
def Serves : Action → Prop
  | .client a => (∃ d, a = .session d) ∨ a = .receive ∨ a = .egress
  | .enqueue | .dequeue => True
  | .engine a => a = .publisher ∨ a = .core ∨ a = .account 0

/-- Nothing of the session `c` is waiting in the gateway, and nothing at all is
on its way between the channel and the clients. -/
structure Settled (c : Nat) (s : State) : Prop where
  gateway : GatewayProgress.Settled c s.gateway.gateway
  engine : EngineDelivery.Quiet s.engine

/-- What is left to do until the system is settled: the line at hand, the packets in
the channel, the work of the engine, and the report at hand. -/
def todo (c : Nat) (s : State) : ℕ ×ₗ ℕ ×ₗ (ℕ ×ₗ ℕ ×ₗ ℕ ×ₗ ℕ) ×ₗ ℕ ×ₗ ℕ :=
  toLex (lineRank (s.gateway.gateway.sessions c).phase, toLex (load s.gateway.gateway,
    toLex (EngineProgress.work s.engine, stage s.gateway.gateway)))

variable {R : Rounding} {inBase outBase : BitVec 64} {s : State} {c : Nat}

theorem todo_lt_of_eases {g : SessionStreams.State} (h : GatewayProgress.Eases c s.gateway.gateway g.gateway) :
    todo c { s with gateway := g } < todo c s := by
  rcases h.forward with hline | ⟨hline, hload, hstage⟩
  · exact Prod.Lex.left _ _ hline
  · simp only [todo, hline, hload]
    exact Prod.Lex.right _ (Prod.Lex.right _ (Prod.Lex.right _ hstage))

theorem todo_lt_of_load {s' : State} (hsess : s'.gateway.gateway.sessions = s.gateway.gateway.sessions)
    (hload : load s'.gateway.gateway < load s.gateway.gateway) : todo c s' < todo c s := by
  rw [todo, todo, hsess]
  exact Prod.Lex.right _ (Prod.Lex.left _ _ hload)

theorem todo_lt_of_work {s' : State} (hsess : s'.gateway.gateway.sessions = s.gateway.gateway.sessions)
    (hload : load s'.gateway.gateway = load s.gateway.gateway)
    (hwork : EngineProgress.work s'.engine < EngineProgress.work s.engine) : todo c s' < todo c s := by
  rw [todo, todo, hsess, hload]
  exact Prod.Lex.right _ (Prod.Lex.right _ (Prod.Lex.left _ _ hwork))

theorem client_step {a : Gateway.Action} {g : Gateway.State} (ha : outside a = true)
    (hg : Gateway.step s.gateway.gateway a = some g) :
    step R s (.client a) = some { s with gateway := s.gateway.next a g } := by
  rw [step, if_pos ha, SessionStreams.step, hg]
  rfl

theorem client_harmless (a : Gateway.Action) : Harmless s (.client a) := by
  intro b hb
  simp [engineAction] at hb

theorem enqueue_step {g : Gateway.State} (h : Inv inBase outBase s)
    (hg : Gateway.step s.gateway.gateway .enqueue = some g) :
    ∃ s', step R s .enqueue = some s' ∧ s'.gateway = s.gateway.next .enqueue g := by
  suffices hcall : ∃ a e, TradingSystem.call s = some a ∧ EngineProcess.step R s.engine a = some e by
    obtain ⟨a, e, ha, he⟩ := hcall
    refine ⟨⟨_, e⟩, ?_, rfl⟩
    rw [step, ha, Option.bind_some, SessionStreams.step, hg, Option.map_some, Option.bind_some, he]
    rfl
  have hsend : ∀ x r, s.gateway.gateway.current = some x → s.gateway.gateway.ring.gateway ≠ .idle →
      IngressRing.gatewayStep s.gateway.gateway.ring = some r →
      ∃ a e, TradingSystem.call s = some a ∧ EngineProcess.step R s.engine a = some e := by
    intro x r hcur hbusy hr
    rw [h.ring] at hr
    refine ⟨.send, { s.engine with ingress := r }, ?_, by simp [EngineProcess.step, IngressRing.step, hr]⟩
    rw [TradingSystem.call, hcur]
    cases hgw : s.gateway.gateway.ring.gateway with
    | idle => exact absurd hgw hbusy
    | loadedRead | checked | stored => rfl
  cases Gateway.steps_of_step hg with
  | @call x r hcur hidle hr =>
      rw [h.ring] at hr
      refine ⟨.enqueue x.2, { s.engine with ingress := r }, ?_, by simp [EngineProcess.step, hr]⟩
      rw [TradingSystem.call, hcur, Option.map_some, hidle]
  | @result x r _ hcur hbusy hr => exact hsend x r hcur hbusy hr
  | @access r hr =>
      have hbusy : s.gateway.gateway.ring.gateway ≠ .idle := by
        intro hidle
        simp [IngressRing.gatewayStep, hidle] at hr
      cases hcur : s.gateway.gateway.current with
      | some x => exact hsend x r hcur hbusy hr
      | none =>
          have hadvance := Gateway.advance_of_step hg
          simp [Gateway.advance, hcur] at hadvance

theorem enqueue_harmless (h : EngineDelivery.Quiet s.engine) : Harmless s .enqueue := by
  refine fun b hb => ⟨?_, EngineDelivery.not_reuses_of_waiting h.core⟩
  rintro rfl
  obtain ⟨x, -, hx⟩ := Option.map_eq_some_iff.mp hb
  split at hx <;> simp at hx

theorem dequeue_step {e : EngineProcess.State} (h : Inv inBase outBase s) (hg : s.gateway.gateway.egress = .dequeuing)
    (he : EngineProcess.step R s.engine .receive = some e) :
    ∃ g, step R s .dequeue = some ⟨g, e⟩ ∧ g.gateway.sessions = s.gateway.gateway.sessions ∧
      load g.gateway = load s.gateway.gateway := by
  suffices hrun : ∃ g, Runs.run SessionStreams.step s.gateway ((arriving s.engine).map .dequeue) = some g ∧
      g.gateway.sessions = s.gateway.gateway.sessions ∧ load g.gateway = load s.gateway.gateway by
    obtain ⟨g, hrun, hframe⟩ := hrun
    refine ⟨g, ?_, hframe⟩
    rw [step, hg]
    simp only [he, hrun, Option.bind_some, Option.map_some]
  rw [arriving]
  cases (take 16 s.engine.egress.ring s.engine.egress.gateway).2.2 with
  | none => exact ⟨s.gateway, rfl, rfl, rfl⟩
  | some result =>
      cases result with
      | none => exact ⟨s.gateway, rfl, rfl, rfl⟩
      | some report =>
          have hstep : Gateway.step s.gateway.gateway (.dequeue report) =
              some { s.gateway.gateway with egress := .dequeued report } := by
            rw [GatewayProgress.step_eq_advance h.gateway.registry, Gateway.advance, hg]
          refine ⟨s.gateway.next (.dequeue report) { s.gateway.gateway with egress := .dequeued report },
            Runs.run_single ?_, rfl, rfl⟩
          rw [SessionStreams.step, hstep, Option.map_some]

theorem thread_step {a : EngineProcess.Action} {e : EngineProcess.State} (ha : internal a = true)
    (hi : iterates s.engine a = false) (he : EngineProcess.step R s.engine a = some e) :
    step R s (.engine a) = some { s with engine := e } := by
  rw [step, if_pos ha, he, Option.bind_some, hi]
  rfl

theorem core_step {e : EngineProcess.State} (h : Inv inBase outBase s)
    (he : EngineProcess.step R s.engine .core = some e) :
    ∃ g, step R s (.engine .core) = some ⟨g, e⟩ ∧ g.gateway.sessions = s.gateway.gateway.sessions ∧
      load g.gateway = load s.gateway.gateway := by
  by_cases hi : iterates s.engine .core = true
  · have hcore := core_ingress he (loop_of_iterates hi).2
    have hstep : Gateway.step s.gateway.gateway .core = some { s.gateway.gateway with ring := e.ingress } := by
      rw [GatewayProgress.step_eq_advance h.gateway.registry, Gateway.advance, h.ring, hcore]
      rfl
    refine ⟨s.gateway.next .core { s.gateway.gateway with ring := e.ingress }, ?_, rfl, ?_⟩
    · rw [step, if_pos (by rfl), he, Option.bind_some, if_pos hi, SessionStreams.step, hstep]
      rfl
    · simp only [load, SessionStreams.State.next, h.ring, (IngressDelivery.coreStep_frame hcore).1]
  · refine ⟨s.gateway, ?_, rfl, rfl⟩
    exact thread_step rfl (by simpa using hi) he

theorem engine_works (h : Alive inBase outBase s) (hg : s.gateway.gateway.egress = .dequeuing)
    (hp : ∀ p ∈ s.engine.ingress.enqueued, p.price.toNat ≤ maxPriceTicks) (hq : ¬ EngineDelivery.Quiet s.engine) :
    ∃ a s', Serves a ∧ Harmless s a ∧ step R s a = some s' ∧ todo c s' < todo c s := by
  obtain ⟨b, e, hb, he, hwork⟩ := EngineProgress.exists_work h.running hp hq
  have hadmitted := hb.admitted
  have hharmless : ∀ {a}, engineAction s a = some b → Harmless s a := by
    intro a ha b' hb'
    obtain rfl := Option.some.inj (ha.symm.trans hb')
    exact ⟨hadmitted.1, fun hr => hadmitted.2 hr.1⟩
  rcases hb with rfl | rfl | rfl | rfl
  · obtain ⟨g, hs, hsess, hload⟩ := dequeue_step h.toInv hg he
    exact ⟨.dequeue, _, trivial, hharmless rfl, hs, todo_lt_of_work hsess hload hwork⟩
  · exact ⟨.engine .publisher, _, .inl rfl, hharmless rfl, thread_step rfl rfl he, todo_lt_of_work rfl rfl hwork⟩
  · obtain ⟨g, hs, hsess, hload⟩ := core_step h.toInv he
    exact ⟨.engine .core, _, .inr (.inl rfl), hharmless rfl, hs, todo_lt_of_work hsess hload hwork⟩
  · exact ⟨.engine (.account 0), _, .inr (.inr rfl), hharmless rfl, thread_step rfl rfl he,
      todo_lt_of_work rfl rfl hwork⟩

/-- Whatever the system has come to, one of the parties can go on. The reports
go first, then the packets in the engine, those in the channel and the line. -/
theorem exists_system_step (h : Alive inBase outBase s)
    (hp : ∀ p ∈ s.engine.ingress.enqueued, p.price.toNat ≤ maxPriceTicks) (hd : ¬ Settled c s) :
    ∃ a s', Serves a ∧ Harmless s a ∧ step R s a = some s' ∧ todo c s' < todo c s := by
  have hregistry := h.gateway.registry
  by_cases he : s.gateway.gateway.egress = .dequeuing
  · by_cases hq : EngineDelivery.Quiet s.engine
    · cases hcur : s.gateway.gateway.current with
      | some x =>
          obtain ⟨g, hg, hsess, hload⟩ := GatewayProgress.enqueue_lightens hregistry hcur
          obtain ⟨s', hs, hnext⟩ := enqueue_step (R := R) h.toInv hg
          exact ⟨.enqueue, s', trivial, enqueue_harmless hq, hs,
            todo_lt_of_load (by rw [hnext]; exact hsess) (by rw [hnext]; exact hload)⟩
      | none =>
          by_cases hchan : s.gateway.gateway.packetChan = []
          · have hpending : pending (s.gateway.gateway.sessions c).phase ≠ [] :=
              fun hpending => hd ⟨⟨he, hcur, hchan, hpending⟩, hq⟩
            obtain ⟨d, g, hg, hease⟩ := GatewayProgress.line_eases hregistry he hchan hpending
            exact ⟨.client (.session d), _, .inl ⟨d, rfl⟩, client_harmless _, client_step rfl hg,
              todo_lt_of_eases hease⟩
          · obtain ⟨g, hg, hsess, -, hload⟩ := GatewayProgress.receive_lightens hregistry hcur hchan
            exact ⟨.client .receive, _, .inr (.inl rfl), client_harmless _, client_step rfl hg,
              todo_lt_of_load hsess hload⟩
    · exact engine_works h he hp hq
  · obtain ⟨a, g, ha, hg, hease⟩ := GatewayProgress.egress_eases hregistry he c
    rcases ha with rfl | ⟨d, rfl⟩
    · exact ⟨.client .egress, _, .inr (.inr rfl), client_harmless _, client_step rfl hg, todo_lt_of_eases hease⟩
    · exact ⟨.client (.session d), _, .inl ⟨d, rfl⟩, client_harmless _, client_step rfl hg, todo_lt_of_eases hease⟩

end Steps

section Answered

variable {R : Rounding} {inBase outBase : BitVec 64} {s s' : State}

theorem serves_lines {a : Action} (ha : Serves a) (hs : step R s a = some s') (c : Nat) :
    (s'.gateway.gateway.sessions c).parsed = (s.gateway.gateway.sessions c).parsed := by
  cases steps_of_step hs with
  | client _ hg =>
      obtain ⟨g, hstep, rfl⟩ := Option.map_eq_some_iff.mp hg
      refine GatewayProgress.serves_parsed ?_ hstep c
      rcases ha with ha | ha | ha
      · exact .inl ha
      · exact .inr (.inl ha)
      · exact .inr (.inr (.inr ha))
  | enqueue _ hg =>
      obtain ⟨g, hstep, rfl⟩ := Option.map_eq_some_iff.mp hg
      exact GatewayProgress.serves_parsed (.inr (.inr (.inl rfl))) hstep c
  | dequeue _ hg => exact congrArg (fun f => (f c).parsed) (dequeue_frame hg).2.2
  | core _ hg => exact congrArg (fun f => (f c).parsed) (core_frame hg).2.2
  | engine => rfl

/-- The system has no dead end before the signal. From wherever it has come to,
its threads can go on, without anything from the clients, until all accepted
lines of a client have been given to `Enqueue`, the core has taken every packet
that came into the ring, and the gateway has routed every report about it. -/
theorem clients_answered {packets : Nat → IngressPacket} {queued reports : Nat → EgressPacket}
    {snapshots : Nat → MetricsWorker.MetricsPacket} {actions : List Action}
    (h : Runs.Along (step R) Harmless (init packets queued reports snapshots inBase outBase) actions)
    (hr : Runs.run (step R) (init packets queued reports snapshots inBase outBase) actions = some s)
    (hp : ∀ d, ∀ p ∈ (s.gateway.gateway.sessions d).parsed, p.price.toNat ≤ maxPriceTicks) (c : Nat) :
    ∃ more s' core, (∀ a ∈ more, Serves a) ∧ Runs.run (step R) s more = some s' ∧
      (∀ d, (s'.gateway.gateway.sessions d).parsed = (s.gateway.gateway.sessions d).parsed) ∧
      of c (s'.gateway.gateway.offered.map Prod.fst) = (s.gateway.gateway.sessions c).parsed ∧
      Runs.run Core.consume .init ((admitted s'.gateway.gateway).map Prod.snd) = some core ∧
      s'.gateway.dequeued = core.pushed ∧ s'.gateway.gateway.egress = .dequeuing := by
  have halive : Alive inBase outBase s :=
    Runs.run_preserves (fun _ _ _ h ha hs => step_alive h ha hs) (init_alive ..) h hr
  have hstep : ∀ t, (Alive inBase outBase t ∧
        ∀ d, (t.gateway.gateway.sessions d).parsed = (s.gateway.gateway.sessions d).parsed) → ¬ Settled c t →
      ∃ a t', Serves a ∧ step R t a = some t' ∧ (Alive inBase outBase t' ∧
        ∀ d, (t'.gateway.gateway.sessions d).parsed = (s.gateway.gateway.sessions d).parsed) ∧
        todo c t' < todo c t := by
    rintro t ⟨ht, hparsed⟩ hd
    have hprice : ∀ p ∈ t.engine.ingress.enqueued, p.price.toNat ≤ maxPriceTicks := by
      intro p hmem
      obtain ⟨d, hd⟩ := mem_parsed ht.toInv hmem
      exact hp d p (hparsed d ▸ hd)
    obtain ⟨a, t', ha, hharmless, hs, hlt⟩ := exists_system_step ht hprice hd
    exact ⟨a, t', ha, hs, ⟨step_alive ht hharmless hs, fun d => (serves_lines ha hs d).trans (hparsed d)⟩, hlt⟩
  obtain ⟨more, s', hmore, hrun, ⟨ht, hparsed⟩, hsettled⟩ :=
    Runs.exists_run_done (todo c) hstep ⟨halive, fun _ => rfl⟩
  obtain ⟨done, core, -, hcore, -, hquiet⟩ := ht.engine.answered
  obtain ⟨hdone, hreturned⟩ := hquiet hsettled.engine
  refine ⟨more, s', core, hmore, hrun, hparsed, (hsettled.gateway.offered ht.gateway.ingress).trans (hparsed c),
    ?_, ht.reports.trans hreturned, hsettled.gateway.egress⟩
  rw [admitted, List.map_map, ← hcore, hdone, ← ht.ring, ht.gateway.ingress.enqueued]
  rfl

def crowd : List Action :=
  [.client (.line 1 Gateway.sellLine), .client (.session 1), .client (.session 1), .client (.line 0 Gateway.sellLine),
    .client (.session 0)]

theorem clients_answered_crowd :
    ∃ s more s' core, Runs.run (step .exact) start crowd = some s ∧ s.gateway.gateway.registryMutex = .write 1 ∧
      Runs.run (step .exact) s more = some s' ∧
      of 0 (s'.gateway.gateway.offered.map Prod.fst) = [Gateway.sell] ∧
      Runs.run Core.consume .init ((admitted s'.gateway.gateway).map Prod.snd) = some core ∧
      s'.gateway.dequeued = core.pushed := by
  have hrun : (Runs.run (step .exact) start crowd).map
      (fun s => (s.gateway.gateway.registryMutex, (s.gateway.gateway.sessions 0).parsed,
        (s.gateway.gateway.sessions 1).parsed)) = some (.write 1, [Gateway.sell], [Gateway.sell]) := by
    decide +kernel
  have hrest : ∀ d, (Runs.run (step .exact) start crowd).map
      (fun s => (s.gateway.gateway.sessions (d + 2)).parsed) = some [] := fun d => by with_unfolding_all rfl
  have halong : Runs.Along (step .exact) Harmless start crowd :=
    .of_forall (by simp [crowd, client_harmless])
  obtain ⟨s, hs, hresult⟩ := Option.map_eq_some_iff.mp hrun
  obtain ⟨hmutex, hresult⟩ := Prod.mk.inj hresult
  obtain ⟨hzero, hone⟩ := Prod.mk.inj hresult
  have hsell : Gateway.sell.price.toNat ≤ maxPriceTicks := by decide +kernel
  have hprice : ∀ d, ∀ p ∈ (s.gateway.gateway.sessions d).parsed, p.price.toNat ≤ maxPriceTicks := by
    intro d
    match d with
    | 0 => simpa [hzero] using hsell
    | 1 => simpa [hone] using hsell
    | d + 2 =>
        have hd := hrest d
        rw [hs] at hd
        simp [Option.some.inj hd]
  obtain ⟨more, s', core, -, hmore, -, hoffered, hcore, hdequeued, -⟩ := clients_answered halong hs hprice 0
  exact ⟨s, more, s', core, hs, hmutex, hmore, hoffered.trans hzero, hcore, hdequeued⟩

end Answered

end Sequitur.SystemProgress
