import Sequitur.ClientRegistry
import Sequitur.IngressDelivery

namespace Sequitur.GatewayProgress

open Protocol CoreLoop Gateway

section Ranks

def lineRank : Phase → Nat
  | .parsed _ => 6
  | .recorded _ => 5
  | .locked _ => 4
  | .bound _ => 3
  | .sending _ => 2
  | .reading | .leaving | .clearing _ | .closed | .done => 0

def holdRank : Phase → Nat
  | .locked _ => 2
  | .bound _ | .closed => 1
  | .clearing rest => rest.length + 2
  | .reading | .parsed _ | .recorded _ | .sending _ | .leaving | .done => 0

def lockRank (g : State) : Nat :=
  match g.registryMutex with
  | .write d => holdRank (g.sessions d).phase
  | .free | .read => 0

def routeRank : Egress → Nat
  | .dequeued _ => 6
  | .locked _ => 5
  | .taker _ _ => 4
  | .between _ => 3
  | .maker _ _ => 2
  | .finished => 1
  | .dequeuing => 0

def callRank : IngressRing.Enqueue → Nat
  | .idle => 4
  | .loadedRead _ _ => 3
  | .checked _ _ => 2
  | .stored _ _ => 1

def load (g : State) : Nat :=
  5 * g.packetChan.length + (g.current.toList.map fun _ => callRank g.ring.gateway).sum

def stage (g : State) : ℕ ×ₗ ℕ := toLex (routeRank g.egress, lockRank g)

/-- A step outside of the segment that brings the line of the session `c`
forward, or else a report or the holder of the lock. -/
structure Eases (c : Nat) (g g' : State) : Prop where
  ring : g'.ring = g.ring
  forward : lineRank (g'.sessions c).phase < lineRank (g.sessions c).phase ∨
    lineRank (g'.sessions c).phase = lineRank (g.sessions c).phase ∧ load g' = load g ∧ stage g' < stage g

end Ranks

section Steps

variable {base : BitVec 64} {g g' : State} {c d : Nat}

theorem step_eq_advance (h : ClientRegistry.Inv g) (a : Gateway.Action) : step g a = advance g a := by
  rw [step, h.panicked]
  rfl

theorem stage_lt_of_lock (he : g'.egress = g.egress) (hl : lockRank g' < lockRank g) : stage g' < stage g := by
  rw [stage, stage, he]
  exact Prod.Lex.right _ hl

theorem stage_lt_of_route (hr : routeRank g'.egress < routeRank g.egress) : stage g' < stage g :=
  Prod.Lex.left _ _ hr

theorem eases_of_lock {x : Session} (hsess : g'.sessions = Function.update g.sessions d x) (hring : g'.ring = g.ring)
    (hload : load g' = load g) (hegress : g'.egress = g.egress)
    (hline : lineRank x.phase ≤ lineRank (g.sessions d).phase) (hlock : lockRank g' < lockRank g) : Eases c g g' := by
  have hstage := stage_lt_of_lock hegress hlock
  refine ⟨hring, ?_⟩
  rw [hsess]
  by_cases hc : c = d
  · subst hc
    rw [Function.update_self]
    rcases Nat.lt_or_eq_of_le hline with hlt | heq
    · exact .inl hlt
    · exact .inr ⟨heq, hload, hstage⟩
  · rw [Function.update_of_ne hc]
    exact .inr ⟨rfl, hload, hstage⟩

theorem lockRank_of_write (hm : g.registryMutex = .write d) : lockRank g = holdRank (g.sessions d).phase := by
  rw [lockRank, hm]

theorem lockRank_of_free (hm : g.registryMutex = .free) : lockRank g = 0 := by
  rw [lockRank, hm]

theorem holder_eases (h : ClientRegistry.Inv g) (hm : g.registryMutex = .write d) (c : Nat) :
    ∃ g', step g (.session d) = some g' ∧ Eases c g g' := by
  have hw := (h.writer d).mpr hm
  have hrank := lockRank_of_write hm
  have hkeep : ∀ {g' : State} {x : Session}, g'.sessions = Function.update g.sessions d x →
      g'.registryMutex = g.registryMutex → holdRank x.phase < holdRank (g.sessions d).phase →
      lockRank g' < lockRank g := by
    intro g' x hsess hmutex hlt
    rw [lockRank_of_write (hmutex.trans hm), hsess, Function.update_self, hrank]
    exact hlt
  rw [step_eq_advance h, advance, sessionStep]
  cases hp : (g.sessions d).phase with
  | locked packet =>
      refine ⟨_, rfl, eases_of_lock rfl rfl rfl rfl (by simp [hp, Session.moveTo, lineRank]) ?_⟩
      exact hkeep rfl rfl (by simp [hp, Session.moveTo, holdRank])
  | bound packet =>
      refine ⟨_, rfl, eases_of_lock rfl rfl rfl rfl (by simp [hp, Session.moveTo, lineRank]) ?_⟩
      rw [lockRank_of_free rfl, hrank, hp]
      exact Nat.one_pos
  | clearing rest =>
      cases rest with
      | nil =>
          refine ⟨_, rfl, eases_of_lock rfl rfl rfl rfl (by simp [Session.close, lineRank]) ?_⟩
          exact hkeep rfl rfl (by simp [hp, Session.close, holdRank])
      | cons traderId rest =>
          refine ⟨_, rfl, eases_of_lock rfl rfl rfl rfl (by simp [Session.moveTo, lineRank]) ?_⟩
          exact hkeep rfl rfl (by simp [hp, Session.moveTo, holdRank])
  | closed =>
      refine ⟨_, rfl, eases_of_lock rfl rfl rfl rfl (by simp [Session.moveTo, lineRank]) ?_⟩
      rw [lockRank_of_free rfl, hrank, hp]
      exact Nat.one_pos
  | reading | parsed | recorded | sending | leaving | done => simp [ClientRegistry.writes, hp] at hw

theorem eases_of_route (hsess : ∀ c, (g'.sessions c).phase = (g.sessions c).phase) (hring : g'.ring = g.ring)
    (hload : load g' = load g) (hroute : routeRank g'.egress < routeRank g.egress) : Eases c g g' :=
  ⟨hring, .inr ⟨by rw [hsess], hload, stage_lt_of_route hroute⟩⟩

theorem send_eases {packet : EgressPacket} {next : Egress} (hopen : (g.sessions d).chClosed = false)
    (hroute : routeRank next < routeRank g.egress) : Eases c g (g.send d packet next) := by
  rw [Gateway.State.send, if_neg (by rw [hopen]; decide)]
  refine eases_of_route (fun x => ?_) rfl rfl hroute
  by_cases hx : x = d
  · subst hx
    simp [Gateway.State.set, Session.offer]
  · simp [Gateway.State.set, hx]

theorem egress_eases (h : ClientRegistry.Inv g) (he : g.egress ≠ .dequeuing) (c : Nat) :
    ∃ a g', (a = .egress ∨ ∃ d, a = .session d) ∧ step g a = some g' ∧ Eases c g g' := by
  by_cases hwrite : ∃ d, g.registryMutex = .write d
  · obtain ⟨d, hm⟩ := hwrite
    obtain ⟨g', hs, hease⟩ := holder_eases h hm c
    exact ⟨_, g', .inr ⟨d, rfl⟩, hs, hease⟩
  · suffices hstep : ∃ g', step g .egress = some g' ∧ Eases c g g' by
      obtain ⟨g', hs, hease⟩ := hstep
      exact ⟨_, g', .inl rfl, hs, hease⟩
    rw [step_eq_advance h, advance, egressStep]
    cases hg : g.egress with
    | dequeuing => exact absurd hg he
    | dequeued packet =>
        have hfree : g.registryMutex = .free := by
          cases hm : g.registryMutex with
          | free => rfl
          | write d => exact absurd ⟨d, hm⟩ hwrite
          | read => simpa [ClientRegistry.reads, hg] using h.reader.mpr hm
        simp only [hfree, if_true]
        exact ⟨_, rfl, eases_of_route (fun _ => rfl) rfl rfl (by simp [hg, routeRank])⟩
    | locked packet =>
        dsimp only
        split
        · exact ⟨_, rfl, eases_of_route (fun _ => rfl) rfl rfl (by simp [hg, routeRank])⟩
        · exact ⟨_, rfl, eases_of_route (fun _ => rfl) rfl rfl (by simp [hg, routeRank])⟩
    | taker packet d => exact ⟨_, rfl, send_eases (h.found packet d (.inl hg)) (by simp [hg, routeRank])⟩
    | between packet =>
        dsimp only
        split
        · exact ⟨_, rfl, eases_of_route (fun _ => rfl) rfl rfl (by simp [hg, routeRank])⟩
        · exact ⟨_, rfl, eases_of_route (fun _ => rfl) rfl rfl (by simp [hg, routeRank])⟩
    | maker packet d => exact ⟨_, rfl, send_eases (h.found packet d (.inr hg)) (by simp [hg, routeRank])⟩
    | finished => exact ⟨_, rfl, eases_of_route (fun _ => rfl) rfl rfl (by simp [hg, routeRank])⟩

theorem line_eases (h : ClientRegistry.Inv g) (he : g.egress = .dequeuing) (hchan : g.packetChan = [])
    (hp : IngressDelivery.pending (g.sessions c).phase ≠ []) :
    ∃ d g', step g (.session d) = some g' ∧ Eases c g g' := by
  have hown : ∀ {g' : State} {x : Session}, g'.sessions = Function.update g.sessions c x → g'.ring = g.ring →
      lineRank x.phase < lineRank (g.sessions c).phase → Eases c g g' := by
    intro g' x hsess hring hlt
    refine ⟨hring, .inl ?_⟩
    rw [hsess, Function.update_self]
    exact hlt
  cases hphase : (g.sessions c).phase with
  | parsed packet =>
      refine ⟨c, ?_⟩
      rw [step_eq_advance h, advance, sessionStep]
      simp only [hphase]
      split
      · exact ⟨_, rfl, hown rfl rfl (by simp [hphase, Session.moveTo, lineRank])⟩
      · exact ⟨_, rfl, hown rfl rfl (by simp [hphase, Session.record, lineRank])⟩
  | recorded packet =>
      cases hm : g.registryMutex with
      | free =>
          refine ⟨c, ?_⟩
          rw [step_eq_advance h, advance, sessionStep]
          simp only [hphase, hm, if_true]
          exact ⟨_, rfl, hown rfl rfl (by simp [hphase, Session.moveTo, lineRank])⟩
      | write d =>
          obtain ⟨g', hs, hease⟩ := holder_eases h hm c
          exact ⟨d, g', hs, hease⟩
      | read => simpa [ClientRegistry.reads, he] using h.reader.mpr hm
  | locked packet | bound packet =>
      refine ⟨c, ?_⟩
      rw [step_eq_advance h, advance, sessionStep]
      simp only [hphase]
      exact ⟨_, rfl, hown rfl rfl (by simp [hphase, Session.moveTo, lineRank])⟩
  | sending packet =>
      refine ⟨c, ?_⟩
      rw [step_eq_advance h, advance, sessionStep]
      simp only [hphase, hchan, List.length_nil, Nat.ofNat_pos, if_true]
      exact ⟨_, rfl, hown rfl rfl (by simp [hphase, Session.moveTo, lineRank])⟩
  | reading | leaving | clearing | closed | done => simp [IngressDelivery.pending, hphase] at hp

theorem enqueue_lightens (h : ClientRegistry.Inv g) {x : Nat × IngressPacket} (hcur : g.current = some x) :
    ∃ g', step g .enqueue = some g' ∧ g'.sessions = g.sessions ∧ load g' < load g := by
  rw [step_eq_advance h, advance]
  simp only [hcur, enqueueStep, IngressRing.step, IngressRing.gatewayStep, enqueueResult]
  cases hg : g.ring.gateway with
  | idle => exact ⟨_, rfl, rfl, by simp [load, hcur, hg, callRank]⟩
  | loadedRead packet currRead =>
      by_cases hfull : g.ring.ring.writeIdx - currRead = 65536
      · simp only [hfull, if_true]
        exact ⟨_, rfl, rfl, by simp [load, hcur, hg, callRank]⟩
      · simp only [hfull, if_false]
        exact ⟨_, rfl, rfl, by simp [load, hcur, hg, callRank]⟩
  | checked packet currWrite => exact ⟨_, rfl, rfl, by simp [load, hcur, hg, callRank]⟩
  | stored packet currWrite => exact ⟨_, rfl, rfl, by simp [load, hcur, hg, callRank]⟩

theorem receive_lightens (h : ClientRegistry.Inv g) (hcur : g.current = none) (hchan : g.packetChan ≠ []) :
    ∃ g', step g .receive = some g' ∧ g'.sessions = g.sessions ∧ g'.ring = g.ring ∧ load g' < load g := by
  obtain ⟨x, rest, hx⟩ := List.exists_cons_of_ne_nil hchan
  rw [step_eq_advance h, advance]
  simp only [hcur, hx]
  refine ⟨_, rfl, rfl, rfl, ?_⟩
  have hcall : callRank g.ring.gateway ≤ 4 := by cases g.ring.gateway <;> simp [callRank]
  simp only [load, hx, hcur, List.length_cons, Option.toList_some, Option.toList_none, List.map_cons, List.map_nil,
    List.sum_cons, List.sum_nil]
  omega

end Steps

section Offered

open IngressDelivery (of pending)

def Serves (a : Gateway.Action) : Prop := (∃ d, a = .session d) ∨ a = .receive ∨ a = .enqueue ∨ a = .egress

/-- The line of the session `c` and everything in the channel have been given
to `Enqueue`, and the report at hand is routed. -/
structure Settled (c : Nat) (g : State) : Prop where
  egress : g.egress = .dequeuing
  current : g.current = none
  packetChan : g.packetChan = []
  pending : pending (g.sessions c).phase = []

variable {base : BitVec 64} {g g' : State} {c : Nat}

theorem update_parsed {d : Nat} {x : Session} (hx : x.parsed = (g.sessions d).parsed) (c : Nat) :
    (Function.update g.sessions d x c).parsed = (g.sessions c).parsed := by
  by_cases hc : c = d
  · subst hc
    simpa using hx
  · rw [Function.update_of_ne hc]

theorem serves_parsed {a : Gateway.Action} (ha : Serves a) (hs : step g a = some g') (c : Nat) :
    (g'.sessions c).parsed = (g.sessions c).parsed := by
  cases steps_of_step hs with
  | accept | skip | disconnect | cleanup | write | core | dequeue => simp [Serves] at ha
  | known | record | lock | register | unlock | send | delete | close | finish => exact update_parsed (by rfl) c
  | sendTaker | sendMaker =>
      rw [Gateway.State.send]
      split
      · rfl
      · exact update_parsed (by rfl) c
  | receive | call | access | result | readLock | findTaker | noTaker | findMaker | noMaker | readUnlock => rfl

def todo (c : Nat) (g : State) : ℕ ×ₗ ℕ ×ₗ ℕ ×ₗ ℕ :=
  toLex (lineRank (g.sessions c).phase, toLex (load g, stage g))

theorem todo_lt_of_eases (h : Eases c g g') : todo c g' < todo c g := by
  rcases h.forward with hline | ⟨hline, hload, hstage⟩
  · exact Prod.Lex.left _ _ hline
  · rw [todo, todo, hline, hload]
    exact Prod.Lex.right _ (Prod.Lex.right _ hstage)

theorem todo_lt_of_load (hsess : g'.sessions = g.sessions) (hload : load g' < load g) : todo c g' < todo c g := by
  rw [todo, todo, hsess]
  exact Prod.Lex.right _ (Prod.Lex.left _ _ hload)

theorem exists_step (h : ClientRegistry.Inv g) (hd : ¬ Settled c g) :
    ∃ a g', Serves a ∧ step g a = some g' ∧ todo c g' < todo c g := by
  by_cases he : g.egress = .dequeuing
  · cases hcur : g.current with
    | some x =>
        obtain ⟨g', hs, hsess, hload⟩ := enqueue_lightens h hcur
        exact ⟨_, g', .inr (.inr (.inl rfl)), hs, todo_lt_of_load hsess hload⟩
    | none =>
        by_cases hchan : g.packetChan = []
        · have hp : pending (g.sessions c).phase ≠ [] := fun hp => hd ⟨he, hcur, hchan, hp⟩
          obtain ⟨d, g', hs, hease⟩ := line_eases h he hchan hp
          exact ⟨_, g', .inl ⟨d, rfl⟩, hs, todo_lt_of_eases hease⟩
        · obtain ⟨g', hs, hsess, -, hload⟩ := receive_lightens h hcur hchan
          exact ⟨_, g', .inr (.inl rfl), hs, todo_lt_of_load hsess hload⟩
  · obtain ⟨a, g', ha, hs, hease⟩ := egress_eases h he c
    refine ⟨a, g', ?_, hs, todo_lt_of_eases hease⟩
    rcases ha with rfl | ⟨d, rfl⟩
    · exact .inr (.inr (.inr rfl))
    · exact .inl ⟨d, rfl⟩

theorem Settled.offered (hd : Settled c g) (hi : IngressDelivery.Inv base g) :
    of c (g.offered.map Prod.fst) = (g.sessions c).parsed := by
  have hflow := hi.flow c
  rw [IngressDelivery.sent, hd.current, hd.packetChan, hd.pending] at hflow
  simpa using hflow

/-- The gateway has no dead end: from wherever it has come to, whoever holds
the lock and however full the channels are, its goroutines can go on until all
lines that a client has got accepted have been given to `Enqueue`. No other
client has to send, read or leave for it. -/
theorem lines_offered {buf : Nat → IngressPacket} {actions : List Gateway.Action}
    (hr : Runs.run step (init buf base) actions = some g) (c : Nat) :
    ∃ more g', (∀ a ∈ more, Serves a) ∧ Runs.run step g more = some g' ∧
      (∀ d, (g'.sessions d).parsed = (g.sessions d).parsed) ∧
      of c (g'.offered.map Prod.fst) = (g.sessions c).parsed := by
  have hregistry := Runs.run_invariant (fun _ _ _ h hs => ClientRegistry.step_inv h hs)
    (ClientRegistry.init_inv buf base) hr
  have hingress := Runs.run_invariant (fun _ _ _ h hs => IngressDelivery.step_inv h hs)
    (IngressDelivery.init_inv buf base) hr
  have hstep : ∀ t, (ClientRegistry.Inv t ∧ IngressDelivery.Inv base t ∧
        ∀ d, (t.sessions d).parsed = (g.sessions d).parsed) → ¬ Settled c t →
      ∃ a t', Serves a ∧ step t a = some t' ∧ (ClientRegistry.Inv t' ∧ IngressDelivery.Inv base t' ∧
        ∀ d, (t'.sessions d).parsed = (g.sessions d).parsed) ∧ todo c t' < todo c t := by
    rintro t ⟨hreg, hing, hparsed⟩ hd
    obtain ⟨a, t', ha, hs, hlt⟩ := exists_step hreg hd
    exact ⟨a, t', ha, hs, ⟨ClientRegistry.step_inv hreg hs, IngressDelivery.step_inv hing hs,
      fun d => (serves_parsed ha hs d).trans (hparsed d)⟩, hlt⟩
  obtain ⟨more, g', hmore, hrun, ⟨-, hing, hparsed⟩, hsettled⟩ :=
    Runs.exists_run_done (todo c) hstep ⟨hregistry, hingress, fun _ => rfl⟩
  exact ⟨more, g', hmore, hrun, hparsed, (hsettled.offered hing).trans (hparsed c)⟩

theorem lines_offered_waiting :
    ∃ g more g', Runs.run step (init (fun _ => .zero) 0)
        [.line 1 sellLine, .session 1, .session 1, .line 0 sellLine, .session 0] = some g ∧
      g.registryMutex = .write 1 ∧ (g.sessions 0).parsed = [sell] ∧ Runs.run step g more = some g' ∧
      of 0 (g'.offered.map Prod.fst) = [sell] := by
  have hrun : (Runs.run step (init (fun _ => .zero) 0)
      [.line 1 sellLine, .session 1, .session 1, .line 0 sellLine, .session 0]).map
        (fun g => (g.registryMutex, (g.sessions 0).parsed)) = some (.write 1, [sell]) := by
    decide +kernel
  obtain ⟨g, hg, hresult⟩ := Option.map_eq_some_iff.mp hrun
  obtain ⟨hmutex, hparsed⟩ := Prod.mk.inj hresult
  obtain ⟨more, g', -, hmore, -, hoffered⟩ := lines_offered hg 0
  exact ⟨g, more, g', hg, hmutex, hparsed, hmore, hparsed ▸ hoffered⟩

end Offered

end Sequitur.GatewayProgress
