import Sequitur.IngressRing
import Sequitur.EgressPipeline
import Sequitur.Telemetry

namespace Sequitur.EngineProcess

open MatchingEngine Protocol CoreLoop Rings SPSCQueue MetricsWorker Telemetry

/-- Where the core thread is in its loop. Its accesses to the ingress ring are
those of `IngressRing`, its accesses to `egress_queue` those of
`EgressPipeline`. -/
inductive Loop
  | test
  | iterate
  | report
  | account
  | sample (packet : MetricsPacket)
  | exited

inductive Logging
  | test
  | drain
  | clock
  | exited

inductive Main
  | waiting
  | joined
  | cleared
  | done

/-- The engine process with all its threads, and the gateway at the other end
of the shared segment. `cycles` records what every iteration has measured,
`offered` the snapshots whose push has ended, and `log` the reports written. -/
structure State where
  ingress : IngressRing.State
  egress : EgressPipeline.State
  loop : Loop
  iterationCounter : UInt64
  rollingCyclesSum : UInt64
  metrics : Queue MetricsPacket
  worker : Worker
  logging : Logging
  workerActive : Bool
  main : Main
  cycles : List UInt64
  offered : List MetricsPacket
  log : List Report

def init (packets : Nat → IngressPacket) (queued reports : Nat → EgressPacket) (snapshots : Nat → MetricsPacket)
    (inBase outBase : BitVec 64) : State where
  ingress := IngressRing.init packets inBase
  egress := EgressPipeline.init queued reports outBase
  loop := .test
  iterationCounter := 0
  rollingCyclesSum := 0
  metrics := .init snapshots 0
  worker := .init
  logging := .test
  workerActive := true
  main := .waiting
  cycles := []
  offered := []
  log := []

/-- Where the core goes on after an access of its iteration: a core that was
waiting and still waits has found no packet, one that waits again has its
reports at hand. -/
def Loop.after : IngressRing.Iteration → IngressRing.Iteration → Loop
  | .waiting, .waiting => .test
  | _, .waiting => .report
  | _, _ => .iterate

def made (before now : IngressRing.State) : List EgressPacket :=
  (now.pushed.drop before.pushed.length).map Prod.snd

def coreStep (s : State) : Option State :=
  match s.loop with
  | .test => some { s with loop := if s.egress.active then .iterate else .exited }
  | .iterate =>
      (IngressRing.coreStep s.ingress).map fun i =>
        { s with ingress := i
                 egress := { s.egress with todo := made s.ingress i }
                 loop := .after s.ingress.core i.core }
  | .report =>
      if s.egress.todo = [] then some { s with loop := .account }
      else (EgressPipeline.step s.egress .core).map fun e => { s with egress := e }
  | .account => none
  | .sample packet =>
      -- A snapshot that finds the queue full is dropped.
      let r := s.metrics.pushStep 12 packet
      if r.2 = none then some { s with metrics := r.1 }
      else some { s with metrics := r.1
                         loop := .test
                         iterationCounter := 0
                         rollingCyclesSum := 0
                         offered := s.offered ++ [packet] }
  | .exited => none

/-- The end of an iteration that took `elapsedCycles`. -/
def accountStep (R : Rounding) (s : State) (elapsedCycles : UInt64) : Option State :=
  match s.loop with
  | .account =>
      let sum := s.rollingCyclesSum + elapsedCycles
      let counter := s.iterationCounter + 1
      some { s with rollingCyclesSum := sum
                    iterationCounter := counter
                    cycles := s.cycles ++ [elapsedCycles]
                    loop := if batchWindow ≤ counter then .sample (snapshot R s.ingress.engine sum) else .test }
  | _ => none

def workerStep (s : State) : Option State :=
  match s.logging with
  | .test => some { s with logging := if s.workerActive then .drain else .exited }
  | .drain =>
      let r := s.metrics.popStep 12
      some { s with metrics := r.1
                    worker := (received r.2).foldl Worker.consume s.worker
                    logging := if r.2 = some none then .clock else .drain }
  | .clock | .exited => none

def clockStep (R : Rounding) (s : State) (due : Bool) : Option State :=
  match s.logging with
  | .clock =>
      if due then some { s with worker := (s.worker.report R).1
                                logging := .test
                                log := s.log ++ [(s.worker.report R).2] }
      else some { s with logging := .test }
  | _ => none

def mainStep (s : State) : Option State :=
  match s.main with
  | .waiting =>
      match s.egress.active, s.loop, s.egress.publisher with
      | false, .exited, .exited => some { s with main := .joined }
      | _, _, _ => none
  | .joined => some { s with workerActive := false, main := .cleared }
  | .cleared => some { s with metrics := { s.metrics with stopFlag := true }, main := .done }
  | .done => none

inductive Action
  | signal
  | enqueue (packet : IngressPacket)
  | send
  | receive
  | core
  | account (elapsedCycles : UInt64)
  | publisher
  | worker
  | clock (due : Bool)
  | main
  deriving DecidableEq

/-- One step of a thread of the engine or of the gateway. `enqueue` starts a
call of `Enqueue`, `send` goes on with it, and `receive` is the next access of
`Dequeue`. -/
def step (R : Rounding) (s : State) : Action → Option State
  | .signal => some { s with egress := { s.egress with active := false } }
  | .enqueue packet => (IngressRing.step s.ingress (.enqueue packet)).map fun i => { s with ingress := i }
  | .send => (IngressRing.step s.ingress .gateway).map fun i => { s with ingress := i }
  | .receive => (EgressPipeline.step s.egress .gateway).map fun e => { s with egress := e }
  | .core => coreStep s
  | .account elapsedCycles => accountStep R s elapsedCycles
  | .publisher => (EgressPipeline.step s.egress .publisher).map fun e => { s with egress := e }
  | .worker => workerStep s
  | .clock due => clockStep R s due
  | .main => mainStep s

def Action.enqueues : Action → Option IngressRing.Action
  | .enqueue packet => some (.enqueue packet)
  | .send => some .gateway
  | _ => none

def Action.delivers : Action → Option EgressPipeline.Action
  | .receive => some .gateway
  | .publisher => some .publisher
  | _ => none

inductive Steps (R : Rounding) (s : State) : Action → State → Prop
  | signal : Steps R s .signal { s with egress := { s.egress with active := false } }
  | enqueue {a : Action} {b : IngressRing.Action} {i : IngressRing.State} (ha : a.enqueues = some b)
      (hi : IngressRing.step s.ingress b = some i) : Steps R s a { s with ingress := i }
  | deliver {a : Action} {b : EgressPipeline.Action} {e : EgressPipeline.State} (ha : a.delivers = some b)
      (he : EgressPipeline.step s.egress b = some e) : Steps R s a { s with egress := e }
  | enter (hl : s.loop = .test) (ha : s.egress.active = true) : Steps R s .core { s with loop := .iterate }
  | leave (hl : s.loop = .test) (ha : s.egress.active = false) : Steps R s .core { s with loop := .exited }
  | iterate {i : IngressRing.State} (hl : s.loop = .iterate) (hi : IngressRing.step s.ingress .core = some i) :
      Steps R s .core { s with
        ingress := i
        egress := { s.egress with todo := made s.ingress i }
        loop := .after s.ingress.core i.core }
  | push {e : EgressPipeline.State} (hl : s.loop = .report) (ht : s.egress.todo ≠ [])
      (he : EgressPipeline.step s.egress .core = some e) : Steps R s .core { s with egress := e }
  | pushed (hl : s.loop = .report) (ht : s.egress.todo = []) : Steps R s .core { s with loop := .account }
  | count {cycles : UInt64} (hl : s.loop = .account) (hc : s.iterationCounter + 1 < batchWindow) :
      Steps R s (.account cycles) { s with
        rollingCyclesSum := s.rollingCyclesSum + cycles
        iterationCounter := s.iterationCounter + 1
        cycles := s.cycles ++ [cycles]
        loop := .test }
  | batch {cycles : UInt64} (hl : s.loop = .account) (hc : batchWindow ≤ s.iterationCounter + 1) :
      Steps R s (.account cycles) { s with
        rollingCyclesSum := s.rollingCyclesSum + cycles
        iterationCounter := s.iterationCounter + 1
        cycles := s.cycles ++ [cycles]
        loop := .sample (snapshot R s.ingress.engine (s.rollingCyclesSum + cycles)) }
  | sample {packet : MetricsPacket} (hl : s.loop = .sample packet) (hr : (s.metrics.pushStep 12 packet).2 = none) :
      Steps R s .core { s with metrics := (s.metrics.pushStep 12 packet).1 }
  | sampled {packet : MetricsPacket} (hl : s.loop = .sample packet)
      (hr : (s.metrics.pushStep 12 packet).2 ≠ none) :
      Steps R s .core { s with
        metrics := (s.metrics.pushStep 12 packet).1
        loop := .test
        iterationCounter := 0
        rollingCyclesSum := 0
        offered := s.offered ++ [packet] }
  | log (hl : s.logging = .test) :
      Steps R s .worker { s with logging := if s.workerActive then .drain else .exited }
  | drain (hl : s.logging = .drain) :
      Steps R s .worker { s with
        metrics := (s.metrics.popStep 12).1
        worker := (received (s.metrics.popStep 12).2).foldl Worker.consume s.worker
        logging := if (s.metrics.popStep 12).2 = some none then .clock else .drain }
  | early (hl : s.logging = .clock) : Steps R s (.clock false) { s with logging := .test }
  | due (hl : s.logging = .clock) :
      Steps R s (.clock true) { s with
        worker := (s.worker.report R).1
        logging := .test
        log := s.log ++ [(s.worker.report R).2] }
  | join (hm : s.main = .waiting) (hl : s.loop = .exited) (hp : s.egress.publisher = .exited) :
      Steps R s .main { s with main := .joined }
  | clear (hm : s.main = .joined) : Steps R s .main { s with workerActive := false, main := .cleared }
  | stop (hm : s.main = .cleared) :
      Steps R s .main { s with metrics := { s.metrics with stopFlag := true }, main := .done }

section Inversion

variable {R : Rounding} {s s' : State}

theorem steps_of_coreStep (h : coreStep s = some s') : Steps R s .core s' := by
  rw [coreStep] at h
  split at h
  next hl =>
    obtain rfl := Option.some.inj h
    by_cases ha : s.egress.active = true
    · simp only [if_pos ha]
      exact .enter hl ha
    · simp only [if_neg ha]
      exact .leave hl (Bool.eq_false_iff.mpr ha)
  next hl =>
    obtain ⟨i, hi, rfl⟩ := Option.map_eq_some_iff.mp h
    exact .iterate hl hi
  next hl =>
    split at h
    next ht => exact Option.some.inj h ▸ .pushed hl ht
    next ht =>
      obtain ⟨e, he, rfl⟩ := Option.map_eq_some_iff.mp h
      exact .push hl ht he
  next => simp at h
  next packet hl =>
    dsimp only at h
    split at h
    next hr => exact Option.some.inj h ▸ .sample hl hr
    next hr => exact Option.some.inj h ▸ .sampled hl hr
  next => simp at h

theorem steps_of_accountStep {cycles : UInt64} (h : accountStep R s cycles = some s') :
    Steps R s (.account cycles) s' := by
  rw [accountStep] at h
  split at h
  next hl =>
    obtain rfl := Option.some.inj h
    by_cases hc : batchWindow ≤ s.iterationCounter + 1
    · simp only [if_pos hc]
      exact .batch hl hc
    · simp only [if_neg hc]
      exact .count hl (UInt64.not_le.mp hc)
  next => simp at h

theorem steps_of_workerStep (h : workerStep s = some s') : Steps R s .worker s' := by
  rw [workerStep] at h
  split at h
  next hl => exact Option.some.inj h ▸ .log hl
  next hl => exact Option.some.inj h ▸ .drain hl
  next => simp at h
  next => simp at h

theorem steps_of_clockStep {due : Bool} (h : clockStep R s due = some s') : Steps R s (.clock due) s' := by
  rw [clockStep] at h
  split at h
  next hl =>
    cases due with
    | true => exact Option.some.inj h ▸ .due hl
    | false => exact Option.some.inj h ▸ .early hl
  next => simp at h

theorem steps_of_mainStep (h : mainStep s = some s') : Steps R s .main s' := by
  rw [mainStep] at h
  split at h
  next hm =>
    split at h
    next hl hp => exact Option.some.inj h ▸ .join hm hl hp
    next => simp at h
  next hm => exact Option.some.inj h ▸ .clear hm
  next hm => exact Option.some.inj h ▸ .stop hm
  next => simp at h

theorem steps_of_step {a : Action} (h : step R s a = some s') : Steps R s a s' := by
  cases a with
  | signal => exact Option.some.inj h ▸ .signal
  | enqueue packet =>
      obtain ⟨i, hi, rfl⟩ := Option.map_eq_some_iff.mp h
      exact .enqueue rfl hi
  | send =>
      obtain ⟨i, hi, rfl⟩ := Option.map_eq_some_iff.mp h
      exact .enqueue rfl hi
  | receive =>
      rw [step] at h
      obtain ⟨e, he, rfl⟩ := Option.map_eq_some_iff.mp h
      exact .deliver rfl he
  | core => exact steps_of_coreStep h
  | account cycles => exact steps_of_accountStep h
  | publisher =>
      obtain ⟨e, he, rfl⟩ := Option.map_eq_some_iff.mp h
      exact .deliver rfl he
  | worker => exact steps_of_workerStep h
  | clock due => exact steps_of_clockStep h
  | main => exact steps_of_mainStep h

end Inversion

end Sequitur.EngineProcess
