import Sequitur.IngressRing

namespace Sequitur.Gateway

open Protocol CoreLoop Rings

/-- How far the goroutine of `HandleClient` is, in the line at hand or in the
deferred cleanup. -/
inductive Phase
  | reading
  | parsed (packet : IngressPacket)
  | recorded (packet : IngressPacket)
  | locked (packet : IngressPacket)
  | bound (packet : IngressPacket)
  | sending (packet : IngressPacket)
  | leaving
  | clearing (rest : List UInt32)
  | closed
  | done

/-- The session still reads its connection; the cleanup closes it first. -/
def connected : Phase → Bool
  | .reading | .parsed _ | .recorded _ | .locked _ | .bound _ | .sending _ => true
  | _ => false

/-- A connection with its `clientState`. `writing` says that its writer has not
returned, `parsed` records the packets of the lines that were accepted. -/
structure Session where
  phase : Phase
  localSessionTraders : List UInt32
  ch : List EgressPacket
  chClosed : Bool
  writing : Bool
  parsed : List IngressPacket

def Session.init : Session := ⟨.reading, [], [], false, true, []⟩

def Session.moveTo (x : Session) (phase : Phase) : Session := { x with phase := phase }

def Session.accept (x : Session) (packet : IngressPacket) : Session :=
  { x with phase := .parsed packet, parsed := x.parsed ++ [packet] }

def Session.record (x : Session) (packet : IngressPacket) : Session :=
  { x with phase := .recorded packet, localSessionTraders := packet.traderId :: x.localSessionTraders }

def Session.close (x : Session) : Session := { x with phase := .closed, chClosed := true }

/-- A send that gives up when the channel is full. -/
def Session.offer (x : Session) (payload : EgressPacket) : Session :=
  { x with ch := if x.ch.length < 65536 then x.ch ++ [payload] else x.ch }

/-- The writer takes a payload from the channel and gives it to `conn.Write`;
it returns if that fails. -/
def Session.drain (x : Session) (ok : Bool) : Session := { x with ch := x.ch.tail, writing := ok }

/-- `registryMutex`; the egress goroutine is its only reader. -/
inductive Lock
  | free
  | write (c : Nat)
  | read
  deriving DecidableEq

inductive Egress
  | dequeuing
  | dequeued (packet : EgressPacket)
  | locked (packet : EgressPacket)
  | taker (packet : EgressPacket) (c : Nat)
  | between (packet : EgressPacket)
  | maker (packet : EgressPacket) (c : Nat)
  | finished

/-- The gateway with its connections and the ring to the core. `registered`
records which session registered an id last, `offered` the packets given to
`Enqueue` with its results, each with its connection. -/
structure State where
  sessions : Nat → Session
  clientRegistry : UInt32 → Option Nat
  registryMutex : Lock
  registered : UInt32 → Option Nat
  packetChan : List (Nat × IngressPacket)
  current : Option (Nat × IngressPacket)
  ring : IngressRing.State
  offered : List ((Nat × IngressPacket) × Bool)
  egress : Egress
  panicked : Bool

def init (buf : Nat → IngressPacket) (base : BitVec 64) : State where
  sessions := fun _ => .init
  clientRegistry := fun _ => none
  registryMutex := .free
  registered := fun _ => none
  packetChan := []
  current := none
  ring := IngressRing.init buf base
  offered := []
  egress := .dequeuing
  panicked := false

def State.set (s : State) (c : Nat) (x : Session) : State := { s with sessions := Function.update s.sessions c x }

def State.move (s : State) (c : Nat) (phase : Phase) : State := s.set c ((s.sessions c).moveTo phase)

def sessionStep (s : State) (c : Nat) : Option State :=
  match (s.sessions c).phase with
  | .parsed packet =>
      if packet.traderId ∈ (s.sessions c).localSessionTraders then some (s.move c (.sending packet))
      else some (s.set c ((s.sessions c).record packet))
  | .recorded packet =>
      if s.registryMutex = .free then some { s.move c (.locked packet) with registryMutex := .write c } else none
  | .locked packet =>
      some { s.move c (.bound packet) with
        clientRegistry := Function.update s.clientRegistry packet.traderId (some c)
        registered := Function.update s.registered packet.traderId (some c) }
  | .bound packet => some { s.move c (.sending packet) with registryMutex := .free }
  | .sending packet =>
      if s.packetChan.length < 1024 then
        some { s.move c .reading with packetChan := s.packetChan ++ [(c, packet)] }
      else none
  | .clearing (traderId :: rest) =>
      some { s.move c (.clearing rest) with clientRegistry := Function.update s.clientRegistry traderId none }
  | .clearing [] => some (s.set c (s.sessions c).close)
  | .closed => some { s.move c .done with registryMutex := .free }
  | .reading | .leaving | .done => none

def enqueueResult (r : IngressRing.State) : Option Bool :=
  match r.gateway with
  | .loadedRead _ currRead => if r.ring.writeIdx - currRead = 65536 then some false else none
  | .stored _ _ => some true
  | _ => none

def enqueueStep (s : State) (x : Nat × IngressPacket) : Option State :=
  match s.ring.gateway with
  | .idle => (IngressRing.step s.ring (.enqueue x.2)).map fun r => { s with ring := r }
  | _ =>
      (IngressRing.gatewayStep s.ring).map fun r =>
        match enqueueResult s.ring with
        | none => { s with ring := r }
        | some ok => { s with ring := r, current := none, offered := s.offered ++ [(x, ok)] }

/-- A send on the channel of a session; on a closed channel it panics. -/
def State.send (s : State) (c : Nat) (payload : EgressPacket) (next : Egress) : State :=
  if (s.sessions c).chClosed then { s with panicked := true }
  else { s.set c ((s.sessions c).offer payload) with egress := next }

def egressStep (s : State) : Option State :=
  match s.egress with
  | .dequeuing => none
  | .dequeued packet =>
      if s.registryMutex = .free then some { s with registryMutex := .read, egress := .locked packet } else none
  | .locked packet =>
      match s.clientRegistry packet.takerId.toUInt32 with
      | some c => some { s with egress := .taker packet c }
      | none => some { s with egress := .between packet }
  | .taker packet c => some (s.send c packet (.between packet))
  | .between packet =>
      match s.clientRegistry packet.makerId.toUInt32 with
      | some c => some { s with egress := .maker packet c }
      | none => some { s with egress := .finished }
  | .maker packet c => some (s.send c packet .finished)
  | .finished => some { s with registryMutex := .free, egress := .dequeuing }

inductive Action
  | line (c : Nat) (message : List UInt8)
  | session (c : Nat)
  | disconnect (c : Nat)
  | cleanup (c : Nat) (order : List UInt32)
  | write (c : Nat) (ok : Bool)
  | receive
  | enqueue
  | core
  | dequeue (packet : EgressPacket)
  | egress

/-- One step of a goroutine of the gateway or of the core. A session reads a
line, goes on with it, loses its connection, or takes the lock for its cleanup,
which visits the ids of the session in any order; its writer takes a payload
from the channel, and a write can fail at any time but succeed only before
`conn.Close`. -/
def advance (s : State) : Action → Option State
  | .line c message =>
      match (s.sessions c).phase, forwarded message with
      | .reading, some packet => some (s.set c ((s.sessions c).accept packet))
      | .reading, none => some s
      | _, _ => none
  | .session c => sessionStep s c
  | .disconnect c =>
      match (s.sessions c).phase with
      | .reading => some (s.move c .leaving)
      | _ => none
  | .cleanup c order =>
      match (s.sessions c).phase with
      | .leaving =>
          if s.registryMutex = .free ∧ order.Perm (s.sessions c).localSessionTraders then
            some { s.move c (.clearing order) with registryMutex := .write c }
          else none
      | _ => none
  | .write c ok =>
      if (s.sessions c).writing ∧ (s.sessions c).ch ≠ [] ∧ (ok → connected (s.sessions c).phase) then
        some (s.set c ((s.sessions c).drain ok))
      else none
  | .receive =>
      match s.current, s.packetChan with
      | none, x :: rest => some { s with current := some x, packetChan := rest }
      | _, _ => none
  | .enqueue =>
      match s.current with
      | some x => enqueueStep s x
      | none => none
  | .core => (IngressRing.step s.ring .core).map fun r => { s with ring := r }
  | .dequeue packet =>
      match s.egress with
      | .dequeuing => some { s with egress := .dequeued packet }
      | _ => none
  | .egress => egressStep s

/-- A panic ends the program. -/
def step (s : State) (a : Action) : Option State := if s.panicked then none else advance s a

theorem advance_of_step {s s' : State} {a : Action} (h : step s a = some s') : advance s a = some s' := by
  rw [step] at h
  split at h
  · simp at h
  · exact h

inductive Steps (s : State) : Action → State → Prop
  | accept {c : Nat} {message : List UInt8} {packet : IngressPacket} (he : (s.sessions c).phase = .reading)
      (hf : forwarded message = some packet) :
      Steps s (.line c message) (s.set c ((s.sessions c).accept packet))
  | skip {c : Nat} {message : List UInt8} (he : (s.sessions c).phase = .reading)
      (hf : forwarded message = none) : Steps s (.line c message) s
  | known {c : Nat} {packet : IngressPacket} (he : (s.sessions c).phase = .parsed packet)
      (hm : packet.traderId ∈ (s.sessions c).localSessionTraders) :
      Steps s (.session c) (s.move c (.sending packet))
  | record {c : Nat} {packet : IngressPacket} (he : (s.sessions c).phase = .parsed packet)
      (hm : packet.traderId ∉ (s.sessions c).localSessionTraders) :
      Steps s (.session c) (s.set c ((s.sessions c).record packet))
  | lock {c : Nat} {packet : IngressPacket} (he : (s.sessions c).phase = .recorded packet)
      (hfree : s.registryMutex = .free) :
      Steps s (.session c) { s.move c (.locked packet) with registryMutex := .write c }
  | register {c : Nat} {packet : IngressPacket} (he : (s.sessions c).phase = .locked packet) :
      Steps s (.session c) { s.move c (.bound packet) with
        clientRegistry := Function.update s.clientRegistry packet.traderId (some c)
        registered := Function.update s.registered packet.traderId (some c) }
  | unlock {c : Nat} {packet : IngressPacket} (he : (s.sessions c).phase = .bound packet) :
      Steps s (.session c) { s.move c (.sending packet) with registryMutex := .free }
  | send {c : Nat} {packet : IngressPacket} (he : (s.sessions c).phase = .sending packet) :
      Steps s (.session c) { s.move c .reading with packetChan := s.packetChan ++ [(c, packet)] }
  | delete {c : Nat} {traderId : UInt32} {rest : List UInt32}
      (he : (s.sessions c).phase = .clearing (traderId :: rest)) :
      Steps s (.session c) { s.move c (.clearing rest) with
        clientRegistry := Function.update s.clientRegistry traderId none }
  | close {c : Nat} (he : (s.sessions c).phase = .clearing []) : Steps s (.session c) (s.set c (s.sessions c).close)
  | finish {c : Nat} (he : (s.sessions c).phase = .closed) :
      Steps s (.session c) { s.move c .done with registryMutex := .free }
  | disconnect {c : Nat} (he : (s.sessions c).phase = .reading) : Steps s (.disconnect c) (s.move c .leaving)
  | cleanup {c : Nat} {order : List UInt32} (he : (s.sessions c).phase = .leaving)
      (hfree : s.registryMutex = .free) (hperm : order.Perm (s.sessions c).localSessionTraders) :
      Steps s (.cleanup c order) { s.move c (.clearing order) with registryMutex := .write c }
  | write {c : Nat} {ok : Bool} (hch : (s.sessions c).ch ≠ []) :
      Steps s (.write c ok) (s.set c ((s.sessions c).drain ok))
  | receive {x : Nat × IngressPacket} {rest : List (Nat × IngressPacket)} (hcur : s.current = none)
      (hchan : s.packetChan = x :: rest) : Steps s .receive { s with current := some x, packetChan := rest }
  | call {x : Nat × IngressPacket} {r : IngressRing.State} (hcur : s.current = some x)
      (hg : s.ring.gateway = .idle) (hr : IngressRing.step s.ring (.enqueue x.2) = some r) :
      Steps s .enqueue { s with ring := r }
  | access {r : IngressRing.State} (hr : IngressRing.gatewayStep s.ring = some r)
      (hres : enqueueResult s.ring = none) : Steps s .enqueue { s with ring := r }
  | result {x : Nat × IngressPacket} {r : IngressRing.State} {ok : Bool} (hcur : s.current = some x)
      (hg : s.ring.gateway ≠ .idle) (hr : IngressRing.gatewayStep s.ring = some r)
      (hres : enqueueResult s.ring = some ok) :
      Steps s .enqueue { s with ring := r, current := none, offered := s.offered ++ [(x, ok)] }
  | core {r : IngressRing.State} (hr : IngressRing.step s.ring .core = some r) : Steps s .core { s with ring := r }
  | dequeue {packet : EgressPacket} (he : s.egress = .dequeuing) :
      Steps s (.dequeue packet) { s with egress := .dequeued packet }
  | readLock {packet : EgressPacket} (he : s.egress = .dequeued packet) (hfree : s.registryMutex = .free) :
      Steps s .egress { s with registryMutex := .read, egress := .locked packet }
  | findTaker {packet : EgressPacket} {c : Nat} (he : s.egress = .locked packet)
      (hc : s.clientRegistry packet.takerId.toUInt32 = some c) : Steps s .egress { s with egress := .taker packet c }
  | noTaker {packet : EgressPacket} (he : s.egress = .locked packet)
      (hc : s.clientRegistry packet.takerId.toUInt32 = none) : Steps s .egress { s with egress := .between packet }
  | sendTaker {packet : EgressPacket} {c : Nat} (he : s.egress = .taker packet c) :
      Steps s .egress (s.send c packet (.between packet))
  | findMaker {packet : EgressPacket} {c : Nat} (he : s.egress = .between packet)
      (hc : s.clientRegistry packet.makerId.toUInt32 = some c) : Steps s .egress { s with egress := .maker packet c }
  | noMaker {packet : EgressPacket} (he : s.egress = .between packet)
      (hc : s.clientRegistry packet.makerId.toUInt32 = none) : Steps s .egress { s with egress := .finished }
  | sendMaker {packet : EgressPacket} {c : Nat} (he : s.egress = .maker packet c) :
      Steps s .egress (s.send c packet .finished)
  | readUnlock (he : s.egress = .finished) :
      Steps s .egress { s with registryMutex := .free, egress := .dequeuing }

section Inversion

variable {s s' : State} {c : Nat}

theorem steps_of_sessionStep (h : sessionStep s c = some s') : Steps s (.session c) s' := by
  rw [sessionStep] at h
  split at h
  next packet he =>
    split at h
    next hm => exact Option.some.inj h ▸ .known he hm
    next hm => exact Option.some.inj h ▸ .record he hm
  next packet he =>
    split at h
    next hfree => exact Option.some.inj h ▸ .lock he hfree
    next => simp at h
  next packet he => exact Option.some.inj h ▸ .register he
  next packet he => exact Option.some.inj h ▸ .unlock he
  next packet he =>
    split at h
    next => exact Option.some.inj h ▸ .send he
    next => simp at h
  next traderId rest he => exact Option.some.inj h ▸ .delete he
  next he => exact Option.some.inj h ▸ .close he
  next he => exact Option.some.inj h ▸ .finish he
  all_goals simp at h

theorem steps_of_enqueueStep {x : Nat × IngressPacket} (hcur : s.current = some x) (h : enqueueStep s x = some s') :
    Steps s .enqueue s' := by
  rw [enqueueStep] at h
  split at h
  next hg =>
    obtain ⟨r, hr, rfl⟩ := Option.map_eq_some_iff.mp h
    exact .call hcur hg hr
  next hg =>
    obtain ⟨r, hr, rfl⟩ := Option.map_eq_some_iff.mp h
    split
    next hres => exact .access hr hres
    next ok hres => exact .result hcur hg hr hres

theorem steps_of_egressStep (h : egressStep s = some s') : Steps s .egress s' := by
  rw [egressStep] at h
  split at h
  next => simp at h
  next packet he =>
    split at h
    next hfree => exact Option.some.inj h ▸ .readLock he hfree
    next => simp at h
  next packet he =>
    split at h
    next c hc => exact Option.some.inj h ▸ .findTaker he hc
    next hc => exact Option.some.inj h ▸ .noTaker he hc
  next packet c he => exact Option.some.inj h ▸ .sendTaker he
  next packet he =>
    split at h
    next c hc => exact Option.some.inj h ▸ .findMaker he hc
    next hc => exact Option.some.inj h ▸ .noMaker he hc
  next packet c he => exact Option.some.inj h ▸ .sendMaker he
  next he => exact Option.some.inj h ▸ .readUnlock he

theorem steps_of_step {a : Action} (h : step s a = some s') : Steps s a s' := by
  have h := advance_of_step h
  cases a with
  | line c message =>
      rw [advance] at h
      split at h
      next packet he hf => exact Option.some.inj h ▸ .accept he hf
      next he hf => exact Option.some.inj h ▸ .skip he hf
      next => simp at h
  | session c => exact steps_of_sessionStep h
  | disconnect c =>
      rw [advance] at h
      split at h
      next he => exact Option.some.inj h ▸ .disconnect he
      next => simp at h
  | cleanup c order =>
      rw [advance] at h
      split at h
      next he =>
        split at h
        next hc => exact Option.some.inj h ▸ .cleanup he hc.1 hc.2
        next => simp at h
      next => simp at h
  | write c ok =>
      rw [advance] at h
      split at h
      next hc => exact Option.some.inj h ▸ .write hc.2.1
      next => simp at h
  | receive =>
      rw [advance] at h
      split at h
      next x rest hcur hchan => exact Option.some.inj h ▸ .receive hcur hchan
      next => simp at h
  | enqueue =>
      rw [advance] at h
      split at h
      next x hcur => exact steps_of_enqueueStep hcur h
      next => simp at h
  | core =>
      obtain ⟨r, hr, rfl⟩ := Option.map_eq_some_iff.mp h
      exact .core hr
  | dequeue packet =>
      rw [advance] at h
      split at h
      next he => exact Option.some.inj h ▸ .dequeue he
      next => simp at h
  | egress => exact steps_of_egressStep h

end Inversion

def sellLine : List UInt8 := "1,1,1,7,5,100,9\n".toUTF8.toList

def sell : IngressPacket := ⟨1, 1, 1, 7, 5, 100, 9⟩

end Sequitur.Gateway
