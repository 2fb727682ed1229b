import Sequitur.CoreLoop
import Sequitur.SPSCQueue

namespace Sequitur.EgressPipeline

open CoreLoop Rings SPSCQueue

inductive Publisher
  | test
  | testTail
  | testHead (t : BitVec 64)
  | popping
  | loading (packet : EgressPacket)
  | full (packet : EgressPacket)
  | ready (packet : EgressPacket)
  | stored (packet : EgressPacket)
  | exited

/-- Where the core thread is in its loop. It reads `engine_active` at the head
and not again before it comes back there. -/
inductive CoreThread
  | test
  | polling
  | reporting
  | exited
  deriving DecidableEq

/-- The way of the reports: `egress_queue` with the core and the publisher,
then the ring in shared memory with the publisher and the gateway. `todo` are
the reports of the order at hand that the core has yet to push. `written` and
`returned` record what went into the ring and what `Dequeue` returned. -/
structure State where
  active : Bool
  queue : Queue EgressPacket
  todo : List EgressPacket
  core : CoreThread
  publisher : Publisher
  currentWrite : BitVec 64
  ring : Ring EgressPacket 64
  gateway : Take EgressPacket 64
  written : List EgressPacket
  returned : List EgressPacket

def init (buffer buf : Nat → EgressPacket) (base : BitVec 64) : State :=
  ⟨true, .init buffer 0, [], .test, .test, base, ⟨buf, base, base⟩, .idle, [], []⟩

def Publisher.afterPop : Option (Option EgressPacket) → Publisher
  | none => .popping
  | some none => .test
  | some (some packet) => .loading packet

def publisherStep (s : State) : Option State :=
  match s.publisher with
  | .test => some { s with publisher := if s.active then .popping else .testTail }
  | .testTail => some { s with publisher := .testHead s.queue.ring.writeIdx }
  | .testHead t => some { s with publisher := if t = s.queue.ring.readIdx then .exited else .popping }
  | .popping =>
      some { s with queue := (s.queue.popStep 13).1, publisher := .afterPop (s.queue.popStep 13).2 }
  | .loading packet =>
      some { s with publisher := if 65536 ≤ (s.currentWrite - s.ring.readIdx).toInt then .full packet
                                 else .ready packet }
  | .full packet => some { s with publisher := if s.active then .loading packet else .ready packet }
  | .ready packet =>
      some { s with ring := { s.ring with buf := Function.update s.ring.buf (slot 16 s.currentWrite) packet }
                    publisher := .stored packet }
  | .stored packet =>
      some { s with ring := { s.ring with writeIdx := s.currentWrite + 1 }
                    currentWrite := s.currentWrite + 1
                    publisher := .test
                    written := s.written ++ [packet] }
  | .exited => none

inductive Action
  | signal
  | test
  | order (reports : List EgressPacket)
  | next
  | core
  | publisher
  | gateway

/-- One step of a party. A core that has found `engine_active` set looks into
the ingress ring: it takes an order, which will have the given reports, or it
finds none and goes back to its test, as it does when all reports are pushed.
The push of a report is tried until it succeeds. -/
def step (s : State) : Action → Option State
  | .signal => some { s with active := false }
  | .test => if s.core = .test then some { s with core := if s.active then .polling else .exited } else none
  | .order reports =>
      if s.core = .polling ∧ s.todo = [] then some { s with core := .reporting, todo := reports } else none
  | .next =>
      if (s.core = .polling ∨ s.core = .reporting) ∧ s.todo = [] then some { s with core := .test } else none
  | .core =>
      match s.todo with
      | [] => none
      | packet :: rest =>
          some { s with queue := (s.queue.pushStep 13 packet).1
                        todo := if (s.queue.pushStep 13 packet).2 = some true then rest else s.todo }
  | .publisher => publisherStep s
  | .gateway =>
      some { s with ring := (take 16 s.ring s.gateway).1
                    gateway := (take 16 s.ring s.gateway).2.1
                    returned := s.returned ++ received (take 16 s.ring s.gateway).2.2 }

/-- The same steps, one constructor for each thing that can happen next. -/
inductive Steps (s : State) : Action → State → Prop
  | signal : Steps s .signal { s with active := false }
  | enter (hc : s.core = .test) (ha : s.active = true) : Steps s .test { s with core := .polling }
  | leave (hc : s.core = .test) (ha : s.active = false) : Steps s .test { s with core := .exited }
  | order {reports : List EgressPacket} (hc : s.core = .polling) (htodo : s.todo = []) :
      Steps s (.order reports) { s with core := .reporting, todo := reports }
  | next (hc : s.core = .polling ∨ s.core = .reporting) (htodo : s.todo = []) : Steps s .next { s with core := .test }
  | push {packet : EgressPacket} {rest : List EgressPacket} (htodo : s.todo = packet :: rest) :
      Steps s .core { s with
        queue := (s.queue.pushStep 13 packet).1
        todo := if (s.queue.pushStep 13 packet).2 = some true then rest else s.todo }
  | goOn (he : s.publisher = .test) (ha : s.active = true) : Steps s .publisher { s with publisher := .popping }
  | windUp (he : s.publisher = .test) (ha : s.active = false) : Steps s .publisher { s with publisher := .testTail }
  | loadTail (he : s.publisher = .testTail) :
      Steps s .publisher { s with publisher := .testHead s.queue.ring.writeIdx }
  | exit {t : BitVec 64} (he : s.publisher = .testHead t) (ht : t = s.queue.ring.readIdx) :
      Steps s .publisher { s with publisher := .exited }
  | drain {t : BitVec 64} (he : s.publisher = .testHead t) (ht : t ≠ s.queue.ring.readIdx) :
      Steps s .publisher { s with publisher := .popping }
  | pop (he : s.publisher = .popping) :
      Steps s .publisher { s with queue := (s.queue.popStep 13).1, publisher := .afterPop (s.queue.popStep 13).2 }
  | wait {packet : EgressPacket} (he : s.publisher = .loading packet)
      (hfull : 65536 ≤ (s.currentWrite - s.ring.readIdx).toInt) :
      Steps s .publisher { s with publisher := .full packet }
  | room {packet : EgressPacket} (he : s.publisher = .loading packet)
      (hroom : ¬ 65536 ≤ (s.currentWrite - s.ring.readIdx).toInt) :
      Steps s .publisher { s with publisher := .ready packet }
  | retry {packet : EgressPacket} (he : s.publisher = .full packet) (ha : s.active = true) :
      Steps s .publisher { s with publisher := .loading packet }
  | giveUp {packet : EgressPacket} (he : s.publisher = .full packet) (ha : s.active = false) :
      Steps s .publisher { s with publisher := .ready packet }
  | store {packet : EgressPacket} (he : s.publisher = .ready packet) :
      Steps s .publisher { s with
        ring := { s.ring with buf := Function.update s.ring.buf (slot 16 s.currentWrite) packet }
        publisher := .stored packet }
  | publish {packet : EgressPacket} (he : s.publisher = .stored packet) :
      Steps s .publisher { s with
        ring := { s.ring with writeIdx := s.currentWrite + 1 }
        currentWrite := s.currentWrite + 1
        publisher := .test
        written := s.written ++ [packet] }
  | take :
      Steps s .gateway { s with
        ring := (take 16 s.ring s.gateway).1
        gateway := (take 16 s.ring s.gateway).2.1
        returned := s.returned ++ received (take 16 s.ring s.gateway).2.2 }

theorem steps_of_publisherStep {s s' : State} (h : publisherStep s = some s') : Steps s .publisher s' := by
  rw [publisherStep] at h
  split at h
  next he =>
    obtain rfl := Option.some.inj h
    by_cases ha : s.active = true
    · simp only [if_pos ha]
      exact .goOn he ha
    · simp only [if_neg ha]
      exact .windUp he (Bool.eq_false_iff.mpr ha)
  next he => exact Option.some.inj h ▸ .loadTail he
  next t he =>
    obtain rfl := Option.some.inj h
    by_cases ht : t = s.queue.ring.readIdx
    · simp only [if_pos ht]
      exact .exit he ht
    · simp only [if_neg ht]
      exact .drain he ht
  next he => exact Option.some.inj h ▸ .pop he
  next packet he =>
    obtain rfl := Option.some.inj h
    by_cases hfull : 65536 ≤ (s.currentWrite - s.ring.readIdx).toInt
    · simp only [if_pos hfull]
      exact .wait he hfull
    · simp only [if_neg hfull]
      exact .room he hfull
  next packet he =>
    obtain rfl := Option.some.inj h
    by_cases ha : s.active = true
    · simp only [if_pos ha]
      exact .retry he ha
    · simp only [if_neg ha]
      exact .giveUp he (Bool.eq_false_iff.mpr ha)
  next packet he => exact Option.some.inj h ▸ .store he
  next packet he => exact Option.some.inj h ▸ .publish he
  next => simp at h

theorem steps_of_step {s s' : State} {a : Action} (h : step s a = some s') : Steps s a s' := by
  cases a with
  | signal => exact Option.some.inj h ▸ .signal
  | test =>
      rw [step] at h
      split at h
      next hc =>
        obtain rfl := Option.some.inj h
        by_cases ha : s.active = true
        · simp only [if_pos ha]
          exact .enter hc ha
        · simp only [if_neg ha]
          exact .leave hc (Bool.eq_false_iff.mpr ha)
      next => simp at h
  | order reports =>
      rw [step] at h
      split at h
      next hc => exact Option.some.inj h ▸ .order hc.1 hc.2
      next => simp at h
  | next =>
      rw [step] at h
      split at h
      next hc => exact Option.some.inj h ▸ .next hc.1 hc.2
      next => simp at h
  | core =>
      rw [step] at h
      split at h
      next => simp at h
      next packet rest htodo => exact Option.some.inj h ▸ .push htodo
  | publisher => exact steps_of_publisherStep h
  | gateway => exact Option.some.inj h ▸ .take

def Publisher.flight : Publisher → List EgressPacket
  | .loading packet | .full packet | .ready packet | .stored packet => [packet]
  | _ => []

structure Inv (base : BitVec 64) (s : State) : Prop where
  queue : SPSCQueue.Inv 13 0 s.queue
  ring : Consumes 16 base s.ring s.gateway s.written s.returned
  currentWrite : s.currentWrite = s.ring.writeIdx
  popped : s.queue.popped = s.written ++ s.publisher.flight
  stored : ∀ packet, s.publisher = .stored packet →
    s.written.length < s.returned.length + 2 ^ 16 ∧ s.ring.buf (slot 16 s.ring.writeIdx) = packet

/-- The publisher is about to write into a full ring. -/
def Overwrites (s : State) (a : Action) : Prop :=
  a = .publisher ∧ (∃ packet, s.publisher = .ready packet) ∧ s.ring.writeIdx - s.ring.readIdx = 65536

variable {base : BitVec 64} {s s' : State} {a : Action}

theorem init_inv (buffer buf : Nat → EgressPacket) (base : BitVec 64) : Inv base (init buffer buf base) :=
  ⟨SPSCQueue.init_inv 13 buffer 0, .init 16 buf base, rfl, rfl, by simp [init]⟩

theorem Inv.room (h : Inv base s) (hne : s.ring.writeIdx - s.ring.readIdx ≠ 65536) :
    s.written.length < s.returned.length + 2 ^ 16 := by
  have hroom := h.ring.carries.room
  have hdist := h.ring.carries.distance (by decide)
  refine Nat.lt_of_le_of_ne hroom fun he => hne (BitVec.eq_of_toNat_eq ?_)
  rw [hdist, he, Nat.add_sub_cancel_left]
  rfl

theorem Inv.distance_toInt (h : Inv base s) :
    (s.ring.writeIdx - s.ring.readIdx).toInt = ((s.written.length - s.returned.length : Nat) : Int) := by
  have hroom := h.ring.carries.room
  have hdist := h.ring.carries.distance (by decide)
  rw [BitVec.toInt_eq_toNat_of_lt (by omega), hdist]

theorem Inv.delivered (h : Inv base s) : s.returned <+: s.queue.pushed := by
  have hwritten : s.written <+: s.queue.popped := ⟨_, h.popped.symm⟩
  exact h.ring.ordered.trans (hwritten.trans h.queue.ring.ordered)

theorem afterPop_flight (r : Option (Option EgressPacket)) : (Publisher.afterPop r).flight = received r := by
  rcases r with - | - | packet <;> rfl

theorem Inv.move (h : Inv base s) {p : Publisher} (hf : p.flight = s.publisher.flight)
    (hp : ∀ packet, p ≠ .stored packet) : Inv base { s with publisher := p } :=
  ⟨h.queue, h.ring, h.currentWrite, h.popped.trans (by rw [hf]), fun packet he => absurd he (hp packet)⟩

theorem Inv.pop (h : Inv base s) (he : s.publisher = .popping) :
    Inv base { s with queue := (s.queue.popStep 13).1, publisher := .afterPop (s.queue.popStep 13).2 } := by
  have hf := h.popped
  rw [he] at hf
  refine ⟨popStep_inv h.queue (by decide), h.ring, h.currentWrite, ?_, fun packet hp => ?_⟩
  · dsimp only
    rw [afterPop_flight]
    exact congrArg (· ++ received (s.queue.popStep 13).2) (hf.trans (List.append_nil _))
  · rcases hr : (s.queue.popStep 13).2 with - | - | x <;> simp [hr, Publisher.afterPop] at hp

theorem step_inv (h : Inv base s) (hno : ¬ Overwrites s a) (hs : step s a = some s') : Inv base s' := by
  cases steps_of_step hs with
  | signal | enter | leave | order | next => exact ⟨h.queue, h.ring, h.currentWrite, h.popped, h.stored⟩
  | @push packet =>
      refine ⟨pushStep_inv h.queue (by decide) packet, h.ring, h.currentWrite, ?_, h.stored⟩
      rw [pushStep_popped]
      exact h.popped
  | goOn he | windUp he | loadTail he | exit he | drain he | wait he | room he | retry he | giveUp he =>
      exact h.move (by rw [he]; rfl) (by simp)
  | pop he => exact h.pop he
  | @store packet he =>
      have hroom := h.room fun hfull => hno ⟨rfl, ⟨packet, he⟩, hfull⟩
      have hf := h.popped
      rw [he] at hf
      rw [h.currentWrite]
      refine ⟨h.queue, h.ring.fill (by decide) hroom packet, rfl, hf, fun p hp => ⟨hroom, ?_⟩⟩
      obtain rfl := Publisher.stored.inj hp
      exact Function.update_self ..
  | @publish packet he =>
      obtain ⟨hroom, hx⟩ := h.stored packet he
      have hf := h.popped
      rw [he] at hf
      rw [h.currentWrite]
      refine ⟨h.queue, h.ring.publish hroom hx, rfl, ?_, by simp⟩
      exact hf.trans (List.append_nil _).symm
  | take =>
      refine ⟨h.queue, h.ring.take (by decide), ?_, h.popped, fun packet hp => ?_⟩
      · rw [take_writeIdx]
        exact h.currentWrite
      · obtain ⟨hroom, hx⟩ := h.stored packet hp
        rw [take_writeIdx, take_buf]
        exact ⟨Nat.lt_of_lt_of_le hroom (by simp), hx⟩

end Sequitur.EgressPipeline
