import Sequitur.CoreLoop
import Sequitur.Rings

namespace Sequitur.IngressRing

open MatchingEngine Protocol CoreLoop Rings

inductive Enqueue
  | idle
  | loadedRead (packet : IngressPacket) (currRead : BitVec 64)
  | checked (packet : IngressPacket) (currWrite : BitVec 64)
  | stored (packet : IngressPacket) (currWrite : BitVec 64)

/-- How far the core is in an iteration of its loop. `read` is a ghost record
of the field values that it has taken from the slot. -/
inductive Iteration
  | waiting
  | found
  | copied (p : Processed)
  | submitted (p : Processed) (accepted : Bool) (read : IngressPacket)
  | released (p : Processed) (accepted : Bool)
  | priced (p : Processed) (accepted : Bool) (price : UInt64)

/-- The shared segment with the gateway and the core. `enqueued` records the
packets for which `Enqueue` returned true, `consumed` those that the core has
released, and `pushed` the reports with the number of their packet. -/
structure State where
  ring : Ring IngressPacket 64
  gateway : Enqueue
  currentRead : BitVec 64
  core : Iteration
  engine : Engine
  enqueued : List IngressPacket
  consumed : List IngressPacket
  pushed : List (Nat × EgressPacket)

def init (buf : Nat → IngressPacket) (base : BitVec 64) : State :=
  ⟨⟨buf, base, base⟩, .idle, base, .waiting, .init 1000000, [], [], []⟩

/-- What the reference `packet` of the core shows after `current_read++`. -/
def State.packet (s : State) : IngressPacket := s.ring.buf (slot 16 (s.currentRead - 1))

def gatewayStep (s : State) : Option State :=
  match s.gateway with
  | .idle => none
  | .loadedRead packet currRead =>
      if s.ring.writeIdx - currRead = 65536 then some { s with gateway := .idle }
      else some { s with gateway := .checked packet s.ring.writeIdx }
  | .checked packet currWrite =>
      some { s with ring := { s.ring with buf := Function.update s.ring.buf (slot 16 currWrite) packet }
                    gateway := .stored packet currWrite }
  | .stored packet currWrite =>
      some { s with ring := { s.ring with writeIdx := currWrite + 1 }
                    gateway := .idle
                    enqueued := s.enqueued ++ [packet] }

def State.push (s : State) (rs : List EgressPacket) : State :=
  { s with engine := s.engine.clearExecutionQueue
           core := .waiting
           pushed := s.pushed ++ rs.map fun r => (s.consumed.length - 1, r) }

def coreStep (s : State) : Option State :=
  match s.core with
  | .waiting => if s.currentRead = s.ring.writeIdx then some s else some { s with core := .found }
  | .found => some { s with core := .copied (process (s.ring.buf (slot 16 s.currentRead))) }
  | .copied p =>
      let packet := s.ring.buf (slot 16 s.currentRead)
      (submit s.engine packet p).map fun r =>
        { s with engine := r.1
                 core := .submitted p r.2 ⟨packet.type, p.side, p.instrumentId, p.traderId, packet.quantity,
                   packet.price, p.clientOrderId⟩ }
  | .submitted p accepted read =>
      some { s with currentRead := s.currentRead + 1
                    ring := { s.ring with readIdx := s.currentRead + 1 }
                    core := .released p accepted
                    consumed := s.consumed ++ [read] }
  | .released p accepted =>
      if accepted ∧ s.engine.market.execQ.items ≠ [] then
        some (s.push (s.engine.market.execQ.items.map (fillPacket p)))
      else some { s with core := .priced p accepted s.packet.price }
  | .priced p accepted price =>
      some (s.push [if accepted then reportPacket p price s.packet.quantity
        else rejectPacket p price s.packet.quantity])

inductive Action
  | enqueue (packet : IngressPacket)
  | gateway
  | core

/-- One step of the gateway or of the core. `enqueue` starts a call, which
loads the read index. -/
def step (s : State) : Action → Option State
  | .enqueue packet =>
      match s.gateway with
      | .idle => some { s with gateway := .loadedRead packet s.ring.readIdx }
      | _ => none
  | .gateway => gatewayStep s
  | .core => coreStep s

section Invariant

def Enqueue.Sound (base : BitVec 64) (r : Ring IngressPacket 64) (taken : Nat) (put : List IngressPacket) :
    Enqueue → Prop
  | .idle => True
  | .loadedRead _ currRead => ∃ k ≤ taken, currRead = cursor base k ∧ put.length ≤ k + 2 ^ 16
  | .checked _ currWrite => currWrite = r.writeIdx ∧ put.length < taken + 2 ^ 16
  | .stored packet currWrite =>
      currWrite = r.writeIdx ∧ put.length < taken + 2 ^ 16 ∧ r.buf (slot 16 r.writeIdx) = packet

def Iteration.Sound (put consumed : List IngressPacket) : Iteration → Prop
  | .waiting => True
  | .found => consumed.length < put.length
  | .copied p => ∃ packet, put[consumed.length]? = some packet ∧ p = process packet
  | .submitted p _ read => put[consumed.length]? = some read ∧ p = process read
  | .released p _ | .priced p _ _ => ∃ packet, consumed.getLast? = some packet ∧ p = process packet

structure Inv (base : BitVec 64) (s : State) : Prop where
  ring : Carries 16 base s.ring s.consumed.length s.enqueued
  consumed : s.consumed <+: s.enqueued
  currentRead : s.currentRead = s.ring.readIdx
  gateway : s.gateway.Sound base s.ring s.consumed.length s.enqueued
  core : s.core.Sound s.enqueued s.consumed

variable {base : BitVec 64} {s s' : State}

theorem Enqueue.Sound.release {g : Enqueue} {r : Ring IngressPacket 64} {taken : Nat} {put : List IngressPacket}
    (h : g.Sound base r taken put) (idx : BitVec 64) : g.Sound base { r with readIdx := idx } (taken + 1) put := by
  cases g with
  | idle => trivial
  | loadedRead packet currRead =>
      obtain ⟨k, hk, hc, hp⟩ := h
      exact ⟨k, Nat.le_succ_of_le hk, hc, hp⟩
  | checked packet currWrite => exact ⟨h.1, by have := h.2; omega⟩
  | stored packet currWrite => exact ⟨h.1, by have := h.2.1; omega, h.2.2⟩

theorem Iteration.Sound.publish {i : Iteration} {put consumed : List IngressPacket} (h : i.Sound put consumed)
    (packet : IngressPacket) : i.Sound (put ++ [packet]) consumed := by
  cases i with
  | waiting => trivial
  | found => exact Nat.lt_of_lt_of_le h (by simp)
  | copied p =>
      obtain ⟨x, hx, hp⟩ := h
      exact ⟨x, getElem?_append_of_some hx _, hp⟩
  | submitted p accepted read => exact ⟨getElem?_append_of_some h.1 _, h.2⟩
  | released p accepted | priced p accepted price => exact h

theorem init_inv (buf : Nat → IngressPacket) (base : BitVec 64) : Inv base (init buf base) :=
  ⟨.init 16 buf base, List.prefix_rfl, rfl, trivial, trivial⟩

theorem gatewayStep_inv (h : Inv base s) (hs : gatewayStep s = some s') : Inv base s' := by
  have hg := h.gateway
  rw [gatewayStep] at hs
  split at hs
  next => simp at hs
  next packet currRead he =>
    rw [he] at hg
    obtain ⟨k, hk, rfl, hp⟩ := hg
    split at hs
    next =>
      obtain rfl := Option.some.inj hs
      exact ⟨h.ring, h.consumed, h.currentRead, trivial, h.core⟩
    next hfull =>
      obtain rfl := Option.some.inj hs
      -- The write index is the gateway's own, so the distance is at most 65536.
      have hdist : (s.ring.writeIdx - cursor base k).toNat = s.enqueued.length - k := by
        have := h.ring.order
        rw [h.ring.writeIdx, cursor_sub base (by omega) (by omega)]
      have hne : s.enqueued.length - k ≠ 65536 := by
        intro hc
        rw [hc] at hdist
        exact hfull (BitVec.eq_of_toNat_eq hdist)
      have hroom : s.enqueued.length < s.consumed.length + 2 ^ 16 := by omega
      exact ⟨h.ring, h.consumed, h.currentRead, ⟨rfl, hroom⟩, h.core⟩
  next packet currWrite he =>
    rw [he] at hg
    obtain ⟨rfl, hroom⟩ := hg
    obtain rfl := Option.some.inj hs
    exact ⟨h.ring.fill (by decide) hroom packet, h.consumed, h.currentRead,
      ⟨rfl, hroom, Function.update_self ..⟩, h.core⟩
  next packet currWrite he =>
    rw [he] at hg
    obtain ⟨rfl, hroom, hx⟩ := hg
    obtain rfl := Option.some.inj hs
    exact ⟨h.ring.publish hroom hx, h.consumed.trans (List.prefix_append _ _), h.currentRead, trivial,
      h.core.publish packet⟩

theorem push_inv (h : Inv base s) (rs : List EgressPacket) : Inv base (s.push rs) :=
  ⟨h.ring, h.consumed, h.currentRead, h.gateway, trivial⟩

theorem Inv.slot_eq (h : Inv base s) {packet : IngressPacket}
    (hx : s.enqueued[s.consumed.length]? = some packet) : s.ring.buf (slot 16 s.currentRead) = packet := by
  have hfront := h.ring.front (List.getElem?_eq_some_iff.mp hx).1
  rw [h.currentRead]
  exact Option.some.inj (hfront.symm.trans hx)

theorem coreStep_inv (h : Inv base s) (hs : coreStep s = some s') : Inv base s' := by
  have hc := h.core
  rw [coreStep] at hs
  split at hs
  next he =>
    split at hs
    next => exact Option.some.inj hs ▸ h
    next hne =>
      obtain rfl := Option.some.inj hs
      rw [h.currentRead, h.ring.empty_iff (by decide)] at hne
      exact ⟨h.ring, h.consumed, h.currentRead, h.gateway, Nat.lt_of_le_of_ne h.ring.order hne⟩
  next he =>
    rw [he] at hc
    obtain rfl := Option.some.inj hs
    refine ⟨h.ring, h.consumed, h.currentRead, h.gateway, _, ?_, rfl⟩
    rw [h.currentRead]
    exact h.ring.front hc
  next p he =>
    rw [he] at hc
    obtain ⟨packet, hx, rfl⟩ := hc
    obtain ⟨r, -, rfl⟩ := Option.map_eq_some_iff.mp hs
    obtain rfl := h.slot_eq hx
    exact ⟨h.ring, h.consumed, h.currentRead, h.gateway, hx, rfl⟩
  next p accepted read he =>
    rw [he] at hc
    obtain rfl := Option.some.inj hs
    obtain ⟨⟨hlt, rfl⟩, hp⟩ := hc.imp_left List.getElem?_eq_some_iff.mp
    refine ⟨?_, List.concat_get_prefix h.consumed hlt, rfl, ?_, _, List.getLast?_concat, hp⟩
    · rw [List.length_append, List.length_singleton, h.currentRead]
      exact h.ring.release hlt
    · rw [List.length_append, List.length_singleton]
      exact h.gateway.release _
  next p accepted he =>
    rw [he] at hc
    split at hs
    next => exact Option.some.inj hs ▸ push_inv h _
    next =>
      obtain rfl := Option.some.inj hs
      exact ⟨h.ring, h.consumed, h.currentRead, h.gateway, hc⟩
  next p accepted price he => exact Option.some.inj hs ▸ push_inv h _

theorem step_inv {a : Action} (h : Inv base s) (hs : step s a = some s') : Inv base s' := by
  cases a with
  | enqueue packet =>
      rw [step] at hs
      split at hs
      next =>
        obtain rfl := Option.some.inj hs
        exact ⟨h.ring, h.consumed, h.currentRead, ⟨_, Nat.le_refl _, h.ring.readIdx, h.ring.room⟩, h.core⟩
      next => simp at hs
  | gateway => exact gatewayStep_inv h hs
  | core => exact coreStep_inv h hs

end Invariant

end Sequitur.IngressRing
