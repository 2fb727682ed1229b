import Sequitur.MatchingEngine
import Sequitur.Protocol

namespace Sequitur.CoreLoop

open OrderBook MatchingEngine Protocol

/-- `PacketType::NEW_ORDER`. The byte of a packet can have any value. -/
def newOrder : UInt8 := 1

inductive EgressType
  | orderAccepted
  | orderRejected
  | orderCanceled
  | orderFilled
  deriving DecidableEq

structure EgressPacket where
  type : EgressType
  side : UInt8
  instrumentId : UInt32
  clientOrderId : UInt64
  makerId : UInt64
  takerId : UInt64
  matchPrice : UInt64
  matchQuantity : UInt32
  leavesQuantity : UInt32
  deriving DecidableEq

/-- The `processed_*` copies that the core takes of a packet. -/
structure Processed where
  side : UInt8
  instrumentId : UInt32
  traderId : UInt32
  clientOrderId : UInt64
  deriving DecidableEq

def process (packet : IngressPacket) : Processed :=
  ⟨packet.side, packet.instrumentId, packet.traderId, packet.clientOrderId⟩

def rejectPacket (p : Processed) (price : UInt64) (quantity : UInt32) : EgressPacket :=
  ⟨.orderRejected, p.side, p.instrumentId, p.clientOrderId, 0, 0, price, quantity, 0⟩

def reportPacket (p : Processed) (price : UInt64) (quantity : UInt32) : EgressPacket :=
  ⟨.orderAccepted, p.side, p.instrumentId, p.clientOrderId, p.traderId.toUInt64, 0, price, quantity, 0⟩

def fillPacket (p : Processed) (trade : Trade) : EgressPacket :=
  ⟨.orderFilled, p.side, p.instrumentId, p.clientOrderId, trade.makerId, trade.takerId, trade.price,
    trade.quantity, 0⟩

/-- The packets pushed for an order; `price` and `quantity` are what the slot
of the ring holds when they are built. -/
def reports (p : Processed) (accepted : Bool) (trades : List Trade) (price : UInt64) (quantity : UInt32) :
    List EgressPacket :=
  if accepted then
    if trades = [] then [reportPacket p price quantity] else trades.map (fillPacket p)
  else [rejectPacket p price quantity]

def call (packet : IngressPacket) (p : Processed) : Call :=
  ⟨packet.side, packet.price, packet.quantity, p.traderId⟩

/-- The part of an iteration that runs on the engine: only a new order is
submitted. -/
def submit (e : Engine) (packet : IngressPacket) (p : Processed) : Option (Engine × Bool) :=
  if packet.type = newOrder then submitOrder e (call packet p) else some (e, false)

structure Core where
  engine : Engine
  pushed : List EgressPacket

def Core.init : Core := ⟨.init 1000000, []⟩

/-- One iteration of the core loop over a packet that stays in its slot. -/
def Core.consume (c : Core) (packet : IngressPacket) : Option Core :=
  (submit c.engine packet (process packet)).map fun r =>
    ⟨r.1.clearExecutionQueue, c.pushed ++ reports (process packet) r.2 r.1.market.execQ.items packet.price
      packet.quantity⟩

def Core.receive (c : Core) (line : List UInt8) : Option Core :=
  match forwarded line with
  | some packet => c.consume packet
  | none => some c

section Consume

variable {c c' : Core} {packet : IngressPacket} {s s' : Session}

theorem submit_of_consume (ht : packet.type = newOrder) (s : Session) (hs : s.engine = c.engine)
    (h : c.consume packet = some c') :
    ∃ s', s.submit (call packet (process packet)) = some s' ∧ s'.engine = c'.engine := by
  rw [Core.consume, submit, if_pos ht, ← hs] at h
  obtain ⟨r, hr, rfl⟩ := Option.map_eq_some_iff.mp h
  exact ⟨_, congrArg (Option.map _) hr, rfl⟩

theorem consume_of_submit (ht : packet.type = newOrder) (hs : s.engine = c.engine)
    (h : s.submit (call packet (process packet)) = some s') :
    ∃ c', c.consume packet = some c' ∧ c'.engine = s'.engine := by
  obtain ⟨r, hr, rfl⟩ := Option.map_eq_some_iff.mp h
  rw [Core.consume, submit, if_pos ht, ← hs, hr]
  exact ⟨_, rfl, rfl⟩

theorem consume_other (c : Core) (ht : packet.type ≠ newOrder) :
    ∃ c', c.consume packet = some c' ∧ c'.engine = c.engine.clearExecutionQueue := by
  rw [Core.consume, submit, if_neg ht]
  exact ⟨_, rfl, rfl⟩

end Consume

end Sequitur.CoreLoop
