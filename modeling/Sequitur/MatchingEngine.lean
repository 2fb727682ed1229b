import Sequitur.ObjectPool
import Sequitur.OrderBook
import Sequitur.Runs

namespace Sequitur.MatchingEngine

open OrderBook

structure Engine where
  pool : ObjectPool
  market : Market
  nextOrderId : UInt64
  totalOrders : UInt64

def Engine.init (poolCapacity : Nat) : Engine where
  pool := .init poolCapacity
  market := .init fun _ => .zero
  nextOrderId := 1
  totalOrders := 0

structure Call where
  side : UInt8
  price : UInt64
  quantity : UInt32
  traderId : UInt32
  deriving DecidableEq

/-- The order as it stands in its slot when `match_order` is called. -/
def Call.order (c : Call) (id : UInt64) : Order :=
  { Order.zero with side := c.side, price := c.price, quantity := c.quantity,
                    traderId := c.traderId, id := id }

/-- What `submit_order` does once the book has been matched: the filled makers
go back to the pool, then the incoming order if nothing of it is left. -/
def Engine.settle (e : Engine) (pool : ObjectPool) (order : Nat) (m : Market) : Engine :=
  let pool := m.trashQ.items.foldl (fun pool dead => pool.release (some dead)) pool
  let m := { m with trashQ := m.trashQ.clear }
  { pool := if (m.heap order).quantity = 0 then pool.release (some order) else pool
    market := m
    nextOrderId := e.nextOrderId + 1
    totalOrders := e.totalOrders + 1 }

def submitOrder (e : Engine) (c : Call) : Option (Engine × Bool) :=
  match e.pool.acquire with
  | (pool, none) => some ({ e with pool := pool }, false)
  | (pool, some order) =>
      (matchOrder (e.market.setOrder order fun _ => c.order e.nextOrderId) order).map fun m =>
        (e.settle pool order m, true)

def Engine.clearExecutionQueue (e : Engine) : Engine :=
  { e with market := { e.market with execQ := e.market.execQ.clear } }

structure Entry where
  call : Call
  accepted : Bool
  trades : List Trade
  deriving DecidableEq

structure Session where
  engine : Engine
  log : List Entry

def Session.init (poolCapacity : Nat) : Session := ⟨.init poolCapacity, []⟩

/-- A call of `submit_order` followed by `clear_execution_queue`, which is how
the core loop drives the engine. -/
def Session.submit (s : Session) (c : Call) : Option Session :=
  (submitOrder s.engine c).map fun r =>
    ⟨r.1.clearExecutionQueue, s.log ++ [⟨c, r.2, r.1.market.execQ.items⟩]⟩

def Session.after (poolCapacity : Nat) (calls : List Call) : Option Session :=
  Runs.run Session.submit (.init poolCapacity) calls

def Engine.restingAt (e : Engine) (p : Nat) : List Nat :=
  LinkedLists.walk (fun o => (e.market.heap o).nextOrder) e.pool.capacity (e.market.book p).head

def Engine.restingSlots (e : Engine) : List Nat :=
  (List.range (maxPriceTicks + 1)).flatMap e.restingAt

def Engine.restingOrders (e : Engine) : List Order := e.restingSlots.map e.market.heap

end Sequitur.MatchingEngine
