import Sequitur.FixedQueue
import Sequitur.LinkedLists

namespace Sequitur.OrderBook

-- Irreducible, so that unification never unrolls a list of all the ticks.
@[irreducible] def maxPriceTicks : Nat := 1000000

theorem maxPriceTicks_toNat : (UInt64.ofNat maxPriceTicks).toNat = maxPriceTicks := by
  rw [maxPriceTicks]
  rfl

/-- The capacity of `ExecutionQueue` and of `GarbageQueue`. -/
def queueCapacity : Nat := 10000

/-- An order in its slot of the pool. An `Order *` is the number of the slot. -/
structure Order where
  id : UInt64
  traderId : UInt32
  price : UInt64
  quantity : UInt32
  prevOrder : Option Nat
  nextOrder : Option Nat
  side : UInt8
  deriving DecidableEq

def Order.zero : Order := ⟨0, 0, 0, 0, none, none, 0⟩

structure Trade where
  makerId : UInt64
  takerId : UInt64
  price : UInt64
  quantity : UInt32
  deriving DecidableEq

structure PriceLevel where
  head : Option Nat
  tail : Option Nat
  volume : UInt32
  deriving DecidableEq

/-- An `OrderBook` with the orders its pointers lead to and the two queues
that `match_order` is given. The array of levels is kept without its bound, so
an index beyond it is a level of its own and not, as in memory, the cursors.
`touched` is a ghost record of every index used on it, and `fills` a ghost
record of the maker and the taker of every trade, as they were before it. -/
structure Market where
  heap : Nat → Order
  book : Nat → PriceLevel
  bestBid : UInt64
  bestAsk : UInt64
  totalTrades : UInt64
  totalVolume : UInt64
  execQ : FixedQueue Trade
  trashQ : FixedQueue Nat
  touched : List Nat
  fills : List (Order × Order)

def Market.init (heap : Nat → Order) : Market where
  heap := heap
  book := fun _ => ⟨none, none, 0⟩
  bestBid := 0
  bestAsk := UInt64.ofNat maxPriceTicks
  totalTrades := 0
  totalVolume := 0
  execQ := .empty
  trashQ := .empty
  touched := []
  fills := []

namespace Market

def setOrder (m : Market) (o : Nat) (f : Order → Order) : Market :=
  { m with heap := Function.update m.heap o (f (m.heap o)) }

def setLevel (m : Market) (p : Nat) (f : PriceLevel → PriceLevel) : Market :=
  { m with book := Function.update m.book p (f (m.book p)) }

def touch (m : Market) (p : Nat) : Market := { m with touched := m.touched ++ [p] }

@[simp] theorem setLevel_heap (m : Market) (p : Nat) (f : PriceLevel → PriceLevel) :
    (m.setLevel p f).heap = m.heap := rfl

def setNext (m : Market) (ptr : Option Nat) (v : Option Nat) : Market :=
  match ptr with
  | none => m
  | some o => m.setOrder o fun x => { x with nextOrder := v }

def linkOrder (m : Market) (p order : Nat) : Market :=
  match (m.book p).head with
  | none =>
      (m.setLevel p fun pl => { pl with head := some order, tail := some order }).setOrder order
        fun x => { x with prevOrder := none, nextOrder := none }
  | some _ =>
      let tail := (m.book p).tail
      let m := m.setNext tail (some order)
      let m := m.setOrder order fun x => { x with prevOrder := tail }
      let m := m.setLevel p fun pl => { pl with tail := some order }
      m.setOrder order fun x => { x with nextOrder := none }

def insertOrder (m : Market) (order : Nat) : Market :=
  let price := (m.heap order).price
  let m := (m.touch price.toNat).linkOrder price.toNat order
  let m := m.setLevel price.toNat fun pl => { pl with volume := pl.volume + (m.heap order).quantity }
  if (m.heap order).side = 0 then { m with bestBid := max price m.bestBid }
  else if (m.heap order).side = 1 then { m with bestAsk := min price m.bestAsk }
  else m

def bypassForward (m : Market) (p order : Nat) : Market :=
  match (m.heap order).prevOrder with
  | none => m.setLevel p fun pl => { pl with head := (m.heap order).nextOrder }
  | some y => m.setOrder y fun x => { x with nextOrder := (m.heap order).nextOrder }

def bypassBackward (m : Market) (p order : Nat) : Market :=
  match (m.heap order).nextOrder with
  | none => m.setLevel p fun pl => { pl with tail := (m.heap order).prevOrder }
  | some y => m.setOrder y fun x => { x with prevOrder := (m.heap order).prevOrder }

def removeOrder (m : Market) (order : Nat) : Market :=
  let p := (m.heap order).price.toNat
  let m := ((m.touch p).bypassForward p order).bypassBackward p order
  m.setLevel p fun pl => { pl with volume := pl.volume - (m.heap order).quantity }

/-- The trade between the incoming order and the order at the head of level
`p`: the same statements in both matching loops. -/
def fill (m : Market) (p incoming resting : Nat) : Market :=
  let maker := m.heap resting
  let taker := m.heap incoming
  let tradeQuantity := min taker.quantity maker.quantity
  let m := { m with
    totalTrades := m.totalTrades + 1
    totalVolume := m.totalVolume + tradeQuantity.toUInt64
    execQ := m.execQ.push
      ⟨maker.traderId.toUInt64, taker.traderId.toUInt64, maker.price, tradeQuantity⟩
    fills := m.fills ++ [(maker, taker)] }
  let m := m.setOrder incoming fun x => { x with quantity := x.quantity - tradeQuantity }
  let m := m.setOrder resting fun x => { x with quantity := x.quantity - tradeQuantity }
  let m := m.setLevel p fun pl => { pl with volume := pl.volume - tradeQuantity }
  if (m.heap resting).quantity = 0 then
    { m with trashQ := m.trashQ.push resting }.removeOrder resting
  else m

end Market

/-- The two matching loops: an incoming buy moves `best_ask` upwards, an
incoming sell moves `best_bid` downwards. -/
inductive Sweep
  | asks
  | bids

namespace Sweep

def cursor : Sweep → Market → UInt64
  | .asks, m => m.bestAsk
  | .bids, m => m.bestBid

def reaches : Sweep → UInt64 → UInt64 → Bool
  | .asks, cursor, price => cursor ≤ price
  | .bids, cursor, price => cursor ≥ price

def last : Sweep → UInt64
  | .asks => UInt64.ofNat maxPriceTicks
  | .bids => 0

def advance : Sweep → Market → Market
  | .asks, m => { m with bestAsk := m.bestAsk + 1 }
  | .bids, m => { m with bestBid := m.bestBid - 1 }

end Sweep

def sweep (d : Sweep) (incoming : Nat) : Nat → Market → Option Market
  | 0, _ => none
  | fuel + 1, m =>
      if 0 < (m.heap incoming).quantity ∧ d.reaches (d.cursor m) (m.heap incoming).price then
        let p := (d.cursor m).toNat
        let m := m.touch p
        match (m.book p).head with
        | none => if d.cursor m = d.last then some m else sweep d incoming fuel (d.advance m)
        | some resting => sweep d incoming fuel (m.fill p incoming resting)
      else some m

/-- A round of the loop either uses up some of the incoming quantity or moves
the cursor by one tick, so the fuel is never the reason to stop. -/
def fuelFor (quantity : UInt32) : Nat := quantity.toNat + maxPriceTicks + 2

def matchLoop (m : Market) (incoming : Nat) : Option Market :=
  let order := m.heap incoming
  if order.side = 0 ∧ order.price ≥ m.bestAsk then
    sweep .asks incoming (fuelFor order.quantity) m
  else if order.side = 1 ∧ order.price ≤ m.bestBid then
    sweep .bids incoming (fuelFor order.quantity) m
  else some m

def matchOrder (m : Market) (incoming : Nat) : Option Market :=
  (matchLoop m incoming).map fun m =>
    if 0 < (m.heap incoming).quantity then m.insertOrder incoming else m

end Sequitur.OrderBook
