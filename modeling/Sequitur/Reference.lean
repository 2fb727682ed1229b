import Sequitur.MatchingEngine

namespace Sequitur.Reference

open MatchingEngine

structure Quote where
  id : UInt64
  traderId : UInt32
  price : Nat
  quantity : Nat
  deriving DecidableEq

structure Deal where
  maker : Nat
  taker : Nat
  price : Nat
  quantity : Nat
  deriving DecidableEq

/-- The resting orders of each side, best price first and in order of arrival
within a price. -/
structure Book where
  bids : List Quote
  asks : List Quote
  nextId : UInt64

def Book.empty : Book := ⟨[], [], 1⟩

/-- Trade with the first order of the list as long as its price is within the
limit. The results are the deals, the list afterwards and the open quantity. -/
def trade (within : Nat → Bool) (taker : UInt32) : Nat → List Quote → List Deal × List Quote × Nat
  | left, [] => ([], [], left)
  | left, x :: xs =>
      if 0 < left ∧ within x.price then
        let quantity := min left x.quantity
        let deal : Deal := ⟨x.traderId.toNat, taker.toNat, x.price, quantity⟩
        if quantity = x.quantity then
          let (deals, xs, left) := trade within taker (left - quantity) xs
          (deal :: deals, xs, left)
        else ([deal], { x with quantity := x.quantity - quantity } :: xs, left - quantity)
      else ([], x :: xs, left)

/-- Rest an order behind those with a price that is not worse. -/
def rest (better : Nat → Nat → Bool) (q : Quote) (l : List Quote) : List Quote :=
  if 0 < q.quantity then l.orderedInsert (fun x y => better x.price y.price) q else l

def Book.submit (b : Book) (c : Call) : Book × List Deal :=
  if c.side = 0 then
    let (deals, asks, left) := trade (· ≤ c.price.toNat) c.traderId c.quantity.toNat b.asks
    (⟨rest (· > ·) ⟨b.nextId, c.traderId, c.price.toNat, left⟩ b.bids, asks, b.nextId + 1⟩, deals)
  else
    let (deals, bids, left) := trade (· ≥ c.price.toNat) c.traderId c.quantity.toNat b.bids
    (⟨bids, rest (· < ·) ⟨b.nextId, c.traderId, c.price.toNat, left⟩ b.asks, b.nextId + 1⟩, deals)

def Book.replay (b : Book) : List Call → Book × List (List Deal)
  | [] => (b, [])
  | c :: cs =>
      let (b', deals) := b.submit c
      let (b'', rest) := b'.replay cs
      (b'', deals :: rest)

def Book.restingAt (b : Book) (p : Nat) : List (UInt8 × Quote) :=
  ((b.bids.filter fun x => x.price = p).map fun x => (0, x)) ++
    (b.asks.filter fun x => x.price = p).map fun x => (1, x)

theorem replay_append (b : Book) (cs : List Call) (c : Call) :
    b.replay (cs ++ [c]) =
      (((b.replay cs).1.submit c).1, (b.replay cs).2 ++ [((b.replay cs).1.submit c).2]) := by
  induction cs generalizing b with
  | nil => rfl
  | cons d cs ih => simp only [List.cons_append, Book.replay, ih]

section Trade

variable {within : Nat → Bool} {taker : UInt32} {left : Nat} {x : Quote} {xs : List Quote}

theorem trade_stop (h : left = 0 ∨ ∀ y ∈ xs, within y.price = false) :
    trade within taker left xs = ([], xs, left) := by
  cases xs with
  | nil => rfl
  | cons y ys =>
      rw [trade, if_neg]
      rintro ⟨hl, hw⟩
      rcases h with h | h
      · omega
      · simp [h y List.mem_cons_self] at hw

theorem trade_full (hl : 0 < left) (hw : within x.price = true) (hq : x.quantity ≤ left) :
    trade within taker left (x :: xs) =
      (⟨x.traderId.toNat, taker.toNat, x.price, x.quantity⟩ :: (trade within taker (left - x.quantity) xs).1,
        (trade within taker (left - x.quantity) xs).2) := by
  rw [trade, if_pos ⟨hl, hw⟩, Nat.min_eq_right hq, if_pos rfl]

theorem trade_part (hl : 0 < left) (hw : within x.price = true) (hq : left < x.quantity) :
    trade within taker left (x :: xs) =
      ([⟨x.traderId.toNat, taker.toNat, x.price, left⟩], { x with quantity := x.quantity - left } :: xs, 0) := by
  rw [trade, if_pos ⟨hl, hw⟩, Nat.min_eq_left (Nat.le_of_lt hq), if_neg (Nat.ne_of_lt hq), Nat.sub_self]

end Trade

theorem orderedInsert_between {α : Type} {r : α → α → Prop} [DecidableRel r] {a : α} {xs ys : List α}
    (hx : ∀ x ∈ xs, ¬ r a x) (hy : ∀ y ∈ ys, r a y) : (xs ++ ys).orderedInsert r a = xs ++ a :: ys := by
  induction xs with
  | nil =>
      cases ys with
      | nil => rfl
      | cons y ys => exact List.orderedInsert_cons_of_le r ys (hy y List.mem_cons_self)
  | cons x xs ih =>
      rw [List.cons_append, List.orderedInsert_of_not_le r _ (hx x List.mem_cons_self),
        ih fun y h => hx y (List.mem_cons_of_mem _ h)]
      rfl

end Sequitur.Reference
