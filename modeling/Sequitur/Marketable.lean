import Sequitur.Accounting
import Sequitur.Sessions

namespace Sequitur.Marketable

open OrderBook LevelBook Abstraction Accounting MatchingEngine EngineStep Sessions

def prices : Sweep → Nat → Nat → List Nat
  | .asks, cursor, price => List.range' cursor (min price maxPriceTicks + 1 - cursor)
  | .bids, cursor, price => (List.range' price (cursor + 1 - price)).reverse

theorem prices_of_not_ahead {d : Sweep} {c price : Nat} (h : ¬ Ahead d c price) : prices d c price = [] := by
  cases d with
  | asks =>
      have hz : min price maxPriceTicks + 1 - c = 0 := by
        simp only [Ahead] at h
        omega
      rw [prices, hz, List.range'_zero]
  | bids =>
      have hz : c + 1 - price = 0 := by
        simp only [Ahead] at h
        omega
      rw [prices, hz, List.range'_zero, List.reverse_nil]

theorem prices_limit {d : Sweep} {price : Nat} (h : Ahead d (limit d) price) :
    prices d (limit d) price = [limit d] := by
  cases d with
  | asks =>
      have hone : min price maxPriceTicks + 1 - maxPriceTicks = 1 := by
        simp only [Ahead, limit] at h
        omega
      rw [limit, prices, hone, List.range'_one]
  | bids =>
      obtain rfl : price = 0 := by
        simp only [Ahead, limit] at h
        omega
      rfl

theorem prices_advance {d : Sweep} {a : Levels} {price : Nat} (h : Ahead d (position d a) price)
    (hp : position d a ≠ limit d) (hb : position d a ≤ maxPriceTicks) :
    prices d (position d a) price = position d a :: prices d (position d (advance d a)) price := by
  cases d with
  | asks =>
      simp only [Ahead, position, limit, advance, prices] at *
      have hs : min price maxPriceTicks + 1 - a.bestAsk = min price maxPriceTicks + 1 - (a.bestAsk + 1) + 1 := by
        omega
      rw [hs, List.range'_succ]
  | bids =>
      simp only [Ahead, position, limit, advance, prices] at *
      have hs : a.bestBid + 1 - price = (a.bestBid - 1 + 1 - price) + 1 := by omega
      have hl : price + (a.bestBid - 1 + 1 - price) = a.bestBid := by omega
      rw [hs, List.range'_1_concat, List.reverse_append, hl, List.reverse_singleton, List.singleton_append]

theorem mem_prices {d : Sweep} {c price q : Nat} (h : q ∈ prices d c price) : Ahead d c q := by
  cases d with
  | asks => exact (List.mem_range'_1.mp h).1
  | bids =>
      obtain ⟨hlo, hhi⟩ := List.mem_range'_1.mp (List.mem_reverse.mp h)
      simp only [Ahead]
      omega

/-- What an order with this limit can trade with, in the order it would. -/
def marketable (d : Sweep) (price : Nat) (a : Levels) : List Resting :=
  (prices d (position d a) price).flatMap a.levels

def hits : Nat → List Resting → Nat
  | _, [] => 0
  | q, r :: l => if 0 < q then hits (q - r.quantity) l + 1 else 0

@[simp] theorem hits_zero (l : List Resting) : hits 0 l = 0 := by
  cases l <;> rfl

theorem hits_le_iff (q k : Nat) (l : List Resting) :
    hits q l ≤ k ↔ l.length ≤ k ∨ q ≤ volume (l.take k) := by
  induction l generalizing q k with
  | nil => simp [hits]
  | cons r l ih =>
      by_cases hq : 0 < q
      · rw [hits, if_pos hq]
        cases k with
        | zero =>
            simp only [List.length_cons, List.take_zero, volume_nil]
            omega
        | succ k =>
            simp only [List.length_cons, List.take_succ_cons, volume_cons, Nat.add_le_add_iff_right, ih]
            omega
      · rw [hits, if_neg hq]
        omega

theorem hits_le {q : Nat} {l : List Resting} (h : ∀ r ∈ l, 0 < r.quantity) : hits q l ≤ q := by
  induction l generalizing q with
  | nil => exact Nat.zero_le q
  | cons r l ih =>
      have hr := h r List.mem_cons_self
      have hl := ih (q := q - r.quantity) fun x hx => h x (List.mem_cons_of_mem _ hx)
      rw [hits]
      split <;> omega

theorem sum_quantities {m : Market} {a : Levels} (h : Represents m a) {l : List Resting}
    (hl : ∀ r ∈ l, ∃ p, r ∈ a.levels p) :
    ((slots l).map fun x => (m.heap x).quantity.toNat).sum = volume l := by
  rw [slots, List.map_map, volume]
  refine congrArg List.sum (List.map_congr_left fun r hr => ?_)
  obtain ⟨p, hp⟩ := hl r hr
  exact (h.data p r hp).quantity

section Swept

variable {d : Sweep} {price : Nat} {a a' : Levels} {left left' : Nat} {fs : List Fill}

theorem marketable_nil (h : ¬ Ahead d (position d a) price) : marketable d price a = [] := by
  rw [marketable, prices_of_not_ahead h, List.flatMap_nil]

theorem marketable_last (h : Ahead d (position d a) price) (hp : position d a = limit d)
    (he : a.levels (position d a) = []) : marketable d price a = [] := by
  rw [marketable, hp, prices_limit (hp ▸ h), List.flatMap_singleton, ← hp, he]

theorem marketable_skip (h : Ahead d (position d a) price) (hp : position d a ≠ limit d)
    (hb : position d a ≤ maxPriceTicks) (he : a.levels (position d a) = []) :
    marketable d price a = marketable d price (advance d a) := by
  rw [marketable, marketable, prices_advance h hp hb, List.flatMap_cons, he, List.nil_append, advance_levels]

theorem marketable_cons (h : Ahead d (position d a) price) (hb : position d a ≤ maxPriceTicks) :
    ∃ l, ∀ x, marketable d price (a.set (position d a) x) = x ++ l := by
  have hpos (x : List Resting) : position d (a.set (position d a) x) = position d a := by cases d <;> rfl
  by_cases hp : position d a = limit d
  · refine ⟨[], fun x => ?_⟩
    rw [marketable, hpos, hp, prices_limit (hp ▸ h), List.flatMap_singleton, Levels.set_levels_self, List.append_nil]
  · refine ⟨(prices d (position d (advance d a)) price).flatMap a.levels, fun x => ?_⟩
    rw [marketable, hpos, prices_advance h hp hb, List.flatMap_cons, Levels.set_levels_self]
    congr 1
    refine List.flatMap_congr fun q hq => a.set_levels_of_ne ?_ x
    rintro rfl
    exact ((ahead_advance hp _).mp (mem_prices hq)).2 rfl

/-- A sweep trades with the marketable orders one after the other, until its
quantity or they are used up. -/
theorem swept_hits (h : Swept d price a left a' left' fs) (hb : position d a ≤ maxPriceTicks) :
    fs.length = hits left (marketable d price a) ∧ left' = left - volume (marketable d price a) := by
  induction h with
  | @done a left h =>
      rcases h with rfl | h
      · simp
      · rw [marketable_nil h]
        simp [hits]
  | last hl hw he hp =>
      rw [marketable_last hw hp he]
      simp [hits]
  | skip hl hw he hp h ih =>
      rw [marketable_skip hw hp hb he]
      exact ih (position_advance_le hp hb)
  | @fill a left a' left' fs r rest hl hw he h ih =>
      obtain ⟨l, hmk⟩ := marketable_cons hw hb
      have hbefore := hmk (a.levels (position d a))
      rw [Levels.set_levels_eq, he, List.cons_append] at hbefore
      obtain ⟨hlen, hleft⟩ := ih (by simpa using hb)
      rw [Levels.fillHead, hmk] at hlen hleft
      rw [List.length_cons, hbefore, hits, if_pos hl, hlen, hleft, volume_cons, volume_append]
      by_cases hq : r.quantity ≤ left
      · rw [if_pos hq, volume_append]
        exact ⟨rfl, by omega⟩
      · have hz : left - r.quantity = 0 := by omega
        rw [hz, hits_zero, hits_zero]
        exact ⟨rfl, by omega⟩

end Swept

def marketableSlots (e : Engine) (c : Call) : List Nat :=
  if c.side = 0 then (prices .asks e.market.bestAsk.toNat c.price.toNat).flatMap e.restingAt
  else if c.side = 1 then (prices .bids e.market.bestBid.toNat c.price.toNat).flatMap e.restingAt
  else []

def quantityOf (e : Engine) (xs : List Nat) : Nat := (xs.map fun x => (e.market.heap x).quantity.toNat).sum

theorem restingAt_flatMap {n : Nat} {e : Engine} {a : Levels} (h : Consistent n e a) (ps : List Nat) :
    ps.flatMap e.restingAt = slots (ps.flatMap a.levels) := by
  rw [slots, List.map_flatMap]
  exact List.flatMap_congr fun p _ => restingAt_eq h p

theorem quantityOf_slots {n : Nat} {e : Engine} {a : Levels} (h : Consistent n e a) {l : List Resting}
    (hl : ∀ r ∈ l, ∃ p, r ∈ a.levels p) : quantityOf e (slots l) = volume l :=
  sum_quantities h.market hl

theorem accepted_hits {n : Nat} {e e' : Engine} {c : Call} {a a' : Levels} {slot left : Nat} {fs : List Fill}
    (hc : Consistent n e a) (h : Accepted e c a e' slot a' left fs) :
    (∀ k, fs.length ≤ k ↔ (marketableSlots e c).length ≤ k ∨
        c.quantity.toNat ≤ quantityOf e ((marketableSlots e c).take k)) ∧
      left = c.quantity.toNat - quantityOf e (marketableSlots e c) := by
  have hread : ∃ l, marketableSlots e c = slots l ∧ (∀ r ∈ l, ∃ p, r ∈ a.levels p) ∧
      fs.length = hits c.quantity.toNat l ∧ left = c.quantity.toNat - volume l := by
    have hmem (ps : List Nat) : ∀ r ∈ ps.flatMap a.levels, ∃ p, r ∈ a.levels p := by
      intro r hr
      obtain ⟨p, -, hp⟩ := List.mem_flatMap.mp hr
      exact ⟨p, hp⟩
    have hm := h.matched
    rw [marketableSlots, hc.market.bestAsk, hc.market.bestBid, restingAt_flatMap hc, restingAt_flatMap hc]
    generalize c.side = t at hm
    cases hm with
    | buy h => exact ⟨marketable .asks c.price.toNat a, if_pos rfl, hmem _, swept_hits h hc.bounded.bestAsk⟩
    | sell h => exact ⟨marketable .bids c.price.toNat a, rfl, hmem _, swept_hits h hc.bounded.bestBid⟩
    | other h0 h1 => exact ⟨[], by rw [if_neg h0, if_neg h1]; rfl, by simp, rfl, rfl⟩
  obtain ⟨l, hl, hfrom, hlen, hleft⟩ := hread
  rw [hl, quantityOf_slots hc hfrom]
  refine ⟨fun k => ?_, hleft⟩
  have htake : (slots l).take k = slots (l.take k) := List.map_take.symm
  rw [htake, quantityOf_slots hc fun r hr => hfrom r (List.mem_of_mem_take hr), hlen, hits_le_iff, slots,
    List.length_map]

end Sequitur.Marketable
