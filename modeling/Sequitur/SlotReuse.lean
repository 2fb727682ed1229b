import Sequitur.MatchingEngine
import Sequitur.Simulation

namespace Sequitur.SlotReuse

open OrderBook LinkedLists Abstraction Simulation MatchingEngine

theorem linkOrder_tail (m : Market) (p o : Nat) : ((m.linkOrder p o).book p).tail = some o := by
  simp only [Market.linkOrder]
  cases hh : (m.book p).head with
  | none => simp [Market.setLevel, Market.setOrder]
  | some x => simp [Market.setLevel, Market.setOrder]

theorem linkOrder_head (m : Market) (p o : Nat) :
    ((m.linkOrder p o).book p).head = some ((m.book p).head.getD o) := by
  simp only [Market.linkOrder]
  cases hh : (m.book p).head with
  | none => simp [Market.setLevel, Market.setOrder]
  | some x =>
      have hb : (m.setNext (m.book p).tail (some o)).book = m.book := by
        cases (m.book p).tail <;> rfl
      simp [Market.setLevel, Market.setOrder, hb, hh]

theorem linkOrder_book (m : Market) (p o : Nat) {q : Nat} (hq : q ≠ p) :
    (m.linkOrder p o).book q = m.book q := by
  simp only [Market.linkOrder]
  cases hh : (m.book p).head with
  | none => simp [Market.setLevel, Market.setOrder, hq]
  | some x =>
      have hb : (m.setNext (m.book p).tail (some o)).book = m.book := by
        cases (m.book p).tail <;> rfl
      simp [Market.setLevel, Market.setOrder, hb, hq]

theorem linkOrder_next (m : Market) (p o : Nat) : ((m.linkOrder p o).heap o).nextOrder = none := by
  simp only [Market.linkOrder]
  cases hh : (m.book p).head with
  | none => simp [Market.setLevel, Market.setOrder]
  | some x => simp [Market.setLevel, Market.setOrder]

theorem linkOrder_prev (m : Market) (p o : Nat) {x : Nat} (hh : (m.book p).head = some x) :
    ((m.linkOrder p o).heap o).prevOrder = (m.book p).tail := by
  simp [Market.linkOrder, hh, Market.setLevel, Market.setOrder]

def quiet : Call := ⟨0, 0, 1, 1⟩

def quietly (m : Market) (id : UInt64) (o : Nat) : Market :=
  (m.setOrder o fun _ => quiet.order id).insertOrder o

theorem quietly_frame (m : Market) (id : UInt64) (o : Nat) :
    ∃ heap book bid touched, quietly m id o = { m with
      heap := heap, book := book, bestBid := bid, touched := touched } := by
  have hs : ((m.setOrder o fun _ => quiet.order id).heap o).side = 0 := by simp [Market.setOrder]; rfl
  rw [quietly, insertOrder_eq, if_pos hs, inserted, linkOrder_frame]
  exact ⟨_, _, _, _, rfl⟩

theorem matchOrder_quiet {m : Market} (hask : m.bestAsk = UInt64.ofNat maxPriceTicks) (id : UInt64) (o : Nat) :
    matchOrder (m.setOrder o fun _ => quiet.order id) o = some (quietly m id o) := by
  have hh : (m.setOrder o fun _ => quiet.order id).heap o = quiet.order id := Function.update_self ..
  have hlt : ¬ (quiet.order id).price ≥ UInt64.ofNat maxPriceTicks := by
    rw [maxPriceTicks]
    exact (by decide : ¬ (0 : UInt64) ≥ UInt64.ofNat 1000000)
  have hl : matchLoop (m.setOrder o fun _ => quiet.order id) o = some (m.setOrder o fun _ => quiet.order id) := by
    simp only [matchLoop, hh]
    rw [if_neg fun hc => hlt (hask ▸ hc.2), if_neg fun hc => by simp [quiet, Call.order] at hc]
  rw [matchOrder, hl, Option.map_some, hh]
  exact congrArg some (if_pos (by decide : (0 : UInt32) < 1))

theorem quietly_level (m : Market) (id : UInt64) (o : Nat) :
    ((quietly m id o).book 0).head = some ((m.book 0).head.getD o) ∧
      ((quietly m id o).book 0).tail = some o ∧
      (∀ p, p ≠ 0 → (quietly m id o).book p = m.book p) ∧
      ((quietly m id o).heap o).nextOrder = none ∧ ((quietly m id o).heap o).quantity = 1 ∧
      ∀ x, (m.book 0).head = some x → ((quietly m id o).heap o).prevOrder = (m.book 0).tail := by
  have hh : (m.setOrder o fun _ => quiet.order id).heap o = quiet.order id := Function.update_self ..
  have hp : ((quiet.order id).price).toNat = 0 := rfl
  have he : quietly m id o = { inserted (m.setOrder o fun _ => quiet.order id) o with
      bestBid := max (quiet.order id).price m.bestBid } := by
    rw [quietly, insertOrder_eq, hh]
    rfl
  rw [he, inserted, hh, hp]
  refine ⟨?_, ?_, ?_, ?_, ?_, ?_⟩
  · exact (congrFun (congrArg Links.head (links_setVolume _ 0 _)) 0).trans (linkOrder_head _ 0 o)
  · exact (congrFun (congrArg Links.tail (links_setVolume _ 0 _)) 0).trans (linkOrder_tail _ 0 o)
  · exact fun p hp => (Function.update_of_ne hp _ _).trans (linkOrder_book _ 0 o hp)
  · exact linkOrder_next _ 0 o
  · exact (quantity_eq (bare_linkOrder _ 0 o o)).trans (congrArg Order.quantity hh)
  · exact fun x hx => linkOrder_prev _ 0 o (x := x) hx

/-- The session after `k` quiet calls on a pool of `2 ^ 32 + 1` objects. The
bottom and the top of its stack hold the same slot number 0. -/
structure Quiet (k : Nat) (s : Session) : Prop where
  freeIndices : s.engine.pool.freeIndices = fun i => UInt32.ofNat i
  top : s.engine.pool.top = 2 ^ 32 - (k : Int)
  capacity : s.engine.pool.capacity = 2 ^ 32 + 1
  bestAsk : s.engine.market.bestAsk = UInt64.ofNat maxPriceTicks
  trashQ : s.engine.market.trashQ.items = []
  execQ : s.engine.market.execQ.items = []
  totalVolume : s.engine.market.totalVolume = 0
  first : k = 0 → (s.engine.market.book 0).head = none
  head : 0 < k → (s.engine.market.book 0).head = some 0
  tail : 0 < k → ∃ t, (s.engine.market.book 0).tail = some t
  others : ∀ p, p ≠ 0 → (s.engine.market.book p).head = none
  log : s.log = List.replicate k ⟨quiet, true, []⟩

theorem submit_quiet {k : Nat} {s : Session} (h : Quiet k s) (hk : k ≤ 2 ^ 32) :
    ∃ s', s.submit quiet = some s' ∧ Quiet (k + 1) s' ∧
      (k = 2 ^ 32 → (s'.engine.market.heap 0).nextOrder = none ∧
        (s'.engine.market.heap 0).quantity = 1 ∧ ∃ t, (s'.engine.market.heap 0).prevOrder = some t) := by
  have htop : ¬ s.engine.pool.top < 0 := by rw [h.top]; omega
  obtain ⟨pool, hacq, hfree, hptop, hcap⟩ : ∃ pool, s.engine.pool.acquire =
      (pool, some (UInt32.ofNat (2 ^ 32 - k)).toNat) ∧ pool.freeIndices = s.engine.pool.freeIndices ∧
      pool.top = s.engine.pool.top - 1 ∧ pool.capacity = s.engine.pool.capacity := by
    have hidx : s.engine.pool.top.toNat = 2 ^ 32 - k := by rw [h.top]; omega
    rw [ObjectPool.acquire, if_neg htop, hidx, h.freeIndices]
    exact ⟨_, rfl, rfl, rfl, rfl⟩
  generalize ho : (UInt32.ofNat (2 ^ 32 - k)).toNat = o at hacq
  obtain ⟨hhead, htail, hothers, hnext, hone, hprev⟩ := quietly_level s.engine.market s.engine.nextOrderId o
  obtain ⟨heap, book, bid, touched, hframe⟩ := quietly_frame s.engine.market s.engine.nextOrderId o
  have hsub : s.submit quiet = some ⟨⟨pool, { quietly s.engine.market s.engine.nextOrderId o with
      trashQ := s.engine.market.trashQ.clear, execQ := s.engine.market.execQ.clear },
      s.engine.nextOrderId + 1, s.engine.totalOrders + 1⟩, s.log ++ [⟨quiet, true, []⟩]⟩ := by
    have hq : ((quietly s.engine.market s.engine.nextOrderId o).heap o).quantity ≠ 0 := by simp [hone]
    have hexec : (quietly s.engine.market s.engine.nextOrderId o).execQ = s.engine.market.execQ := by
      rw [hframe]
    have htrash : (quietly s.engine.market s.engine.nextOrderId o).trashQ = s.engine.market.trashQ := by
      rw [hframe]
    simp only [Session.submit, submitOrder, hacq, matchOrder_quiet h.bestAsk, Option.map_some,
      Engine.settle, Engine.clearExecutionQueue, htrash, hexec, h.trashQ, h.execQ, if_neg hq, List.foldl_nil]
  refine ⟨_, hsub, ⟨?_, ?_, ?_, ?_, rfl, rfl, ?_, ?_, ?_, ?_, ?_, ?_⟩, ?_⟩
  · exact hfree.trans h.freeIndices
  · rw [hptop, h.top]
    push_cast
    omega
  · exact hcap.trans h.capacity
  · rw [hframe]
    exact h.bestAsk
  · rw [hframe]
    exact h.totalVolume
  · exact fun hz => absurd hz (Nat.succ_ne_zero k)
  · intro _
    rw [hhead]
    by_cases hz : k = 0
    · rw [h.first hz, Option.getD_none, ← ho, hz]
      rfl
    · rw [h.head (Nat.pos_of_ne_zero hz), Option.getD_some]
  · exact fun _ => ⟨o, htail⟩
  · exact fun p hp => (congrArg PriceLevel.head (hothers p hp)).trans (h.others p hp)
  · rw [h.log, List.replicate_succ']
  · rintro rfl
    have hz : o = 0 := ho.symm.trans rfl
    subst hz
    obtain ⟨t, ht⟩ := h.tail (by decide)
    exact ⟨hnext, hone, t, (hprev 0 (h.head (by decide))).trans ht⟩

theorem after_quiet (k : Nat) (hk : k ≤ 2 ^ 32 + 1) :
    ∃ s, Session.after (2 ^ 32 + 1) (List.replicate k quiet) = some s ∧ Quiet k s := by
  induction k with
  | zero =>
      refine ⟨_, rfl, rfl, ?_, rfl, rfl, rfl, rfl, rfl, fun _ => rfl, ?_, ?_, fun _ _ => rfl, rfl⟩
      · simp only [Session.init, Engine.init, ObjectPool.init]
        omega
      · exact fun h => absurd h (Nat.lt_irrefl 0)
      · exact fun h => absurd h (Nat.lt_irrefl 0)
  | succ k ih =>
      obtain ⟨s, hr, hs⟩ := ih (by omega)
      obtain ⟨s', hr', hs', -⟩ := submit_quiet hs (by omega)
      refine ⟨s', ?_, hs'⟩
      rw [List.replicate_succ']
      exact Runs.run_concat hr hr'

/-- A pool with one object more than there are slot numbers hands out slot 0
twice. The order that rested there is gone from the book, and the head of its
level has a predecessor. -/
theorem slot_reused : ∃ s, Session.after (2 ^ 32 + 1) (List.replicate (2 ^ 32 + 1) quiet) = some s ∧
    s.log = List.replicate (2 ^ 32 + 1) ⟨quiet, true, []⟩ ∧ s.engine.market.totalVolume = 0 ∧
    (s.engine.market.book 0).head = some 0 ∧ (s.engine.market.heap 0).prevOrder ≠ none ∧
    s.engine.restingAt 0 = [0] ∧ s.engine.restingSlots = [0] ∧ (s.engine.market.heap 0).quantity = 1 := by
  obtain ⟨s, hr, hs⟩ := after_quiet (2 ^ 32) (by omega)
  obtain ⟨s', hr', hs', hlast⟩ := submit_quiet hs (Nat.le_refl _)
  obtain ⟨hnext, hone, t, ht⟩ := hlast rfl
  have hhead := hs'.head (Nat.succ_pos _)
  have hzero : s'.engine.restingAt 0 = [0] := by
    rw [Engine.restingAt, hs'.capacity, hhead, walk_single hnext]
  have hothers : ∀ p, p ≠ 0 → s'.engine.restingAt p = [] := by
    intro p hp
    rw [Engine.restingAt, hs'.others p hp, walk_none]
  refine ⟨s', ?_, hs'.log, hs'.totalVolume, hhead, by simp [ht], hzero, ?_, hone⟩
  · rw [List.replicate_succ']
    exact Runs.run_concat hr hr'
  · have hrange : List.range (maxPriceTicks + 1) = 0 :: List.range' 1 maxPriceTicks := by
      rw [List.range_eq_range', List.range'_succ]
    have hrest : (List.range' 1 maxPriceTicks).flatMap s'.engine.restingAt = [] := by
      rw [List.flatMap_eq_nil_iff]
      exact fun p hp => hothers p (by have := (List.mem_range'_1.mp hp).1; omega)
    rw [Engine.restingSlots, hrange, List.flatMap_cons, hzero, hrest, List.append_nil]

end Sequitur.SlotReuse
