import Sequitur.Sessions
import Sequitur.SlotReuse

namespace Sequitur.Conservation

open OrderBook LevelBook Abstraction Accounting SlotStack MatchingEngine EngineStep Sessions

def acceptedQuantity (log : List Entry) : Nat :=
  ((log.filter Entry.accepted).map fun x => x.call.quantity.toNat).sum

def trades (log : List Entry) : List Trade := log.flatMap Entry.trades

def totalQuantity (ts : List Trade) : Nat := (ts.map fun t => t.quantity.toNat).sum

theorem totalQuantity_append (ts us : List Trade) :
    totalQuantity (ts ++ us) = totalQuantity ts + totalQuantity us := by
  simp [totalQuantity]

theorem trades_append (log : List Entry) (x : Entry) : trades (log ++ [x]) = trades log ++ x.trades := by
  simp [trades]

theorem acceptedQuantity_append (log : List Entry) (x : Entry) :
    acceptedQuantity (log ++ [x]) =
      acceptedQuantity log + if x.accepted then x.call.quantity.toNat else 0 := by
  simp only [acceptedQuantity, List.filter_append, List.map_append, List.sum_append]
  cases hx : x.accepted <;> simp [hx]

theorem acceptedQuantity_le (log : List Entry) :
    acceptedQuantity log ≤ ((log.map Entry.call).map fun c => c.quantity.toNat).sum := by
  induction log with
  | nil => simp [acceptedQuantity]
  | cons x log ih =>
      simp only [acceptedQuantity, List.filter_cons] at ih ⊢
      split <;> simp only [List.map_cons, List.sum_cons] <;> omega

theorem length_le_totalQuantity {ts : List Trade} (h : ∀ t ∈ ts, 0 < t.quantity) :
    ts.length ≤ totalQuantity ts := by
  induction ts with
  | nil => simp
  | cons t ts ih =>
      have ht := UInt32.lt_iff_toNat_lt.mp (h t List.mem_cons_self)
      have hts := ih fun u hu => h u (List.mem_cons_of_mem _ hu)
      simp only [totalQuantity, List.map_cons, List.sum_cons, List.length_cons, UInt32.toNat_zero] at *
      omega

theorem trade_quantity {fs : List Fill} (h : tradedQuantity fs < 2 ^ 32) (t : UInt32) :
    ∀ f ∈ fs, (f.trade t).quantity.toNat = f.quantity := by
  intro f hf
  have hle : f.quantity ≤ tradedQuantity fs := List.le_sum_of_mem (List.mem_map_of_mem hf)
  exact UInt32.toNat_ofNat_of_lt' (Nat.lt_of_le_of_lt hle h)

theorem totalQuantity_trades {fs : List Fill} (h : tradedQuantity fs < 2 ^ 32) (t : UInt32) :
    totalQuantity (fs.map fun f => f.trade t) = tradedQuantity fs := by
  rw [totalQuantity, List.map_map, tradedQuantity]
  exact congrArg List.sum (List.map_congr_left (trade_quantity h t))

structure Balanced (s : Session) (a : Levels) : Prop where
  accepted : acceptedQuantity s.log = 2 * totalQuantity (trades s.log) + volume (restingIn a)
  totalVolume : s.engine.market.totalVolume = UInt64.ofNat (totalQuantity (trades s.log))
  totalTrades : s.engine.market.totalTrades = UInt64.ofNat (trades s.log).length
  positive : ∀ t ∈ trades s.log, 0 < t.quantity

theorem init_balanced (n : Nat) : Balanced (.init n) .empty where
  accepted := by rw [restingIn_empty]; rfl
  totalVolume := rfl
  totalTrades := rfl
  positive := by simp [trades, Session.init]

theorem matched_small {c : Call} {a a' : Levels} {left : Nat} {fs : List Fill}
    (h : Matched c.price.toNat c.side a c.quantity.toNat a' left fs) : tradedQuantity fs < 2 ^ 32 := by
  have hq := matched_quantity h
  have := c.quantity.toNat_lt
  omega

theorem submitted_balanced {n : Nat} {s s' : Session} {c : Call} {a a' : Levels} (hr : Ready n s a)
    (hc : c.price.toNat ≤ maxPriceTicks) (h : Balanced s a) (hs : Submitted n s c a s' a') :
    Balanced s' a' := by
  cases hs with
  | rejected hl =>
      refine ⟨?_, ?_, ?_, ?_⟩
      · rw [acceptedQuantity_append, trades_append, h.accepted, List.append_nil, if_neg Bool.false_ne_true,
          Nat.add_zero]
      · rw [trades_append, List.append_nil]
        exact h.totalVolume
      · rw [trades_append, List.append_nil]
        exact h.totalTrades
      · rw [trades_append, List.append_nil]
        exact h.positive
  | @accepted e' slot b left fs hl ha =>
      have hsmall := matched_small ha.matched
      have hq := matched_quantity ha.matched
      have hv := matched_volume ha.matched hr.bounded
      refine ⟨?_, ?_, ?_, ?_⟩
      · rw [acceptedQuantity_append, trades_append, totalQuantity_append, h.accepted,
          totalQuantity_trades hsmall, restResidue_volume hc]
        simp only [if_pos]
        omega
      · rw [trades_append, totalQuantity_append, totalQuantity_trades hsmall, UInt64.ofNat_add, ← h.totalVolume]
        exact ha.totalVolume
      · rw [trades_append, List.length_append, List.length_map, UInt64.ofNat_add, ← h.totalTrades]
        exact ha.totalTrades
      · rw [trades_append]
        intro t ht
        rcases List.mem_append.mp ht with ht | ht
        · exact h.positive t ht
        · obtain ⟨f, hf, rfl⟩ := List.mem_map.mp ht
          rw [UInt32.lt_iff_toNat_lt, trade_quantity hsmall c.traderId f hf]
          exact matched_fill_pos ha.matched hr.positive f hf

theorem after_log {n : Nat} {calls : List Call} {s : Session} (h : Session.after n calls = some s) :
    s.log.map Entry.call = calls := by
  have hstep : ∀ (t : Session) (c : Call) (t' : Session), t.submit c = some t' →
      t'.log.map Entry.call = t.log.map Entry.call ++ [c] := by
    intro t c t' ht
    obtain ⟨r, -, rfl⟩ := Option.map_eq_some_iff.mp ht
    simp
  exact Runs.run_log hstep h

theorem accepted_rest {n : Nat} {e e' : Engine} {c : Call} {a a' : Levels} {slot left : Nat} {fs : List Fill}
    (hc : Consistent n e a) (h : Accepted e c a e' slot a' left fs)
    (hc' : Consistent n e' (restResidue a' c.price.toNat (ofCall c slot e.nextOrderId) left))
    (hp : c.price.toNat ≤ maxPriceTicks) :
    (if slot ∈ e'.restingSlots then (e'.market.heap slot).quantity.toNat else 0) = left := by
  have hgone : slot ∉ slots (restingIn a') := by
    intro hs
    have ha := (matched_slots h.matched hc.bounded).mem_iff.mpr (List.mem_append_right (filled fs) hs)
    exact (unlinked_iff hc.bounded).mp h.unlinked ha
  have hmem : slot ∈ e'.restingSlots ↔ 0 < left := by
    rw [restingSlots_eq hc', (restResidue_slots hp _ _).mem_iff, List.mem_append]
    split <;> simp_all [ofCall]
  by_cases hl : 0 < left
  · rw [if_pos (hmem.mpr hl)]
    have hr : { ofCall c slot e.nextOrderId with quantity := left } ∈
        (restResidue a' c.price.toNat (ofCall c slot e.nextOrderId) left).levels c.price.toNat := by
      rw [restResidue, if_pos hl, Levels.enqueue_levels, Function.update_self]
      exact List.mem_append_right _ (List.mem_singleton_self _)
    exact (hc'.market.data _ _ hr).quantity
  · rw [if_neg (mt hmem.mp hl)]
    omega

/-- Over a whole session the accepted quantities are what was traded, counted
for the maker and for the taker, plus what rests. A call that is accepted next
splits its own quantity into its trades and its rest. -/
theorem quantity_conserved {n : Nat} (hn : n ≤ 2 ^ 32) (calls : List Call)
    (hc : ∀ c ∈ calls, c.price.toNat ≤ maxPriceTicks)
    (hsum : (calls.map fun c => c.quantity.toNat).sum < 2 ^ 64) :
    ∃ s, Session.after n calls = some s ∧ s.log.map Entry.call = calls ∧
      acceptedQuantity s.log = 2 * s.engine.market.totalVolume.toNat +
        (s.engine.restingOrders.map fun x => x.quantity.toNat).sum ∧
      s.engine.market.totalVolume.toNat = totalQuantity (trades s.log) ∧
      s.engine.market.totalTrades.toNat = (trades s.log).length ∧
      (∀ t ∈ trades s.log, 0 < t.quantity) ∧
      ∀ c e, c.price.toNat ≤ maxPriceTicks → submitOrder s.engine c = some (e, true) →
        ∃ x, s.engine.pool.acquire.2 = some x ∧ x ∉ s.engine.restingSlots ∧
          c.quantity.toNat = totalQuantity e.market.execQ.items +
            if x ∈ e.restingSlots then (e.market.heap x).quantity.toNat else 0 := by
  obtain ⟨s, a, hs, hr, hb⟩ := after_induction hn (fun _ hc => hc) (init_balanced n)
    (fun _ _ _ _ _ hr hc hi hs => submitted_balanced hr hc hi hs) hc
  have hcons := hr.toConsistent
  have hlog := after_log hs
  have hle := acceptedQuantity_le s.log
  have hacc := hb.accepted
  rw [hlog] at hle
  have hvolume : s.engine.market.totalVolume.toNat = totalQuantity (trades s.log) := by
    rw [hb.totalVolume, UInt64.toNat_ofNat_of_lt' (by simp only [UInt64.size]; omega)]
  have hcount := length_le_totalQuantity hb.positive
  refine ⟨s, hs, hlog, ?_, hvolume, ?_, hb.positive, ?_⟩
  · rw [hvolume, hacc, restingOrders_eq hcons _ Resting.quantity fun p r x hx => hx.quantity]
    rfl
  · rw [hb.totalTrades, UInt64.toNat_ofNat_of_lt' (by simp only [UInt64.size]; omega)]
  · intro c e hp he
    have hl : (restingIn a).length ≠ n := by
      intro hl
      obtain ⟨hrej, -⟩ := submitOrder_rejects hcons c hl
      simp [hrej] at he
    obtain ⟨e', slot, a', left, fs, hsub, ha, hc'⟩ :=
      submitOrder_accepts hcons c (Nat.lt_of_le_of_ne hcons.length_le hl)
    obtain rfl : e' = e := by simpa [hsub] using he
    refine ⟨slot, ha.acquired, ?_, ?_⟩
    · rw [restingSlots_eq hcons]
      exact (unlinked_iff hcons.bounded).mp ha.unlinked
    · rw [accepted_rest hcons ha (hc' fun _ => hp) hp, ha.execQ, FixedQueue.pushAll_items, hr.execQ,
        List.nil_append, totalQuantity_trades (matched_small ha.matched), Nat.add_comm]
      exact (matched_quantity ha.matched).symm

theorem quantity_conserved_partial_fill :
    ∃ s, Session.after 3 [⟨0, 5, 100, 1⟩, ⟨1, 5, 40, 2⟩] = some s ∧
      acceptedQuantity s.log = 2 * s.engine.market.totalVolume.toNat +
        (s.engine.restingOrders.map fun x => x.quantity.toNat).sum := by
  obtain ⟨s, hs, -, h, -⟩ := quantity_conserved (by decide : 3 ≤ 2 ^ 32)
    [⟨0, 5, 100, 1⟩, ⟨1, 5, 40, 2⟩] (by decide +kernel) (by decide)
  exact ⟨s, hs, h⟩

theorem acceptedQuantity_quiet (k : Nat) :
    acceptedQuantity (List.replicate k ⟨SlotReuse.quiet, true, []⟩) = k := by
  induction k with
  | zero => rfl
  | succ k ih =>
      rw [List.replicate_succ', acceptedQuantity_append, ih]
      rfl

theorem restingOrders_nil {e : Engine} (h : e.pool.capacity = 0) : e.restingOrders = [] := by
  have hat : ∀ p, e.restingAt p = [] := fun p => by rw [Engine.restingAt, h]; rfl
  rw [Engine.restingOrders, Engine.restingSlots, List.flatMap_eq_nil_iff.mpr fun p _ => hat p, List.map_nil]

/-- A call that the pool turns away neither trades nor rests, and a pool with
more objects than slot numbers loses what rested in a slot used twice. -/
theorem quantity_not_conserved :
    (∃ s, Session.after 0 [⟨0, 5, 10, 1⟩] = some s ∧ s.log = [⟨⟨0, 5, 10, 1⟩, false, []⟩] ∧
      10 ≠ totalQuantity (trades s.log) + (s.engine.restingOrders.map fun x => x.quantity.toNat).sum) ∧
    ∃ s, Session.after (2 ^ 32 + 1) (List.replicate (2 ^ 32 + 1) SlotReuse.quiet) = some s ∧
      acceptedQuantity s.log ≠ 2 * s.engine.market.totalVolume.toNat +
        (s.engine.restingOrders.map fun x => x.quantity.toNat).sum := by
  refine ⟨?_, ?_⟩
  · obtain ⟨s, hs, hlog, hcap⟩ : ∃ s, Session.after 0 [⟨0, 5, 10, 1⟩] = some s ∧
        s.log = [⟨⟨0, 5, 10, 1⟩, false, []⟩] ∧ s.engine.pool.capacity = 0 := ⟨_, rfl, rfl, rfl⟩
    refine ⟨s, hs, hlog, ?_⟩
    rw [restingOrders_nil hcap, hlog]
    decide
  · obtain ⟨s, hs, hlog, hv, -, -, -, hslots, hq⟩ := SlotReuse.slot_reused
    refine ⟨s, hs, ?_⟩
    rw [hlog, acceptedQuantity_quiet, hv, Engine.restingOrders, hslots, List.map_singleton, List.map_singleton,
      List.sum_singleton, hq]
    decide

end Sequitur.Conservation
