import Sequitur.EngineStep

namespace Sequitur.Sessions

open OrderBook LevelBook Abstraction Accounting SlotStack MatchingEngine EngineStep

structure Ready (n : Nat) (s : Session) (a : Levels) : Prop extends Consistent n s.engine a where
  execQ : s.engine.market.execQ.items = []

/-- The calls that got a slot, in order: the order of the `i`-th has got the
id `i + 1`. -/
def acceptedCalls (log : List Entry) : List Call := (log.filter Entry.accepted).map Entry.call

theorem acceptedCalls_append (log : List Entry) (x : Entry) :
    acceptedCalls (log ++ [x]) = acceptedCalls log ++ if x.accepted then [x.call] else [] := by
  cases hx : x.accepted <;> simp [acceptedCalls, hx]

/-- What a call can do to a session that stands for the level book `a`. -/
inductive Submitted (n : Nat) (s : Session) (c : Call) (a : Levels) : Session → Levels → Prop
  | rejected (hl : (restingIn a).length = n) :
      Submitted n s c a
        ⟨{ s.engine with pool := s.engine.pool.failed 1 }.clearExecutionQueue, s.log ++ [⟨c, false, []⟩]⟩ a
  | accepted {e' : Engine} {slot : Nat} {a' : Levels} {left : Nat} {fs : List Fill}
      (hl : (restingIn a).length < n) (h : Accepted s.engine c a e' slot a' left fs) :
      Submitted n s c a
        ⟨e'.clearExecutionQueue, s.log ++ [⟨c, true, fs.map fun f => f.trade c.traderId⟩]⟩
        (restResidue a' c.price.toNat (ofCall c slot s.engine.nextOrderId) left)

theorem consistent_clear {n : Nat} {e : Engine} {a : Levels} (h : Consistent n e a) :
    Consistent n e.clearExecutionQueue a :=
  ⟨h.pool, ⟨h.market.links, h.market.data, h.market.volume, h.market.bestBid, h.market.bestAsk⟩,
    h.positive, h.bounded, h.trash⟩

theorem price_le_of_bounded {a : Levels} {p : Nat} {r : Resting} {left : Nat}
    (h : Bounded (restResidue a p r left)) (hl : 0 < left) : p ≤ maxPriceTicks := by
  refine Nat.le_of_not_lt fun hp => ?_
  have hn := h.levels p hp
  rw [restResidue, if_pos hl, Levels.enqueue_levels, Function.update_self] at hn
  simp at hn

theorem submit_steps {n : Nat} {s : Session} {a : Levels} (h : Ready n s a) (c : Call) :
    ∃ s' a', s.submit c = some s' ∧ Submitted n s c a s' a' ∧ (Bounded a' → Ready n s' a') := by
  by_cases hl : (restingIn a).length = n
  · obtain ⟨hr, hc⟩ := submitOrder_rejects h.toConsistent c hl
    refine ⟨_, a, ?_, .rejected hl, fun _ => ⟨consistent_clear hc, rfl⟩⟩
    simp only [Session.submit, hr, Option.map_some, h.execQ]
  · obtain ⟨e', slot, a', left, fs, hr, ha, hc⟩ :=
      submitOrder_accepts h.toConsistent c (Nat.lt_of_le_of_ne h.length_le hl)
    refine ⟨_, _, ?_, .accepted (Nat.lt_of_le_of_ne h.length_le hl) ha, fun hb => ?_⟩
    · simp only [Session.submit, hr, Option.map_some, ha.execQ, FixedQueue.pushAll_items, h.execQ,
        List.nil_append]
    · exact ⟨consistent_clear (hc (price_le_of_bounded hb)), rfl⟩

theorem Submitted.bounded {n : Nat} {s s' : Session} {c : Call} {a a' : Levels}
    (h : Submitted n s c a s' a') (hb : Bounded a) (hc : c.price.toNat ≤ maxPriceTicks) : Bounded a' := by
  cases h with
  | rejected => exact hb
  | accepted hl h => exact restResidue_bounded (matched_bounded h.matched hb) hc _ _

theorem init_ready {n : Nat} (hn : n ≤ 2 ^ 32) : Ready n (.init n) .empty :=
  ⟨init_consistent hn, rfl⟩

/-- Induction over a whole session: a property of sessions and level books
that every call keeps holds after any calls, and no call is without result. -/
theorem after_induction {n : Nat} (hn : n ≤ 2 ^ 32) {Inv : Session → Levels → Prop} {ok : Call → Prop}
    (hok : ∀ c, ok c → c.price.toNat ≤ maxPriceTicks) (hinit : Inv (.init n) .empty)
    (hstep : ∀ s a c s' a', Ready n s a → ok c → Inv s a → Submitted n s c a s' a' → Inv s' a')
    {calls : List Call} (hc : ∀ c ∈ calls, ok c) :
    ∃ s a, Session.after n calls = some s ∧ Ready n s a ∧ Inv s a := by
  have hrun : ∀ s c, (∃ a, Ready n s a ∧ Inv s a) → ok c →
      ∃ s', s.submit c = some s' ∧ ∃ a, Ready n s' a ∧ Inv s' a := by
    rintro s c ⟨a, ha, hi⟩ hoc
    obtain ⟨s', a', hr, hs, hready⟩ := submit_steps ha c
    exact ⟨s', hr, a', hready (hs.bounded ha.bounded (hok c hoc)), hstep s a c s' a' ha hoc hi hs⟩
  have hcalls : Runs.Along Session.submit (fun _ c => ok c) (.init n) calls :=
    .of_forall fun c hm _ => hc c hm
  obtain ⟨s, hr, a, ha, hi⟩ := Runs.run_total hrun ⟨.empty, init_ready hn, hinit⟩ hcalls
  exact ⟨s, a, hr, ha, hi⟩

theorem after_ready {n : Nat} (hn : n ≤ 2 ^ 32) {calls : List Call}
    (hc : ∀ c ∈ calls, c.price.toNat ≤ maxPriceTicks) :
    ∃ s a, Session.after n calls = some s ∧ Ready n s a := by
  have hinv : ∀ (s : Session) (a : Levels) (c : Call) (s' : Session) (a' : Levels), Ready n s a →
      c.price.toNat ≤ maxPriceTicks → True → Submitted n s c a s' a' → True := by simp
  obtain ⟨s, a, hs, ha, -⟩ := after_induction hn (fun _ hc => hc) trivial hinv hc
  exact ⟨s, a, hs, ha⟩

section Reading

variable {n : Nat} {e : Engine} {a : Levels} (h : Consistent n e a)

include h

theorem restingAt_eq (p : Nat) : e.restingAt p = slots (a.levels p) := by
  refine h.market.links.walk_eq (i := p) ?_
  have hle := h.length_le
  rw [h.pool.capacity, slots, List.length_map]
  by_cases hp : p ≤ maxPriceTicks
  · obtain ⟨xs, ys, ha, -⟩ := restingIn_set (a := a) hp
    simp only [ha, List.length_append] at hle
    omega
  · rw [h.bounded.levels p (by omega)]
    exact Nat.zero_le _

theorem restingSlots_eq : e.restingSlots = slots (restingIn a) := by
  rw [slots, restingIn, Families.map_flatten, Engine.restingSlots]
  exact Families.flatten_congr fun p _ => restingAt_eq h p

theorem restingOrders_eq {α : Type} (f : Order → α) (g : Resting → α)
    (hfg : ∀ p r x, Shows x p r → f x = g r) : e.restingOrders.map f = (restingIn a).map g := by
  rw [Engine.restingOrders, restingSlots_eq h, slots, List.map_map, List.map_map]
  refine List.map_congr_left fun r hr => ?_
  obtain ⟨p, hp⟩ := (mem_restingIn h.bounded).mp hr
  exact hfg p r _ (h.market.data p r hp)

end Reading

end Sequitur.Sessions
