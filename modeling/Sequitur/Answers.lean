import Sequitur.PriceBounds
import Sequitur.QueueBounds

namespace Sequitur.Answers

open OrderBook LevelBook Abstraction Simulation Accounting MatchingEngine EngineStep Sessions Marketable QueueBounds
  Protocol CoreLoop

def tradeOf (g : Order × Order) : Trade :=
  ⟨g.1.traderId.toUInt64, g.2.traderId.toUInt64, g.1.price, min g.2.quantity g.1.quantity⟩

section Trades

/-- All that `m'` has traded since `m` was against the order in slot `inc`:
`exec_q` got one trade for each fill. -/
def Trades (inc : Nat) (m m' : Market) (gs : List (Order × Order)) : Prop :=
  m'.fills = m.fills ++ gs ∧ m'.execQ.items = m.execQ.items ++ gs.map tradeOf ∧
    (m'.heap inc).traderId = (m.heap inc).traderId ∧ ∀ g ∈ gs, g.2.traderId = (m.heap inc).traderId

variable {inc : Nat} {m m' m'' : Market} {gs gs' : List (Order × Order)}

theorem Trades.refl (inc : Nat) (m : Market) : Trades inc m m [] := by simp [Trades]

theorem Trades.trans (h : Trades inc m m' gs) (h' : Trades inc m' m'' gs') : Trades inc m m'' (gs ++ gs') := by
  obtain ⟨hf, hq, hid, htaker⟩ := h
  obtain ⟨hf', hq', hid', htaker'⟩ := h'
  refine ⟨by rw [hf', hf, List.append_assoc], ?_, hid'.trans hid, List.forall_mem_append.mpr ⟨htaker, ?_⟩⟩
  · rw [hq', hq, List.map_append, List.append_assoc]
  · exact fun g hg => (htaker' g hg).trans hid

theorem Trades.of_frame (hf : m'.fills = m.fills) (hq : m'.execQ = m.execQ)
    (hid : (m'.heap inc).traderId = (m.heap inc).traderId) : Trades inc m m' [] :=
  ⟨by rw [hf, List.append_nil], by rw [hq, List.map_nil, List.append_nil], hid, by simp⟩

theorem traderId_setOrder (m : Market) (o s : Nat) (f : Order → Order) (hf : ∀ x, (f x).traderId = x.traderId) :
    ((m.setOrder o f).heap s).traderId = (m.heap s).traderId := by
  rw [Market.setOrder]
  by_cases hs : s = o
  · subst hs
    simpa using hf _
  · simp [Function.update_of_ne hs]

theorem fill_trades (m : Market) (p inc o : Nat) :
    Trades inc m (m.fill p inc o) [(m.heap o, m.heap inc)] := by
  have ht : Trades inc m (traded m p inc o) [(m.heap o, m.heap inc)] := by
    refine ⟨rfl, rfl, ?_, by simp⟩
    simp only [traded, Market.setLevel_heap]
    rw [traderId_setOrder _ _ _ _ (by intro x; rfl), traderId_setOrder _ _ _ _ (by intro x; rfl)]
  rw [fill_eq]
  split
  · have hb := congrArg Order.traderId
      (bare_removeOrder { traded m p inc o with trashQ := m.trashQ.push o } o inc)
    obtain ⟨hf, hq, hid, htaker⟩ := ht
    rw [removeOrder_frame]
    exact ⟨hf, hq, hb.trans hid, htaker⟩
  · exact ht

theorem sweep_trades {d : Sweep} {fuel : Nat} (h : sweep d inc fuel m = some m') : ∃ gs, Trades inc m m' gs := by
  induction fuel generalizing m with
  | zero => simp [sweep] at h
  | succ fuel ih =>
      have htouch : Trades inc m (m.touch (d.cursor m).toNat) [] := .of_frame rfl rfl rfl
      have hadvance (n : Market) : Trades inc n (d.advance n) [] := by cases d <;> exact .of_frame rfl rfl rfl
      rw [sweep] at h
      split at h
      · dsimp only at h
        split at h
        · split at h
          · exact ⟨[], Option.some.inj h ▸ htouch⟩
          · obtain ⟨gs, hgs⟩ := ih h
            exact ⟨_, htouch.trans ((hadvance _).trans hgs)⟩
        · obtain ⟨gs, hgs⟩ := ih h
          exact ⟨_, htouch.trans ((fill_trades _ _ _ _).trans hgs)⟩
      · exact ⟨[], Option.some.inj h ▸ .refl inc m⟩

theorem matchOrder_trades (h : matchOrder m inc = some m') : ∃ gs, Trades inc m m' gs := by
  obtain ⟨n, hn, hm⟩ := Option.map_eq_some_iff.mp h
  have hloop : ∃ gs, Trades inc m n gs := by
    simp only [matchLoop] at hn
    split at hn
    · exact sweep_trades hn
    · split at hn
      · exact sweep_trades hn
      · exact ⟨[], Option.some.inj hn ▸ .refl inc m⟩
  obtain ⟨gs, hgs⟩ := hloop
  split at hm
  · have hb := congrArg Order.traderId (bare_inserted n inc inc)
    subst hm
    rw [insertOrder_frame]
    exact ⟨_, hgs.trans (.of_frame rfl rfl hb)⟩
  · exact ⟨gs, hm ▸ hgs⟩

theorem submitOrder_trades {e e' : Engine} {c : Call} {ok : Bool} (h : submitOrder e c = some (e', ok)) :
    (ok = true ↔ 0 ≤ e.pool.top) ∧
      ∃ gs, e'.market.fills = e.market.fills ++ gs ∧
        e'.market.execQ.items = e.market.execQ.items ++ gs.map tradeOf ∧
        (∀ g ∈ gs, g.2.traderId = c.traderId) ∧ (ok = false → gs = []) := by
  by_cases htop : e.pool.top < 0
  · have hacq : e.pool.acquire.2 = none := by rw [ObjectPool.acquire, if_pos htop]
    rw [submitOrder] at h
    split at h
    next =>
      obtain ⟨rfl, rfl⟩ := Prod.mk.inj (Option.some.inj h)
      exact ⟨by simpa using htop, [], by simp⟩
    next order he =>
      rw [he] at hacq
      simp at hacq
  · have hacq : e.pool.acquire.2 ≠ none := by rw [ObjectPool.acquire, if_neg htop]; simp
    rw [submitOrder] at h
    split at h
    next he =>
      rw [he] at hacq
      exact absurd rfl hacq
    next pool order he =>
      obtain ⟨m, hm, hr⟩ := Option.map_eq_some_iff.mp h
      obtain ⟨rfl, rfl⟩ := Prod.mk.inj hr
      obtain ⟨gs, hf, hq, -, htaker⟩ := matchOrder_trades hm
      refine ⟨by simpa using htop, gs, hf, hq, fun g hg => (htaker g hg).trans ?_, by simp⟩
      simp [Market.setOrder, Call.order]

end Trades

/-- A packet with the reports that the core pushes for it and the two orders
of every trade that it makes. -/
structure Answer where
  packet : IngressPacket
  reports : List EgressPacket
  fills : List (Order × Order)
  deriving DecidableEq

structure Journal where
  core : Core
  answers : List Answer

def Journal.init : Journal := ⟨.init, []⟩

def Journal.consume (j : Journal) (packet : IngressPacket) : Option Journal :=
  (j.core.consume packet).map fun c =>
    ⟨c, j.answers ++ [⟨packet, c.pushed.drop j.core.pushed.length,
      c.engine.market.fills.drop j.core.engine.market.fills.length⟩]⟩

def Journal.after (packets : List IngressPacket) : Option Journal := Runs.run Journal.consume .init packets

/-- The three kinds of answers to a packet that finds the engine `e`. -/
inductive Answered (e : Engine) (packet : IngressPacket) : Answer → Prop
  | rejected (h : packet.type = newOrder → e.pool.top < 0) :
      Answered e packet ⟨packet, [rejectPacket (process packet) packet.price packet.quantity], []⟩
  | accepted (ht : packet.type = newOrder) (htop : 0 ≤ e.pool.top) :
      Answered e packet ⟨packet, [reportPacket (process packet) packet.price packet.quantity], []⟩
  | filled {gs : List (Order × Order)} (ht : packet.type = newOrder) (htop : 0 ≤ e.pool.top) (hgs : gs ≠ [])
      (htaker : ∀ g ∈ gs, g.2.traderId = packet.traderId) :
      Answered e packet ⟨packet, gs.map fun g => fillPacket (process packet) (tradeOf g), gs⟩

section Consume

variable {j j' : Journal} {packet : IngressPacket}

theorem consume_of_core {c : Core} {reports : List EgressPacket} {fills : List (Order × Order)}
    (h : j.core.consume packet = some c) (hp : c.pushed = j.core.pushed ++ reports)
    (hf : c.engine.market.fills = j.core.engine.market.fills ++ fills) :
    j.consume packet = some ⟨c, j.answers ++ [⟨packet, reports, fills⟩]⟩ := by
  rw [Journal.consume, h, Option.map_some, hp, hf, List.drop_left, List.drop_left]

theorem consume_answers (hq : j.core.engine.market.execQ.items = []) (h : j.consume packet = some j') :
    ∃ x, j'.answers = j.answers ++ [x] ∧ Answered j.core.engine packet x ∧
      j'.core.pushed = j.core.pushed ++ x.reports ∧ j'.core.engine.market.execQ.items = [] := by
  obtain ⟨c, hc, rfl⟩ := Option.map_eq_some_iff.mp h
  obtain ⟨⟨e, ok⟩, hr, rfl⟩ := Option.map_eq_some_iff.mp hc
  refine ⟨_, rfl, ?_, by simp, rfl⟩
  simp only [List.drop_left]
  by_cases ht : packet.type = newOrder
  · rw [submit, if_pos ht] at hr
    obtain ⟨hok, gs, hf, he, htaker, hnone⟩ := submitOrder_trades hr
    rw [hq, List.nil_append] at he
    have hfills : e.clearExecutionQueue.market.fills = j.core.engine.market.fills ++ gs := hf
    rw [hfills, List.drop_left, he]
    cases ok with
    | false =>
        rw [hnone rfl]
        exact .rejected fun _ => Int.not_le.mp fun h => Bool.false_ne_true (hok.mpr h)
    | true =>
        have htop := hok.mp rfl
        by_cases hgs : gs = []
        · subst hgs
          exact .accepted ht htop
        · have hne : gs.map tradeOf ≠ [] := mt List.map_eq_nil_iff.mp hgs
          simp only [reports, if_true, if_neg hne, List.map_map]
          exact .filled ht htop hgs htaker
  · rw [submit, if_neg ht] at hr
    obtain ⟨rfl, rfl⟩ := Prod.mk.inj (Option.some.inj hr)
    have hfills : j.core.engine.clearExecutionQueue.market.fills = j.core.engine.market.fills := rfl
    rw [hfills, List.drop_length]
    exact .rejected fun h => absurd h ht

theorem after_packets {packets : List IngressPacket} (h : Journal.after packets = some j) :
    j.answers.map Answer.packet = packets := by
  have hstep : ∀ (t : Journal) (p : IngressPacket) (t' : Journal), t.consume p = some t' →
      t'.answers.map Answer.packet = t.answers.map Answer.packet ++ [p] := by
    intro t p t' ht
    obtain ⟨c, -, rfl⟩ := Option.map_eq_some_iff.mp ht
    simp
  exact Runs.run_log hstep h

structure Recorded (j : Journal) : Prop where
  execQ : j.core.engine.market.execQ.items = []
  answers : ∀ x ∈ j.answers, ∃ e, Answered e x.packet x

theorem consume_recorded (hj : Recorded j) (h : j.consume packet = some j') : Recorded j' := by
  obtain ⟨x, hx, ha, -, hq⟩ := consume_answers hj.execQ h
  refine ⟨hq, ?_⟩
  rw [hx, List.forall_mem_append, List.forall_mem_singleton]
  have hp : x.packet = packet := by cases ha <;> rfl
  exact ⟨hj.answers, _, hp.symm ▸ ha⟩

end Consume

section Levels

inductive Consumed (a : Levels) (packet : IngressPacket) : Answer → Levels → Prop
  | rejected (h : packet.type = newOrder → (restingIn a).length = 1000000) :
      Consumed a packet ⟨packet, [rejectPacket (process packet) packet.price packet.quantity], []⟩ a
  | accepted {slot : Nat} {id : UInt64} {a' : Levels} {left : Nat} {fs : List Fill} {gs : List (Order × Order)}
      (ht : packet.type = newOrder) (hl : (restingIn a).length < 1000000)
      (hm : Matched packet.price.toNat packet.side a packet.quantity.toNat a' left fs)
      (htrades : gs.map tradeOf = fs.map fun f => f.trade packet.traderId)
      (hsides : gs.map (fun g => (g.1.side, g.2.side)) = fs.map fun f => (f.maker.side, packet.side)) :
      Consumed a packet
        ⟨packet, reports (process packet) true (gs.map tradeOf) packet.price packet.quantity, gs⟩
        (restResidue a' packet.price.toNat (ofCall (call packet (process packet)) slot id) left)

def Stands (j : Journal) (a : Levels) : Prop := Ready 1000000 ⟨j.core.engine, []⟩ a

theorem init_stands : Stands .init .empty := init_ready (by decide)

variable {j : Journal} {a : Levels} {packet : IngressPacket}

theorem consume_levels (h : Stands j a) (hp : packet.price.toNat ≤ maxPriceTicks) :
    ∃ j' x a', j.consume packet = some j' ∧ j'.answers = j.answers ++ [x] ∧
      j'.core.pushed = j.core.pushed ++ x.reports ∧ Consumed a packet x a' ∧ Stands j' a' := by
  by_cases ht : packet.type = newOrder
  · by_cases hl : (restingIn a).length = 1000000
    · obtain ⟨hr, hc⟩ := submitOrder_rejects h.toConsistent (call packet (process packet)) hl
      have hcons : j.core.consume packet = some
          ⟨{ j.core.engine with pool := j.core.engine.pool.failed 1 }.clearExecutionQueue,
            j.core.pushed ++ [rejectPacket (process packet) packet.price packet.quantity]⟩ := by
        rw [Core.consume, submit, if_pos ht, hr]
        rfl
      exact ⟨_, _, a, consume_of_core hcons rfl (List.append_nil _).symm, rfl, rfl, .rejected fun _ => hl,
        ⟨consistent_clear hc, rfl⟩⟩
    · have hlt := Nat.lt_of_le_of_ne h.length_le hl
      obtain ⟨e, slot, a', left, fs, hr, ha, hc⟩ :=
        submitOrder_accepts h.toConsistent (call packet (process packet)) hlt
      obtain ⟨-, gs, hf, hq, -, -⟩ := submitOrder_trades hr
      obtain ⟨gs', hf', hsides⟩ := ha.fills
      obtain rfl : gs = gs' := List.append_cancel_left (hf.symm.trans hf')
      rw [h.execQ, List.nil_append] at hq
      have htrades : gs.map tradeOf = fs.map fun f => f.trade packet.traderId := by
        rw [← hq, ha.execQ, FixedQueue.pushAll_items, h.execQ]
        rfl
      have hcons : j.core.consume packet = some ⟨e.clearExecutionQueue,
          j.core.pushed ++ reports (process packet) true (gs.map tradeOf) packet.price packet.quantity⟩ := by
        rw [Core.consume, submit, if_pos ht, hr, ← hq]
        rfl
      exact ⟨_, _, _, consume_of_core hcons rfl hf, rfl, rfl, .accepted ht hlt ha.matched htrades hsides,
        ⟨consistent_clear (hc fun _ => hp), rfl⟩⟩
  · have hcons : j.core.consume packet = some ⟨j.core.engine.clearExecutionQueue,
        j.core.pushed ++ [rejectPacket (process packet) packet.price packet.quantity]⟩ := by
      rw [Core.consume, submit, if_neg ht]
      rfl
    exact ⟨_, _, a, consume_of_core hcons rfl (List.append_nil _).symm, rfl, rfl, .rejected fun h => absurd h ht,
      ⟨consistent_clear h.toConsistent, rfl⟩⟩

/-- Induction over the packets of a run: what every iteration keeps of a
journal and its level book holds at the end. -/
theorem after_induction {Inv : Journal → Levels → Prop} (hinit : Inv .init .empty)
    (hstep : ∀ j a p j' x a', Inv j a → j'.answers = j.answers ++ [x] → Consumed a p x a' → Inv j' a')
    {packets : List IngressPacket} (hp : ∀ p ∈ packets, p.price.toNat ≤ maxPriceTicks) :
    ∃ j a, Journal.after packets = some j ∧ Stands j a ∧ Inv j a := by
  have hrun : ∀ j p, (∃ a, Stands j a ∧ Inv j a) → p.price.toNat ≤ maxPriceTicks →
      ∃ j', j.consume p = some j' ∧ ∃ a, Stands j' a ∧ Inv j' a := by
    rintro j p ⟨a, ha, hi⟩ hprice
    obtain ⟨j', x, a', hj, hx, -, hc, ha'⟩ := consume_levels ha hprice
    exact ⟨j', hj, a', ha', hstep j a p j' x a' hi hx hc⟩
  have hpackets : Runs.Along Journal.consume (fun _ p => p.price.toNat ≤ maxPriceTicks) .init packets :=
    .of_forall fun p hm _ => hp p hm
  obtain ⟨j, hr, a, ha, hi⟩ := Runs.run_total hrun ⟨.empty, init_stands, hinit⟩ hpackets
  exact ⟨j, a, hr, ha, hi⟩

variable {x : Answer} {a' : Levels}

theorem Consumed.packet_eq (h : Consumed a packet x a') : x.packet = packet := by cases h <;> rfl

theorem Consumed.resting {Q : UInt8 → UInt32 → Prop} (h : Consumed a packet x a')
    (ha : ∀ p, ∀ r ∈ a.levels p, Q r.side r.traderId)
    (hq : packet.type = newOrder → (restingIn a).length < 1000000 → 0 < packet.quantity.toNat →
      Q packet.side packet.traderId) : ∀ p, ∀ r ∈ a'.levels p, Q r.side r.traderId := by
  cases h with
  | rejected => exact ha
  | accepted ht hl hm =>
      intro p r hr
      rw [restResidue] at hr
      split at hr
      next hpos =>
        rcases Levels.mem_enqueue.mp hr with hr | ⟨-, rfl⟩
        · obtain ⟨r₀, hr₀, hleaves⟩ := hm.mem hr
          rw [hleaves.2.2.1, hleaves.2.2.2.1]
          exact ha p r₀ hr₀
        · have hsum := matched_quantity hm
          exact hq ht hl (by omega)
      next =>
        obtain ⟨r₀, hr₀, hleaves⟩ := hm.mem hr
        rw [hleaves.2.2.1, hleaves.2.2.2.1]
        exact ha p r₀ hr₀

theorem Consumed.makers {Q : UInt32 → Prop} (h : Consumed a packet x a')
    (ha : ∀ p, ∀ r ∈ a.levels p, Q r.traderId) : ∀ g ∈ x.fills, Q g.1.traderId := by
  cases h with
  | rejected => simp
  | @accepted _ _ _ _ fs gs ht hl hm htrades =>
      intro g hg
      have hmem : tradeOf g ∈ fs.map fun f => f.trade packet.traderId := htrades ▸ List.mem_map_of_mem hg
      obtain ⟨f, hf, he⟩ := List.mem_map.mp hmem
      have hid : f.maker.traderId = g.1.traderId := UInt32.toUInt64_inj.mp (congrArg Trade.makerId he)
      exact hid ▸ ha f.price f.maker (hm.maker_mem hf)

def Submitter (answers : List Answer) (traderId : UInt32) : Prop :=
  ∃ z ∈ answers, z.packet.type = newOrder ∧ z.packet.traderId = traderId

/-- The maker of a trade is the trader of an order that was submitted
before. -/
theorem after_makers {packets : List IngressPacket} (hp : ∀ p ∈ packets, p.price.toNat ≤ maxPriceTicks) :
    ∃ j, Journal.after packets = some j ∧ ∀ before y after, j.answers = before ++ y :: after →
      ∀ g ∈ y.fills, Submitter before g.1.traderId := by
  have hstep : ∀ (j : Journal) (a : Levels) (p : IngressPacket) (j' : Journal) (x : Answer) (a' : Levels),
      ((∀ q, ∀ r ∈ a.levels q, Submitter j.answers r.traderId) ∧
        ∀ before y after, j.answers = before ++ y :: after → ∀ g ∈ y.fills, Submitter before g.1.traderId) →
      j'.answers = j.answers ++ [x] → Consumed a p x a' →
      (∀ q, ∀ r ∈ a'.levels q, Submitter j'.answers r.traderId) ∧
        ∀ before y after, j'.answers = before ++ y :: after → ∀ g ∈ y.fills, Submitter before g.1.traderId := by
    rintro j a p j' x a' ⟨hrest, hmakers⟩ hx hc
    have hmono : ∀ traderId, Submitter j.answers traderId → Submitter j'.answers traderId := by
      rintro traderId ⟨z, hz, hsub⟩
      exact ⟨z, by rw [hx]; exact List.mem_append_left _ hz, hsub⟩
    have hnew : p.type = newOrder → Submitter j'.answers p.traderId := fun ht =>
      ⟨x, by simp [hx], hc.packet_eq ▸ ht, congrArg IngressPacket.traderId hc.packet_eq⟩
    refine ⟨hc.resting (Q := fun _ traderId => Submitter j'.answers traderId)
      (fun q r hr => hmono _ (hrest q r hr)) (fun ht _ _ => hnew ht), fun before y after he => ?_⟩
    rw [hx] at he
    rcases List.eq_nil_or_concat after with rfl | ⟨after, z, rfl⟩
    · obtain ⟨rfl, hy⟩ := List.append_inj' he rfl
      obtain rfl := List.singleton_inj.mp hy
      exact hc.makers hrest
    · rw [List.concat_eq_append, ← List.cons_append, ← List.append_assoc] at he
      exact hmakers before y after (List.append_inj_left' he rfl)
  obtain ⟨j, a, hj, -, -, hmakers⟩ := after_induction (by simp [Levels.empty, Journal.init]) hstep hp
  exact ⟨j, hj, hmakers⟩

end Levels

section Bounds

/-- The iteration pushes nothing beyond the array of `exec_q` or of `trash_q`. -/
def Contained (e : Engine) (packet : IngressPacket) : Prop :=
  packet.type = newOrder → ¬ Overruns e (call packet (process packet))

instance (e : Engine) (packet : IngressPacket) : Decidable (Contained e packet) :=
  inferInstanceAs (Decidable (_ → _))

/-- A new order gets a slot and finds an order that it can trade with. -/
def Trading (e : Engine) (packet : IngressPacket) : Prop :=
  packet.type = newOrder ∧ 0 ≤ e.pool.top ∧ 0 < packet.quantity ∧
    marketableSlots e (call packet (process packet)) ≠ []

instance (e : Engine) (packet : IngressPacket) : Decidable (Trading e packet) :=
  inferInstanceAs (Decidable (_ ∧ _ ∧ _ ∧ _))

variable {j j' : Journal} {a : Levels} {packet : IngressPacket} {x : Answer}

theorem consume_submitted (h : Stands j a) (ht : packet.type = newOrder) (hj : j.consume packet = some j') :
    ∃ s a', Submitted 1000000 ⟨j.core.engine, []⟩ (call packet (process packet)) a s a' ∧
      s.engine = j'.core.engine := by
  obtain ⟨c, hc, rfl⟩ := Option.map_eq_some_iff.mp hj
  obtain ⟨s, hs, he⟩ := submit_of_consume ht ⟨j.core.engine, []⟩ rfl hc
  obtain ⟨s', a', hs', hsub, -⟩ := submit_steps h (call packet (process packet))
  obtain rfl : s' = s := Option.some.inj (hs'.symm.trans hs)
  exact ⟨s', a', hsub, he⟩

theorem consume_within (h : Stands j a) (hj : j.consume packet = some j') :
    Within j'.core.engine.market ↔ Within j.core.engine.market ∧ Contained j.core.engine packet := by
  by_cases ht : packet.type = newOrder
  · obtain ⟨s, a', hsub, he⟩ := consume_submitted h ht hj
    rw [← he, submitted_within h hsub, Contained]
    exact and_congr_right fun _ => (imp_iff_right ht).symm
  · obtain ⟨c, hc, rfl⟩ := Option.map_eq_some_iff.mp hj
    obtain ⟨c', hc', he⟩ := consume_other j.core ht
    obtain rfl : c' = c := Option.some.inj (hc'.symm.trans hc)
    have hcontained : Contained j.core.engine packet := fun h => absurd h ht
    rw [he, and_iff_left hcontained]
    exact Iff.rfl

theorem consume_trades_iff (h : Stands j a) (hj : j.consume packet = some j') (hx : j'.answers = j.answers ++ [x]) :
    x.fills ≠ [] ↔ Trading j.core.engine packet := by
  obtain ⟨c, hc, rfl⟩ := Option.map_eq_some_iff.mp hj
  obtain rfl := List.singleton_inj.mp (List.append_cancel_left hx)
  by_cases ht : packet.type = newOrder
  · obtain ⟨s, a', hsub, he⟩ := consume_submitted h ht hj
    change c.engine.market.fills.drop j.core.engine.market.fills.length ≠ [] ↔ _
    have htop := top_nonneg_iff h.toConsistent
    rw [← show s.engine = c.engine from he]
    cases hsub with
    | rejected hl =>
        have hnone : ¬ Trading j.core.engine packet := fun hno => htop.mp hno.2.1 hl
        refine iff_of_false (fun hne => hne ?_) hnone
        exact List.drop_eq_nil_of_le (Nat.le_refl _)
    | @accepted e' slot b left fs hl hacc =>
        obtain ⟨gs, hgs, hsides⟩ := hacc.fills
        have hlen : gs.length = fs.length := by simpa using congrArg List.length hsides
        have hhits : fs.length ≤ 0 ↔ (marketableSlots j.core.engine (call packet (process packet))).length ≤ 0 ∨
            packet.quantity.toNat ≤ 0 := (accepted_hits h.toConsistent hacc).1 0
        have hfills : e'.clearExecutionQueue.market.fills.drop j.core.engine.market.fills.length = gs := by
          change e'.market.fills.drop j.core.engine.market.fills.length = gs
          rw [hgs]
          exact List.drop_left
        rw [hfills, ← List.length_pos_iff, hlen, Trading, and_iff_right ht,
          and_iff_right (htop.mpr (Nat.ne_of_lt hl)), ← List.length_pos_iff, UInt32.lt_iff_toNat_lt]
        change 0 < fs.length ↔ 0 < packet.quantity.toNat ∧ _
        omega
  · obtain ⟨c', hc', he⟩ := consume_other j.core ht
    obtain rfl : c' = c := Option.some.inj (hc'.symm.trans hc)
    refine iff_of_false (fun hne => hne ?_) fun hno => ht hno.1
    rw [he]
    exact List.drop_eq_nil_of_le (Nat.le_refl _)

theorem init_within : Within Journal.init.core.engine.market := by
  simp [Within, Journal.init, Core.init, Engine.init, Market.init, FixedQueue.empty]

end Bounds

end Sequitur.Answers
