import Sequitur.Cursors
import Sequitur.Histories
import Sequitur.Sessions

namespace Sequitur.OppositeSides

open OrderBook LevelBook Abstraction Accounting MatchingEngine EngineStep Sessions Cursors

def Meet (d : Sweep) (a : Levels) : Prop :=
  position d a = limit d ∧ opposite d a = limit d ∧ ∀ p, ∀ r ∈ a.levels p, r.side = taker d

/-- With limits up to the ends of the array the cursors can meet, but only at
an end and only while one side of the book is empty. -/
structure Apart (a : Levels) : Prop extends Sided a where
  cursors : a.bestBid < a.bestAsk ∨ Meet .asks a ∨ Meet .bids a

theorem empty_apart : Apart .empty := by
  refine ⟨empty_sided, .inl ?_⟩
  simp only [Levels.empty, maxPriceTicks]
  omega

theorem cursors_iff (d : Sweep) (a : Levels) :
    a.bestBid < a.bestAsk ∨ Meet .asks a ∨ Meet .bids a ↔
      ¬ Ahead d (position d a) (opposite d a) ∨ Meet d a ∨ Meet (counter d) a := by
  cases d with
  | asks => simp only [Ahead, position, opposite, counter, Nat.not_le]
  | bids =>
      simp only [Ahead, position, opposite, counter, Nat.not_le]
      rw [or_comm (a := Meet .asks a)]

theorem enqueue_cursors {d : Sweep} {r : Resting} (hr : r.side = taker d) (a : Levels) (p : Nat) :
    position d (a.enqueue p r) = position d a ∧ Ahead d p (opposite d (a.enqueue p r)) ∧
      (opposite d (a.enqueue p r) = p ∨
        opposite d (a.enqueue p r) = opposite d a ∧ Ahead d p (opposite d a)) := by
  cases d with
  | asks =>
      simp only [taker] at hr
      simp only [position, opposite, Ahead, Levels.enqueue_bestBid, Levels.enqueue_bestAsk, hr, if_true]
      refine ⟨rfl, by omega, by omega⟩
  | bids =>
      simp only [taker] at hr
      simp only [position, opposite, Ahead, Levels.enqueue_bestBid, Levels.enqueue_bestAsk, hr, if_true]
      refine ⟨rfl, by omega, by omega⟩

section Swept

variable {d : Sweep} {price : Nat} {a a' : Levels} {quantity left : Nat} {fs : List Fill}

theorem swept_side {s : UInt8} (h : Swept d price a quantity a' left fs)
    (hs : ∀ p, ∀ r ∈ a.levels p, r.side = s) : ∀ p, ∀ r ∈ a'.levels p, r.side = s := by
  intro p r hr
  obtain ⟨r₀, hr₀, hl⟩ := h.mem hr
  exact hl.2.2.1.trans (hs p r₀ hr₀)

theorem enqueue_side {s : UInt8} (hs : ∀ p, ∀ r ∈ a.levels p, r.side = s) {r : Resting} (hr : r.side = s) :
    ∀ p, ∀ x ∈ (a.enqueue price r).levels p, x.side = s := by
  intro p x hx
  rcases Levels.mem_enqueue.mp hx with hx | ⟨-, rfl⟩
  · exact hs p x hx
  · exact hr

theorem enqueue_apart (h : Swept d price a quantity a' left fs) (ha : Apart a) (hb : Bounded a)
    (hb' : Bounded a') (hs' : Sided a') (hl : 0 < left) (hp : price ≤ maxPriceTicks) {r : Resting}
    (hr : r.side = taker d) :
    ¬ Ahead d (position d (a'.enqueue price r)) (opposite d (a'.enqueue price r)) ∨
      Meet d (a'.enqueue price r) := by
  obtain ⟨hpos, hpr, hopp⟩ := enqueue_cursors hr a' price
  rw [h.opposite_eq] at hopp
  rcases h.exit with hz | hpass | ⟨hend, hempty, hreach⟩
  · omega
  · rcases hopp with hopp | ⟨hopp, hprice⟩
    · exact .inl (by rw [hpos, hopp]; exact hpass)
    · rcases (cursors_iff d a).mp ha.cursors with hc | ⟨hc₁, hc₂, hall⟩ | ⟨hc, -, -⟩
      · exact .inl fun hah => hc (ahead_trans h.ahead (by rwa [hpos, hopp] at hah))
      · have hlim : position d a' = limit d := ahead_limit (hc₁ ▸ h.ahead) (h.position_le (position_le hb))
        exact .inr ⟨hpos.trans hlim, hopp.trans hc₂, enqueue_side (swept_side h hall) hr⟩
      · have hz : price = opposite d a := by
          cases d <;> simp only [Ahead, limit, counter, position, opposite] at hprice hc ⊢ <;> omega
        exact .inl (by rw [hpos, hopp, ← hz]; exact hpass)
  · obtain rfl : price = limit d := ahead_limit hreach hp
    have hcur : opposite d (a'.enqueue (limit d) r) = limit d := by
      rcases hopp with hopp | ⟨hopp, hlim⟩
      · exact hopp
      · rw [hopp]
        refine ahead_limit hlim ?_
        cases d
        · exact hb.bestBid
        · exact hb.bestAsk
    refine .inr ⟨hpos.trans hend, hcur, enqueue_side (fun p x hx => ?_) hr⟩
    refine Classical.byContradiction fun hx' => ?_
    have hah := sided_maker hs' hx hx'
    rw [hend] at hah
    obtain rfl := ahead_limit hah (level_le hb' hx)
    rw [hempty] at hx
    simp at hx

theorem swept_apart (h : Swept d price a quantity a' left fs) (ha : Apart a) (hb : Bounded a) :
    ¬ Ahead d (position d a') (opposite d a') ∨ Meet d a' ∨ Meet (counter d) a' := by
  rw [h.opposite_eq]
  rcases (cursors_iff d a).mp ha.cursors with hc | ⟨hc₁, hc₂, hall⟩ | ⟨hc₁, hc₂, hall⟩
  · exact .inl fun hah => hc (ahead_trans h.ahead hah)
  · have hlim : position d a' = limit d := ahead_limit (hc₁ ▸ h.ahead) (h.position_le (position_le hb))
    exact .inr (.inl ⟨hlim, h.opposite_eq.trans hc₂, swept_side h hall⟩)
  · by_cases hstay : Ahead d (position d a') (opposite d a)
    · have hopp := h.opposite_eq
      have hmove := h.ahead
      refine .inr (.inr ⟨?_, ?_, swept_side h hall⟩)
      · cases d <;> simp only [counter, position, opposite, limit] at hc₁ hopp ⊢ <;> omega
      · cases d <;> simp only [counter, position, opposite, limit, Ahead] at * <;> omega
    · exact .inl hstay

theorem residue_apart (h : Swept d price a quantity a' left fs) (ha : Apart a) (hb : Bounded a)
    (hb' : Bounded a') (hs' : Sided a') (hp : price ≤ maxPriceTicks) {r : Resting} (hr : r.side = taker d) :
    Apart (restResidue a' price r left) := by
  have hside : r.side = 0 ∨ r.side = 1 := by
    rw [hr]
    cases d <;> simp [taker]
  refine ⟨restResidue_sided hs' _ hside _, (cursors_iff d _).mpr ?_⟩
  rw [restResidue]
  split
  next hl =>
    have hr' : ({ r with quantity := left } : Resting).side = taker d := hr
    exact (enqueue_apart h ha hb hb' hs' hl hp hr').imp_right .inl
  next => exact swept_apart h ha hb

/-- An order meets one of its own side: it is priced at the end of the array
towards which its loop runs, and such an order rests there already. -/
def Collides (d : Sweep) (price quantity : Nat) (a : Levels) : Prop :=
  price = limit d ∧ 0 < quantity ∧ ∃ r ∈ a.levels (limit d), r.side = taker d

theorem makers_opposite_iff (h : Swept d price a quantity a' left fs) (ha : Apart a) (hb : Bounded a)
    (hp : price ≤ maxPriceTicks) :
    (∀ f ∈ fs, f.maker.side ≠ taker d) ↔ ¬ Collides d price quantity a := by
  constructor
  · rintro hf ⟨rfl, hq, r₀, hr₀, hs₀⟩
    have hopp : opposite d a = limit d := by
      refine ahead_limit (sided_taker ha.toSided hr₀ hs₀) ?_
      cases d
      · exact hb.bestBid
      · exact hb.bestAsk
    have hmeet : Meet d a := by
      rcases (cursors_iff d a).mp ha.cursors with hc | hc | ⟨hc, -, -⟩
      · rw [hopp] at hc
        refine absurd ?_ hc
        have := position_le (d := d) hb
        cases d <;> simp only [Ahead, limit, position] at * <;> omega
      · exact hc
      · exfalso
        have hpos : 0 < maxPriceTicks := by rw [maxPriceTicks]; omega
        cases d <;> simp only [position, opposite, counter, limit] at hc hopp <;> omega
    obtain ⟨hpos, -, hall⟩ := hmeet
    cases hl : a.levels (limit d) with
    | nil => simp [hl] at hr₀
    | cons r rest =>
        cases h with
        | done hd =>
            rcases hd with hd | hd
            · omega
            · exact hd (hpos ▸ ahead_refl d _)
        | last _ _ he => simp [hpos, hl] at he
        | skip _ _ he => simp [hpos, hl] at he
        | fill _ _ he _ =>
            refine hf _ List.mem_cons_self (hall (position d a) _ ?_)
            rw [he]
            exact List.mem_cons_self
  · intro hc f hf hs
    obtain ⟨hm, hlo, hhi⟩ := h.maker_mem hf
    have hopp := sided_taker ha.toSided hm hs
    have hq : 0 < quantity := Nat.pos_of_ne_zero fun hz => by
      rw [(h.of_zero hz).2.2] at hf
      simp at hf
    rcases (cursors_iff d a).mp ha.cursors with hn | ⟨hpos, -, -⟩ | ⟨-, -, hall⟩
    · exact hn (ahead_trans hlo hopp)
    · have hfp : f.price = limit d := ahead_limit (hpos ▸ hlo) (level_le hb hm)
      refine hc ⟨ahead_limit (hfp ▸ hhi) hp, hq, f.maker, hfp ▸ hm, hs⟩
    · have hs' := hall f.price f.maker hm
      rw [hs] at hs'
      cases d <;> simp [taker, counter] at hs'

end Swept

/-- The call gets a slot, wants something, is priced at the end of the array
that its loop runs towards, and an order of its own side rests there. -/
def MeetsOwnSide (e : Engine) (c : Call) : Prop :=
  0 ≤ e.pool.top ∧ 0 < c.quantity ∧
    (c.side = 0 ∧ c.price.toNat = maxPriceTicks ∧
        (∃ x ∈ e.restingAt maxPriceTicks, (e.market.heap x).side = 0) ∨
      c.side = 1 ∧ c.price.toNat = 0 ∧ ∃ x ∈ e.restingAt 0, (e.market.heap x).side = 1)

def Opposed (m : Market) : Prop := ∀ g ∈ m.fills, g.1.side ≠ g.2.side

theorem side_at_iff {n : Nat} {e : Engine} {a : Levels} (h : Consistent n e a) (p : Nat) (t : UInt8) :
    (∃ x ∈ e.restingAt p, (e.market.heap x).side = t) ↔ ∃ r ∈ a.levels p, r.side = t := by
  rw [restingAt_eq h]
  constructor
  · rintro ⟨x, hx, ht⟩
    obtain ⟨r, hr, rfl⟩ := List.mem_map.mp hx
    exact ⟨r, hr, (h.market.data p r hr).side.symm.trans ht⟩
  · rintro ⟨r, hr, ht⟩
    exact ⟨r.slot, mem_slots hr, (h.market.data p r hr).side.trans ht⟩

theorem accepted_opposed_iff {e e' : Engine} {c : Call} {a a' : Levels} {slot left : Nat} {fs : List Fill}
    (h : Accepted e c a e' slot a' left fs) :
    Opposed e'.market ↔ Opposed e.market ∧ ∀ f ∈ fs, f.maker.side ≠ c.side := by
  obtain ⟨gs, hg, hsides⟩ := h.fills
  have hnew : (∀ g ∈ gs, g.1.side ≠ g.2.side) ↔ ∀ f ∈ fs, f.maker.side ≠ c.side := by
    have hl : (∀ x ∈ gs.map fun g => (g.1.side, g.2.side), x.1 ≠ x.2) ↔
        ∀ x ∈ fs.map fun f => (f.maker.side, c.side), x.1 ≠ x.2 := by rw [hsides]
    simpa only [List.forall_mem_map] using hl
  rw [Opposed, Opposed, hg, List.forall_mem_append, hnew]

theorem submitted_opposed {n : Nat} {s s' : Session} {c : Call} {a a' : Levels} (hr : Ready n s a)
    (ha : Apart a) (hc : (c.side = 0 ∨ c.side = 1) ∧ c.price.toNat ≤ maxPriceTicks)
    (h : Submitted n s c a s' a') :
    Apart a' ∧ (Opposed s'.engine.market ↔ Opposed s.engine.market ∧ ¬ MeetsOwnSide s.engine c) := by
  have htop := top_nonneg_iff hr.toConsistent
  cases h with
  | rejected hl =>
      have hno : ¬ MeetsOwnSide s.engine c := fun hm => htop.mp hm.1 hl
      exact ⟨ha, (and_iff_left hno).symm⟩
  | @accepted e' slot b left fs hl h =>
      have hb' := matched_bounded h.matched hr.bounded
      have hs' := matched_sided h.matched ha.toSided
      have hopp := accepted_opposed_iff h
      have hm := h.matched
      -- The two loops differ only in their direction.
      obtain ⟨d, hside, hswept⟩ : ∃ d, c.side = taker d ∧
          Swept d c.price.toNat a c.quantity.toNat b left fs := by
        generalize c.side = t at hm hc
        cases hm with
        | buy h => exact ⟨.asks, rfl, h⟩
        | sell h => exact ⟨.bids, rfl, h⟩
        | other h0 h1 => exact absurd hc.1 (by simp [h0, h1])
      refine ⟨residue_apart hswept ha hr.bounded hb' hs' hc.2 hside, hopp.trans (and_congr_right fun _ => ?_)⟩
      rw [hside, makers_opposite_iff hswept ha hr.bounded hc.2, not_iff_not, MeetsOwnSide, Collides,
        side_at_iff hr.toConsistent, side_at_iff hr.toConsistent, hside, UInt32.lt_iff_toNat_lt, UInt32.toNat_zero]
      have hpool : 0 ≤ s.engine.pool.top := htop.mpr (Nat.ne_of_lt hl)
      cases d <;> simp [taker, limit, hpool] <;> tauto

/-- Every trade is between a buy and a sell exactly as long as no order
arrives at an end of the array where one of its own side already rests. The
queues of the engine are taken to be long enough for every call. -/
theorem trades_opposed_iff {n : Nat} (hn : n ≤ 2 ^ 32) (calls : List Call)
    (hc : ∀ c ∈ calls, (c.side = 0 ∨ c.side = 1) ∧ c.price.toNat ≤ maxPriceTicks) :
    (∃ s, Session.after n calls = some s ∧ Opposed s.engine.market) ↔
      Runs.Along Session.submit (fun s c => ¬ MeetsOwnSide s.engine c) (.init n) calls := by
  refine Histories.after_good_iff hn empty_apart (by simp [Opposed, Market.init]) ?_ ?_
  · exact fun m m' h hg g hm => hg g (h.fills.subset hm)
  · intro s a c hm s' a' hr ha hsub
    obtain ⟨ha', hiff⟩ := submitted_opposed hr ha (hc c hm) hsub
    exact ⟨hiff, fun _ => ⟨hsub.bounded hr.bounded (hc c hm).2, ha'⟩⟩

theorem trades_opposed_iff_crossing :
    ∃ s, Session.after 4 [⟨1, 100, 5, 1⟩, ⟨0, 120, 3, 2⟩] = some s ∧ Opposed s.engine.market := by
  refine (trades_opposed_iff (by decide : 4 ≤ 2 ^ 32) [⟨1, 100, 5, 1⟩, ⟨0, 120, 3, 2⟩] ?_).mpr ?_
  · rw [maxPriceTicks]
    decide
  · have hinner : ∀ c ∈ ([⟨1, 100, 5, 1⟩, ⟨0, 120, 3, 2⟩] : List Call), ∀ s : Session,
        ¬ MeetsOwnSide s.engine c := by
      rw [List.forall_mem_cons, List.forall_mem_singleton]
      refine ⟨fun s hm => ?_, fun s hm => ?_⟩ <;> simp [MeetsOwnSide, maxPriceTicks] at hm
    exact .of_forall hinner

/-- A buy at the highest price rests there with `best_bid` and `best_ask` both
at the end of the array. The next buy at that price trades with it. -/
theorem buy_meets_buy :
    ∃ s, Session.after 2 [⟨0, 1000000, 5, 1⟩, ⟨0, 1000000, 3, 2⟩] = some s ∧
      s.log.map Entry.trades = [[], [⟨1, 2, 1000000, 3⟩]] ∧
      s.engine.market.fills.map (fun g => (g.1.side, g.2.side)) = [(0, 0)] ∧ ¬ Opposed s.engine.market := by
  have hrun : (Session.after 2 [⟨0, 1000000, 5, 1⟩, ⟨0, 1000000, 3, 2⟩]).map
      (fun s => (s.log.map Entry.trades, s.engine.market.fills.map fun g => (g.1.side, g.2.side))) =
      some ([[], [⟨1, 2, 1000000, 3⟩]], [(0, 0)]) := by decide +kernel
  obtain ⟨s, hs, he⟩ := Option.map_eq_some_iff.mp hrun
  obtain ⟨hlog, hfills⟩ := Prod.mk.inj he
  refine ⟨s, hs, hlog, hfills, fun ho => ?_⟩
  have hmem : ((0 : UInt8), (0 : UInt8)) ∈ s.engine.market.fills.map fun g => (g.1.side, g.2.side) := by
    simp [hfills]
  obtain ⟨g, hg, hgs⟩ := List.mem_map.mp hmem
  obtain ⟨h₁, h₂⟩ := Prod.mk.inj hgs
  exact ho g hg (h₁.trans h₂.symm)

end Sequitur.OppositeSides
