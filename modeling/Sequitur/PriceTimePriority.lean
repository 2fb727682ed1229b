import Sequitur.Conservation
import Sequitur.Cursors
import Sequitur.Reference

namespace Sequitur.PriceTimePriority

open OrderBook LevelBook Abstraction Accounting MatchingEngine EngineStep Sessions Cursors Reference

def maker (d : Sweep) : UInt8 := taker (counter d)

def ladder : Sweep → List Nat
  | .asks => List.range (maxPriceTicks + 1)
  | .bids => (List.range (maxPriceTicks + 1)).reverse

theorem ladder_split (d : Sweep) {p : Nat} (hp : p ≤ maxPriceTicks) :
    ∃ xs ys, ladder d = xs ++ p :: ys ∧ (∀ q ∈ xs, ¬ Ahead d p q) ∧ ∀ q ∈ ys, Ahead d p q ∧ q ≠ p := by
  have hrange : List.range (maxPriceTicks + 1) = List.range p ++ p :: List.range' (p + 1) (maxPriceTicks - p) := by
    rw [Families.range_split (Nat.lt_succ_of_le hp), Nat.succ_sub_succ]
  cases d with
  | asks =>
      refine ⟨_, _, hrange, fun q hq => ?_, fun q hq => ?_⟩
      · have := List.mem_range.mp hq
        simp only [Ahead]
        omega
      · have := (List.mem_range'_1.mp hq).1
        simp only [Ahead]
        omega
  | bids =>
      refine ⟨(List.range' (p + 1) (maxPriceTicks - p)).reverse, (List.range p).reverse, ?_, fun q hq => ?_,
        fun q hq => ?_⟩
      · rw [ladder, hrange, List.reverse_append, List.reverse_cons, List.append_assoc, List.singleton_append]
      · have := (List.mem_range'_1.mp (List.mem_reverse.mp hq)).1
        simp only [Ahead]
        omega
      · have := List.mem_range.mp (List.mem_reverse.mp hq)
        simp only [Ahead]
        omega

def quote (p : Nat) (r : Resting) : Quote := ⟨r.id, r.traderId, p, r.quantity⟩

def makersAt (d : Sweep) (a : Levels) (p : Nat) : List Quote :=
  ((a.levels p).filter fun r => r.side = maker d).map (quote p)

/-- One side of the level book as the reference matcher keeps it. -/
def sideOf (d : Sweep) (a : Levels) : List Quote := (ladder d).flatMap (makersAt d a)

theorem mem_makersAt {d : Sweep} {a : Levels} {p : Nat} {x : Quote} (h : x ∈ makersAt d a p) :
    x.price = p ∧ ∃ r ∈ a.levels p, r.side = maker d := by
  obtain ⟨r, hr, rfl⟩ := List.mem_map.mp h
  obtain ⟨hr, hs⟩ := List.mem_filter.mp hr
  exact ⟨rfl, r, hr, of_decide_eq_true hs⟩

theorem makersAt_all {d : Sweep} {a : Levels} {p : Nat} (h : ∀ r ∈ a.levels p, r.side = maker d) :
    makersAt d a p = (a.levels p).map (quote p) := by
  rw [makersAt, List.filter_eq_self.mpr fun r hr => decide_eq_true (h r hr)]

theorem makersAt_none {d : Sweep} {a : Levels} {p : Nat} (h : ∀ r ∈ a.levels p, r.side ≠ maker d) :
    makersAt d a p = [] := by
  rw [makersAt, List.filter_eq_nil_iff.mpr fun r hr => by simpa using h r hr, List.map_nil]

theorem makersAt_congr {d : Sweep} {a b : Levels} {p : Nat} (h : a.levels p = b.levels p) :
    makersAt d a p = makersAt d b p := by
  rw [makersAt, makersAt, h]

def Facing (d : Sweep) (a : Levels) : Prop :=
  ∀ p, ∀ r ∈ a.levels p, r.side = maker d ↔ Ahead d (position d a) p

theorem facing_of_uncrossed {a : Levels} (hs : Sided a) (hc : a.bestBid < a.bestAsk) (d : Sweep) :
    Facing d a := by
  intro p r hr
  have he := hs.either p r hr
  cases d with
  | asks =>
      refine ⟨fun h1 => hs.asks p r hr h1, fun ha => he.resolve_left fun h0 => ?_⟩
      have := hs.bids p r hr h0
      simp only [Ahead, position] at ha
      omega
  | bids =>
      refine ⟨fun h0 => hs.bids p r hr h0, fun ha => he.resolve_right fun h1 => ?_⟩
      have := hs.asks p r hr h1
      simp only [Ahead, position] at ha
      omega

theorem facing_fillHead {d : Sweep} {a : Levels} (h : Facing d a) {p left : Nat} {r : Resting}
    {rest : List Resting} (he : a.levels p = r :: rest) : Facing d (a.fillHead p r rest left) := by
  intro q x hx
  obtain ⟨y, hy, hl⟩ := mem_fillHead he hx
  rw [position_fillHead, hl.2.2.1]
  exact h q y hy

theorem facing_advance {d : Sweep} {a : Levels} (h : Facing d a) (hp : position d a ≠ limit d)
    (he : a.levels (position d a) = []) : Facing d (advance d a) := by
  intro p r hr
  rw [advance_levels] at hr
  have hne : p ≠ position d a := by
    rintro rfl
    rw [he] at hr
    simp at hr
  rw [ahead_advance hp, h p r hr, and_iff_left hne]

theorem sideOf_cursor {d : Sweep} {a : Levels} (h : Facing d a) (hb : position d a ≤ maxPriceTicks) :
    ∃ l, ∀ x, (∀ r ∈ x, r.side = maker d) →
      sideOf d (a.set (position d a) x) = x.map (quote (position d a)) ++ l := by
  obtain ⟨xs, ys, hl, hxs, hys⟩ := ladder_split d hb
  have hbehind (x : List Resting) : xs.flatMap (makersAt d (a.set (position d a) x)) = [] := by
    refine List.flatMap_eq_nil_iff.mpr fun q hq => makersAt_none fun r hr hs => ?_
    have hne : q ≠ position d a := fun he => hxs q hq (he ▸ ahead_refl d _)
    rw [a.set_levels_of_ne hne] at hr
    exact hxs q hq ((h q r hr).mp hs)
  refine ⟨ys.flatMap (makersAt d a), fun x hx => ?_⟩
  have hahead : ys.flatMap (makersAt d (a.set (position d a) x)) = ys.flatMap (makersAt d a) :=
    List.flatMap_congr fun q hq => makersAt_congr (a.set_levels_of_ne (hys q hq).2 x)
  have hself : (a.set (position d a) x).levels (position d a) = x := Levels.set_levels_self ..
  rw [sideOf, hl, List.flatMap_append, List.flatMap_cons, hbehind, List.nil_append, hahead,
    makersAt_all (by rwa [hself]), hself]

def withinLimit : Sweep → Nat → Nat → Bool
  | .asks, price, p => p ≤ price
  | .bids, price, p => p ≥ price

theorem withinLimit_iff (d : Sweep) (price p : Nat) : withinLimit d price p = true ↔ Ahead d p price := by
  cases d <;> simp [withinLimit, Ahead]

def deal (taker : UInt32) (f : Fill) : Deal := ⟨f.maker.traderId.toNat, taker.toNat, f.price, f.quantity⟩

/-- The loop over the levels is the reference matcher's loop over one sorted
list. -/
theorem trade_swept {d : Sweep} {price : Nat} {a a' : Levels} {left left' : Nat} {fs : List Fill}
    (h : Swept d price a left a' left' fs) (hf : Facing d a) (hb : position d a ≤ maxPriceTicks) (t : UInt32) :
    trade (withinLimit d price) t left (sideOf d a) = (fs.map (deal t), sideOf d a', left') := by
  have hahead {b : Levels} (hfb : Facing d b) {x : Quote} (hx : x ∈ sideOf d b) :
      Ahead d (position d b) x.price ∧ x.price ≤ maxPriceTicks ∧ b.levels x.price ≠ [] := by
    obtain ⟨p, hp, hm⟩ := List.mem_flatMap.mp hx
    obtain ⟨rfl, r, hr, hs⟩ := mem_makersAt hm
    refine ⟨(hfb _ r hr).mp hs, ?_, List.ne_nil_of_mem hr⟩
    cases d <;> simp [ladder] at hp <;> omega
  induction h with
  | @done a left h =>
      refine trade_stop (h.imp_right fun hn x hx => ?_)
      rw [Bool.eq_false_iff, Ne, withinLimit_iff]
      exact fun hw => hn (ahead_trans (hahead hf hx).1 hw)
  | @last a left hl hw he hp =>
      have hnil : sideOf d a = [] := by
        rw [List.eq_nil_iff_forall_not_mem]
        intro x hx
        obtain ⟨h₁, h₂, h₃⟩ := hahead hf hx
        rw [hp] at h₁ he
        exact h₃ (ahead_limit h₁ h₂ ▸ he)
      rw [hnil]
      rfl
  | @skip a left a' left' fs hl hw he hp h ih =>
      have hside : sideOf d (advance d a) = sideOf d a :=
        List.flatMap_congr fun p _ => makersAt_congr (congrFun (advance_levels d a) p)
      rw [← hside]
      exact ih (facing_advance hf hp he) (position_advance_le hp hb)
  | @fill a left a' left' fs r rest hl hw he h ih =>
      have hmk : ∀ x ∈ r :: rest, x.side = maker d := fun x hx =>
        (hf (position d a) x (he ▸ hx)).mpr (ahead_refl d _)
      obtain ⟨l, hside⟩ := sideOf_cursor hf hb
      have hbefore := hside (r :: rest) hmk
      rw [← he, Levels.set_levels_eq, he, List.map_cons, List.cons_append] at hbefore
      have hin : withinLimit d price (quote (position d a) r).price = true := (withinLimit_iff d price _).mpr hw
      have ih := ih (facing_fillHead hf he) (by simpa using hb)
      rw [hbefore]
      by_cases hq : r.quantity ≤ left
      · rw [Levels.fillHead, if_pos hq, hside rest fun x hx => hmk x (List.mem_cons_of_mem _ hx)] at ih
        rw [trade_full hl hin hq]
        simp only [quote] at ih ⊢
        rw [ih, List.map_cons, deal, Nat.min_eq_right hq]
      · have hlt := Nat.lt_of_not_le hq
        obtain ⟨rfl, rfl, rfl⟩ := h.of_zero (Nat.sub_eq_zero_of_le (Nat.le_of_lt hlt))
        have hafter := hside ({ r with quantity := r.quantity - left } :: rest) (by
          intro x hx
          rcases List.mem_cons.mp hx with rfl | hx
          · exact hmk r List.mem_cons_self
          · exact hmk x (List.mem_cons_of_mem _ hx))
        rw [trade_part hl hin hlt, Levels.fillHead, if_neg hq, hafter, Nat.min_eq_left (Nat.le_of_lt hlt)]
        rfl

theorem maker_counter_ne (d : Sweep) : maker (counter d) ≠ maker d := by
  cases d <;> decide

theorem sideOf_counter {d : Sweep} {price : Nat} {a a' : Levels} {left left' : Nat} {fs : List Fill}
    (h : Swept d price a left a' left' fs) (hf : Facing d a) :
    sideOf (counter d) a' = sideOf (counter d) a := by
  refine List.flatMap_congr fun p _ => ?_
  by_cases hp : Ahead d (position d a) p
  · have hall : ∀ r ∈ a.levels p, r.side ≠ maker (counter d) := fun r hr hs =>
      maker_counter_ne d (hs.symm.trans ((hf p r hr).mpr hp))
    rw [makersAt_none hall, makersAt_none]
    intro r' hr'
    obtain ⟨r, hr, hl⟩ := h.mem hr'
    exact hl.2.2.1 ▸ hall r hr
  · exact makersAt_congr (h.levels_outside p (.inl hp))

def better : Sweep → Nat → Nat → Bool
  | .asks => (· < ·)
  | .bids => (· > ·)

theorem better_iff (d : Sweep) (p q : Nat) : better d p q = true ↔ Ahead d p q ∧ q ≠ p := by
  cases d <;> simp [better, Ahead] <;> omega

theorem makersAt_enqueue (d : Sweep) (a : Levels) (p : Nat) (r : Resting) (q : Nat) :
    makersAt d (a.enqueue p r) q =
      if q = p ∧ r.side = maker d then makersAt d a q ++ [quote p r] else makersAt d a q := by
  by_cases hq : q = p
  · subst hq
    simp only [makersAt, Levels.enqueue_levels, Function.update_self, List.filter_append, List.map_append]
    by_cases hr : r.side = maker d
    · simp [hr]
    · simp [hr]
  · rw [if_neg fun h => hq h.1]
    refine makersAt_congr ?_
    rw [Levels.enqueue_levels, Function.update_of_ne hq]

theorem sideOf_enqueue_other {d : Sweep} {r : Resting} (hr : r.side ≠ maker d) (a : Levels) (p : Nat) :
    sideOf d (a.enqueue p r) = sideOf d a := by
  refine List.flatMap_congr fun q _ => ?_
  rw [makersAt_enqueue, if_neg fun h => hr h.2]

theorem sideOf_enqueue {d : Sweep} {r : Resting} (hr : r.side = maker d) (a : Levels) {p : Nat}
    (hp : p ≤ maxPriceTicks) :
    sideOf d (a.enqueue p r) =
      (sideOf d a).orderedInsert (fun x y => better d x.price y.price) (quote p r) := by
  obtain ⟨xs, ys, hl, hxs, hys⟩ := ladder_split d hp
  have hsame (qs : List Nat) (hqs : ∀ q ∈ qs, q ≠ p) :
      qs.flatMap (makersAt d (a.enqueue p r)) = qs.flatMap (makersAt d a) :=
    List.flatMap_congr fun q hq => by rw [makersAt_enqueue, if_neg fun h => hqs q hq h.1]
  have hprice (qs : List Nat) {x : Quote} (hx : x ∈ qs.flatMap (makersAt d a)) : x.price ∈ qs := by
    obtain ⟨q, hq, hm⟩ := List.mem_flatMap.mp hx
    exact (mem_makersAt hm).1 ▸ hq
  have hbehind : ∀ q ∈ xs, q ≠ p := fun q hq he => hxs q hq (he ▸ ahead_refl d p)
  rw [sideOf, sideOf, hl, List.flatMap_append, List.flatMap_cons, List.flatMap_append, List.flatMap_cons,
    hsame xs hbehind, hsame ys fun q hq => (hys q hq).2, makersAt_enqueue, if_pos ⟨rfl, hr⟩]
  have hfirst : ∀ x ∈ xs.flatMap (makersAt d a) ++ makersAt d a p, ¬ better d p x.price = true := by
    intro x hx hb
    obtain ⟨hah, hne⟩ := (better_iff d p x.price).mp hb
    rcases List.mem_append.mp hx with hx | hx
    · exact hxs _ (hprice xs hx) hah
    · exact hne (mem_makersAt hx).1
  have hlast : ∀ y ∈ ys.flatMap (makersAt d a), better d p y.price = true := fun y hy =>
    (better_iff d p y.price).mpr (hys _ (hprice ys hy))
  have hins := orderedInsert_between (r := fun x y : Quote => better d x.price y.price) (a := quote p r) hfirst hlast
  simp only [List.append_assoc, List.singleton_append] at hins ⊢
  exact hins.symm

theorem swept_refines {d : Sweep} {price : Nat} {a a' : Levels} {quantity left : Nat} {fs : List Fill}
    (h : Swept d price a quantity a' left fs) (hf : Facing d a) (hb : position d a ≤ maxPriceTicks)
    (hp : price ≤ maxPriceTicks) {r : Resting} (hr : r.side = taker d) (t : UInt32) :
    trade (withinLimit d price) t quantity (sideOf d a) =
        (fs.map (deal t), sideOf d (restResidue a' price r left), left) ∧
      rest (better (counter d)) (quote price { r with quantity := left }) (sideOf (counter d) a) =
        sideOf (counter d) (restResidue a' price r left) := by
  have hside : r.side = maker (counter d) := by
    rw [hr]
    cases d <;> rfl
  rw [trade_swept h hf hb, ← sideOf_counter h hf, restResidue, rest, quote]
  by_cases hl : 0 < left
  · rw [if_pos hl, if_pos hl]
    have hother : ({ r with quantity := left } : Resting).side ≠ maker d := hside ▸ maker_counter_ne d
    have hself : ({ r with quantity := left } : Resting).side = maker (counter d) := hside
    exact ⟨by rw [sideOf_enqueue_other hother], (sideOf_enqueue hself a' hp).symm⟩
  · rw [if_neg hl, if_neg hl]
    exact ⟨rfl, rfl⟩

/-- Buys below the highest and sells above the lowest price: the limit of an
order is not the end of the array that its loop runs towards. -/
def InRange (c : Call) : Prop :=
  c.side = 0 ∧ c.price.toNat < maxPriceTicks ∨ c.side = 1 ∧ 0 < c.price.toNat ∧ c.price.toNat ≤ maxPriceTicks

structure Refines (e : Engine) (a : Levels) (b : Book) : Prop where
  bids : b.bids = sideOf .bids a
  asks : b.asks = sideOf .asks a
  nextId : b.nextId = e.nextOrderId

theorem accepted_refines {n : Nat} {e e' : Engine} {c : Call} {a a' : Levels} {slot left : Nat} {fs : List Fill}
    {b : Book} (hc : Consistent n e a) (hs : Sided a) (hu : a.bestBid < a.bestAsk) (hr : InRange c)
    (h : Accepted e c a e' slot a' left fs) (hb : Refines e a b) :
    Refines e' (restResidue a' c.price.toNat (ofCall c slot e.nextOrderId) left) (b.submit c).1 ∧
      (b.submit c).2 = fs.map (deal c.traderId) := by
  have hp : c.price.toNat ≤ maxPriceTicks := by
    rcases hr with hr | hr <;> omega
  have hm := h.matched
  have hside : (ofCall c slot e.nextOrderId).side = c.side := rfl
  generalize hcs : c.side = t at hm hside
  cases hm with
  | buy hw =>
      obtain ⟨htrade, hrest⟩ := swept_refines hw (facing_of_uncrossed hs hu .asks) hc.bounded.bestAsk hp
        hside c.traderId
      have hsub : b.submit c = (⟨rest (better .bids) ⟨b.nextId, c.traderId, c.price.toNat,
          (trade (withinLimit .asks c.price.toNat) c.traderId c.quantity.toNat b.asks).2.2⟩ b.bids,
          (trade (withinLimit .asks c.price.toNat) c.traderId c.quantity.toNat b.asks).2.1, b.nextId + 1⟩,
          (trade (withinLimit .asks c.price.toNat) c.traderId c.quantity.toNat b.asks).1) := if_pos hcs
      rw [hsub, hb.asks, htrade, hb.bids, hb.nextId]
      exact ⟨⟨hrest, rfl, h.nextOrderId.symm⟩, rfl⟩
  | sell hw =>
      obtain ⟨htrade, hrest⟩ := swept_refines hw (facing_of_uncrossed hs hu .bids) hc.bounded.bestBid hp
        hside c.traderId
      have hsub : b.submit c = (⟨(trade (withinLimit .bids c.price.toNat) c.traderId c.quantity.toNat b.bids).2.1,
          rest (better .asks) ⟨b.nextId, c.traderId, c.price.toNat,
            (trade (withinLimit .bids c.price.toNat) c.traderId c.quantity.toNat b.bids).2.2⟩ b.asks,
          b.nextId + 1⟩,
          (trade (withinLimit .bids c.price.toNat) c.traderId c.quantity.toNat b.bids).1) :=
        if_neg (by simp [hcs])
      rw [hsub, hb.bids, htrade, hb.asks, hb.nextId]
      exact ⟨⟨rfl, hrest, h.nextOrderId.symm⟩, rfl⟩
  | other h0 h1 =>
      rw [InRange, hcs] at hr
      simp [h0, h1] at hr

def dealOf (t : Trade) : Deal := ⟨t.makerId.toNat, t.takerId.toNat, t.price.toNat, t.quantity.toNat⟩

def acceptedDeals (log : List Entry) : List (List Deal) :=
  (log.filter Entry.accepted).map fun x => x.trades.map dealOf

theorem acceptedDeals_append (log : List Entry) (x : Entry) :
    acceptedDeals (log ++ [x]) = acceptedDeals log ++ if x.accepted then [x.trades.map dealOf] else [] := by
  cases hx : x.accepted <;> simp [acceptedDeals, hx]

theorem dealOf_trade {c : Call} {a a' : Levels} {left : Nat} {fs : List Fill}
    (h : Matched c.price.toNat c.side a c.quantity.toNat a' left fs) (hb : Bounded a) :
    (fs.map fun f => f.trade c.traderId).map dealOf = fs.map (deal c.traderId) := by
  have hquantity := Conservation.trade_quantity (Conservation.matched_small h) c.traderId
  rw [List.map_map]
  refine List.map_congr_left fun f hf => ?_
  have hp := level_le hb (h.maker_mem hf)
  have hfit : (UInt64.ofNat f.price).toNat = f.price :=
    UInt64.toNat_ofNat_of_lt' (by simp only [maxPriceTicks, UInt64.size] at *; omega)
  simp only [Function.comp_apply, dealOf, deal, hquantity f hf]
  simp only [Fill.trade, hfit, UInt32.toNat_toUInt64]

structure Agrees (s : Session) (a : Levels) : Prop extends Sided a where
  cursors : a.bestBid < a.bestAsk
  book : Refines s.engine a (Book.empty.replay (acceptedCalls s.log)).1
  deals : (Book.empty.replay (acceptedCalls s.log)).2 = acceptedDeals s.log

theorem init_agrees (n : Nat) : Agrees (.init n) .empty := by
  have hside : ∀ d, sideOf d .empty = [] := fun d => List.flatMap_eq_nil_iff.mpr fun p _ => rfl
  refine ⟨empty_sided, ?_, ⟨(hside .bids).symm, (hside .asks).symm, rfl⟩, rfl⟩
  simp only [Levels.empty, maxPriceTicks]
  omega

theorem submitted_agrees {n : Nat} {s s' : Session} {c : Call} {a a' : Levels} (hr : Ready n s a)
    (hc : InRange c) (h : Agrees s a) (hs : Submitted n s c a s' a') : Agrees s' a' := by
  cases hs with
  | rejected hl =>
      refine ⟨h.toSided, h.cursors, ?_, ?_⟩
      · rw [acceptedCalls_append]
        simpa using ⟨h.book.bids, h.book.asks, h.book.nextId⟩
      · rw [acceptedCalls_append, acceptedDeals_append]
        simpa using h.deals
  | @accepted e' slot b left fs hl hacc =>
      have hlimit : c.side = 0 ∧ c.price.toNat < maxPriceTicks ∨ c.side = 1 ∧ 0 < c.price.toNat :=
        hc.imp_right fun hv => ⟨hv.1, hv.2.1⟩
      obtain ⟨hbook, hdeals⟩ := accepted_refines hr.toConsistent h.toSided h.cursors hc hacc h.book
      have hreplay : Book.empty.replay (acceptedCalls (s.log ++
          [⟨c, true, fs.map fun f => f.trade c.traderId⟩])) =
          (((Book.empty.replay (acceptedCalls s.log)).1.submit c).1,
            (Book.empty.replay (acceptedCalls s.log)).2 ++
              [((Book.empty.replay (acceptedCalls s.log)).1.submit c).2]) := by
        rw [acceptedCalls_append]
        exact replay_append _ _ _
      refine ⟨?_, ?_, ?_, ?_⟩
      · exact restResidue_sided (matched_sided hacc.matched h.toSided) _ (hlimit.imp And.left And.left) _
      · exact matched_uncrossed hacc.matched h.cursors hlimit rfl
      · rw [hreplay]
        exact ⟨hbook.bids, hbook.asks, hbook.nextId⟩
      · rw [hreplay, acceptedDeals_append, h.deals, hdeals, if_pos rfl,
          dealOf_trade hacc.matched hr.bounded]

def quoteOf (x : Order) : UInt8 × Quote := (x.side, ⟨x.id, x.traderId, x.price.toNat, x.quantity.toNat⟩)

theorem sideOf_filter (d : Sweep) (a : Levels) {p : Nat} (hp : p ≤ maxPriceTicks) :
    ((sideOf d a).filter fun x => x.price = p) = makersAt d a p := by
  obtain ⟨xs, ys, hl, hxs, hys⟩ := ladder_split d hp
  have hnone (qs : List Nat) (hqs : ∀ q ∈ qs, q ≠ p) :
      ((qs.flatMap (makersAt d a)).filter fun x => x.price = p) = [] := by
    refine List.filter_eq_nil_iff.mpr fun x hx => ?_
    obtain ⟨q, hq, hm⟩ := List.mem_flatMap.mp hx
    simpa [(mem_makersAt hm).1] using hqs q hq
  have hall : ((makersAt d a p).filter fun x => x.price = p) = makersAt d a p :=
    List.filter_eq_self.mpr fun x hx => by simp [(mem_makersAt hx).1]
  rw [sideOf, hl, List.flatMap_append, List.flatMap_cons, List.filter_append, List.filter_append, hall,
    hnone xs fun q hq he => hxs q hq (he ▸ ahead_refl d p), hnone ys fun q hq => (hys q hq).2,
    List.nil_append, List.append_nil]

theorem level_parts {a : Levels} (hs : Sided a) (hu : a.bestBid < a.bestAsk) (p : Nat) :
    ((a.levels p).map fun r => (r.side, quote p r)) =
      ((makersAt .bids a p).map fun x => (0, x)) ++ (makersAt .asks a p).map fun x => (1, x) := by
  by_cases hp : p ≤ a.bestBid
  · have hall : ∀ r ∈ a.levels p, r.side = 0 := fun r hr =>
      (hs.either p r hr).resolve_right fun h1 => by
        have := hs.asks p r hr h1
        omega
    have hno : ∀ r ∈ a.levels p, r.side ≠ maker .asks := fun r hr h => by
      have := (hall r hr).symm.trans h
      revert this
      decide
    rw [makersAt_all (d := .bids) hall, makersAt_none hno, List.map_nil, List.append_nil, List.map_map]
    exact List.map_congr_left fun r hr => by rw [hall r hr]; rfl
  · have hall : ∀ r ∈ a.levels p, r.side = 1 := fun r hr =>
      (hs.either p r hr).resolve_left fun h0 => hp (hs.bids p r hr h0)
    have hno : ∀ r ∈ a.levels p, r.side ≠ maker .bids := fun r hr h => by
      have := (hall r hr).symm.trans h
      revert this
      decide
    rw [makersAt_all (d := .asks) hall, makersAt_none hno, List.map_nil, List.nil_append, List.map_map]
    exact List.map_congr_left fun r hr => by rw [hall r hr]; rfl

/-- The engine computes what the reference matcher computes on the accepted
calls: the same deals for each of them, and the same orders in the same order
at each price. A full `exec_q` is no exception here, because the model keeps
the trades that the source would write behind the array. -/
theorem price_time_priority {n : Nat} (hn : n ≤ 2 ^ 32) (calls : List Call) (hc : ∀ c ∈ calls, InRange c) :
    ∃ s, Session.after n calls = some s ∧
      acceptedDeals s.log = (Book.empty.replay (acceptedCalls s.log)).2 ∧
      ∀ p, p ≤ maxPriceTicks → ((s.engine.restingAt p).map fun x => quoteOf (s.engine.market.heap x)) =
        (Book.empty.replay (acceptedCalls s.log)).1.restingAt p := by
  have hprice : ∀ c, InRange c → c.price.toNat ≤ maxPriceTicks := by
    rintro c (h | h) <;> omega
  obtain ⟨s, a, hs, hr, ha⟩ := after_induction hn hprice (init_agrees n)
    (fun _ _ _ _ _ hr hc hi hs => submitted_agrees hr hc hi hs) hc
  refine ⟨s, hs, ha.deals.symm, fun p hp => ?_⟩
  have hview : ∀ r ∈ a.levels p, quoteOf (s.engine.market.heap r.slot) = (r.side, quote p r) := by
    intro r hr'
    have hd := hr.market.data p r hr'
    rw [quoteOf, quote, hd.side, hd.id, hd.traderId, hd.price, hd.quantity]
  rw [restingAt_eq hr.toConsistent, slots, List.map_map, Book.restingAt, ha.book.bids, ha.book.asks,
    sideOf_filter .bids a hp, sideOf_filter .asks a hp, ← level_parts ha.toSided ha.cursors]
  exact List.map_congr_left hview

theorem price_time_priority_sweep :
    ∃ s, Session.after 4 [⟨1, 100, 10, 1⟩, ⟨1, 101, 10, 2⟩, ⟨1, 100, 5, 3⟩, ⟨0, 101, 18, 4⟩] = some s ∧
      acceptedDeals s.log = (Book.empty.replay (acceptedCalls s.log)).2 := by
  have hc : ∀ c ∈ ([⟨1, 100, 10, 1⟩, ⟨1, 101, 10, 2⟩, ⟨1, 100, 5, 3⟩, ⟨0, 101, 18, 4⟩] : List Call), InRange c := by
    simp only [InRange, maxPriceTicks]
    decide
  obtain ⟨s, hs, hd, -⟩ := price_time_priority (by decide : 4 ≤ 2 ^ 32) _ hc
  exact ⟨s, hs, hd⟩

theorem replay_quiet (k : Nat) :
    (Book.empty.replay (List.replicate k SlotReuse.quiet)).1.asks = [] ∧
      (Book.empty.replay (List.replicate k SlotReuse.quiet)).1.bids.length = k ∧
      ∀ x ∈ (Book.empty.replay (List.replicate k SlotReuse.quiet)).1.bids, x.price = 0 := by
  induction k with
  | zero => exact ⟨rfl, rfl, by simp [Book.replay, Book.empty]⟩
  | succ k ih =>
      obtain ⟨hasks, hlen, hprice⟩ := ih
      rw [List.replicate_succ', replay_append]
      generalize (Book.empty.replay (List.replicate k SlotReuse.quiet)).1 = b at hasks hlen hprice
      obtain ⟨bids, asks, id⟩ := b
      obtain rfl : asks = [] := hasks
      have hsub : ((⟨bids, [], id⟩ : Book).submit SlotReuse.quiet).1 =
          ⟨bids.orderedInsert (fun x y => decide (x.price > y.price)) ⟨id, 1, 0, 1⟩, [], id + 1⟩ := rfl
      rw [hsub]
      refine ⟨rfl, (List.orderedInsert_length _ _ _).trans (congrArg Nat.succ hlen), fun x hx => ?_⟩
      rcases (List.mem_orderedInsert _).mp hx with rfl | hx
      · rfl
      · exact hprice x hx

/-- A pool with one object more than there are slot numbers gives slot 0 to
two orders. The reference then has `2 ^ 32 + 1` resting buys, the book one. -/
theorem reused_slot_not_priority :
    ∃ s, Session.after (2 ^ 32 + 1) (List.replicate (2 ^ 32 + 1) SlotReuse.quiet) = some s ∧
      ((s.engine.restingAt 0).map fun x => quoteOf (s.engine.market.heap x)) ≠
        (Book.empty.replay (acceptedCalls s.log)).1.restingAt 0 := by
  obtain ⟨s, hs, hlog, -, -, -, hzero, -⟩ := SlotReuse.slot_reused
  have hcalls : acceptedCalls s.log = List.replicate (2 ^ 32 + 1) SlotReuse.quiet := by
    rw [hlog, acceptedCalls, List.filter_replicate_of_pos rfl, List.map_replicate]
  obtain ⟨hasks, hlen, hprice⟩ := replay_quiet (2 ^ 32 + 1)
  refine ⟨s, hs, fun he => ?_⟩
  have hl := congrArg List.length he
  rw [hcalls, hzero, Book.restingAt, hasks, List.filter_eq_self.mpr fun x hx => by simp [hprice x hx]] at hl
  simp only [List.map_singleton, List.length_singleton, List.filter_nil, List.map_nil, List.append_nil,
    List.length_map, hlen] at hl
  omega

end Sequitur.PriceTimePriority
