import Sequitur.Answers

namespace Sequitur.BookSymmetry

open OrderBook LevelBook Accounting Families

section Mirror

/-- A book is looked at as it is or in the mirror, in which the prices run
downwards from the last tick and the two sides change places. -/
def price (mirrored : Bool) (p : Nat) : Nat := if mirrored then maxPriceTicks - p else p

def side (mirrored : Bool) (s : UInt8) : UInt8 :=
  if mirrored then if s = 0 then 1 else if s = 1 then 0 else s else s

def turn (mirrored : Bool) : Sweep → Sweep
  | .asks => if mirrored then .bids else .asks
  | .bids => if mirrored then .asks else .bids

variable {b : Bool} {d : Sweep} {c p q : Nat}

theorem price_le (b : Bool) (hp : p ≤ maxPriceTicks) : price b p ≤ maxPriceTicks := by
  cases b
  · exact hp
  · exact Nat.sub_le _ _

theorem price_price (b : Bool) (hp : p ≤ maxPriceTicks) : price b (price b p) = p := by
  cases b
  · rfl
  · exact Nat.sub_sub_self hp

theorem price_inj (hp : p ≤ maxPriceTicks) (hq : q ≤ maxPriceTicks) : price b p = price b q ↔ p = q := by
  refine ⟨fun h => ?_, fun h => h ▸ rfl⟩
  rw [← price_price b hp, ← price_price b hq, h]

theorem ahead_price (hc : c ≤ maxPriceTicks) (hp : p ≤ maxPriceTicks) :
    Ahead (turn b d) (price b c) (price b p) ↔ Ahead d c p := by
  cases b <;> cases d <;> simp [turn, price, Ahead] <;> omega

theorem limit_turn (b : Bool) (d : Sweep) : limit (turn b d) = price b (limit d) := by
  cases b <;> cases d <;> simp [turn, price, limit]

theorem limit_le (d : Sweep) : limit d ≤ maxPriceTicks := by
  cases d
  · exact Nat.le_refl _
  · exact Nat.zero_le _

end Mirror

section Alike

/-- Two resting orders that differ in the mirror, in their traders as far as
`ρ` allows it, and in what the book does not look at. -/
structure Counterpart (b : Bool) (ρ : UInt32 → UInt32 → Prop) (r r' : Resting) : Prop where
  side : r'.side = side b r.side
  quantity : r'.quantity = r.quantity
  trader : ρ r.traderId r'.traderId

structure Alike (b : Bool) (ρ : UInt32 → UInt32 → Prop) (a a' : Levels) : Prop where
  levels : ∀ p ≤ maxPriceTicks, List.Forall₂ (Counterpart b ρ) (a.levels p) (a'.levels (price b p))
  position : ∀ d, position (turn b d) a' = price b (position d a)
  bounded : ∀ d, LevelBook.position d a ≤ maxPriceTicks

structure FillAlike (b : Bool) (ρ : UInt32 → UInt32 → Prop) (f f' : Fill) : Prop where
  bounded : f.price ≤ maxPriceTicks
  price : f'.price = price b f.price
  maker : Counterpart b ρ f.maker f'.maker
  quantity : f'.quantity = f.quantity

variable {b : Bool} {ρ : UInt32 → UInt32 → Prop} {a a' : Levels} {d : Sweep}

theorem empty_alike (b : Bool) (ρ : UInt32 → UInt32 → Prop) : Alike b ρ .empty .empty := by
  refine ⟨fun p _ => .nil, fun d => ?_, fun d => ?_⟩
  · cases b <;> cases d <;> simp [turn, price, LevelBook.position, Levels.empty]
  · cases d <;> simp [LevelBook.position, Levels.empty]

theorem position_set (d : Sweep) (a : Levels) (p : Nat) (l : List Resting) :
    LevelBook.position d (a.set p l) = LevelBook.position d a := by
  cases d <;> rfl

theorem Alike.set (h : Alike b ρ a a') {p : Nat} (hp : p ≤ maxPriceTicks) {l l' : List Resting}
    (hl : List.Forall₂ (Counterpart b ρ) l l') : Alike b ρ (a.set p l) (a'.set (price b p) l') := by
  refine ⟨fun q hq => ?_, fun d => ?_, fun d => ?_⟩
  rotate_left
  · rw [position_set, position_set]
    exact h.position d
  · rw [position_set]
    exact h.bounded d
  by_cases he : q = p
  · subst he
    simpa using hl
  · rw [Levels.set_levels_of_ne _ he, Levels.set_levels_of_ne _ (mt (price_inj hq hp).mp he)]
    exact h.levels q hq

theorem Alike.fillHead (h : Alike b ρ a a') {p : Nat} (hp : p ≤ maxPriceTicks) {r r' : Resting}
    {rest rest' : List Resting} (hr : Counterpart b ρ r r') (hrest : List.Forall₂ (Counterpart b ρ) rest rest')
    (left : Nat) : Alike b ρ (a.fillHead p r rest left) (a'.fillHead (price b p) r' rest' left) := by
  refine h.set hp ?_
  rw [hr.quantity]
  split
  · exact hrest
  · exact .cons ⟨hr.side, rfl, hr.trader⟩ hrest

theorem Alike.advance (h : Alike b ρ a a') (hp : LevelBook.position d a ≠ limit d) :
    Alike b ρ (LevelBook.advance d a) (LevelBook.advance (turn b d) a') := by
  have hasks := h.position .asks
  have hbids := h.position .bids
  have hask := h.bounded .asks
  have hbid := h.bounded .bids
  refine ⟨fun q hq => ?_, fun d' => ?_, fun d' => ?_⟩
  · simpa using h.levels q hq
  · cases b <;> cases d <;> cases d' <;>
      simp [turn, price, LevelBook.position, LevelBook.advance, limit] at * <;> omega
  · cases d <;> cases d' <;> simp [LevelBook.position, LevelBook.advance, limit] at * <;> omega

theorem Alike.ahead (h : Alike b ρ a a') (d : Sweep) {p : Nat} (hp : p ≤ maxPriceTicks) :
    Ahead (turn b d) (LevelBook.position (turn b d) a') (price b p) ↔ Ahead d (LevelBook.position d a) p := by
  rw [h.position]
  exact ahead_price (h.bounded d) hp

theorem Alike.front (h : Alike b ρ a a') (d : Sweep) :
    List.Forall₂ (Counterpart b ρ) (a.levels (LevelBook.position d a))
      (a'.levels (LevelBook.position (turn b d) a')) := by
  rw [h.position]
  exact h.levels _ (h.bounded d)

theorem swept_alike {price₀ : Nat} (hprice : price₀ ≤ maxPriceTicks) {left left₁ left₁' : Nat} {a₁ a₁' : Levels}
    {fs fs' : List Fill} (h : Swept d price₀ a left a₁ left₁ fs) (ha : Alike b ρ a a')
    (h' : Swept (turn b d) (price b price₀) a' left a₁' left₁' fs') :
    left₁' = left₁ ∧ Alike b ρ a₁ a₁' ∧ List.Forall₂ (FillAlike b ρ) fs fs' := by
  induction h generalizing a' a₁' left₁' fs' with
  | @done a left hdone =>
      have hn : left = 0 ∨ ¬ Ahead (turn b d) (position (turn b d) a') (price b price₀) := by
        rw [ha.ahead d hprice]
        exact hdone
      rcases hn with hz | hn
      · obtain ⟨rfl, rfl, rfl⟩ := h'.of_zero hz
        exact ⟨hz.symm, ha, .nil⟩
      · obtain ⟨rfl, rfl, rfl⟩ := h'.of_not_ahead hn
        exact ⟨rfl, ha, .nil⟩
  | @last a left hl hw he hp =>
      have hw' := (ha.ahead d hprice).mpr hw
      have hfront := ha.front d
      rw [he] at hfront
      cases h' with
      | done hdone => exact absurd hw' (hdone.resolve_left (Nat.ne_of_gt hl))
      | last => exact ⟨rfl, ha, .nil⟩
      | skip _ _ _ hp' => exact absurd (by rw [ha.position, hp, limit_turn]) hp'
      | fill _ _ he' =>
          rw [he'] at hfront
          cases hfront
  | @skip a left a₁ left₁ fs hl hw he hp h ih =>
      have hw' := (ha.ahead d hprice).mpr hw
      have hfront := ha.front d
      rw [he] at hfront
      cases h' with
      | done hdone => exact absurd hw' (hdone.resolve_left (Nat.ne_of_gt hl))
      | last _ _ _ hp' =>
          rw [ha.position, limit_turn, price_inj (ha.bounded d) (limit_le d)] at hp'
          exact absurd hp' hp
      | skip _ _ _ _ h' => exact ih (ha.advance hp) h'
      | fill _ _ he' =>
          rw [he'] at hfront
          cases hfront
  | @fill a left a₁ left₁ fs r rest hl hw he h ih =>
      have hw' := (ha.ahead d hprice).mpr hw
      have hfront := ha.front d
      rw [he] at hfront
      cases h' with
      | done hdone => exact absurd hw' (hdone.resolve_left (Nat.ne_of_gt hl))
      | last _ _ he' | skip _ _ he' =>
          rw [he'] at hfront
          cases hfront
      | fill _ _ he' h' =>
          rw [he'] at hfront
          obtain ⟨hr, hrest⟩ := List.forall₂_cons.mp hfront
          rw [ha.position, hr.quantity] at h'
          obtain ⟨hleft, ha₁, hfs⟩ := ih (ha.fillHead (ha.bounded d) hr hrest left) h'
          exact ⟨hleft, ha₁, .cons ⟨ha.bounded d, ha.position d, hr, by rw [hr.quantity]⟩ hfs⟩

theorem matched_alike {p : Nat} (hp : p ≤ maxPriceTicks) {s : UInt8} {quantity left left' : Nat} {a₁ a₁' : Levels}
    {fs fs' : List Fill} (ha : Alike b ρ a a') (h : Matched p s a quantity a₁ left fs)
    (h' : Matched (price b p) (side b s) a' quantity a₁' left' fs') :
    left' = left ∧ Alike b ρ a₁ a₁' ∧ List.Forall₂ (FillAlike b ρ) fs fs' := by
  cases h with
  | buy h =>
      cases b with
      | false =>
          cases h' with
          | buy h' => exact swept_alike hp h ha h'
          | other hb => exact absurd rfl hb
      | true =>
          cases h' with
          | sell h' => exact swept_alike hp h ha h'
          | other _ hs => exact absurd rfl hs
  | sell h =>
      cases b with
      | false =>
          cases h' with
          | sell h' => exact swept_alike hp h ha h'
          | other _ hs => exact absurd rfl hs
      | true =>
          cases h' with
          | buy h' => exact swept_alike hp h ha h'
          | other hb => exact absurd rfl hb
  | other hb hs =>
      have hside : side b s = s := by cases b <;> simp [side, hb, hs]
      rw [hside] at h'
      cases h' with
      | buy => exact absurd rfl hb
      | sell => exact absurd rfl hs
      | other => exact ⟨rfl, ha, .nil⟩

theorem mirrored_side (s : UInt8) : (side true s = 0 ↔ s = 1) ∧ (side true s = 1 ↔ s = 0) := by
  by_cases hb : s = 0
  · simp [side, hb]
  · by_cases hs : s = 1
    · simp [side, hs]
    · simp [side, hb, hs]

theorem Alike.enqueue (h : Alike b ρ a a') {p : Nat} (hp : p ≤ maxPriceTicks) {r r' : Resting}
    (hr : Counterpart b ρ r r') : Alike b ρ (a.enqueue p r) (a'.enqueue (price b p) r') := by
  have hset := h.set hp (List.rel_append (h.levels p hp) (.cons hr .nil))
  have hasks := h.position .asks
  have hbids := h.position .bids
  have hask := h.bounded .asks
  have hbid := h.bounded .bids
  refine ⟨fun q hq => ?_, fun d => ?_, fun d => ?_⟩
  · rw [Levels.enqueue_levels, Levels.enqueue_levels]
    exact hset.levels q hq
  · have hside := hr.side
    cases b with
    | false =>
        cases d <;> simp_all [LevelBook.position, Levels.enqueue_bestAsk, Levels.enqueue_bestBid, price, side, turn]
    | true =>
        obtain ⟨hzero, hone⟩ := mirrored_side r.side
        rw [← hside] at hzero hone
        cases d <;>
          simp only [LevelBook.position, Levels.enqueue_bestAsk, Levels.enqueue_bestBid, price, turn, if_true, hzero,
            hone] at * <;>
          split <;> omega
  · cases d <;> simp only [LevelBook.position, Levels.enqueue_bestAsk, Levels.enqueue_bestBid] at * <;>
      split <;> omega

theorem Alike.restResidue (h : Alike b ρ a a') {p : Nat} (hp : p ≤ maxPriceTicks) {r r' : Resting}
    (hs : r'.side = side b r.side) (ht : ρ r.traderId r'.traderId) (left : Nat) :
    Alike b ρ (LevelBook.restResidue a p r left) (LevelBook.restResidue a' (price b p) r' left) := by
  rw [LevelBook.restResidue, LevelBook.restResidue]
  split
  · exact h.enqueue hp ⟨hs, rfl, ht⟩
  · exact h

theorem Alike.length_eq (h : Alike b ρ a a') : (restingIn a').length = (restingIn a).length := by
  have hlevel : ∀ p ∈ Finset.range (maxPriceTicks + 1), (a'.levels (price b p)).length = (a.levels p).length :=
    fun p hp => (h.levels p (Nat.lt_succ_iff.mp (Finset.mem_range.mp hp))).length_eq.symm
  rw [restingIn, restingIn, length_flatten, length_flatten, ← Finset.sum_congr rfl hlevel]
  cases b with
  | false => rfl
  | true => exact (Finset.sum_range_reflect (fun p => (a'.levels p).length) (maxPriceTicks + 1)).symm

end Alike

section Core

open Protocol CoreLoop Answers

/-- Two packets that look alike. `τ` says how their instruments and client
order ids may differ. -/
structure PacketAlike (b : Bool) (ρ : UInt32 → UInt32 → Prop) (τ : UInt32 × UInt64 → UInt32 × UInt64 → Prop)
    (p p' : IngressPacket) : Prop where
  type : p'.type = p.type
  side : p'.side = side b p.side
  quantity : p'.quantity = p.quantity
  bounded : p.price.toNat ≤ maxPriceTicks
  price : p'.price.toNat = price b p.price.toNat
  trader : ρ p.traderId p'.traderId
  tag : τ (p.instrumentId, p.clientOrderId) (p'.instrumentId, p'.clientOrderId)

def IdAlike (ρ : UInt32 → UInt32 → Prop) (x x' : UInt64) : Prop :=
  (x = 0 ∧ x' = 0) ∨ ∃ t t', ρ t t' ∧ x = t.toUInt64 ∧ x' = t'.toUInt64

structure ReportAlike (b : Bool) (ρ : UInt32 → UInt32 → Prop) (τ : UInt32 × UInt64 → UInt32 × UInt64 → Prop)
    (r r' : EgressPacket) : Prop where
  type : r'.type = r.type
  side : r'.side = side b r.side
  bounded : r.matchPrice.toNat ≤ maxPriceTicks
  price : r'.matchPrice.toNat = price b r.matchPrice.toNat
  matchQuantity : r'.matchQuantity = r.matchQuantity
  leavesQuantity : r'.leavesQuantity = r.leavesQuantity
  maker : IdAlike ρ r.makerId r'.makerId
  taker : IdAlike ρ r.takerId r'.takerId
  tag : τ (r.instrumentId, r.clientOrderId) (r'.instrumentId, r'.clientOrderId)

variable {b : Bool} {ρ : UInt32 → UInt32 → Prop} {τ : UInt32 × UInt64 → UInt32 × UInt64 → Prop}
  {a a' a₁ a₁' : Levels} {p p' : IngressPacket} {x x' : Answer}

theorem rejectPacket_alike (h : PacketAlike b ρ τ p p') :
    ReportAlike b ρ τ (rejectPacket (process p) p.price p.quantity)
      (rejectPacket (process p') p'.price p'.quantity) :=
  ⟨rfl, h.side, h.bounded, h.price, h.quantity, rfl, .inl ⟨rfl, rfl⟩, .inl ⟨rfl, rfl⟩, h.tag⟩

theorem reportPacket_alike (h : PacketAlike b ρ τ p p') :
    ReportAlike b ρ τ (reportPacket (process p) p.price p.quantity)
      (reportPacket (process p') p'.price p'.quantity) :=
  ⟨rfl, h.side, h.bounded, h.price, h.quantity, rfl, .inr ⟨_, _, h.trader, rfl, rfl⟩, .inl ⟨rfl, rfl⟩, h.tag⟩

theorem toNat_ofNat_price {q : Nat} (hq : q ≤ maxPriceTicks) : (UInt64.ofNat q).toNat = q := by
  rw [maxPriceTicks] at hq
  exact UInt64.toNat_ofNat_of_lt' (Nat.lt_of_le_of_lt hq (by decide))

theorem fillPacket_alike (h : PacketAlike b ρ τ p p') {f f' : Fill} (hf : FillAlike b ρ f f') :
    ReportAlike b ρ τ (fillPacket (process p) (f.trade p.traderId)) (fillPacket (process p') (f'.trade p'.traderId)) := by
  have hprice := toNat_ofNat_price hf.bounded
  refine ⟨rfl, h.side, ?_, ?_, ?_, rfl, .inr ⟨_, _, hf.maker.trader, rfl, rfl⟩, .inr ⟨_, _, h.trader, rfl, rfl⟩, h.tag⟩
  · exact hprice.trans_le hf.bounded
  · simp only [fillPacket, Fill.trade, hprice, hf.price]
    exact toNat_ofNat_price (price_le b hf.bounded)
  · simp only [fillPacket, Fill.trade, hf.quantity]

theorem consumed_alike (ha : Alike b ρ a a') (hp : PacketAlike b ρ τ p p') (h : Consumed a p x a₁)
    (h' : Consumed a' p' x' a₁') :
    Alike b ρ a₁ a₁' ∧ List.Forall₂ (ReportAlike b ρ τ) x.reports x'.reports := by
  cases h with
  | rejected hr =>
      cases h' with
      | rejected => exact ⟨ha, .cons (rejectPacket_alike hp) .nil⟩
      | accepted ht hl =>
          rw [ha.length_eq] at hl
          exact absurd (hr (hp.type ▸ ht)) (Nat.ne_of_lt hl)
  | @accepted slot id a₂ left fs gs ht hl hm htrades hsides =>
      cases h' with
      | rejected hr' =>
          have hfull := hr' (hp.type.trans ht)
          rw [ha.length_eq] at hfull
          exact absurd hfull (Nat.ne_of_lt hl)
      | @accepted slot' id' a₂' left' fs' gs' ht' hl' hm' htrades' hsides' =>
          rw [hp.price, hp.side, hp.quantity] at hm'
          obtain ⟨rfl, ha₂, hfs⟩ := matched_alike hp.bounded ha hm hm'
          refine ⟨?_, ?_⟩
          · rw [hp.price]
            exact ha₂.restResidue hp.bounded hp.side hp.trader left'
          · rw [htrades, htrades', reports, reports, if_pos rfl, if_pos rfl]
            cases hfs with
            | nil => exact .cons (reportPacket_alike hp) .nil
            | @cons f f' fs fs' hf hfs =>
                simp only [List.map_cons, reduceCtorEq, if_false]
                refine .cons (fillPacket_alike hp hf) ?_
                rw [List.forall₂_map_left_iff, List.forall₂_map_right_iff, List.forall₂_map_left_iff,
                  List.forall₂_map_right_iff]
                exact hfs.imp fun f f' hf => fillPacket_alike hp hf

structure CoresAlike (b : Bool) (ρ : UInt32 → UInt32 → Prop) (τ : UInt32 × UInt64 → UInt32 × UInt64 → Prop)
    (c c' : Core) : Prop where
  pushed : List.Forall₂ (ReportAlike b ρ τ) c.pushed c'.pushed
  books : ∃ a a', Stands ⟨c, []⟩ a ∧ Stands ⟨c', []⟩ a' ∧ Alike b ρ a a'

theorem consume_alike {c c' : Core} (h : CoresAlike b ρ τ c c') (hp : PacketAlike b ρ τ p p') :
    ∃ c₁ c₁', c.consume p = some c₁ ∧ c'.consume p' = some c₁' ∧ CoresAlike b ρ τ c₁ c₁' := by
  obtain ⟨a, a', hstands, hstands', ha⟩ := h.books
  have hprice : p'.price.toNat ≤ maxPriceTicks := by
    rw [hp.price]
    exact price_le b hp.bounded
  obtain ⟨j, x, a₁, hj, -, hpushed, hx, ha₁⟩ := consume_levels hstands hp.bounded
  obtain ⟨j', x', a₁', hj', -, hpushed', hx', ha₁'⟩ := consume_levels hstands' hprice
  obtain ⟨c₁, hc₁, rfl⟩ := Option.map_eq_some_iff.mp hj
  obtain ⟨c₁', hc₁', rfl⟩ := Option.map_eq_some_iff.mp hj'
  obtain ⟨halike, hreports⟩ := consumed_alike ha hp hx hx'
  refine ⟨c₁, c₁', hc₁, hc₁', ?_, a₁, a₁', ha₁, ha₁', halike⟩
  have he : c₁.pushed = c.pushed ++ x.reports := hpushed
  have he' : c₁'.pushed = c'.pushed ++ x'.reports := hpushed'
  rw [he, he']
  exact List.rel_append h.pushed hreports

theorem run_alike {packets packets' : List IngressPacket} (hp : List.Forall₂ (PacketAlike b ρ τ) packets packets') :
    ∃ c c', Runs.run Core.consume .init packets = some c ∧ Runs.run Core.consume .init packets' = some c' ∧
      List.Forall₂ (ReportAlike b ρ τ) c.pushed c'.pushed := by
  have hinit : CoresAlike b ρ τ .init .init := ⟨.nil, .empty, .empty, init_stands, init_stands, empty_alike b ρ⟩
  have hstep : ∀ c c' p p', CoresAlike b ρ τ c c' → PacketAlike b ρ τ p p' →
      ∃ c₁ c₁', c.consume p = some c₁ ∧ c'.consume p' = some c₁' ∧ CoresAlike b ρ τ c₁ c₁' :=
    fun _ _ _ _ h hp => consume_alike h hp
  obtain ⟨c, c', hc, hc', h⟩ := Runs.run_related hstep hp hinit
  exact ⟨c, c', hc, hc', h.pushed⟩

def mirror (p : IngressPacket) : IngressPacket :=
  { p with side := side true p.side, price := .ofNat (price true p.price.toNat) }

def mirrorReport (r : EgressPacket) : EgressPacket :=
  { r with side := side true r.side, matchPrice := .ofNat (price true r.matchPrice.toNat) }

theorem mirror_alike (hp : p.price.toNat ≤ maxPriceTicks) : PacketAlike true Eq Eq p (mirror p) :=
  ⟨rfl, rfl, rfl, hp, toNat_ofNat_price (price_le true hp), rfl, rfl⟩

theorem idAlike_eq {x x' : UInt64} (h : IdAlike Eq x x') : x' = x := by
  rcases h with ⟨rfl, rfl⟩ | ⟨t, t', rfl, rfl, rfl⟩ <;> rfl

theorem eq_mirrorReport {r r' : EgressPacket} (h : ReportAlike true Eq Eq r r') : r' = mirrorReport r := by
  obtain ⟨htype, hside, -, hprice, hquantity, hleaves, hmaker, htaker, htag⟩ := h
  obtain ⟨hinstrument, hclient⟩ := Prod.mk.inj htag
  cases r
  cases r'
  simp only [mirrorReport, EgressPacket.mk.injEq]
  exact ⟨htype, hside, hinstrument.symm, hclient.symm, idAlike_eq hmaker, idAlike_eq htaker,
    UInt64.ofNat_toNat.symm.trans (congrArg UInt64.ofNat hprice), hquantity, hleaves⟩

/-- The book treats its two sides alike: if every order is turned into its
mirror image, so is every report. -/
theorem mirrored_reports {packets : List IngressPacket} (hp : ∀ p ∈ packets, p.price.toNat ≤ maxPriceTicks) :
    ∃ c c', Runs.run Core.consume .init packets = some c ∧
      Runs.run Core.consume .init (packets.map mirror) = some c' ∧ c'.pushed = c.pushed.map mirrorReport := by
  have halike : List.Forall₂ (PacketAlike true Eq Eq) packets (packets.map mirror) :=
    List.forall₂_map_right_iff.mpr (List.forall₂_same.mpr fun p hm => mirror_alike (hp p hm))
  obtain ⟨c, c', hc, hc', h⟩ := run_alike halike
  refine ⟨c, c', hc, hc', ?_⟩
  have hmap : List.Forall₂ Eq (c.pushed.map mirrorReport) c'.pushed :=
    List.forall₂_map_left_iff.mpr (h.imp fun r r' hr => (eq_mirrorReport hr).symm)
  exact (List.forall₂_eq_eq_eq ▸ hmap).symm

def crossing : List IngressPacket := [⟨newOrder, 1, 1, 7, 5, 100, 1⟩, ⟨newOrder, 0, 2, 8, 3, 110, 2⟩]

theorem mirrored_reports_crossing :
    ∃ c c', Runs.run Core.consume .init crossing = some c ∧
      Runs.run Core.consume .init (crossing.map mirror) = some c' ∧ c'.pushed = c.pushed.map mirrorReport :=
  mirrored_reports (by decide +kernel)

def essence (p : IngressPacket) : UInt8 × UInt8 × UInt64 × UInt32 := (p.type, p.side, p.price, p.quantity)

def reportEssence (r : EgressPacket) : EgressType × UInt8 × UInt64 × UInt32 :=
  (r.type, r.side, r.matchPrice, r.matchQuantity)

/-- Who sends an order, for which instrument and under which client order id
has no influence on what is traded: packets that agree in type, side, price and
quantity are answered with reports that do. -/
theorem identities_without_influence {packets packets' : List IngressPacket}
    (h : packets'.map essence = packets.map essence) (hp : ∀ p ∈ packets, p.price.toNat ≤ maxPriceTicks) :
    ∃ c c', Runs.run Core.consume .init packets = some c ∧ Runs.run Core.consume .init packets' = some c' ∧
      c'.pushed.map reportEssence = c.pushed.map reportEssence := by
  have hsame : List.Forall₂ Eq (packets.map essence) (packets'.map essence) := List.forall₂_eq_eq_eq ▸ h.symm
  rw [List.forall₂_map_left_iff, List.forall₂_map_right_iff] at hsame
  have halike : List.Forall₂ (PacketAlike false (fun _ _ => True) (fun _ _ => True)) packets packets' := by
    refine ((List.forall₂_and_left _ _).mpr ⟨hp, hsame⟩).imp fun p p' hpp => ?_
    obtain ⟨hprice, he⟩ := hpp
    simp only [essence, Prod.mk.injEq] at he
    exact ⟨he.1.symm, he.2.1.symm, he.2.2.2.symm, hprice, congrArg UInt64.toNat he.2.2.1.symm, trivial, trivial⟩
  obtain ⟨c, c', hc, hc', hreports⟩ := run_alike halike
  refine ⟨c, c', hc, hc', ?_⟩
  have hmap : List.Forall₂ Eq (c'.pushed.map reportEssence) (c.pushed.map reportEssence) := by
    rw [List.forall₂_map_left_iff, List.forall₂_map_right_iff]
    refine hreports.flip.imp fun r' r hr => ?_
    simp only [reportEssence, Prod.mk.injEq]
    exact ⟨hr.type, hr.side, UInt64.toNat_inj.mp hr.price, hr.matchQuantity⟩
  exact List.forall₂_eq_eq_eq ▸ hmap

theorem identities_without_influence_crossing :
    ∃ c c', Runs.run Core.consume .init crossing = some c ∧
      Runs.run Core.consume .init [⟨newOrder, 1, 3, 9, 5, 100, 6⟩, ⟨newOrder, 0, 3, 9, 3, 110, 6⟩] = some c' ∧
      c'.pushed.map reportEssence = c.pushed.map reportEssence :=
  identities_without_influence (by decide) (by decide +kernel)

end Core

end Sequitur.BookSymmetry
