import Sequitur.Accounting
import Sequitur.Runs
import Sequitur.Simulation

namespace Sequitur.Cursors

open OrderBook LevelBook LinkedLists Abstraction Simulation Accounting

structure Sided (a : Levels) : Prop where
  either : ∀ p, ∀ r ∈ a.levels p, r.side = 0 ∨ r.side = 1
  bids : ∀ p, ∀ r ∈ a.levels p, r.side = 0 → p ≤ a.bestBid
  asks : ∀ p, ∀ r ∈ a.levels p, r.side = 1 → a.bestAsk ≤ p

theorem empty_sided : Sided .empty := by
  refine ⟨?_, ?_, ?_⟩ <;> simp [Levels.empty]

theorem swept_ahead {d : Sweep} {price : Nat} {a a' : Levels} {left left' : Nat} {fs : List Fill}
    (h : Swept d price a left a' left' fs) {p : Nat} {r : Resting} (hr : r ∈ a'.levels p)
    (hp : Ahead d (position d a) p) : Ahead d (position d a') p := by
  refine Classical.byContradiction fun hn => ?_
  rw [h.levels_passed p hp hn] at hr
  simp at hr

theorem matched_sided {price : Nat} {side : UInt8} {a a' : Levels} {quantity left : Nat}
    {fs : List Fill} (h : Matched price side a quantity a' left fs) (hs : Sided a) : Sided a' := by
  have hfrom : ∀ p, ∀ r ∈ a'.levels p, ∃ r₀ ∈ a.levels p, r₀.side = r.side := by
    intro p r hr
    obtain ⟨r₀, hr₀, hl⟩ := h.mem hr
    exact ⟨r₀, hr₀, hl.2.2.1.symm⟩
  refine ⟨?_, ?_, ?_⟩
  · intro p r hr
    obtain ⟨r₀, hr₀, he⟩ := hfrom p r hr
    exact he ▸ hs.either p r₀ hr₀
  · intro p r hr hb
    obtain ⟨r₀, hr₀, he⟩ := hfrom p r hr
    have hp := hs.bids p r₀ hr₀ (he.trans hb)
    cases h with
    | buy h => exact Nat.le_trans hp (Nat.le_of_eq h.opposite_eq.symm)
    | sell h => exact swept_ahead h hr hp
    | other => exact hp
  · intro p r hr hb
    obtain ⟨r₀, hr₀, he⟩ := hfrom p r hr
    have hp := hs.asks p r₀ hr₀ (he.trans hb)
    cases h with
    | buy h => exact swept_ahead h hr hp
    | sell h => exact Nat.le_trans (Nat.le_of_eq h.opposite_eq) hp
    | other => exact hp

theorem restResidue_sided {a : Levels} (hs : Sided a) (p : Nat) {r : Resting}
    (hr : r.side = 0 ∨ r.side = 1) (left : Nat) : Sided (restResidue a p r left) := by
  rw [restResidue]
  split
  · refine ⟨?_, ?_, ?_⟩
    · intro q x hx
      rcases Levels.mem_enqueue.mp hx with hx | ⟨-, rfl⟩
      · exact hs.either q x hx
      · exact hr
    · intro q x hx hb
      rw [Levels.enqueue_bestBid]
      rcases Levels.mem_enqueue.mp hx with hx | ⟨rfl, rfl⟩
      · have := hs.bids q x hx hb
        split <;> omega
      · rw [if_pos hb]
        exact Nat.le_max_left _ _
    · intro q x hx hb
      rw [Levels.enqueue_bestAsk]
      rcases Levels.mem_enqueue.mp hx with hx | ⟨rfl, rfl⟩
      · have := hs.asks q x hx hb
        split <;> omega
      · rw [if_pos hb]
        exact Nat.min_le_left _ _
  · exact hs

def taker : Sweep → UInt8
  | .asks => 0
  | .bids => 1

def counter : Sweep → Sweep
  | .asks => .bids
  | .bids => .asks

theorem ahead_limit {d : Sweep} {p : Nat} (h : Ahead d (limit d) p) (hp : p ≤ maxPriceTicks) :
    p = limit d := by
  cases d <;> simp only [Ahead, limit] at * <;> omega

section

variable {d : Sweep} {a : Levels}

theorem sided_maker (h : Sided a) {p : Nat} {r : Resting} (hr : r ∈ a.levels p) (hs : r.side ≠ taker d) :
    Ahead d (position d a) p := by
  have he := h.either p r hr
  cases d with
  | asks => exact h.asks p r hr (he.resolve_left hs)
  | bids => exact h.bids p r hr (he.resolve_right hs)

theorem sided_taker (h : Sided a) {p : Nat} {r : Resting} (hr : r ∈ a.levels p) (hs : r.side = taker d) :
    Ahead d p (opposite d a) := by
  cases d with
  | asks => exact h.bids p r hr hs
  | bids => exact h.asks p r hr hs

theorem position_le (hb : Bounded a) : position d a ≤ maxPriceTicks := by
  cases d
  · exact hb.bestAsk
  · exact hb.bestBid

theorem level_le (hb : Bounded a) {p : Nat} {r : Resting} (hr : r ∈ a.levels p) : p ≤ maxPriceTicks :=
  Nat.le_of_not_lt fun hp => by
    rw [hb.levels p hp] at hr
    simp at hr

end

/-- Limits inside the array: the loop then ends either with nothing left or
with the cursor beyond the limit, so the residue does not meet it. -/
theorem matched_uncrossed {price : Nat} {side : UInt8} {a a' : Levels} {quantity left : Nat}
    {fs : List Fill} (h : Matched price side a quantity a' left fs) (hu : a.bestBid < a.bestAsk)
    (hv : side = 0 ∧ price < maxPriceTicks ∨ side = 1 ∧ 0 < price) {r : Resting} (hr : r.side = side) :
    (restResidue a' price r left).bestBid < (restResidue a' price r left).bestAsk := by
  rw [restResidue]
  cases h with
  | buy h =>
      have hb : a'.bestBid = a.bestBid := h.opposite_eq
      have ha : a.bestAsk ≤ a'.bestAsk := h.ahead
      split
      next hl =>
        rw [Levels.enqueue_bestBid, Levels.enqueue_bestAsk, if_pos hr, if_neg (by simp [hr])]
        have hx := h.exit
        simp only [Ahead, position, limit] at hx
        simp at hv
        omega
      next => omega
  | sell h =>
      have ha : a'.bestAsk = a.bestAsk := h.opposite_eq
      have hb : a'.bestBid ≤ a.bestBid := h.ahead
      split
      next hl =>
        rw [Levels.enqueue_bestBid, Levels.enqueue_bestAsk, if_neg (by simp [hr]), if_pos hr]
        have hx := h.exit
        simp only [Ahead, position, limit] at hx
        simp at hv
        omega
      next => omega
  | other hb hs => simp [hb, hs] at hv

/-- One call of `match_order`: the caller has filled the order in `slot` and
passes its own two queues. -/
structure Offer where
  slot : Nat
  order : Order
  execQ : FixedQueue Trade
  trashQ : FixedQueue Nat

def Offer.Valid (c : Offer) : Prop :=
  c.order.side = 0 ∧ c.order.price.toNat < maxPriceTicks ∨
    c.order.side = 1 ∧ 0 < c.order.price.toNat ∧ c.order.price.toNat ≤ maxPriceTicks

def Offer.place (c : Offer) (m : Market) : Market :=
  { m.setOrder c.slot fun _ => c.order with execQ := c.execQ, trashQ := c.trashQ }

def offer (m : Market) (c : Offer) : Option Market := matchOrder (c.place m) c.slot

/-- The order in slot `x` is reached from the head of level `p`. -/
def Rests (m : Market) (p x : Nat) : Prop :=
  ∃ k, x ∈ walk (fun o => (m.heap o).nextOrder) k (m.book p).head

theorem rests_iff {m : Market} {a : Levels} (h : Represents m a) {p x : Nat} :
    Rests m p x ↔ x ∈ slots (a.levels p) := h.links.reached_iff p x

structure Uncrossed (m : Market) (a : Levels) : Prop where
  market : Represents m a
  positive : Positive a
  bounded : Bounded a
  sided : Sided a
  cursors : a.bestBid < a.bestAsk

theorem init_uncrossed (heap : Nat → Order) : Uncrossed (.init heap) .empty where
  market := init_represents heap
  positive := by simp [Positive, Levels.empty]
  bounded := empty_bounded
  sided := empty_sided
  cursors := by
    simp only [Levels.empty, maxPriceTicks]
    omega

theorem place_represents {m : Market} {a : Levels} (h : Represents m a) {c : Offer} (hu : Unlinked a c.slot) :
    Represents (c.place m) a := by
  have hs := setOrder_represents h hu fun _ => c.order
  exact ⟨hs.links, hs.data, hs.volume, hs.bestBid, hs.bestAsk⟩

theorem place_heap (m : Market) (c : Offer) : (c.place m).heap c.slot = c.order := Function.update_self ..

theorem offer_simulates {m : Market} {a : Levels} (h : Represents m a) (hpos : Positive a) (hb : Bounded a)
    {c : Offer} (hu : Unlinked a c.slot) :
    ∃ m' a' left fs r, offer m c = some m' ∧
      Matched c.order.price.toNat c.order.side a c.order.quantity.toNat a' left fs ∧
      r.side = c.order.side ∧ Represents m' (restResidue a' c.order.price.toNat r left) ∧
      ∀ p, ∀ x ∈ slots ((restResidue a' c.order.price.toNat r left).levels p),
        x = c.slot ∨ x ∈ slots (a.levels p) := by
  obtain ⟨m', a', left, fs, hr, hm, -, hmr, -⟩ :=
    matchOrder_simulates (place_represents h hu) hu hpos hb.bestBid hb.bestAsk
  have hside : (resting (c.place m) c.slot).side = c.order.side := congrArg Order.side (place_heap m c)
  rw [place_heap] at hm hmr
  refine ⟨m', a', left, fs, _, hr, hm, hside, hmr, fun p x hx => ?_⟩
  obtain ⟨r, hr, rfl⟩ := List.mem_map.mp hx
  have hold : ∀ y ∈ a'.levels p, y.slot ∈ slots (a.levels p) := by
    intro y hy
    obtain ⟨r₀, hr₀, hl⟩ := hm.mem hy
    exact hl.1 ▸ mem_slots hr₀
  rw [restResidue] at hr
  split at hr
  · rcases Levels.mem_enqueue.mp hr with hr | ⟨-, rfl⟩
    · exact .inr (hold r hr)
    · exact .inl rfl
  · exact .inr (hold r hr)

theorem offer_uncrossed {m : Market} {a : Levels} (h : Uncrossed m a) {c : Offer} (hv : c.Valid)
    (hu : Unlinked a c.slot) :
    ∃ m' a', offer m c = some m' ∧ Uncrossed m' a' ∧
      ∀ p, ∀ x ∈ slots (a'.levels p), x = c.slot ∨ x ∈ slots (a.levels p) := by
  obtain ⟨m', a', left, fs, r, hr, hm, hside, hmr, hfrom⟩ := offer_simulates h.market h.positive h.bounded hu
  have hp : c.order.price.toNat ≤ maxPriceTicks := by
    rcases hv with hv | hv <;> omega
  have hlimit : c.order.side = 0 ∧ c.order.price.toNat < maxPriceTicks ∨
      c.order.side = 1 ∧ 0 < c.order.price.toNat := hv.imp_right fun hv => ⟨hv.1, hv.2.1⟩
  refine ⟨m', _, hr, ⟨hmr, ?_, ?_, ?_, ?_⟩, hfrom⟩
  · exact restResidue_positive (hm.positive h.positive) _ _ _
  · exact restResidue_bounded (matched_bounded hm h.bounded) hp _ _
  · exact restResidue_sided (matched_sided hm h.sided) _ (hside ▸ hlimit.imp And.left And.left) _
  · exact matched_uncrossed hm h.cursors hlimit hside

def Unused (m : Market) (c : Offer) : Prop := ∀ p, ¬ Rests m p c.slot

theorem unused_iff {m : Market} {a : Levels} (h : Represents m a) {c : Offer} :
    Unused m c ↔ Unlinked a c.slot :=
  forall_congr' fun _ => (rests_iff h).not

theorem unused_of_nodup {offers : List Offer} {m : Market} {a : Levels} (h : Uncrossed m a)
    (hv : ∀ c ∈ offers, c.Valid) (hn : (offers.map Offer.slot).Nodup)
    (ha : ∀ p, ∀ x ∈ slots (a.levels p), x ∉ offers.map Offer.slot) :
    Runs.Along offer Unused m offers := by
  induction offers generalizing m a with
  | nil => trivial
  | cons c cs ih =>
      rw [List.map_cons] at hn ha
      obtain ⟨hc, hn⟩ := List.nodup_cons.mp hn
      have hu : Unlinked a c.slot := fun p hp => ha p c.slot hp List.mem_cons_self
      refine ⟨(unused_iff h.market).mpr hu, fun m' hm => ?_⟩
      obtain ⟨m₁, a', hr, h', hfrom⟩ := offer_uncrossed h (hv c List.mem_cons_self) hu
      obtain rfl : m₁ = m' := Option.some.inj (hr.symm.trans hm)
      refine ih h' (fun d hd => hv d (List.mem_cons_of_mem _ hd)) hn fun p x hx hxs => ?_
      rcases hfrom p x hx with rfl | hx
      · exact hc hxs
      · exact ha p x hx (List.mem_cons_of_mem _ hxs)

/-- After any calls with limits inside the array the cursors are apart, and
they separate the resting buys from the resting sells. The two queues are taken
to be long enough for every call. -/
theorem book_uncrossed (heap : Nat → Order) (offers : List Offer) (hv : ∀ c ∈ offers, c.Valid)
    (hu : Runs.Along offer Unused (.init heap) offers) :
    ∃ m, Runs.run offer (.init heap) offers = some m ∧
      m.bestBid < m.bestAsk ∧ m.bestAsk.toNat ≤ maxPriceTicks ∧
      (∀ p x, Rests m p x → (m.heap x).price.toNat = p ∧
        ((m.heap x).side = 0 ∧ p ≤ m.bestBid.toNat ∧ p < m.bestAsk.toNat ∨
          (m.heap x).side = 1 ∧ m.bestAsk.toNat ≤ p ∧ m.bestBid.toNat < p)) ∧
      (∀ p x y, Rests m p x → Rests m p y → (m.heap x).side = (m.heap y).side) ∧
      ∀ p q x y, Rests m p x → Rests m q y → (m.heap x).side = 0 → (m.heap y).side = 1 → p < q := by
  have hvalid : Runs.Along offer (fun _ c => c.Valid) (.init heap) offers := .of_forall fun c hc _ => hv c hc
  have hstep : ∀ m c, (∃ a, Uncrossed m a) → c.Valid ∧ Unused m c →
      ∃ m', offer m c = some m' ∧ ∃ a, Uncrossed m' a := by
    rintro m c ⟨a, ha⟩ ⟨hc, hun⟩
    obtain ⟨m', a', hr, h', -⟩ := offer_uncrossed ha hc ((unused_iff ha.market).mp hun)
    exact ⟨m', hr, a', h'⟩
  obtain ⟨m, hr, a, ha⟩ := Runs.run_total hstep ⟨.empty, init_uncrossed heap⟩ (hvalid.and hu)
  have hcursors := ha.cursors
  have hrests : ∀ p x, Rests m p x → (m.heap x).price.toNat = p ∧
      ((m.heap x).side = 0 ∧ p ≤ m.bestBid.toNat ∧ p < m.bestAsk.toNat ∨
        (m.heap x).side = 1 ∧ m.bestAsk.toNat ≤ p ∧ m.bestBid.toNat < p) := by
    intro p x hx
    obtain ⟨r, hr, rfl⟩ := List.mem_map.mp ((rests_iff ha.market).mp hx)
    have hs := ha.market.data p r hr
    rw [hs.side, ha.market.bestBid, ha.market.bestAsk]
    refine ⟨hs.price, (ha.sided.either p r hr).imp (fun h0 => ?_) fun h1 => ?_⟩
    · have := ha.sided.bids p r hr h0
      exact ⟨h0, this, by omega⟩
    · have := ha.sided.asks p r hr h1
      exact ⟨h1, this, by omega⟩
  refine ⟨m, hr, ?_, Nat.le_trans (Nat.le_of_eq ha.market.bestAsk) ha.bounded.bestAsk, hrests, ?_, ?_⟩
  · rwa [UInt64.lt_iff_toNat_lt, ha.market.bestBid, ha.market.bestAsk]
  · intro p x y hx hy
    have h₁ := (hrests p x hx).2
    have h₂ := (hrests p y hy).2
    rcases h₁ with h₁ | h₁ <;> rcases h₂ with h₂ | h₂
    · exact h₁.1.trans h₂.1.symm
    · omega
    · omega
    · exact h₁.1.trans h₂.1.symm
  · intro p q x y hx hy h0 h1
    have h₁ := (hrests p x hx).2
    have h₂ := (hrests q y hy).2
    simp only [h0, h1] at h₁ h₂
    simp at h₁ h₂
    omega

theorem book_uncrossed_sweep :
    ∃ m, Runs.run offer (.init fun _ => .zero)
        [⟨0, ⟨1, 7, 100, 10, none, none, 1⟩, .empty, .empty⟩, ⟨1, ⟨2, 7, 105, 10, none, none, 1⟩, .empty, .empty⟩,
          ⟨2, ⟨3, 8, 103, 15, none, none, 0⟩, .empty, .empty⟩] = some m ∧ m.bestBid < m.bestAsk := by
  have hv : ∀ c ∈ ([⟨0, ⟨1, 7, 100, 10, none, none, 1⟩, .empty, .empty⟩,
      ⟨1, ⟨2, 7, 105, 10, none, none, 1⟩, .empty, .empty⟩,
      ⟨2, ⟨3, 8, 103, 15, none, none, 0⟩, .empty, .empty⟩] : List Offer), c.Valid := by
    simp only [List.mem_cons, List.not_mem_nil, or_false, forall_eq_or_imp, forall_eq, Offer.Valid, maxPriceTicks]
    decide
  obtain ⟨m, hr, h, -⟩ := book_uncrossed (fun _ => .zero) _ hv
    (unused_of_nodup (init_uncrossed _) hv (by decide) (by simp [Levels.empty]))
  exact ⟨m, hr, h⟩

end Sequitur.Cursors
