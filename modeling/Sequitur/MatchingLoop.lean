import Sequitur.BookState
import Sequitur.Cursors
import Sequitur.QueueBounds

namespace Sequitur.MatchingLoop

open OrderBook LevelBook LinkedLists Abstraction Simulation Accounting Cursors Histories Marketable QueueBounds

/-- One execution of the body of a matching loop, if the loop does not end
before it or in it. -/
def round (d : Sweep) (incoming : Nat) (m : Market) : Option Market :=
  if 0 < (m.heap incoming).quantity ∧ d.reaches (d.cursor m) (m.heap incoming).price then
    let p := (d.cursor m).toNat
    let m := m.touch p
    match (m.book p).head with
    | some resting => some (m.fill p incoming resting)
    | none => if d.cursor m = d.last then none else some (d.advance m)
  else none

def entered (m : Market) (incoming : Nat) : Option Sweep :=
  let order := m.heap incoming
  if order.side = 0 ∧ order.price ≥ m.bestAsk then some .asks
  else if order.side = 1 ∧ order.price ≤ m.bestBid then some .bids
  else none

/-- The loop is left in `m`, or from its body: the last level is then read
once more. -/
def leave (d : Sweep) (incoming : Nat) (m : Market) : Market :=
  if 0 < (m.heap incoming).quantity ∧ d.reaches (d.cursor m) (m.heap incoming).price then
    m.touch (d.cursor m).toNat
  else m

def rest (incoming : Nat) (m : Market) : Market :=
  if 0 < (m.heap incoming).quantity then m.insertOrder incoming else m

def Rounds (d : Sweep) (incoming : Nat) : Market → Market → Prop :=
  Relation.ReflTransGen fun m m' => round d incoming m = some m'

section Loop

variable {d : Sweep} {inc : Nat} {m m' : Market}

theorem matchLoop_eq (m : Market) (inc : Nat) :
    matchLoop m inc =
      (entered m inc).elim (some m) fun d => sweep d inc (fuelFor (m.heap inc).quantity) m := by
  -- by rewriting: the kernel would unfold the loop to see that both sides are the same
  rw [matchLoop, entered]
  split
  · rw [Option.elim_some]
  · split
    · rw [Option.elim_some]
    · rw [Option.elim_none]

theorem sweep_succ (fuel : Nat) :
    sweep d inc (fuel + 1) m = (round d inc m).elim (some (leave d inc m)) (sweep d inc fuel) := by
  by_cases hc : 0 < (m.heap inc).quantity ∧ d.reaches (d.cursor m) (m.heap inc).price
  · rw [sweep, round, leave, if_pos hc, if_pos hc, if_pos hc]
    cases hh : ((m.touch (d.cursor m).toNat).book (d.cursor m).toNat).head with
    | some resting => simp only [hh, Option.elim_some]
    | none =>
        simp only [hh]
        split
        · rw [Option.elim_none]
        · rw [Option.elim_some]
  · rw [sweep, round, leave, if_neg hc, if_neg hc, if_neg hc, Option.elim_none]

/-- A run of the loop that ends passes through its rounds to a state that has
no other one, and is left there. -/
theorem sweep_rounds {fuel : Nat} (h : sweep d inc fuel m = some m') :
    ∃ n, Rounds d inc m n ∧ round d inc n = none ∧ m' = leave d inc n := by
  induction fuel generalizing m with
  | zero => cases h
  | succ fuel ih =>
      rw [sweep_succ] at h
      cases hr : round d inc m with
      | none =>
          rw [hr, Option.elim_none] at h
          exact ⟨m, .refl, hr, (Option.some.inj h).symm⟩
      | some u =>
          rw [hr, Option.elim_some] at h
          obtain ⟨n, hn, he⟩ := ih h
          exact ⟨n, .head hr hn, he⟩

theorem round_cases (h : round d inc m = some m') :
    0 < (m.heap inc).quantity ∧
      ((∃ resting, (m.book (d.cursor m).toNat).head = some resting ∧
          m' = (m.touch (d.cursor m).toNat).fill (d.cursor m).toNat inc resting) ∨
        ((m.book (d.cursor m).toNat).head = none ∧ d.cursor m ≠ d.last ∧
          m' = d.advance (m.touch (d.cursor m).toNat))) := by
  have htouch : d.cursor (m.touch (d.cursor m).toNat) = d.cursor m := by cases d <;> rfl
  rw [round] at h
  split at h
  next hc =>
    refine ⟨hc.1, ?_⟩
    dsimp only at h
    split at h
    next resting hh => exact .inl ⟨resting, hh, (Option.some.inj h).symm⟩
    next hh =>
      split at h
      next => cases h
      next hl => exact .inr ⟨hh, htouch ▸ hl, (Option.some.inj h).symm⟩
  next => cases h

theorem round_extends (h : round d inc m = some m') : Extends m m' := by
  have ht := touch_extends m (d.cursor m).toNat
  obtain ⟨-, ⟨resting, -, rfl⟩ | ⟨-, -, rfl⟩⟩ := round_cases h
  · exact ht.trans (fill_extends _ _ _ _)
  · exact ht.trans (advance_extends d _)

theorem rounds_extends (h : Rounds d inc m m') : Extends m m' := by
  induction h with
  | refl => exact .refl m
  | tail _ hr ih => exact ih.trans (round_extends hr)

theorem rounds_within {n : Market} (hn : Rounds d inc m n) (he : round d inc n = none) (hw : Within n)
    (h : Rounds d inc m m') : Within m' := by
  have hunique : Relator.RightUnique fun m m' => round d inc m = some m' :=
    fun _ _ _ h₁ h₂ => Option.some.inj (h₁.symm.trans h₂)
  rcases Relation.ReflTransGen.total_of_right_unique hunique h hn with hto | hto
  · exact hw.of_extends (rounds_extends hto)
  · cases hto.cases_head with
    | inl heq => exact heq ▸ hw
    | inr hstep =>
        obtain ⟨u, hu, -⟩ := hstep
        rw [he] at hu
        cases hu

theorem leave_execQ : (leave d inc m).execQ = m.execQ := by
  rw [leave]
  split <;> rfl

theorem leave_trashQ : (leave d inc m).trashQ = m.trashQ := by
  rw [leave]
  split <;> rfl

theorem entered_side (h : entered m inc = some d) : (m.heap inc).side = taker d := by
  rw [entered] at h
  split at h
  next hb => exact Option.some.inj h ▸ hb.1
  next =>
    split at h
    next hs => exact Option.some.inj h ▸ hs.1
    next => cases h

theorem offer_eq (m : Market) (c : Offer) : offer m c = (matchLoop (c.place m) c.slot).map (rest c.slot) := rfl

end Loop

/-- Level `p` links exactly the orders `l`, which have `q` open in all, and
its volume is `q` modulo 2³². -/
structure Holding (m : Market) (p : Nat) (l : List Nat) (q : Nat) : Prop where
  nodup : l.Nodup
  mem : ∀ x, x ∈ l ↔ Rests m p x
  total : q = (l.map fun x => (m.heap x).quantity.toNat).sum
  volume : (m.book p).volume = UInt32.ofNat q

/-- What a round does: it passes an empty level, or it takes the same
quantity from the incoming order, from the first order of the level and from
the level, each of which had it. -/
inductive Took (d : Sweep) (inc : Nat) (m m' : Market) : Prop
  | skip (empty : (m.book (d.cursor m).toNat).head = none) (inside : d.cursor m ≠ d.last)
      (heap : m'.heap = m.heap) (book : m'.book = m.book)
  | trade (resting t q : Nat) (l l' : List Nat)
      (head : (m.book (d.cursor m).toNat).head = some resting) (positive : 0 < t)
      (taker : (m.heap inc).quantity.toNat = (m'.heap inc).quantity.toNat + t)
      (maker : (m.heap resting).quantity.toNat = (m'.heap resting).quantity.toNat + t)
      (before : Holding m (d.cursor m).toNat l (q + t)) (after : Holding m' (d.cursor m).toNat l' q)

def remaining (d : Sweep) (inc : Nat) (m : Market) : Nat :=
  (m.heap inc).quantity.toNat +
    match d with
    | .asks => maxPriceTicks - m.bestAsk.toNat
    | .bids => m.bestBid.toNat

structure Progress (d : Sweep) (inc : Nat) (m m' : Market) : Prop where
  bestAsk_mono : m.bestAsk ≤ m'.bestAsk
  bestBid_anti : m'.bestBid ≤ m.bestBid
  took : Took d inc m m'
  remaining_lt : remaining d inc m' < remaining d inc m

structure Sound (m : Market) (a : Levels) : Prop where
  market : Represents m a
  positive : Positive a
  bounded : Bounded a

section Round

variable {d : Sweep} {inc : Nat} {m m' : Market} {a : Levels}

theorem represents_holding (h : Represents m a) (p : Nat) :
    Holding m p (slots (a.levels p)) (volume (a.levels p)) where
  nodup := h.links.nodup p
  mem x := (rests_iff h).symm
  total := by rw [BookState.quantities_eq h, volume]
  volume := h.volume p

theorem remaining_eq (h : Represents m a) (d : Sweep) (inc : Nat) :
    remaining d inc m = (m.heap inc).quantity.toNat + distance d a := by
  cases d with
  | asks => rw [remaining, distance, h.bestAsk]
  | bids => rw [remaining, distance, h.bestBid]

theorem advance_bounded (hb : Bounded a) (hp : position d a ≠ limit d) : Bounded (advance d a) := by
  have hl : ∀ p, maxPriceTicks < p → (advance d a).levels p = [] := by
    intro p hp
    rw [advance_levels]
    exact hb.levels p hp
  have hle := position_advance_le hp (position_le hb)
  cases d with
  | asks => exact ⟨hb.bestBid, hle, hl⟩
  | bids => exact ⟨hle, hb.bestAsk, hl⟩

theorem fillHead_bounded (hb : Bounded a) {p : Nat} (hp : p ≤ maxPriceTicks) (r : Resting) (rest : List Resting)
    (left : Nat) : Bounded (a.fillHead p r rest left) := by
  refine ⟨hb.bestBid, hb.bestAsk, fun q hq => ?_⟩
  rw [Levels.fillHead, a.set_levels_of_ne (by omega)]
  exact hb.levels q hq

theorem fillHead_volume_at {p : Nat} {r : Resting} {rest : List Resting} (he : a.levels p = r :: rest)
    (left : Nat) :
    volume (a.levels p) = volume ((a.fillHead p r rest left).levels p) + min left r.quantity := by
  rw [Levels.fillHead, Levels.set_levels_self, he]
  split <;> simp only [volume_cons] <;> omega

theorem fill_maker (h : Represents m a) {p : Nat} {r : Resting} {rest : List Resting} (hu : Unlinked a inc)
    (he : a.levels p = r :: rest) :
    ((m.fill p inc r.slot).heap r.slot).quantity.toNat = r.quantity - (m.heap inc).quantity.toNat := by
  have hr := (traded_represents h hu he).data p
    { r with quantity := r.quantity - (m.heap inc).quantity.toNat } (by simp)
  refine Eq.trans ?_ hr.quantity
  rw [fill_eq]
  split
  · exact congrArg UInt32.toNat (quantity_eq (bare_removeOrder _ r.slot r.slot))
  · rfl

theorem cursors_of_represents {b : Levels} (h : Represents m a) (h' : Represents m' b)
    (hask : a.bestAsk ≤ b.bestAsk) (hbid : b.bestBid ≤ a.bestBid) :
    m.bestAsk ≤ m'.bestAsk ∧ m'.bestBid ≤ m.bestBid := by
  constructor
  · rwa [UInt64.le_iff_toNat_le, h.bestAsk, h'.bestAsk]
  · rwa [UInt64.le_iff_toNat_le, h.bestBid, h'.bestBid]

theorem Sound.inside (h : Sound m a) : m.bestAsk.toNat ≤ maxPriceTicks ∧ m.bestBid.toNat ≤ maxPriceTicks := by
  rw [h.market.bestAsk, h.market.bestBid]
  exact ⟨h.bounded.bestAsk, h.bounded.bestBid⟩

theorem advance_progress (h : Sound m a) (hhead : a.levels (position d a) = []) (hp : position d a ≠ limit d) :
    Progress d inc m (d.advance (m.touch (d.cursor m).toNat)) ∧
      Sound (d.advance (m.touch (d.cursor m).toNat)) (advance d a) := by
  have hcur := cursor_eq h.market d
  have ht := touch_represents h.market (d.cursor m).toNat
  have hrep := advance_represents ht hp (position_le h.bounded)
  have hheap : (d.advance (m.touch (d.cursor m).toNat)).heap = m.heap := by cases d <;> rfl
  have hbook : (d.advance (m.touch (d.cursor m).toNat)).book = m.book := by cases d <;> rfl
  have hcursors : a.bestAsk ≤ (advance d a).bestAsk ∧ (advance d a).bestBid ≤ a.bestBid := by
    cases d with
    | asks => exact ⟨Nat.le_succ _, Nat.le_refl _⟩
    | bids => exact ⟨Nat.le_refl _, Nat.sub_le _ _⟩
  obtain ⟨hask, hbid⟩ := cursors_of_represents h.market hrep hcursors.1 hcursors.2
  refine ⟨⟨hask, hbid, .skip ?_ ?_ hheap hbook, ?_⟩, hrep, ?_, advance_bounded h.bounded hp⟩
  · have hlinks : (m.book (d.cursor m).toNat).head = (slots (a.levels (d.cursor m).toNat)).head? :=
      h.market.links.head _
    rw [hlinks, hcur, hhead]
    rfl
  · rwa [Ne, last_iff, hcur]
  · have hlt := distance_advance hp (position_le h.bounded)
    rw [remaining_eq hrep, remaining_eq h.market, hheap]
    omega
  · simpa only [Positive, advance_levels] using h.positive

section Fill

variable {r : Resting} {rest : List Resting}

theorem fill_took (h : Sound m a) (hu : Unlinked a inc) (he : a.levels (position d a) = r :: rest)
    (hq : 0 < (m.heap inc).quantity.toNat) :
    Took d inc m ((m.touch (position d a)).fill (position d a) inc r.slot) := by
  have hcur := cursor_eq h.market d
  have ht := touch_represents h.market (position d a)
  have hmem : r ∈ a.levels (position d a) := he ▸ List.mem_cons_self
  have hpos : 0 < r.quantity := h.positive _ r hmem
  have hslot : (m.heap r.slot).quantity.toNat = r.quantity := (h.market.data _ r hmem).quantity
  have hhead : (m.book (position d a)).head = (slots (a.levels (position d a))).head? := h.market.links.head _
  have htaker : (((m.touch (position d a)).fill (position d a) inc r.slot).heap inc).quantity.toNat =
      (m.heap inc).quantity.toNat - r.quantity := fill_taker ht hu he
  have hmaker : (((m.touch (position d a)).fill (position d a) inc r.slot).heap r.slot).quantity.toNat =
      r.quantity - (m.heap inc).quantity.toNat := fill_maker ht hu he
  have hbefore := represents_holding h.market (position d a)
  have hafter := represents_holding (fill_represents ht hu he) (position d a)
  have hvolume := fillHead_volume_at he (m.heap inc).quantity.toNat
  refine .trade r.slot (min (m.heap inc).quantity.toNat r.quantity)
    (volume ((a.fillHead (position d a) r rest (m.heap inc).quantity.toNat).levels (position d a)))
    (slots (a.levels (position d a)))
    (slots ((a.fillHead (position d a) r rest (m.heap inc).quantity.toNat).levels (position d a))) ?_ ?_ ?_ ?_ ?_ ?_
  · rw [hcur, hhead, he]
    rfl
  · omega
  · omega
  · omega
  · rwa [hcur, ← hvolume]
  · rwa [hcur]

theorem fill_progress (h : Sound m a) (hu : Unlinked a inc) (he : a.levels (position d a) = r :: rest)
    (hq : 0 < (m.heap inc).quantity.toNat) :
    Progress d inc m ((m.touch (d.cursor m).toNat).fill (d.cursor m).toNat inc r.slot) ∧
      Sound ((m.touch (d.cursor m).toNat).fill (d.cursor m).toNat inc r.slot)
        (a.fillHead (position d a) r rest (m.heap inc).quantity.toNat) := by
  have ht := touch_represents h.market (position d a)
  have hpos : 0 < r.quantity := h.positive _ r (he ▸ List.mem_cons_self)
  have hrep : Represents ((m.touch (position d a)).fill (position d a) inc r.slot)
      (a.fillHead (position d a) r rest (m.heap inc).quantity.toNat) := fill_represents ht hu he
  have htaker : (((m.touch (position d a)).fill (position d a) inc r.slot).heap inc).quantity.toNat =
      (m.heap inc).quantity.toNat - r.quantity := fill_taker ht hu he
  obtain ⟨hask, hbid⟩ := cursors_of_represents h.market hrep (Nat.le_refl _) (Nat.le_refl _)
  rw [cursor_eq h.market d]
  refine ⟨⟨hask, hbid, fill_took h hu he hq, ?_⟩, hrep, fillHead_positive h.positive he _,
    fillHead_bounded h.bounded (position_le h.bounded) r rest _⟩
  rw [remaining_eq hrep, remaining_eq h.market, htaker, distance_fillHead]
  omega

end Fill

theorem round_progress (h : Sound m a) (hu : Unlinked a inc) (hr : round d inc m = some m') :
    Progress d inc m m' ∧ ∃ a', Sound m' a' ∧ Unlinked a' inc := by
  have hcur := cursor_eq h.market d
  have hhead : (m.book (d.cursor m).toNat).head = (slots (a.levels (position d a))).head? := by
    rw [← hcur]
    exact h.market.links.head _
  obtain ⟨hq, ⟨resting, hh, rfl⟩ | ⟨hh, hlast, rfl⟩⟩ := round_cases hr
  · cases hl : a.levels (position d a) with
    | nil =>
        rw [hhead, hl] at hh
        cases hh
    | cons r rest =>
        rw [hhead, hl, slots_cons, List.head?_cons] at hh
        obtain rfl := Option.some.inj hh
        obtain ⟨hprogress, hsound⟩ := fill_progress h hu hl (UInt32.lt_iff_toNat_lt.mp hq)
        exact ⟨hprogress, _, hsound, unlinked_fillHead hu hl _⟩
  · have hl : a.levels (position d a) = [] := by
      rw [hhead, List.head?_eq_none_iff] at hh
      exact List.map_eq_nil_iff.mp hh
    rw [Ne, last_iff, hcur] at hlast
    obtain ⟨hprogress, hsound⟩ := advance_progress h hl hlast
    refine ⟨hprogress, _, hsound, fun p => ?_⟩
    rw [advance_levels]
    exact hu p

theorem rounds_sound (h : ∃ a, Sound m a ∧ Unlinked a inc) (hr : Rounds d inc m m') :
    ∃ a, Sound m' a ∧ Unlinked a inc := by
  induction hr with
  | refl => exact h
  | tail _ hstep ih =>
      obtain ⟨a, ha, hu⟩ := ih
      exact (round_progress ha hu hstep).2

end Round

/-- What the loop can trade with, in the order it would. Of each level it is
enough to read one order more than the queues have cells. -/
def inReach (m : Market) (incoming : Nat) : List Nat :=
  (entered m incoming).elim [] fun d =>
    (prices d (d.cursor m).toNat (m.heap incoming).price.toNat).flatMap fun p =>
      walk (fun o => (m.heap o).nextOrder) (queueCapacity + 1) (m.book p).head

/-- The loop trades with more orders than the queues have cells: there are
more, and the first of them do not use the incoming order up. -/
def Overflows (m : Market) (incoming : Nat) : Prop :=
  queueCapacity < (inReach m incoming).length ∧
    (((inReach m incoming).take queueCapacity).map fun x => (m.heap x).quantity.toNat).sum <
      (m.heap incoming).quantity.toNat

structure Fresh (c : Offer) : Prop where
  execQ : c.execQ.items = []
  trashQ : c.trashQ.items = []
  within : (∀ k ∈ c.execQ.pushedAt, k < queueCapacity) ∧ ∀ k ∈ c.trashQ.pushedAt, k < queueCapacity

theorem empty_fresh (slot : Nat) (order : Order) : Fresh ⟨slot, order, .empty, .empty⟩ :=
  ⟨rfl, rfl, by simp [FixedQueue.empty], by simp [FixedQueue.empty]⟩

theorem take_flatMap_take {α β : Type} (f : α → List β) (k : Nat) (xs : List α) {n : Nat} (hn : n ≤ k) :
    (xs.flatMap fun x => (f x).take k).take n = (xs.flatMap f).take n := by
  induction xs generalizing n with
  | nil => rfl
  | cons x xs ih =>
      have hmin : n - min k (f x).length = n - (f x).length := by omega
      rw [List.flatMap_cons, List.flatMap_cons, List.take_append, List.take_append, List.take_take,
        Nat.min_eq_left hn, List.length_take, hmin, ih (Nat.le_trans (Nat.sub_le _ _) hn)]

section Reach

variable {d : Sweep} {inc : Nat} {m : Market} {a : Levels}

theorem inReach_take (h : Represents m a) (hd : entered m inc = some d) {n : Nat} (hn : n ≤ queueCapacity + 1) :
    (inReach m inc).take n = slots ((marketable d (m.heap inc).price.toNat a).take n) := by
  have hwalk : ∀ p, walk (fun o => (m.heap o).nextOrder) (queueCapacity + 1) (m.book p).head =
      (slots (a.levels p)).take (queueCapacity + 1) := fun p => h.links.walk_take p _
  rw [inReach, hd, Option.elim_some, cursor_eq h]
  simp only [hwalk]
  rw [take_flatMap_take _ _ _ hn, marketable, slots, List.map_take, List.map_flatMap]
  rfl

theorem overflows_iff (h : Represents m a) (hd : entered m inc = some d) :
    Overflows m inc ↔
      queueCapacity < hits (m.heap inc).quantity.toNat (marketable d (m.heap inc).price.toNat a) := by
  have hlength : queueCapacity < (inReach m inc).length ↔
      queueCapacity < (marketable d (m.heap inc).price.toNat a).length := by
    have hl := congrArg List.length (inReach_take h hd (Nat.le_refl _))
    rw [slots, List.length_map, List.length_take, List.length_take] at hl
    omega
  have hmem : ∀ r ∈ (marketable d (m.heap inc).price.toNat a).take queueCapacity, ∃ p, r ∈ a.levels p := by
    intro r hr
    obtain ⟨p, -, hp⟩ := List.mem_flatMap.mp (List.mem_of_mem_take hr)
    exact ⟨p, hp⟩
  rw [Overflows, hlength, inReach_take h hd (Nat.le_succ _), sum_quantities h hmem]
  have hle := hits_le_iff (m.heap inc).quantity.toNat queueCapacity (marketable d (m.heap inc).price.toNat a)
  omega

theorem overflows_quantity (h : Represents m a) (hp : Positive a) (ho : Overflows m inc) :
    queueCapacity < (m.heap inc).quantity.toNat := by
  cases hd : entered m inc with
  | none =>
      rw [Overflows, inReach, hd] at ho
      exact absurd ho.1 (Nat.not_lt_zero _)
  | some d =>
      refine Nat.lt_of_lt_of_le ((overflows_iff h hd).mp ho) (hits_le fun r hr => ?_)
      obtain ⟨p, -, hr⟩ := List.mem_flatMap.mp hr
      exact hp p r hr

end Reach

/-- The books that calls of `match_order` with orders outside the book can
produce, as long as nothing rests beyond the array and no queue is overrun. -/
inductive Reachable : Market → Prop
  | init (heap : Nat → Order) : Reachable (.init heap)
  | call {m m' : Market} {c : Offer} (hm : Reachable m) (hu : Unused m c) (hf : Fresh c)
      (ho : ¬ Overflows (c.place m) c.slot) (h : offer m c = some m')
      (hp : ∀ p x, Rests m' p x → p ≤ maxPriceTicks) : Reachable m'

theorem init_sound (heap : Nat → Order) : Sound (.init heap) .empty :=
  ⟨init_represents heap, by simp [Positive, Levels.empty], empty_bounded⟩

theorem reachable_sound {m : Market} (h : Reachable m) : ∃ a, Sound m a := by
  induction h with
  | init heap => exact ⟨.empty, init_sound heap⟩
  | @call m m' c hm hu hf ho h hp ih =>
      obtain ⟨a, ha⟩ := ih
      obtain ⟨n, a', left, fs, r, hr, hmatched, -, hrep, -⟩ :=
        offer_simulates ha.market ha.positive ha.bounded ((unused_iff ha.market).mp hu)
      obtain rfl : n = m' := Option.some.inj (hr.symm.trans h)
      refine ⟨_, hrep, restResidue_positive (hmatched.positive ha.positive) _ _ _, ?_⟩
      have hb := matched_bounded hmatched ha.bounded
      by_cases hl : 0 < left
      · refine restResidue_bounded hb (hp _ r.slot ((rests_iff hrep).mpr ?_)) _ _
        rw [restResidue, if_pos hl, Levels.enqueue_levels, Function.update_self, slots_append]
        exact List.mem_append_right _ (List.mem_singleton_self _)
      · rwa [restResidue, if_neg hl]

theorem matched_swept {d : Sweep} {price : Nat} {a a' : Levels} {quantity left : Nat} {fs : List Fill}
    (h : Matched price (taker d) a quantity a' left fs) : Swept d price a quantity a' left fs := by
  generalize ht : taker d = side at h
  cases h with
  | buy h =>
      cases d with
      | asks => exact h
      | bids => exact absurd ht (by decide)
  | sell h =>
      cases d with
      | asks => exact absurd ht (by decide)
      | bids => exact h
  | other h0 h1 => cases d <;> [exact absurd ht.symm h0; exact absurd ht.symm h1]

theorem reachable_call {m : Market} {a : Levels} (h : Reachable m) (ha : Sound m a) {c : Offer}
    (hu : Unlinked a c.slot) (hf : Fresh c) (hp : c.order.price.toNat ≤ maxPriceTicks)
    (hq : c.order.quantity.toNat ≤ queueCapacity) :
    ∃ m' a' left fs r, Reachable m' ∧
      Matched c.order.price.toNat c.order.side a c.order.quantity.toNat a' left fs ∧ r.side = c.order.side ∧
      Sound m' (restResidue a' c.order.price.toNat r left) ∧
      ∀ p, ∀ x ∈ slots ((restResidue a' c.order.price.toNat r left).levels p),
        x = c.slot ∨ x ∈ slots (a.levels p) := by
  have ho : ¬ Overflows (c.place m) c.slot := by
    intro ho
    have hlt := overflows_quantity (place_represents ha.market hu) ha.positive ho
    rw [place_heap] at hlt
    omega
  obtain ⟨m', a', left, fs, r, hr, hm, hside, hrep, hfrom⟩ := offer_simulates ha.market ha.positive ha.bounded hu
  have hb := restResidue_bounded (matched_bounded hm ha.bounded) hp r left
  refine ⟨m', a', left, fs, r, .call h ((unused_iff ha.market).mpr hu) hf ho hr fun p x hx => ?_, hm, hside,
    ⟨hrep, restResidue_positive (hm.positive ha.positive) _ _ _, hb⟩, hfrom⟩
  obtain ⟨s, hs, -⟩ := List.mem_map.mp ((rests_iff hrep).mp hx)
  exact level_le hb hs

theorem loop_left {m : Market} {a : Levels} (h : Sound m a) {c : Offer} (hu : Unlinked a c.slot) {d : Sweep}
    (hd : entered (c.place m) c.slot = some d) :
    ∃ n a' left fs, Rounds d c.slot (c.place m) n ∧ round d c.slot n = none ∧
      offer m c = some (rest c.slot (leave d c.slot n)) ∧
      Matched c.order.price.toNat (taker d) a c.order.quantity.toNat a' left fs ∧
      n.execQ = c.execQ.pushAll (fs.map fun f => f.trade c.order.traderId) ∧
      n.trashQ = c.trashQ.pushAll (filled fs) := by
  obtain ⟨m', a', left, fs, hr, hm, -, -, -, d', heff, -⟩ :=
    matchLoop_simulates (place_represents h.market hu) hu h.positive h.bounded.bestBid h.bounded.bestAsk
  have hoffer : offer m c = some (rest c.slot m') := by rw [offer_eq, hr, Option.map_some]
  have hexec := heff.execQ
  rw [entered_side hd] at hm
  rw [matchLoop_eq, hd, Option.elim_some] at hr
  obtain ⟨n, hn, he, rfl⟩ := sweep_rounds hr
  rw [place_heap] at hm hexec
  rw [leave_execQ] at hexec
  exact ⟨n, a', left, fs, hn, he, hoffer, hm, hexec, leave_trashQ.symm.trans heff.trashQ⟩

theorem loop_within_iff {m : Market} {a : Levels} (h : Sound m a) {c : Offer} (hu : Unlinked a c.slot)
    (hf : Fresh c) {d : Sweep} (hd : entered (c.place m) c.slot = some d) :
    ∃ n, Rounds d c.slot (c.place m) n ∧ round d c.slot n = none ∧
      offer m c = some (rest c.slot (leave d c.slot n)) ∧ (Within n ↔ ¬ Overflows (c.place m) c.slot) := by
  obtain ⟨n, a', left, fs, hn, he, ho, hm, hexec, htrash⟩ := loop_left h hu hd
  refine ⟨n, hn, he, ho, ?_⟩
  have hlen := (swept_hits (matched_swept hm) (position_le h.bounded)).1
  have hover := overflows_iff (place_represents h.market hu) hd
  rw [place_heap, ← hlen] at hover
  have hle := filled_length_le fs
  have hw := hf.within
  rw [hover, Within, hexec, htrash, pushAll_within hf.execQ, pushAll_within hf.trashQ, List.length_map]
  constructor
  · rintro ⟨⟨-, h₁⟩, -⟩
    omega
  · intro hfit
    exact ⟨⟨hw.1, by omega⟩, hw.2, by omega⟩

/-- In every reachable book the matching of every order comes to an end. The
cursors stay inside the array, each round moves one of them towards its end or
takes a quantity that is there, there are only so many rounds, and what is
left after the last one rests. The queues have the cells for it exactly if
the loop meets no more than 10000 orders. -/
theorem matching_loop_ends_iff {m : Market} (h : Reachable m) (c : Offer) (hu : Unused m c) (hf : Fresh c) :
    ((entered (c.place m) c.slot = none → offer m c = some (rest c.slot (c.place m))) ∧
      ∀ d, entered (c.place m) c.slot = some d →
        (∃ n, Rounds d c.slot (c.place m) n ∧ round d c.slot n = none ∧
          offer m c = some (rest c.slot (leave d c.slot n))) ∧
        ∀ m₁, Rounds d c.slot (c.place m) m₁ →
          Within m₁ ∧ (m₁.bestAsk.toNat ≤ maxPriceTicks ∧ m₁.bestBid.toNat ≤ maxPriceTicks) ∧
            ∀ m₂, round d c.slot m₁ = some m₂ → Progress d c.slot m₁ m₂) ↔
      ¬ Overflows (c.place m) c.slot := by
  obtain ⟨a, ha⟩ := reachable_sound h
  have hun := (unused_iff ha.market).mp hu
  constructor
  · rintro ⟨-, hloop⟩
    cases hd : entered (c.place m) c.slot with
    | none =>
        rw [Overflows, inReach, hd]
        exact fun ho => absurd ho.1 (Nat.not_lt_zero _)
    | some d =>
        obtain ⟨n, hn, -, -, hiff⟩ := loop_within_iff ha hun hf hd
        exact hiff.mp ((hloop d hd).2 n hn).1
  · intro hfit
    refine ⟨fun hd => ?_, fun d hd => ?_⟩
    · rw [offer_eq, matchLoop_eq, hd, Option.elim_none, Option.map_some]
    · obtain ⟨n, hn, he, ho, hiff⟩ := loop_within_iff ha hun hf hd
      refine ⟨⟨n, hn, he, ho⟩, fun m₁ hm₁ => ⟨rounds_within hn he (hiff.mpr hfit) hm₁, ?_⟩⟩
      obtain ⟨b, hb, hub⟩ := rounds_sound ⟨a, ⟨place_represents ha.market hun, ha.positive, ha.bounded⟩, hun⟩ hm₁
      exact ⟨hb.inside, fun m₂ hm₂ => (round_progress hb hub hm₂).1⟩

def ask : Offer := ⟨0, ⟨1, 7, 100, 10, none, none, 1⟩, .empty, .empty⟩

def anyPrice : Offer := ⟨1, ⟨2, 8, 18446744073709551615, 15, none, none, 0⟩, .empty, .empty⟩

theorem matching_loop_ends_any_price :
    ∃ m, Reachable m ∧ Unused m anyPrice ∧ entered (anyPrice.place m) 1 = some .asks ∧
      ∃ n, Rounds .asks 1 (anyPrice.place m) n ∧ round .asks 1 n = none ∧
        offer m anyPrice = some (rest 1 (leave .asks 1 n)) ∧ Within n := by
  obtain ⟨m, a, left, fs, r, hm, -, -, ha, hfrom⟩ := reachable_call (.init fun _ => .zero) (init_sound _) (c := ask)
    (fun p => by simp [Levels.empty]) (empty_fresh _ _) (by rw [maxPriceTicks]; decide) (by decide)
  have hu : Unlinked _ anyPrice.slot := fun p hx => absurd (hfrom p _ hx) (by simp [Levels.empty, anyPrice, ask])
  have hd : entered (anyPrice.place m) 1 = some .asks := by
    have hheap : (anyPrice.place m).heap 1 = anyPrice.order := place_heap m anyPrice
    rw [entered, hheap]
    exact if_pos ⟨rfl, UInt64.le_iff_toNat_le.mpr (Nat.le_of_lt_succ m.bestAsk.toNat_lt)⟩
  have hfit : ¬ Overflows (anyPrice.place m) 1 := by
    intro ho
    have hlt := overflows_quantity (place_represents ha.market hu) ha.positive ho
    rw [show (anyPrice.place m).heap 1 = anyPrice.order from place_heap m anyPrice] at hlt
    exact absurd hlt (by decide)
  obtain ⟨-, hloop⟩ := (matching_loop_ends_iff hm anyPrice ((unused_iff ha.market).mpr hu) (empty_fresh _ _)).mpr hfit
  obtain ⟨⟨n, hn, he, ho⟩, hwithin⟩ := hloop .asks hd
  exact ⟨m, hm, (unused_iff ha.market).mpr hu, hd, n, hn, he, ho, (hwithin n hn).1⟩

def unitOrder : Order := ⟨1, 1, 1, 1, none, none, 1⟩

def unitAsk (slot : Nat) : Offer := ⟨slot, unitOrder, .empty, .empty⟩

theorem reachable_stacked (k : Nat) :
    ∃ m a, Reachable m ∧ Sound m a ∧ Stacked k a ∧ ∀ p, ∀ x ∈ slots (a.levels p), x < k := by
  induction k with
  | zero => exact ⟨_, .empty, .init fun _ => .zero, init_sound _, empty_stacked, by simp [Levels.empty]⟩
  | succ k ih =>
      obtain ⟨m, a, hm, ha, hs, hlt⟩ := ih
      have hone : unitOrder.price.toNat ≤ maxPriceTicks := by
        rw [maxPriceTicks]
        decide
      have hroom : unitOrder.quantity.toNat ≤ queueCapacity := by decide
      have hu : Unlinked a (unitAsk k).slot := fun p hx => Nat.lt_irrefl k (hlt p k hx)
      obtain ⟨m', b, left, fs, r, hm', hmatched, hr, ha', hfrom⟩ := reachable_call hm ha hu
        (empty_fresh k _) hone hroom
      obtain ⟨rfl, rfl, rfl⟩ := hs.sell hmatched
      refine ⟨m', _, hm', ha', hs.rest hr, fun p x hx => ?_⟩
      rcases hfrom p x hx with rfl | hx
      · exact Nat.lt_succ_self _
      · exact Nat.lt_succ_of_lt (hlt p x hx)

def overrunning : Offer := ⟨10002, ⟨2, 2, 1, 10002, none, none, 0⟩, .empty, .empty⟩

/-- The loop of this buy pushes two filled orders behind the array of
`trash_q`, so it goes on pushing after it has written over `count`. -/
theorem loop_overruns_queue :
    ∃ m n, Reachable m ∧ Unused m overrunning ∧ Fresh overrunning ∧
      entered (overrunning.place m) overrunning.slot = some .asks ∧
      Rounds .asks overrunning.slot (overrunning.place m) n ∧
      queueCapacity ∈ n.trashQ.pushedAt ∧ queueCapacity + 1 ∈ n.trashQ.pushedAt := by
  obtain ⟨m, a, hm, ha, hs, hlt⟩ := reachable_stacked 10002
  have hu : Unlinked a overrunning.slot := fun p hx => Nat.lt_irrefl _ (hlt p _ hx)
  have hd : entered (overrunning.place m) overrunning.slot = some .asks := by
    rw [entered, place_heap]
    refine if_pos ⟨rfl, UInt64.le_iff_toNat_le.mpr ?_⟩
    rw [(place_represents ha.market hu).bestAsk, hs.bestAsk.2 (by decide)]
    decide
  obtain ⟨n, a', left, fs, hn, -, -, hmatched, -, htrash⟩ := loop_left ha hu hd
  obtain ⟨hfilled, hlen⟩ := hs.buy (by decide) hmatched
  have hlast : queueCapacity + 1 < (filled fs).length := by
    rw [hfilled]
    exact Nat.lt_of_not_le fun hc => absurd ((hlen _).mp hc) (by decide)
  have hmem : ∀ k, k < (filled fs).length → k ∈ n.trashQ.pushedAt := by
    intro k hk
    have hempty : overrunning.trashQ.count = 0 := rfl
    rw [htrash, FixedQueue.pushAll_pushedAt, hempty]
    exact List.mem_append_right _ (List.mem_range'_1.mpr ⟨Nat.zero_le k, by rwa [Nat.zero_add]⟩)
  exact ⟨m, n, hm, (unused_iff ha.market).mpr hu, empty_fresh _ _, hd, hn, hmem _ (Nat.lt_of_succ_lt hlast),
    hmem _ hlast⟩

end Sequitur.MatchingLoop
