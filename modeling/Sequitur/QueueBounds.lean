import Sequitur.Histories
import Sequitur.Marketable

namespace Sequitur.QueueBounds

open OrderBook LevelBook Abstraction Accounting SlotStack MatchingEngine EngineStep Sessions Marketable

/-- Every push so far found the queue with room in its array. -/
def Within (m : Market) : Prop :=
  (∀ k ∈ m.execQ.pushedAt, k < queueCapacity) ∧ ∀ k ∈ m.trashQ.pushedAt, k < queueCapacity

/-- The call gets a slot, and it trades with more orders than the queues have
cells: it could meet more, and the first of them do not use it up. -/
def Overruns (e : Engine) (c : Call) : Prop :=
  0 ≤ e.pool.top ∧ queueCapacity < (marketableSlots e c).length ∧
    quantityOf e ((marketableSlots e c).take queueCapacity) < c.quantity.toNat

theorem Within.of_extends {m m' : Market} (h : Histories.Extends m m') (hw : Within m') : Within m :=
  ⟨fun k hk => hw.1 k (h.execQ.subset hk), fun k hk => hw.2 k (h.trashQ.subset hk)⟩

instance (e : Engine) (c : Call) : Decidable (Overruns e c) := inferInstanceAs (Decidable (_ ∧ _ ∧ _))

theorem filled_length_le (fs : List Fill) : (filled fs).length ≤ fs.length := by
  rw [filled, List.length_map]
  exact List.length_filter_le _ _

theorem pushAll_within {T : Type} {q : FixedQueue T} (hq : q.items = []) (xs : List T) :
    (∀ k ∈ (q.pushAll xs).pushedAt, k < queueCapacity) ↔
      (∀ k ∈ q.pushedAt, k < queueCapacity) ∧ xs.length ≤ queueCapacity := by
  have hrange : (∀ k ∈ List.range' 0 xs.length, k < queueCapacity) ↔ xs.length ≤ queueCapacity := by
    constructor
    · intro h
      by_cases hz : xs.length = 0
      · omega
      · have := h (xs.length - 1) (List.mem_range'_1.mpr (by omega))
        omega
    · intro h k hk
      have := (List.mem_range'_1.mp hk).2
      omega
  rw [FixedQueue.pushAll_pushedAt, FixedQueue.count, hq, List.forall_mem_append, List.length_nil, hrange]

theorem accepted_within_iff {n : Nat} {e e' : Engine} {c : Call} {a a' : Levels} {slot left : Nat}
    {fs : List Fill} (hc : Consistent n e a) (he : e.market.execQ.items = [])
    (h : Accepted e c a e' slot a' left fs) :
    Within e'.market ↔ Within e.market ∧ fs.length ≤ queueCapacity := by
  have hf := filled_length_le fs
  rw [Within, h.execQ, pushAll_within he, h.trashQ]
  have ht : (∀ k ∈ (e.market.trashQ.pushAll (filled fs)).clear.pushedAt, k < queueCapacity) ↔
      (∀ k ∈ e.market.trashQ.pushedAt, k < queueCapacity) ∧ (filled fs).length ≤ queueCapacity :=
    pushAll_within hc.trash (filled fs)
  rw [ht, List.length_map, Within]
  constructor
  · rintro ⟨⟨h₁, h₂⟩, h₃, -⟩
    exact ⟨⟨h₁, h₃⟩, h₂⟩
  · rintro ⟨⟨h₁, h₂⟩, h₃⟩
    exact ⟨⟨h₁, h₃⟩, h₂, Nat.le_trans hf h₃⟩

theorem submitted_within {n : Nat} {s s' : Session} {c : Call} {a a' : Levels} (hr : Ready n s a)
    (h : Submitted n s c a s' a') :
    Within s'.engine.market ↔ Within s.engine.market ∧ ¬ Overruns s.engine c := by
  cases h with
  | rejected hl =>
      have hno : ¬ Overruns s.engine c := fun ho => (top_nonneg_iff hr.toConsistent).mp ho.1 hl
      exact (and_iff_left hno).symm
  | @accepted e' slot b left fs hl h =>
      have htop := (top_nonneg_iff hr.toConsistent).mpr (Nat.ne_of_lt hl)
      refine (accepted_within_iff hr.toConsistent hr.execQ h).trans (and_congr_right fun _ => ?_)
      rw [(accepted_hits hr.toConsistent h).1 queueCapacity, Overruns]
      have hiff : ((marketableSlots s.engine c).length ≤ queueCapacity ∨
          c.quantity.toNat ≤ quantityOf s.engine ((marketableSlots s.engine c).take queueCapacity)) ↔
          ¬ (queueCapacity < (marketableSlots s.engine c).length ∧
            quantityOf s.engine ((marketableSlots s.engine c).take queueCapacity) < c.quantity.toNat) := by
        omega
      rw [hiff, and_iff_right htop]

theorem prices_nodup (d : Sweep) (c price : Nat) : (prices d c price).Nodup := by
  cases d with
  | asks => exact List.nodup_range'
  | bids => exact List.nodup_reverse.mpr List.nodup_range'

theorem marketable_length_le {n : Nat} {e : Engine} {a : Levels} (h : Consistent n e a) (c : Call) :
    (marketableSlots e c).length ≤ (restingIn a).length := by
  have hps : ∀ ps : List Nat, ps.Nodup → (ps.flatMap e.restingAt).length ≤ (restingIn a).length := by
    intro ps hps
    have hnodup : (ps.flatMap e.restingAt).Nodup := by
      rw [List.nodup_flatMap]
      refine ⟨fun p _ => ?_, hps.imp fun {p q} hpq x hp hq => ?_⟩
      · rw [restingAt_eq h]
        exact h.market.links.nodup p
      · rw [restingAt_eq h] at hp hq
        exact hpq (h.market.links.apart p q x hp hq)
    have hsub : ps.flatMap e.restingAt ⊆ slots (restingIn a) := by
      rw [restingAt_flatMap h]
      intro x hx
      obtain ⟨r, hr, rfl⟩ := List.mem_map.mp hx
      obtain ⟨p, -, hp⟩ := List.mem_flatMap.mp hr
      exact mem_slots ((mem_restingIn h.bounded).mpr ⟨p, hp⟩)
    have hle := (List.subperm_of_subset hnodup hsub).length_le
    rwa [slots, List.length_map] at hle
  rw [marketableSlots]
  split
  · exact hps _ (prices_nodup _ _ _)
  · split
    · exact hps _ (prices_nodup _ _ _)
    · exact Nat.zero_le _

theorem small_pool_within {n : Nat} (hn : n ≤ queueCapacity + 1) (calls : List Call)
    (hc : ∀ c ∈ calls, c.price.toNat ≤ maxPriceTicks) :
    Runs.Along Session.submit (fun s c => ¬ Overruns s.engine c) (.init n) calls := by
  have hready : ∀ s c s', (∃ a, Ready n s a) → c.price.toNat ≤ maxPriceTicks → Session.submit s c = some s' →
      ∃ a, Ready n s' a := by
    rintro s c s' ⟨a, hr⟩ hp hs'
    obtain ⟨s'', a', hs, hsub, hready⟩ := submit_steps hr c
    obtain rfl : s'' = s' := Option.some.inj (hs.symm.trans hs')
    exact ⟨a', hready (hsub.bounded hr.bounded hp)⟩
  have hroom : ∀ s c, (∃ a, Ready n s a) → c.price.toNat ≤ maxPriceTicks → ¬ Overruns s.engine c := by
    rintro s c ⟨a, hr⟩ - ho
    have htop := (top_nonneg_iff hr.toConsistent).mp ho.1
    have hle := hr.length_le
    have hm := marketable_length_le hr.toConsistent c
    have := ho.2.1
    omega
  exact Runs.Along.of_invariant hready hroom ⟨.empty, init_ready (Nat.le_trans hn (by decide))⟩
    (.of_forall fun c hm _ => hc c hm)

/-- The queues are never pushed beyond their arrays exactly as long as no call
trades with more than 10000 orders. -/
theorem queues_within_iff {n : Nat} (hn : n ≤ 2 ^ 32) (calls : List Call)
    (hc : ∀ c ∈ calls, c.price.toNat ≤ maxPriceTicks) :
    (∃ s, Session.after n calls = some s ∧ Within s.engine.market) ↔
      Runs.Along Session.submit (fun s c => ¬ Overruns s.engine c) (.init n) calls := by
  refine Histories.after_good_iff hn empty_bounded (by simp [Within, Market.init, FixedQueue.empty])
    (fun m m' => Within.of_extends) ?_
  intro s a c hm s' a' hr _ hsub
  have hb := hsub.bounded hr.bounded (hc c hm)
  exact ⟨submitted_within hr hsub, fun _ => ⟨hb, hb⟩⟩

theorem queues_within_iff_small_pool :
    ∃ s, Session.after 100 [⟨1, 100, 5, 1⟩, ⟨1, 101, 5, 1⟩, ⟨0, 120, 8, 2⟩] = some s ∧ Within s.engine.market := by
  have hc : ∀ c ∈ ([⟨1, 100, 5, 1⟩, ⟨1, 101, 5, 1⟩, ⟨0, 120, 8, 2⟩] : List Call),
      c.price.toNat ≤ maxPriceTicks := by
    rw [maxPriceTicks]
    decide
  exact (queues_within_iff (by decide : 100 ≤ 2 ^ 32) _ hc).mpr (small_pool_within (by decide) _ hc)

def unitSell : Call := ⟨1, 1, 1, 1⟩

structure Stacked (k : Nat) (a : Levels) : Prop where
  bestBid : a.bestBid = 0
  bestAsk : 0 < a.bestAsk ∧ (0 < k → a.bestAsk = 1)
  queue : (a.levels 1).length = k
  unit : ∀ p, ∀ r ∈ a.levels p, r.quantity = 1

theorem empty_stacked : Stacked 0 .empty := by
  refine ⟨rfl, ⟨?_, fun h => absurd h (Nat.lt_irrefl 0)⟩, rfl, by simp [Levels.empty]⟩
  simp only [Levels.empty, maxPriceTicks]
  omega

theorem filled_units {d : Sweep} {price : Nat} {a a' : Levels} {left left' : Nat} {fs : List Fill}
    (h : Swept d price a left a' left' fs) (hu : ∀ p, ∀ r ∈ a.levels p, r.quantity = 1) :
    (filled fs).length = fs.length := by
  induction h with
  | done | last => rfl
  | skip _ _ _ _ _ ih => exact ih (by simpa only [advance_levels] using hu)
  | @fill a left _ _ fs r rest hl hw he _ ih =>
      have hr : r.quantity = 1 := hu _ r (he ▸ List.mem_cons_self)
      have hrest : ∀ p, ∀ x ∈ (a.fillHead (position d a) r rest left).levels p, x.quantity = 1 := by
        rw [Levels.fillHead, if_pos (by omega)]
        intro p x hx
        by_cases hp : p = position d a
        · subst hp
          rw [Levels.set_levels_self] at hx
          exact hu _ x (he ▸ List.mem_cons_of_mem _ hx)
        · rw [a.set_levels_of_ne hp] at hx
          exact hu p x hx
      have hone : filled [⟨position d a, r, min left r.quantity⟩] = [r.slot] := by
        have hmin : min left 1 = 1 := by omega
        simp [filled, hr, hmin]
      rw [filled_cons, hone, List.length_append, ih hrest, List.length_singleton, List.length_cons, Nat.add_comm]

section Stacked

variable {k : Nat} {a b : Levels} {left : Nat} {fs : List Fill}

theorem Stacked.sell (h : Stacked k a) (hm : Matched 1 1 a 1 b left fs) : b = a ∧ left = 1 ∧ fs = [] := by
  cases hm with
  | sell hw =>
      refine hw.of_not_ahead ?_
      simp [Ahead, position, h.bestBid]
  | other _ h1 => exact absurd rfl h1

theorem Stacked.rest (h : Stacked k a) {r : Resting} (hr : r.side = 1) :
    Stacked (k + 1) (restResidue a 1 r 1) := by
  have hask : (restResidue a 1 r 1).bestAsk = 1 := by
    rw [restResidue, if_pos Nat.one_pos, Levels.enqueue_bestAsk, if_pos hr]
    exact Nat.min_eq_left h.bestAsk.1
  refine ⟨?_, ⟨Nat.lt_of_lt_of_eq Nat.one_pos hask.symm, fun _ => hask⟩, ?_, ?_⟩
  · rw [restResidue, if_pos Nat.one_pos, Levels.enqueue_bestBid, if_neg (by simp [hr])]
    exact h.bestBid
  · rw [restResidue, if_pos Nat.one_pos, Levels.enqueue_levels, Function.update_self, List.length_append, h.queue,
      List.length_singleton]
  · intro p x hx
    rw [restResidue, if_pos Nat.one_pos] at hx
    rcases Levels.mem_enqueue.mp hx with hx | ⟨-, rfl⟩
    · exact h.unit p x hx
    · rfl

theorem Stacked.buy (h : Stacked k a) (hk : 0 < k) {q : Nat} (hm : Matched 1 0 a q b left fs) :
    (filled fs).length = fs.length ∧ ∀ n, fs.length ≤ n ↔ k ≤ n ∨ q ≤ min n k := by
  cases hm with
  | other h0 => exact absurd rfl h0
  | buy hw =>
      have hask := h.bestAsk.2 hk
      have hb : position .asks a ≤ maxPriceTicks := by
        rw [position, hask, maxPriceTicks]
        omega
      have hmk : marketable .asks 1 a = a.levels 1 := by
        have hone : min 1 maxPriceTicks + 1 - 1 = 1 := by rw [maxPriceTicks]; rfl
        rw [marketable, position, hask, prices, hone, List.range'_one, List.flatMap_singleton]
      have hvol (n : Nat) : volume ((a.levels 1).take n) = min n k := by
        have hrep : ((a.levels 1).take n).map Resting.quantity = List.replicate (min n k) 1 := by
          rw [List.eq_replicate_iff, List.length_map, List.length_take, h.queue]
          refine ⟨rfl, fun x hx => ?_⟩
          obtain ⟨r, hr, rfl⟩ := List.mem_map.mp hx
          exact h.unit 1 r (List.mem_of_mem_take hr)
        rw [volume, hrep, List.sum_replicate_nat, Nat.mul_one]
      refine ⟨filled_units hw h.unit, fun n => ?_⟩
      rw [(swept_hits hw hb).1, hmk, hits_le_iff, hvol, h.queue]

end Stacked

structure Queued (k : Nat) (s : Session) (a : Levels) : Prop extends Ready 1000000 s a, Stacked k a where
  resting : (restingIn a).length = k

theorem submit_unitSell {k : Nat} {s : Session} {a : Levels} (h : Queued k s a) (hk : k < 1000000) :
    ∃ s' a', s.submit unitSell = some s' ∧ Queued (k + 1) s' a' := by
  have hone : unitSell.price.toNat ≤ maxPriceTicks := by
    rw [maxPriceTicks]
    decide
  obtain ⟨s', a', hs, hsub, hready⟩ := submit_steps h.toReady unitSell
  have hr' := hready (hsub.bounded h.bounded hone)
  refine ⟨s', a', hs, ?_⟩
  cases hsub with
  | rejected hl => have := h.resting; omega
  | @accepted e' slot b left fs hl hacc =>
      obtain ⟨rfl, rfl, rfl⟩ := h.toStacked.sell hacc.matched
      have hslots := (restResidue_slots (a := b) hone (ofCall unitSell slot s.engine.nextOrderId) 1).length_eq
      refine ⟨hr', h.toStacked.rest rfl, ?_⟩
      simp only [slots, List.length_append, List.length_map, if_pos Nat.one_pos, List.length_singleton,
        h.resting] at hslots
      exact hslots.trans (Nat.add_comm 1 k)

theorem after_unitSells (k : Nat) (hk : k ≤ 1000000) :
    ∃ s a, Session.after 1000000 (List.replicate k unitSell) = some s ∧ Queued k s a := by
  induction k with
  | zero =>
      refine ⟨_, .empty, rfl, init_ready (by decide), empty_stacked, ?_⟩
      rw [restingIn_empty, List.length_nil]
  | succ k ih =>
      obtain ⟨s, a, hr, hs⟩ := ih (by omega)
      obtain ⟨s', a', hr', hs'⟩ := submit_unitSell hs (by omega)
      refine ⟨s', a', ?_, hs'⟩
      rw [List.replicate_succ']
      exact Runs.run_concat hr hr'

/-- One buy takes 10001 unit sells out of the book: its last trade is written
to cell 10000 of `exec_q`, which has cells 0 to 9999. -/
theorem exec_queue_overrun :
    ∃ s, Session.after 1000000 (List.replicate 10001 unitSell ++ [⟨0, 1, 10001, 2⟩]) = some s ∧
      queueCapacity ∈ s.engine.market.execQ.pushedAt := by
  obtain ⟨s, a, hr, hq⟩ := after_unitSells 10001 (by decide)
  obtain ⟨s', a', hs, hsub, -⟩ := submit_steps hq.toReady ⟨0, 1, 10001, 2⟩
  refine ⟨s', Runs.run_concat hr hs, ?_⟩
  cases hsub with
  | rejected hl => have := hq.resting; omega
  | @accepted e' slot b left fs hl hacc =>
      have hlen : queueCapacity < fs.length :=
        Nat.lt_of_not_le fun hc => absurd (((hq.toStacked.buy (by decide) hacc.matched).2 _).mp hc) (by decide)
      change queueCapacity ∈ e'.market.execQ.pushedAt
      rw [hacc.execQ, FixedQueue.pushAll_pushedAt, FixedQueue.count, hq.execQ, List.length_map]
      exact List.mem_append_right _ (List.mem_range'_1.mpr ⟨Nat.zero_le _, by simpa using hlen⟩)

end Sequitur.QueueBounds
