import Sequitur.Accounting
import Sequitur.MatchingEngine
import Sequitur.Simulation
import Sequitur.SlotStack

namespace Sequitur.EngineStep

open OrderBook LevelBook Abstraction Simulation Accounting SlotStack MatchingEngine

/-- The linked book stands for the level book `a`, every order in it has
something left, and its slots are those the pool has handed out. -/
structure Consistent (n : Nat) (e : Engine) (a : Levels) : Prop where
  pool : Tracks n e.pool (slots (restingIn a))
  market : Represents e.market a
  positive : Positive a
  bounded : Bounded a
  trash : e.market.trashQ.items = []

theorem restingIn_empty : restingIn .empty = [] := by
  rw [restingIn]
  exact Families.flatten_eq_nil fun _ => rfl

theorem init_consistent {n : Nat} (hn : n ≤ 2 ^ 32) : Consistent n (.init n) .empty where
  pool := by rw [restingIn_empty]; exact init_tracks hn
  market := init_represents _
  positive := by simp [Positive, Levels.empty]
  bounded := empty_bounded
  trash := rfl

theorem mem_restingIn {a : Levels} (h : Bounded a) {r : Resting} :
    r ∈ restingIn a ↔ ∃ p, r ∈ a.levels p := by
  rw [restingIn, Families.mem_flatten]
  constructor
  · rintro ⟨p, -, hr⟩
    exact ⟨p, hr⟩
  · rintro ⟨p, hr⟩
    refine ⟨p, Nat.lt_of_not_le fun hp => ?_, hr⟩
    rw [h.levels p hp] at hr
    simp at hr

theorem unlinked_iff {a : Levels} (h : Bounded a) {o : Nat} :
    Unlinked a o ↔ o ∉ slots (restingIn a) := by
  constructor
  · intro hu ho
    obtain ⟨r, hr, rfl⟩ := List.mem_map.mp ho
    obtain ⟨p, hp⟩ := (mem_restingIn h).mp hr
    exact hu p (mem_slots hp)
  · intro hn p hp
    obtain ⟨r, hr, rfl⟩ := List.mem_map.mp hp
    exact hn (mem_slots ((mem_restingIn h).mpr ⟨p, hr⟩))

theorem Consistent.length_le {n : Nat} {e : Engine} {a : Levels} (h : Consistent n e a) :
    (restingIn a).length ≤ n := by
  have hl := h.pool.length
  rw [slots, List.length_map] at hl
  omega

theorem top_nonneg_iff {n : Nat} {e : Engine} {a : Levels} (h : Consistent n e a) :
    0 ≤ e.pool.top ↔ (restingIn a).length ≠ n := by
  have hx := h.pool.exhausted_iff
  rw [slots, List.length_map] at hx
  rw [Ne, ← hx, Int.not_lt]

def ofCall (c : Call) (slot : Nat) (id : UInt64) : Resting :=
  ⟨slot, id, c.side, c.traderId, c.quantity.toNat⟩

/-- A call that got a slot: `a` is matched to `a'` with the trades `fs`, and
what is left rests in the slot. -/
structure Accepted (e : Engine) (c : Call) (a : Levels) (e' : Engine) (slot : Nat) (a' : Levels)
    (left : Nat) (fs : List Fill) : Prop where
  matched : Matched c.price.toNat c.side a c.quantity.toNat a' left fs
  acquired : e.pool.acquire.2 = some slot
  unlinked : Unlinked a slot
  market : Represents e'.market (restResidue a' c.price.toNat (ofCall c slot e.nextOrderId) left)
  execQ : e'.market.execQ = e.market.execQ.pushAll (fs.map fun f => f.trade c.traderId)
  trashQ : e'.market.trashQ = (e.market.trashQ.pushAll (filled fs)).clear
  totalTrades : e'.market.totalTrades = e.market.totalTrades + UInt64.ofNat fs.length
  totalVolume : e'.market.totalVolume = e.market.totalVolume + UInt64.ofNat (tradedQuantity fs)
  fills : ∃ gs, e'.market.fills = e.market.fills ++ gs ∧
    gs.map (fun g => (g.1.side, g.2.side)) = fs.map fun f => (f.maker.side, c.side)
  touched : ∃ ts, e'.market.touched = e.market.touched ++ ts ++ (if 0 < left then [c.price.toNat] else []) ∧
    ∀ i ∈ ts, i ≤ maxPriceTicks
  nextOrderId : e'.nextOrderId = e.nextOrderId + 1
  totalOrders : e'.totalOrders = e.totalOrders + 1

theorem settle_pool {n : Nat} {pool : ObjectPool} {a a' : Levels} {e : Engine} {m : Market} {c : Call}
    {slot left : Nat} {id : UInt64} {fs : List Fill} (hpool : Tracks n pool (slot :: slots (restingIn a)))
    (hm : Matched c.price.toNat c.side a c.quantity.toNat a' left fs) (hb : Bounded a)
    (htrash : m.trashQ.items = filled fs) (hq : (m.heap slot).quantity.toNat = left)
    (hc : 0 < left → c.price.toNat ≤ maxPriceTicks) :
    Tracks n (e.settle pool slot m).pool
      (slots (restingIn (restResidue a' c.price.toNat (ofCall c slot id) left))) := by
  have hslots : (slot :: slots (restingIn a)).Perm (filled fs ++ slot :: slots (restingIn a')) :=
    ((matched_slots hm hb).cons slot).trans List.perm_middle.symm
  have hreleased := releaseAll_tracks (filled fs) (hpool.perm hslots)
  have hz : (m.heap slot).quantity = 0 ↔ left = 0 := by
    rw [← hq, ← UInt32.toNat_inj, UInt32.toNat_zero]
  simp only [Engine.settle, htrash, hz]
  by_cases hl : left = 0
  · rw [if_pos hl, restResidue, if_neg (by omega)]
    exact release_tracks hreleased
  · rw [if_neg hl]
    have hpos : 0 < left := Nat.pos_of_ne_zero hl
    have hperm := restResidue_slots (a := a') (hc hpos) (ofCall c slot id) left
    rw [if_pos hpos, List.singleton_append] at hperm
    exact hreleased.perm hperm.symm

theorem submitOrder_accepts {n : Nat} {e : Engine} {a : Levels} (h : Consistent n e a) (c : Call)
    (hl : (restingIn a).length < n) :
    ∃ e' slot a' left fs, submitOrder e c = some (e', true) ∧ Accepted e c a e' slot a' left fs ∧
      ((0 < left → c.price.toNat ≤ maxPriceTicks) →
        Consistent n e' (restResidue a' c.price.toNat (ofCall c slot e.nextOrderId) left)) := by
  obtain ⟨pool, slot, hacq, hpool⟩ := acquire_tracks h.pool (by rwa [slots, List.length_map])
  have hslot : e.pool.acquire.2 = some slot := congrArg Prod.snd hacq
  have hun : Unlinked a slot := (unlinked_iff h.bounded).mpr (acquire_fresh h.pool hslot)
  have hrep : Represents (e.market.setOrder slot fun _ => c.order e.nextOrderId) a :=
    setOrder_represents h.market hun _
  have hheap : (e.market.setOrder slot fun _ => c.order e.nextOrderId).heap slot = c.order e.nextOrderId :=
    Function.update_self ..
  obtain ⟨m, a', left, fs, hr, hm, -, hmr, hout⟩ :=
    matchOrder_simulates hrep hun h.positive h.bounded.bestBid h.bounded.bestAsk
  have hrest : resting (e.market.setOrder slot fun _ => c.order e.nextOrderId) slot =
      ofCall c slot e.nextOrderId := by
    rw [resting, hheap]
    rfl
  rw [hrest] at hmr
  rw [hheap] at hm hmr
  have htrash : m.trashQ.items = filled fs := by
    rw [hout.trashQ, FixedQueue.pushAll_items]
    exact congrArg (· ++ filled fs) h.trash
  refine ⟨e.settle pool slot m, slot, a', left, fs, ?_, ?_, ?_⟩
  · simp only [submitOrder, hacq, hr, Option.map_some]
  · refine ⟨hm, hslot, hun, ⟨hmr.links, hmr.data, hmr.volume, hmr.bestBid, hmr.bestAsk⟩, ?_, ?_,
      hout.totalTrades, hout.totalVolume, ?_, ?_, rfl, rfl⟩
    · have he := hout.execQ
      rw [hheap] at he
      exact he
    · exact congrArg FixedQueue.clear hout.trashQ
    · have hf := hout.fills
      rw [hheap] at hf
      exact hf
    · have ht := hout.touched
      rw [hheap] at ht
      exact ht
  · intro hc
    refine ⟨settle_pool hpool hm h.bounded htrash hout.quantity hc,
      ⟨hmr.links, hmr.data, hmr.volume, hmr.bestBid, hmr.bestAsk⟩,
      restResidue_positive (hm.positive h.positive) _ _ _, ?_, rfl⟩
    by_cases hpos : 0 < left
    · exact restResidue_bounded (matched_bounded hm h.bounded) (hc hpos) _ _
    · rw [restResidue, if_neg hpos]
      exact matched_bounded hm h.bounded

theorem submitOrder_rejects {n : Nat} {e : Engine} {a : Levels} (h : Consistent n e a) (c : Call)
    (hl : (restingIn a).length = n) :
    submitOrder e c = some ({ e with pool := e.pool.failed 1 }, false) ∧
      Consistent n { e with pool := e.pool.failed 1 } a := by
  obtain ⟨hacq, hpool⟩ := acquire_exhausted h.pool (by rwa [slots, List.length_map])
  refine ⟨?_, hpool, h.market, h.positive, h.bounded, h.trash⟩
  simp only [submitOrder, hacq]
  rfl

end Sequitur.EngineStep
