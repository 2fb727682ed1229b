import Sequitur.Sessions
import Sequitur.SlotReuse

namespace Sequitur.BookState

open OrderBook LevelBook LinkedLists Abstraction Accounting SlotStack MatchingEngine EngineStep Sessions

/-- The slots `l` are the queue of level `p`, in both directions of the
links, and the data of the level and of its orders agree. -/
structure Linked (m : Market) (p : Nat) (l : List Nat) : Prop where
  head : (m.book p).head = l.head?
  tail : (m.book p).tail = l.getLast?
  nodup : l.Nodup
  next : ∀ i x, l[i]? = some x → (m.heap x).nextOrder = l[i + 1]?
  prevFirst : ∀ x, l[0]? = some x → (m.heap x).prevOrder = none
  prev : ∀ i x, l[i + 1]? = some x → (m.heap x).prevOrder = l[i]?
  price : ∀ x ∈ l, (m.heap x).price.toNat = p
  quantity : ∀ x ∈ l, 0 < (m.heap x).quantity
  volume : (m.book p).volume.toNat = (l.map fun x => (m.heap x).quantity.toNat).sum % 2 ^ 32

section Level

variable {m : Market} {a : Levels} (h : Represents m a) (hp : Positive a)

include h

theorem quantities_eq (p : Nat) :
    ((slots (a.levels p)).map fun x => (m.heap x).quantity.toNat) = (a.levels p).map Resting.quantity := by
  rw [slots, List.map_map]
  exact List.map_congr_left fun r hr => (h.data p r hr).quantity

include hp

theorem represents_linked (p : Nat) : Linked m p (slots (a.levels p)) where
  head := h.links.head p
  tail := h.links.tail p
  nodup := h.links.nodup p
  next := fun _ _ hx => (h.links.segment p).next_eq hx
  prevFirst := fun _ hx => (h.links.segment p).prev_eq hx
  prev := fun _ _ hx => (h.links.segment p).prev_eq hx
  price := by
    intro x hx
    obtain ⟨r, hr, rfl⟩ := List.mem_map.mp hx
    exact (h.data p r hr).price
  quantity := by
    intro x hx
    obtain ⟨r, hr, rfl⟩ := List.mem_map.mp hx
    rw [UInt32.lt_iff_toNat_lt, (h.data p r hr).quantity]
    exact hp p r hr
  volume := by
    rw [quantities_eq h, h.volume, UInt32.toNat_ofNat']
    rfl

end Level

def InUse (e : Engine) (x : Nat) : Prop := x < e.pool.capacity ∧ x ∉ e.pool.freeSlots

theorem inUse_iff {n : Nat} {e : Engine} {a : Levels} (h : Consistent n e a) {x : Nat} :
    InUse e x ↔ x ∈ slots (restingIn a) := by
  have hmem := h.pool.partition.mem_iff (a := x)
  rw [List.mem_append, List.mem_range] at hmem
  rw [InUse, h.pool.capacity, ← hmem]
  constructor
  · exact fun hx => hx.1.resolve_left hx.2
  · intro hx
    refine ⟨.inr hx, fun hf => ?_⟩
    exact (List.disjoint_of_nodup_append h.pool.nodup) hf hx

theorem head_none_iff {n : Nat} {e : Engine} {a : Levels} (h : Consistent n e a) (p : Nat) :
    (e.market.book p).head = none ↔ ∀ x, InUse e x → (e.market.heap x).price.toNat ≠ p := by
  have hhead : (e.market.book p).head = (slots (a.levels p)).head? := h.market.links.head p
  rw [hhead, List.head?_eq_none_iff]
  constructor
  · intro hn x hx hprice
    obtain ⟨r, hr, rfl⟩ := List.mem_map.mp ((inUse_iff h).mp hx)
    obtain ⟨q, hq⟩ := (mem_restingIn h.bounded).mp hr
    obtain rfl : q = p := (h.market.data q r hq).price.symm.trans hprice
    rw [List.map_eq_nil_iff.mp hn] at hq
    simp at hq
  · intro hn
    rw [List.eq_nil_iff_forall_not_mem]
    intro x hx
    obtain ⟨r, hr, rfl⟩ := List.mem_map.mp hx
    exact hn r.slot ((inUse_iff h).mpr (mem_slots ((mem_restingIn h.bounded).mpr ⟨p, hr⟩)))
      (h.market.data p r hr).price

/-- Whatever calls were made, every level of the book is a proper doubly
linked list of the orders that rest there, and no order is in two of them.
`exec_q` and `trash_q` may have been filled beyond their capacity. -/
theorem levels_linked {n : Nat} (hn : n ≤ 2 ^ 32) (calls : List Call)
    (hc : ∀ c ∈ calls, c.price.toNat ≤ maxPriceTicks) :
    ∃ s, Session.after n calls = some s ∧
      (∀ p, p ≤ maxPriceTicks → Linked s.engine.market p (s.engine.restingAt p) ∧
        ((s.engine.market.book p).head = none ↔
          ∀ x, InUse s.engine x → (s.engine.market.heap x).price.toNat ≠ p)) ∧
      ∀ p q x, p ≤ maxPriceTicks → q ≤ maxPriceTicks →
        x ∈ s.engine.restingAt p → x ∈ s.engine.restingAt q → p = q := by
  obtain ⟨s, a, hs, hr⟩ := after_ready hn hc
  have hcons := hr.toConsistent
  refine ⟨s, hs, fun p _ => ⟨?_, head_none_iff hcons p⟩, fun p q x _ _ hp hq => ?_⟩
  · rw [restingAt_eq hcons]
    exact represents_linked hcons.market hcons.positive p
  · rw [restingAt_eq hcons] at hp hq
    exact hcons.market.links.apart p q x hp hq

theorem levels_linked_partial_fill :
    ∃ s, Session.after 3 [⟨0, 5, 100, 1⟩, ⟨0, 5, 20, 2⟩, ⟨1, 5, 40, 3⟩] = some s ∧
      Linked s.engine.market 5 (s.engine.restingAt 5) := by
  obtain ⟨s, hs, hl, -⟩ := levels_linked (by decide : 3 ≤ 2 ^ 32)
    [⟨0, 5, 100, 1⟩, ⟨0, 5, 20, 2⟩, ⟨1, 5, 40, 3⟩] (by decide +kernel)
  exact ⟨s, hs, (hl 5 (by decide +kernel)).1⟩

/-- With a pool of `2 ^ 32 + 1` objects the slot numbers repeat: the order at
the head of level 0 then has a predecessor, so the level is no linked list. -/
theorem reused_slot_not_linked :
    ∃ s, Session.after (2 ^ 32 + 1) (List.replicate (2 ^ 32 + 1) SlotReuse.quiet) = some s ∧
      ∀ l, ¬ Linked s.engine.market 0 l := by
  obtain ⟨s, hs, -, -, hhead, hprev, -⟩ := SlotReuse.slot_reused
  refine ⟨s, hs, fun l hl => hprev (hl.prevFirst 0 ?_)⟩
  rw [← List.head?_eq_getElem?, ← hl.head, hhead]

/-- The stack of free slots and the slots linked in the book are all the
slots of the pool, each once. A call fails exactly if every slot is linked,
and then it changes neither the book nor `exec_q` nor the counters. -/
theorem slots_partition {n : Nat} (hn : n ≤ 2 ^ 32) (calls : List Call)
    (hc : ∀ c ∈ calls, c.price.toNat ≤ maxPriceTicks) :
    ∃ s, Session.after n calls = some s ∧
      s.engine.pool.freeSlots.Nodup ∧ s.engine.restingSlots.Nodup ∧
      s.engine.pool.freeSlots.Disjoint s.engine.restingSlots ∧
      (∀ x, x ∈ s.engine.pool.freeSlots ∨ x ∈ s.engine.restingSlots ↔ x < n) ∧
      s.engine.pool.usedCount.toNat = s.engine.restingSlots.length ∧
      (∀ x, s.engine.pool.acquire.2 = some x → x ∉ s.engine.restingSlots) ∧
      ∀ c : Call, ∃ e r, submitOrder s.engine c = some (e, r) ∧
        (r = false ↔ s.engine.restingSlots.length = n) ∧
        (r = false → e.market = s.engine.market ∧ e.nextOrderId = s.engine.nextOrderId ∧
          e.totalOrders = s.engine.totalOrders) := by
  obtain ⟨s, a, hs, hr⟩ := after_ready hn hc
  have hcons := hr.toConsistent
  have hslots := restingSlots_eq hcons
  have hlength : s.engine.restingSlots.length = (restingIn a).length := by rw [hslots, slots, List.length_map]
  have hnodup := hcons.pool.nodup
  refine ⟨s, hs, hnodup.of_append_left, ?_, ?_, ?_, ?_, ?_, ?_⟩
  · rw [hslots]; exact hnodup.of_append_right
  · rw [hslots]; exact List.disjoint_of_nodup_append hnodup
  · intro x
    rw [hslots, ← List.mem_append, hcons.pool.partition.mem_iff, List.mem_range]
  · have hle := hcons.length_le
    rw [hcons.pool.used, ← hslots, hlength, UInt64.toNat_ofNat_of_lt' (by simp only [UInt64.size]; omega)]
  · intro x hx
    rw [hslots]
    exact acquire_fresh hcons.pool hx
  · intro c
    by_cases hl : (restingIn a).length = n
    · obtain ⟨hsub, -⟩ := submitOrder_rejects hcons c hl
      exact ⟨_, false, hsub, by simp [hlength, hl], fun _ => ⟨rfl, rfl, rfl⟩⟩
    · obtain ⟨e', slot, a', left, fs, hsub, -, -⟩ :=
        submitOrder_accepts hcons c (Nat.lt_of_le_of_ne hcons.length_le hl)
      exact ⟨e', true, hsub, by simp [hlength, hl], by simp⟩

theorem slots_partition_full_pool :
    ∃ s, Session.after 1 [⟨0, 5, 100, 1⟩] = some s ∧
      ∀ c : Call, ∃ e r, submitOrder s.engine c = some (e, r) ∧
        (r = false ↔ s.engine.restingSlots.length = 1) := by
  obtain ⟨s, hs, -, -, -, -, -, -, hsub⟩ := slots_partition (by decide : 1 ≤ 2 ^ 32)
    [⟨0, 5, 100, 1⟩] (by decide +kernel)
  refine ⟨s, hs, fun c => ?_⟩
  obtain ⟨e, r, hr, hiff, -⟩ := hsub c
  exact ⟨e, r, hr, hiff⟩

end Sequitur.BookState
