import Sequitur.CoreLoop
import Sequitur.Histories
import Sequitur.Marketable

namespace Sequitur.PriceBounds

open OrderBook LevelBook Abstraction Accounting MatchingEngine EngineStep Sessions Marketable Protocol CoreLoop

def InBook (m : Market) : Prop := ∀ i ∈ m.touched, i ≤ maxPriceTicks

/-- A new order beyond the last tick gets a slot, and what it can trade with
does not use it up. -/
def LeavesBook (e : Engine) (packet : IngressPacket) : Prop :=
  packet.type = newOrder ∧ 0 ≤ e.pool.top ∧ maxPriceTicks < packet.price.toNat ∧
    quantityOf e (marketableSlots e (call packet (process packet))) < packet.quantity.toNat

theorem accepted_inBook {e e' : Engine} {c : Call} {a a' : Levels} {slot left : Nat} {fs : List Fill}
    (h : Accepted e c a e' slot a' left fs) :
    InBook e'.market ↔ InBook e.market ∧ (0 < left → c.price.toNat ≤ maxPriceTicks) := by
  obtain ⟨ts, ht, hts⟩ := h.touched
  rw [InBook, ht, List.forall_mem_append, List.forall_mem_append, and_iff_left hts]
  refine and_congr_right fun _ => ?_
  by_cases hl : 0 < left
  · rw [if_pos hl, List.forall_mem_singleton]
    exact ⟨fun h _ => h, fun h => h hl⟩
  · rw [if_neg hl]
    exact ⟨fun _ h => absurd h hl, fun _ _ h => absurd h List.not_mem_nil⟩

theorem submitted_inBook {n : Nat} {s s' : Session} {packet : IngressPacket} {a a' : Levels} (hr : Ready n s a)
    (ht : packet.type = newOrder) (h : Submitted n s (call packet (process packet)) a s' a') :
    (InBook s'.engine.market ↔ InBook s.engine.market ∧ ¬ LeavesBook s.engine packet) ∧
      (¬ LeavesBook s.engine packet → Bounded a') := by
  cases h with
  | rejected hl =>
      have hno : ¬ LeavesBook s.engine packet := fun ho => (top_nonneg_iff hr.toConsistent).mp ho.2.1 hl
      exact ⟨(and_iff_left hno).symm, fun _ => hr.bounded⟩
  | @accepted e' slot b left fs hl h =>
      have htop := (top_nonneg_iff hr.toConsistent).mpr (Nat.ne_of_lt hl)
      have hleft := (accepted_hits hr.toConsistent h).2
      have hiff : (0 < left → packet.price.toNat ≤ maxPriceTicks) ↔ ¬ LeavesBook s.engine packet := by
        rw [LeavesBook, and_iff_right ht, and_iff_right htop, hleft]
        change (0 < packet.quantity.toNat - _ → _) ↔ _
        omega
      refine ⟨(accepted_inBook h).trans (and_congr_right fun _ => hiff), fun hno => ?_⟩
      have hb := matched_bounded h.matched hr.bounded
      by_cases hpos : 0 < left
      · exact restResidue_bounded hb (hiff.mpr hno hpos) _ _
      · rw [restResidue, if_neg hpos]
        exact hb

def Safe (c : Core) : Prop := (∃ a, Ready 1000000 ⟨c.engine, []⟩ a) ∧ InBook c.engine.market

theorem consume_steps {c : Core} (h : Safe c) (packet : IngressPacket) :
    ∃ c', c.consume packet = some c' ∧ (InBook c'.engine.market → ¬ LeavesBook c.engine packet) ∧
      (¬ LeavesBook c.engine packet → Safe c') := by
  obtain ⟨⟨a, hr⟩, hin⟩ := h
  by_cases ht : packet.type = newOrder
  · obtain ⟨s', a', hs, hsub, hready⟩ := submit_steps hr (call packet (process packet))
    obtain ⟨hiff, hb⟩ := submitted_inBook hr ht hsub
    obtain ⟨c', hc, he⟩ := consume_of_submit ht rfl hs
    rw [← he] at hiff
    refine ⟨c', hc, fun hi => (hiff.mp hi).2, fun hno => ⟨⟨a', ?_⟩, hiff.mpr ⟨hin, hno⟩⟩⟩
    obtain ⟨hcons, hq⟩ := hready (hb hno)
    rw [← he] at hcons hq
    exact ⟨hcons, hq⟩
  · obtain ⟨c', hc, he⟩ := consume_other c ht
    refine ⟨c', hc, fun _ hl => ht hl.1, fun _ => ?_⟩
    rw [Safe, he]
    exact ⟨⟨a, consistent_clear hr.toConsistent, rfl⟩, hin⟩

theorem consume_extends {c c' : Core} {packet : IngressPacket} (h : c.consume packet = some c') :
    Histories.Extends c.engine.market c'.engine.market := by
  by_cases ht : packet.type = newOrder
  · obtain ⟨s', hs, he⟩ := submit_of_consume ht ⟨c.engine, []⟩ rfl h
    exact he ▸ Histories.submit_extends hs
  · obtain ⟨c'', hc, he⟩ := consume_other c ht
    obtain rfl : c'' = c' := Option.some.inj (hc.symm.trans h)
    rw [he]
    exact ⟨List.prefix_rfl, List.prefix_rfl, List.prefix_rfl, List.prefix_rfl⟩

def StaysIn (c : Core) (line : List UInt8) : Prop :=
  ∀ packet, forwarded line = some packet → ¬ LeavesBook c.engine packet

theorem receive_steps {c : Core} (h : Safe c) (line : List UInt8) :
    ∃ c', c.receive line = some c' ∧ (InBook c'.engine.market → StaysIn c line) ∧ (StaysIn c line → Safe c') := by
  unfold Core.receive StaysIn
  cases forwarded line with
  | none => exact ⟨c, rfl, by simp, fun _ => h⟩
  | some packet => simpa using consume_steps h packet

theorem receive_safe {c : Core} {line : List UInt8} (h : Safe c) (hin : StaysIn c line) :
    ∃ c', c.receive line = some c' ∧ Safe c' := by
  obtain ⟨c', hc, -, hsafe⟩ := receive_steps h line
  exact ⟨c', hc, hsafe hin⟩

theorem receive_inBook {c c' : Core} {line : List UInt8} (h : c.receive line = some c')
    (hin : InBook c'.engine.market) : InBook c.engine.market := by
  rw [Core.receive] at h
  split at h
  · exact fun i hi => hin i ((consume_extends h).touched.subset hi)
  · exact Option.some.inj h ▸ hin

theorem init_safe : Safe .init := by
  refine ⟨⟨.empty, init_ready (by decide)⟩, ?_⟩
  simp [InBook, Core.init, Engine.init, Market.init]

/-- The levels array is only used at its indices, and the cursors stay on it,
exactly as long as no forwarded order comes to rest beyond the last tick. -/
theorem price_indices_in_book_iff (lines : List (List UInt8)) :
    (∃ c, Runs.run Core.receive .init lines = some c ∧ InBook c.engine.market ∧
        c.engine.market.bestBid.toNat ≤ maxPriceTicks ∧ c.engine.market.bestAsk.toNat ≤ maxPriceTicks) ↔
      Runs.Along Core.receive StaysIn .init lines := by
  constructor
  · rintro ⟨c, hr, hin, -⟩
    refine (Runs.run_good_iff (fun _ hs => hs.2) (fun _ _ _ => receive_safe) ?_ ?_ init_safe).mp ⟨c, hr, hin⟩
    · intro c line _ hs hout c' hc' hin'
      obtain ⟨c'', hc, hstays, -⟩ := receive_steps hs line
      obtain rfl : c'' = c' := Option.some.inj (hc.symm.trans hc')
      exact hout (hstays hin')
    · exact fun c line c' hc hin' => receive_inBook hc hin'
  · intro h
    obtain ⟨c, hr, ⟨a, ha⟩, hin⟩ := Runs.run_total (fun _ _ => receive_safe) init_safe h
    refine ⟨c, hr, hin, ?_, ?_⟩
    · exact Nat.le_trans (Nat.le_of_eq ha.market.bestBid) ha.bounded.bestBid
    · exact Nat.le_trans (Nat.le_of_eq ha.market.bestAsk) ha.bounded.bestAsk

/-- A buy at 1000001, one tick beyond the array, is parsed, forwarded and put
into the book. -/
theorem price_beyond_book :
    ∃ c, Runs.run Core.receive .init ["1,0,1,7,5,1000001,9\n".toUTF8.toList] = some c ∧
      c.engine.market.touched = [maxPriceTicks, maxPriceTicks + 1] := by
  have hrun : (Runs.run Core.receive .init ["1,0,1,7,5,1000001,9\n".toUTF8.toList]).map
      (fun c => c.engine.market.touched) = some [1000000, 1000001] := by
    decide +kernel
  obtain ⟨c, hc, htouched⟩ := Option.map_eq_some_iff.mp hrun
  rw [maxPriceTicks]
  exact ⟨c, hc, htouched⟩

end Sequitur.PriceBounds
