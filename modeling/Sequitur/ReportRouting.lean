import Sequitur.Answers
import Sequitur.ClientRegistry

namespace Sequitur.ReportRouting

open OrderBook Abstraction MatchingEngine QueueBounds Protocol CoreLoop Answers

section Route

variable {ι : Type}

def lookup (clientRegistry : UInt32 → Option ι) (traderId : UInt32) : List (UInt32 × ι) :=
  (clientRegistry traderId).toList.map fun s => (traderId, s)

/-- The sends of the egress goroutine for a packet, each with the id whose
entry it found: first that of the taker, then that of the maker. -/
def route (clientRegistry : UInt32 → Option ι) (packet : EgressPacket) : List (UInt32 × ι) :=
  lookup clientRegistry packet.takerId.toUInt32 ++ lookup clientRegistry packet.makerId.toUInt32

variable {clientRegistry : UInt32 → Option ι} {packet : EgressPacket} {traderId : UInt32} {s : ι}

theorem mem_route : (traderId, s) ∈ route clientRegistry packet ↔ clientRegistry traderId = some s ∧
    (traderId = packet.takerId.toUInt32 ∨ traderId = packet.makerId.toUInt32) := by
  simp only [route, lookup, List.mem_append, List.mem_map, Option.mem_toList, Prod.mk.injEq]
  constructor
  · rintro (⟨x, hx, rfl, rfl⟩ | ⟨x, hx, rfl, rfl⟩)
    · exact ⟨hx, .inl rfl⟩
    · exact ⟨hx, .inr rfl⟩
  · rintro ⟨hs, rfl | rfl⟩
    · exact .inl ⟨s, hs, rfl, rfl⟩
    · exact .inr ⟨s, hs, rfl, rfl⟩

end Route

section Gateway

open Gateway ClientRegistry

variable {s s' : State} {a : Gateway.Action} {packet : EgressPacket} {c : Nat}

def Found (s : State) : Prop :=
  ∀ packet c, (s.egress = .taker packet c → s.clientRegistry packet.takerId.toUInt32 = some c) ∧
    (s.egress = .maker packet c → s.clientRegistry packet.makerId.toUInt32 = some c)

theorem found_of_write (h : ClientRegistry.Inv s) (hw : s.registryMutex = .write c) (hs : s'.egress = s.egress) :
    Found s' := by
  have hreads : ¬ reads s.egress = true := by
    rw [h.reader, hw]
    simp
  refine fun packet d => ⟨fun he => absurd ?_ hreads, fun he => absurd ?_ hreads⟩ <;> rw [← hs, he] <;> rfl

theorem found_of_egress (h : ∀ packet c, s.egress ≠ .taker packet c ∧ s.egress ≠ .maker packet c) : Found s :=
  fun packet c => ⟨fun he => absurd he (h packet c).1, fun he => absurd he (h packet c).2⟩

theorem send_found (h : Found s) {next : Egress} (hn : ∀ packet c, next ≠ .taker packet c ∧ next ≠ .maker packet c) :
    Found (s.send c packet next) := by
  rw [State.send]
  split
  · exact h
  · exact found_of_egress hn

/-- The registry only changes under the write lock, so a session that was
found in it is still there when it is sent to. -/
theorem step_found (hinv : ClientRegistry.Inv s) (h : Found s) (hs : step s a = some s') : Found s' := by
  cases steps_of_step hs with
  | @register c _ he | @delete c _ _ he => exact found_of_write hinv ((hinv.writer c).mp (by rw [he]; rfl)) rfl
  | skip | accept | known | record | lock | unlock | send | close | finish | disconnect | cleanup | write | receive
  | call | access | result | core => exact h
  | dequeue | readLock | noTaker | noMaker | readUnlock => exact found_of_egress (by simp)
  | findTaker he hc =>
      refine fun packet c => ⟨fun hp => ?_, by simp⟩
      obtain ⟨rfl, rfl⟩ := Egress.taker.inj hp
      exact hc
  | findMaker he hc =>
      refine fun packet c => ⟨by simp, fun hp => ?_⟩
      obtain ⟨rfl, rfl⟩ := Egress.maker.inj hp
      exact hc
  | sendTaker | sendMaker => exact send_found h (by simp)

theorem sends_follow_route {buf : Nat → IngressPacket} {base : BitVec 64} {actions : List Gateway.Action}
    (hr : Runs.run step (init buf base) actions = some s)
    (he : s.egress = .taker packet c ∨ s.egress = .maker packet c) :
    ∃ traderId, (traderId, c) ∈ route s.clientRegistry packet := by
  have hinit : ClientRegistry.Inv (init buf base) ∧ Found (init buf base) :=
    ⟨ClientRegistry.init_inv buf base, found_of_egress (by simp [init])⟩
  have hstep : ∀ (s : State) (a : Gateway.Action) (s' : State), ClientRegistry.Inv s ∧ Found s →
      step s a = some s' → ClientRegistry.Inv s' ∧ Found s' :=
    fun s a s' h hs => ⟨ClientRegistry.step_inv h.1 hs, step_found h.1 h.2 hs⟩
  obtain ⟨-, hfound⟩ := Runs.run_invariant hstep hinit hr
  rcases he with he | he
  · exact ⟨_, mem_route.mpr ⟨(hfound packet c).1 he, .inl rfl⟩⟩
  · exact ⟨_, mem_route.mpr ⟨(hfound packet c).2 he, .inr rfl⟩⟩

end Gateway

section Sender

variable {e : Engine} {packet : IngressPacket} {x : Answer}

def Reaches (x : Answer) : Prop :=
  ∃ r ∈ x.reports, (r.makerId = x.packet.traderId.toUInt64 ∨ r.takerId = x.packet.traderId.toUInt64) ∧
    ∀ (clientRegistry : UInt32 → Option Nat) (s : Nat), clientRegistry x.packet.traderId = some s →
      (x.packet.traderId, s) ∈ route clientRegistry r

theorem reaches_of_key {r : EgressPacket} (hr : r ∈ x.reports)
    (hk : r.makerId = x.packet.traderId.toUInt64 ∨ r.takerId = x.packet.traderId.toUInt64) : Reaches x := by
  refine ⟨r, hr, hk, fun clientRegistry s hs => mem_route.mpr ⟨hs, ?_⟩⟩
  rcases hk with hk | hk
  · exact .inr (by rw [hk, UInt32.toUInt32_toUInt64])
  · exact .inl (by rw [hk, UInt32.toUInt32_toUInt64])

theorem reaches_iff (h : Answered e packet x) :
    Reaches x ↔ packet.traderId = 0 ∨ (packet.type = newOrder ∧ 0 ≤ e.pool.top) := by
  cases h with
  | rejected hno =>
      constructor
      · rintro ⟨r, hr, hk, -⟩
        obtain rfl := List.mem_singleton.mp hr
        have hzero : (0 : UInt32).toUInt64 = packet.traderId.toUInt64 := hk.elim id id
        exact .inl (UInt32.toUInt64_inj.mp hzero).symm
      · rintro (hz | ⟨ht, htop⟩)
        · refine reaches_of_key (List.mem_singleton_self _) (.inl ?_)
          rw [hz]
          rfl
        · exact absurd (hno ht) (Int.not_lt.mpr htop)
  | accepted ht htop =>
      exact iff_of_true (reaches_of_key (List.mem_singleton_self _) (.inl rfl)) (.inr ⟨ht, htop⟩)
  | @filled gs ht htop hgs htaker =>
      obtain ⟨g, hg⟩ := List.exists_mem_of_ne_nil gs hgs
      refine iff_of_true (reaches_of_key (List.mem_map_of_mem hg) (.inr ?_)) (.inr ⟨ht, htop⟩)
      exact congrArg UInt32.toUInt64 (htaker g hg)

structure Served (j : Journal) : Prop extends Recorded j where
  stands : ∃ a, Stands j a
  within : Within j.core.engine.market
  reached : ∀ x ∈ j.answers, Reaches x

/-- Every packet of a run is answered to its sender, and no queue is overrun,
exactly if no packet overruns one and every packet, unless it is from trader 0,
is a new order that finds a free slot. -/
theorem senders_answered_iff {packets : List IngressPacket} (hp : ∀ p ∈ packets, p.price.toNat ≤ maxPriceTicks) :
    (∃ j, Journal.after packets = some j ∧ Within j.core.engine.market ∧ j.answers.map Answer.packet = packets ∧
        ∀ x ∈ j.answers, ∃ r ∈ x.reports,
          (r.makerId = x.packet.traderId.toUInt64 ∨ r.takerId = x.packet.traderId.toUInt64) ∧
          ∀ (clientRegistry : UInt32 → Option Nat) (s : Nat), clientRegistry x.packet.traderId = some s →
            (x.packet.traderId, s) ∈ route clientRegistry r) ↔
      Runs.Along Journal.consume
        (fun j p => Contained j.core.engine p ∧
          (p.traderId = 0 ∨ (p.type = newOrder ∧ 0 ≤ j.core.engine.pool.top))) .init packets := by
  have hinit : Served .init := ⟨⟨rfl, by simp [Journal.init]⟩, ⟨_, init_stands⟩, init_within, by simp [Journal.init]⟩
  have hrun : (∃ j, Journal.after packets = some j ∧ Within j.core.engine.market ∧ ∀ x ∈ j.answers, Reaches x) ↔
      Runs.Along Journal.consume (fun j p => Contained j.core.engine p ∧
        (p.traderId = 0 ∨ (p.type = newOrder ∧ 0 ≤ j.core.engine.pool.top))) .init packets := by
    refine Runs.run_good_iff (fun _ h => ⟨h.within, h.reached⟩) ?_ ?_ ?_ hinit
    · rintro j p hm ⟨hrec, ⟨a, ha⟩, hwithin, hgood⟩ ⟨hroom, hok⟩
      obtain ⟨j', -, a', hj, -, -, -, ha'⟩ := consume_levels ha (hp p hm)
      obtain ⟨x, hx, hans, -, -⟩ := consume_answers hrec.execQ hj
      refine ⟨j', hj, consume_recorded hrec hj, ⟨a', ha'⟩, (consume_within ha hj).mpr ⟨hwithin, hroom⟩, ?_⟩
      rw [hx, List.forall_mem_append, List.forall_mem_singleton]
      exact ⟨hgood, (reaches_iff hans).mpr hok⟩
    · rintro j p hm ⟨hrec, ⟨a, ha⟩, -, -⟩ hno j' hj ⟨hwithin, hgood⟩
      obtain ⟨x, hx, hans, -, -⟩ := consume_answers hrec.execQ hj
      exact hno ⟨((consume_within ha hj).mp hwithin).2, (reaches_iff hans).mp (hgood x (by simp [hx]))⟩
    · intro j p j' hj hgood
      obtain ⟨c, hc, rfl⟩ := Option.map_eq_some_iff.mp hj
      exact ⟨hgood.1.of_extends (PriceBounds.consume_extends hc), fun x hx => hgood.2 x (List.mem_append_left _ hx)⟩
  rw [← hrun]
  exact exists_congr fun j => and_congr_right fun hj => and_congr_right fun _ => and_iff_right (after_packets hj)

def crossing : List IngressPacket := [⟨1, 1, 1, 7, 5, 100, 9⟩, ⟨1, 0, 1, 8, 5, 100, 10⟩]

theorem senders_answered_iff_crossing :
    ∃ j, Journal.after crossing = some j ∧ Within j.core.engine.market ∧ j.answers.map Answer.packet = crossing ∧
      ∀ x ∈ j.answers, ∃ r ∈ x.reports,
        (r.makerId = x.packet.traderId.toUInt64 ∨ r.takerId = x.packet.traderId.toUInt64) ∧
        ∀ (clientRegistry : UInt32 → Option Nat) (s : Nat), clientRegistry x.packet.traderId = some s →
          (x.packet.traderId, s) ∈ route clientRegistry r := by
  have hprice : ∀ p ∈ crossing, p.price.toNat ≤ maxPriceTicks := by
    rw [maxPriceTicks]
    decide
  have hok : Runs.Along Journal.consume (fun j p => Contained j.core.engine p ∧
      (p.traderId = 0 ∨ (p.type = newOrder ∧ 0 ≤ j.core.engine.pool.top))) .init crossing := by
    decide +kernel
  exact (senders_answered_iff hprice).mpr hok

/-- The only report for a cancel request of trader 7 is a rejection that names
nobody. -/
theorem rejection_names_nobody :
    ∃ j r, Journal.after [⟨2, 1, 1, 7, 5, 100, 9⟩] = some j ∧
      j.answers = [⟨⟨2, 1, 1, 7, 5, 100, 9⟩, [r], []⟩] ∧ r.makerId ≠ 7 ∧ r.takerId ≠ 7 ∧
      ∀ (clientRegistry : UInt32 → Option Nat) (s : Nat), (7, s) ∉ route clientRegistry r := by
  have hrun : (Journal.after [⟨2, 1, 1, 7, 5, 100, 9⟩]).map Journal.answers =
      some [⟨⟨2, 1, 1, 7, 5, 100, 9⟩, [⟨.orderRejected, 1, 1, 9, 0, 0, 100, 5, 0⟩], []⟩] := by decide +kernel
  obtain ⟨j, hj, he⟩ := Option.map_eq_some_iff.mp hrun
  refine ⟨j, _, hj, he, by decide, by decide, fun clientRegistry s hs => ?_⟩
  exact absurd (mem_route.mp hs).2 (by decide)

end Sender

section Parties

variable {ι : Type} {e : Engine} {packet : IngressPacket} {x : Answer} {r : EgressPacket} {i : Nat}

theorem unfilled_parties_iff (clientRegistry : UInt32 → Option ι) (htaker : r.takerId = 0)
    (hmaker : r.makerId = 0 ∨ r.makerId = packet.traderId.toUInt64) :
    (∀ traderId s, (traderId, s) ∈ route clientRegistry r → traderId = packet.traderId) ↔
      clientRegistry 0 = none ∨ packet.traderId = 0 := by
  have hzero : (0 : UInt64).toUInt32 = 0 := rfl
  constructor
  · intro h
    cases hs : clientRegistry 0 with
    | none => exact .inl rfl
    | some s => exact .inr (h 0 s (mem_route.mpr ⟨hs, .inl (by rw [htaker, hzero])⟩)).symm
  · intro h traderId s hmem
    obtain ⟨hs, hkey⟩ := mem_route.mp hmem
    have hcases : traderId = 0 ∨ traderId = packet.traderId := by
      rw [htaker, hzero] at hkey
      rcases hmaker with hmaker | hmaker
      · rw [hmaker, hzero] at hkey
        exact .inl (hkey.elim id id)
      · rwa [hmaker, UInt32.toUInt32_toUInt64] at hkey
    rcases hcases with rfl | ht
    · rcases h with hnone | hz
      · rw [hnone] at hs
        simp at hs
      · exact hz.symm
    · exact ht

theorem answered_parties_iff (h : Answered e packet x) (hr : x.reports[i]? = some r)
    (clientRegistry : UInt32 → Option ι) :
    (∀ traderId s, (traderId, s) ∈ route clientRegistry r →
        traderId = packet.traderId ∨ ∃ g, x.fills[i]? = some g ∧ g.1.traderId = traderId) ↔
      clientRegistry 0 = none ∨ packet.traderId = 0 ∨ x.fills ≠ [] := by
  cases h with
  | rejected =>
      obtain rfl := List.mem_singleton.mp (List.mem_of_getElem? hr)
      simpa using unfilled_parties_iff clientRegistry rfl (.inl rfl)
  | accepted =>
      obtain rfl := List.mem_singleton.mp (List.mem_of_getElem? hr)
      simpa using unfilled_parties_iff clientRegistry rfl (.inr rfl)
  | @filled gs ht htop hgs htaker =>
      rw [List.getElem?_map] at hr
      obtain ⟨g, hg, rfl⟩ := Option.map_eq_some_iff.mp hr
      refine iff_of_true (fun traderId s hmem => ?_) (.inr (.inr hgs))
      rcases (mem_route.mp hmem).2 with hk | hk
      · left
        rw [hk, ← htaker g (List.mem_of_getElem? hg)]
        exact UInt32.toUInt32_toUInt64 _
      · right
        refine ⟨g, hg, ?_⟩
        rw [hk]
        exact (UInt32.toUInt32_toUInt64 _).symm

structure Sound (j : Journal) : Prop extends Recorded j where
  stands : ∃ a, Stands j a
  within : Within j.core.engine.market

theorem init_sound : Sound .init := ⟨⟨rfl, by simp [Journal.init]⟩, ⟨_, init_stands⟩, init_within⟩

theorem consume_sound {j : Journal} (h : Sound j) (hp : packet.price.toNat ≤ maxPriceTicks)
    (hc : Contained j.core.engine packet) : ∃ j', j.consume packet = some j' ∧ Sound j' := by
  obtain ⟨a, ha⟩ := h.stands
  obtain ⟨j', -, a', hj, -, -, -, ha'⟩ := consume_levels ha hp
  exact ⟨j', hj, consume_recorded h.toRecorded hj, ⟨a', ha'⟩, (consume_within ha hj).mpr ⟨h.within, hc⟩⟩

/-- In a run that overruns no queue, a report for the next packet goes to the
sender of the packet and to the owner of the resting order that it traded with,
and to nobody else unless the packet finds nothing to trade with, its sender is
not trader 0 and a session is registered for trader 0. -/
theorem reports_to_parties_iff (before : List IngressPacket) (packet : IngressPacket)
    (hp : ∀ p ∈ before ++ [packet], p.price.toNat ≤ maxPriceTicks)
    (hc : Runs.Along Journal.consume (fun j p => Contained j.core.engine p) .init (before ++ [packet])) :
    ∃ j j' x, Journal.after before = some j ∧ Journal.after (before ++ [packet]) = some j' ∧
      j'.answers = j.answers ++ [x] ∧ x.packet = packet ∧ Within j'.core.engine.market ∧
      ∀ (ι : Type) (clientRegistry : UInt32 → Option ι) (i : Nat) (r : EgressPacket), x.reports[i]? = some r →
        ((∀ traderId s, (traderId, s) ∈ route clientRegistry r →
            traderId = packet.traderId ∨ ∃ g, x.fills[i]? = some g ∧ g.1.traderId = traderId) ↔
          clientRegistry 0 = none ∨ packet.traderId = 0 ∨ Trading j.core.engine packet) := by
  have hprice : Runs.Along Journal.consume (fun _ p => p.price.toNat ≤ maxPriceTicks) .init (before ++ [packet]) :=
    .of_forall fun p hm _ => hp p hm
  obtain ⟨hbefore, hlast⟩ := (hprice.and hc).of_append
  obtain ⟨j, hj, hsound⟩ := Runs.run_total (fun _ _ h hok => consume_sound h hok.1 hok.2) init_sound hbefore
  obtain ⟨⟨hmax, hroom⟩, -⟩ := hlast j hj
  obtain ⟨j', hj', hsound'⟩ := consume_sound hsound hmax hroom
  obtain ⟨x, hx, hans, -, -⟩ := consume_answers hsound.execQ hj'
  obtain ⟨a, ha⟩ := hsound.stands
  have hpacket : x.packet = packet := by cases hans <;> rfl
  refine ⟨j, j', x, hj, Runs.run_concat hj hj', hx, hpacket, hsound'.within, fun ι clientRegistry i r hr => ?_⟩
  rw [← consume_trades_iff ha hj' hx]
  exact answered_parties_iff hans hr clientRegistry

theorem reports_to_parties_iff_crossing :
    ∃ j' x, Journal.after crossing = some j' ∧ x ∈ j'.answers ∧ x.packet.traderId = 8 ∧
      ∀ (clientRegistry : UInt32 → Option Nat) (i : Nat) (r : EgressPacket), x.reports[i]? = some r →
        ∀ traderId s, (traderId, s) ∈ route clientRegistry r →
          traderId = 8 ∨ ∃ g, x.fills[i]? = some g ∧ g.1.traderId = traderId := by
  have hprice : ∀ p ∈ crossing, p.price.toNat ≤ maxPriceTicks := by
    rw [maxPriceTicks]
    decide
  have hroom : Runs.Along Journal.consume (fun j p => Contained j.core.engine p) .init crossing := by
    decide +kernel
  have htrades : (Journal.after (crossing.take 1)).map
      (fun j => decide (Trading j.core.engine ⟨1, 0, 1, 8, 5, 100, 10⟩)) = some true := by decide +kernel
  obtain ⟨j, j', x, hj, hj', hx, hpacket, -, hiff⟩ :=
    reports_to_parties_iff (crossing.take 1) ⟨1, 0, 1, 8, 5, 100, 10⟩ hprice hroom
  have htrading : Trading j.core.engine ⟨1, 0, 1, 8, 5, 100, 10⟩ := by
    rw [hj] at htrades
    simpa using htrades
  refine ⟨j', x, hj', by simp [hx], by rw [hpacket], fun clientRegistry i r hr => ?_⟩
  exact (hiff Nat clientRegistry i r hr).mpr (.inr (.inr htrading))

/-- The acceptance of a sell of trader 7 also goes to a session that is
registered for trader 0. -/
theorem acceptance_leaks :
    ∃ j r, Journal.after [⟨1, 1, 1, 7, 5, 100, 9⟩] = some j ∧
      j.answers = [⟨⟨1, 1, 1, 7, 5, 100, 9⟩, [r], []⟩] ∧
      ∀ clientRegistry : UInt32 → Option Nat, clientRegistry 0 = some 1 → (0, 1) ∈ route clientRegistry r := by
  have hrun : (Journal.after [⟨1, 1, 1, 7, 5, 100, 9⟩]).map Journal.answers =
      some [⟨⟨1, 1, 1, 7, 5, 100, 9⟩, [⟨.orderAccepted, 1, 1, 9, 7, 0, 100, 5, 0⟩], []⟩] := by decide +kernel
  obtain ⟨j, hj, he⟩ := Option.map_eq_some_iff.mp hrun
  exact ⟨j, _, hj, he, fun clientRegistry hs => mem_route.mpr ⟨hs, .inl rfl⟩⟩

end Parties

end Sequitur.ReportRouting
