import Sequitur.EgressReader
import Sequitur.ReportRouting

namespace Sequitur.BalanceAudit

open OrderBook LevelBook MatchingEngine QueueBounds Protocol CoreLoop Answers ReportRouting
open EgressReader (CharacterData Stats egressReaderLoop loop_reports payload typeCode wire)

/-- One connection that owns all ids, from its lines to what comes back: the
packets on their way to the core, the reports on their way to the gateway, and
all that was written to the connection. -/
structure State where
  sent : Nat
  localSessionTraders : List UInt32
  packets : List IngressPacket
  journal : Journal
  reports : List EgressPacket
  stream : List UInt8

def State.init : State := ⟨0, [], [], .init, [], []⟩

def registry (localSessionTraders : List UInt32) (traderId : UInt32) : Option Unit :=
  if traderId ∈ localSessionTraders then some () else none

inductive Action
  | line (message : List UInt8)
  | core
  | egress

def State.receive (s : State) (packet : IngressPacket) : State :=
  { s with
    localSessionTraders :=
      if packet.traderId ∈ s.localSessionTraders then s.localSessionTraders
      else packet.traderId :: s.localSessionTraders
    packets := s.packets ++ [packet] }

/-- A line is sent and forwarded, the core takes the next packet, or the egress
goroutine takes the next report. Nothing is dropped in between. -/
def step (s : State) : Action → Option State
  | .line message =>
      match forwarded message with
      | some packet => some { s.receive packet with sent := s.sent + 1 }
      | none => some { s with sent := s.sent + 1 }
  | .core =>
      match s.packets with
      | [] => none
      | packet :: packets =>
          (s.journal.consume packet).map fun j =>
            { s with packets := packets, journal := j
                     reports := s.reports ++ j.core.pushed.drop s.journal.core.pushed.length }
  | .egress =>
      match s.reports with
      | [] => none
      | report :: reports =>
          some { s with
            reports := reports
            stream := s.stream ++ (route (registry s.localSessionTraders) report).flatMap fun _ => payload (wire report) }

structure WellFormed (packet : IngressPacket) : Prop where
  type : packet.type = newOrder
  side : packet.side = 0 ∨ packet.side = 1
  price : 1 ≤ packet.price.toNat ∧ packet.price.toNat ≤ maxPriceTicks - 1
  quantity : 0 < packet.quantity
  traderId : packet.traderId ≠ 0

section Routing

variable {traders : List UInt32} {r : EgressPacket}

def Keyed (traders : List UInt32) (r : EgressPacket) : Prop :=
  match r.type with
  | .orderAccepted => r.takerId.toUInt32 = 0 ∧ r.makerId.toUInt32 ∈ traders
  | .orderFilled => r.takerId.toUInt32 ∈ traders ∧ r.makerId.toUInt32 ∈ traders
  | .orderRejected => r.takerId.toUInt32 = 0 ∧ r.makerId.toUInt32 = 0
  | .orderCanceled => False

def copies : EgressType → Nat
  | .orderAccepted => 1
  | .orderFilled => 2
  | .orderRejected | .orderCanceled => 0

theorem Keyed.mono {traders' : List UInt32} (h : Keyed traders r) (hsub : traders ⊆ traders') : Keyed traders' r := by
  unfold Keyed at h ⊢
  split at h
  · exact ⟨h.1, hsub h.2⟩
  · exact ⟨hsub h.1, hsub h.2⟩
  · exact h
  · exact h

theorem lookup_length (traders : List UInt32) (traderId : UInt32) :
    (lookup (registry traders) traderId).length = if traderId ∈ traders then 1 else 0 := by
  by_cases ht : traderId ∈ traders <;> simp [lookup, registry, ht]

theorem route_length (hzero : 0 ∉ traders) (h : Keyed traders r) :
    (route (registry traders) r).length = copies r.type := by
  rw [route, List.length_append, lookup_length, lookup_length]
  unfold Keyed at h
  split at h
  next ht => rw [h.1, if_neg hzero, if_pos h.2, ht]; rfl
  next ht => rw [if_pos h.1, if_pos h.2, ht]; rfl
  next ht => rw [h.1, h.2, if_neg hzero, ht]; rfl
  next => exact h.elim

theorem answered_keyed {e : Engine} {packet : IngressPacket} {x : Answer} (h : Answered e packet x)
    (ht : packet.traderId ∈ traders) (hmakers : ∀ g ∈ x.fills, g.1.traderId ∈ traders) :
    ∀ r ∈ x.reports, Keyed traders r := by
  have hid (traderId : UInt32) : traderId.toUInt64.toUInt32 = traderId := UInt32.toUInt32_toUInt64 traderId
  cases h with
  | rejected => simp [Keyed, rejectPacket]
  | accepted => simpa [Keyed, reportPacket, process, hid] using ht
  | filled _ _ _ htaker =>
      intro r hr
      obtain ⟨g, hg, rfl⟩ := List.mem_map.mp hr
      simp only [Keyed, fillPacket, tradeOf, hid]
      exact ⟨htaker g hg ▸ ht, hmakers g hg⟩

end Routing

section Counting

def number (type : EgressType) (reports : List EgressPacket) : Nat := reports.countP fun r => r.type = type

def delivery (reports : List EgressPacket) : List EgressPacket :=
  reports.flatMap fun r => List.replicate (copies r.type) r

theorem number_delivery (type : EgressType) (reports : List EgressPacket) :
    number type (delivery reports) = copies type * number type reports := by
  induction reports with
  | nil => rfl
  | cons r reports ih =>
      simp only [number, delivery, List.flatMap_cons, List.countP_append, List.countP_cons, List.countP_replicate] at ih ⊢
      rw [ih]
      by_cases ht : r.type = type <;> simp [ht, Nat.mul_add, Nat.add_comm]

theorem countP_delivery (type : EgressType) (reports : List EgressPacket) :
    (((delivery reports).map wire).countP fun p => p.type = typeCode type) = copies type * number type reports := by
  have hcode : ∀ t u : EgressType, typeCode t = typeCode u ↔ t = u := by
    intro t u
    cases t <;> cases u <;> decide
  rw [← number_delivery, number, List.countP_map]
  refine List.countP_congr fun r _ => ?_
  simp [wire, hcode]

theorem answered_number {e : Engine} {packet : IngressPacket} {x : Answer} (h : Answered e packet x) :
    1 + (x.fills.length - 1) =
      number .orderAccepted x.reports + number .orderFilled x.reports + number .orderRejected x.reports := by
  cases h with
  | rejected => simp [number, rejectPacket]
  | accepted => simp [number, reportPacket]
  | @filled gs ht htop hgs htaker =>
      have hpos := List.length_pos_of_ne_nil hgs
      have hnone (type : EgressType) (hne : type ≠ .orderFilled) :
          number type (gs.map fun g => fillPacket (process packet) (tradeOf g)) = 0 := by
        simp [number, fillPacket, hne.symm]
      have hall : number .orderFilled (gs.map fun g => fillPacket (process packet) (tradeOf g)) = gs.length := by
        simp [number, fillPacket, List.countP_map, Function.comp_def]
      rw [hnone .orderAccepted (by decide), hnone .orderRejected (by decide), hall]
      dsimp only
      omega

theorem answers_number {answers : List Answer} (h : ∀ x ∈ answers, ∃ e, Answered e x.packet x) :
    answers.length + (answers.map fun x => x.fills.length - 1).sum =
      number .orderAccepted (answers.flatMap Answer.reports) + number .orderFilled (answers.flatMap Answer.reports) +
        number .orderRejected (answers.flatMap Answer.reports) := by
  induction answers with
  | nil => rfl
  | cons x answers ih =>
      obtain ⟨⟨e, hx⟩, hrest⟩ := List.forall_mem_cons.mp h
      have hone := answered_number hx
      have hsum := ih hrest
      simp only [number, List.flatMap_cons, List.countP_append, List.length_cons, List.map_cons, List.sum_cons] at *
      omega

end Counting

structure Inv (s : State) : Prop where
  zero : 0 ∉ s.localSessionTraders
  packets : ∀ p ∈ s.packets, p.price.toNat ≤ maxPriceTicks ∧ p.traderId ∈ s.localSessionTraders
  recorded : Recorded s.journal
  book : ∃ a, Stands s.journal a ∧ ∀ p, ∀ r ∈ a.levels p, r.traderId ∈ s.localSessionTraders
  within : Within s.journal.core.engine.market
  sent : s.sent = s.journal.answers.length + s.packets.length
  pushed : s.journal.core.pushed = s.journal.answers.flatMap Answer.reports
  keyed : ∀ r ∈ s.reports, Keyed s.localSessionTraders r
  written : ∃ routed, s.journal.core.pushed = routed ++ s.reports ∧
    s.stream = ((delivery routed).map wire).flatMap payload

variable {s s' : State}

theorem init_inv : Inv .init where
  zero := by simp [State.init]
  packets := by simp [State.init]
  recorded := ⟨rfl, by simp [State.init, Journal.init]⟩
  book := ⟨.empty, init_stands, by simp [Levels.empty]⟩
  within := init_within
  sent := rfl
  pushed := rfl
  keyed := by simp [State.init]
  written := ⟨[], rfl, rfl⟩

theorem line_inv {packet : IngressPacket} (h : Inv s) (hw : WellFormed packet) :
    Inv { s.receive packet with sent := s.sent + 1 } := by
  have hsub : s.localSessionTraders ⊆ (s.receive packet).localSessionTraders := by
    simp only [State.receive]
    split
    · exact fun _ ht => ht
    · exact List.subset_cons_self _ _
  have hmem : packet.traderId ∈ (s.receive packet).localSessionTraders := by
    simp only [State.receive]
    split
    · assumption
    · exact List.mem_cons_self
  have hzero : 0 ∉ (s.receive packet).localSessionTraders := by
    simp only [State.receive]
    split
    · exact h.zero
    · exact List.not_mem_cons_of_ne_of_not_mem hw.traderId.symm h.zero
  obtain ⟨a, ha, hrest⟩ := h.book
  refine ⟨hzero, ?_, h.recorded, ⟨a, ha, fun p r hr => hsub (hrest p r hr)⟩, h.within, ?_, h.pushed,
    fun r hr => (h.keyed r hr).mono hsub, h.written⟩
  · intro p hp
    rcases List.mem_append.mp hp with hp | hp
    · exact ⟨(h.packets p hp).1, hsub (h.packets p hp).2⟩
    · obtain rfl := List.mem_singleton.mp hp
      exact ⟨Nat.le_trans hw.price.2 (Nat.sub_le _ _), hmem⟩
  · have hsent := h.sent
    simp only [State.receive, List.length_append, List.length_singleton]
    omega

theorem core_inv {packet : IngressPacket} {packets : List IngressPacket} {j : Journal} (h : Inv s)
    (hp : s.packets = packet :: packets) (hroom : Contained s.journal.core.engine packet)
    (hj : s.journal.consume packet = some j) :
    Inv { s with packets := packets, journal := j
                 reports := s.reports ++ j.core.pushed.drop s.journal.core.pushed.length } := by
  obtain ⟨⟨hprice, htrader⟩, hpackets⟩ := List.forall_mem_cons.mp (hp ▸ h.packets)
  obtain ⟨a, ha, hrest⟩ := h.book
  obtain ⟨j', x, a', hj', hx, hpushed, hc, ha'⟩ := consume_levels ha hprice
  obtain rfl : j' = j := Option.some.inj (hj'.symm.trans hj)
  obtain ⟨y, hy, hans, -, -⟩ := consume_answers h.recorded.execQ hj
  obtain rfl : x = y := List.singleton_inj.mp (List.append_cancel_left (hx.symm.trans hy))
  have hkeyed := answered_keyed hans htrader (hc.makers hrest)
  obtain ⟨routed, hrouted, hstream⟩ := h.written
  have hdrop : j'.core.pushed.drop s.journal.core.pushed.length = x.reports := by rw [hpushed, List.drop_left]
  rw [hdrop]
  refine ⟨h.zero, hpackets, consume_recorded h.recorded hj, ⟨a', ha', ?_⟩,
    (consume_within ha hj).mpr ⟨h.within, hroom⟩, ?_, ?_, ?_, routed, ?_, hstream⟩
  · exact hc.resting (Q := fun _ traderId => traderId ∈ s.localSessionTraders) hrest fun _ _ _ => htrader
  · have hsent := h.sent
    rw [hp] at hsent
    simp only [hx, List.length_append, List.length_cons, List.length_nil] at hsent ⊢
    omega
  · simp only [hpushed, hx, h.pushed, List.flatMap_append, List.flatMap_singleton]
  · rw [List.forall_mem_append]
    exact ⟨h.keyed, hkeyed⟩
  · simp only [hpushed, hrouted, List.append_assoc]

theorem egress_inv {report : EgressPacket} {reports : List EgressPacket} (h : Inv s)
    (hr : s.reports = report :: reports) :
    Inv { s with
      reports := reports
      stream := s.stream ++ (route (registry s.localSessionTraders) report).flatMap fun _ => payload (wire report) } := by
  obtain ⟨hreport, hreports⟩ := List.forall_mem_cons.mp (hr ▸ h.keyed)
  obtain ⟨routed, hrouted, hstream⟩ := h.written
  refine ⟨h.zero, h.packets, h.recorded, h.book, h.within, h.sent, h.pushed, hreports, routed ++ [report], ?_, ?_⟩
  · rw [hrouted, hr, List.append_assoc, List.singleton_append]
  · have hcopies : ∀ (l : List (UInt32 × Unit)), (l.flatMap fun _ => payload (wire report)) =
        ((List.replicate l.length report).map wire).flatMap payload := by
      intro l
      induction l with
      | nil => rfl
      | cons x l ih =>
          rw [List.flatMap_cons, ih, List.length_cons, List.replicate_succ, List.map_cons, List.flatMap_cons]
    simp only [hstream, hcopies, route_length h.zero hreport, delivery, List.flatMap_append, List.flatMap_singleton,
      List.map_append]

/-- The core has room for the trades of the packet that it takes. -/
def Fits (s : State) : Action → Prop
  | .core => ∀ packet ∈ s.packets.head?, Contained s.journal.core.engine packet
  | _ => True

instance (s : State) : (action : Action) → Decidable (Fits s action)
  | .core => inferInstanceAs (Decidable (∀ packet ∈ s.packets.head?, Contained s.journal.core.engine packet))
  | .line _ | .egress => .isTrue trivial

theorem step_inv {action : Action} (h : Inv s)
    (hline : ∀ message, action = .line message → ∃ packet, forwarded message = some packet ∧ WellFormed packet)
    (hfits : Fits s action) (hs : step s action = some s') : Inv s' := by
  cases action with
  | line message =>
      obtain ⟨packet, hf, hw⟩ := hline message rfl
      simp only [step, hf] at hs
      exact Option.some.inj hs ▸ line_inv h hw
  | core =>
      rw [step] at hs
      split at hs
      next => simp at hs
      next packet packets hp =>
        obtain ⟨j, hj, rfl⟩ := Option.map_eq_some_iff.mp hs
        exact core_inv h hp (hfits packet (by rw [hp]; rfl)) hj
  | egress =>
      rw [step] at hs
      split at hs
      next => simp at hs
      next report reports hr => exact Option.some.inj hs ▸ egress_inv h hr

/-- When all reports have come back, the orders sent and the trades beyond the
first of each order are the acceptances that the client has counted, half the
fills that it has counted, and the rejections of the core, if no order trades
with more orders than the queues of the core have cells. -/
theorem orders_balance {actions : List Action}
    (hlines : ∀ message, .line message ∈ actions → ∃ packet, forwarded message = some packet ∧ WellFormed packet)
    (hfits : Runs.Along step Fits .init actions) (hr : Runs.run step .init actions = some s)
    (hpackets : s.packets = []) (hreports : s.reports = []) (t : CharacterData) {chunks : List (List UInt8)}
    (hne : ∀ chunk ∈ chunks, chunk ≠ []) (hcut : chunks.flatten = s.stream) :
    Within s.journal.core.engine.market ∧
      ∃ stats : Stats, egressReaderLoop t .init (chunks.map (⟨false, ·⟩)) = (⟨stats, []⟩, .receiving) ∧
        s.sent + (s.journal.answers.map fun x => x.fills.length - 1).sum =
          stats.acceptedCount + stats.filledCount / 2 +
            s.journal.core.pushed.countP fun r => r.type = .orderRejected := by
  have hok : Runs.Along step
      (fun _ action => ∀ message, action = .line message →
        ∃ packet, forwarded message = some packet ∧ WellFormed packet) .init actions :=
    .of_forall fun action hm _ message he => hlines message (he ▸ hm)
  have h : Inv s := Runs.run_preserves (fun _ _ _ h hok hs => step_inv h hok.1 hok.2 hs) init_inv (hok.and hfits) hr
  obtain ⟨routed, hrouted, hstream⟩ := h.written
  rw [hreports, List.append_nil] at hrouted
  subst hrouted
  rw [hstream] at hcut
  refine ⟨h.within, _, loop_reports t hne hcut, ?_⟩
  have haccepted : (((delivery s.journal.core.pushed).map wire).countP fun p => p.type = 1) =
      1 * number .orderAccepted s.journal.core.pushed := countP_delivery .orderAccepted _
  have hfilled : (((delivery s.journal.core.pushed).map wire).countP fun p => p.type = 4) =
      2 * number .orderFilled s.journal.core.pushed := countP_delivery .orderFilled _
  have hnumber := answers_number h.recorded.answers
  have hsent := h.sent
  rw [← h.pushed] at hnumber
  rw [hpackets] at hsent
  simp only [number, List.length_nil] at haccepted hfilled hnumber hsent
  simp only [Stats.after, Stats.init, haccepted, hfilled]
  omega

def sweeping : List Action :=
  [.line "1,1,1,7,5,100,1\n".toUTF8.toList, .line "1,1,1,8,5,100,2\n".toUTF8.toList,
    .line "1,0,1,9,10,100,3\n".toUTF8.toList, .core, .core, .core, .egress, .egress, .egress, .egress]

theorem sweeping_wellFormed : ∀ message, .line message ∈ sweeping →
    ∃ packet, forwarded message = some packet ∧ WellFormed packet := by
  have hfirst : forwarded "1,1,1,7,5,100,1\n".toUTF8.toList = some ⟨1, 1, 1, 7, 5, 100, 1⟩ := by decide +kernel
  have hsecond : forwarded "1,1,1,8,5,100,2\n".toUTF8.toList = some ⟨1, 1, 1, 8, 5, 100, 2⟩ := by decide +kernel
  have hbuy : forwarded "1,0,1,9,10,100,3\n".toUTF8.toList = some ⟨1, 0, 1, 9, 10, 100, 3⟩ := by decide +kernel
  intro message hm
  simp only [sweeping, List.mem_cons, Action.line.injEq, reduceCtorEq, List.not_mem_nil, or_false] at hm
  have hprice : 1 ≤ (100 : UInt64).toNat ∧ (100 : UInt64).toNat ≤ maxPriceTicks - 1 := by
    rw [maxPriceTicks]
    decide
  rcases hm with rfl | rfl | rfl
  · exact ⟨_, hfirst, rfl, .inr rfl, hprice, by decide, by decide⟩
  · exact ⟨_, hsecond, rfl, .inr rfl, hprice, by decide, by decide⟩
  · exact ⟨_, hbuy, rfl, .inl rfl, hprice, by decide, by decide⟩

def swept : List EgressPacket :=
  [⟨.orderAccepted, 1, 1, 1, 7, 0, 100, 5, 0⟩, ⟨.orderAccepted, 1, 1, 2, 8, 0, 100, 5, 0⟩,
    ⟨.orderFilled, 0, 1, 3, 7, 9, 100, 5, 0⟩, ⟨.orderFilled, 0, 1, 3, 7, 9, 100, 5, 0⟩,
    ⟨.orderFilled, 0, 1, 3, 8, 9, 100, 5, 0⟩, ⟨.orderFilled, 0, 1, 3, 8, 9, 100, 5, 0⟩]

theorem run_sweeping :
    ∃ s, Runs.run step .init sweeping = some s ∧ s.packets = [] ∧ s.reports = [] ∧ s.sent = 3 ∧
      s.stream = (swept.map wire).flatMap payload ∧ s.journal.answers.map (fun x => x.fills.length) = [0, 0, 2] := by
  have hrun : (Runs.run step .init sweeping).map
      (fun s => (s.packets, s.reports, s.sent, s.stream, s.journal.answers.map fun x => x.fills.length)) =
      some ([], [], 3, (swept.map wire).flatMap payload, [0, 0, 2]) := by decide +kernel
  obtain ⟨s, hr, hs⟩ := Option.map_eq_some_iff.mp hrun
  simp only [Prod.mk.injEq] at hs
  exact ⟨s, hr, hs⟩

theorem orders_balance_sweeping :
    ∃ s stats, Runs.run step .init sweeping = some s ∧ s.sent = 3 ∧
      s.journal.answers.map (fun x => x.fills.length) = [0, 0, 2] ∧ Within s.journal.core.engine.market ∧
      egressReaderLoop EgressReader.asciiOnly .init [⟨false, s.stream⟩] = (⟨stats, []⟩, .receiving) ∧
      s.sent + (s.journal.answers.map fun x => x.fills.length - 1).sum =
        stats.acceptedCount + stats.filledCount / 2 +
          s.journal.core.pushed.countP fun r => r.type = .orderRejected := by
  obtain ⟨s, hr, hpackets, hreports, hsent, hstream, hfills⟩ := run_sweeping
  have hne : ∀ chunk ∈ [s.stream], chunk ≠ [] := by
    rw [List.forall_mem_singleton, hstream]
    decide +kernel
  obtain ⟨hwithin, stats, hloop, hbalance⟩ :=
    orders_balance sweeping_wellFormed (by decide +kernel) hr hpackets hreports EgressReader.asciiOnly hne
      List.flatten_singleton
  exact ⟨s, stats, hr, hsent, hfills, hwithin, hloop, hbalance⟩

/-- Three orders give two acceptances and two lines for each of two trades. -/
theorem sweep_unbalanced :
    ∃ s stats, Runs.run step .init sweeping = some s ∧ s.packets = [] ∧ s.reports = [] ∧ s.sent = 3 ∧
      (∀ t, egressReaderLoop t .init [⟨false, s.stream⟩] = (⟨stats, []⟩, .receiving)) ∧ stats = ⟨2, 4, 0⟩ ∧
      s.sent ≠ stats.acceptedCount + stats.filledCount / 2 + stats.rejectedCount := by
  obtain ⟨s, hr, hpackets, hreports, hsent, hstream, -⟩ := run_sweeping
  have hne : ∀ chunk ∈ [s.stream], chunk ≠ [] := by
    rw [List.forall_mem_singleton, hstream]
    decide +kernel
  refine ⟨s, ⟨2, 4, 0⟩, hr, hpackets, hreports, hsent,
    fun t => loop_reports t hne (List.flatten_singleton.trans hstream), rfl, ?_⟩
  rw [hsent]
  decide

end Sequitur.BalanceAudit
