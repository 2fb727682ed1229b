import Sequitur.ClientRegistry
import Sequitur.IngressDelivery

namespace Sequitur.SessionStreams

open Protocol CoreLoop Gateway

section Observation

def offers (s : Gateway.State) : Gateway.Action → Option (Nat × EgressPacket)
  | .egress =>
      match s.egress with
      | .taker packet c | .maker packet c => some (c, packet)
      | _ => none
  | _ => none

def given (s : Gateway.State) (a : Gateway.Action) (c : Nat) : List EgressPacket :=
  ((offers s a).toList.filter fun x => x.1 = c).map Prod.snd

/-- What the writer of the session `c` takes from the channel in a step. -/
def emitted (s : Gateway.State) (a : Gateway.Action) (c : Nat) : List EgressPacket :=
  match a with
  | .write d true => if d = c then (s.sessions c).ch.take 1 else []
  | _ => []

/-- What the writer of the session `c` takes from the channel and does not get
written. -/
def lost (s : Gateway.State) (a : Gateway.Action) (c : Nat) : List EgressPacket :=
  match a with
  | .write d false => if d = c then (s.sessions c).ch.take 1 else []
  | _ => []

def taken : Gateway.Action → List EgressPacket
  | .dequeue packet => [packet]
  | _ => []

/-- The gateway with a record of its reports: those that came from the ring,
those that were given to the channel of each session, and those that the writer
of each session has written to its connection. -/
structure State where
  gateway : Gateway.State
  dequeued : List EgressPacket
  routed : Nat → List EgressPacket
  written : Nat → List EgressPacket

def init (buf : Nat → IngressPacket) (base : BitVec 64) : State :=
  ⟨Gateway.init buf base, [], fun _ => [], fun _ => []⟩

def State.next (s : State) (a : Gateway.Action) (g : Gateway.State) : State where
  gateway := g
  dequeued := s.dequeued ++ taken a
  routed := fun c => s.routed c ++ given s.gateway a c
  written := fun c => s.written c ++ emitted s.gateway a c

def step (s : State) (a : Gateway.Action) : Option State := (Gateway.step s.gateway a).map (s.next a)

def Overflows (s : State) (a : Gateway.Action) : Prop :=
  ∃ x, offers s.gateway a = some x ∧ 65536 ≤ (s.gateway.sessions x.1).ch.length

end Observation

section Channels

variable {s s' : Gateway.State} {a : Gateway.Action} {c : Nat}

theorem offers_found {packet : EgressPacket} (h : s.egress = .taker packet c ∨ s.egress = .maker packet c) :
    offers s .egress = some (c, packet) := by
  rcases h with h | h <;> simp [offers, h]

theorem given_of_none (h : offers s a = none) (c : Nat) : given s a c = [] := by
  rw [given, h]
  rfl

theorem given_of_some {packet : EgressPacket} (h : offers s a = some (c, packet)) (d : Nat) :
    given s a d = if d = c then [packet] else [] := by
  rw [given, h]
  by_cases hd : d = c
  · subst hd
    simp
  · simp [hd, Ne.symm hd]

theorem update_ch {x : Session} (hx : x.ch = (s.sessions c).ch) (d : Nat) :
    (Function.update s.sessions c x d).ch = (s.sessions d).ch := by
  by_cases hd : d = c
  · subst hd
    simpa using hx
  · rw [Function.update_of_ne hd]

theorem send_ch {packet : EgressPacket} {next : Egress} (hopen : (s.sessions c).chClosed = false) (d : Nat) :
    ((s.send c packet next).sessions d).ch =
      (s.sessions d).ch ++ if d = c ∧ (s.sessions d).ch.length < 65536 then [packet] else [] := by
  rw [Gateway.State.send, if_neg (by rw [hopen]; decide)]
  by_cases hd : d = c
  · subst hd
    by_cases hl : (s.sessions d).ch.length < 65536 <;> simp [Gateway.State.set, Session.offer, hl]
  · simp [Gateway.State.set, hd]

theorem step_ch (h : ClientRegistry.Inv s) (hs : Gateway.step s a = some s') (d : Nat) :
    emitted s a d ++ (lost s a d ++ (s'.sessions d).ch) =
      (s.sessions d).ch ++ if (s.sessions d).ch.length < 65536 then given s a d else [] := by
  have hsend : ∀ {packet c next}, s.egress = .taker packet c ∨ s.egress = .maker packet c → a = .egress →
      emitted s a d ++ (lost s a d ++ ((s.send c packet next).sessions d).ch) =
        (s.sessions d).ch ++ if (s.sessions d).ch.length < 65536 then given s a d else [] := by
    rintro packet c next he rfl
    rw [send_ch (h.found packet c he), given_of_some (offers_found he)]
    by_cases hd : d = c <;> simp [emitted, lost, hd]
  have hquiet : offers s a = none → emitted s a d = [] → lost s a d = [] →
      (s'.sessions d).ch = (s.sessions d).ch →
      emitted s a d ++ (lost s a d ++ (s'.sessions d).ch) =
        (s.sessions d).ch ++ if (s.sessions d).ch.length < 65536 then given s a d else [] := by
    intro ho he hl hc
    rw [given_of_none ho, he, hl, hc, ite_self, List.append_nil, List.nil_append, List.nil_append]
  cases steps_of_step hs with
  | sendTaker he => exact hsend (.inl he) rfl
  | sendMaker he => exact hsend (.inr he) rfl
  | @write c ok hch =>
      have htake : (s.sessions c).ch.take 1 ++ (s.sessions c).ch.tail = (s.sessions c).ch := by
        cases (s.sessions c).ch <;> rfl
      rw [given_of_none rfl, ite_self, List.append_nil]
      by_cases hd : c = d
      · subst hd
        cases ok <;> simp [emitted, lost, Gateway.State.set, Session.drain, htake]
      · cases ok <;> simp [emitted, lost, hd, Gateway.State.set, Ne.symm hd]
  | accept | known | record | lock | register | unlock | send | delete | close | finish | disconnect | cleanup =>
      exact hquiet rfl rfl rfl (update_ch (by rfl) d)
  | skip | receive | call | access | result | core | dequeue => exact hquiet rfl rfl rfl rfl
  | readLock he | findTaker he | noTaker he | findMaker he | noMaker he | readUnlock he =>
      exact hquiet (by simp [offers, he]) rfl rfl rfl

end Channels

section Sessions

variable {base : BitVec 64} {s s' : Gateway.State} {a : Gateway.Action} {c : Nat}

/-- The client has sent an order under one of the ids of the report. -/
def Names (x : Session) (report : EgressPacket) : Prop :=
  ∃ packet ∈ x.parsed, packet.traderId = report.takerId.toUInt32 ∨ packet.traderId = report.makerId.toUInt32

def Own (x : Session) : Prop := ∀ traderId ∈ x.localSessionTraders, ∃ packet ∈ x.parsed, packet.traderId = traderId

theorem Names.mono {x y : Session} {report : EgressPacket} (h : Names x report) (hxy : x.parsed ⊆ y.parsed) :
    Names y report := by
  obtain ⟨packet, hp, hid⟩ := h
  exact ⟨packet, hxy hp, hid⟩

theorem Own.mono {x y : Session} (h : Own x) (hids : y.localSessionTraders = x.localSessionTraders)
    (hxy : x.parsed ⊆ y.parsed) : Own y := by
  intro traderId ht
  rw [hids] at ht
  obtain ⟨packet, hp, hid⟩ := h traderId ht
  exact ⟨packet, hxy hp, hid⟩

theorem Own.record {x : Session} (h : Own x) {packet : IngressPacket} (hp : packet ∈ x.parsed) :
    Own (x.record packet) := by
  intro traderId ht
  rcases List.mem_cons.mp ht with rfl | ht
  · exact ⟨packet, hp, rfl⟩
  · exact h traderId ht

theorem mem_parsed (h : IngressDelivery.Inv base s) {packet : IngressPacket}
    (he : (s.sessions c).phase = .parsed packet) : packet ∈ (s.sessions c).parsed := by
  rw [← h.flow c, he]
  exact List.mem_append_right _ List.mem_cons_self

theorem update_own {x : Session} (h : ∀ d, Own (s.sessions d)) (hx : Own x)
    (hsub : (s.sessions c).parsed ⊆ x.parsed) (d : Nat) :
    Own (Function.update s.sessions c x d) ∧ (s.sessions d).parsed ⊆ (Function.update s.sessions c x d).parsed := by
  by_cases hd : d = c
  · subst hd
    rw [Function.update_self]
    exact ⟨hx, hsub⟩
  · rw [Function.update_of_ne hd]
    exact ⟨h d, List.Subset.refl _⟩

theorem update_same {x : Session} (h : ∀ d, Own (s.sessions d))
    (hids : x.localSessionTraders = (s.sessions c).localSessionTraders) (hparsed : x.parsed = (s.sessions c).parsed)
    (d : Nat) :
    Own (Function.update s.sessions c x d) ∧ (s.sessions d).parsed ⊆ (Function.update s.sessions c x d).parsed := by
  have hsub : (s.sessions c).parsed ⊆ x.parsed := hparsed ▸ List.Subset.refl _
  exact update_own h ((h c).mono hids hsub) hsub d

theorem send_own (h : ∀ d, Own (s.sessions d)) (packet : EgressPacket) (next : Egress) (d : Nat) :
    Own ((s.send c packet next).sessions d) ∧ (s.sessions d).parsed ⊆ ((s.send c packet next).sessions d).parsed := by
  rw [Gateway.State.send]
  split
  · exact ⟨h d, List.Subset.refl _⟩
  · exact update_same h (by rfl) (by rfl) d

theorem step_own (hi : IngressDelivery.Inv base s) (h : ∀ d, Own (s.sessions d)) (hs : Gateway.step s a = some s')
    (d : Nat) : Own (s'.sessions d) ∧ (s.sessions d).parsed ⊆ (s'.sessions d).parsed := by
  cases steps_of_step hs with
  | @accept c _ packet he =>
      have hsub : (s.sessions c).parsed ⊆ ((s.sessions c).accept packet).parsed := List.subset_append_left _ _
      exact update_own h ((h c).mono (by rfl) hsub) hsub d
  | @record c packet he =>
      have hsub : (s.sessions c).parsed ⊆ ((s.sessions c).record packet).parsed := List.Subset.refl _
      exact update_own h ((h c).record (mem_parsed hi he)) hsub d
  | known | lock | register | unlock | send | delete | close | finish | disconnect | cleanup | write =>
      exact update_same h (by rfl) (by rfl) d
  | sendTaker | sendMaker => exact send_own h _ _ d
  | skip | receive | call | access | result | core | dequeue | readLock | findTaker | noTaker | findMaker | noMaker |
    readUnlock => exact ⟨h d, List.Subset.refl _⟩

def Found (s : Gateway.State) : Prop :=
  ∀ report c, s.egress = .taker report c ∨ s.egress = .maker report c → Names (s.sessions c) report

theorem names_of_entry (h : ClientRegistry.Inv s) (ho : ∀ d, Own (s.sessions d)) {report : EgressPacket}
    {traderId : UInt32} (hid : traderId = report.takerId.toUInt32 ∨ traderId = report.makerId.toUInt32)
    (he : s.clientRegistry traderId = some c) : Names (s.sessions c) report := by
  obtain ⟨packet, hp, rfl⟩ := ho c traderId (h.entry traderId c he).1
  exact ⟨packet, hp, hid⟩

end Sessions

section Streams

def current : Egress → List EgressPacket
  | .dequeued report | .locked report | .taker report _ | .between report | .maker report _ => [report]
  | .dequeuing | .finished => []

def halfway : Egress → List EgressPacket
  | .between report | .maker report _ => [report]
  | .dequeuing | .dequeued _ | .locked _ | .taker _ _ | .finished => []

/-- Every report twice, for its taker and for its maker. -/
def doubled (reports : List EgressPacket) : List EgressPacket := reports.flatMap fun report => [report, report]

theorem doubled_concat (reports : List EgressPacket) (report : EgressPacket) :
    doubled (reports ++ [report]) = doubled reports ++ [report] ++ [report] := by
  simp [doubled]

structure Inv (base : BitVec 64) (s : State) : Prop where
  registry : ClientRegistry.Inv s.gateway
  ingress : IngressDelivery.Inv base s.gateway
  own : ∀ c, Own (s.gateway.sessions c)
  found : Found s.gateway
  stream : ∀ c, (s.written c ++ (s.gateway.sessions c).ch).Sublist (s.routed c)
  order : ∃ before, s.dequeued = before ++ current s.gateway.egress ∧
    ∀ c, (s.routed c).Sublist (doubled before ++ halfway s.gateway.egress)
  named : ∀ c, ∀ report ∈ s.routed c, Names (s.gateway.sessions c) report

variable {base : BitVec 64} {s s' : State} {a : Gateway.Action} {g : Gateway.State}

theorem init_inv (buf : Nat → IngressPacket) (base : BitVec 64) : Inv base (init buf base) where
  registry := ClientRegistry.init_inv buf base
  ingress := IngressDelivery.init_inv buf base
  own _ _ ht := absurd ht List.not_mem_nil
  found _ _ he := he.elim nofun nofun
  stream _ := List.Sublist.refl _
  order := ⟨[], rfl, fun _ => List.Sublist.refl _⟩
  named _ _ hr := absurd hr List.not_mem_nil

theorem send_egress {s : Gateway.State} {c : Nat} (hopen : (s.sessions c).chClosed = false) (packet : EgressPacket)
    (next : Egress) : (s.send c packet next).egress = next := by
  rw [Gateway.State.send, if_neg (by rw [hopen]; decide)]

theorem step_found (h : Inv base s) (hs : Gateway.step s.gateway a = some g) : Found g := by
  intro report c he
  have hsub := (step_own h.ingress h.own hs c).2
  have hsame : g.egress = s.gateway.egress → Names (g.sessions c) report :=
    fun heq => (h.found report c (heq ▸ he)).mono hsub
  cases steps_of_step hs with
  | findTaker _ hc =>
      obtain ⟨rfl, rfl⟩ := Egress.taker.inj (he.resolve_right nofun)
      exact names_of_entry h.registry h.own (.inl rfl) hc
  | findMaker _ hc =>
      obtain ⟨rfl, rfl⟩ := Egress.maker.inj (he.resolve_left nofun)
      exact names_of_entry h.registry h.own (.inr rfl) hc
  | sendTaker hf =>
      rw [send_egress (h.registry.found _ _ (.inl hf))] at he
      exact he.elim nofun nofun
  | sendMaker hf =>
      rw [send_egress (h.registry.found _ _ (.inr hf))] at he
      exact he.elim nofun nofun
  | accept | skip | known | record | lock | register | unlock | send | delete | close | finish | disconnect |
    cleanup | write | receive | call | access | result | core => exact hsame rfl
  | dequeue | readLock | noTaker | noMaker | readUnlock => exact he.elim nofun nofun

theorem given_sublist {x : Nat × EgressPacket} (ho : offers s.gateway a = some x) (c : Nat) :
    (given s.gateway a c).Sublist [x.2] := by
  rw [given_of_some ho]
  split
  · exact .refl _
  · exact List.nil_sublist _

theorem step_order (h : Inv base s) (hs : Gateway.step s.gateway a = some g) :
    ∃ before, s.dequeued ++ taken a = before ++ current g.egress ∧
      ∀ c, (s.routed c ++ given s.gateway a c).Sublist (doubled before ++ halfway g.egress) := by
  obtain ⟨before, hdequeued, hrouted⟩ := h.order
  have hmove : current g.egress = current s.gateway.egress →
      (halfway s.gateway.egress).Sublist (halfway g.egress) → taken a = [] → offers s.gateway a = none →
      ∃ before, s.dequeued ++ taken a = before ++ current g.egress ∧
        ∀ c, (s.routed c ++ given s.gateway a c).Sublist (doubled before ++ halfway g.egress) := by
    intro hc hh ht ho
    refine ⟨before, by rw [ht, hc, hdequeued, List.append_nil], fun c => ?_⟩
    rw [given_of_none ho, List.append_nil]
    exact (hrouted c).trans ((List.Sublist.refl _).append hh)
  cases steps_of_step hs with
  | @dequeue report he =>
      rw [he] at hdequeued hrouted
      refine ⟨before, by rw [hdequeued]; simp [current, taken], fun c => ?_⟩
      rw [given_of_none rfl, List.append_nil]
      exact hrouted c
  | sendTaker he =>
      rw [send_egress (h.registry.found _ _ (.inl he))]
      rw [he] at hdequeued hrouted
      refine ⟨before, by rw [hdequeued]; simp [current, taken], fun c => ?_⟩
      have hbefore : (s.routed c).Sublist (doubled before) := by simpa [halfway] using hrouted c
      exact hbefore.append (given_sublist (offers_found (.inl he)) c)
  | sendMaker he =>
      rw [send_egress (h.registry.found _ _ (.inr he))]
      rw [he] at hdequeued hrouted
      refine ⟨s.dequeued, by simp [current, taken], fun c => ?_⟩
      rw [hdequeued, current, doubled_concat, halfway, List.append_nil]
      exact (hrouted c).append (given_sublist (offers_found (.inr he)) c)
  | noMaker he =>
      rw [he] at hdequeued hrouted
      refine ⟨s.dequeued, by simp [current, taken], fun c => ?_⟩
      rw [given_of_none (by simp [offers, he]), hdequeued, current, doubled_concat, halfway, List.append_nil,
        List.append_nil]
      exact (hrouted c).trans (List.sublist_append_left _ _)
  | accept | skip | known | record | lock | register | unlock | send | delete | close | finish | disconnect |
    cleanup | write | receive | call | access | result | core => exact hmove rfl (.refl _) rfl rfl
  | readLock he | findTaker he | noTaker he | findMaker he | readUnlock he =>
      exact hmove (by rw [he]; rfl) (by rw [he]; simp [halfway]) rfl (by simp [offers, he])

theorem step_stream (h : Inv base s) (hs : Gateway.step s.gateway a = some g) (c : Nat) :
    s.written c ++ emitted s.gateway a c ++ (lost s.gateway a c ++ (g.sessions c).ch) =
      s.written c ++ (s.gateway.sessions c).ch ++
        if (s.gateway.sessions c).ch.length < 65536 then given s.gateway a c else [] := by
  rw [List.append_assoc, step_ch h.registry hs, List.append_assoc]

theorem step_named (h : Inv base s) (hs : Gateway.step s.gateway a = some g) (c : Nat) :
    ∀ report ∈ s.routed c ++ given s.gateway a c, Names (g.sessions c) report := by
  have hsub := (step_own h.ingress h.own hs c).2
  intro report hr
  rcases List.mem_append.mp hr with hr | hr
  · exact (h.named c report hr).mono hsub
  · refine Names.mono ?_ hsub
    have hsend : ∀ packet d, s.gateway.egress = .taker packet d ∨ s.gateway.egress = .maker packet d →
        report ∈ given s.gateway .egress c → Names (s.gateway.sessions c) report := by
      intro packet d he hr
      rw [given_of_some (offers_found he)] at hr
      split at hr
      next hc =>
        obtain rfl := List.mem_singleton.mp hr
        exact h.found report c (hc ▸ he)
      next => exact absurd hr List.not_mem_nil
    cases steps_of_step hs with
    | sendTaker he => exact hsend _ _ (.inl he) hr
    | sendMaker he => exact hsend _ _ (.inr he) hr
    | accept | skip | known | record | lock | register | unlock | send | delete | close | finish | disconnect |
      cleanup | write | receive | call | access | result | core | dequeue => exact absurd hr List.not_mem_nil
    | readLock he | findTaker he | noTaker he | findMaker he | noMaker he | readUnlock he =>
        rw [given_of_none (by simp [offers, he])] at hr
        exact absurd hr List.not_mem_nil

theorem step_inv (h : Inv base s) (hs : step s a = some s') : Inv base s' := by
  obtain ⟨g, hg, rfl⟩ := Option.map_eq_some_iff.mp hs
  refine ⟨ClientRegistry.step_inv h.registry hg, IngressDelivery.step_inv h.ingress hg,
    fun c => (step_own h.ingress h.own hg c).1, step_found h hg, fun c => ?_, step_order h hg, step_named h hg⟩
  have hkept : (s.written c ++ emitted s.gateway a c ++ (g.sessions c).ch).Sublist
      (s.written c ++ emitted s.gateway a c ++ (lost s.gateway a c ++ (g.sessions c).ch)) :=
    (List.Sublist.refl _).append (List.sublist_append_right _ _)
  rw [step_stream h hg] at hkept
  refine hkept.trans ((h.stream c).append ?_)
  split
  · exact .refl _
  · exact List.nil_sublist _

theorem Inv.routed_sublist (h : Inv base s) (c : Nat) : (s.routed c).Sublist (doubled s.dequeued) := by
  obtain ⟨before, hdequeued, hrouted⟩ := h.order
  refine (hrouted c).trans ?_
  rw [hdequeued, doubled, doubled, List.flatMap_append]
  refine (List.Sublist.refl _).append ?_
  cases s.gateway.egress <;> simp [current, halfway]

open ClientRegistry (shortSession answer)

end Streams

end Sequitur.SessionStreams
