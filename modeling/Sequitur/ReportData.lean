import Sequitur.IngressRing

namespace Sequitur.ReportData

open MatchingEngine Protocol CoreLoop Rings IngressRing

/-- The core has released the slot and has yet to read it for the report. -/
def reporting : Iteration → Prop
  | .released _ _ | .priced _ _ _ => True
  | _ => False

/-- The next step of `Enqueue` puts another price or quantity into the slot
that the core still reads. -/
def Overwrites (s : State) (a : Action) : Prop :=
  ∃ packet currWrite, a = .gateway ∧ s.gateway = .checked packet currWrite ∧ reporting s.core ∧
    slot 16 currWrite = slot 16 (s.currentRead - 1) ∧
    (packet.price ≠ s.packet.price ∨ packet.quantity ≠ s.packet.quantity)

structure Reports (r : EgressPacket) (p : IngressPacket) : Prop where
  side : r.side = p.side
  instrumentId : r.instrumentId = p.instrumentId
  clientOrderId : r.clientOrderId = p.clientOrderId
  matched : r.type ≠ .orderFilled → r.matchPrice = p.price ∧ r.matchQuantity = p.quantity

theorem fillPacket_reports (p : IngressPacket) (t : OrderBook.Trade) : Reports (fillPacket (process p) t) p :=
  ⟨rfl, rfl, rfl, fun h => absurd rfl h⟩

def Intact (now : IngressPacket) (consumed : List IngressPacket) : Iteration → Prop
  | .released _ _ => ∀ packet, consumed.getLast? = some packet →
      now.price = packet.price ∧ now.quantity = packet.quantity
  | .priced _ _ price => ∀ packet, consumed.getLast? = some packet →
      price = packet.price ∧ now.quantity = packet.quantity
  | _ => True

def Follows (e : Engine) (consumed : List IngressPacket) (pushed : List EgressPacket) : Iteration → Prop
  | .waiting | .found | .copied _ => Runs.run Core.consume .init consumed = some ⟨e, pushed⟩
  | .submitted p accepted read =>
      ∃ c : Core, Runs.run Core.consume .init consumed = some c ∧ c.pushed = pushed ∧
        submit c.engine read p = some (e, accepted)
  | .released p accepted =>
      ∃ c read, ∃ done : List IngressPacket, consumed = done ++ [read] ∧ p = process read ∧
        Runs.run Core.consume .init done = some c ∧ c.pushed = pushed ∧ submit c.engine read p = some (e, accepted)
  | .priced p accepted _ =>
      ∃ c read, ∃ done : List IngressPacket, consumed = done ++ [read] ∧ p = process read ∧
        Runs.run Core.consume .init done = some c ∧ c.pushed = pushed ∧
        submit c.engine read p = some (e, accepted) ∧ (accepted → e.market.execQ.items = [])

structure Own (s : State) : Prop where
  intact : Intact s.packet s.consumed s.core
  reported : ∀ x ∈ s.pushed, ∃ p, s.enqueued[x.1]? = some p ∧ Reports x.2 p
  follows : Follows s.engine s.consumed (s.pushed.map Prod.snd) s.core

variable {base : BitVec 64} {s s' : State}

theorem init_own (buf : Nat → IngressPacket) (base : BitVec 64) : Own (init buf base) :=
  ⟨trivial, by simp [init], rfl⟩

theorem gatewayStep_own (ho : Own s) (hno : ¬ Overwrites s .gateway)
    (hs : gatewayStep s = some s') : Own s' := by
  rw [gatewayStep] at hs
  split at hs
  next => simp at hs
  next =>
    split at hs
    next => exact Option.some.inj hs ▸ ⟨ho.intact, ho.reported, ho.follows⟩
    next => exact Option.some.inj hs ▸ ⟨ho.intact, ho.reported, ho.follows⟩
  next packet currWrite he =>
    obtain rfl := Option.some.inj hs
    refine ⟨?_, ho.reported, ho.follows⟩
    have hsame : reporting s.core →
        (Function.update s.ring.buf (slot 16 currWrite) packet (slot 16 (s.currentRead - 1))).price = s.packet.price ∧
        (Function.update s.ring.buf (slot 16 currWrite) packet (slot 16 (s.currentRead - 1))).quantity =
          s.packet.quantity := by
      intro hr
      by_cases hslot : slot 16 currWrite = slot 16 (s.currentRead - 1)
      · rw [hslot, Function.update_self]
        refine ⟨?_, ?_⟩
        · exact Classical.byContradiction fun hp => hno ⟨packet, currWrite, rfl, he, hr, hslot, .inl hp⟩
        · exact Classical.byContradiction fun hq => hno ⟨packet, currWrite, rfl, he, hr, hslot, .inr hq⟩
      · rw [Function.update_of_ne (Ne.symm hslot)]
        exact ⟨rfl, rfl⟩
    have hintact := ho.intact
    cases hc : s.core with
    | waiting | found | copied | submitted => exact trivial
    | released p accepted =>
        rw [hc] at hsame hintact
        intro x hx
        exact ⟨(hsame trivial).1.trans (hintact x hx).1, (hsame trivial).2.trans (hintact x hx).2⟩
    | priced p accepted price =>
        rw [hc] at hsame hintact
        intro x hx
        exact ⟨(hintact x hx).1, (hsame trivial).2.trans (hintact x hx).2⟩
  next packet currWrite he =>
    obtain rfl := Option.some.inj hs
    refine ⟨ho.intact, fun x hx => ?_, ho.follows⟩
    obtain ⟨p, hp, hr⟩ := ho.reported x hx
    exact ⟨p, getElem?_append_of_some hp _, hr⟩

theorem enqueued_last (h : Inv base s) {packet : IngressPacket} (hp : s.consumed.getLast? = some packet) :
    s.enqueued[s.consumed.length - 1]? = some packet := by
  obtain ⟨l, hl⟩ := h.consumed
  rw [List.getLast?_eq_getElem?] at hp
  rw [← hl]
  exact getElem?_append_of_some hp l

theorem push_own (h : Inv base s) (ho : Own s) {c : Core} {read : IngressPacket} {done : List IngressPacket}
    {rs : List EgressPacket} {accepted : Bool} (hd : s.consumed = done ++ [read])
    (hc : Runs.run Core.consume .init done = some c) (hp : c.pushed = s.pushed.map Prod.snd)
    (hs : submit c.engine read (process read) = some (s.engine, accepted))
    (hrs : rs = reports (process read) accepted s.engine.market.execQ.items read.price read.quantity)
    (hr : ∀ r ∈ rs, Reports r read) : Own (s.push rs) := by
  refine ⟨trivial, ?_, ?_⟩
  · intro x hx
    rcases List.mem_append.mp hx with hx | hx
    · exact ho.reported x hx
    · obtain ⟨r, hmem, rfl⟩ := List.mem_map.mp hx
      exact ⟨read, enqueued_last h (by rw [hd, List.getLast?_concat]), hr r hmem⟩
  · have hconsume : c.consume read = some ⟨s.engine.clearExecutionQueue, c.pushed ++ rs⟩ := by
      rw [Core.consume, hs, Option.map_some, hrs]
    have hmap : (s.push rs).pushed.map Prod.snd = c.pushed ++ rs := by
      simp [State.push, hp, Function.comp_def]
    change Runs.run Core.consume .init s.consumed = some ⟨s.engine.clearExecutionQueue, _⟩
    rw [hmap, hd]
    exact Runs.run_concat hc hconsume

theorem coreStep_own (h : Inv base s) (ho : Own s) (hs : coreStep s = some s') : Own s' := by
  have hf := ho.follows
  have hi := ho.intact
  have hcore := h.core
  rw [coreStep] at hs
  split at hs
  next he =>
    rw [he] at hf
    split at hs
    next => exact Option.some.inj hs ▸ ho
    next => exact Option.some.inj hs ▸ ⟨trivial, ho.reported, hf⟩
  next he =>
    rw [he] at hf
    exact Option.some.inj hs ▸ ⟨trivial, ho.reported, hf⟩
  next p he =>
    rw [he] at hf hcore
    obtain ⟨packet, hx, rfl⟩ := hcore
    obtain ⟨r, hr, rfl⟩ := Option.map_eq_some_iff.mp hs
    obtain rfl := h.slot_eq hx
    exact ⟨trivial, ho.reported, _, hf, rfl, hr⟩
  next p accepted read he =>
    rw [he] at hf hcore
    obtain ⟨c, hc, hp, hsub⟩ := hf
    obtain rfl := Option.some.inj hs
    obtain rfl := h.slot_eq hcore.1
    refine ⟨fun packet hx => ?_, ho.reported, c, _, s.consumed, rfl, hcore.2, hc, hp, hsub⟩
    rw [List.getLast?_concat] at hx
    obtain rfl := Option.some.inj hx
    have hpacket : s.currentRead + 1 - 1 = s.currentRead := BitVec.add_sub_cancel ..
    simp only [State.packet, hpacket, and_self]
  next p accepted he =>
    rw [he] at hf hi
    obtain ⟨c, read, done, hd, rfl, hc, hp, hsub⟩ := hf
    split at hs
    next hfill =>
      obtain rfl := Option.some.inj hs
      refine push_own h ho hd hc hp hsub ?_ fun r hr => ?_
      · rw [reports, if_pos hfill.1, if_neg hfill.2]
      · obtain ⟨t, -, rfl⟩ := List.mem_map.mp hr
        exact fillPacket_reports read t
    next hnone =>
      obtain rfl := Option.some.inj hs
      refine ⟨fun packet hx => ⟨(hi packet hx).1, (hi packet hx).2⟩, ho.reported, c, read, done, hd, rfl, hc, hp,
        hsub, fun ha => Classical.byContradiction fun hne => hnone ⟨ha, hne⟩⟩
  next p accepted price he =>
    rw [he] at hf hi
    obtain ⟨c, read, done, hd, rfl, hc, hp, hsub, hno⟩ := hf
    obtain rfl := Option.some.inj hs
    obtain ⟨rfl, hq⟩ := hi read (by rw [hd, List.getLast?_concat])
    rw [hq]
    refine push_own h ho hd hc hp hsub ?_ fun r hr => ?_
    · cases accepted with
      | true => rw [reports, if_pos rfl, if_pos (hno rfl)]; rfl
      | false => rfl
    · obtain rfl := List.mem_singleton.mp hr
      cases accepted <;> exact ⟨rfl, rfl, rfl, fun _ => ⟨rfl, rfl⟩⟩

theorem step_own {a : Action} (h : Inv base s) (ho : Own s) (hno : ¬ Overwrites s a) (hs : step s a = some s') :
    Own s' := by
  cases a with
  | enqueue packet =>
      rw [step] at hs
      split at hs
      next => exact Option.some.inj hs ▸ ⟨ho.intact, ho.reported, ho.follows⟩
      next => simp at hs
  | gateway => exact gatewayStep_own ho hno hs
  | core => exact coreStep_own h ho hs

theorem run_own {buf : Nat → IngressPacket} {actions : List Action}
    (h : Runs.Along step (fun s a => ¬ Overwrites s a) (init buf base) actions)
    (hr : Runs.run step (init buf base) actions = some s) : Inv base s ∧ Own s := by
  have hstep : ∀ s a s', Inv base s ∧ Own s → ¬ Overwrites s a → step s a = some s' → Inv base s' ∧ Own s' :=
    fun s a s' hs hno hstep => ⟨step_inv hs.1 hstep, step_own hs.1 hs.2 hno hstep⟩
  exact Runs.run_preserves hstep ⟨init_inv buf base, init_own buf base⟩ h hr

/-- As long as no packet is overwritten under the core, the core does what
whole iterations over the consumed packets do, and these are the packets that
were enqueued. -/
theorem core_follows_consume {buf : Nat → IngressPacket} {actions : List Action}
    (h : Runs.Along step (fun s a => ¬ Overwrites s a) (init buf base) actions)
    (hr : Runs.run step (init buf base) actions = some s) (hw : s.core = .waiting) :
    s.consumed <+: s.enqueued ∧
      Runs.run Core.consume .init s.consumed = some ⟨s.engine, s.pushed.map Prod.snd⟩ := by
  obtain ⟨hi, ho⟩ := run_own h hr
  have hf := ho.follows
  rw [hw] at hf
  exact ⟨hi.consumed, hf⟩

/-- The reports of a packet show its data as long as `Enqueue` does not put
another price or quantity into a slot that the core has released and still
reads. The queues of the engine are taken to be long enough for every packet. -/
theorem reports_carry_own_data {buf : Nat → IngressPacket} {actions : List Action}
    (h : Runs.Along step (fun s a => ¬ Overwrites s a) (init buf base) actions)
    (hr : Runs.run step (init buf base) actions = some s) {k : Nat} {r : EgressPacket} (hk : (k, r) ∈ s.pushed)
    (ht : r.type = .orderAccepted ∨ r.type = .orderRejected) :
    ∃ p, s.enqueued[k]? = some p ∧ r.matchPrice = p.price ∧ r.matchQuantity = p.quantity ∧
      r.side = p.side ∧ r.instrumentId = p.instrumentId ∧ r.clientOrderId = p.clientOrderId := by
  obtain ⟨p, hp, hrep⟩ := (run_own h hr).2.reported (k, r) hk
  have hne : r.type ≠ .orderFilled := by
    rcases ht with ht | ht <;> simp [ht]
  exact ⟨p, hp, (hrep.matched hne).1, (hrep.matched hne).2, hrep.side, hrep.instrumentId, hrep.clientOrderId⟩

def sell : IngressPacket := ⟨newOrder, 1, 1, 7, 5, 100, 1⟩

def laterBuy : IngressPacket := ⟨newOrder, 0, 1, 8, 3, 90, 2⟩

def enqueue (packet : IngressPacket) : List Action := [.enqueue packet, .gateway, .gateway, .gateway]

theorem not_overwrites_core (s : State) : ¬ Overwrites s .core := by
  rintro ⟨packet, currWrite, ha, -⟩
  cases ha

theorem step_core {a : Action} (ha : a ≠ .core) (hs : step s a = some s') : s'.core = s.core := by
  cases a with
  | enqueue packet =>
      rw [step] at hs
      split at hs
      next => exact Option.some.inj hs ▸ rfl
      next => cases hs
  | gateway =>
      rw [step, gatewayStep] at hs
      split at hs
      next => cases hs
      next =>
        split at hs
        next => exact Option.some.inj hs ▸ rfl
        next => exact Option.some.inj hs ▸ rfl
      next => exact Option.some.inj hs ▸ rfl
      next => exact Option.some.inj hs ▸ rfl
  | core => exact absurd rfl ha

theorem along_gateway (hw : s.core = .waiting) {actions : List Action} (h : ∀ a ∈ actions, a ≠ .core) :
    Runs.Along step (fun s a => ¬ Overwrites s a) s actions := by
  have hgateway : Runs.Along step (fun _ a => a ≠ .core) s actions := .of_forall fun a ha _ => h a ha
  have hstep : ∀ s a s', s.core = .waiting → a ≠ .core → step s a = some s' → s'.core = .waiting :=
    fun _ _ _ hs ha hstep => (step_core ha hstep).trans hs
  refine .of_invariant hstep ?_ hw hgateway
  rintro s a hs - ⟨packet, currWrite, -, -, hr, -⟩
  rw [hs] at hr
  exact hr

theorem reports_carry_own_data_single :
    ∃ s r, Runs.run step (init (fun _ => .zero) 0) (enqueue sell ++ List.replicate 6 .core) = some s ∧
      (0, r) ∈ s.pushed ∧ r.type = .orderAccepted ∧ s.enqueued = [sell] ∧
      r.matchPrice = sell.price ∧ r.matchQuantity = sell.quantity := by
  have hrun : (Runs.run step (init (fun _ => .zero) 0) (enqueue sell ++ List.replicate 6 .core)).map
      (fun s => (s.pushed, s.enqueued)) = some ([(0, reportPacket (process sell) 100 5)], [sell]) := by
    decide +kernel
  obtain ⟨s, hs, he⟩ := Option.map_eq_some_iff.mp hrun
  obtain ⟨hpushed, henqueued⟩ := Prod.mk.inj he
  have hmem : (0, reportPacket (process sell) 100 5) ∈ s.pushed := by simp [hpushed]
  have halong : Runs.Along step (fun s a => ¬ Overwrites s a) (init (fun _ => .zero) 0)
      (enqueue sell ++ List.replicate 6 .core) := by
    refine .append (along_gateway rfl (by simp [enqueue])) fun t _ => .of_forall fun a ha s => ?_
    rw [List.eq_of_mem_replicate ha]
    exact not_overwrites_core s
  obtain ⟨p, hp, hprice, hquantity, -⟩ := reports_carry_own_data halong hs hmem (.inl rfl)
  rw [henqueued] at hp
  obtain rfl := Option.some.inj hp
  exact ⟨s, _, hs, hmem, rfl, henqueued, hprice, hquantity⟩

theorem run_enqueue (s : State) (hg : s.gateway = .idle) (hr : s.ring.writeIdx - s.ring.readIdx ≠ 65536)
    (packet : IngressPacket) :
    Runs.run step s (enqueue packet) = some
      { s with
        ring := ⟨Function.update s.ring.buf (slot 16 s.ring.writeIdx) packet, s.ring.readIdx, s.ring.writeIdx + 1⟩
        enqueued := s.enqueued ++ [packet] } := by
  simp only [enqueue, Runs.run_cons, step, hg, gatewayStep, if_neg hr, Option.bind_some, Runs.run_nil]

theorem run_enqueues (k : Nat) (hk : k ≤ 65536) :
    ∃ buf, Runs.run step (init (fun _ => .zero) 0) (List.replicate k (enqueue sell)).flatten =
        some { init buf 0 with ring := ⟨buf, 0, BitVec.ofNat 64 k⟩, enqueued := List.replicate k sell } ∧
      (0 < k → buf 0 = sell) := by
  induction k with
  | zero => exact ⟨_, rfl, by simp⟩
  | succ k ih =>
      obtain ⟨buf, hrun, hbuf⟩ := ih (by omega)
      have hroom : BitVec.ofNat 64 k - 0 ≠ 65536 := by
        intro he
        have hn := congrArg BitVec.toNat he
        simp at hn
        omega
      have hstep := run_enqueue
        { init buf 0 with ring := ⟨buf, 0, BitVec.ofNat 64 k⟩, enqueued := List.replicate k sell } rfl hroom sell
      refine ⟨Function.update buf (slot 16 (BitVec.ofNat 64 k)) sell, ?_, fun _ => ?_⟩
      · rw [List.replicate_succ', List.flatten_append, List.flatten_singleton, Runs.run_append, hrun,
          Option.bind_some, hstep, List.replicate_succ', BitVec.ofNat_add]
        rfl
      · apply update_eq_of_imp
        intro hz
        apply hbuf
        apply Nat.pos_of_ne_zero
        rintro rfl
        exact hz rfl

/-- The core takes the first packet out of a full ring. Before it builds the
report, `Enqueue` reuses the slot: the sell of 5 at 100 is reported as an
accepted order for 3 at 90. -/
theorem report_of_overwritten_slot :
    ∃ s r, Runs.run step (init (fun _ => .zero) 0)
        ((List.replicate 65536 (enqueue sell)).flatten ++
          [.core, .core, .core, .core, .enqueue laterBuy, .gateway, .gateway, .core, .core]) = some s ∧
      s.pushed = [(0, r)] ∧ r.type = .orderAccepted ∧ s.enqueued[0]? = some sell ∧
      r.matchPrice = laterBuy.price ∧ r.matchQuantity = laterBuy.quantity ∧
      r.matchPrice ≠ sell.price ∧ r.matchQuantity ≠ sell.quantity := by
  obtain ⟨buf, hrun, hbuf⟩ := run_enqueues 65536 (Nat.le_refl _)
  have hsubmit : ((submit (.init 1000000) sell (process sell)).map fun r => (r.2, r.1.market.execQ.items)) =
      some (true, []) := by decide +kernel
  obtain ⟨⟨e, accepted⟩, he, hr⟩ := Option.map_eq_some_iff.mp hsubmit
  obtain ⟨rfl, hempty⟩ := Prod.mk.inj hr
  have hnone : e.market.execQ.items = [] := hempty
  have hz : slot 16 (0 : BitVec 64) = 0 := by decide
  have hfull : slot 16 (BitVec.ofNat 64 65536) = 0 := by decide
  have hfirst : (List.replicate 65536 sell)[0]? = some sell := by
    rw [List.getElem?_replicate, if_pos (by decide)]
  generalize List.replicate 65536 sell = es at hrun hfirst
  have hne : (0 : BitVec 64) ≠ BitVec.ofNat 64 65536 := by decide
  have hroom : BitVec.ofNat 64 65536 - (0 + 1) ≠ 65536 := by decide
  have hback : (0 : BitVec 64) + 1 - 1 = 0 := by decide
  rw [Runs.run_append, hrun, Option.bind_some]
  simp only [Runs.run_cons, step, coreStep, gatewayStep, init, if_neg hne, hz, hbuf (by decide), Option.bind_some,
    he, Option.map_some, if_neg hroom, hnone, ne_eq, not_true_eq_false, and_false, if_false, State.packet, hback,
    hfull, Function.update_self, State.push, if_true, Runs.run_nil]
  refine ⟨_, reportPacket (process sell) laterBuy.price laterBuy.quantity, rfl, rfl, rfl, hfirst, rfl, rfl, ?_, ?_⟩
  · decide
  · decide

end Sequitur.ReportData
