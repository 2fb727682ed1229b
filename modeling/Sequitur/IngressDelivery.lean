import Sequitur.Gateway
import Sequitur.Runs

namespace Sequitur.IngressDelivery

open Protocol CoreLoop Rings Gateway

def packet? : IngressRing.Enqueue → Option IngressPacket
  | .idle => none
  | .loadedRead packet _ | .checked packet _ | .stored packet _ => some packet

def pending : Phase → List IngressPacket
  | .parsed packet | .recorded packet | .locked packet | .bound packet | .sending packet => [packet]
  | _ => []

def of (c : Nat) (xs : List (Nat × IngressPacket)) : List IngressPacket :=
  (xs.filter fun x => x.1 = c).map Prod.snd

def sent (s : State) : List (Nat × IngressPacket) := s.offered.map Prod.fst ++ s.current.toList ++ s.packetChan

structure Inv (base : BitVec 64) (s : State) : Prop where
  ring : IngressRing.Inv base s.ring
  call : ∀ packet, packet? s.ring.gateway = some packet → ∃ c, s.current = some (c, packet)
  enqueued : s.ring.enqueued = (s.offered.filter Prod.snd).map fun x => x.1.2
  flow : ∀ c, of c (sent s) ++ pending (s.sessions c).phase = (s.sessions c).parsed

variable {base : BitVec 64} {s s' : State} {a : Gateway.Action} {c : Nat}

theorem init_inv (buf : Nat → IngressPacket) (base : BitVec 64) : Inv base (init buf base) :=
  ⟨IngressRing.init_inv buf base, by simp [init, IngressRing.init, packet?], rfl, fun _ => rfl⟩

@[simp] theorem of_append (c : Nat) (xs ys : List (Nat × IngressPacket)) : of c (xs ++ ys) = of c xs ++ of c ys := by
  simp [of]

theorem of_single (c d : Nat) (packet : IngressPacket) : of d [(c, packet)] = if d = c then [packet] else [] := by
  by_cases hd : d = c
  · simp [of, hd]
  · simp [of, hd, Ne.symm hd]

theorem set_flow {x : Session} (hp : pending x.phase = pending (s.sessions c).phase)
    (hx : x.parsed = (s.sessions c).parsed) (d : Nat) :
    pending ((s.set c x).sessions d).phase = pending (s.sessions d).phase ∧
      ((s.set c x).sessions d).parsed = (s.sessions d).parsed := by
  by_cases hd : d = c
  · subst hd
    simp [State.set, hp, hx]
  · simp [State.set, Function.update_of_ne hd]

theorem Inv.frame (h : Inv base s) (hring : s'.ring = s.ring) (hcur : s'.current = s.current)
    (hoff : s'.offered = s.offered) (hchan : s'.packetChan = s.packetChan)
    (hflow : ∀ d, pending (s'.sessions d).phase = pending (s.sessions d).phase ∧
      (s'.sessions d).parsed = (s.sessions d).parsed) : Inv base s' := by
  refine ⟨?_, ?_, ?_, fun d => ?_⟩
  · rw [hring]
    exact h.ring
  · rw [hring, hcur]
    exact h.call
  · rw [hring, hoff]
    exact h.enqueued
  · rw [sent, hcur, hoff, hchan, (hflow d).1, (hflow d).2]
    exact h.flow d

theorem send_flow {packet : IngressPacket} (he : (s.sessions c).phase = .sending packet) (h : Inv base s) :
    Inv base { s.move c .reading with packetChan := s.packetChan ++ [(c, packet)] } := by
  refine ⟨h.ring, h.call, h.enqueued, fun d => ?_⟩
  have hflow := h.flow d
  have hsent : sent { s.move c .reading with packetChan := s.packetChan ++ [(c, packet)] } =
      sent s ++ [(c, packet)] := (List.append_assoc ..).symm
  rw [hsent, of_append, of_single]
  by_cases hd : d = c
  · subst hd
    rw [he] at hflow
    simpa [State.move, State.set, Session.moveTo, pending] using hflow
  · simpa [State.move, State.set, Function.update_of_ne hd, hd] using hflow

theorem accept_flow {packet : IngressPacket} (he : (s.sessions c).phase = .reading) (h : Inv base s) :
    Inv base (s.set c ((s.sessions c).accept packet)) := by
  refine ⟨h.ring, h.call, h.enqueued, fun d => ?_⟩
  have hflow := h.flow d
  have hsent : sent (s.set c ((s.sessions c).accept packet)) = sent s := rfl
  rw [hsent]
  by_cases hd : d = c
  · subst hd
    rw [he] at hflow
    simpa [State.set, Session.accept, pending] using hflow
  · simpa [State.set, Function.update_of_ne hd] using hflow

theorem send_inv (h : Inv base s) (c : Nat) (payload : EgressPacket) (next : Egress) :
    Inv base (s.send c payload next) := by
  rw [State.send]
  split
  · exact h.frame rfl rfl rfl rfl fun _ => ⟨rfl, rfl⟩
  · exact h.frame rfl rfl rfl rfl (set_flow rfl rfl)

section Enqueue

variable {r r' : IngressRing.State}

theorem gatewayStep_result (hs : IngressRing.gatewayStep r = some r') :
    match enqueueResult r with
    | none => packet? r'.gateway = packet? r.gateway ∧ r'.enqueued = r.enqueued
    | some ok => packet? r'.gateway = none ∧
        r'.enqueued = r.enqueued ++ if ok then (packet? r.gateway).toList else [] := by
  rw [IngressRing.gatewayStep] at hs
  rw [enqueueResult]
  split at hs
  next => simp at hs
  next packet currRead he =>
    split at hs
    next hfull =>
      obtain rfl := Option.some.inj hs
      rw [he]
      simp only [if_pos hfull]
      exact ⟨rfl, (List.append_nil _).symm⟩
    next hroom =>
      obtain rfl := Option.some.inj hs
      rw [he]
      simp only [if_neg hroom]
      exact ⟨rfl, trivial⟩
  next packet currWrite he =>
    obtain rfl := Option.some.inj hs
    rw [he]
    exact ⟨rfl, rfl⟩
  next packet currWrite he =>
    obtain rfl := Option.some.inj hs
    rw [he]
    exact ⟨rfl, rfl⟩

theorem coreStep_frame (hs : IngressRing.coreStep r = some r') : r'.gateway = r.gateway ∧ r'.enqueued = r.enqueued := by
  rw [IngressRing.coreStep] at hs
  split at hs
  next => split at hs <;> obtain rfl := Option.some.inj hs <;> exact ⟨rfl, rfl⟩
  next => obtain rfl := Option.some.inj hs; exact ⟨rfl, rfl⟩
  next =>
    obtain ⟨x, -, rfl⟩ := Option.map_eq_some_iff.mp hs
    exact ⟨rfl, rfl⟩
  next => obtain rfl := Option.some.inj hs; exact ⟨rfl, rfl⟩
  next => split at hs <;> obtain rfl := Option.some.inj hs <;> exact ⟨rfl, rfl⟩
  next => obtain rfl := Option.some.inj hs; exact ⟨rfl, rfl⟩

end Enqueue

theorem call_packet {x : Nat × IngressPacket} (h : Inv base s) (hcur : s.current = some x)
    (hg : s.ring.gateway ≠ .idle) : packet? s.ring.gateway = some x.2 := by
  cases hp : packet? s.ring.gateway with
  | none =>
      cases hr : s.ring.gateway with
      | idle => exact absurd hr hg
      | loadedRead | checked | stored => simp [hr, packet?] at hp
  | some packet =>
      obtain ⟨c, hc⟩ := h.call packet hp
      rw [hcur] at hc
      rw [Option.some.inj hc]

theorem step_inv (h : Inv base s) (hs : step s a = some s') : Inv base s' := by
  cases steps_of_step hs with
  | skip => exact h
  | accept he => exact accept_flow he h
  | send he => exact send_flow he h
  | known he | record he | lock he | register he | unlock he | delete he | close he | finish he | disconnect he
  | cleanup he => exact h.frame rfl rfl rfl rfl (set_flow (by rw [he]; rfl) rfl)
  | write => exact h.frame rfl rfl rfl rfl (set_flow rfl rfl)
  | @receive x rest hcur hchan =>
      refine ⟨h.ring, fun packet hp => ?_, h.enqueued, fun d => ?_⟩
      · obtain ⟨c, hc⟩ := h.call packet hp
        rw [hcur] at hc
        simp at hc
      · have hsent : sent { s with current := some x, packetChan := rest } = sent s := by
          simp [sent, hcur, hchan]
        rw [hsent]
        exact h.flow d
  | @call x r hcur hg hr =>
      have hring := IngressRing.step_inv h.ring hr
      simp only [IngressRing.step, hg] at hr
      obtain rfl := Option.some.inj hr
      refine ⟨hring, fun packet hp => ⟨x.1, ?_⟩, h.enqueued, h.flow⟩
      obtain rfl := Option.some.inj hp
      exact hcur
  | access hr hres =>
      have hresult := gatewayStep_result hr
      rw [hres] at hresult
      exact ⟨IngressRing.gatewayStep_inv h.ring hr, fun packet hp => h.call packet (hresult.1 ▸ hp),
        hresult.2.trans h.enqueued, h.flow⟩
  | @result x r ok hcur hg hr hres =>
      have hresult := gatewayStep_result hr
      rw [hres] at hresult
      refine ⟨IngressRing.gatewayStep_inv h.ring hr, fun packet hp => ?_, ?_, fun d => ?_⟩
      · rw [hresult.1] at hp
        simp at hp
      · rw [hresult.2, call_packet h hcur hg, h.enqueued, List.filter_append, List.map_append]
        cases ok <;> rfl
      · have hsent : sent { s with ring := r, current := none, offered := s.offered ++ [(x, ok)] } = sent s := by
          simp [sent, hcur]
        rw [hsent]
        exact h.flow d
  | core hr =>
      obtain ⟨hg, he⟩ := coreStep_frame hr
      exact ⟨IngressRing.coreStep_inv h.ring hr, fun packet hp => h.call packet (hg ▸ hp), he.trans h.enqueued, h.flow⟩
  | sendTaker | sendMaker => exact send_inv h ..
  | dequeue | readLock | findTaker | noTaker | findMaker | noMaker | readUnlock =>
      exact h.frame rfl rfl rfl rfl fun _ => ⟨rfl, rfl⟩

/-- The ring to the core is never overfilled; the core consumes a prefix of the
packets that went into it, which are those for which `Enqueue` returned true;
and what a connection has offered to `Enqueue` is a prefix of its accepted
lines. -/
theorem ingress_in_order {buf : Nat → IngressPacket} {actions : List Gateway.Action}
    (hr : Runs.run step (init buf base) actions = some s) :
    0 ≤ (s.ring.ring.writeIdx - s.ring.ring.readIdx).toInt ∧
      (s.ring.ring.writeIdx - s.ring.ring.readIdx).toInt ≤ 65536 ∧
      s.ring.consumed <+: s.ring.enqueued ∧
      s.ring.enqueued = (s.offered.filter Prod.snd).map (fun x => x.1.2) ∧
      ∀ c, of c (s.offered.map Prod.fst ++ s.current.toList) <+: (s.sessions c).parsed := by
  have h : Inv base s := Runs.run_invariant (fun _ _ _ => step_inv) (init_inv buf base) hr
  have hroom := h.ring.ring.room
  have hdist := h.ring.ring.distance (by decide)
  rw [BitVec.toInt_eq_toNat_of_lt (by omega), hdist]
  refine ⟨by omega, by omega, h.ring.consumed, h.enqueued, fun c => ?_⟩
  have hflow := h.flow c
  rw [sent, of_append, List.append_assoc] at hflow
  exact ⟨_, hflow⟩

def buyLine : List UInt8 := "1,0,1,8,5,100,2\n".toUTF8.toList

def buy : IngressPacket := ⟨1, 0, 1, 8, 5, 100, 2⟩

/-- Two sessions send a line each. The line that came second is the first in
the ring, and the core takes it while the other one is being enqueued. -/
def crossingLines : List Gateway.Action :=
  [.line 0 sellLine, .line 1 buyLine, .session 1, .session 0, .session 0, .session 0, .session 0, .session 1,
    .session 1, .session 1, .session 1, .session 0, .receive, .enqueue, .enqueue, .enqueue, .enqueue, .receive,
    .enqueue, .core, .core, .core, .enqueue, .enqueue, .enqueue, .core]

theorem ingress_in_order_crossing :
    ∃ s, Runs.run step (init (fun _ => .zero) 0) crossingLines = some s ∧
      s.ring.enqueued = [buy, sell] ∧ s.ring.consumed = [buy] ∧ s.ring.consumed <+: s.ring.enqueued ∧
      of 0 (s.offered.map Prod.fst ++ s.current.toList) <+: (s.sessions 0).parsed ∧
      of 1 (s.offered.map Prod.fst ++ s.current.toList) <+: (s.sessions 1).parsed := by
  have hrun : (Runs.run step (init (fun _ => .zero) 0) crossingLines).map
      (fun s => (s.ring.enqueued, s.ring.consumed)) = some ([buy, sell], [buy]) := by decide +kernel
  obtain ⟨s, hr, hs⟩ := Option.map_eq_some_iff.mp hrun
  obtain ⟨henqueued, hconsumed⟩ := Prod.mk.inj hs
  obtain ⟨-, -, hpre, -, hoffered⟩ := ingress_in_order hr
  exact ⟨s, hr, henqueued, hconsumed, hpre, hoffered 0, hoffered 1⟩

end Sequitur.IngressDelivery
