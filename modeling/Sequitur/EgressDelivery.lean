import Sequitur.EgressPipeline
import Sequitur.Runs

namespace Sequitur.EgressDelivery

open CoreLoop Rings SPSCQueue EgressPipeline

variable {base : BitVec 64} {s s' : State} {a : Action}

structure Awake (base : BitVec 64) (s : State) : Prop extends Inv base s where
  active : s.active = true
  ready : ∀ packet, s.publisher = .ready packet → s.written.length < s.returned.length + 2 ^ 16

theorem Awake.not_overwrites (h : Awake base s) : ¬ Overwrites s a := by
  rintro ⟨-, ⟨packet, he⟩, hfull⟩
  have hdist := h.ring.carries.distance (by decide)
  have hroom := h.ready packet he
  rw [hfull] at hdist
  have hsize : (65536 : BitVec 64).toNat = 65536 := rfl
  omega

theorem step_awake (h : Awake base s) (ha : a ≠ .signal) (hs : step s a = some s') : Awake base s' := by
  have hi := step_inv h.toInv h.not_overwrites hs
  cases steps_of_step hs with
  | signal => exact absurd rfl ha
  | enter | leave | order | next | push => exact ⟨hi, h.active, h.ready⟩
  | goOn | windUp | loadTail | exit | drain | wait | retry | store | publish => exact ⟨hi, h.active, by simp⟩
  | pop =>
      refine ⟨hi, h.active, fun packet hp => ?_⟩
      rcases hr : (s.queue.popStep 13).2 with - | - | x <;> simp [hr, Publisher.afterPop] at hp
  | room _ hroom =>
      refine ⟨hi, h.active, fun packet _ => ?_⟩
      have hle := h.ring.carries.room
      rw [h.currentWrite, h.distance_toInt] at hroom
      dsimp only
      omega
  | giveUp _ hstopped => exact absurd (h.active.symm.trans hstopped) (by decide)
  | take =>
      refine ⟨hi, h.active, fun packet hp => Nat.lt_of_lt_of_le (h.ready packet hp) ?_⟩
      simp

theorem active_not_overwrites {buffer buf : Nat → EgressPacket} {actions : List Action} (h : .signal ∉ actions) :
    Runs.Along step (fun s a => ¬ Overwrites s a) (init buffer buf base) actions := by
  have hinit : Awake base (init buffer buf base) := ⟨init_inv buffer buf base, rfl, by simp [init]⟩
  have hsignal : Runs.Along step (fun _ a => a ≠ .signal) (init buffer buf base) actions :=
    .of_forall fun a ha _ he => h (he ▸ ha)
  exact Runs.Along.of_invariant (fun _ _ _ => step_awake) (fun _ _ hs _ => hs.not_overwrites) hinit hsignal

/-- The gateway receives a prefix of what the core has pushed, and the ring is
never overfilled, as long as the publisher does not write into a full ring. It
does so only when `engine_active` is cleared while it waits. -/
theorem delivered_prefix {buffer buf : Nat → EgressPacket} {actions : List Action}
    (h : Runs.Along step (fun s a => ¬ Overwrites s a) (init buffer buf base) actions)
    (hr : Runs.run step (init buffer buf base) actions = some s) :
    0 ≤ (s.ring.writeIdx - s.ring.readIdx).toInt ∧ (s.ring.writeIdx - s.ring.readIdx).toInt ≤ 65536 ∧
      s.returned <+: s.queue.pushed := by
  have hi : Inv base s := Runs.run_preserves (fun _ _ _ => step_inv) (init_inv buffer buf base) h hr
  have hroom := hi.ring.carries.room
  rw [hi.distance_toInt]
  exact ⟨by omega, by omega, hi.delivered⟩

def early : EgressPacket := reportPacket ⟨1, 1, 7, 1⟩ 100 5

def late : EgressPacket := reportPacket ⟨0, 1, 8, 2⟩ 90 3

def delivery (packet : EgressPacket) : List Action :=
  [.test, .order [packet]] ++ List.replicate 4 .core ++ List.replicate 8 .publisher ++ List.replicate 4 .gateway

theorem delivered_prefix_single :
    ∃ s, Runs.run step (init (fun _ => late) (fun _ => late) 0) (delivery early) = some s ∧ s.returned = [early] ∧
      (s.ring.writeIdx - s.ring.readIdx).toInt ≤ 65536 ∧ s.returned <+: s.queue.pushed := by
  have hrun : (Runs.run step (init (fun _ => late) (fun _ => late) 0) (delivery early)).map State.returned =
      some [early] := by decide +kernel
  obtain ⟨s, hs, hret⟩ := Option.map_eq_some_iff.mp hrun
  obtain ⟨-, hle, hprefix⟩ := delivered_prefix (active_not_overwrites (by simp [delivery])) hs
  exact ⟨s, hs, hret, hle, hprefix⟩

section Overfill

theorem run_push {packet : EgressPacket} (ht : s.todo = [packet]) (hp : s.queue.push = .idle)
    (hf : s.queue.stopFlag = false) (he : s.queue.ring.readIdx = s.queue.ring.writeIdx) :
    ∃ actions cached, Runs.run step s actions = some
      { s with
        todo := []
        queue := { s.queue with
          ring := ⟨Function.update s.queue.ring.buf (slot 13 s.queue.ring.writeIdx) packet, s.queue.ring.readIdx,
            s.queue.ring.writeIdx + 1⟩
          cachedHead := cached
          push := .idle
          pushed := s.queue.pushed ++ [packet] } } := by
  by_cases hc : 2 ^ 13 ≤ (s.queue.ring.writeIdx - s.queue.cachedHead).toNat
  · have hz : ¬ 2 ^ 13 ≤ (s.queue.ring.writeIdx - s.queue.ring.writeIdx).toNat := by simp
    refine ⟨[.core, .core, .core, .core, .core], s.queue.ring.readIdx, ?_⟩
    simp only [Runs.run_cons, step, ht, Queue.pushStep, hp, hf, Bool.false_eq_true, if_pos hc, he, if_neg hz,
      reduceCtorEq, if_false, if_true, Option.bind_some, Runs.run_nil]
  · refine ⟨[.core, .core, .core, .core], s.queue.cachedHead, ?_⟩
    simp only [Runs.run_cons, step, ht, Queue.pushStep, hp, hf, Bool.false_eq_true, if_neg hc, reduceCtorEq, if_false,
      if_true, Option.bind_some, Runs.run_nil]

theorem step_next (hc : s.core = .polling ∨ s.core = .reporting) (ht : s.todo = []) :
    step s .next = some { s with core := .test } := by
  rw [step, if_pos ⟨hc, ht⟩]

theorem run_pop {packet : EgressPacket} (hp : s.publisher = .test) (ha : s.active = true)
    (hpop : s.queue.pop = .idle) (hw : s.queue.ring.writeIdx = s.queue.ring.readIdx + 1)
    (hx : s.queue.ring.buf (slot 13 s.queue.ring.readIdx) = packet) :
    Runs.run step s [.publisher, .publisher, .publisher, .publisher, .publisher] = some
      { s with
        publisher := .loading packet
        queue := { s.queue with
          ring := { s.queue.ring with readIdx := s.queue.ring.readIdx + 1 }
          pop := .idle
          popped := s.queue.popped ++ [packet] } } := by
  have hne : s.queue.ring.readIdx ≠ s.queue.ring.readIdx + 1 := by
    intro he
    have hz : (1 : BitVec 64) = 0 := BitVec.add_right_eq_self.mp he.symm
    exact absurd hz (by decide)
  simp only [Runs.run_cons, step, publisherStep, hp, ha, if_true, Queue.popStep, hpop, take, hw, if_neg hne, hx,
    received, Publisher.afterPop, List.append_nil, Option.bind_some, Runs.run_nil]

theorem run_publish {packet : EgressPacket} (hp : s.publisher = .ready packet) :
    Runs.run step s [.publisher, .publisher] = some
      { s with
        publisher := .test
        ring := ⟨Function.update s.ring.buf (slot 16 s.currentWrite) packet, s.ring.readIdx, s.currentWrite + 1⟩
        currentWrite := s.currentWrite + 1
        written := s.written ++ [packet] } := by
  simp only [Runs.run_cons, step, publisherStep, hp, Option.bind_some, Runs.run_nil]

structure Filled (k : Nat) (s : State) : Prop where
  active : s.active = true
  todo : s.todo = []
  core : s.core = .test
  publisher : s.publisher = .test
  push : s.queue.push = .idle
  pop : s.queue.pop = .idle
  stopFlag : s.queue.stopFlag = false
  empty : s.queue.ring.readIdx = s.queue.ring.writeIdx
  pushed : s.queue.pushed = List.replicate k early
  readIdx : s.ring.readIdx = 0
  writeIdx : s.ring.writeIdx = BitVec.ofNat 64 k
  currentWrite : s.currentWrite = s.ring.writeIdx
  gateway : s.gateway = .idle
  returned : s.returned = []
  first : 0 < k → s.ring.buf 0 = early

theorem Filled.arrive {k : Nat} (h : Filled k s) (packet : EgressPacket) :
    ∃ actions q, Runs.run step s actions =
        some { s with core := .test, todo := [], publisher := .loading packet, queue := q } ∧
      q.push = .idle ∧ q.pop = .idle ∧ q.stopFlag = false ∧ q.ring.readIdx = q.ring.writeIdx ∧
      q.pushed = List.replicate k early ++ [packet] := by
  have horder : Runs.run step s [.test, .order [packet]] = some { s with core := .reporting, todo := [packet] } := by
    simp only [Runs.run_cons, step, h.core, h.active, h.todo, and_self, if_true, Option.bind_some, Runs.run_nil]
  obtain ⟨actions, cached, hpush⟩ :=
    run_push (s := { s with core := .reporting, todo := [packet] }) rfl h.push h.stopFlag h.empty
  have hpop := run_pop (s := { s with
      core := .test
      todo := []
      queue := { s.queue with
        ring := ⟨Function.update s.queue.ring.buf (slot 13 s.queue.ring.writeIdx) packet, s.queue.ring.readIdx,
          s.queue.ring.writeIdx + 1⟩
        cachedHead := cached
        push := .idle
        pushed := s.queue.pushed ++ [packet] } }) h.publisher h.active h.pop (congrArg (· + 1) h.empty.symm)
    ((congrArg _ (congrArg (slot 13) h.empty)).trans (Function.update_self ..))
  refine ⟨_, _, Runs.run_trans horder (Runs.run_trans (Runs.run_concat hpush (step_next (.inr rfl) rfl)) hpop), rfl,
    rfl, h.stopFlag, congrArg (· + 1) h.empty, congrArg (· ++ [packet]) h.pushed⟩

theorem Filled.distance {k : Nat} (h : Filled k s) (hk : k ≤ 65536) :
    (s.currentWrite - s.ring.readIdx).toInt = k := by
  have hz : BitVec.ofNat 64 k - 0 = BitVec.ofNat 64 k := by simp
  rw [h.currentWrite, h.writeIdx, h.readIdx, hz, BitVec.toInt_eq_toNat_of_lt] <;> simp <;> omega

theorem Filled.succ {k : Nat} (h : Filled k s) (hk : k < 65536) :
    ∃ actions s', Runs.run step s actions = some s' ∧ Filled (k + 1) s' := by
  obtain ⟨actions, q, harrive, hpush, hpop, hstop, hempty, hpushed⟩ := h.arrive early
  have hdist := h.distance (Nat.le_of_lt hk)
  have hready : step { s with core := .test, todo := [], publisher := .loading early, queue := q } .publisher =
      some { s with core := .test, todo := [], publisher := .ready early, queue := q } := by
    simp only [step, publisherStep, hdist, if_neg (show ¬ (65536 : Int) ≤ k by omega)]
  have hpublish := run_publish (s := { s with core := .test, todo := [], publisher := .ready early, queue := q }) rfl
  refine ⟨_, _, Runs.run_trans harrive (Runs.run_trans (Runs.run_single hready) hpublish), h.active, rfl,
    rfl, rfl, hpush, hpop, hstop, hempty, ?_, h.readIdx, ?_, rfl, h.gateway, h.returned, fun _ => ?_⟩
  · rw [hpushed, List.replicate_succ']
  · change s.currentWrite + 1 = _
    rw [h.currentWrite, h.writeIdx, BitVec.ofNat_add]
    rfl
  · change Function.update s.ring.buf (slot 16 s.currentWrite) early 0 = early
    apply update_eq_of_imp
    intro hz
    apply h.first
    apply Nat.pos_of_ne_zero
    rintro rfl
    rw [h.currentWrite, h.writeIdx] at hz
    exact hz rfl

theorem exists_filled (k : Nat) (hk : k ≤ 65536) :
    ∃ actions s, Runs.run step (init (fun _ => late) (fun _ => late) 0) actions = some s ∧ Filled k s := by
  induction k with
  | zero => exact ⟨[], _, rfl, rfl, rfl, rfl, rfl, rfl, rfl, rfl, rfl, rfl, rfl, rfl, rfl, rfl, rfl, by simp⟩
  | succ k ih =>
      obtain ⟨actions, s, hr, hs⟩ := ih (by omega)
      obtain ⟨actions', s', hr', hs'⟩ := hs.succ (by omega)
      exact ⟨_, s', Runs.run_trans hr hr', hs'⟩

theorem exists_overfilled :
    ∃ actions s, Runs.run step (init (fun _ => late) (fun _ => late) 0) actions = some s ∧
      s.queue.pushed = List.replicate 65536 early ++ [late] ∧ s.returned = [] ∧ s.gateway = .idle ∧
      s.ring.readIdx = 0 ∧ s.ring.writeIdx = 65537 ∧ s.ring.buf 0 = late := by
  obtain ⟨actions, s, hr, h⟩ := exists_filled 65536 (Nat.le_refl _)
  obtain ⟨actions', q, harrive, -, -, -, -, hpushed⟩ := h.arrive late
  have hdist := h.distance (Nat.le_refl _)
  have hwait : (65536 : Int) ≤ (65536 : Nat) := by decide
  have hbreak : Runs.run step { s with core := .test, todo := [], publisher := .loading late, queue := q }
      [.publisher, .signal, .publisher] =
      some { s with active := false, core := .test, todo := [], publisher := .ready late, queue := q } := by
    simp only [Runs.run_cons, step, publisherStep, hdist, if_pos hwait, Bool.false_eq_true, if_false,
      Option.bind_some, Runs.run_nil]
  have hpublish := run_publish
    (s := { s with active := false, core := .test, todo := [], publisher := .ready late, queue := q }) rfl
  have hw : s.currentWrite = BitVec.ofNat 64 65536 := h.currentWrite.trans h.writeIdx
  have hslot : slot 16 s.currentWrite = 0 := by
    rw [hw]
    decide
  refine ⟨_, _, Runs.run_trans hr (Runs.run_trans harrive (Runs.run_trans hbreak hpublish)), hpushed, h.returned,
    h.gateway, h.readIdx, congrArg (· + 1) hw, ?_⟩
  change Function.update s.ring.buf (slot 16 s.currentWrite) late 0 = late
  rw [hslot, Function.update_self]

theorem run_dequeue (hg : s.gateway = .idle) (hne : s.ring.readIdx ≠ s.ring.writeIdx) :
    Runs.run step s [.gateway, .gateway, .gateway, .gateway] = some
      { s with
        gateway := .idle
        ring := { s.ring with readIdx := s.ring.readIdx + 1 }
        returned := s.returned ++ [s.ring.buf (slot 16 s.ring.readIdx)] } := by
  simp only [Runs.run_cons, step, hg, take, if_neg hne, received, List.append_nil, Option.bind_some, Runs.run_nil]

theorem late_not_prefix (k : Nat) (l : List EgressPacket) : ¬ [late] <+: List.replicate (k + 1) early ++ l := by
  rintro ⟨t, ht⟩
  rw [List.replicate_succ, List.cons_append, List.cons_append] at ht
  exact absurd (List.cons.inj ht).1 (by decide)

/-- The publisher overwrites the report at the front of the full ring, and the
gateway reads the newest report in its place. -/
theorem signal_overwrites_unread :
    ∃ actions s s', Runs.run step (init (fun _ => late) (fun _ => late) 0) actions = some s ∧
      (s.ring.writeIdx - s.ring.readIdx).toInt = 65537 ∧
      Runs.run step s [.gateway, .gateway, .gateway, .gateway] = some s' ∧
      s'.queue.pushed = List.replicate 65536 early ++ [late] ∧ s'.returned = [late] ∧
      ¬ s'.returned <+: s'.queue.pushed := by
  obtain ⟨actions, s, hr, hpushed, hret, hg, hread, hwrite, hbuf⟩ := exists_overfilled
  have hne : s.ring.readIdx ≠ s.ring.writeIdx := by
    rw [hread, hwrite]
    decide
  have hgot : s.returned ++ [s.ring.buf (slot 16 s.ring.readIdx)] = [late] := by
    rw [hret, hread, List.nil_append]
    exact congrArg (fun x => [x]) hbuf
  refine ⟨actions, s, _, hr, ?_, run_dequeue hg hne, hpushed, hgot, fun hprefix => ?_⟩
  · rw [hread, hwrite]
    decide
  · change s.returned ++ _ <+: s.queue.pushed at hprefix
    rw [hgot, hpushed] at hprefix
    exact late_not_prefix 65535 [late] hprefix

end Overfill

end Sequitur.EgressDelivery
