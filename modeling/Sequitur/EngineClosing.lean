import Sequitur.EngineProgress
import Sequitur.EngineTelemetry

namespace Sequitur.EngineClosing

open OrderBook MatchingEngine Protocol CoreLoop Rings SPSCQueue EngineProcess EngineDelivery

section Bound

/-- No packet is answered with more reports than `egress_queue` holds. -/
def Fits (packets : List IngressPacket) : Prop :=
  ∀ done p core core', done ++ [p] <+: packets → Runs.run Core.consume .init done = some core →
    core.consume p = some core' → core'.pushed.length ≤ core.pushed.length + 2 ^ 13

theorem Fits.anti {packets more : List IngressPacket} (h : Fits more) (hp : packets <+: more) : Fits packets :=
  fun done p core core' hdone => h done p core core' (hdone.trans hp)

variable {inBase : BitVec 64} {s : State} {i : IngressRing.State}

theorem released_of_push {rs : List EgressPacket} (hw : s.ingress.core ≠ .waiting)
    (hi : IngressRing.coreStep s.ingress = some (s.ingress.push rs)) :
    (∃ p accepted, s.ingress.core = .released p accepted) ∨
      ∃ p accepted price, s.ingress.core = .priced p accepted price := by
  have hcore : ∀ {i : IngressRing.State}, i = s.ingress.push rs → i.core = .waiting := by
    rintro i rfl
    rfl
  rw [IngressRing.coreStep] at hi
  cases hc : s.ingress.core with
  | waiting => exact absurd hc hw
  | released p accepted => exact .inl ⟨p, accepted, rfl⟩
  | priced p accepted price => exact .inr ⟨p, accepted, price, rfl⟩
  | found | submitted =>
      simp only [hc] at hi
      simpa using hcore (Option.some.inj hi)
  | copied p =>
      simp only [hc] at hi
      obtain ⟨r, -, hr⟩ := Option.map_eq_some_iff.mp hi
      simpa using hcore hr

theorem made_of_push {rs : List EgressPacket} (h : Sound inBase s) (hw : s.ingress.core ≠ .waiting)
    (hi : IngressRing.coreStep s.ingress = some (s.ingress.push rs)) :
    ∃ done p core core', done ++ [p] = s.ingress.consumed ∧ Runs.run Core.consume .init done = some core ∧
      core.consume p = some core' ∧ core'.pushed = core.pushed ++ made s.ingress (s.ingress.push rs) := by
  have hafter := (ReportData.step_own h.ingress h.own (ReportData.not_overwrites_core _) hi).follows
  have hpushed := (coreStep_iterated hi).pushed
  suffices hbefore : ∃ core read, ∃ done : List IngressPacket, s.ingress.consumed = done ++ [read] ∧
      Runs.run Core.consume .init done = some core ∧ core.pushed = s.ingress.pushed.map Prod.snd by
    obtain ⟨core, read, done, hconsumed, hcore, hbefore⟩ := hbefore
    have hrun : Runs.run Core.consume .init (done ++ [read]) = some _ := hconsumed ▸ hafter
    rw [Runs.run_append, hcore, Option.bind_some] at hrun
    obtain ⟨core', hconsume, hnil⟩ := Runs.run_cons_some hrun
    obtain rfl := Option.some.inj hnil
    refine ⟨done, read, core, _, hconsumed.symm, hcore, hconsume, ?_⟩
    rw [hbefore]
    exact hpushed
  have hfollows := h.own.follows
  rcases released_of_push hw hi with ⟨p, accepted, hc⟩ | ⟨p, accepted, price, hc⟩
  · rw [hc] at hfollows
    obtain ⟨core, read, done, hd, -, hcore, hp, -⟩ := hfollows
    exact ⟨core, read, done, hd, hcore, hp⟩
  · rw [hc] at hfollows
    obtain ⟨core, read, done, hd, -, hcore, hp, -⟩ := hfollows
    exact ⟨core, read, done, hd, hcore, hp⟩

theorem length_made_le (h : Sound inBase s) (hfits : Fits s.ingress.enqueued)
    (hi : IngressRing.coreStep s.ingress = some i) : (made s.ingress i).length ≤ 2 ^ 13 := by
  rcases coreStep_cases hi with ⟨hpushed, -⟩ | ⟨rs, rfl, hw⟩
  · rw [made_eq (hpushed.trans (List.append_nil _).symm)]
    exact Nat.zero_le _
  · obtain ⟨done, p, core, core', hconsumed, hcore, hconsume, hmade⟩ := made_of_push h hw hi
    have hle := hfits done p core core' (hconsumed ▸ h.ingress.consumed) hcore hconsume
    rw [hmade, List.length_append] at hle
    exact Nat.le_of_add_le_add_left hle

end Bound

section Closing

/-- The queue has room for what the core has yet to push. A core that is still
in its iteration has all of it before it. -/
def Room (s : State) : Prop :=
  (s.loop = .iterate → s.egress.queue.popped.length = s.egress.queue.pushed.length) ∧
    (s.loop = .report → (s.egress.queue.pushed ++ s.egress.todo).length ≤ s.egress.queue.popped.length + 2 ^ 13)

def Decided (s : State) : Prop :=
  match s.egress.publisher with
  | .testTail => s.egress.active = false
  | .testHead t => s.egress.active = false ∧ (t = s.egress.queue.ring.readIdx → Room s)
  | .exited => s.egress.active = false ∧ Room s
  | .test | .popping | .loading _ | .full _ | .ready _ | .stored _ => True

structure Closing (inBase : BitVec 64) (s : State) : Prop extends Sound inBase s where
  logged : EngineTelemetry.Logged s
  stopFlag : s.egress.queue.stopFlag = false
  joined : s.main ≠ .waiting → s.egress.publisher = .exited
  worker : s.main = .waiting ∨ s.main = .joined ∨ s.workerActive = false
  decided : Fits s.ingress.enqueued → s.egress.todo.length ≤ 2 ^ 13 ∧ Decided s

variable {R : Rounding} {inBase outBase : BitVec 64} {s s' : State} {a : Action}

theorem Decided.congr (h : Decided s) (hp : s'.egress.publisher = s.egress.publisher)
    (ha : s.egress.active = false → s'.egress.active = false)
    (hq : s'.egress.queue.ring.readIdx = s.egress.queue.ring.readIdx)
    (hr : s.egress.active = false → Room s → Room s') : Decided s' := by
  rw [Decided, hp, hq]
  rw [Decided] at h
  cases hpub : s.egress.publisher with
  | testTail =>
      rw [hpub] at h
      exact ha h
  | testHead t =>
      rw [hpub] at h
      exact ⟨ha h.1, fun ht => hr h.1 (h.2 ht)⟩
  | exited =>
      rw [hpub] at h
      exact ⟨ha h.1, hr h.1 h.2⟩
  | test | popping | loading | full | ready | stored => trivial

theorem Decided.of_frame (h : Decided s) (he : s'.egress = s.egress) (hr : s.egress.active = false → Room s → Room s') :
    Decided s' :=
  h.congr (by rw [he]) (by rw [he]; exact id) (by rw [he]) hr

theorem Room.of_loop (hi : s.loop ≠ .iterate) (hr : s.loop ≠ .report) : Room s :=
  ⟨fun hl => absurd hl hi, fun hl => absurd hl hr⟩

theorem publisher_decided (h : Teardown.Handed s.egress) (ht : s.egress.todo.length ≤ 2 ^ 13) (hd : Decided s)
    {e : EgressPipeline.State} (he : EgressPipeline.step s.egress .publisher = some e) :
    Decided { s with egress := e } := by
  rw [Decided] at hd
  cases EgressPipeline.steps_of_step he with
  | goOn | drain | wait | room | retry | giveUp | store | publish => trivial
  | windUp _ ha => exact ha
  | loadTail hp =>
      rw [hp] at hd
      refine ⟨hd, fun hempty => ?_⟩
      have hlength := (h.queue.ring.carries.empty_iff (by decide)).mp hempty.symm
      refine ⟨fun _ => hlength, fun _ => ?_⟩
      dsimp only
      rw [List.length_append, hlength]
      exact Nat.add_le_add_left ht _
  | exit hp hread =>
      rw [hp] at hd
      exact ⟨hd.1, hd.2 hread⟩
  | pop =>
      rcases hr : (s.egress.queue.popStep 13).2 with - | - | x <;> trivial

theorem push_room (h : Teardown.Handed s.egress) (hl : s.loop = .report) {e : EgressPipeline.State}
    (he : EgressPipeline.step s.egress .core = some e) (hr : Room s) : Room { s with egress := e } := by
  obtain ⟨-, hpushed⟩ := Teardown.step_handed h he
  obtain ⟨-, -, hpopped, -⟩ := Teardown.step_other (by simp) he
  have hnone : Teardown.reports .core = [] := rfl
  rw [hnone, List.append_nil] at hpushed
  refine ⟨fun hi => absurd (hl.symm.trans hi) (by simp), fun _ => ?_⟩
  dsimp only
  rw [hpushed, hpopped]
  exact hr.2 hl

theorem iterate_room (h : Sound inBase s) (hfits : Fits s.ingress.enqueued) (hl : s.loop = .iterate)
    {i : IngressRing.State} (hi : IngressRing.step s.ingress .core = some i) (hr : Room s) :
    Room { s with
      ingress := i
      egress := { s.egress with todo := made s.ingress i }
      loop := .after s.ingress.core i.core } := by
  have hempty := hr.1 hl
  refine ⟨fun _ => hempty, fun _ => ?_⟩
  dsimp only
  rw [List.length_append, hempty]
  exact Nat.add_le_add_left (length_made_le h hfits hi) _

theorem enqueued_grows (hs : step R s a = some s') : s.ingress.enqueued <+: s'.ingress.enqueued := by
  cases steps_of_step hs with
  | enqueue ha hi => exact (enqueue_frame (not_core_of_enqueues ha) hi).2.2.2
  | iterate _ hi => rw [coreStep_enqueued hi]
  | signal | deliver | enter | leave | push | pushed | count | batch | sample | sampled | log | drain | early | due |
    join | clear | stop => exact List.prefix_rfl

theorem step_decided (h : Closing inBase s) (hfits : Fits s.ingress.enqueued) (hs : step R s a = some s') :
    s'.egress.todo.length ≤ 2 ^ 13 ∧ Decided s' := by
  obtain ⟨htodo, hd⟩ := h.decided hfits
  cases steps_of_step hs with
  | signal => exact ⟨htodo, hd.congr rfl (fun _ => rfl) rfl fun _ hr => hr⟩
  | @deliver _ b e ha he =>
      rcases party_of_delivers ha with rfl | rfl
      · obtain ⟨hp, hread, hpopped, hactive, -⟩ := Teardown.step_other (by simp) he
        cases EgressPipeline.steps_of_step he with
        | take => exact ⟨htodo, hd.congr hp hactive hread fun _ hr => hr⟩
      · refine ⟨?_, publisher_decided h.handed htodo hd he⟩
        have hsame : e.todo = s.egress.todo := by cases EgressPipeline.steps_of_step he <;> rfl
        rw [hsame]
        exact htodo
  | enter _ ha => exact ⟨htodo, hd.of_frame rfl fun hstopped => absurd (ha.symm.trans hstopped) (by decide)⟩
  | iterate hl hi =>
      refine ⟨length_made_le h.toSound hfits hi, hd.congr rfl id rfl fun _ hr => ?_⟩
      exact iterate_room h.toSound hfits hl hi hr
  | @push e hl _ he =>
      obtain ⟨hp, hread, -, hactive, -⟩ := Teardown.step_other (by simp) he
      refine ⟨?_, hd.congr hp hactive hread fun _ hr => push_room h.handed hl he hr⟩
      cases EgressPipeline.steps_of_step he with
      | push hcons =>
          dsimp only
          split
          · exact Nat.le_trans (by simp [hcons]) htodo
          · exact htodo
  | leave | pushed | count | batch | sampled =>
      exact ⟨htodo, hd.of_frame rfl fun _ _ => Room.of_loop (by simp) (by simp)⟩
  | enqueue | sample | log | drain | early | due | join | clear | stop =>
      exact ⟨htodo, hd.of_frame rfl fun _ hr => hr⟩

theorem exited_stays {e e' : EgressPipeline.State} {b : EgressPipeline.Action} (hp : e.publisher = .exited)
    (hs : EgressPipeline.step e b = some e') : e'.publisher = .exited := by
  by_cases hb : b = .publisher
  · subst hb
    rw [EgressPipeline.step, EgressPipeline.publisherStep, hp] at hs
    simp at hs
  · exact (Teardown.step_other hb hs).1.trans hp

theorem step_joined (h : Closing inBase s) (hs : step R s a = some s') :
    (s'.main ≠ .waiting → s'.egress.publisher = .exited) ∧
      (s'.main = .waiting ∨ s'.main = .joined ∨ s'.workerActive = false) := by
  cases steps_of_step hs with
  | deliver _ he => exact ⟨fun hm => exited_stays (h.joined hm) he, h.worker⟩
  | push _ _ he => exact ⟨fun hm => exited_stays (h.joined hm) he, h.worker⟩
  | join _ _ hp => exact ⟨fun _ => hp, .inr (.inl rfl)⟩
  | clear hm => exact ⟨fun _ => h.joined (by simp [hm]), .inr (.inr rfl)⟩
  | stop hm => exact ⟨fun _ => h.joined (by simp [hm]), .inr (.inr (by simpa [hm] using h.worker))⟩
  | signal | enqueue | enter | leave | iterate | pushed | count | batch | sample | sampled | log | drain | early |
    due => exact ⟨h.joined, h.worker⟩

theorem step_closing (h : Closing inBase s) (hno : ¬ Reuses s a) (hs : step R s a = some s') : Closing inBase s' := by
  obtain ⟨hjoined, hworker⟩ := step_joined h hs
  refine ⟨step_sound h.toSound hno hs, EngineTelemetry.step_logged h.logged hs, ?_, hjoined, hworker,
    fun hfits => step_decided h (hfits.anti (enqueued_grows hs)) hs⟩
  cases steps_of_step hs with
  | deliver _ he => exact (step_stopFlag he).trans h.stopFlag
  | push _ _ he => exact (step_stopFlag he).trans h.stopFlag
  | signal | enqueue | enter | leave | iterate | pushed | count | batch | sample | sampled | log | drain | early |
    due | join | clear | stop => exact h.stopFlag

theorem init_closing (packets : Nat → IngressPacket) (queued reports : Nat → EgressPacket)
    (snapshots : Nat → MetricsWorker.MetricsPacket) (inBase outBase : BitVec 64) :
    Closing inBase (init packets queued reports snapshots inBase outBase) where
  toSound := init_sound ..
  logged := EngineTelemetry.init_logged ..
  stopFlag := rfl
  joined := fun hm => absurd rfl hm
  worker := .inl rfl
  decided := fun _ => ⟨Nat.zero_le _, trivial⟩

end Closing

section Measure

def iterationRank : IngressRing.Iteration → Nat
  | .waiting => 5
  | .found => 4
  | .copied _ => 3
  | .submitted _ _ _ => 2
  | .released _ _ => 1
  | .priced _ _ _ => 0

def coreRank (s : State) : Nat :=
  match s.loop with
  | .iterate => 9 + iterationRank s.ingress.core
  | .report => 8
  | .account => 7
  | .sample _ => 2 + s.metrics.push.rank
  | .test => 1
  | .exited => 0

def publisherRank (e : EgressPipeline.State) : Nat :=
  match e.publisher with
  | .loading _ => 14
  | .full _ => 13
  | .ready _ => 12
  | .stored _ => 11
  | .test => if e.queue.popped.length = e.queue.pushed.length then 3 else 10
  | .testTail => if e.queue.popped.length = e.queue.pushed.length then 2 else 9
  | .testHead t => if t = e.queue.ring.readIdx then 1 else 8
  | .popping => if e.queue.popped.length = e.queue.pushed.length then 4 + e.queue.pop.rank else e.queue.pop.rank
  | .exited => 0

def publisherWork (e : EgressPipeline.State) : Nat :=
  16 * (e.queue.pushed.length - e.queue.popped.length) + publisherRank e

def mainRank : Main → Nat
  | .waiting => 3
  | .joined => 2
  | .cleared => 1
  | .done => 0

def workerRank (s : State) : Nat :=
  match s.logging with
  | .drain => 3 + 4 * (s.metrics.pushed.length - s.metrics.popped.length) + s.metrics.pop.rank
  | .clock => 2
  | .test => 1
  | .exited => 0

/-- What is left to be done by the core, by its pushes, by the publisher, by the
main thread and by the worker. -/
def remaining (s : State) : ℕ ×ₗ ℕ ×ₗ ℕ ×ₗ ℕ ×ₗ ℕ :=
  toLex (coreRank s, toLex (6 * s.egress.todo.length + s.egress.queue.push.rank,
    toLex (publisherWork s.egress, toLex (mainRank s.main, workerRank s))))

theorem take_rank_le {T : Type} {w : Nat} (c : Take T w) : c.rank ≤ 3 := by
  cases c <;> simp [Take.rank]

theorem publisher_leaves {e : EgressPipeline.State} (h : Teardown.Handed e) (ha : e.active = false)
    (hp : e.publisher ≠ .exited) :
    ∃ e', EgressPipeline.step e .publisher = some e' ∧ e'.todo = e.todo ∧ e'.queue.push = e.queue.push ∧
      publisherWork e' < publisherWork e := by
  have hempty := h.queue.ring.carries.empty_iff (by decide)
  rw [EgressPipeline.step, EgressPipeline.publisherStep]
  cases hpub : e.publisher with
  | test =>
      simp only [ha, Bool.false_eq_true, if_false]
      refine ⟨_, rfl, rfl, rfl, Nat.add_lt_add_left ?_ _⟩
      simp only [publisherRank, hpub]
      split <;> decide
  | testTail =>
      refine ⟨_, rfl, rfl, rfl, Nat.add_lt_add_left ?_ _⟩
      simp only [publisherRank, hpub, eq_comm, hempty]
      split <;> decide
  | testHead t =>
      have hrank := take_rank_le e.queue.pop
      by_cases ht : t = e.queue.ring.readIdx
      · simp only [if_pos ht]
        exact ⟨_, rfl, rfl, rfl, Nat.add_lt_add_left (by simp [publisherRank, hpub, ht]) _⟩
      · simp only [if_neg ht]
        refine ⟨_, rfl, rfl, rfl, Nat.add_lt_add_left ?_ _⟩
        simp only [publisherRank, hpub, if_neg ht]
        split <;> omega
  | popping =>
      refine ⟨_, rfl, rfl, rfl, ?_⟩
      simp only [publisherWork, Queue.popStep, publisherRank, hpub]
      rcases h.queue.ring.take_cases (by decide) with ⟨hr, hrank⟩ | ⟨hr, -, hlength⟩ | ⟨x, hr, -, hlt⟩
      · simp only [hr, EgressPipeline.Publisher.afterPop, received, List.append_nil]
        split <;> omega
      · simp only [hr, EgressPipeline.Publisher.afterPop, received, List.append_nil, if_pos hlength]
        omega
      · simp only [hr, EgressPipeline.Publisher.afterPop, received, List.length_append, List.length_singleton]
        omega
  | loading packet =>
      dsimp only
      split
      · exact ⟨_, rfl, rfl, rfl, Nat.add_lt_add_left (by simp [publisherRank, hpub]) _⟩
      · exact ⟨_, rfl, rfl, rfl, Nat.add_lt_add_left (by simp [publisherRank, hpub]) _⟩
  | full packet =>
      simp only [ha, Bool.false_eq_true, if_false]
      exact ⟨_, rfl, rfl, rfl, Nat.add_lt_add_left (by simp [publisherRank, hpub]) _⟩
  | ready packet => exact ⟨_, rfl, rfl, rfl, Nat.add_lt_add_left (by simp [publisherRank, hpub]) _⟩
  | stored packet =>
      refine ⟨_, rfl, rfl, rfl, Nat.add_lt_add_left ?_ _⟩
      simp only [publisherRank, hpub]
      split <;> decide
  | exited => exact absurd hpub hp

theorem coreStep_rank {i i' : IngressRing.State} (h : IngressRing.coreStep i = some i') :
    i'.core = .waiting ∨ iterationRank i'.core < iterationRank i.core := by
  rw [IngressRing.coreStep] at h
  split at h
  next hc =>
    split at h
    next => exact .inl (Option.some.inj h ▸ hc)
    next => exact .inr (Option.some.inj h ▸ by simp [hc, iterationRank])
  next hc => exact .inr (Option.some.inj h ▸ by simp [hc, iterationRank])
  next hc =>
    obtain ⟨r, -, rfl⟩ := Option.map_eq_some_iff.mp h
    exact .inr (by simp [hc, iterationRank])
  next hc => exact .inr (Option.some.inj h ▸ by simp [hc, iterationRank])
  next hc =>
    split at h
    next => exact .inl (Option.some.inj h ▸ rfl)
    next => exact .inr (Option.some.inj h ▸ by simp [hc, iterationRank])
  next => exact .inl (Option.some.inj h ▸ rfl)

end Measure

section Progress

variable {R : Rounding} {inBase outBase : BitVec 64} {s s' : State}

def Ends (a : Action) : Prop :=
  a = .core ∨ a = .account 0 ∨ a = .publisher ∨ a = .main ∨ a = .worker ∨ a = .clock false

/-- The three threads have left their loops, and the main thread, which has
waited for them, is done. What they have left in their queues is not asked. -/
structure Over (s : State) : Prop where
  core : s.loop = .exited
  publisher : s.egress.publisher = .exited
  main : s.main = .done
  logging : s.logging = .exited

theorem Ends.not_reuses {a : Action} (ha : Ends a) (s : State) : ¬ Reuses s a := by
  rintro ⟨rfl, -⟩
  simp [Ends] at ha

theorem step_frame {a : Action} (ha : Ends a) (hs : step R s a = some s') :
    s'.ingress.enqueued = s.ingress.enqueued ∧ s'.egress.active = s.egress.active := by
  cases steps_of_step hs with
  | signal => simp [Ends] at ha
  | enqueue he => rcases ha with rfl | rfl | rfl | rfl | rfl | rfl <;> simp [Action.enqueues] at he
  | deliver hb he =>
      refine ⟨rfl, ?_⟩
      rcases party_of_delivers hb with rfl | rfl <;> cases EgressPipeline.steps_of_step he <;> rfl
  | push _ _ he =>
      cases EgressPipeline.steps_of_step he with
      | push => exact ⟨rfl, rfl⟩
  | iterate _ hi => exact ⟨coreStep_enqueued hi, rfl⟩
  | enter | leave | pushed | count | batch | sample | sampled | log | drain | early | due | join | clear | stop =>
      exact ⟨rfl, rfl⟩

theorem coreStep_total (h : Sound inBase s) (hp : ∀ p ∈ s.ingress.enqueued, p.price.toNat ≤ maxPriceTicks) :
    ∃ i, IngressRing.coreStep s.ingress = some i := by
  rw [IngressRing.coreStep]
  cases hc : s.ingress.core with
  | waiting =>
      dsimp only
      split <;> exact ⟨_, rfl⟩
  | copied p =>
      obtain ⟨r, hr⟩ := EngineProgress.submit_copied h hp hc
      simp only [hr]
      exact ⟨_, rfl⟩
  | released p accepted =>
      dsimp only
      split <;> exact ⟨_, rfl⟩
  | found | submitted | priced => exact ⟨_, rfl⟩

theorem iterate_closes (h : Sound inBase s) (hp : ∀ p ∈ s.ingress.enqueued, p.price.toNat ≤ maxPriceTicks)
    (hl : s.loop = .iterate) : ∃ s', step R s .core = some s' ∧ remaining s' < remaining s := by
  obtain ⟨i, hi⟩ := coreStep_total h hp
  rw [step, coreStep]
  simp only [hl, hi]
  refine ⟨_, rfl, Prod.Lex.left _ _ ?_⟩
  by_cases hw : i.core = .waiting
  · rcases after_cases s.ingress.core i.core with ha | ha | ha
    · simp only [coreRank, hl, ha]
      omega
    · simp only [coreRank, hl, ha]
      omega
    · have hle : (.after s.ingress.core .waiting : Loop) ≠ .iterate := by cases s.ingress.core <;> simp [Loop.after]
      exact absurd (hw ▸ ha) hle
  · have hrank := (coreStep_rank hi).resolve_left hw
    simp only [coreRank, hl, after_ne_waiting _ hw]
    exact Nat.add_lt_add_left hrank _

theorem publisher_closes (h : Teardown.Handed s.egress) (ha : s.egress.active = false)
    (hpub : s.egress.publisher ≠ .exited) : ∃ s', step R s .publisher = some s' ∧ remaining s' < remaining s := by
  obtain ⟨e, he, htodo, hpush, hlt⟩ := publisher_leaves h ha hpub
  refine ⟨{ s with egress := e }, by rw [step, he]; rfl, EngineProgress.lex_lt_right rfl ?_⟩
  refine EngineProgress.lex_lt_right ?_ (Prod.Lex.left _ _ hlt)
  rw [htodo, hpush]

theorem report_closes (h : Closing inBase s) (hfits : Fits s.ingress.enqueued) (ha : s.egress.active = false)
    (hl : s.loop = .report) :
    ∃ a s', Ends a ∧ step R s a = some s' ∧ remaining s' < remaining s := by
  by_cases ht : s.egress.todo = []
  · refine ⟨.core, { s with loop := .account }, .inl rfl, by simp [step, coreStep, hl, ht], ?_⟩
    exact Prod.Lex.left _ _ (by simp [coreRank, hl])
  · by_cases hroom : s.egress.queue.pushed.length < s.egress.queue.popped.length + 2 ^ 13
    · obtain ⟨e, he, hlt⟩ := EngineProgress.push_lightens h.handed.queue h.stopFlag hroom ht
      refine ⟨.core, { s with egress := e }, .inl rfl, by simp [step, coreStep, hl, ht, he], ?_⟩
      exact EngineProgress.lex_lt_right (by simp [coreRank, hl]) (Prod.Lex.left _ _ hlt)
    · have hpub : s.egress.publisher ≠ .exited := by
        intro hpub
        obtain ⟨-, hd⟩ := h.decided hfits
        rw [Decided, hpub] at hd
        have hle := hd.2.2 hl
        have hpos := List.length_pos_iff.mpr ht
        rw [List.length_append] at hle
        omega
      obtain ⟨s', hs, hlt⟩ := publisher_closes h.handed ha hpub
      exact ⟨.publisher, s', .inr (.inr (.inl rfl)), hs, hlt⟩

theorem core_closes (h : Closing inBase s) (hfits : Fits s.ingress.enqueued)
    (hp : ∀ p ∈ s.ingress.enqueued, p.price.toNat ≤ maxPriceTicks) (ha : s.egress.active = false)
    (hexit : s.loop ≠ .exited) : ∃ a s', Ends a ∧ step R s a = some s' ∧ remaining s' < remaining s := by
  cases hl : s.loop with
  | test =>
      refine ⟨.core, { s with loop := .exited }, .inl rfl, by simp [step, coreStep, hl, ha], ?_⟩
      exact Prod.Lex.left _ _ (by simp [coreRank, hl])
  | iterate =>
      obtain ⟨s', hs, hlt⟩ := iterate_closes h.toSound hp hl
      exact ⟨.core, s', .inl rfl, hs, hlt⟩
  | report => exact report_closes h hfits ha hl
  | account =>
      obtain ⟨s', hs⟩ : ∃ s', step R s (.account 0) = some s' := by simp [step, accountStep, hl]
      refine ⟨.account 0, s', .inr (.inl rfl), hs, ?_⟩
      cases steps_of_step hs with
      | enqueue ha => simp [Action.enqueues] at ha
      | deliver ha => simp [Action.delivers] at ha
      | count => exact Prod.Lex.left _ _ (by simp [coreRank, hl])
      | batch =>
          have hle := EngineProgress.push_rank_le s.metrics.push
          refine Prod.Lex.left _ _ ?_
          simp only [coreRank, hl]
          omega
  | sample packet =>
      have hrank := pushStep_rank 12 s.metrics packet
      obtain ⟨s', hs⟩ : ∃ s', step R s .core = some s' := by
        rw [step, coreStep]
        simp only [hl]
        split <;> exact ⟨_, rfl⟩
      refine ⟨.core, s', .inl rfl, hs, ?_⟩
      cases steps_of_step hs with
      | enqueue ha => simp [Action.enqueues] at ha
      | deliver ha => simp [Action.delivers] at ha
      | enter hl' | leave hl' | iterate hl' | push hl' | pushed hl' => exact absurd (hl.symm.trans hl') (by simp)
      | sample hl' hr =>
          obtain rfl := Loop.sample.inj (hl.symm.trans hl')
          rw [if_pos hr] at hrank
          refine Prod.Lex.left _ _ ?_
          simp only [coreRank, hl]
          omega
      | sampled =>
          refine Prod.Lex.left _ _ ?_
          simp only [coreRank, hl]
          omega
  | exited => exact absurd hl hexit

theorem main_closes (hl : s.loop = .exited) (hpub : s.egress.publisher = .exited) (ha : s.egress.active = false)
    (hm : s.main ≠ .done) : ∃ s', step R s .main = some s' ∧ remaining s' < remaining s := by
  have hlater : ∀ s' : State, s'.loop = s.loop → s'.ingress = s.ingress → s'.egress = s.egress →
      mainRank s'.main < mainRank s.main → remaining s' < remaining s := by
    intro s' hloop hingress hegress hlt
    rw [remaining, remaining, hegress, coreRank, coreRank, hloop, hl]
    exact Prod.Lex.right _ (Prod.Lex.right _ (Prod.Lex.right _ (Prod.Lex.left _ _ hlt)))
  rw [step, mainStep]
  cases hmain : s.main with
  | waiting =>
      simp only [hl, hpub, ha]
      exact ⟨_, rfl, hlater _ hl.symm rfl rfl (by simp [hmain, mainRank])⟩
  | joined => exact ⟨_, rfl, hlater _ rfl rfl rfl (by simp [hmain, mainRank])⟩
  | cleared => exact ⟨_, rfl, hlater _ rfl rfl rfl (by simp [hmain, mainRank])⟩
  | done => exact absurd hmain hm

theorem worker_closes (h : EngineTelemetry.Logged s) (hl : s.loop = .exited) (hw : s.workerActive = false)
    (hexit : s.logging ≠ .exited) : ∃ a s', Ends a ∧ step R s a = some s' ∧ remaining s' < remaining s := by
  have hlater : ∀ s' : State, s'.loop = s.loop → s'.egress = s.egress → s'.main = s.main →
      workerRank s' < workerRank s → remaining s' < remaining s := by
    intro s' hloop hegress hmain hlt
    rw [remaining, remaining, hegress, hmain, coreRank, coreRank, hloop, hl]
    exact Prod.Lex.right _ (Prod.Lex.right _ (Prod.Lex.right _ (Prod.Lex.right _ hlt)))
  cases hlog : s.logging with
  | test =>
      refine ⟨.worker, { s with logging := .exited }, by simp [Ends], by simp [step, workerStep, hlog, hw], ?_⟩
      exact hlater _ rfl rfl rfl (by simp [workerRank, hlog])
  | drain =>
      refine ⟨.worker, ?_⟩
      rw [step, workerStep]
      simp only [hlog]
      refine ⟨_, by simp [Ends], rfl, hlater _ rfl rfl rfl ?_⟩
      simp only [workerRank, hlog, Queue.popStep]
      rcases h.metrics.ring.take_cases (by decide) with ⟨hr, hrank⟩ | ⟨hr, -, -⟩ | ⟨x, hr, hidle, hlt⟩
      · simp only [hr, reduceCtorEq, if_false, received, List.append_nil]
        omega
      · simp only [hr, if_true]
        omega
      · simp only [hr, hidle, Option.some.injEq, reduceCtorEq, if_false, received, List.length_append,
          List.length_singleton, Take.rank]
        omega
  | clock =>
      refine ⟨.clock false, { s with logging := .test }, by simp [Ends], by simp [step, clockStep, hlog], ?_⟩
      exact hlater _ rfl rfl rfl (by simp [workerRank, hlog])
  | exited => exact absurd hlog hexit

theorem exists_closing_step (h : Closing inBase s) (hfits : Fits s.ingress.enqueued)
    (hp : ∀ p ∈ s.ingress.enqueued, p.price.toNat ≤ maxPriceTicks) (ha : s.egress.active = false)
    (hover : ¬ Over s) : ∃ a s', Ends a ∧ step R s a = some s' ∧ remaining s' < remaining s := by
  by_cases hl : s.loop = .exited
  · by_cases hpub : s.egress.publisher = .exited
    · by_cases hm : s.main = .done
      · have hw : s.workerActive = false := by simpa [hm] using h.worker
        exact worker_closes h.logged hl hw fun hlog => hover ⟨hl, hpub, hm, hlog⟩
      · obtain ⟨s', hs, hlt⟩ := main_closes hl hpub ha hm
        exact ⟨.main, s', by simp [Ends], hs, hlt⟩
    · obtain ⟨s', hs, hlt⟩ := publisher_closes h.handed ha hpub
      exact ⟨.publisher, s', .inr (.inr (.inl rfl)), hs, hlt⟩
  · exact core_closes h hfits hp ha hl

theorem Closing.ends (h : Closing inBase s) (hfits : Fits s.ingress.enqueued)
    (hp : ∀ p ∈ s.ingress.enqueued, p.price.toNat ≤ maxPriceTicks) (ha : s.egress.active = false) :
    ∃ more s', (∀ a ∈ more, Ends a) ∧ Runs.run (step R) s more = some s' ∧ Over s' := by
  have hstep : ∀ t, Closing inBase t ∧ t.ingress.enqueued = s.ingress.enqueued ∧ t.egress.active = false → ¬ Over t →
      ∃ a t', Ends a ∧ step R t a = some t' ∧
        (Closing inBase t' ∧ t'.ingress.enqueued = s.ingress.enqueued ∧ t'.egress.active = false) ∧
        remaining t' < remaining t := by
    rintro t ⟨ht, henqueued, hactive⟩ hover
    obtain ⟨a, t', hends, hs, hlt⟩ := exists_closing_step ht (henqueued ▸ hfits) (henqueued ▸ hp) hactive hover
    obtain ⟨henqueued', hactive'⟩ := step_frame hends hs
    exact ⟨a, t', hends, hs, ⟨step_closing ht (hends.not_reuses t) hs, henqueued'.trans henqueued,
      hactive'.trans hactive⟩, hlt⟩
  obtain ⟨more, s', hmore, hrun, -, hover⟩ := Runs.exists_run_done remaining hstep ⟨h, rfl, ha⟩
  exact ⟨more, s', hmore, hrun, hover⟩

end Progress

end Sequitur.EngineClosing
