import Sequitur.EgressPipeline
import Sequitur.Runs

namespace Sequitur.Teardown

open CoreLoop Rings SPSCQueue EgressPipeline

def reports : Action → List EgressPacket
  | .order reports => reports
  | _ => []

/-- The core has found `engine_active` set and may still take an order, or it
has reports to push. -/
def MayPush (s : State) : Prop := s.core = .polling ∨ s.todo ≠ []

/-- The publisher has found `engine_active` cleared and now finds the queue
empty, while the core is past its own test. -/
def FindsEmpty (s : State) (a : Action) : Prop :=
  a = .publisher ∧ s.publisher = .testTail ∧ s.queue.ring.readIdx = s.queue.ring.writeIdx ∧ MayPush s

/-- All reports of the orders taken so far are in the ring, the queue is
empty, and the core never uses it again. -/
structure Drained (actions : List Action) (s : State) : Prop where
  written : s.written = actions.flatMap reports
  empty : s.queue.ring.readIdx = s.queue.ring.writeIdx
  later : ∀ actions' s', Runs.run step s actions' = some s' → s'.queue = s.queue ∧ s'.todo = []

variable {s s' : State} {a : Action}

section Handover

structure Handed (s : State) : Prop where
  queue : SPSCQueue.Inv 13 0 s.queue
  popped : s.queue.popped = s.written ++ s.publisher.flight
  item : ∀ x, s.queue.push.item = some x → s.todo.head? = some x

theorem init_handed (buffer buf : Nat → EgressPacket) (base : BitVec 64) : Handed (init buffer buf base) :=
  ⟨SPSCQueue.init_inv 13 buffer 0, rfl, by simp [init, Queue.init, Push.item]⟩

theorem Handed.move (h : Handed s) (hq : s'.queue = s.queue) (ht : s'.todo = s.todo)
    (hw : s'.written ++ s'.publisher.flight = s.written ++ s.publisher.flight) : Handed s' := by
  refine ⟨?_, ?_, ?_⟩
  · rw [hq]
    exact h.queue
  · rw [hq, hw]
    exact h.popped
  · rw [hq, ht]
    exact h.item

theorem Handed.pop (h : Handed s) (he : s.publisher = .popping) :
    Handed { s with queue := (s.queue.popStep 13).1, publisher := .afterPop (s.queue.popStep 13).2 } := by
  have hf := h.popped
  rw [he] at hf
  refine ⟨popStep_inv h.queue (by decide), ?_, h.item⟩
  dsimp only
  rw [afterPop_flight]
  exact congrArg (· ++ received (s.queue.popStep 13).2) (hf.trans (List.append_nil _))

theorem Handed.push (h : Handed s) {packet : EgressPacket} {rest : List EgressPacket} (ht : s.todo = packet :: rest)
    (hs : s' = { s with
      queue := (s.queue.pushStep 13 packet).1
      todo := if (s.queue.pushStep 13 packet).2 = some true then rest else s.todo }) :
    Handed s' ∧ s'.queue.pushed ++ s'.todo = s.queue.pushed ++ s.todo := by
  subst hs
  have hitem : ∀ y, s.queue.push.item = some y → y = packet := by
    intro y hy
    have hhead := h.item y hy
    rw [ht] at hhead
    exact (Option.some.inj hhead).symm
  obtain ⟨hx, hend⟩ := pushStep_item 13 hitem
  have hq := pushStep_inv h.queue (by decide) packet
  have hp : (s.queue.pushStep 13 packet).1.popped = s.written ++ s.publisher.flight := by
    rw [pushStep_popped]
    exact h.popped
  split at hend
  next htrue =>
    refine ⟨⟨hq, hp, fun x hy => ?_⟩, ?_⟩
    · exact absurd (hy.symm.trans hend.2) (by simp)
    · simp only [if_pos htrue]
      rw [hend.1, ht, List.append_assoc, List.singleton_append]
  next hfalse =>
    refine ⟨⟨hq, hp, fun y hy => ?_⟩, ?_⟩
    · simp only [if_neg hfalse]
      rw [ht, hx y hy]
      rfl
    · simp only [if_neg hfalse]
      rw [hend]

theorem step_handed (h : Handed s) (hs : step s a = some s') :
    Handed s' ∧ s'.queue.pushed ++ s'.todo = s.queue.pushed ++ s.todo ++ reports a := by
  cases steps_of_step hs with
  | signal | enter | leave | next | take => exact ⟨h.move rfl rfl rfl, (List.append_nil _).symm⟩
  | order _ htodo =>
      refine ⟨⟨h.queue, h.popped, fun x hx => ?_⟩, by simp [htodo, reports]⟩
      have hhead := h.item x hx
      rw [htodo] at hhead
      simp at hhead
  | push htodo =>
      obtain ⟨hh, hp⟩ := h.push htodo rfl
      exact ⟨hh, hp.trans (List.append_nil _).symm⟩
  | goOn he | windUp he | loadTail he | exit he | drain he | wait he | room he | retry he | giveUp he | store he
  | publish he => exact ⟨h.move rfl rfl (by simp [he, Publisher.flight]), (List.append_nil _).symm⟩
  | pop he => exact ⟨h.pop he, (List.append_nil _).symm⟩

theorem run_handed {actions : List Action} (h : Handed s) (hr : Runs.run step s actions = some s') :
    Handed s' ∧ s'.queue.pushed ++ s'.todo = s.queue.pushed ++ s.todo ++ actions.flatMap reports := by
  induction actions generalizing s with
  | nil =>
      obtain rfl := Option.some.inj hr
      exact ⟨h, (List.append_nil _).symm⟩
  | cons a actions ih =>
      obtain ⟨t, ht, hr⟩ := Runs.run_cons_some hr
      obtain ⟨hh, he⟩ := step_handed h ht
      obtain ⟨hs', he'⟩ := ih hh hr
      refine ⟨hs', ?_⟩
      rw [he', he, List.flatMap_cons, List.append_assoc]

end Handover

section Exit

structure Ended (s : State) : Prop where
  active : s.active = false
  quiet : ¬ MayPush s
  empty : s.queue.ring.readIdx = s.queue.ring.writeIdx

theorem Ended.todo (h : Ended s) : s.todo = [] := Classical.not_not.mp fun hne => h.quiet (.inr hne)

def Decided (s : State) : Prop :=
  match s.publisher with
  | .testTail => s.active = false
  | .testHead t => s.active = false ∧ (t = s.queue.ring.readIdx → Ended s)
  | .exited => Ended s
  | _ => True

theorem step_other (ha : a ≠ .publisher) (hs : step s a = some s') :
    s'.publisher = s.publisher ∧ s'.queue.ring.readIdx = s.queue.ring.readIdx ∧
      s'.queue.popped = s.queue.popped ∧ (s.active = false → s'.active = false) ∧
      (Ended s → s'.queue = s.queue ∧ Ended s') := by
  cases steps_of_step hs with
  | signal => exact ⟨rfl, rfl, rfl, fun _ => rfl, fun h => ⟨rfl, rfl, h.quiet, h.empty⟩⟩
  | enter _ hactive => exact ⟨rfl, rfl, rfl, id, fun h => absurd (hactive.symm.trans h.active) (by decide)⟩
  | order hcore => exact ⟨rfl, rfl, rfl, id, fun h => absurd (.inl hcore) h.quiet⟩
  | leave | next => exact ⟨rfl, rfl, rfl, id, fun h => ⟨rfl, h.active, by simp [MayPush, h.todo], h.empty⟩⟩
  | take => exact ⟨rfl, rfl, rfl, id, fun h => ⟨rfl, h.active, h.quiet, h.empty⟩⟩
  | push htodo =>
      refine ⟨rfl, pushStep_readIdx .., pushStep_popped .., id, fun h => ?_⟩
      exact absurd (htodo.symm.trans h.todo) (by simp)
  | goOn | windUp | loadTail | exit | drain | pop | wait | room | retry | giveUp | store | publish =>
      exact absurd rfl ha

theorem step_decided (h : Decided s) (hno : ¬ FindsEmpty s a) (hs : step s a = some s') : Decided s' := by
  by_cases ha : a = .publisher
  · subst ha
    cases steps_of_step hs with
    | windUp _ hactive => exact hactive
    | loadTail he =>
        have hactive : s.active = false := by simpa only [Decided, he] using h
        exact ⟨hactive, fun hempty => ⟨hactive, fun hmay => hno ⟨rfl, he, hempty.symm, hmay⟩, hempty.symm⟩⟩
    | exit he ht =>
        simp only [Decided, he] at h
        obtain ⟨hactive, hquiet, hempty⟩ := h.2 ht
        exact ⟨hactive, hquiet, hempty⟩
    | pop => rcases hr : (s.queue.popStep 13).2 with - | - | x <;> simp [Decided, Publisher.afterPop]
    | goOn | drain | wait | room | retry | giveUp | store | publish => trivial
  · obtain ⟨hp, hread, -, hactive, hended⟩ := step_other ha hs
    rw [Decided, hp]
    rw [Decided] at h
    split at h
    next => exact hactive h
    next => exact ⟨hactive h.1, fun ht => (hended (h.2 (ht.trans hread))).2⟩
    next => exact (hended h).2
    next => trivial

theorem strands_of_findsEmpty (hf : FindsEmpty s a) :
    ∃ later s', Runs.run step s (a :: later) = some s' ∧ s'.publisher = .exited ∧ s'.todo ≠ [] := by
  obtain ⟨rfl, he, hempty, hmay⟩ := hf
  have hexit : Runs.run step s [.publisher, .publisher] = some { s with publisher := .exited } := by
    simp only [Runs.run_cons, step, publisherStep, he, hempty, if_true, Option.bind_some, Runs.run_nil]
  by_cases htodo : s.todo = []
  · have hcore : s.core = .polling := hmay.resolve_right fun hne => hne htodo
    have horder : step { s with publisher := .exited } (.order [rejectPacket ⟨0, 0, 0, 0⟩ 0 0]) = some
        { s with publisher := .exited, core := .reporting, todo := [rejectPacket ⟨0, 0, 0, 0⟩ 0 0] } := by
      rw [step, if_pos ⟨hcore, htodo⟩]
    exact ⟨_, _, Runs.run_concat hexit horder, rfl, by simp⟩
  · exact ⟨_, _, hexit, rfl, htodo⟩

theorem Ended.later (h : Ended s) (he : s.publisher = .exited) {actions : List Action}
    (hr : Runs.run step s actions = some s') : s'.queue = s.queue ∧ s'.todo = [] := by
  have hstep : ∀ t a t', Ended t ∧ t.publisher = .exited ∧ t.queue = s.queue → step t a = some t' →
      Ended t' ∧ t'.publisher = .exited ∧ t'.queue = s.queue := by
    rintro t a t' ⟨hend, hpub, hq⟩ hs
    by_cases ha : a = .publisher
    · subst ha
      simp [step, publisherStep, hpub] at hs
    · obtain ⟨hp, -, -, -, hkeep⟩ := step_other ha hs
      exact ⟨(hkeep hend).2, hp.trans hpub, (hkeep hend).1.trans hq⟩
  obtain ⟨hend, -, hq⟩ := Runs.run_invariant hstep ⟨h, he, rfl⟩ hr
  exact ⟨hq, hend.todo⟩

theorem Ended.drained {actions : List Action} (h : Ended s) (hh : Handed s) (he : s.publisher = .exited)
    (hr : s.queue.pushed ++ s.todo = actions.flatMap reports) : Drained actions s := by
  have hlen := (hh.queue.ring.carries.empty_iff (by decide)).mp h.empty
  have hall : s.queue.popped = s.queue.pushed := hh.queue.ring.ordered.eq_of_length hlen
  refine ⟨?_, h.empty, fun actions' s' => h.later he⟩
  calc s.written = s.written ++ s.publisher.flight := by simp [he, Publisher.flight]
    _ = s.queue.pushed := hh.popped.symm.trans hall
    _ = s.queue.pushed ++ s.todo := by rw [h.todo, List.append_nil]
    _ = actions.flatMap reports := hr

end Exit

theorem exited_blocks_core (h : Handed s) (he : s.publisher = .exited)
    (hlong : s.queue.popped.length + 2 ^ 13 < (s.queue.pushed ++ s.todo).length) {actions : List Action}
    (hr : Runs.run step s actions = some s') : s'.todo ≠ [] := by
  have hstep : ∀ t a t', Handed t ∧ t.publisher = .exited ∧
      t.queue.popped.length + 2 ^ 13 < (t.queue.pushed ++ t.todo).length → step t a = some t' →
      Handed t' ∧ t'.publisher = .exited ∧
        t'.queue.popped.length + 2 ^ 13 < (t'.queue.pushed ++ t'.todo).length := by
    rintro t a t' ⟨hh, hpub, hlt⟩ hs
    by_cases ha : a = .publisher
    · subst ha
      simp [step, publisherStep, hpub] at hs
    · obtain ⟨hp, -, hpopped, -, -⟩ := step_other ha hs
      obtain ⟨hh', hreports⟩ := step_handed hh hs
      refine ⟨hh', hp.trans hpub, ?_⟩
      rw [hpopped, hreports]
      exact Nat.lt_of_lt_of_le hlt (by simp)
  obtain ⟨hh, -, hlt⟩ := Runs.run_invariant hstep ⟨h, he, hlong⟩ hr
  have hroom := hh.queue.ring.carries.room
  intro htodo
  rw [htodo, List.append_nil] at hlt
  omega

/-- When the publisher has left its loop, nothing is stranded if it never found
the queue empty with `engine_active` cleared while the core was past its own
test of the flag. From every state in which it does, the threads can go on such
that something is. -/
theorem teardown_drains (buffer buf : Nat → EgressPacket) (base : BitVec 64) :
    (∀ actions s, Runs.run step (init buffer buf base) actions = some s → s.publisher = .exited →
      Runs.Along step (fun s a => ¬ FindsEmpty s a) (init buffer buf base) actions → Drained actions s) ∧
    ∀ actions s a, Runs.run step (init buffer buf base) actions = some s → FindsEmpty s a →
      ∃ later s', Runs.run step s (a :: later) = some s' ∧ s'.publisher = .exited ∧
        ¬ Drained (actions ++ a :: later) s' := by
  constructor
  · intro actions s hr he h
    obtain ⟨hh, hreports⟩ := run_handed (init_handed buffer buf base) hr
    have hstart : Decided (init buffer buf base) := trivial
    have hdecided : Decided s := Runs.run_preserves (fun _ _ _ => step_decided) hstart h hr
    rw [Decided, he] at hdecided
    exact Ended.drained hdecided hh he hreports
  · intro actions s a _ hf
    obtain ⟨later, s', hlater, he, htodo⟩ := strands_of_findsEmpty hf
    exact ⟨later, s', hlater, he, fun hd => htodo (hd.later [] s' rfl).2⟩

section BetweenOrders

theorem step_running (h : s.active = true ∧ s.publisher ≠ .testTail) (ha : a ≠ .signal)
    (hs : step s a = some s') : s'.active = true ∧ s'.publisher ≠ .testTail := by
  cases steps_of_step hs with
  | signal => exact absurd rfl ha
  | enter | leave | order | next | push | take => exact h
  | windUp _ hactive => exact absurd (h.1.symm.trans hactive) (by decide)
  | goOn | loadTail | exit | drain | wait | room | retry | giveUp | store | publish => exact ⟨h.1, by simp⟩
  | pop =>
      refine ⟨h.1, ?_⟩
      rcases hr : (s.queue.popStep 13).2 with - | - | x <;> simp [Publisher.afterPop]

theorem step_stopped (h : s.active = false ∧ ¬ MayPush s) (hs : step s a = some s') :
    s'.active = false ∧ ¬ MayPush s' := by
  obtain ⟨hactive, hquiet⟩ := h
  have htodo : s.todo = [] := Classical.not_not.mp fun hne => hquiet (.inr hne)
  cases steps_of_step hs with
  | signal => exact ⟨rfl, hquiet⟩
  | enter _ ha => exact absurd (ha.symm.trans hactive) (by decide)
  | order hcore => exact absurd (.inl hcore) hquiet
  | leave | next => exact ⟨hactive, by simp [MayPush, htodo]⟩
  | push hpush => exact absurd (hpush.symm.trans htodo) (by simp)
  | take | goOn | windUp | loadTail | exit | drain | pop | wait | room | retry | giveUp | store | publish =>
      exact ⟨hactive, hquiet⟩

/-- A signal that finds the core before its test, with no reports to push,
strands nothing. -/
theorem signal_between_orders {buffer buf : Nat → EgressPacket} {base : BitVec 64} {before later : List Action}
    (hno : .signal ∉ before) (hr : Runs.run step (init buffer buf base) before = some s) (hq : ¬ MayPush s) :
    Runs.Along step (fun s a => ¬ FindsEmpty s a) (init buffer buf base) (before ++ .signal :: later) := by
  have hbefore : Runs.Along step (fun _ a => a ≠ .signal) (init buffer buf base) before :=
    .of_forall fun a ha _ he => hno (he ▸ ha)
  have hstart : (init buffer buf base).active = true ∧ (init buffer buf base).publisher ≠ .testTail :=
    ⟨rfl, by simp [init]⟩
  have hrunning : ∀ t a, t.active = true ∧ t.publisher ≠ .testTail → a ≠ .signal → ¬ FindsEmpty t a :=
    fun t a h _ hf => h.2 hf.2.1
  have hstopped : ∀ t a t', t.active = false ∧ ¬ MayPush t → True → step t a = some t' →
      t'.active = false ∧ ¬ MayPush t' := fun t a t' h _ => step_stopped h
  have hquiet : ∀ t a, t.active = false ∧ ¬ MayPush t → True → ¬ FindsEmpty t a := fun t a h _ hf => h.2 hf.2.2.2
  apply Runs.Along.append
  · exact Runs.Along.of_invariant (fun _ _ _ => step_running) hrunning hstart hbefore
  · intro t hrt
    obtain rfl : s = t := Option.some.inj (hr.symm.trans hrt)
    refine ⟨fun hf => absurd hf.1 (by simp), fun t hs => ?_⟩
    obtain rfl := Option.some.inj hs
    exact Runs.Along.of_invariant hstopped hquiet ⟨rfl, hq⟩ (.of_forall fun _ _ _ => trivial)

end BetweenOrders

def answer : EgressPacket := reportPacket ⟨1, 1, 7, 1⟩ 100 5

def orderly : List Action :=
  [[.test, .order [answer]], List.replicate 4 .core, [.next, .signal], List.replicate 13 .publisher].flatten

theorem teardown_drains_orderly :
    ∃ s, Runs.run step (init (fun _ => answer) (fun _ => answer) 0) orderly = some s ∧ s.publisher = .exited ∧
      Drained orderly s := by
  have hrun : ∃ s, Runs.run step (init (fun _ => answer) (fun _ => answer) 0) orderly = some s ∧
      s.publisher = .exited := ⟨_, rfl, rfl⟩
  have hpush : ∃ s, Runs.run step (init (fun _ => answer) (fun _ => answer) 0)
      ([.test, .order [answer]] ++ List.replicate 4 .core ++ [.next]) = some s ∧ s.core = .test ∧ s.todo = [] :=
    ⟨_, rfl, rfl, rfl⟩
  obtain ⟨s, hr, he⟩ := hrun
  obtain ⟨t, ht, hcore, htodo⟩ := hpush
  have hquiet : ¬ MayPush t := by simp [MayPush, hcore, htodo]
  exact ⟨s, hr, he, (teardown_drains _ _ _).1 _ s hr he (signal_between_orders (by simp) ht hquiet)⟩

/-- The signal arrives while the core is past its test. The publisher finds the
queue empty and leaves before the report is pushed, whether the core has its
order already or takes it only then; and if the order has more reports than the
queue holds, the core never ends it. -/
theorem signal_strands_reports :
    (∃ s s', Runs.run step (init (fun _ => answer) (fun _ => answer) 0)
        [.test, .order [answer], .signal, .publisher, .publisher, .publisher] = some s ∧
      s.publisher = .exited ∧ s.queue.pushed = [] ∧
      Runs.run step s [.core, .core, .core, .core] = some s' ∧
      s'.queue.pushed = [answer] ∧ s'.written = [] ∧ s'.queue.ring.readIdx ≠ s'.queue.ring.writeIdx) ∧
    (∃ s s', Runs.run step (init (fun _ => answer) (fun _ => answer) 0)
        [.test, .signal, .publisher, .publisher, .publisher] = some s ∧
      s.publisher = .exited ∧ s.todo = [] ∧ s.queue.pushed = [] ∧
      Runs.run step s [.order [answer], .core, .core, .core, .core] = some s' ∧
      s'.queue.pushed = [answer] ∧ s'.written = [] ∧ s'.queue.ring.readIdx ≠ s'.queue.ring.writeIdx) ∧
    ∃ s, Runs.run step (init (fun _ => answer) (fun _ => answer) 0)
        [.test, .order (List.replicate 8193 answer), .signal, .publisher, .publisher, .publisher] = some s ∧
      s.publisher = .exited ∧ ∀ actions s', Runs.run step s actions = some s' → s'.todo ≠ [] := by
  refine ⟨⟨_, _, rfl, rfl, rfl, rfl, rfl, rfl, by decide⟩, ⟨_, _, rfl, rfl, rfl, rfl, rfl, rfl, rfl, by decide⟩, ?_⟩
  have hrun : ∃ s, Runs.run step (init (fun _ => answer) (fun _ => answer) 0)
      [.test, .order (List.replicate 8193 answer), .signal, .publisher, .publisher, .publisher] = some s ∧
      s.publisher = .exited ∧ s.queue.popped = [] ∧ s.todo = List.replicate 8193 answer :=
    ⟨_, rfl, rfl, rfl, rfl⟩
  obtain ⟨s, hr, he, hpopped, htodo⟩ := hrun
  refine ⟨s, hr, he, fun actions s' => exited_blocks_core (run_handed (init_handed ..) hr).1 he ?_⟩
  rw [hpopped, List.length_append, htodo, List.length_replicate, List.length_nil]
  omega

end Sequitur.Teardown
