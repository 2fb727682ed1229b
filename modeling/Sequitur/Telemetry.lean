import Sequitur.MetricsWorker
import Sequitur.QueueBounds

namespace Sequitur.Telemetry

open OrderBook LevelBook Abstraction Accounting MatchingEngine EngineStep Sessions QueueBounds MetricsWorker

def batchWindow : UInt64 := 64

def snapshot (R : Rounding) (e : Engine) (rollingCyclesSum : UInt64) : MetricsPacket where
  type :=
    if 0 < e.pool.allocFailures ∨ R.scale e.pool.capacity (95 / 100) ≤ e.pool.usedCount.toNat then
      .backpressureDetected
    else .orderProcessed
  latencyCycles := rollingCyclesSum / batchWindow
  totalOrders := e.totalOrders
  totalTrades := e.market.totalTrades
  poolUsed := e.pool.usedCount
  poolFailures := e.pool.allocFailures
  poolPeak := e.pool.peakUsage
  poolCapacity := .ofNat e.pool.capacity

/-- The engine, the snapshots on their way and the worker. `early` counts the
calls made before the first one that found the pool exhausted, and `late` those
made from then on. -/
structure System where
  session : Session
  queue : List MetricsPacket
  worker : Worker
  early : Nat
  late : Nat

def System.init (poolCapacity : Nat) : System := ⟨.init poolCapacity, [], .init, 0, 0⟩

inductive Action
  | submit (c : Call)
  | snapshot (rollingCyclesSum : UInt64) (kept : Bool)
  | consume
  | report

def System.count (s : System) (top : Int) : System :=
  if 0 ≤ top ∧ s.late = 0 then { s with early := s.early + 1 } else { s with late := s.late + 1 }

def step (R : Rounding) (s : System) : Action → Option System
  | .submit c => (s.session.submit c).map fun session => { s.count s.session.engine.pool.top with session := session }
  | .snapshot cycles kept =>
      some (if kept then { s with queue := s.queue ++ [snapshot R s.session.engine cycles] } else s)
  | .consume =>
      match s.queue with
      | [] => none
      | packet :: queue => some { s with queue := queue, worker := s.worker.consume packet }
  | .report => some { s with worker := (s.worker.report R).1 }

/-- The session over the level book `a`. A pool that was found exhausted stays
so, and then the counters of the engine are the numbers of the early and of the
late calls. -/
structure Counted (n : Nat) (s : System) (a : Levels) : Prop where
  ready : Ready n s.session a
  within : Within s.session.engine.market
  exhausted : 0 < s.late → (restingIn a).length = n
  totalOrders : s.session.engine.totalOrders = .ofNat s.early
  allocFailures : s.session.engine.pool.allocFailures = .ofNat s.late

section Counters

variable {n : Nat} {s : System} {a : Levels} {c : Call}

theorem releaseAll_allocFailures (pool : ObjectPool) (slots : List Nat) :
    (slots.foldl (fun pool dead => pool.release (some dead)) pool).allocFailures = pool.allocFailures := by
  induction slots generalizing pool with
  | nil => rfl
  | cons slot slots ih => exact ih (pool.release (some slot))

theorem settle_allocFailures (e : Engine) (pool : ObjectPool) (order : Nat) (m : Market) :
    (e.settle pool order m).pool.allocFailures = pool.allocFailures := by
  rw [Engine.settle]
  dsimp only
  split
  · exact releaseAll_allocFailures pool _
  · exact releaseAll_allocFailures pool _

theorem submitOrder_allocFailures {e e' : Engine} (htop : 0 ≤ e.pool.top) {ok : Bool}
    (h : submitOrder e c = some (e', ok)) : e'.pool.allocFailures = e.pool.allocFailures := by
  rw [submitOrder, ObjectPool.acquire, if_neg (Int.not_lt.mpr htop)] at h
  obtain ⟨m, -, hm⟩ := Option.map_eq_some_iff.mp h
  obtain ⟨rfl, -⟩ := Prod.mk.inj hm
  exact settle_allocFailures ..

theorem count_of_exhausted (htop : s.session.engine.pool.top < 0) :
    s.count s.session.engine.pool.top = { s with late := s.late + 1 } := if_neg fun h => Int.not_le.mpr htop h.1

theorem count_of_free (htop : 0 ≤ s.session.engine.pool.top) (hl : s.late = 0) :
    s.count s.session.engine.pool.top = { s with early := s.early + 1 } := if_pos ⟨htop, hl⟩

theorem submit_counted (h : Counted n s a) (hp : c.price.toNat ≤ maxPriceTicks)
    (ho : ¬ Overruns s.session.engine c) {session : Session} (hs : s.session.submit c = some session) :
    ∃ a', Counted n { s.count s.session.engine.pool.top with session := session } a' := by
  obtain ⟨session', a', hs', hsub, hready⟩ := submit_steps h.ready c
  obtain rfl : session' = session := Option.some.inj (hs'.symm.trans hs)
  have hr := hready (hsub.bounded h.ready.bounded hp)
  have hw := (submitted_within h.ready hsub).mpr ⟨h.within, ho⟩
  have htop := top_nonneg_iff h.ready.toConsistent
  cases hsub with
  | rejected hl =>
      rw [count_of_exhausted (Int.not_le.mp fun hn => htop.mp hn hl)]
      refine ⟨a, hr, hw, fun _ => hl, h.totalOrders, ?_⟩
      change s.session.engine.pool.allocFailures + UInt64.ofNat 1 = _
      rw [h.allocFailures, UInt64.ofNat_add]
  | @accepted e' slot b left fs hl hacc =>
      have hlate : s.late = 0 := Nat.eq_zero_of_not_pos fun hpos => Nat.ne_of_lt hl (h.exhausted hpos)
      have hfree := htop.mpr (Nat.ne_of_lt hl)
      rw [count_of_free hfree hlate]
      refine ⟨_, hr, hw, fun hpos => absurd hlate (Nat.ne_of_gt hpos), ?_, ?_⟩
      · change e'.totalOrders = _
        rw [hacc.totalOrders, h.totalOrders, UInt64.ofNat_add]
        rfl
      · obtain ⟨r, hsubmit, hsession⟩ := Option.map_eq_some_iff.mp hs
        have hengine : r.1.clearExecutionQueue = e'.clearExecutionQueue := congrArg Session.engine hsession
        have hfailures := submitOrder_allocFailures hfree hsubmit
        exact ((congrArg (fun e => e.pool.allocFailures) hengine).symm.trans hfailures).trans h.allocFailures

end Counters

def orderCounts (s : System) : List Nat :=
  s.worker.lastOrders.toNat :: s.worker.currentOrders.toNat ::
    ((s.queue.map fun p => p.totalOrders.toNat) ++ [s.early])

structure Inv (n : Nat) (s : System) : Prop where
  counted : ∃ a, Counted n s a
  sorted : (orderCounts s).Pairwise (· ≤ ·)
  queued : ∀ p ∈ s.queue, p.poolFailures ≤ p.totalOrders
  held : s.worker.poolFailures ≤ s.worker.currentOrders

/-- No call has a price beyond the book or overruns a queue, and a snapshot that
is kept is taken when at most as many calls have been made since the pool was
first found exhausted as before, and fewer than 2⁶⁴ before. -/
def Timely (s : System) : Action → Prop
  | .submit c => c.price.toNat ≤ maxPriceTicks ∧ ¬ Overruns s.session.engine c
  | .snapshot _ true => s.late ≤ s.early ∧ s.early < 2 ^ 64
  | _ => True

instance (s : System) : (a : Action) → Decidable (Timely s a)
  | .submit _ => inferInstanceAs (Decidable (_ ∧ ¬ _))
  | .snapshot _ true => inferInstanceAs (Decidable (_ ∧ _))
  | .snapshot _ false | .consume | .report => .isTrue trivial

theorem init_inv {n : Nat} (hn : n ≤ 2 ^ 32) : Inv n (.init n) where
  counted := ⟨.empty, init_ready hn, by
    simp [System.init, Within, Session.init, Engine.init, Market.init, FixedQueue.empty], by simp [System.init], rfl, rfl⟩
  sorted := by simp [orderCounts, System.init, Worker.init]
  queued := by simp [System.init]
  held := UInt64.le_refl _

theorem consume_currentOrders (w : Worker) (packet : MetricsPacket) :
    (w.consume packet).currentOrders = packet.totalOrders := by
  simp only [Worker.consume]
  split <;> rfl

theorem consume_poolFailures (w : Worker) (packet : MetricsPacket) :
    (w.consume packet).poolFailures = packet.poolFailures := by
  simp only [Worker.consume]
  split <;> rfl

theorem consume_lastOrders (w : Worker) (packet : MetricsPacket) :
    (w.consume packet).lastOrders = w.lastOrders := by
  simp only [Worker.consume]
  split <;> rfl

section Step

variable {R : Rounding} {n : Nat} {s s' : System}

theorem count_early (s : System) (top : Int) : s.early ≤ (s.count top).early := by
  rw [System.count]
  split
  · exact Nat.le_succ _
  · exact Nat.le_refl _

theorem count_frame (s : System) (top : Int) : (s.count top).queue = s.queue ∧ (s.count top).worker = s.worker := by
  rw [System.count]
  split <;> exact ⟨rfl, rfl⟩

theorem submit_inv {session : Session} {c : Call} (hs : Inv n s) (ht : Timely s (.submit c))
    (h : s.session.submit c = some session) :
    Inv n { s.count s.session.engine.pool.top with session := session } := by
  obtain ⟨a, ha⟩ := hs.counted
  obtain ⟨hqueue, hworker⟩ := count_frame s s.session.engine.pool.top
  refine ⟨submit_counted ha ht.1 ht.2 h, ?_, ?_, ?_⟩
  · have hsorted := hs.sorted
    simp only [orderCounts, hqueue, hworker, ← List.cons_append, List.pairwise_append, List.mem_singleton,
      forall_eq] at hsorted ⊢
    exact ⟨hsorted.1, List.pairwise_singleton _ _, fun n hn => (hsorted.2.2 n hn).trans (count_early ..)⟩
  · simpa only [hqueue] using hs.queued
  · simpa only [hworker] using hs.held

theorem snapshot_inv (hs : Inv n s) {cycles : UInt64} (ht : Timely s (.snapshot cycles true)) :
    Inv n { s with queue := s.queue ++ [snapshot R s.session.engine cycles] } := by
  obtain ⟨hle, hlt⟩ := ht
  obtain ⟨a, ha⟩ := hs.counted
  have horders : s.session.engine.totalOrders.toNat = s.early := by
    rw [ha.totalOrders]
    exact UInt64.toNat_ofNat_of_lt' hlt
  have hfailures : s.session.engine.pool.allocFailures.toNat = s.late := by
    rw [ha.allocFailures]
    exact UInt64.toNat_ofNat_of_lt' (Nat.lt_of_le_of_lt hle hlt)
  refine ⟨⟨a, ha.ready, ha.within, ha.exhausted, ha.totalOrders, ha.allocFailures⟩, ?_, ?_, hs.held⟩
  · have hsorted := hs.sorted
    simp only [orderCounts, List.map_append, List.map_cons, List.map_nil, snapshot, horders,
      ← List.cons_append] at hsorted ⊢
    refine List.pairwise_append.mpr ⟨hsorted, List.pairwise_singleton _ _, ?_⟩
    simp only [List.mem_singleton, forall_eq, List.mem_append]
    rintro n (hn | rfl)
    · exact (List.pairwise_append.mp hsorted).2.2 n hn _ (List.mem_singleton_self _)
    · exact le_rfl
  · intro p hp
    rcases List.mem_append.mp hp with hp | hp
    · exact hs.queued p hp
    · obtain rfl := List.mem_singleton.mp hp
      rw [snapshot, UInt64.le_iff_toNat_le, horders, hfailures]
      exact hle

theorem Inv.counted_of_frame (hs : Inv n s) (hsession : s'.session = s.session) (hlate : s'.late = s.late)
    (hearly : s'.early = s.early) : ∃ a, Counted n s' a := by
  obtain ⟨a, ha⟩ := hs.counted
  refine ⟨a, ?_, ?_, ?_, ?_, ?_⟩
  · rw [hsession]
    exact ha.ready
  · rw [hsession]
    exact ha.within
  · rw [hlate]
    exact ha.exhausted
  · rw [hsession, hearly]
    exact ha.totalOrders
  · rw [hsession, hlate]
    exact ha.allocFailures

theorem consume_inv (hs : Inv n s) {packet : MetricsPacket} {queue : List MetricsPacket}
    (hq : s.queue = packet :: queue) : Inv n { s with queue := queue, worker := s.worker.consume packet } := by
  refine ⟨hs.counted_of_frame rfl rfl rfl, ?_, fun p hp => hs.queued p ?_, ?_⟩
  · have hsorted := hs.sorted
    simp only [orderCounts, hq, List.map_cons, List.cons_append, consume_currentOrders, consume_lastOrders] at hsorted ⊢
    exact hsorted.sublist ((List.sublist_cons_self _ _).cons_cons _)
  · rw [hq]
    exact List.mem_cons_of_mem _ hp
  · rw [consume_currentOrders, consume_poolFailures]
    exact hs.queued packet (by rw [hq]; exact List.mem_cons_self)

theorem report_inv (hs : Inv n s) : Inv n { s with worker := (s.worker.report R).1 } := by
  refine ⟨hs.counted_of_frame rfl rfl rfl, ?_, hs.queued, hs.held⟩
  have hsorted := (List.pairwise_cons.mp hs.sorted).2
  have hfrom := (List.pairwise_cons.mp hsorted).1
  refine List.pairwise_cons.mpr ⟨fun n hn => ?_, hsorted⟩
  rcases List.mem_cons.mp hn with rfl | hn
  · exact le_rfl
  · exact hfrom n hn

theorem step_inv (a : Action) (hs : Inv n s) (ht : Timely s a) (h : step R s a = some s') : Inv n s' := by
  cases a with
  | submit c =>
      obtain ⟨session, hr, rfl⟩ := Option.map_eq_some_iff.mp h
      exact submit_inv hs ht hr
  | snapshot cycles kept =>
      obtain rfl := Option.some.inj h
      cases kept with
      | true => exact snapshot_inv hs ht
      | false => exact hs
  | consume =>
      rw [step] at h
      cases hq : s.queue with
      | nil => simp [hq] at h
      | cons packet queue =>
          rw [hq] at h
          obtain rfl := Option.some.inj h
          exact consume_inv hs hq
  | report =>
      obtain rfl := Option.some.inj h
      exact report_inv hs

end Step

/-- Neither subtraction of a report wraps, and the hit rate is a rate however
the doubles are rounded. -/
structure NoUnderflow (w : Worker) : Prop where
  orders : w.lastOrders ≤ w.currentOrders
  failures : w.poolFailures ≤ w.currentOrders
  deltaOrders : (w.currentOrders - w.lastOrders).toNat = w.currentOrders.toNat - w.lastOrders.toNat
  acquired : (w.currentOrders - w.poolFailures).toNat = w.currentOrders.toNat - w.poolFailures.toNat
  poolHitRate : ∀ R : Rounding, 0 ≤ w.poolHitRate R ∧ w.poolHitRate R ≤ 1

theorem Inv.noUnderflow {n : Nat} {s : System} (hs : Inv n s) : NoUnderflow s.worker := by
  have horders : s.worker.lastOrders ≤ s.worker.currentOrders :=
    UInt64.le_iff_toNat_le.mpr ((List.pairwise_cons.mp hs.sorted).1 _ List.mem_cons_self)
  have hacquired := UInt64.toNat_sub_of_le _ _ hs.held
  refine ⟨horders, hs.held, UInt64.toNat_sub_of_le _ _ horders, hacquired, fun R => ?_⟩
  rw [Worker.poolHitRate]
  split
  · exact ⟨R.ratio_nonneg _ _, R.ratio_le_one (by rw [hacquired]; exact Nat.sub_le _ _)⟩
  · exact ⟨zero_le_one, le_rfl⟩

/-- In every state of a run that keeps only timely snapshots the queues were
never overrun, and the worker can report without underflow. -/
theorem telemetry_no_underflow (R : Rounding) {poolCapacity : Nat} (hn : poolCapacity ≤ 2 ^ 32)
    (actions : List Action) {s : System} (ht : Runs.Along (step R) Timely (.init poolCapacity) actions)
    (hr : Runs.run (step R) (.init poolCapacity) actions = some s) :
    Within s.session.engine.market ∧ NoUnderflow s.worker := by
  have hs : Inv poolCapacity s := Runs.run_preserves (fun _ a _ hs ht h => step_inv a hs ht h) (init_inv hn) ht hr
  obtain ⟨a, ha⟩ := hs.counted
  exact ⟨ha.within, hs.noUnderflow⟩

def bid : Call := ⟨0, 5, 1, 7⟩

theorem telemetry_no_underflow_rejection :
    ∃ s, Runs.run (step .exact) (.init 1) [.submit bid, .submit bid, .snapshot 0 true, .consume, .report] = some s ∧
      Within s.session.engine.market ∧ NoUnderflow s.worker := by
  have hsome : (Runs.run (step .exact) (.init 1)
      [.submit bid, .submit bid, .snapshot 0 true, .consume, .report]).isSome := by decide +kernel
  obtain ⟨s, hr⟩ := Option.isSome_iff_exists.mp hsome
  exact ⟨s, hr, telemetry_no_underflow .exact (by decide) _ (by decide +kernel) hr⟩

/-- A pool of one object: one call is accepted and two are rejected, and the
hit rate is that of 2⁶⁴ - 1 hits in one call. -/
theorem hit_rate_underflow :
    (Runs.run (step .exact) (.init 1)
      [.submit bid, .submit bid, .submit bid, .snapshot 0 true, .consume]).map (fun s =>
        (s.worker.currentOrders, s.worker.poolFailures, s.worker.currentOrders - s.worker.poolFailures,
          s.worker.poolHitRate .exact)) = some (1, 2, 18446744073709551615, 18446744073709551615) := by
  decide +kernel

end Sequitur.Telemetry
