import Sequitur.BoundedFifo
import Sequitur.RingBuffer

namespace Sequitur.RingFifo

open Rings RingBuffer BoundedFifo

variable {T : Type}

inductive Action (T : Type)
  | push (item : T)
  | consume (call : Call)
  | shutdown

def step (m : Nat) (q : Queue T) : Action T → Option (Queue T)
  | .push item => some (q.pushStep m item).1
  | .consume call => some (q.popStep m call).1
  | .shutdown => some { q with stopFlag := true }

/-- What an access of `push` decides, read off what it does: the call fails when
it finds the stop flag set or the buffer full, and it succeeds with its store to
`tail`. -/
def pushEvent (m : Nat) (q : Queue T) (item : T) : Event T :=
  match q.push, q.pushStep m item with
  | .idle, (_, some false) => .push item false
  | _, (q', none) =>
      match q'.push with
      | .full x _ _ => .push x false
      | .published x => .push x true
      | _ => .silent
  | _, _ => .silent

/-- The same for the consumer. An item is taken with the store to `head`. A
`pop` that returns false, and a `pop_batch` that returns less than its maximum,
claim that there was none. -/
def popEvent (m : Nat) (q : Queue T) (call : Call) : Event T :=
  match q.popStep m call with
  | (_, some (.pop none)) => .pop none
  | (_, some (.popBatch max count _)) => if count < max then .pop none else .silent
  | (_, some (.pop (some _))) => .silent
  | (q', none) =>
      match q'.pop with
      | .taken _ item => .pop (some item)
      | _ => .silent

def event (m : Nat) (q : Queue T) : Action T → Event T
  | .push item => pushEvent m q item
  | .consume call => popEvent m q call
  | .shutdown => .silent

def contents (q : Queue T) : List T := q.put.drop q.got.length

variable {m : Nat} {base : BitVec 64} {q q' : Queue T} {a : Action T}

theorem step_inv (hm : m < 64) (h : Inv m base q) (hs : step m q a = some q') : Inv m base q' := by
  cases a with
  | push item =>
      obtain rfl := Option.some.inj hs
      exact pushStep_inv h hm item
  | consume call =>
      obtain rfl := Option.some.inj hs
      exact popStep_inv h hm call
  | shutdown =>
      obtain rfl := Option.some.inj hs
      exact ⟨h.ring, h.room, h.producer, h.pushed, h.handed, h.pushCount, h.popCount, h.batch⟩

theorem run_inv (hm : m < 64) {buffer : Nat → T} {actions : List (Action T)}
    (hr : Runs.run (step m) (Queue.init buffer base) actions = some q) : Inv m base q :=
  Runs.run_invariant (fun _ _ _ => step_inv hm) (init_inv m buffer base) hr

theorem takeStep_lists (q : Queue T) (batch : Option (Batch T)) (c : Take T 64) :
    (q.takeStep m batch c).1.put = q.put ∧
      (q.takeStep m batch c).1.got = q.got ++ received (take m q.ring c).2.2 := by
  rw [Queue.takeStep]
  split
  next hr => exact ⟨rfl, by rw [hr]; exact (List.append_nil _).symm⟩
  next hr => exact ⟨rfl, by rw [hr]; exact (List.append_nil _).symm⟩
  next item hr => exact ⟨rfl, by rw [hr]; rfl⟩

theorem countStep_lists (q : Queue T) (batch : Option (Batch T)) (item : T) :
    (q.countStep batch item).1.put = q.put ∧ (q.countStep batch item).1.got = q.got := by
  rw [Queue.countStep.eq_def]
  split
  next => exact ⟨rfl, rfl⟩
  next b =>
    dsimp only
    split <;> exact ⟨rfl, rfl⟩

theorem popStep_lists (q : Queue T) (call : Call) :
    (q.popStep m call).1.put = q.put ∧
      (q.popStep m call).1.got = q.got ++ received (take m q.ring q.pop.cursor).2.2 := by
  rw [Queue.popStep.eq_def]
  cases he : q.pop with
  | idle =>
      cases call with
      | pop => exact takeStep_lists q none .idle
      | popBatch max =>
          dsimp only
          split
          next => exact takeStep_lists q _ .idle
          next => exact ⟨rfl, (List.append_nil _).symm⟩
  | taking batch c => exact takeStep_lists q batch c
  | taken batch item =>
      obtain ⟨hput, hgot⟩ := countStep_lists q batch item
      exact ⟨hput, hgot.trans (List.append_nil _).symm⟩

theorem takeStep_event {q : Queue T} (batch : Option (Batch T)) (hb : ∀ b, batch = some b → b.count < b.max)
    {c : Take T 64} {call : Call} (he : q.popStep m call = q.takeStep m batch c) :
    popEvent m q call = (take m q.ring c).2.2.elim .silent .pop := by
  rw [popEvent, he, Queue.takeStep]
  rcases (take m q.ring c).2.2 with - | - | item
  · rfl
  · cases batch with
    | none => rfl
    | some b => exact if_pos (hb b rfl)
  · rfl

theorem popEvent_eq (h : Inv m base q) (call : Call) :
    popEvent m q call = (take m q.ring q.pop.cursor).2.2.elim .silent .pop := by
  have hbatch := h.batch
  cases he : q.pop with
  | idle =>
      cases call with
      | pop => exact takeStep_event none (by simp) (by simp only [Queue.popStep, he, Pop.cursor])
      | popBatch max =>
          by_cases hmax : 0 < max
          · refine takeStep_event (some ⟨max, 0, []⟩) (fun b hb => ?_) ?_
            · obtain rfl := Option.some.inj hb
              exact hmax
            · simp only [Queue.popStep, he, if_pos hmax, Pop.cursor]
          · have hstep : q.popStep m (.popBatch max) = (q, some (.popBatch max 0 [])) := by
              simp only [Queue.popStep, he, if_neg hmax]
            rw [popEvent, hstep]
            exact if_neg hmax
  | taking batch c =>
      rw [he] at hbatch
      exact takeStep_event batch (fun b hb => (hbatch b hb).bound) (by simp only [Queue.popStep, he, Pop.cursor])
  | taken batch item =>
      have hstep : q.popStep m call = q.countStep batch item := by simp only [Queue.popStep, he]
      rw [popEvent, hstep, Queue.countStep.eq_def]
      cases batch with
      | none => rfl
      | some b =>
          by_cases hlt : b.count + 1 < b.max
          · simp only [if_pos hlt, take, Pop.cursor, Option.elim_none]
          · simp only [if_neg hlt, take, Pop.cursor, Option.elim_none]

theorem take_some {r : Ring T 64} {c : Take T 64} {x : T} (hx : (take m r c).2.2 = some (some x)) :
    ∃ idx, c = .copied idx x := by
  cases c with
  | loaded idx =>
      rw [take] at hx
      split at hx <;> simp at hx
  | copied idx y =>
      obtain rfl : y = x := by simpa [take] using hx
      exact ⟨idx, rfl⟩
  | idle | nonempty idx => simp [take] at hx

section Refinement

variable (h : Inv m base q)

include h

theorem contents_length (hm : m < 64) : (contents q).length = q.size.toNat := by
  rw [contents, List.length_drop, h.size_eq hm]

theorem contents_length_le : (contents q).length ≤ 2 ^ m - 1 := by
  have hroom := h.room
  rw [contents, List.length_drop]
  omega

theorem push_refines (hm : m < 64) (item : T) :
    Fifo (2 ^ m - 1) q.stopFlag (contents q) (event m q (.push item)) (contents (q.pushStep m item).1) := by
  have hroom := h.room
  have horder := h.ring.carries.order
  have hp := h.producer
  cases he : q.push with
  | idle =>
      by_cases hstop : q.stopFlag = true
      · simp only [event, pushEvent, Queue.pushStep, he, if_pos hstop]
        exact .stopped _ _ hstop
      · simp only [event, pushEvent, Queue.pushStep, he, if_neg hstop]
        exact .silent _
  | loaded x t =>
      rw [he] at hp
      obtain rfl : t = q.ring.writeIdx := hp
      by_cases hfull : slot m (q.ring.writeIdx + 1) = slot m q.ring.readIdx
      · simp only [event, pushEvent, Queue.pushStep, he, if_pos hfull]
        apply Fifo.full
        rw [h.full_iff hm] at hfull
        rw [contents, List.length_drop]
        omega
      · simp only [event, pushEvent, Queue.pushStep, he, if_neg hfull]
        exact .silent _
  | written x t =>
      rw [he] at hp
      obtain ⟨-, hfree, -⟩ := hp
      simp only [event, pushEvent, Queue.pushStep, he, contents]
      rw [List.drop_append_of_le_length horder]
      apply Fifo.push
      rw [List.length_drop]
      omega
  | entered x | full x t k | room x t | published x =>
      simp only [event, pushEvent, Queue.pushStep, he]
      exact .silent _

theorem pop_refines (hm : m < 64) (call : Call) :
    Fifo (2 ^ m - 1) q.stopFlag (contents q) (event m q (.consume call)) (contents (q.popStep m call).1) := by
  have hc := h.ring.consumer
  obtain ⟨hput, hgot⟩ := popStep_lists (m := m) q call
  rw [contents, contents, hput, hgot, event, popEvent_eq h]
  cases hr : (take m q.ring q.pop.cursor).2.2 with
  | none =>
      simp only [received, List.append_nil]
      exact .silent _
  | some result =>
      cases result with
      | none =>
          rw [take_none hr] at hc
          have hempty := (h.ring.carries.empty_iff hm).mp (Eq.symm hc)
          simp only [received, List.append_nil, hempty, List.drop_length]
          exact .empty
      | some x =>
          obtain ⟨idx, hcopied⟩ := take_some hr
          rw [hcopied] at hc
          obtain ⟨hlt, hx⟩ := List.getElem?_eq_some_iff.mp hc.2
          simp only [received, List.length_append, List.length_singleton]
          rw [List.drop_eq_getElem_cons hlt, hx]
          exact .pop _ _

theorem step_refines (hm : m < 64) (hs : step m q a = some q') :
    Fifo (2 ^ m - 1) q.stopFlag (contents q) (event m q a) (contents q') := by
  cases a with
  | push item =>
      obtain rfl := Option.some.inj hs
      exact push_refines h hm item
  | consume call =>
      obtain rfl := Option.some.inj hs
      exact pop_refines h hm call
  | shutdown =>
      obtain rfl := Option.some.inj hs
      exact .silent _

end Refinement

section Results

theorem pushStep_false {item : T} (hf : (q.pushStep m item).2 = some false) :
    q.stopFlag = true ∨ ∃ x t k, q.push = .full x t k := by
  rw [Queue.pushStep] at hf
  split at hf
  next =>
    split at hf
    next hstop => exact .inl hstop
    next => simp at hf
  next => simp at hf
  next => split at hf <;> simp at hf
  next x t k he => exact .inr ⟨x, t, k, he⟩
  next => simp at hf
  next => simp at hf
  next => simp at hf

/-- What a call of the consumer returns with an access in the state `q`, given
what has been handed out then. It stops early only with a load of `tail` that
finds the buffer empty. -/
def Sound (q : Queue T) (handed : List T) : Result T → Prop
  | .pop none => q.ring.readIdx = q.ring.writeIdx
  | .pop (some item) => [item] <:+ handed
  | .popBatch max count appended =>
      count.toNat = appended.length ∧ count ≤ max ∧ appended <:+ handed ∧
        (count < max → q.ring.readIdx = q.ring.writeIdx)

theorem takeStep_result {batch : Option (Batch T)} {c : Take T 64} {r : Result T}
    (hb : ∀ b, batch = some b → b.Sound q.handed)
    (hc : c = .loaded q.ring.writeIdx → q.ring.readIdx = q.ring.writeIdx)
    (hr : (q.takeStep m batch c).2 = some r) : Sound q (q.takeStep m batch c).1.handed r := by
  rw [Queue.takeStep] at hr ⊢
  split at hr
  next => simp at hr
  next he =>
    have hempty := hc (take_none he)
    obtain rfl := Option.some.inj hr
    cases batch with
    | none => exact hempty
    | some b =>
        have hs := hb b rfl
        exact ⟨hs.count, BitVec.le_of_lt hs.bound, hs.order, fun _ => hempty⟩
  next => simp at hr

theorem countStep_result {batch : Option (Batch T)} {item : T} {r : Result T}
    (hb : ∀ b, batch = some b → b.Sound q.handed) (hr : (q.countStep batch item).2 = some r) :
    Sound q (q.countStep batch item).1.handed r := by
  rw [Queue.countStep.eq_def] at hr ⊢
  cases batch with
  | none =>
      obtain rfl := Option.some.inj hr
      exact List.suffix_append _ _
  | some b =>
      have hs := hb b rfl
      dsimp only at hr ⊢
      split at hr
      next => simp at hr
      next hge =>
        rw [if_neg hge]
        obtain rfl := Option.some.inj hr
        obtain ⟨front, hfront⟩ := hs.order
        refine ⟨?_, ?_, ⟨front, by rw [← List.append_assoc, hfront]⟩, fun hlt => absurd hlt hge⟩
        · rw [hs.count_add_one, List.length_append, List.length_singleton]
        · have hbound := hs.bound
          rw [BitVec.lt_def, hs.count] at hbound
          rw [BitVec.le_def, hs.count_add_one]
          exact hbound

theorem popStep_result (h : Inv m base q) {call : Call} {r : Result T} (hr : (q.popStep m call).2 = some r) :
    Sound q (q.popStep m call).1.handed r := by
  have hb := h.batch
  have hc := h.ring.consumer
  rw [Queue.popStep.eq_def] at hr ⊢
  cases he : q.pop with
  | idle =>
      simp only [he] at hr ⊢
      cases call with
      | pop => exact takeStep_result (by simp) (by simp) hr
      | popBatch max =>
          dsimp only at hr ⊢
          split at hr
          next hlt =>
            rw [if_pos hlt]
            refine takeStep_result (fun b hb => ?_) (by simp) hr
            obtain rfl := Option.some.inj hb
            exact ⟨rfl, hlt, List.nil_suffix⟩
          next hzero =>
            rw [if_neg hzero]
            obtain rfl := Option.some.inj hr
            exact ⟨rfl, BitVec.le_def.mpr (Nat.zero_le _), List.nil_suffix, fun hlt => absurd hlt hzero⟩
  | taking batch c =>
      rw [he] at hb hc
      simp only [he] at hr ⊢
      refine takeStep_result hb (fun hl => ?_) hr
      rw [hl] at hc
      exact Eq.symm hc
  | taken batch item =>
      rw [he] at hb
      simp only [he] at hr ⊢
      exact countStep_result hb hr

end Results

/-- Whatever the interleaving of a producer, a consumer and a shutdown, and
wherever the cursors start, the buffer is a FIFO of `2 ^ m - 1` elements. What
is handed out is a prefix of what was pushed, where a push counts as soon as its
store to `tail` is done: from there on it can only return true. -/
theorem ring_buffer_fifo (hm : m < 64) {buffer : Nat → T} {actions : List (Action T)}
    (hr : Runs.run (step m) (Queue.init buffer base) actions = some q) :
    q.size.toNat ≤ 2 ^ m - 1 ∧
      (contents q).length = q.size.toNat ∧
      (∀ a q', step m q a = some q' →
        Fifo (2 ^ m - 1) q.stopFlag (contents q) (event m q a) (contents q')) ∧
      q.handed <+: q.pushed ++ q.push.flight ∧
      (∀ x item, q.push = .published x → (q.pushStep m item).2 = some true) ∧
      (q.push = .idle → q.handed <+: q.pushed) ∧
      (∀ call r, (q.popStep m call).2 = some r → Sound q (q.popStep m call).1.handed r) ∧
      (∀ item, (q.pushStep m item).2 = some false →
        q.stopFlag = true ∨ ∃ x t h, q.push = .full x t h ∧ (t - h).toNat = 2 ^ m - 1) ∧
      (∀ x t, q.push = .loaded x t → t = q.ring.writeIdx ∧
        (slot m (t + 1) = slot m q.ring.readIdx ↔ q.size.toNat = 2 ^ m - 1)) ∧
      (q.push = .idle → q.pop = .idle → q.pushCount - q.popCount = q.size) := by
  have h := run_inv hm hr
  have hroom := h.room
  have horder := h.ring.carries.order
  have hlen := contents_length h hm
  have hhanded : q.handed <+: q.pushed ++ q.push.flight := by
    rw [← h.pushed]
    exact List.IsPrefix.trans ⟨_, h.handed.symm⟩ h.ring.ordered
  refine ⟨hlen ▸ contents_length_le h, hlen, fun a q' => step_refines h hm, hhanded, fun x item he => ?_, fun he => ?_,
    fun call r => popStep_result h, fun item hf => ?_, fun x t he => ?_, fun hpush hpop => ?_⟩
  · rw [Queue.pushStep, he]
  · rw [he] at hhanded
    exact hhanded.trans (by simp [Push.flight])
  · refine (pushStep_false hf).imp_right ?_
    rintro ⟨x, t, k, he⟩
    have hp := h.producer
    rw [he] at hp
    exact ⟨x, t, k, he, hp⟩
  · have hp := h.producer
    rw [he] at hp
    obtain rfl : t = q.ring.writeIdx := hp
    refine ⟨rfl, ?_⟩
    rw [h.full_iff hm, h.size_eq hm]
    omega
  · have hput := h.pushed
    have hgot := h.handed
    simp only [hpush, Push.flight, List.append_nil] at hput
    simp only [hpop, Pop.flight, List.append_nil] at hgot
    rw [h.pushCount, h.popCount, ← hput, ← hgot, Queue.size, h.ring.carries.writeIdx, h.ring.carries.readIdx, cursor,
      cursor]
    exact (add_sub_add_left_eq_sub _ _ base).symm

def wrapping : List (Action Nat) :=
  [List.replicate 6 (.push 5), List.replicate 6 (.push 6), List.replicate 6 (.push 7), List.replicate 4 (.push 8),
    List.replicate 10 (.consume (.popBatch 2))].flatten

theorem ring_buffer_fifo_wrapping :
    ∃ q, Runs.run (step 2) (Queue.init (fun _ => 0) (BitVec.allOnes 64)) wrapping = some q ∧
      q.pushed = [5, 6, 7] ∧ q.handed = [5, 6] ∧ q.pushRejects = 1 ∧ q.size = 1 ∧
      q.pushCount - q.popCount = q.size ∧ q.handed <+: q.pushed := by
  have hrun : ∃ q, Runs.run (step 2) (Queue.init (fun _ => 0) (BitVec.allOnes 64)) wrapping = some q ∧
      q.pushed = [5, 6, 7] ∧ q.handed = [5, 6] ∧ q.pushRejects = 1 ∧ q.size = 1 ∧ q.push = .idle ∧ q.pop = .idle :=
    ⟨_, rfl, rfl, rfl, rfl, rfl, rfl, rfl⟩
  obtain ⟨q, hr, hpushed, hhanded, hrejects, hsize, hpush, hpop⟩ := hrun
  obtain ⟨-, -, -, -, -, hprefix, -, -, -, hcount⟩ := ring_buffer_fifo (by decide) hr
  exact ⟨q, hr, hpushed, hhanded, hrejects, hsize, hcount hpush hpop, hprefix hpush⟩

/-- An item is handed out while its push has stored `tail` and has yet to count
itself and return. -/
theorem handed_before_return :
    ∃ q, Runs.run (step 1) (Queue.init (fun _ => 0) 0)
        (List.replicate 5 (.push 5) ++ List.replicate 5 (.consume .pop)) = some q ∧
      q.push = .published 5 ∧ q.handed = [5] ∧ ¬ q.handed <+: q.pushed := by
  have hrun : ∃ q, Runs.run (step 1) (Queue.init (fun _ => 0) 0)
      (List.replicate 5 (.push 5) ++ List.replicate 5 (.consume .pop)) = some q ∧
      q.push = .published 5 ∧ q.handed = [5] ∧ q.pushed = [] := ⟨_, rfl, rfl, rfl, rfl⟩
  obtain ⟨q, hr, hpush, hhanded, hpushed⟩ := hrun
  refine ⟨q, hr, hpush, hhanded, ?_⟩
  rw [hhanded, hpushed]
  decide

section Size

/-- A buffer with a third thread that calls `size()`: the value of `tail` that
the call in progress has loaded, with the number of items published by then, and
the results of the calls that have ended. -/
structure Observed (T : Type) where
  queue : Queue T
  loaded : Option (BitVec 64 × Nat)
  sizes : List (BitVec 64)

def Observed.init (buffer : Nat → T) (base : BitVec 64) : Observed T := ⟨.init buffer base, none, []⟩

inductive Access (T : Type)
  | queue (action : Action T)
  | size

def observe (m : Nat) (s : Observed T) : Access T → Option (Observed T)
  | .queue action => (step m s.queue action).map fun q => { s with queue := q }
  | .size =>
      match s.loaded with
      | none => some { s with loaded := some (s.queue.ring.writeIdx, s.queue.put.length) }
      | some (t, _) => some { s with loaded := none, sizes := s.sizes ++ [t - s.queue.ring.readIdx] }

/-- The second load of `size()` finds that `head` has passed the value of
`tail` that was loaded first. Passing it by nearly `2 ^ 64` items, or by a
multiple of that, does not show. -/
def Overtaken (m : Nat) (s : Observed T) (a : Access T) : Prop :=
  ∃ t n, a = .size ∧ s.loaded = some (t, n) ∧ 0 < (s.queue.got.length - n) % 2 ^ 64 ∧
    (s.queue.got.length - n) % 2 ^ 64 ≤ 2 ^ 64 - 2 ^ m

structure Watches (m : Nat) (base : BitVec 64) (s : Observed T) : Prop where
  queue : Inv m base s.queue
  loaded : ∀ t n, s.loaded = some (t, n) → t = cursor base n ∧ n ≤ s.queue.put.length

theorem cursor_sub_le_iff (base : BitVec 64) (hm : m < 64) {n k : Nat} (hn : n - k < 2 ^ m) :
    (cursor base n - cursor base k).toNat ≤ 2 ^ m - 1 ↔
      ¬ (0 < (k - n) % 2 ^ 64 ∧ (k - n) % 2 ^ 64 ≤ 2 ^ 64 - 2 ^ m) := by
  have hpow := Nat.pow_lt_pow_right Nat.one_lt_two hm
  rcases Nat.le_total k n with hle | hle
  · rw [cursor_sub base hle (by omega), Nat.sub_eq_zero_of_le hle]
    omega
  · obtain ⟨d, rfl⟩ := Nat.exists_eq_add_of_le hle
    have hneg : cursor base n - cursor base (n + d) = - BitVec.ofNat 64 d := by
      rw [← cursor_add]
      exact sub_add_cancel_left _ _
    rw [hneg, BitVec.toNat_neg, BitVec.toNat_ofNat, Nat.add_sub_cancel_left]
    omega

theorem step_put (hs : step m q a = some q') : q.put <+: q'.put := by
  cases a with
  | push item =>
      obtain rfl := Option.some.inj hs
      rw [Queue.pushStep]
      split
      next => split <;> exact List.prefix_rfl
      next => exact List.prefix_rfl
      next => split <;> exact List.prefix_rfl
      next => exact List.prefix_rfl
      next => exact List.prefix_rfl
      next => exact List.prefix_append _ _
      next => exact List.prefix_rfl
  | consume call =>
      obtain rfl := Option.some.inj hs
      rw [(popStep_lists q call).1]
  | shutdown => exact Option.some.inj hs ▸ List.prefix_rfl

variable {s s' : Observed T} {b : Access T}

theorem observe_cases (hs : observe m s b = some s') :
    (∃ action q, b = .queue action ∧ step m s.queue action = some q ∧ s' = { s with queue := q }) ∨
      (b = .size ∧ s.loaded = none ∧
        s' = { s with loaded := some (s.queue.ring.writeIdx, s.queue.put.length) }) ∨
      ∃ t n, b = .size ∧ s.loaded = some (t, n) ∧
        s' = { s with loaded := none, sizes := s.sizes ++ [t - s.queue.ring.readIdx] } := by
  cases b with
  | queue action =>
      obtain ⟨q, hq, rfl⟩ := Option.map_eq_some_iff.mp hs
      exact .inl ⟨action, q, rfl, hq, rfl⟩
  | size =>
      rw [observe] at hs
      split at hs
      next hl => exact .inr (.inl ⟨rfl, hl, (Option.some.inj hs).symm⟩)
      next t n hl => exact .inr (.inr ⟨t, n, rfl, hl, (Option.some.inj hs).symm⟩)

theorem observe_watches (hm : m < 64) (h : Watches m base s) (hs : observe m s b = some s') : Watches m base s' := by
  rcases observe_cases hs with ⟨action, q, rfl, hq, rfl⟩ | ⟨rfl, -, rfl⟩ | ⟨t, n, rfl, -, rfl⟩
  · refine ⟨step_inv hm h.queue hq, fun t n hl => ?_⟩
    obtain ⟨ht, hn⟩ := h.loaded t n hl
    exact ⟨ht, Nat.le_trans hn (step_put hq).length_le⟩
  · refine ⟨h.queue, fun t n hl => ?_⟩
    obtain ⟨rfl, rfl⟩ := Prod.mk.inj (Option.some.inj hl)
    exact ⟨h.queue.ring.carries.writeIdx, Nat.le_refl _⟩
  · exact ⟨h.queue, by simp⟩

theorem size_le_iff (hm : m < 64) (h : Watches m base s) {t : BitVec 64} {n : Nat} (hl : s.loaded = some (t, n)) :
    (t - s.queue.ring.readIdx).toNat ≤ 2 ^ m - 1 ↔ ¬ Overtaken m s .size := by
  obtain ⟨rfl, hn⟩ := h.loaded t n hl
  have hroom := h.queue.room
  have hpos := Nat.two_pow_pos m
  rw [h.queue.ring.carries.readIdx, cursor_sub_le_iff base hm (by omega), not_iff_not]
  constructor
  · exact fun hd => ⟨_, n, rfl, hl, hd⟩
  · rintro ⟨t', n', -, hl', hd⟩
    obtain ⟨-, rfl⟩ := Prod.mk.inj (Option.some.inj (hl.symm.trans hl'))
    exact hd

def Plausible (m : Nat) (s : Observed T) : Prop := ∀ v ∈ s.sizes, v.toNat ≤ 2 ^ m - 1

theorem observe_plausible_iff (hm : m < 64) (h : Watches m base s) (hs : observe m s b = some s') :
    Plausible m s' ↔ Plausible m s ∧ ¬ Overtaken m s b := by
  rcases observe_cases hs with ⟨action, q, rfl, -, rfl⟩ | ⟨rfl, hl, rfl⟩ | ⟨t, n, rfl, hl, rfl⟩
  · exact ⟨fun hp => ⟨hp, by simp [Overtaken]⟩, fun hp => hp.1⟩
  · exact ⟨fun hp => ⟨hp, by simp [Overtaken, hl]⟩, fun hp => hp.1⟩
  · rw [← size_le_iff hm h hl, Plausible, List.forall_mem_append, List.forall_mem_singleton]
    rfl

/-- Every value that `size()` has returned is at most `2 ^ m - 1`, exactly if
no call of it was overtaken by the consumer between its two loads. -/
theorem sizes_plausible_iff (hm : m < 64) {buffer : Nat → T} {accesses : List (Access T)}
    (hr : Runs.run (observe m) (Observed.init buffer base) accesses = some s) :
    (∀ v ∈ s.sizes, v.toNat ≤ 2 ^ m - 1) ↔
      Runs.Along (observe m) (fun s b => ¬ Overtaken m s b) (Observed.init buffer base) accesses := by
  have hinit : Watches m base (Observed.init buffer base) := ⟨init_inv m buffer base, by simp [Observed.init]⟩
  have hstep : ∀ (s : Observed T) b s', Watches m base s → observe m s b = some s' →
      (Plausible m s' ↔ Plausible m s ∧ ¬ Overtaken m s b) := fun _ _ _ => observe_plausible_iff hm
  have hiff := Runs.good_iff_along (fun _ _ _ => observe_watches hm) hstep hinit hr
  rw [Plausible] at hiff
  rw [hiff]
  exact and_iff_right (by simp [Plausible, Observed.init])

def passage : List (Access Nat) :=
  [List.replicate 6 (.queue (.push 5)), List.replicate 5 (.queue (.consume .pop))].flatten

theorem sizes_plausible_iff_passage :
    ∃ s, Runs.run (observe 1) (Observed.init (fun _ => 0) 0) (passage ++ [.size, .size]) = some s ∧ s.sizes = [0] ∧
      Runs.Along (observe 1) (fun s b => ¬ Overtaken 1 s b) (Observed.init (fun _ => 0) 0)
        (passage ++ [.size, .size]) := by
  have hrun : ∃ s, Runs.run (observe 1) (Observed.init (fun _ => 0) 0) (passage ++ [.size, .size]) = some s ∧
      s.sizes = [0] := ⟨_, rfl, rfl⟩
  obtain ⟨s, hr, hsizes⟩ := hrun
  refine ⟨s, hr, hsizes, (sizes_plausible_iff (by decide) hr).mp ?_⟩
  simp [hsizes]

/-- `size()` loads `tail`, an element passes through the buffer, and `size()`
loads `head`: the result is the largest value there is. -/
theorem size_overtaken :
    ∃ s, Runs.run (observe 1) (Observed.init (fun _ => 0) 0) (.size :: passage ++ [.size]) = some s ∧
      s.sizes = [BitVec.allOnes 64] ∧ ¬ ∀ v ∈ s.sizes, v.toNat ≤ 2 ^ 1 - 1 := by
  have hrun : ∃ s, Runs.run (observe 1) (Observed.init (fun _ => 0) 0) (.size :: passage ++ [.size]) = some s ∧
      s.sizes = [BitVec.allOnes 64] := ⟨_, rfl, rfl⟩
  obtain ⟨s, hr, hsizes⟩ := hrun
  refine ⟨s, hr, hsizes, ?_⟩
  rw [hsizes, List.forall_mem_singleton]
  decide

end Size

end Sequitur.RingFifo
