import Sequitur.SPSCQueue
import Sequitur.Runs

namespace Sequitur.BoundedFifo

open Rings SPSCQueue

variable {T : Type}

/-- The next access of `push`, of the given item if no call is in progress, the
next access of `pop`, or the store of `shutdown`. -/
inductive Action (T : Type)
  | push (item : T)
  | pop
  | shutdown

def step (m : Nat) (q : Queue T) : Action T → Option (Queue T)
  | .push item => some (q.pushStep m item).1
  | .pop => some (q.popStep m).1
  | .shutdown => some { q with stopFlag := true }

inductive Event (T : Type)
  | silent
  | push (item : T) (ok : Bool)
  | pop (item : Option T)

def event (m : Nat) (q : Queue T) : Action T → Event T
  | .push item =>
      match (q.pushStep m item).2 with
      | none => .silent
      | some ok => .push (q.push.item.getD item) ok
  | .pop =>
      match (q.popStep m).2 with
      | none => .silent
      | some item => .pop item
  | .shutdown => .silent

def contents (q : Queue T) : List T := q.pushed.drop q.popped.length

/-- A queue of bounded capacity in which every call is one step. A push fails
if the queue is full or stopped, and a pop if it is empty. -/
inductive Fifo (capacity : Nat) (stopped : Bool) : List T → Event T → List T → Prop
  | silent (l : List T) : Fifo capacity stopped l .silent l
  | push (l : List T) (x : T) (h : l.length < capacity) : Fifo capacity stopped l (.push x true) (l ++ [x])
  | full (l : List T) (x : T) (h : l.length = capacity) : Fifo capacity stopped l (.push x false) l
  | stopped (l : List T) (x : T) (h : stopped = true) : Fifo capacity stopped l (.push x false) l
  | pop (l : List T) (x : T) : Fifo capacity stopped (x :: l) (.pop (some x)) l
  | empty : Fifo capacity stopped [] (.pop none) []

variable {m : Nat} {base : BitVec 64} {q q' : Queue T} {a : Action T}

theorem step_inv (hm : m < 64) (h : Inv m base q) (hs : step m q a = some q') : Inv m base q' := by
  cases a with
  | push item =>
      obtain rfl := Option.some.inj hs
      exact pushStep_inv h hm item
  | pop =>
      obtain rfl := Option.some.inj hs
      exact popStep_inv h hm
  | shutdown =>
      obtain rfl := Option.some.inj hs
      exact ⟨h.ring, h.cached, h.producer⟩

theorem pushStep_false {item : T} (hf : (q.pushStep m item).2 = some false) :
    q.stopFlag = true ∨ ∃ x t, q.push = .full x t ∧ 2 ^ m ≤ (t - q.ring.readIdx).toNat := by
  rw [Queue.pushStep] at hf
  split at hf
  next =>
    split at hf
    next hstop => exact .inl hstop
    next => simp at hf
  next => split at hf <;> simp at hf
  next x t he =>
    split at hf
    next hfull => exact .inr ⟨x, t, he, hfull⟩
    next => simp at hf
  next => simp at hf
  next => simp at hf

theorem take_none {r : Ring T 64} {c : Take T 64} (hn : (take m r c).2.2 = some none) : c = .loaded r.writeIdx := by
  cases c with
  | loaded idx =>
      rw [take] at hn
      split at hn
      next he => rw [he]
      next => simp at hn
  | idle | nonempty idx | copied idx x => simp [take] at hn

section Cursors

variable (h : Inv m base q)

include h

theorem contents_length (hm : m < 64) : (contents q).length = (q.ring.writeIdx - q.ring.readIdx).toNat := by
  rw [contents, List.length_drop, h.ring.carries.distance hm]

theorem contents_length_le : (contents q).length ≤ 2 ^ m := by
  rw [contents, List.length_drop]
  exact Nat.sub_le_iff_le_add'.mpr h.ring.carries.room

theorem cursors_ordered (hm : m < 64) :
    (q.ring.readIdx - q.cachedHead).toNat + (q.ring.writeIdx - q.ring.readIdx).toNat =
      (q.ring.writeIdx - q.cachedHead).toNat ∧ (q.ring.writeIdx - q.cachedHead).toNat ≤ 2 ^ m := by
  obtain ⟨k, hk, hc, hroom⟩ := h.cached
  have hpow := Nat.pow_lt_pow_right Nat.one_lt_two hm
  have horder := h.ring.carries.order
  rw [h.ring.carries.distance hm, h.ring.carries.readIdx, h.ring.carries.writeIdx, hc,
    cursor_sub base hk (by omega), cursor_sub base (by omega) (by omega)]
  omega

theorem room_of_pending {x : T} (hp : q.push.pending = [x]) : q.pushed.length < q.popped.length + 2 ^ m := by
  obtain ⟨k, hk, -, hroom⟩ := h.cached
  rw [hp, List.length_singleton] at hroom
  omega

theorem slot_free (hm : m < 64) {x : T} {t : BitVec 64} (hp : q.push = .room x t) {k : Nat}
    (hk : k < (q.ring.writeIdx - q.ring.readIdx).toNat) :
    slot m (q.ring.readIdx + BitVec.ofNat 64 k) ≠ slot m t := by
  have hroom := room_of_pending h (x := x) (by rw [hp]; rfl)
  have ht := h.producer
  rw [hp] at ht
  rw [h.ring.carries.distance hm] at hk
  rw [show t = q.ring.writeIdx from ht, h.ring.carries.readIdx, h.ring.carries.writeIdx, cursor_add]
  apply slot_cursor_ne base (Nat.le_of_lt hm) <;> omega

theorem push_refines (hm : m < 64) (item : T) :
    Fifo (2 ^ m) q.stopFlag (contents q) (event m q (.push item)) (contents (q.pushStep m item).1) := by
  have hlen := contents_length h hm
  have hle := contents_length_le h
  have hpending : ∀ x, q.push.pending = [x] → (contents q).length < 2 ^ m := by
    intro x hx
    have hroom := room_of_pending h hx
    have horder := h.ring.carries.order
    rw [contents, List.length_drop]
    omega
  obtain ⟨hring, -, hp⟩ := h
  obtain ⟨ring, cachedHead, stopFlag, push, pop, pushed, popped⟩ := q
  cases push with
  | idle =>
      cases stopFlag with
      | true => exact .stopped _ _ rfl
      | false => exact .silent _
  | entered x =>
      by_cases hc : 2 ^ m ≤ (ring.writeIdx - cachedHead).toNat
      · simp only [event, Queue.pushStep, if_pos hc]
        exact .silent _
      · simp only [event, Queue.pushStep, if_neg hc]
        exact .silent _
  | full x t =>
      obtain rfl : t = ring.writeIdx := hp
      by_cases hfull : 2 ^ m ≤ (ring.writeIdx - ring.readIdx).toNat
      · simp only [event, Queue.pushStep, if_pos hfull]
        apply Fifo.full
        exact Nat.le_antisymm hle (hlen ▸ hfull)
      · simp only [event, Queue.pushStep, if_neg hfull]
        exact .silent _
  | room x t => exact .silent _
  | written x t =>
      have hnext : contents (Queue.pushStep m ⟨ring, cachedHead, stopFlag, .written x t, pop, pushed, popped⟩
          item).1 = pushed.drop popped.length ++ [x] := List.drop_append_of_le_length hring.carries.order
      rw [hnext]
      exact Fifo.push _ _ (hpending x rfl)

theorem pop_refines (hm : m < 64) :
    Fifo (2 ^ m) q.stopFlag (contents q) (event m q .pop) (contents (q.popStep m).1) := by
  have hlen := contents_length h hm
  obtain ⟨hring, -, -⟩ := h
  have hc := hring.consumer
  obtain ⟨ring, cachedHead, stopFlag, push, pop, pushed, popped⟩ := q
  cases pop with
  | idle =>
      simp only [event, Queue.popStep, take, contents, received, List.append_nil]
      exact .silent _
  | loaded idx =>
      obtain rfl : idx = ring.readIdx := hc
      by_cases hempty : ring.readIdx = ring.writeIdx
      · dsimp only at hlen
        rw [hempty, BitVec.sub_self, BitVec.toNat_zero] at hlen
        have hnil : pushed.drop popped.length = [] := List.eq_nil_of_length_eq_zero hlen
        simp only [event, Queue.popStep, take, if_pos hempty, contents, received, List.append_nil, hnil]
        exact .empty
      · simp only [event, Queue.popStep, take, if_neg hempty, contents, received, List.append_nil]
        exact .silent _
  | nonempty idx =>
      simp only [event, Queue.popStep, take, contents, received, List.append_nil]
      exact .silent _
  | copied idx x =>
      obtain ⟨hlt, hx⟩ := List.getElem?_eq_some_iff.mp hc.2
      have hfront : pushed.drop popped.length = x :: pushed.drop (popped.length + 1) := by
        rw [← hx]
        exact List.drop_eq_getElem_cons hlt
      simp only [event, Queue.popStep, take, contents, received, List.length_append, List.length_singleton]
      rw [hfront]
      exact .pop _ _

theorem step_refines (hm : m < 64) (hs : step m q a = some q') :
    Fifo (2 ^ m) q.stopFlag (contents q) (event m q a) (contents q') := by
  cases a with
  | push item =>
      obtain rfl := Option.some.inj hs
      exact push_refines h hm item
  | pop =>
      obtain rfl := Option.some.inj hs
      exact pop_refines h hm
  | shutdown =>
      obtain rfl := Option.some.inj hs
      exact .silent _

end Cursors

/-- Whatever the interleaving of a producer, a consumer and a shutdown, and
wherever the cursors start, the queue is a FIFO of `2 ^ m` elements: its cursors
keep their order, pops return a prefix of what was pushed, every access refines
the bounded queue, and no slot is written while its element is unread. -/
theorem queue_bounded_fifo (hm : m < 64) {buffer : Nat → T} {actions : List (Action T)}
    (hr : Runs.run (step m) (Queue.init buffer base) actions = some q) :
    ((q.ring.readIdx - q.cachedHead).toNat + (q.ring.writeIdx - q.ring.readIdx).toNat =
        (q.ring.writeIdx - q.cachedHead).toNat ∧ (q.ring.writeIdx - q.cachedHead).toNat ≤ 2 ^ m) ∧
      q.popped <+: q.pushed ∧
      (contents q).length = (q.ring.writeIdx - q.ring.readIdx).toNat ∧
      (∀ a q', step m q a = some q' →
        Fifo (2 ^ m) q.stopFlag (contents q) (event m q a) (contents q')) ∧
      (∀ item, (q.pushStep m item).2 = some false →
        q.stopFlag = true ∨ (∃ x t, q.push = .full x t) ∧ (q.ring.writeIdx - q.ring.readIdx).toNat = 2 ^ m) ∧
      ((q.popStep m).2 = some none → q.ring.readIdx = q.ring.writeIdx) ∧
      ∀ x t, q.push = .room x t → ∀ k < (q.ring.writeIdx - q.ring.readIdx).toNat,
        slot m (q.ring.readIdx + BitVec.ofNat 64 k) ≠ slot m t := by
  have h : Inv m base q := Runs.run_invariant (fun _ _ _ => step_inv hm) (init_inv m buffer base) hr
  refine ⟨cursors_ordered h hm, h.ring.ordered, contents_length h hm, fun a q' => step_refines h hm,
    fun item hf => ?_, fun hn => ?_, fun x t hp k hk => slot_free h hm hp hk⟩
  · rcases pushStep_false hf with hstop | ⟨x, t, he, hfull⟩
    · exact .inl hstop
    · have hp := h.producer
      rw [he] at hp
      obtain rfl : t = q.ring.writeIdx := hp
      have hle := contents_length_le h
      rw [contents_length h hm] at hle
      exact .inr ⟨⟨x, _, he⟩, Nat.le_antisymm hle hfull⟩
  · have hc := h.ring.consumer
    rw [take_none hn] at hc
    exact hc.symm

def wrapping : List (Action Nat) :=
  [.push 5, .push 5, .push 5, .push 5, .push 6, .push 6, .push 6, .push 6, .push 7, .push 7, .push 7,
    .pop, .pop, .pop, .pop, .push 8]

theorem queue_bounded_fifo_wrapping :
    ∃ q, Runs.run (step 1) (Queue.init (fun _ => 0) (BitVec.allOnes 64)) wrapping = some q ∧ q.pushed = [5, 6] ∧
      q.popped = [5] ∧ q.popped <+: q.pushed ∧ (contents q).length = (q.ring.writeIdx - q.ring.readIdx).toNat := by
  have hrun : ∃ q, Runs.run (step 1) (Queue.init (fun _ => 0) (BitVec.allOnes 64)) wrapping = some q ∧
      q.pushed = [5, 6] ∧ q.popped = [5] := ⟨_, rfl, rfl, rfl⟩
  obtain ⟨q, hr, hpushed, hpopped⟩ := hrun
  obtain ⟨-, hprefix, hlen, -⟩ := queue_bounded_fifo (by decide) hr
  exact ⟨q, hr, hpushed, hpopped, hprefix, hlen⟩

end Sequitur.BoundedFifo
