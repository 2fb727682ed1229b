import Sequitur.Rings

namespace Sequitur.SPSCQueue

open Rings

variable {T : Type}

inductive Push (T : Type)
  | idle
  | entered (item : T)
  | full (item : T) (t : BitVec 64)
  | room (item : T) (t : BitVec 64)
  | written (item : T) (t : BitVec 64)

/-- An `SPSCQueue` with its producer and its consumer: `head_` and `tail_` are
the cursors of the ring. `pushed` records the items whose push returned true,
`popped` those that pop has returned. -/
structure Queue (T : Type) where
  ring : Ring T 64
  cachedHead : BitVec 64
  stopFlag : Bool
  push : Push T
  pop : Take T 64
  pushed : List T
  popped : List T

def Queue.init (buffer : Nat → T) (base : BitVec 64) : Queue T :=
  ⟨⟨buffer, base, base⟩, base, false, .idle, .idle, [], []⟩

/-- The next access of `push(item)` in a queue of capacity `2 ^ m`, with the
result if the call has ended. -/
def Queue.pushStep (m : Nat) (q : Queue T) (item : T) : Queue T × Option Bool :=
  match q.push with
  | .idle => if q.stopFlag then (q, some false) else ({ q with push := .entered item }, none)
  | .entered item =>
      if 2 ^ m ≤ (q.ring.writeIdx - q.cachedHead).toNat then ({ q with push := .full item q.ring.writeIdx }, none)
      else ({ q with push := .room item q.ring.writeIdx }, none)
  | .full item t =>
      if 2 ^ m ≤ (t - q.ring.readIdx).toNat then
        ({ q with cachedHead := q.ring.readIdx, push := .idle }, some false)
      else ({ q with cachedHead := q.ring.readIdx, push := .room item t }, none)
  | .room item t =>
      ({ q with ring := { q.ring with buf := Function.update q.ring.buf (slot m t) item }
                push := .written item t }, none)
  | .written item t =>
      ({ q with ring := { q.ring with writeIdx := t + 1 }
                push := .idle
                pushed := q.pushed ++ [item] }, some true)

theorem pushStep_frame (m : Nat) (q : Queue T) (item : T) :
    (q.pushStep m item).1.popped = q.popped ∧ (q.pushStep m item).1.ring.readIdx = q.ring.readIdx := by
  rw [Queue.pushStep]
  split
  · split <;> exact ⟨rfl, rfl⟩
  · split <;> exact ⟨rfl, rfl⟩
  · split <;> exact ⟨rfl, rfl⟩
  · exact ⟨rfl, rfl⟩
  · exact ⟨rfl, rfl⟩

@[simp] theorem pushStep_popped (m : Nat) (q : Queue T) (item : T) : (q.pushStep m item).1.popped = q.popped :=
  (pushStep_frame m q item).1

@[simp] theorem pushStep_readIdx (m : Nat) (q : Queue T) (item : T) :
    (q.pushStep m item).1.ring.readIdx = q.ring.readIdx :=
  (pushStep_frame m q item).2

def Push.item : Push T → Option T
  | .idle => none
  | .entered item | .full item _ | .room item _ | .written item _ => some item

theorem pushStep_item (m : Nat) {q : Queue T} {x : T} (h : ∀ y, q.push.item = some y → y = x) :
    (∀ y, (q.pushStep m x).1.push.item = some y → y = x) ∧
      if (q.pushStep m x).2 = some true then
        (q.pushStep m x).1.pushed = q.pushed ++ [x] ∧ (q.pushStep m x).1.push.item = none
      else (q.pushStep m x).1.pushed = q.pushed := by
  rw [Queue.pushStep]
  split
  next he => split <;> simp [Push.item, he]
  next y he =>
    obtain rfl := h y (by rw [he]; rfl)
    split <;> simp [Push.item]
  next y t he =>
    obtain rfl := h y (by rw [he]; rfl)
    split <;> simp [Push.item]
  next y t he =>
    obtain rfl := h y (by rw [he]; rfl)
    simp [Push.item]
  next y t he =>
    obtain rfl := h y (by rw [he]; rfl)
    simp [Push.item]

@[simp] theorem pushStep_stopFlag (m : Nat) (q : Queue T) (item : T) :
    (q.pushStep m item).1.stopFlag = q.stopFlag := by
  rw [Queue.pushStep]
  split
  · split <;> rfl
  · split <;> rfl
  · split <;> rfl
  · rfl
  · rfl

def Push.rank : Push T → Nat
  | .idle => 4
  | .entered _ => 3
  | .full _ _ => 2
  | .room _ _ => 1
  | .written _ _ => 0

theorem pushStep_rank (m : Nat) (q : Queue T) (item : T) :
    if (q.pushStep m item).2 = none then (q.pushStep m item).1.push.rank < q.push.rank
    else (q.pushStep m item).1.push = .idle := by
  rw [Queue.pushStep]
  split
  next hp => split <;> simp [hp, Push.rank]
  next hp => split <;> simp [hp, Push.rank]
  next hp => split <;> simp [hp, Push.rank]
  next hp => simp [hp, Push.rank]
  next hp => simp

def Queue.popStep (m : Nat) (q : Queue T) : Queue T × Option (Option T) :=
  let r := take m q.ring q.pop
  ({ q with ring := r.1, pop := r.2.1, popped := q.popped ++ received r.2.2 }, r.2.2)

def Push.pending : Push T → List T
  | .room item _ | .written item _ => [item]
  | _ => []

def Push.Sound (m : Nat) (r : Ring T 64) : Push T → Prop
  | .idle | .entered _ => True
  | .full _ t | .room _ t => t = r.writeIdx
  | .written item t => t = r.writeIdx ∧ r.buf (slot m r.writeIdx) = item

/-- `cached_head_` is a value that `head_` had, late enough to leave room for
what was pushed and what is about to be. -/
structure Inv (m : Nat) (base : BitVec 64) (q : Queue T) : Prop where
  ring : Consumes m base q.ring q.pop q.pushed q.popped
  cached : ∃ k ≤ q.popped.length, q.cachedHead = cursor base k ∧
    q.pushed.length + q.push.pending.length ≤ k + 2 ^ m
  producer : q.push.Sound m q.ring

variable {m : Nat} {base : BitVec 64} {q : Queue T}

theorem init_inv (m : Nat) (buffer : Nat → T) (base : BitVec 64) : Inv m base (Queue.init buffer base) :=
  ⟨.init m buffer base, ⟨0, Nat.le_refl _, (cursor_zero base).symm, Nat.zero_le _⟩, trivial⟩

theorem Push.Sound.congr {p : Push T} {r r' : Ring T 64} (h : p.Sound m r) (hb : r'.buf = r.buf)
    (hw : r'.writeIdx = r.writeIdx) : p.Sound m r' := by
  cases p with
  | idle | entered item => trivial
  | full item t | room item t => exact h.trans hw.symm
  | written item t => exact ⟨h.1.trans hw.symm, by rw [hb, hw]; exact h.2⟩

theorem popStep_inv (h : Inv m base q) (hm : m < 64) : Inv m base (q.popStep m).1 := by
  obtain ⟨k, hk, hc, hroom⟩ := h.cached
  refine ⟨h.ring.take hm, ⟨k, ?_, hc, hroom⟩, h.producer.congr (take_buf ..) (take_writeIdx ..)⟩
  exact Nat.le_trans hk (by simp [Queue.popStep])

theorem pushStep_inv (h : Inv m base q) (hm : m < 64) (item : T) : Inv m base (q.pushStep m item).1 := by
  obtain ⟨hring, ⟨k, hk, hc, hroom⟩, hp⟩ := h
  have hpow := Nat.pow_lt_pow_right Nat.one_lt_two hm
  have horder := hring.carries.order
  rw [Queue.pushStep]
  split
  next he =>
    split
    next => exact ⟨hring, ⟨k, hk, hc, hroom⟩, hp⟩
    next => exact ⟨hring, ⟨k, hk, hc, by simpa [he, Push.pending] using hroom⟩, trivial⟩
  next item he =>
    rw [he] at hroom
    simp only [Push.pending, List.length_nil, Nat.add_zero] at hroom
    split
    next => exact ⟨hring, ⟨k, hk, hc, by simpa [Push.pending] using hroom⟩, rfl⟩
    next hlt =>
      rw [hring.carries.writeIdx, hc, cursor_sub base (by omega) (by omega)] at hlt
      refine ⟨hring, ⟨k, hk, hc, ?_⟩, rfl⟩
      simp only [Push.pending, List.length_singleton]
      omega
  next item t he =>
    rw [he] at hp
    obtain rfl : t = q.ring.writeIdx := hp
    split
    next => exact ⟨hring, ⟨_, Nat.le_refl _, hring.carries.readIdx, hring.carries.room⟩, trivial⟩
    next hlt =>
      rw [hring.carries.distance hm] at hlt
      refine ⟨hring, ⟨_, Nat.le_refl _, hring.carries.readIdx, ?_⟩, rfl⟩
      simp only [Push.pending, List.length_singleton]
      omega
  next item t he =>
    rw [he] at hp hroom
    obtain rfl : t = q.ring.writeIdx := hp
    simp only [Push.pending, List.length_singleton] at hroom
    exact ⟨hring.fill (by omega) (by omega) item, ⟨k, hk, hc, hroom⟩, rfl, Function.update_self ..⟩
  next item t he =>
    rw [he] at hp hroom
    obtain ⟨rfl, hx⟩ := hp
    simp only [Push.pending, List.length_singleton] at hroom
    refine ⟨hring.publish (by omega) hx, ⟨k, hk, hc, ?_⟩, trivial⟩
    simpa [Push.pending] using hroom

theorem pushStep_ne_false (h : Inv m base q) (hm : m < 64) (hf : q.stopFlag = false)
    (hroom : q.pushed.length < q.popped.length + 2 ^ m) (item : T) : (q.pushStep m item).2 ≠ some false := by
  have hprod := h.producer
  rw [Queue.pushStep]
  split
  next => simp [hf]
  next => split <;> simp
  next x t hp =>
    rw [hp] at hprod
    obtain rfl : t = q.ring.writeIdx := hprod
    have hdist := h.ring.carries.distance hm
    have hpos := Nat.two_pow_pos m
    have hlt : ¬ 2 ^ m ≤ (q.ring.writeIdx - q.ring.readIdx).toNat := by omega
    rw [if_neg hlt]
    simp
  next => simp
  next => simp

end Sequitur.SPSCQueue
