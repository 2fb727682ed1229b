import Sequitur.Rings

namespace Sequitur.RingBuffer

open Rings

variable {T : Type}

inductive Push (T : Type)
  | idle
  | entered (item : T)
  | loaded (item : T) (t : BitVec 64)
  | full (item : T) (t h : BitVec 64)
  | room (item : T) (t : BitVec 64)
  | written (item : T) (t : BitVec 64)
  | published (item : T)

structure Batch (T : Type) where
  max : BitVec 64
  count : BitVec 64
  appended : List T

inductive Pop (T : Type)
  | idle
  | taking (batch : Option (Batch T)) (c : Take T 64)
  | taken (batch : Option (Batch T)) (item : T)

/-- A `RingBuffer` with its producer and its consumer: `head` and `tail` are
the cursors of the ring. `put` records the items that were published by a store
to `tail`, `got` those that a store to `head` has released, `pushed` the items
whose push returned true, and `handed` those that were handed out. -/
structure Queue (T : Type) where
  ring : Ring T 64
  stopFlag : Bool
  pushCount : BitVec 64
  pushRejects : BitVec 64
  popCount : BitVec 64
  push : Push T
  pop : Pop T
  put : List T
  got : List T
  pushed : List T
  handed : List T

def Queue.init (buffer : Nat → T) (base : BitVec 64) : Queue T :=
  ⟨⟨buffer, base, base⟩, false, 0, 0, 0, .idle, .idle, [], [], [], []⟩

/-- The next access of `push(item)` in a buffer of capacity `2 ^ m`, with the
result if the call has ended. -/
def Queue.pushStep (m : Nat) (q : Queue T) (item : T) : Queue T × Option Bool :=
  match q.push with
  | .idle => if q.stopFlag then (q, some false) else ({ q with push := .entered item }, none)
  | .entered item => ({ q with push := .loaded item q.ring.writeIdx }, none)
  | .loaded item t =>
      if slot m (t + 1) = slot m q.ring.readIdx then ({ q with push := .full item t q.ring.readIdx }, none)
      else ({ q with push := .room item t }, none)
  | .full _ _ _ => ({ q with pushRejects := q.pushRejects + 1, push := .idle }, some false)
  | .room item t =>
      ({ q with ring := { q.ring with buf := Function.update q.ring.buf (slot m t) item }
                push := .written item t }, none)
  | .written item t =>
      ({ q with ring := { q.ring with writeIdx := t + 1 }
                push := .published item
                put := q.put ++ [item] }, none)
  | .published item =>
      ({ q with pushCount := q.pushCount + 1
                push := .idle
                pushed := q.pushed ++ [item] }, some true)

inductive Call
  | pop
  | popBatch (max : BitVec 64)

/-- The result of a call of the consumer. That of `pop_batch` is its count; its
argument and what it has appended are kept beside it. -/
inductive Result (T : Type)
  | pop (item : Option T)
  | popBatch (max count : BitVec 64) (appended : List T)

def empty : Option (Batch T) → Result T
  | none => .pop none
  | some b => .popBatch b.max b.count b.appended

def Queue.takeStep (m : Nat) (q : Queue T) (batch : Option (Batch T)) (c : Take T 64) :
    Queue T × Option (Result T) :=
  let r := take m q.ring c
  match r.2.2 with
  | none => ({ q with ring := r.1, pop := .taking batch r.2.1 }, none)
  | some none => ({ q with ring := r.1, pop := .idle }, some (empty batch))
  | some (some item) => ({ q with ring := r.1, pop := .taken batch item, got := q.got ++ [item] }, none)

/-- The increment of `pop_count`, with which `pop` ends. `pop_batch` appends the
item and tests its loop condition. -/
def Queue.countStep (q : Queue T) (batch : Option (Batch T)) (item : T) : Queue T × Option (Result T) :=
  let q := { q with popCount := q.popCount + 1, handed := q.handed ++ [item] }
  match batch with
  | none => ({ q with pop := .idle }, some (.pop (some item)))
  | some b =>
      let b := { b with count := b.count + 1, appended := b.appended ++ [item] }
      if b.count < b.max then ({ q with pop := .taking (some b) .idle }, none)
      else ({ q with pop := .idle }, some (.popBatch b.max b.count b.appended))

def Queue.popStep (m : Nat) (q : Queue T) (call : Call) : Queue T × Option (Result T) :=
  match q.pop with
  | .idle =>
      match call with
      | .pop => q.takeStep m none .idle
      | .popBatch max =>
          if 0 < max then q.takeStep m (some ⟨max, 0, []⟩) .idle else (q, some (.popBatch max 0 []))
  | .taking batch c => q.takeStep m batch c
  | .taken batch item => q.countStep batch item

def Queue.size (q : Queue T) : BitVec 64 := q.ring.writeIdx - q.ring.readIdx

section Invariant

/-- The item whose push has stored `tail` and only has to count itself before
it returns true. -/
def Push.flight : Push T → List T
  | .published item => [item]
  | _ => []

def Pop.flight : Pop T → List T
  | .taken _ item => [item]
  | _ => []

def Pop.cursor : Pop T → Take T 64
  | .taking _ c => c
  | _ => .idle

def Pop.batch : Pop T → Option (Batch T)
  | .taking batch _ | .taken batch _ => batch
  | .idle => none

def Push.Sound (m : Nat) (r : Ring T 64) (room : Nat) : Push T → Prop
  | .idle | .entered _ | .published _ => True
  | .loaded _ t => t = r.writeIdx
  | .full _ t h => (t - h).toNat = 2 ^ m - 1
  | .room _ t => t = r.writeIdx ∧ 0 < room
  | .written item t => t = r.writeIdx ∧ 0 < room ∧ r.buf (slot m r.writeIdx) = item

structure Batch.Sound (handed : List T) (b : Batch T) : Prop where
  count : b.count.toNat = b.appended.length
  bound : b.count < b.max
  order : b.appended <:+ handed

structure Inv (m : Nat) (base : BitVec 64) (q : Queue T) : Prop where
  ring : Consumes m base q.ring q.pop.cursor q.put q.got
  room : q.put.length < q.got.length + 2 ^ m
  producer : q.push.Sound m q.ring (q.got.length + 2 ^ m - 1 - q.put.length)
  pushed : q.put = q.pushed ++ q.push.flight
  handed : q.got = q.handed ++ q.pop.flight
  pushCount : q.pushCount = BitVec.ofNat 64 q.pushed.length
  popCount : q.popCount = BitVec.ofNat 64 q.handed.length
  batch : ∀ b, q.pop.batch = some b → b.Sound q.handed

variable {m : Nat} {base : BitVec 64} {q : Queue T}

theorem init_inv (m : Nat) (buffer : Nat → T) (base : BitVec 64) : Inv m base (Queue.init buffer base) where
  ring := .init m buffer base
  room := Nat.lt_add_of_pos_right (Nat.two_pow_pos m)
  producer := trivial
  pushed := rfl
  handed := rfl
  pushCount := rfl
  popCount := rfl
  batch := by simp [Queue.init, Pop.batch]

theorem Inv.full_iff (h : Inv m base q) (hm : m < 64) :
    slot m (q.ring.writeIdx + 1) = slot m q.ring.readIdx ↔ q.put.length + 1 = q.got.length + 2 ^ m := by
  have hroom := h.room
  have horder := h.ring.carries.order
  rw [h.ring.carries.writeIdx, h.ring.carries.readIdx, cursor_add_one]
  constructor
  · intro he
    by_contra hne
    exact slot_cursor_ne base (Nat.le_of_lt hm) (j := q.got.length) (by omega) (by omega) he.symm
  · intro he
    rw [slot_cursor base (Nat.le_of_lt hm), slot_cursor base (Nat.le_of_lt hm), he, ← Nat.add_assoc,
      Nat.add_mod_right]

theorem Inv.size_eq (h : Inv m base q) (hm : m < 64) : q.size.toNat = q.put.length - q.got.length :=
  h.ring.carries.distance hm

theorem Push.Sound.congr {p : Push T} {r r' : Ring T 64} {room room' : Nat} (h : p.Sound m r room)
    (hb : r'.buf = r.buf) (hw : r'.writeIdx = r.writeIdx) (hr : room ≤ room') : p.Sound m r' room' := by
  cases p with
  | idle | entered item | published item => trivial
  | loaded item t => exact h.trans hw.symm
  | full item t k => exact h
  | room item t => exact ⟨h.1.trans hw.symm, Nat.lt_of_lt_of_le h.2 hr⟩
  | written item t => exact ⟨h.1.trans hw.symm, Nat.lt_of_lt_of_le h.2.1 hr, by rw [hb, hw]; exact h.2.2⟩

theorem Inv.move (h : Inv m base q) {p : Push T}
    (hp : p.Sound m q.ring (q.got.length + 2 ^ m - 1 - q.put.length)) (hf : p.flight = q.push.flight)
    (rejects : BitVec 64) : Inv m base { q with push := p, pushRejects := rejects } :=
  ⟨h.ring, h.room, hp, by rw [hf]; exact h.pushed, h.handed, h.pushCount, h.popCount, h.batch⟩

theorem pushStep_inv (h : Inv m base q) (hm : m < 64) (item : T) : Inv m base (q.pushStep m item).1 := by
  have hroom := h.room
  have hp := h.producer
  have hflight := h.pushed
  rw [Queue.pushStep]
  split
  next he =>
    split
    next => exact h
    next => exact h.move (p := .entered item) trivial (by rw [he]; rfl) _
  next item he => exact h.move (p := .loaded item q.ring.writeIdx) rfl (by rw [he]; rfl) _
  next item t he =>
    rw [he] at hp
    obtain rfl : t = q.ring.writeIdx := hp
    split
    next hfull =>
      apply h.move
      · rw [h.full_iff hm] at hfull
        have hsize := h.size_eq hm
        rw [Queue.size] at hsize
        rw [Push.Sound, hsize]
        omega
      · rw [he]
        rfl
    next hfree =>
      rw [h.full_iff hm] at hfree
      exact h.move (p := .room item q.ring.writeIdx) ⟨rfl, by omega⟩ (by rw [he]; rfl) _
  next item t k he => exact h.move (p := .idle) trivial (by rw [he]; rfl) _
  next item t he =>
    rw [he] at hp hflight
    obtain ⟨rfl, hfree⟩ := hp
    exact ⟨h.ring.fill (Nat.le_of_lt hm) hroom item, hroom, ⟨rfl, hfree, Function.update_self ..⟩, hflight, h.handed,
      h.pushCount, h.popCount, h.batch⟩
  next item t he =>
    rw [he] at hp hflight
    obtain ⟨rfl, hfree, hx⟩ := hp
    refine ⟨h.ring.publish hroom hx, ?_, trivial, ?_, h.handed, h.pushCount, h.popCount, h.batch⟩
    · simp only [List.length_append, List.length_singleton]
      omega
    · exact congrArg (· ++ [item]) (hflight.trans (List.append_nil _))
  next item he =>
    rw [he] at hflight
    refine ⟨h.ring, hroom, trivial, hflight.trans (List.append_nil _).symm, h.handed, ?_, h.popCount, h.batch⟩
    rw [h.pushCount, List.length_append, BitVec.ofNat_add]
    rfl

theorem take_ended {r : Ring T 64} {c : Take T 64} {x : Option T} (h : (take m r c).2.2 = some x) :
    (take m r c).2.1 = .idle := by
  cases c with
  | loaded idx =>
      rw [take] at h ⊢
      split at h
      next he => rw [if_pos he]
      next => simp at h
  | copied idx y => rfl
  | idle | nonempty idx => simp [take] at h

theorem takeStep_inv (h : Inv m base q) (hm : m < 64) (hf : q.pop.flight = []) {batch : Option (Batch T)}
    (hb : ∀ b, batch = some b → b.Sound q.handed) : Inv m base (q.takeStep m batch q.pop.cursor).1 := by
  have hring := h.ring.take hm
  have hroom := h.room
  have hgot := h.handed
  rw [hf, List.append_nil] at hgot
  have hproducer : ∀ room', q.got.length + 2 ^ m - 1 - q.put.length ≤ room' →
      q.push.Sound m (take m q.ring q.pop.cursor).1 room' :=
    fun room' => h.producer.congr (take_buf ..) (take_writeIdx ..)
  rw [Queue.takeStep]
  split
  next hr =>
    simp only [hr, received, List.append_nil] at hring
    exact ⟨hring, hroom, hproducer _ (Nat.le_refl _), h.pushed, hgot.trans (List.append_nil _).symm, h.pushCount,
      h.popCount, hb⟩
  next hr =>
    simp only [hr, received, List.append_nil, take_ended hr] at hring
    exact ⟨hring, hroom, hproducer _ (Nat.le_refl _), h.pushed, hgot.trans (List.append_nil _).symm, h.pushCount,
      h.popCount, by simp [Pop.batch]⟩
  next item hr =>
    rw [hr, received, take_ended hr] at hring
    refine ⟨hring, ?_, hproducer _ ?_, h.pushed, congrArg (· ++ [item]) hgot, h.pushCount, h.popCount, hb⟩
    · simp only [List.length_append]
      omega
    · simp only [List.length_append]
      omega

theorem Batch.Sound.count_add_one {handed : List T} {b : Batch T} (h : b.Sound handed) :
    (b.count + 1).toNat = b.appended.length + 1 := by
  have hbound := h.bound
  have hmax := b.max.isLt
  rw [BitVec.lt_def] at hbound
  have hone : (1 : BitVec 64).toNat = 1 := rfl
  rw [BitVec.toNat_add, hone, ← h.count]
  omega

theorem Batch.Sound.append {handed : List T} {b : Batch T} (h : b.Sound handed) (item : T)
    (hlt : b.count + 1 < b.max) :
    Batch.Sound (handed ++ [item]) { b with count := b.count + 1, appended := b.appended ++ [item] } := by
  obtain ⟨front, hfront⟩ := h.order
  refine ⟨?_, hlt, ⟨front, by rw [← List.append_assoc, hfront]⟩⟩
  rw [h.count_add_one, List.length_append, List.length_singleton]

theorem countStep_inv (h : Inv m base q) {batch : Option (Batch T)} {item : T} (he : q.pop = .taken batch item) :
    Inv m base (q.countStep batch item).1 := by
  have hring := h.ring
  have hgot := h.handed
  have hbatch := h.batch
  rw [he] at hring hgot hbatch
  have hcount : q.popCount + 1 = BitVec.ofNat 64 (q.handed ++ [item]).length := by
    rw [h.popCount, List.length_append, BitVec.ofNat_add]
    rfl
  have hhanded := hgot.trans (List.append_nil _).symm
  rw [Queue.countStep.eq_def]
  split
  next => exact ⟨hring, h.room, h.producer, h.pushed, hhanded, h.pushCount, hcount, by simp [Pop.batch]⟩
  next b =>
    dsimp only
    split
    next hlt =>
      refine ⟨hring, h.room, h.producer, h.pushed, hhanded, h.pushCount, hcount, fun b' hb' => ?_⟩
      obtain rfl := Option.some.inj hb'
      exact (hbatch b rfl).append item hlt
    next => exact ⟨hring, h.room, h.producer, h.pushed, hhanded, h.pushCount, hcount, by simp [Pop.batch]⟩

theorem popStep_inv (h : Inv m base q) (hm : m < 64) (call : Call) : Inv m base (q.popStep m call).1 := by
  have hbatch := h.batch
  rw [Queue.popStep.eq_def]
  split
  next he =>
    have hcursor : q.pop.cursor = .idle := by rw [he]; rfl
    have hflight : q.pop.flight = [] := by rw [he]; rfl
    split
    next =>
      rw [← hcursor]
      exact takeStep_inv h hm hflight (by simp)
    next max =>
      split
      next hlt =>
        rw [← hcursor]
        apply takeStep_inv h hm hflight
        intro b hb
        obtain rfl := Option.some.inj hb
        exact ⟨rfl, hlt, List.nil_suffix⟩
      next => exact h
  next batch c he =>
    have hcursor : q.pop.cursor = c := by rw [he]; rfl
    rw [he] at hbatch
    rw [← hcursor]
    exact takeStep_inv h hm (by rw [he]; rfl) hbatch
  next batch item he => exact countStep_inv h he

end Invariant

end Sequitur.RingBuffer
