import Sequitur.Rings

namespace Sequitur.MPSCQueue

open Rings

variable {ι T : Type}

structure Cell (T : Type) where
  sequence : BitVec 64
  data : T

inductive Push (T : Type)
  | idle
  | entered (packet : T)
  | loaded (packet : T) (t : BitVec 64)
  | claiming (packet : T) (t : BitVec 64)
  | claimed (packet : T) (t : BitVec 64)
  | copying (packet : T) (t : BitVec 64)
  | copied (packet : T) (t : BitVec 64)

inductive Pop (T : Type)
  | idle
  | loaded (h : BitVec 64)
  | ready (h : BitVec 64)
  | advanced (h : BitVec 64)
  | copied (h : BitVec 64) (packet : T)

/-- An `MPSCQueue` of 2048 cells with its producers and its consumer. `claims`
records the packets in the order in which their tickets were claimed, each with
its producer, `returned` the packets of each producer whose push returned true,
and `popped` what pop has returned. -/
structure Queue (ι T : Type) where
  buffer : Nat → Cell T
  tail : BitVec 64
  head : BitVec 64
  stopFlag : Bool
  producers : ι → Push T
  consumer : Pop T
  claims : List (ι × T)
  returned : ι → List T
  popped : List T

def Queue.init (data : Nat → T) : Queue ι T where
  buffer := fun i => ⟨BitVec.ofNat 64 i, data i⟩
  tail := 0
  head := 0
  stopFlag := false
  producers := fun _ => .idle
  consumer := .idle
  claims := []
  returned := fun _ => []
  popped := []

section Steps

variable [DecidableEq ι]

/-- The next access of `push(packet)` by producer `i`, with the result if the
call has ended. A packet is copied in two steps; in between the cell holds what
is there of it, `torn`. The exchange may fail spuriously. -/
def Queue.pushStep (q : Queue ι T) (i : ι) (packet torn : T) (spurious : Bool) : Queue ι T × Option Bool :=
  match q.producers i with
  | .idle =>
      if q.stopFlag then (q, some false)
      else ({ q with producers := Function.update q.producers i (.entered packet) }, none)
  | .entered packet => ({ q with producers := Function.update q.producers i (.loaded packet q.tail) }, none)
  | .loaded packet t =>
      if ((q.buffer (slot 11 t)).sequence - t).toInt = 0 then
        ({ q with producers := Function.update q.producers i (.claiming packet t) }, none)
      else if ((q.buffer (slot 11 t)).sequence - t).toInt < 0 then
        ({ q with producers := Function.update q.producers i .idle }, some false)
      else ({ q with producers := Function.update q.producers i (.entered packet) }, none)
  | .claiming packet t =>
      if q.tail = t ∧ spurious = false then
        ({ q with tail := t + 1
                  producers := Function.update q.producers i (.claimed packet t)
                  claims := q.claims ++ [(i, packet)] }, none)
      else ({ q with producers := Function.update q.producers i (.loaded packet q.tail) }, none)
  | .claimed packet t =>
      ({ q with buffer := Function.update q.buffer (slot 11 t) ⟨(q.buffer (slot 11 t)).sequence, torn⟩
                producers := Function.update q.producers i (.copying packet t) }, none)
  | .copying packet t =>
      ({ q with buffer := Function.update q.buffer (slot 11 t) ⟨(q.buffer (slot 11 t)).sequence, packet⟩
                producers := Function.update q.producers i (.copied packet t) }, none)
  | .copied packet t =>
      ({ q with buffer := Function.update q.buffer (slot 11 t) ⟨t + 1, (q.buffer (slot 11 t)).data⟩
                producers := Function.update q.producers i .idle
                returned := Function.update q.returned i (q.returned i ++ [packet]) }, some true)

def Queue.popStep (q : Queue ι T) : Queue ι T × Option (Option T) :=
  match q.consumer with
  | .idle => ({ q with consumer := .loaded q.head }, none)
  | .loaded h =>
      if ((q.buffer (slot 11 h)).sequence - (h + 1)).toInt = 0 then ({ q with consumer := .ready h }, none)
      else ({ q with consumer := .idle }, some none)
  | .ready h => ({ q with head := h + 1, consumer := .advanced h }, none)
  | .advanced h => ({ q with consumer := .copied h (q.buffer (slot 11 h)).data }, none)
  | .copied h packet =>
      ({ q with buffer := Function.update q.buffer (slot 11 h) ⟨h + 2048, (q.buffer (slot 11 h)).data⟩
                consumer := .idle
                popped := q.popped ++ [packet] }, some (some packet))

inductive Action (ι T : Type)
  | push (i : ι) (packet torn : T) (spurious : Bool)
  | pop
  | shutdown

def step (q : Queue ι T) : Action ι T → Option (Queue ι T)
  | .push i packet torn spurious => some (q.pushStep i packet torn spurious).1
  | .pop => some q.popStep.1
  | .shutdown => some { q with stopFlag := true }

end Steps

def Push.holds : Push T → Option (T × BitVec 64)
  | .claimed packet t | .copying packet t | .copied packet t => some (packet, t)
  | _ => none

def Published (buffer : Nat → Cell T) (k : Nat) : Prop :=
  (buffer (slot 11 (cursor 0 k : BitVec 64))).sequence = cursor 0 (k + 1)

/-- A cell in use: it waits for the packet of ticket `k`, whose producer holds
the ticket once it is claimed, or it holds the packet. -/
def Governed (buffer : Nat → Cell T) (claims : List (ι × T)) (producers : ι → Push T) (k : Nat) : Prop :=
  ((buffer (slot 11 (cursor 0 k : BitVec 64))).sequence = cursor 0 k ∧
      ∀ i packet, claims[k]? = some (i, packet) → (producers i).holds = some (packet, cursor 0 k)) ∨
    (Published buffer k ∧ ∃ i, claims[k]? = some (i, (buffer (slot 11 (cursor 0 k : BitVec 64))).data))

def Owns (buffer : Nat → Cell T) (claims : List (ι × T)) (released : Nat) (i : ι) (packet : T) (t : BitVec 64) : Prop :=
  ∃ k, t = cursor 0 k ∧ released ≤ k ∧ claims[k]? = some (i, packet) ∧ (buffer (slot 11 t)).sequence = t

def Push.Sound (buffer : Nat → Cell T) (claims : List (ι × T)) (released : Nat) (i : ι) : Push T → Prop
  | .idle | .entered _ => True
  | .loaded _ t => ∃ k ≤ claims.length, t = cursor 0 k
  | .claiming _ t => ∃ k ≤ claims.length, t = cursor 0 k ∧ k < released + 2 ^ 11
  | .claimed packet t | .copying packet t => Owns buffer claims released i packet t
  | .copied packet t => Owns buffer claims released i packet t ∧ (buffer (slot 11 t)).data = packet

def Pop.Sound (buffer : Nat → Cell T) (claims : List (ι × T)) (released : Nat) (head : BitVec 64) : Pop T → Prop
  | .idle => head = cursor 0 released
  | .loaded h => head = cursor 0 released ∧ h = cursor 0 released
  | .ready h => head = cursor 0 released ∧ h = cursor 0 released ∧ Published buffer released
  | .advanced h => head = cursor 0 (released + 1) ∧ h = cursor 0 released ∧ Published buffer released
  | .copied h packet => head = cursor 0 (released + 1) ∧ h = cursor 0 released ∧ Published buffer released ∧
      ∃ i, claims[released]? = some (i, packet)

/-- The first `popped.length` tickets have been released by the consumer, and
the cells of the 2048 tickets from there on are in use. -/
structure Inv [DecidableEq ι] (q : Queue ι T) : Prop where
  tail : q.tail = cursor 0 q.claims.length
  room : q.claims.length ≤ q.popped.length + 2 ^ 11
  ordered : q.popped <+: q.claims.map Prod.snd
  cells : ∀ k, q.popped.length ≤ k → k < q.popped.length + 2 ^ 11 → Governed q.buffer q.claims q.producers k
  producers : ∀ i, (q.producers i).Sound q.buffer q.claims q.popped.length i
  consumer : q.consumer.Sound q.buffer q.claims q.popped.length q.head
  own : ∀ i, (q.claims.filter fun c => c.1 = i).map Prod.snd =
    q.returned i ++ ((q.producers i).holds.map Prod.fst).toList

section Tickets

theorem ticket_inj {j k : Nat} (hj : j < 2 ^ 64) (hk : k < 2 ^ 64) (h : (cursor 0 j : BitVec 64) = cursor 0 k) :
    j = k := by
  rcases Nat.le_total j k with hle | hle
  · exact (cursor_eq_iff 0 hle (by omega)).mp h
  · exact ((cursor_eq_iff 0 hle (by omega)).mp h.symm).symm

theorem slot_ticket (k : Nat) : slot 11 (cursor 0 k : BitVec 64) = k % 2 ^ 11 := by
  rw [slot_cursor 0 (by decide)]
  exact congrArg (· % 2 ^ 11) (Nat.zero_add k)

theorem slot_ticket_ne {released j k : Nat} (hj : released ≤ j) (hj' : j < released + 2 ^ 11) (hk : released ≤ k)
    (hk' : k < released + 2 ^ 11) (hne : j ≠ k) : slot 11 (cursor 0 j : BitVec 64) ≠ slot 11 (cursor 0 k : BitVec 64) := by
  rw [slot_ticket, slot_ticket]
  omega

theorem exists_window (released t : Nat) :
    ∃ k, released ≤ k ∧ k < released + 2 ^ 11 ∧ k % 2 ^ 11 = t % 2 ^ 11 :=
  ⟨released + (t + (2 ^ 11 - released % 2 ^ 11)) % 2 ^ 11, by omega, by omega, by omega⟩

end Tickets

section Locality

variable {buffer buffer' : Nat → Cell T} {claims claims' : List (ι × T)} {producers producers' : ι → Push T}
  {released released' k : Nat} {i : ι} {p : Push T}

theorem Governed.congr (h : Governed buffer claims producers k)
    (hcell : buffer' (slot 11 (cursor 0 k : BitVec 64)) = buffer (slot 11 (cursor 0 k : BitVec 64)))
    (hclaim : claims'[k]? = claims[k]?)
    (hprod : ∀ i packet, claims[k]? = some (i, packet) → (producers i).holds = some (packet, cursor 0 k) →
      (producers' i).holds = some (packet, cursor 0 k)) : Governed buffer' claims' producers' k := by
  rw [Governed, Published, hcell, hclaim]
  rcases h with ⟨hseq, hhold⟩ | hpub
  · exact .inl ⟨hseq, fun i packet hc => hprod i packet hc (hhold i packet hc)⟩
  · exact .inr hpub

theorem Push.Sound.congr (h : p.Sound buffer claims released i) (hlen : claims.length ≤ claims'.length)
    (hrel : released ≤ released')
    (hown : ∀ packet t, p.holds = some (packet, t) → Owns buffer claims released i packet t →
      Owns buffer' claims' released' i packet t ∧ (buffer' (slot 11 t)).data = (buffer (slot 11 t)).data) :
    p.Sound buffer' claims' released' i := by
  cases p with
  | idle | entered packet => trivial
  | loaded packet t =>
      obtain ⟨k, hk, ht⟩ := h
      exact ⟨k, Nat.le_trans hk hlen, ht⟩
  | claiming packet t =>
      obtain ⟨k, hk, ht, hlt⟩ := h
      exact ⟨k, Nat.le_trans hk hlen, ht, by omega⟩
  | claimed packet t | copying packet t => exact (hown packet t rfl h).1
  | copied packet t =>
      obtain ⟨ho, hd⟩ := hown packet t rfl h.1
      exact ⟨ho, hd.trans h.2⟩

theorem Push.Sound.owns (h : p.Sound buffer claims released i) {packet : T} {t : BitVec 64}
    (hp : p.holds = some (packet, t)) : Owns buffer claims released i packet t := by
  cases p with
  | claimed x u | copying x u => obtain ⟨rfl, rfl⟩ := Prod.mk.inj (Option.some.inj hp); exact h
  | copied x u => obtain ⟨rfl, rfl⟩ := Prod.mk.inj (Option.some.inj hp); exact h.1
  | idle | entered x | loaded x u | claiming x u => simp [Push.holds] at hp

theorem Pop.Sound.congr {c : Pop T} {head : BitVec 64} (h : c.Sound buffer claims released head)
    (hpub : Published buffer released → Published buffer' released)
    (hclaim : ∀ c, claims[released]? = some c → claims'[released]? = some c) : c.Sound buffer' claims' released head := by
  cases c with
  | idle | loaded h => exact h
  | ready h' | advanced h' => exact ⟨h.1, h.2.1, hpub h.2.2⟩
  | copied h' packet =>
      obtain ⟨hh, ht, hp, i, hi⟩ := h
      exact ⟨hh, ht, hpub hp, i, hclaim _ hi⟩

end Locality

section Invariant

variable [DecidableEq ι] {q : Queue ι T} {i : ι} {packet : T} {t : BitVec 64}

theorem init_inv (data : Nat → T) : Inv (Queue.init data : Queue ι T) where
  tail := rfl
  room := Nat.zero_le _
  ordered := List.prefix_rfl
  cells := by
    intro k _ hk
    refine .inl ⟨?_, fun i packet hc => by simp [Queue.init] at hc⟩
    have hlt : k < 2 ^ 11 := by simpa [Queue.init] using hk
    rw [slot_ticket, Nat.mod_eq_of_lt hlt]
    exact (BitVec.zero_add _).symm
  producers := fun _ => trivial
  consumer := rfl
  own := fun _ => rfl

theorem Inv.released_le (h : Inv q) : q.popped.length ≤ q.claims.length := by
  simpa using h.ordered.length_le

theorem Inv.ticket (h : Inv q) (hp : (q.producers i).holds = some (packet, t)) :
    ∃ k, t = cursor 0 k ∧ q.popped.length ≤ k ∧ k < q.claims.length ∧ k < q.popped.length + 2 ^ 11 ∧
      q.claims[k]? = some (i, packet) ∧ (q.buffer (slot 11 t)).sequence = t := by
  obtain ⟨k, ht, hle, hc, hs⟩ := (h.producers i).owns hp
  have hlt := (List.getElem?_eq_some_iff.mp hc).1
  exact ⟨k, ht, hle, hlt, Nat.lt_of_lt_of_le hlt h.room, hc, hs⟩

theorem Inv.slot_ne (h : Inv q) {j : ι} (hj : j ≠ i) {packet' : T} {t' : BitVec 64}
    (hp : (q.producers i).holds = some (packet, t)) (hp' : (q.producers j).holds = some (packet', t')) :
    slot 11 t' ≠ slot 11 t := by
  obtain ⟨k, rfl, hle, -, hlt, hc, -⟩ := h.ticket hp
  obtain ⟨k', rfl, hle', -, hlt', hc', -⟩ := h.ticket hp'
  apply slot_ticket_ne hle' hlt' hle hlt
  rintro rfl
  rw [hc] at hc'
  exact hj (Prod.mk.inj (Option.some.inj hc')).1.symm

theorem Inv.move (h : Inv q) {p : Push T} (hold : (q.producers i).holds = none) (hnew : p.holds = none)
    (hs : p.Sound q.buffer q.claims q.popped.length i) :
    Inv { q with producers := Function.update q.producers i p } where
  tail := h.tail
  room := h.room
  ordered := h.ordered
  cells := by
    intro k hk hk'
    refine (h.cells k hk hk').congr rfl rfl fun j packet _ hj => ?_
    have hne : j ≠ i := by
      rintro rfl
      rw [hold] at hj
      simp at hj
    exact (congrArg Push.holds (Function.update_of_ne hne ..)).trans hj
  producers := by
    intro j
    by_cases hj : j = i
    · subst hj
      simpa using hs
    · simpa [Function.update_of_ne hj] using h.producers j
  consumer := h.consumer
  own := by
    intro j
    have ho := h.own j
    by_cases hj : j = i
    · subst hj
      simpa [hold, hnew] using ho
    · simpa [Function.update_of_ne hj] using ho

theorem Inv.claim (h : Inv q) (hb : q.claims.length < 2 ^ 63) (hp : q.producers i = .claiming packet t)
    (ht : q.tail = t) :
    Inv { q with tail := t + 1
                 producers := Function.update q.producers i (.claimed packet t)
                 claims := q.claims ++ [(i, packet)] } := by
  have hsound := h.producers i
  rw [hp] at hsound
  obtain ⟨k, hk, htk, hlt⟩ := hsound
  obtain rfl : k = q.claims.length := by
    apply ticket_inj (by omega) (by omega)
    rw [← htk, ← ht, h.tail]
  have hle := h.released_le
  have hhold : (q.producers i).holds = none := by rw [hp]; rfl
  have hseq : (q.buffer (slot 11 t)).sequence = t := by
    rw [htk]
    rcases h.cells _ hle hlt with ⟨hs, -⟩ | ⟨-, j, hc⟩
    · exact hs
    · simp at hc
  have hother : ∀ j x u, (q.producers j).holds = some (x, u) →
      (Function.update q.producers i (.claimed packet t) j).holds = some (x, u) := by
    intro j x u hj
    have hne : j ≠ i := by
      rintro rfl
      rw [hhold] at hj
      simp at hj
    exact (congrArg Push.holds (Function.update_of_ne hne ..)).trans hj
  refine ⟨?_, ?_, ?_, fun k hk hk' => ?_, fun j => ?_, ?_, fun j => ?_⟩
  · rw [htk, cursor_add_one, List.length_append]
    rfl
  · rw [List.length_append]
    exact hlt
  · rw [List.map_append]
    exact h.ordered.trans (List.prefix_append _ _)
  · rcases Nat.lt_trichotomy k q.claims.length with hlt' | rfl | hgt
    · exact (h.cells k hk hk').congr rfl (List.getElem?_append_left hlt') fun j x _ hj => hother j x _ hj
    · refine .inl ⟨htk ▸ hseq, fun j x hc => ?_⟩
      rw [List.getElem?_concat_length] at hc
      obtain ⟨rfl, rfl⟩ := Prod.mk.inj (Option.some.inj hc)
      dsimp only
      rw [Function.update_self, htk]
      rfl
    · refine (h.cells k hk hk').congr rfl ?_ fun j x _ hj => hother j x _ hj
      rw [List.getElem?_eq_none (by simp; omega), List.getElem?_eq_none (by omega)]
  · dsimp only
    by_cases hj : j = i
    · subst hj
      rw [Function.update_self]
      exact ⟨_, htk, hle, List.getElem?_concat_length, hseq⟩
    · rw [Function.update_of_ne hj]
      refine (h.producers j).congr (by simp) (Nat.le_refl _) fun x u _ ho => ⟨?_, rfl⟩
      obtain ⟨k, hu, hr, hc, hs⟩ := ho
      exact ⟨k, hu, hr, getElem?_append_of_some hc _, hs⟩
  · exact h.consumer.congr id fun c hc => getElem?_append_of_some hc _
  · have ho := h.own j
    by_cases hj : j = i
    · subst hj
      rw [hhold] at ho
      simpa [Push.holds, List.filter_append] using ho
    · simpa [List.filter_append, Function.update_of_ne hj, Ne.symm hj] using ho

theorem update_data_sequence (buffer : Nat → Cell T) (n n' : Nat) (x : T) :
    (Function.update buffer n ⟨(buffer n).sequence, x⟩ n').sequence = (buffer n').sequence := by
  by_cases hn : n' = n
  · subst hn
    rw [Function.update_self]
  · rw [Function.update_of_ne hn]

theorem Inv.write (h : Inv q) {p : Push T} {x : T} (hp : (q.producers i).holds = some (packet, t))
    (hnew : p.holds = some (packet, t)) (hx : p = .copied packet t → x = packet) :
    Inv { q with buffer := Function.update q.buffer (slot 11 t) ⟨(q.buffer (slot 11 t)).sequence, x⟩
                 producers := Function.update q.producers i p } := by
  have hsame : ∀ j, (Function.update q.producers i p j).holds = (q.producers j).holds := by
    intro j
    by_cases hj : j = i
    · subst hj
      rw [Function.update_self, hnew, hp]
    · rw [Function.update_of_ne hj]
  have howns := (h.producers i).owns hp
  obtain ⟨k, htk, hk, hlt, hwin, hc, hseq⟩ := h.ticket hp
  refine ⟨h.tail, h.room, h.ordered, fun k' hk' hwin' => ?_, fun j => ?_, ?_, fun j => ?_⟩
  · by_cases he : k' = k
    · subst he
      refine .inl ⟨?_, fun j y hj => ?_⟩
      · rw [update_data_sequence, ← htk]
        exact hseq
      · rw [hc] at hj
        obtain ⟨rfl, rfl⟩ := Prod.mk.inj (Option.some.inj hj)
        exact (hsame _).trans (htk ▸ hp)
    · refine (h.cells k' hk' hwin').congr (Function.update_of_ne ?_ ..) rfl fun j y _ hj => (hsame j).trans hj
      rw [htk]
      exact slot_ticket_ne hk' hwin' hk hwin he
  · dsimp only
    by_cases hj : j = i
    · subst hj
      rw [Function.update_self]
      have howns' : Owns (Function.update q.buffer (slot 11 t) ⟨(q.buffer (slot 11 t)).sequence, x⟩) q.claims
          q.popped.length j packet t := ⟨k, htk, hk, hc, (update_data_sequence ..).trans hseq⟩
      cases p with
      | claimed y u | copying y u =>
          obtain ⟨rfl, rfl⟩ := Prod.mk.inj (Option.some.inj hnew)
          exact howns'
      | copied y u =>
          obtain ⟨rfl, rfl⟩ := Prod.mk.inj (Option.some.inj hnew)
          refine ⟨howns', ?_⟩
          rw [Function.update_self]
          exact hx rfl
      | idle | entered y | loaded y u | claiming y u => simp [Push.holds] at hnew
    · rw [Function.update_of_ne hj]
      refine (h.producers j).congr (Nat.le_refl _) (Nat.le_refl _) fun y u hy ho => ?_
      have hcell := Function.update_of_ne (h.slot_ne hj hp hy) ⟨(q.buffer (slot 11 t)).sequence, x⟩ q.buffer
      obtain ⟨k', hu, hr, hc', hs⟩ := ho
      exact ⟨⟨k', hu, hr, hc', (congrArg Cell.sequence hcell).trans hs⟩, congrArg Cell.data hcell⟩
  · exact h.consumer.congr (fun hpub => (update_data_sequence ..).trans hpub) fun c hc => hc
  · dsimp only
    rw [hsame]
    exact h.own j

theorem Inv.publish (h : Inv q) (hb : q.claims.length < 2 ^ 63) (hp : q.producers i = .copied packet t) :
    Inv { q with buffer := Function.update q.buffer (slot 11 t) ⟨t + 1, (q.buffer (slot 11 t)).data⟩
                 producers := Function.update q.producers i .idle
                 returned := Function.update q.returned i (q.returned i ++ [packet]) } := by
  have hhold : (q.producers i).holds = some (packet, t) := by rw [hp]; rfl
  have hsound := h.producers i
  rw [hp] at hsound
  obtain ⟨k, htk, hk, hlt, hwin, hc, hseq⟩ := h.ticket hhold
  have hnext : (t + 1 : BitVec 64) = cursor 0 (k + 1) := by rw [htk, cursor_add_one]
  have hcell : ∀ k', q.popped.length ≤ k' → k' < q.popped.length + 2 ^ 11 → k' ≠ k →
      Function.update q.buffer (slot 11 t) ⟨t + 1, (q.buffer (slot 11 t)).data⟩
        (slot 11 (cursor 0 k' : BitVec 64)) = q.buffer (slot 11 (cursor 0 k' : BitVec 64)) := by
    intro k' hk' hwin' he
    apply Function.update_of_ne
    rw [htk]
    exact slot_ticket_ne hk' hwin' hk hwin he
  have hpub : Published (Function.update q.buffer (slot 11 t) ⟨t + 1, (q.buffer (slot 11 t)).data⟩) k := by
    rw [Published, ← htk, Function.update_self]
    exact hnext
  refine ⟨h.tail, h.room, h.ordered, fun k' hk' hwin' => ?_, fun j => ?_, ?_, fun j => ?_⟩
  · by_cases he : k' = k
    · subst he
      refine .inr ⟨hpub, i, ?_⟩
      dsimp only
      rw [← htk, Function.update_self, hc]
      exact congrArg (fun y => some (i, y)) hsound.2.symm
    · refine (h.cells k' hk' hwin').congr (hcell k' hk' hwin' he) rfl fun j y hy hj => ?_
      have hne : j ≠ i := by
        rintro rfl
        have hlt' := (List.getElem?_eq_some_iff.mp hy).1
        rw [hhold] at hj
        have htick := (Prod.mk.inj (Option.some.inj hj)).2
        exact he (ticket_inj (by omega) (by omega) (htick.symm.trans htk))
      exact (congrArg Push.holds (Function.update_of_ne hne ..)).trans hj
  · dsimp only
    by_cases hj : j = i
    · subst hj
      rw [Function.update_self]
      trivial
    · rw [Function.update_of_ne hj]
      refine (h.producers j).congr (Nat.le_refl _) (Nat.le_refl _) fun y u hy ho => ?_
      have hcell' := Function.update_of_ne (h.slot_ne hj hhold hy) ⟨t + 1, (q.buffer (slot 11 t)).data⟩
        q.buffer
      obtain ⟨k', hu, hr, hc', hs⟩ := ho
      exact ⟨⟨k', hu, hr, hc', (congrArg Cell.sequence hcell').trans hs⟩, congrArg Cell.data hcell'⟩
  · refine h.consumer.congr (fun hpub' => ?_) fun c hc => hc
    by_cases he : q.popped.length = k
    · rw [he]
      exact hpub
    · have hsame := hcell _ (Nat.le_refl _) (Nat.lt_add_of_pos_right (by decide)) he
      exact (congrArg Cell.sequence hsame).trans hpub'
  · have ho := h.own j
    dsimp only
    by_cases hj : j = i
    · subst hj
      rw [hhold] at ho
      simpa [Push.holds] using ho
    · simpa [Function.update_of_ne hj] using ho

theorem Inv.release (h : Inv q) (hb : q.claims.length < 2 ^ 63) (hp : q.consumer = .copied t packet) :
    Inv { q with buffer := Function.update q.buffer (slot 11 t) ⟨t + 2048, (q.buffer (slot 11 t)).data⟩
                 consumer := .idle
                 popped := q.popped ++ [packet] } := by
  have hsound := h.consumer
  rw [hp] at hsound
  obtain ⟨hhead, ht, hpub, i, hc⟩ := hsound
  obtain ⟨hlt, hget⟩ := List.getElem?_eq_some_iff.mp hc
  have hlen : (q.popped ++ [packet]).length = q.popped.length + 1 := by simp
  have hroom := h.room
  have hcell : ∀ k, q.popped.length + 1 ≤ k → k < q.popped.length + 2 ^ 11 →
      Function.update q.buffer (slot 11 t) ⟨t + 2048, (q.buffer (slot 11 t)).data⟩
        (slot 11 (cursor 0 k : BitVec 64)) = q.buffer (slot 11 (cursor 0 k : BitVec 64)) := by
    intro k hk hwin
    apply Function.update_of_ne
    rw [ht]
    exact slot_ticket_ne (by omega) hwin (Nat.le_refl _) (by omega) (by omega)
  refine ⟨h.tail, ?_, ?_, fun k hk hwin => ?_, fun j => ?_, ?_, h.own⟩
  · rw [hlen]
    dsimp only
    omega
  · have hlt' : q.popped.length < (q.claims.map Prod.snd).length := by simpa using hlt
    have hprefix := List.concat_get_prefix h.ordered hlt'
    simpa [hget] using hprefix
  · rw [hlen] at hk hwin
    by_cases he : k = q.popped.length + 2 ^ 11
    · have hslot : slot 11 (cursor 0 k : BitVec 64) = slot 11 t := by
        rw [ht, slot_ticket, slot_ticket, he, Nat.add_mod_right]
      refine .inl ⟨?_, fun j y hy => ?_⟩
      · dsimp only
        have hlap : (2048 : BitVec 64) = BitVec.ofNat 64 (2 ^ 11) := by decide
        rw [hslot, Function.update_self, ht, he, hlap, cursor_add]
      · have hlt' := (List.getElem?_eq_some_iff.mp hy).1
        dsimp only at hlt'
        omega
    · exact (h.cells k (by omega) (by omega)).congr (hcell k hk (by omega)) rfl fun _ _ _ hj => hj
  · refine (h.producers j).congr (Nat.le_refl _) (by simp) fun y u hy ho => ?_
    obtain ⟨k, hu, hr, hc', hs⟩ := ho
    have hlt' := (List.getElem?_eq_some_iff.mp hc').1
    have hne : k ≠ q.popped.length := by
      rintro rfl
      rw [hu, hpub] at hs
      have := ticket_inj (by omega) (by omega) hs
      omega
    have hcell' := hcell k (by omega) (by omega)
    rw [← hu] at hcell'
    exact ⟨⟨k, hu, by rw [hlen]; omega, hc', (congrArg Cell.sequence hcell').trans hs⟩, congrArg Cell.data hcell'⟩
  · exact hlen ▸ hhead

theorem Inv.sequence_cases (h : Inv q) (t : Nat) :
    ∃ k, q.popped.length ≤ k ∧ k < q.popped.length + 2 ^ 11 ∧ k % 2 ^ 11 = t % 2 ^ 11 ∧
      ((q.buffer (slot 11 (cursor 0 t : BitVec 64))).sequence = cursor 0 k ∨
        (q.buffer (slot 11 (cursor 0 t : BitVec 64))).sequence = cursor 0 (k + 1) ∧ k < q.claims.length) := by
  obtain ⟨k, hle, hlt, hmod⟩ := exists_window q.popped.length t
  have hslot : slot 11 (cursor 0 t : BitVec 64) = slot 11 (cursor 0 k : BitVec 64) := by
    rw [slot_ticket, slot_ticket, hmod]
  refine ⟨k, hle, hlt, hmod, ?_⟩
  rw [hslot]
  rcases h.cells k hle hlt with ⟨hs, -⟩ | ⟨hpub, i, hc⟩
  · exact .inl hs
  · exact .inr ⟨hpub, (List.getElem?_eq_some_iff.mp hc).1⟩

theorem sub_toInt_eq_zero {x y : BitVec 64} : (x - y).toInt = 0 ↔ x = y := by
  rw [← BitVec.toInt_zero (w := 64), BitVec.toInt_inj]
  exact sub_eq_zero

theorem pushStep_inv (h : Inv q) (hb : q.claims.length < 2 ^ 63) (i : ι) (packet torn : T) (spurious : Bool) :
    Inv (q.pushStep i packet torn spurious).1 := by
  rw [Queue.pushStep]
  split
  next he =>
    split
    next => exact h
    next => exact h.move (by rw [he]; rfl) rfl trivial
  next x he => exact h.move (by rw [he]; rfl) rfl ⟨_, Nat.le_refl _, h.tail⟩
  next x t he =>
    have hsound := h.producers i
    rw [he] at hsound
    obtain ⟨k, hk, ht⟩ := hsound
    have hreleased := h.released_le
    split
    next hz =>
      refine h.move (by rw [he]; rfl) rfl ⟨k, hk, ht, ?_⟩
      obtain ⟨k', hle, hlt, hmod, hseq | ⟨hseq, -⟩⟩ := h.sequence_cases k
      · rw [ht, sub_toInt_eq_zero, hseq] at hz
        have := ticket_inj (by omega) (by omega) hz
        omega
      · rw [ht, sub_toInt_eq_zero, hseq] at hz
        have := ticket_inj (by omega) (by omega) hz
        omega
    next =>
      split
      next => exact h.move (by rw [he]; rfl) rfl trivial
      next => exact h.move (by rw [he]; rfl) rfl trivial
  next x t he =>
    split
    next hc => exact h.claim hb he hc.1
    next => exact h.move (by rw [he]; rfl) rfl ⟨_, Nat.le_refl _, h.tail⟩
  next x t he =>
    have hp : (q.producers i).holds = some (x, t) := by rw [he]; rfl
    exact h.write hp rfl (by simp)
  next x t he =>
    have hp : (q.producers i).holds = some (x, t) := by rw [he]; rfl
    exact h.write hp rfl (by simp)
  next x t he => exact h.publish hb he

theorem Inv.consumer_move (h : Inv q) {c : Pop T} {head : BitVec 64}
    (hc : c.Sound q.buffer q.claims q.popped.length head) : Inv { q with head := head, consumer := c } :=
  ⟨h.tail, h.room, h.ordered, h.cells, h.producers, hc, h.own⟩

theorem Inv.published_data (h : Inv q) (hb : q.claims.length < 2 ^ 63) (hpub : Published q.buffer q.popped.length) :
    ∃ i, q.claims[q.popped.length]? =
      some (i, (q.buffer (slot 11 (cursor 0 q.popped.length : BitVec 64))).data) := by
  have hreleased := h.released_le
  rcases h.cells q.popped.length (Nat.le_refl _) (Nat.lt_add_of_pos_right (by decide)) with ⟨hs, -⟩ | ⟨-, hdata⟩
  · have := ticket_inj (by omega) (by omega) (hs.symm.trans hpub)
    omega
  · exact hdata

theorem popStep_inv (h : Inv q) (hb : q.claims.length < 2 ^ 63) : Inv q.popStep.1 := by
  have hsound := h.consumer
  rw [Queue.popStep]
  split
  next he =>
    rw [he] at hsound
    exact h.consumer_move ⟨hsound, hsound⟩
  next t he =>
    rw [he] at hsound
    obtain ⟨hhead, ht⟩ := hsound
    split
    next hz =>
      rw [ht, cursor_add_one, sub_toInt_eq_zero] at hz
      exact h.consumer_move ⟨hhead, ht, hz⟩
    next => exact h.consumer_move hhead
  next t he =>
    rw [he] at hsound
    obtain ⟨hhead, ht, hpub⟩ := hsound
    exact h.consumer_move ⟨by rw [ht, cursor_add_one], ht, hpub⟩
  next t he =>
    rw [he] at hsound
    obtain ⟨hhead, ht, hpub⟩ := hsound
    refine h.consumer_move ⟨hhead, ht, hpub, ?_⟩
    rw [ht]
    exact h.published_data hb hpub
  next t x he => exact h.release hb he

end Invariant

end Sequitur.MPSCQueue
