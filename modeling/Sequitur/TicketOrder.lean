import Sequitur.MPSCQueue
import Sequitur.Runs

namespace Sequitur.TicketOrder

open Rings MPSCQueue

variable {ι T : Type} [DecidableEq ι] {q q' : Queue ι T} {a : MPSCQueue.Action ι T}

theorem pushStep_claims (q : Queue ι T) (i : ι) (packet torn : T) (spurious : Bool) :
    q.claims.length ≤ (q.pushStep i packet torn spurious).1.claims.length := by
  rw [Queue.pushStep]
  split
  · split <;> exact Nat.le_refl _
  · exact Nat.le_refl _
  · split
    · exact Nat.le_refl _
    · split <;> exact Nat.le_refl _
  · split
    · simp
    · exact Nat.le_refl _
  · exact Nat.le_refl _
  · exact Nat.le_refl _
  · exact Nat.le_refl _

omit [DecidableEq ι] in
theorem popStep_claims (q : Queue ι T) : q.popStep.1.claims = q.claims := by
  rw [Queue.popStep]
  split
  · rfl
  · split <;> rfl
  · rfl
  · rfl
  · rfl

theorem step_inv (h : q.claims.length < 2 ^ 63 → Inv q) (hs : step q a = some q') (hb : q'.claims.length < 2 ^ 63) :
    Inv q' := by
  cases a with
  | push i packet torn spurious =>
      obtain rfl := Option.some.inj hs
      have hlt := Nat.lt_of_le_of_lt (pushStep_claims q i packet torn spurious) hb
      exact pushStep_inv (h hlt) hlt i packet torn spurious
  | pop =>
      obtain rfl := Option.some.inj hs
      have hlt : q.claims.length < 2 ^ 63 := by rwa [popStep_claims] at hb
      exact popStep_inv (h hlt) hlt
  | shutdown =>
      obtain rfl := Option.some.inj hs
      obtain ⟨htail, hroom, hordered, hcells, hproducers, hconsumer, hown⟩ := h hb
      exact ⟨htail, hroom, hordered, hcells, hproducers, hconsumer, hown⟩

theorem run_inv {data : Nat → T} {actions : List (MPSCQueue.Action ι T)}
    (hr : Runs.run step (Queue.init data) actions = some q) (hb : q.claims.length < 2 ^ 63) : Inv q := by
  have hinit : (Queue.init data : Queue ι T).claims.length < 2 ^ 63 → Inv (Queue.init data : Queue ι T) :=
    fun _ => init_inv data
  exact Runs.run_invariant (fun _ _ _ => step_inv) hinit hr hb

theorem ticket_toNat {k : Nat} (hk : k < 2 ^ 64) : (cursor 0 k : BitVec 64).toNat = k := by
  have h := cursor_sub (0 : BitVec 64) (Nat.zero_le k) hk
  simpa using h

section Results

variable {i : ι} {x : T} {t : BitVec 64}

theorem holder_unique (h : Inv q) (hb : q.claims.length < 2 ^ 63) {j : ι} {y : T}
    (hi : (q.producers i).holds = some (x, t)) (hj : (q.producers j).holds = some (y, t)) : i = j ∧ x = y := by
  obtain ⟨k, hk, -, hlt, -, hc, -⟩ := h.ticket hi
  obtain ⟨k', hk', -, hlt', -, hc', -⟩ := h.ticket hj
  obtain rfl : k = k' := ticket_inj (by omega) (by omega) (hk.symm.trans hk')
  rw [hc] at hc'
  exact Prod.mk.inj (Option.some.inj hc')

theorem holder_slot_ne (h : Inv q) (hb : q.claims.length < 2 ^ 63) (hi : (q.producers i).holds = some (x, t))
    {k : Nat} (hk : q.popped.length ≤ k) (hlt : k < q.claims.length) (hpub : Published q.buffer k) :
    slot 11 (cursor 0 k : BitVec 64) ≠ slot 11 t := by
  obtain ⟨k', rfl, hk', hlt', hwin', -, hs⟩ := h.ticket hi
  have hroom := h.room
  apply slot_ticket_ne hk (by omega) hk' hwin'
  rintro rfl
  have := ticket_inj (by omega) (by omega) (hs.symm.trans hpub)
  omega

theorem reads_published (h : Inv q) (hb : q.claims.length < 2 ^ 63) {u : BitVec 64} (hc : q.consumer = .advanced u) :
    (∃ i, q.claims[q.popped.length]? = some (i, (q.buffer (slot 11 u)).data)) ∧
      ∀ i x t, (q.producers i).holds = some (x, t) → slot 11 u ≠ slot 11 t := by
  have hsound := h.consumer
  rw [hc] at hsound
  obtain ⟨-, rfl, hpub⟩ := hsound
  obtain ⟨j, hj⟩ := h.published_data hb hpub
  have hlt := (List.getElem?_eq_some_iff.mp hj).1
  exact ⟨⟨j, hj⟩, fun i x t hi => holder_slot_ne h hb hi (Nat.le_refl _) hlt hpub⟩

theorem own_order (h : Inv q) (i : ι) :
    ((q.claims.take q.popped.length).filter fun c => c.1 = i).map Prod.snd <+:
      q.returned i ++ ((q.producers i).holds.map Prod.fst).toList := by
  rw [← h.own i]
  exact ((List.take_prefix _ _).filter _).map _

theorem pop_none (h : Inv q) (hn : q.popStep.2 = some none) :
    q.head = cursor 0 q.popped.length ∧ ¬ Published q.buffer q.popped.length ∧
      (q.claims.length = q.popped.length ∨ ∃ i x, (q.producers i).holds = some (x, q.head)) := by
  have hsound := h.consumer
  rw [Queue.popStep] at hn
  split at hn
  next => simp at hn
  next u he =>
    rw [he] at hsound
    obtain ⟨hhead, hu⟩ := hsound
    split at hn
    next => simp at hn
    next hz =>
      rw [hu, cursor_add_one, sub_toInt_eq_zero] at hz
      refine ⟨hhead, hz, ?_⟩
      rcases h.cells q.popped.length (Nat.le_refl _) (Nat.lt_add_of_pos_right (by decide)) with ⟨-, hheld⟩ | ⟨hpub, -⟩
      · rcases Nat.lt_or_eq_of_le h.released_le with hlt | heq
        · have hget : q.claims[q.popped.length]? = some q.claims[q.popped.length] := List.getElem?_eq_getElem hlt
          exact .inr ⟨_, _, hhead ▸ hheld _ _ hget⟩
        · exact .inl heq.symm
      · exact absurd hpub hz
  next => simp at hn
  next => simp at hn
  next => simp at hn

theorem push_false (h : Inv q) (hb : q.claims.length < 2 ^ 63) {packet torn : T} {spurious : Bool}
    (hf : (q.pushStep i packet torn spurious).2 = some false) :
    q.stopFlag = true ∨ ∃ x t, q.producers i = .loaded x t ∧
      (q.popped.length + 2 ^ 11 ≤ t.toNat ∨ t.toNat + 2 ^ 63 < q.popped.length + 2 ^ 11) := by
  rw [Queue.pushStep] at hf
  split at hf
  next =>
    split at hf
    next hstop => exact .inl hstop
    next => simp at hf
  next => simp at hf
  next x t he =>
    have hsound := h.producers i
    rw [he] at hsound
    obtain ⟨n, hn, rfl⟩ := hsound
    refine .inr ⟨x, _, he, ?_⟩
    rw [ticket_toNat (by omega)]
    split at hf
    next => simp at hf
    next =>
      split at hf
      next hneg =>
        obtain ⟨k, hle, hlt, hmod, hseq | ⟨hseq, hk⟩⟩ := h.sequence_cases n
        · rw [hseq] at hneg
          by_contra hno
          rw [cursor_sub_toInt 0 (by omega) (by omega)] at hneg
          omega
        · rw [hseq] at hneg
          by_contra hno
          rw [cursor_sub_toInt 0 (by omega) (by omega)] at hneg
          omega
      next => simp at hf
  next => split at hf <;> simp at hf
  next => simp at hf
  next => simp at hf
  next => simp at hf

end Results

/-- With fewer than `2 ^ 63` tickets, whatever the interleaving: a ticket has
one producer, namely that of the next claim; packets leave the queue in ticket
order; cells are written only while they are free and read only once they are
complete; and `pop` and `push` give up only for lack of a packet or of a cell,
but for a push whose ticket has become too old for the signed comparison. -/
theorem packets_in_ticket_order {data : Nat → T} {actions : List (MPSCQueue.Action ι T)}
    (hr : Runs.run step (Queue.init data) actions = some q) (hb : q.claims.length < 2 ^ 63) :
    (∀ i j x y t, (q.producers i).holds = some (x, t) → (q.producers j).holds = some (y, t) → i = j ∧ x = y) ∧
      (∀ i x t, q.producers i = .claiming x t → q.tail = t → t.toNat = q.claims.length) ∧
      (∀ i x t, (q.producers i).holds = some (x, t) → ∀ k, q.popped.length ≤ k → k < q.claims.length →
        Published q.buffer k → slot 11 (cursor 0 k : BitVec 64) ≠ slot 11 t) ∧
      (∀ u, q.consumer = .advanced u →
        (∃ i, q.claims[q.popped.length]? = some (i, (q.buffer (slot 11 u)).data)) ∧
          ∀ i x t, (q.producers i).holds = some (x, t) → slot 11 u ≠ slot 11 t) ∧
      q.popped <+: q.claims.map Prod.snd ∧
      (∀ i, ((q.claims.take q.popped.length).filter fun c => c.1 = i).map Prod.snd <+:
        q.returned i ++ ((q.producers i).holds.map Prod.fst).toList) ∧
      (q.popStep.2 = some none → q.head = cursor 0 q.popped.length ∧ ¬ Published q.buffer q.popped.length ∧
        (q.claims.length = q.popped.length ∨ ∃ i x, (q.producers i).holds = some (x, q.head))) ∧
      (∀ i packet torn spurious, (q.pushStep i packet torn spurious).2 = some false →
        q.stopFlag = true ∨ ∃ x t, q.producers i = .loaded x t ∧
          (q.popped.length + 2 ^ 11 ≤ t.toNat ∨ t.toNat + 2 ^ 63 < q.popped.length + 2 ^ 11)) ∧
      q.claims.length ≤ q.popped.length + 2 ^ 11 := by
  have h := run_inv hr hb
  refine ⟨fun i j x y t => holder_unique h hb, fun i x t _ ht => ?_,
    fun i x t hi k hk hlt => holder_slot_ne h hb hi hk hlt, fun u => reads_published h hb, h.ordered, own_order h, pop_none h, fun i packet torn spurious => push_false h hb,
    h.room⟩
  rw [← ht, h.tail]
  exact ticket_toNat (by omega)

def contention : List (MPSCQueue.Action Bool Nat) :=
  [List.replicate 3 (.push true 8 0 false), List.replicate 7 (.push false 7 0 false),
    List.replicate 7 (.push true 8 0 false), List.replicate 5 .pop].flatten

theorem packets_in_ticket_order_contention :
    ∃ q, Runs.run step (Queue.init fun _ => 0) contention = some q ∧ q.claims = [(false, 7), (true, 8)] ∧
      q.popped = [7] ∧ q.popped <+: q.claims.map Prod.snd ∧ q.claims.length ≤ q.popped.length + 2 ^ 11 := by
  have hrun : ∃ q, Runs.run step (Queue.init fun _ => 0) contention = some q ∧ q.claims = [(false, 7), (true, 8)] ∧
      q.popped = [7] := ⟨_, rfl, rfl, rfl⟩
  obtain ⟨q, hr, hclaims, hpopped⟩ := hrun
  obtain ⟨-, -, -, -, hordered, -, -, -, hroom⟩ := packets_in_ticket_order hr (by rw [hclaims]; decide)
  exact ⟨q, hr, hclaims, hpopped, hordered, hroom⟩

section StaleTicket

theorem run_push {i : ι} {x : T} (hp : q.producers i = .idle) (hf : q.stopFlag = false)
    (hs : (q.buffer (slot 11 q.tail)).sequence = q.tail) :
    Runs.run step q (List.replicate 7 (.push i x x false)) = some
      { q with
        buffer := Function.update q.buffer (slot 11 q.tail) ⟨q.tail + 1, x⟩
        tail := q.tail + 1
        producers := Function.update q.producers i .idle
        claims := q.claims ++ [(i, x)]
        returned := Function.update q.returned i (q.returned i ++ [x]) } := by
  have hz : (q.tail - q.tail).toInt = 0 := sub_toInt_eq_zero.mpr rfl
  simp only [List.replicate, Runs.run_cons, step, Queue.pushStep, hp, hf, hs, hz, Function.update_self,
    Function.update_idem, Bool.false_eq_true, if_false, if_true, and_self, Option.bind_some, Runs.run_nil]

theorem run_pop (hc : q.consumer = .idle) (hs : (q.buffer (slot 11 q.head)).sequence = q.head + 1) :
    Runs.run step q (List.replicate 5 .pop) = some
      { q with
        buffer := Function.update q.buffer (slot 11 q.head) ⟨q.head + 2048, (q.buffer (slot 11 q.head)).data⟩
        head := q.head + 1
        consumer := .idle
        popped := q.popped ++ [(q.buffer (slot 11 q.head)).data] } := by
  have hz : (q.head + 1 - (q.head + 1)).toInt = 0 := sub_toInt_eq_zero.mpr rfl
  simp only [List.replicate, Runs.run_cons, step, Queue.popStep, hc, hs, hz, if_true, Option.bind_some, Runs.run_nil]

structure Stalled (k : Nat) (q : Queue Bool Nat) : Prop where
  tail : q.tail = cursor 0 k
  head : q.head = cursor 0 k
  stopFlag : q.stopFlag = false
  stale : q.producers false = .loaded 7 0
  idle : q.producers true = .idle
  consumer : q.consumer = .idle
  claims : q.claims.length = k
  popped : q.popped.length = k
  free : ∀ j, k ≤ j → j < k + 2 ^ 11 → (q.buffer (slot 11 (cursor 0 j : BitVec 64))).sequence = cursor 0 j

theorem Stalled.succ {k : Nat} {q : Queue Bool Nat} (h : Stalled k q) :
    ∃ actions q', Runs.run step q actions = some q' ∧ Stalled (k + 1) q' := by
  have hfree : (q.buffer (slot 11 q.tail)).sequence = q.tail := by
    rw [h.tail]
    exact h.free k (Nat.le_refl _) (Nat.lt_add_of_pos_right (by decide))
  have hpush := run_push (x := 8) h.idle h.stopFlag hfree
  have hpublished : (Function.update q.buffer (slot 11 q.tail) ⟨q.tail + 1, 8⟩ (slot 11 q.head)).sequence =
      q.head + 1 := by
    rw [h.head, h.tail, Function.update_self]
  have hpop := run_pop (q := { q with
      buffer := Function.update q.buffer (slot 11 q.tail) ⟨q.tail + 1, 8⟩
      tail := q.tail + 1
      producers := Function.update q.producers true .idle
      claims := q.claims ++ [(true, 8)]
      returned := Function.update q.returned true (q.returned true ++ [8]) }) h.consumer hpublished
  refine ⟨_, _, Runs.run_trans hpush hpop, ?_, ?_, h.stopFlag, ?_, ?_, rfl, ?_, ?_, fun j hj hlt => ?_⟩
  · dsimp only
    rw [h.tail, cursor_add_one]
  · dsimp only
    rw [h.head, cursor_add_one]
  · simpa using h.stale
  · simp
  · simp [h.claims]
  · simp [h.popped]
  · dsimp only
    rw [h.head, h.tail, Function.update_idem]
    by_cases he : j = k + 2 ^ 11
    · have hlap : (2048 : BitVec 64) = BitVec.ofNat 64 (2 ^ 11) := by decide
      have hslot : slot 11 (cursor 0 j : BitVec 64) = slot 11 (cursor 0 k : BitVec 64) := by
        rw [slot_ticket, slot_ticket, he, Nat.add_mod_right]
      rw [hslot, Function.update_self, he, hlap, cursor_add]
    · rw [Function.update_of_ne (slot_ticket_ne (by omega) (by omega) (Nat.le_refl k) (by omega) (by omega))]
      exact h.free j (by omega) (by omega)

theorem exists_stalled (k : Nat) :
    ∃ actions q, Runs.run step (Queue.init fun _ => 0) actions = some q ∧ Stalled k q := by
  induction k with
  | zero =>
      have hinit := (init_inv fun _ => 0 : Inv (Queue.init fun _ => 0 : Queue Bool Nat))
      refine ⟨[.push false 7 7 false, .push false 7 7 false], _, rfl, rfl, rfl, rfl, rfl, rfl, rfl, rfl, rfl,
        fun j hj hlt => ?_⟩
      rcases hinit.cells j hj hlt with ⟨hs, -⟩ | ⟨-, i, hc⟩
      · exact hs
      · simp [Queue.init] at hc
  | succ k ih =>
      obtain ⟨actions, q, hr, hq⟩ := ih
      obtain ⟨actions', q', hr', hq'⟩ := hq.succ
      exact ⟨_, q', Runs.run_trans hr hr', hq'⟩

/-- A producer stalls on ticket 0 while `2 ^ 63 - 2047` packets pass. The cell
is free, but its sequence number is now `2 ^ 63`, and the push fails. -/
theorem stale_ticket_push_fails :
    ∃ actions q, Runs.run step (Queue.init fun _ => 0 : Queue Bool Nat) actions = some q ∧
      q.claims.length < 2 ^ 63 ∧ q.stopFlag = false ∧
      (∃ x t, q.producers false = .loaded x t ∧ ¬ q.popped.length + 2 ^ 11 ≤ t.toNat) ∧
      (q.pushStep false 7 7 false).2 = some false := by
  obtain ⟨actions, q, hr, h⟩ := exists_stalled (2 ^ 63 - 2047)
  have hseq : (q.buffer (slot 11 (0 : BitVec 64))).sequence = cursor 0 (2 ^ 63) := by
    rw [← h.free (2 ^ 63) (by omega) (by omega), slot_ticket]
    rfl
  have hdiff : ((cursor 0 (2 ^ 63) : BitVec 64) - 0).toInt = -2 ^ 63 := by decide
  refine ⟨actions, q, hr, by rw [h.claims]; omega, h.stopFlag, ⟨7, 0, h.stale, ?_⟩, ?_⟩
  · rw [h.popped]
    decide
  · rw [Queue.pushStep, h.stale]
    dsimp only
    rw [hseq, hdiff, if_neg (by decide), if_pos (by decide)]

end StaleTicket

end Sequitur.TicketOrder
