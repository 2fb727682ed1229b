import Sequitur.Runs
import Sequitur.SharedSegment

namespace Sequitur.SegmentFifo

open RecordLayout Rings SharedSegment

section Views

def ingressRing (s : Image) : Ring IngressPacket 64 where
  buf := IngressPacket.ofValues ∘ records goIngressPacket 65536 s 32
  readIdx := s.word 0
  writeIdx := s.word 8

def egressRing (s : Image) : Ring EgressPacket 64 where
  buf := EgressPacket.ofValues ∘ records coreEgressPacket 65536 s 2097184
  readIdx := s.word 16
  writeIdx := s.word 24

variable {s s' : Image}

theorem ingress_slots (h : ∀ x, 32 ≤ x → x < 2097184 → s' x = s x) : (ingressRing s').buf = (ingressRing s).buf :=
  congrArg (IngressPacket.ofValues ∘ ·) (ingress_packed.records_congr h)

theorem egress_slots (h : ∀ x, 2097184 ≤ x → s' x = s x) : (egressRing s').buf = (egressRing s).buf :=
  congrArg (EgressPacket.ofValues ∘ ·) (egress_packed.records_congr fun x hx _ => h x hx)

theorem ingressRing_congr (h : ∀ x, x < 16 ∨ 32 ≤ x ∧ x < 2097184 → s' x = s x) : ingressRing s' = ingressRing s :=
  Rings.Ring.ext (ingress_slots fun x hx hlt => h x (.inr ⟨hx, hlt⟩)) (Image.word_congr fun x _ hlt => h x (by omega))
    (Image.word_congr fun x _ hlt => h x (by omega))

theorem egressRing_congr (h : ∀ x, 16 ≤ x ∧ x < 32 ∨ 2097184 ≤ x → s' x = s x) : egressRing s' = egressRing s :=
  Rings.Ring.ext (egress_slots fun x hx => h x (.inr hx)) (Image.word_congr fun x hx hlt => h x (by omega))
    (Image.word_congr fun x hx hlt => h x (by omega))

theorem ingressRing_slot (idx : BitVec 64) :
    IngressPacket.ofValues (read coreIngressPacket.fields s (ingressOffset idx)) = (ingressRing s).buf (slot 16 idx) := by
  have hrecord : records goIngressPacket 65536 s 32 (slot 16 idx) = read goIngressPacket.fields s (ingressOffset idx) :=
    if_pos (slot_lt idx)
  rw [ingress_fields, ← hrecord]
  rfl

theorem egressRing_slot (idx : BitVec 64) :
    EgressPacket.ofValues (read goEgressPacket.fields s (egressOffset idx)) = (egressRing s).buf (slot 16 idx) := by
  have hrecord : records coreEgressPacket 65536 s 2097184 (slot 16 idx) =
      read coreEgressPacket.fields s (egressOffset idx) := if_pos (slot_lt idx)
  rw [← egress_fields, ← hrecord]
  rfl

theorem ingressRing_put (packet : IngressPacket) (idx : BitVec 64) :
    ingressRing ((write goIngressPacket.fields s (ingressOffset idx) packet.value).setWord 8 (idx + 1)) =
      ⟨Function.update (ingressRing s).buf (slot 16 idx) packet, s.word 0, idx + 1⟩ := by
  apply Rings.Ring.ext
  · refine (ingress_slots fun x hx _ => Image.setWord_outside (.inr (by omega))).trans ?_
    refine (congrArg (IngressPacket.ofValues ∘ ·) (ingress_packed.records_write (fun name => ?_) packet.value_lt
      (slot_lt idx))).trans ?_
    · cases name <;> decide
    · rw [Function.comp_update, IngressPacket.ofValues_value]
      rfl
  · exact Image.word_congr fun x _ hlt => ingress_confined s packet idx _ x (.inl (by omega)) (.inl (by omega))
  · exact Image.word_setWord _

theorem egressRing_put (packet : EgressPacket) (idx : BitVec 64) :
    egressRing ((write coreEgressPacket.fields s (egressOffset idx) packet.value).setWord 24 (idx + 1)) =
      ⟨Function.update (egressRing s).buf (slot 16 idx) packet, s.word 16, idx + 1⟩ := by
  apply Rings.Ring.ext
  · refine (egress_slots fun x hx => Image.setWord_outside (.inr (by omega))).trans ?_
    refine (congrArg (EgressPacket.ofValues ∘ ·) (egress_packed.records_write (fun name => ?_) packet.value_lt
      (slot_lt idx))).trans ?_
    · cases name <;> decide
    · rw [Function.comp_update, EgressPacket.ofValues_value]
      rfl
  · exact Image.word_congr fun x _ hlt => egress_confined s packet idx _ x (.inl (by omega)) (.inl (by omega))
  · exact Image.word_setWord _

theorem ingressRing_release (idx : BitVec 64) :
    ingressRing (s.setWord 0 idx) = ⟨(ingressRing s).buf, idx, s.word 8⟩ := by
  apply Rings.Ring.ext
  · dsimp only
    exact ingress_slots fun x hx _ => Image.setWord_outside (.inr (by omega))
  · exact Image.word_setWord idx
  · exact Image.word_congr fun x hx _ => Image.setWord_outside (.inr (by omega))

theorem egressRing_release (idx : BitVec 64) :
    egressRing (s.setWord 16 idx) = ⟨(egressRing s).buf, idx, s.word 24⟩ := by
  apply Rings.Ring.ext
  · dsimp only
    exact egress_slots fun x hx => Image.setWord_outside (.inr (by omega))
  · exact Image.word_setWord idx
  · exact Image.word_congr fun x hx _ => Image.setWord_outside (.inr (by omega))

theorem egressRing_ingress (packet : IngressPacket) (idx idx' : BitVec 64) :
    egressRing ((write goIngressPacket.fields s (ingressOffset idx) packet.value).setWord 8 idx') = egressRing s := by
  have hslot := slot_lt idx
  exact egressRing_congr fun x hx => ingress_confined s packet idx idx' x (by omega) (by omega)

theorem ingressRing_egress (packet : EgressPacket) (idx idx' : BitVec 64) :
    ingressRing ((write coreEgressPacket.fields s (egressOffset idx) packet.value).setWord 24 idx') = ingressRing s :=
  ingressRing_congr fun x hx => egress_confined s packet idx idx' x (by omega) (by omega)

end Views

/-- The segment with the two programs. `currentRead` is the index that the
core keeps, and `currentWrite` the one that the publisher keeps. The lists
record what went into the rings and what came out of them. -/
structure State where
  image : Image
  currentRead : BitVec 64
  currentWrite : BitVec 64
  enqueued : List IngressPacket
  consumed : List IngressPacket
  published : List EgressPacket
  returned : List EgressPacket

def State.init (image : Image) : State := ⟨image, image.word 0, image.word 24, [], [], [], []⟩

inductive Action
  | enqueue (packet : IngressPacket)
  | core
  | publish (packet : EgressPacket)
  | dequeue

section Machine

variable (data basePtr : Nat)

def coreStep (s : State) : Option State := do
  let currentWrite ← Mapping.loadWord ⟨basePtr, shmSize⟩ s.image (basePtr + 8)
  if s.currentRead = currentWrite then some s
  else
    let packet ← corePacket basePtr s.image s.currentRead
    let image ← Mapping.storeWord ⟨basePtr, shmSize⟩ s.image basePtr (s.currentRead + 1)
    some { s with image := image, currentRead := s.currentRead + 1, consumed := s.consumed ++ [packet] }

/-- The publisher with a packet from its queue. It does nothing while the ring
is full. -/
def publishStep (s : State) (packet : EgressPacket) : Option State := do
  let currentRead ← Mapping.loadWord ⟨basePtr, shmSize⟩ s.image (basePtr + 16)
  if 65536 ≤ (s.currentWrite - currentRead).toInt then some s
  else
    let image ← publish basePtr s.image s.currentWrite packet
    some { s with image := image, currentWrite := s.currentWrite + 1, published := s.published ++ [packet] }

/-- One call of a party. There is no next state if it leaves the segment. -/
def step (s : State) : Action → Option State
  | .enqueue packet =>
      (enqueue data s.image packet).map fun r =>
        { s with image := r.1, enqueued := s.enqueued ++ if r.2 then [packet] else [] }
  | .core => coreStep basePtr s
  | .publish packet => publishStep basePtr s packet
  | .dequeue => (dequeue data s.image).map fun r => { s with image := r.1, returned := s.returned ++ r.2.toList }

end Machine

section Calls

variable (basePtr : Nat) (s : State)

theorem coreStep_eq :
    coreStep basePtr s =
      if s.currentRead = s.image.word 8 then some s
      else
        some { s with
          image := s.image.setWord 0 (s.currentRead + 1)
          currentRead := s.currentRead + 1
          consumed := s.consumed ++ [(ingressRing s.image).buf (slot 16 s.currentRead)] } := by
  let p : Mapping := ⟨basePtr, shmSize⟩
  have hp : p.size = 6291488 := rfl
  have hwrite : p.loadWord s.image (basePtr + 8) = some (s.image.word 8) := loadWord_header hp s.image (by decide)
  have hidx (idx : BitVec 64) : p.storeWord s.image basePtr idx = some (s.image.setWord 0 idx) :=
    storeWord_header hp s.image (Nat.zero_le _) idx
  simp only [coreStep, hwrite, corePacket_eq, ingressRing_slot, hidx, Option.bind_eq_bind, Option.bind_some, p]

theorem publishStep_eq (packet : EgressPacket) :
    publishStep basePtr s packet =
      if 65536 ≤ (s.currentWrite - s.image.word 16).toInt then some s
      else
        some { s with
          image := (write coreEgressPacket.fields s.image (egressOffset s.currentWrite) packet.value).setWord 24
            (s.currentWrite + 1)
          currentWrite := s.currentWrite + 1
          published := s.published ++ [packet] } := by
  let p : Mapping := ⟨basePtr, shmSize⟩
  have hp : p.size = 6291488 := rfl
  have hread : p.loadWord s.image (basePtr + 16) = some (s.image.word 16) := loadWord_header hp s.image (by decide)
  simp only [publishStep, hread, publish_eq, Option.bind_eq_bind, Option.bind_some, p]

end Calls

structure Inv (base base' : BitVec 64) (s : State) : Prop where
  ingress : Carries 16 base (ingressRing s.image) s.consumed.length s.enqueued
  consumed : s.consumed <+: s.enqueued
  currentRead : s.currentRead = s.image.word 0
  egress : Carries 16 base' (egressRing s.image) s.returned.length s.published
  returned : s.returned <+: s.published
  currentWrite : s.currentWrite = s.image.word 24

section Steps

variable {data basePtr : Nat} {base base' : BitVec 64} {s : State}

theorem init_inv {image : Image} (hingress : image.word 0 = image.word 8) (hegress : image.word 16 = image.word 24) :
    Inv (image.word 0) (image.word 16) (.init image) := by
  have hin : ingressRing image = ⟨(ingressRing image).buf, image.word 0, image.word 0⟩ :=
    Rings.Ring.ext rfl rfl hingress.symm
  have hout : egressRing image = ⟨(egressRing image).buf, image.word 16, image.word 16⟩ :=
    Rings.Ring.ext rfl rfl hegress.symm
  refine ⟨?_, List.prefix_rfl, rfl, ?_, List.prefix_rfl, rfl⟩
  · rw [State.init, hin]
    exact .init 16 _ _
  · rw [State.init, hout]
    exact .init 16 _ _

theorem Inv.of_rings {r : Ring IngressPacket 64} {r' : Ring EgressPacket 64} (hr : ingressRing s.image = r)
    (hr' : egressRing s.image = r') (hingress : Carries 16 base r s.consumed.length s.enqueued)
    (hconsumed : s.consumed <+: s.enqueued) (hread : s.currentRead = r.readIdx)
    (hegress : Carries 16 base' r' s.returned.length s.published) (hreturned : s.returned <+: s.published)
    (hwrite : s.currentWrite = r'.writeIdx) : Inv base base' s := by
  subst hr hr'
  exact ⟨hingress, hconsumed, hread, hegress, hreturned, hwrite⟩

theorem enqueue_inv (h : Inv base base' s) (packet : IngressPacket) :
    ∃ s', step data basePtr s (.enqueue packet) = some s' ∧ Inv base base' s' := by
  rw [step, enqueue_eq]
  by_cases hfull : s.image.word 8 - s.image.word 0 = 65536
  · rw [if_pos hfull]
    refine ⟨_, rfl, ?_⟩
    simpa using h
  · rw [if_neg hfull]
    have hput := h.ingress.push (by decide) (fun he => hfull (BitVec.eq_of_toNat_eq he)) packet
    exact ⟨_, rfl, .of_rings (ingressRing_put packet _) (egressRing_ingress packet _ _) hput
      (h.consumed.trans (List.prefix_append _ _)) h.currentRead h.egress h.returned h.currentWrite⟩

theorem core_inv (h : Inv base base' s) : ∃ s', step data basePtr s .core = some s' ∧ Inv base base' s' := by
  rw [step, coreStep_eq]
  by_cases hempty : s.currentRead = s.image.word 8
  · rw [if_pos hempty]
    exact ⟨s, rfl, h⟩
  · rw [if_neg hempty]
    -- The core keeps the read index to itself, so the slot is the one of the index in the segment.
    rw [h.currentRead] at hempty ⊢
    obtain ⟨htake, hordered⟩ := h.ingress.pop (by decide) h.consumed hempty
    have hframe : egressRing (s.image.setWord 0 (s.image.word 0 + 1)) = egressRing s.image :=
      egressRing_congr fun x hx => Image.setWord_outside (.inr (by omega))
    exact ⟨_, rfl, .of_rings (ingressRing_release _) hframe htake hordered rfl h.egress h.returned h.currentWrite⟩

theorem publish_inv (h : Inv base base' s) (packet : EgressPacket) :
    ∃ s', step data basePtr s (.publish packet) = some s' ∧ Inv base base' s' := by
  rw [step, publishStep_eq]
  by_cases hfull : 65536 ≤ (s.currentWrite - s.image.word 16).toInt
  · rw [if_pos hfull]
    exact ⟨s, rfl, h⟩
  · rw [if_neg hfull]
    rw [h.currentWrite] at hfull ⊢
    -- The publisher compares signed numbers; a ring that is full is well below the sign bit.
    have hdistance : (s.image.word 24 - s.image.word 16).toNat ≠ 65536 := by
      intro he
      rw [BitVec.toInt_eq_toNat_of_lt (by omega)] at hfull
      omega
    have hput := h.egress.push (by decide) hdistance packet
    exact ⟨_, rfl, .of_rings (ingressRing_egress packet _ _) (egressRing_put packet _) h.ingress h.consumed
      h.currentRead hput (h.returned.trans (List.prefix_append _ _)) rfl⟩

theorem dequeue_inv (h : Inv base base' s) : ∃ s', step data basePtr s .dequeue = some s' ∧ Inv base base' s' := by
  rw [step, dequeue_eq]
  by_cases hempty : s.image.word 16 = s.image.word 24
  · rw [if_pos hempty]
    refine ⟨_, rfl, ?_⟩
    simpa using h
  · rw [if_neg hempty, egressRing_slot]
    obtain ⟨htake, hordered⟩ := h.egress.pop (by decide) h.returned hempty
    have hframe : ingressRing (s.image.setWord 16 (s.image.word 16 + 1)) = ingressRing s.image :=
      ingressRing_congr fun x hx => Image.setWord_outside (by omega)
    exact ⟨_, rfl, .of_rings hframe (egressRing_release _) h.ingress h.consumed h.currentRead htake hordered
      h.currentWrite⟩

theorem step_inv (h : Inv base base' s) (action : Action) :
    ∃ s', step data basePtr s action = some s' ∧ Inv base base' s' := by
  cases action with
  | enqueue packet => exact enqueue_inv h packet
  | core => exact core_inv h
  | publish packet => exact publish_inv h packet
  | dequeue => exact dequeue_inv h

end Steps

/-- However the calls of the two programs follow each other, none leaves the
segment, and both rings deliver all packets unchanged and in order. -/
theorem run_fifo (data basePtr : Nat) {image : Image} (hingress : image.word 0 = image.word 8)
    (hegress : image.word 16 = image.word 24) (actions : List Action) :
    ∃ s, Runs.run (step data basePtr) (.init image) actions = some s ∧
      s.consumed <+: s.enqueued ∧ s.enqueued.length ≤ s.consumed.length + 65536 ∧
      s.returned <+: s.published ∧ s.published.length ≤ s.returned.length + 65536 := by
  obtain ⟨s, hr, h⟩ := Runs.run_total (P := fun _ _ => True) (fun s action h _ => step_inv h action)
    (init_inv hingress hegress) (Runs.Along.of_forall fun _ _ _ => trivial)
  exact ⟨s, hr, h.consumed, h.ingress.room, h.returned, h.egress.room⟩

end Sequitur.SegmentFifo
