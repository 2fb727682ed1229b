import Sequitur.RecordLayout
import Sequitur.Rings

namespace Sequitur.SharedSegment

open RecordLayout Rings

section Packets

inductive IngressField
  | type | side | padding16 | instrumentId | traderId | quantity | price | clientOrderId
  deriving DecidableEq

inductive EgressField
  | type | side | padding16 | instrumentId | clientOrderId | makerId | takerId | matchPrice | matchQuantity
  | leavesQuantity | padding
  deriving DecidableEq

structure IngressPacket where
  type : UInt8
  side : UInt8
  padding16 : UInt16
  instrumentId : UInt32
  traderId : UInt32
  quantity : UInt32
  price : UInt64
  clientOrderId : UInt64
  deriving DecidableEq

/-- An `EgressPacket` of either program. The byte of its type can have any
value, and the sixteen bytes of `padding` are one number. -/
structure EgressPacket where
  type : UInt8
  side : UInt8
  padding16 : UInt16
  instrumentId : UInt32
  clientOrderId : UInt64
  makerId : UInt64
  takerId : UInt64
  matchPrice : UInt64
  matchQuantity : UInt32
  leavesQuantity : UInt32
  padding : BitVec 128
  deriving DecidableEq

def IngressPacket.value (p : IngressPacket) : IngressField → Nat
  | .type => p.type.toNat
  | .side => p.side.toNat
  | .padding16 => p.padding16.toNat
  | .instrumentId => p.instrumentId.toNat
  | .traderId => p.traderId.toNat
  | .quantity => p.quantity.toNat
  | .price => p.price.toNat
  | .clientOrderId => p.clientOrderId.toNat

def IngressPacket.ofValues (v : IngressField → Nat) : IngressPacket where
  type := .ofNat (v .type)
  side := .ofNat (v .side)
  padding16 := .ofNat (v .padding16)
  instrumentId := .ofNat (v .instrumentId)
  traderId := .ofNat (v .traderId)
  quantity := .ofNat (v .quantity)
  price := .ofNat (v .price)
  clientOrderId := .ofNat (v .clientOrderId)

def EgressPacket.value (p : EgressPacket) : EgressField → Nat
  | .type => p.type.toNat
  | .side => p.side.toNat
  | .padding16 => p.padding16.toNat
  | .instrumentId => p.instrumentId.toNat
  | .clientOrderId => p.clientOrderId.toNat
  | .makerId => p.makerId.toNat
  | .takerId => p.takerId.toNat
  | .matchPrice => p.matchPrice.toNat
  | .matchQuantity => p.matchQuantity.toNat
  | .leavesQuantity => p.leavesQuantity.toNat
  | .padding => p.padding.toNat

def EgressPacket.ofValues (v : EgressField → Nat) : EgressPacket where
  type := .ofNat (v .type)
  side := .ofNat (v .side)
  padding16 := .ofNat (v .padding16)
  instrumentId := .ofNat (v .instrumentId)
  clientOrderId := .ofNat (v .clientOrderId)
  makerId := .ofNat (v .makerId)
  takerId := .ofNat (v .takerId)
  matchPrice := .ofNat (v .matchPrice)
  matchQuantity := .ofNat (v .matchQuantity)
  leavesQuantity := .ofNat (v .leavesQuantity)
  padding := .ofNat 128 (v .padding)

@[simp] theorem IngressPacket.ofValues_value (p : IngressPacket) : ofValues p.value = p := by
  simp [ofValues, value]

@[simp] theorem EgressPacket.ofValues_value (p : EgressPacket) : ofValues p.value = p := by
  simp [ofValues, value]

end Packets

section Gateway

open Member

def goIngressPacket : Record IngressField where
  members := [uint 1 .type, uint 1 .side, uint 2 .padding16, uint 4 .instrumentId, uint 4 .traderId,
    uint 4 .quantity, uint 8 .price, uint 8 .clientOrderId]
  align := 1

def goEgressPacket : Record EgressField where
  members := [uint 1 .type, uint 1 .side, uint 2 .padding16, uint 4 .instrumentId, uint 8 .clientOrderId,
    uint 8 .makerId, uint 8 .takerId, uint 8 .matchPrice, uint 4 .matchQuantity, uint 4 .leavesQuantity,
    array 16 .padding]
  align := 1

def ingressPacketsSize : Nat := 65536 * goIngressPacket.size

def egressPacketsSize : Nat := 65536 * goEgressPacket.size

def totalSize : Nat := 8 + 8 + 8 + 8 + ingressPacketsSize + egressPacketsSize

structure SharedMemory where
  ingressReadIdx : Nat
  ingressWriteIdx : Nat
  egressReadIdx : Nat
  egressWriteIdx : Nat
  ingressBuffer : Nat
  egressBuffer : Nat

def initSharedMemory (data : Nat) : SharedMemory where
  ingressReadIdx := data
  ingressWriteIdx := data + 8
  egressReadIdx := data + 16
  egressWriteIdx := data + 24
  ingressBuffer := data + 32
  egressBuffer := data + (32 + ingressPacketsSize)

/-- `Enqueue` in a gateway that has mapped the segment at `data`. There is no
result if it leaves the segment. -/
def enqueue (data : Nat) (s : Image) (packet : IngressPacket) : Option (Image × Bool) := do
  let shm := initSharedMemory data
  let currRead ← Mapping.loadWord ⟨data, totalSize⟩ s shm.ingressReadIdx
  let currWrite ← Mapping.loadWord ⟨data, totalSize⟩ s shm.ingressWriteIdx
  if currWrite - currRead = 65536 then some (s, false)
  else
    let targetAddr := shm.ingressBuffer + slot 16 currWrite * goIngressPacket.size
    let s ← Mapping.writeRecord ⟨data, totalSize⟩ s targetAddr goIngressPacket packet.value
    let s ← Mapping.storeWord ⟨data, totalSize⟩ s shm.ingressWriteIdx (currWrite + 1)
    some (s, true)

def dequeue (data : Nat) (s : Image) : Option (Image × Option EgressPacket) := do
  let shm := initSharedMemory data
  let currRead ← Mapping.loadWord ⟨data, totalSize⟩ s shm.egressReadIdx
  let currWrite ← Mapping.loadWord ⟨data, totalSize⟩ s shm.egressWriteIdx
  if currRead = currWrite then some (s, none)
  else
    let targetAddr := shm.egressBuffer + slot 16 currRead * goEgressPacket.size
    let packet ← Mapping.readRecord ⟨data, totalSize⟩ s targetAddr goEgressPacket
    let s ← Mapping.storeWord ⟨data, totalSize⟩ s shm.egressReadIdx (currRead + 1)
    some (s, some (.ofValues packet))

end Gateway

section Core

open Member

/-- The struct of the core, declared with `alignas(32)`. -/
def coreIngressPacket : Record IngressField where
  members := [uint 1 .type, uint 1 .side, uint 2 .padding16, uint 4 .instrumentId, uint 4 .traderId,
    uint 4 .quantity, uint 8 .price, uint 8 .clientOrderId]
  align := 32

def coreEgressPacket : Record EgressField where
  members := [uint 1 .type, uint 1 .side, uint 2 .padding16, uint 4 .instrumentId, uint 8 .clientOrderId,
    uint 8 .makerId, uint 8 .takerId, uint 8 .matchPrice, uint 4 .matchQuantity, uint 4 .leavesQuantity,
    array 16 .padding]
  align := 64

def ringSize : Nat := 65536

def ingressRingBytes : Nat := ringSize * coreIngressPacket.size

def egressRingBytes : Nat := ringSize * coreEgressPacket.size

def shmSize : Nat := 8 + 8 + 8 + 8 + ingressRingBytes + egressRingBytes

def ingressSlot (basePtr : Nat) (currentRead : BitVec 64) : Nat :=
  basePtr + 32 + slot 16 currentRead * coreIngressPacket.size

def egressSlot (basePtr : Nat) (currentWrite : BitVec 64) : Nat :=
  basePtr + 32 + ingressRingBytes + slot 16 currentWrite * coreEgressPacket.size

def corePacket (basePtr : Nat) (s : Image) (currentRead : BitVec 64) : Option IngressPacket :=
  (Mapping.readRecord ⟨basePtr, shmSize⟩ s (ingressSlot basePtr currentRead) coreIngressPacket).map .ofValues

def publish (basePtr : Nat) (s : Image) (currentWrite : BitVec 64) (packet : EgressPacket) : Option Image := do
  let s ← Mapping.writeRecord ⟨basePtr, shmSize⟩ s (egressSlot basePtr currentWrite) coreEgressPacket packet.value
  Mapping.storeWord ⟨basePtr, shmSize⟩ s (basePtr + 24) (currentWrite + 1)

end Core

section Layouts

theorem ingress_fields : coreIngressPacket.fields = goIngressPacket.fields := rfl

theorem egress_fields : coreEgressPacket.fields = goEgressPacket.fields := rfl

theorem goIngressPacket_fields : goIngressPacket.fields =
    [⟨.type, 0, 1⟩, ⟨.side, 1, 1⟩, ⟨.padding16, 2, 2⟩, ⟨.instrumentId, 4, 4⟩, ⟨.traderId, 8, 4⟩, ⟨.quantity, 12, 4⟩,
      ⟨.price, 16, 8⟩, ⟨.clientOrderId, 24, 8⟩] := rfl

theorem coreEgressPacket_fields : coreEgressPacket.fields =
    [⟨.type, 0, 1⟩, ⟨.side, 1, 1⟩, ⟨.padding16, 2, 2⟩, ⟨.instrumentId, 4, 4⟩, ⟨.clientOrderId, 8, 8⟩,
      ⟨.makerId, 16, 8⟩, ⟨.takerId, 24, 8⟩, ⟨.matchPrice, 32, 8⟩, ⟨.matchQuantity, 40, 4⟩, ⟨.leavesQuantity, 44, 4⟩,
      ⟨.padding, 48, 16⟩] := rfl

theorem ingress_packed : goIngressPacket.Packed := ⟨by decide, by decide, by decide⟩

theorem egress_packed : coreEgressPacket.Packed := ⟨by decide, by decide, by decide⟩

theorem IngressPacket.value_lt (p : IngressPacket) : ∀ f ∈ goIngressPacket.fields, p.value f.name < 256 ^ f.size := by
  rw [goIngressPacket_fields]
  simp only [List.forall_mem_cons, List.not_mem_nil, false_imp_iff, implies_true, and_true]
  exact ⟨p.type.toNat_lt, p.side.toNat_lt, p.padding16.toNat_lt, p.instrumentId.toNat_lt, p.traderId.toNat_lt,
    p.quantity.toNat_lt, p.price.toNat_lt, p.clientOrderId.toNat_lt⟩

theorem EgressPacket.value_lt (p : EgressPacket) : ∀ f ∈ coreEgressPacket.fields, p.value f.name < 256 ^ f.size := by
  rw [coreEgressPacket_fields]
  simp only [List.forall_mem_cons, List.not_mem_nil, false_imp_iff, implies_true, and_true]
  exact ⟨p.type.toNat_lt, p.side.toNat_lt, p.padding16.toNat_lt, p.instrumentId.toNat_lt, p.clientOrderId.toNat_lt,
    p.makerId.toNat_lt, p.takerId.toNat_lt, p.matchPrice.toNat_lt, p.matchQuantity.toNat_lt,
    p.leavesQuantity.toNat_lt, p.padding.isLt⟩

variable {m : Image} {a : Nat}

theorem read_ingress (p : IngressPacket) :
    read coreIngressPacket.fields (write goIngressPacket.fields m a p.value) a = p.value := by
  rw [ingress_fields]
  refine ingress_packed.read_write (fun name => ?_) p.value_lt
  cases name <;> decide

theorem read_egress (p : EgressPacket) :
    read goEgressPacket.fields (write coreEgressPacket.fields m a p.value) a = p.value := by
  rw [← egress_fields]
  refine egress_packed.read_write (fun name => ?_) p.value_lt
  cases name <;> decide

theorem slot_lt (idx : BitVec 64) : slot 16 idx < 65536 := by
  have h := slot_cursor idx (m := 16) (by decide) 0
  rw [cursor_zero] at h
  rw [h]
  exact Nat.mod_lt _ (by decide)

end Layouts

section Offsets

def ingressOffset (idx : BitVec 64) : Nat := 32 + slot 16 idx * 32

def egressOffset (idx : BitVec 64) : Nat := 2097184 + slot 16 idx * 64

section Mapped

variable {p : Mapping} (hp : p.size = 6291488) (s : Image)

include hp

theorem loadWord_header {k : Nat} (hk : k ≤ 24) : p.loadWord s (p.base + k) = some (s.word k) :=
  Mapping.loadWord_of_le (by omega)

theorem storeWord_header {k : Nat} (hk : k ≤ 24) (idx : BitVec 64) :
    p.storeWord s (p.base + k) idx = some (s.setWord k idx) :=
  Mapping.storeWord_of_le (by omega) idx

theorem ingress_inside (idx : BitVec 64) : ingressOffset idx + 32 ≤ p.size := by
  have hslot := slot_lt idx
  rw [ingressOffset]
  omega

theorem egress_inside (idx : BitVec 64) : egressOffset idx + 64 ≤ p.size := by
  have hslot := slot_lt idx
  rw [egressOffset]
  omega

end Mapped

variable (data basePtr : Nat) (s : Image)

theorem enqueue_eq (packet : IngressPacket) :
    enqueue data s packet =
      if s.word 8 - s.word 0 = 65536 then some (s, false)
      else
        some ((write goIngressPacket.fields s (ingressOffset (s.word 8)) packet.value).setWord 8 (s.word 8 + 1),
          true) := by
  let p : Mapping := ⟨data, totalSize⟩
  have hp : p.size = 6291488 := rfl
  have hread : p.loadWord s data = some (s.word 0) := loadWord_header hp s (Nat.zero_le _)
  have hwrite : p.loadWord s (data + 8) = some (s.word 8) := loadWord_header hp s (by decide)
  have hpacket (v : IngressField → Nat) :
      p.writeRecord s (data + 32 + slot 16 (s.word 8) * goIngressPacket.size) goIngressPacket v =
        some (write goIngressPacket.fields s (ingressOffset (s.word 8)) v) := by
    rw [Nat.add_assoc]
    exact Mapping.writeRecord_of_le (ingress_inside hp (s.word 8)) v
  have hidx (m : Image) (idx : BitVec 64) : p.storeWord m (data + 8) idx = some (m.setWord 8 idx) :=
    storeWord_header hp m (by decide) idx
  simp only [enqueue, initSharedMemory, hread, hwrite, hpacket, hidx, Option.bind_eq_bind, Option.bind_some, p]

theorem dequeue_eq :
    dequeue data s =
      if s.word 16 = s.word 24 then some (s, none)
      else
        some (s.setWord 16 (s.word 16 + 1),
          some (.ofValues (read goEgressPacket.fields s (egressOffset (s.word 16))))) := by
  let p : Mapping := ⟨data, totalSize⟩
  have hp : p.size = 6291488 := rfl
  have hread : p.loadWord s (data + 16) = some (s.word 16) := loadWord_header hp s (by decide)
  have hwrite : p.loadWord s (data + 24) = some (s.word 24) := loadWord_header hp s (by decide)
  have hpacket :
      p.readRecord s (data + (32 + ingressPacketsSize) + slot 16 (s.word 16) * goEgressPacket.size) goEgressPacket =
        some (read goEgressPacket.fields s (egressOffset (s.word 16))) := by
    rw [Nat.add_assoc]
    exact Mapping.readRecord_of_le (egress_inside hp (s.word 16))
  have hidx (m : Image) (idx : BitVec 64) : p.storeWord m (data + 16) idx = some (m.setWord 16 idx) :=
    storeWord_header hp m (by decide) idx
  simp only [dequeue, initSharedMemory, hread, hwrite, hpacket, hidx, Option.bind_eq_bind, Option.bind_some, p]

theorem corePacket_eq (currentRead : BitVec 64) :
    corePacket basePtr s currentRead =
      some (.ofValues (read coreIngressPacket.fields s (ingressOffset currentRead))) := by
  let p : Mapping := ⟨basePtr, shmSize⟩
  have hp : p.size = 6291488 := rfl
  have hpacket : p.readRecord s (ingressSlot basePtr currentRead) coreIngressPacket =
      some (read coreIngressPacket.fields s (ingressOffset currentRead)) := by
    rw [ingressSlot, Nat.add_assoc]
    exact Mapping.readRecord_of_le (ingress_inside hp currentRead)
  rw [corePacket, hpacket, Option.map_some]

theorem publish_eq (currentWrite : BitVec 64) (packet : EgressPacket) :
    publish basePtr s currentWrite packet =
      some ((write coreEgressPacket.fields s (egressOffset currentWrite) packet.value).setWord 24
        (currentWrite + 1)) := by
  let p : Mapping := ⟨basePtr, shmSize⟩
  have hp : p.size = 6291488 := rfl
  have hpacket : p.writeRecord s (egressSlot basePtr currentWrite) coreEgressPacket packet.value =
      some (write coreEgressPacket.fields s (egressOffset currentWrite) packet.value) := by
    rw [egressSlot, Nat.add_assoc basePtr, Nat.add_assoc basePtr]
    exact Mapping.writeRecord_of_le (egress_inside hp currentWrite) packet.value
  rw [publish, hpacket, Option.bind_eq_bind, Option.bind_some]
  exact storeWord_header hp _ (by decide) _

end Offsets

/-- A packet on its way through the segment: the gateway enqueues it, or the
publisher, whose index is `currentWrite`, passes it on. -/
inductive Passage
  | ingress (packet : IngressPacket)
  | egress (currentWrite : BitVec 64) (packet : EgressPacket)

def Confined (s s' : Image) (offset size idx : Nat) : Prop :=
  ∀ x, (x < offset ∨ offset + size ≤ x) → (x < idx ∨ idx + 8 ≤ x) → s' x = s x

/-- The write stays inside of the segment, and the other program reads what
was written wherever it comes to the same slot. -/
def Delivered (data basePtr : Nat) (s : Image) : Passage → Prop
  | .ingress packet =>
      ∃ s' ok, enqueue data s packet = some (s', ok) ∧
        if ok then
          Confined s s' (32 + slot 16 (s.word 8) * 32) 32 8 ∧
            ∀ currentRead, slot 16 currentRead = slot 16 (s.word 8) → corePacket basePtr s' currentRead = some packet
        else s' = s
  | .egress currentWrite packet =>
      ∃ s', publish basePtr s currentWrite packet = some s' ∧
        Confined s s' (2097184 + slot 16 currentWrite * 64) 64 24 ∧
          (slot 16 (s.word 16) = slot 16 currentWrite → ∃ s'', dequeue data s' = some (s'', some packet))

def Aligned (basePtr : Nat) : Passage → Prop
  | .ingress _ => ∀ currentRead, ingressSlot basePtr currentRead % coreIngressPacket.alignment = 0
  | .egress currentWrite _ => egressSlot basePtr currentWrite % coreEgressPacket.alignment = 0

def PageAligned (addr : Nat) : Prop := addr % 4096 = 0

instance : DecidablePred PageAligned := fun addr => inferInstanceAs (Decidable (addr % 4096 = 0))

section Passages

variable (data basePtr : Nat) (s : Image)

theorem ingress_confined (packet : IngressPacket) (w idx : BitVec 64) :
    Confined s ((write goIngressPacket.fields s (ingressOffset w) packet.value).setWord 8 idx)
      (32 + slot 16 w * 32) 32 8 := by
  intro x hslot hidx
  rw [Image.setWord_outside hidx]
  exact ingress_packed.write_frame hslot

theorem egress_confined (packet : EgressPacket) (w idx : BitVec 64) :
    Confined s ((write coreEgressPacket.fields s (egressOffset w) packet.value).setWord 24 idx)
      (2097184 + slot 16 w * 64) 64 24 := by
  intro x hslot hidx
  rw [Image.setWord_outside hidx]
  exact egress_packed.write_frame hslot

theorem ingress_delivered (packet : IngressPacket) : Delivered data basePtr s (.ingress packet) := by
  rw [Delivered, enqueue_eq]
  by_cases hfull : s.word 8 - s.word 0 = 65536
  · rw [if_pos hfull]
    exact ⟨s, false, rfl, rfl⟩
  · rw [if_neg hfull]
    refine ⟨_, true, rfl, ingress_confined s packet (s.word 8) _, fun currentRead hslot => ?_⟩
    have hoffset : ingressOffset currentRead = ingressOffset (s.word 8) := by
      rw [ingressOffset, hslot, ingressOffset]
    have hread : read coreIngressPacket.fields
        ((write goIngressPacket.fields s (ingressOffset (s.word 8)) packet.value).setWord 8 (s.word 8 + 1))
        (ingressOffset (s.word 8)) = packet.value := by
      refine (ingress_packed.read_congr fun x hx _ => Image.setWord_outside (.inr ?_)).trans (read_ingress packet)
      rw [ingressOffset] at hx
      omega
    rw [corePacket_eq, hoffset, hread, IngressPacket.ofValues_value]

theorem egress_delivered (w : BitVec 64) (packet : EgressPacket) :
    Delivered data basePtr s (.egress w packet) := by
  refine ⟨_, publish_eq basePtr s w packet, egress_confined s packet w _, fun hslot => ?_⟩
  set s' := (write coreEgressPacket.fields s (egressOffset w) packet.value).setWord 24 (w + 1) with hs'
  have hread : s'.word 16 = s.word 16 := by
    apply Image.word_congr
    intro x hx hlt
    apply egress_confined s packet w (w + 1)
    · left
      omega
    · left
      omega
  have hwrite : s'.word 24 = w + 1 := Image.word_setWord _
  -- The ring does not look empty: the new write index belongs to another slot than the read index.
  have hne : s.word 16 ≠ w + 1 := by
    intro he
    have hnext := slot_cursor_ne w (m := 16) (j := 0) (k := 1) (by decide) (by decide) (by decide)
    rw [← cursor_add_one, cursor_zero, ← he] at hnext
    exact hnext hslot.symm
  have hpacket : read goEgressPacket.fields s' (egressOffset w) = packet.value := by
    rw [← egress_fields]
    refine (egress_packed.read_congr fun x hx _ => Image.setWord_outside (.inr ?_)).trans ?_
    · rw [egressOffset] at hx
      omega
    · rw [egress_fields]
      exact read_egress packet
  have hoffset : egressOffset (s.word 16) = egressOffset w := by
    rw [egressOffset, hslot, egressOffset]
  rw [dequeue_eq, hread, hwrite, if_neg hne, hoffset, hpacket, EgressPacket.ofValues_value]
  exact ⟨_, rfl⟩

theorem ingressSlot_aligned (currentRead : BitVec 64) :
    ingressSlot basePtr currentRead % coreIngressPacket.alignment = 0 ↔ basePtr % 32 = 0 := by
  have hsize : coreIngressPacket.size = 32 := rfl
  have halign : coreIngressPacket.alignment = 32 := rfl
  rw [ingressSlot, hsize, halign]
  omega

theorem egressSlot_aligned (currentWrite : BitVec 64) :
    egressSlot basePtr currentWrite % coreEgressPacket.alignment = 0 ↔ basePtr % 64 = 32 := by
  have hsize : coreEgressPacket.size = 64 := rfl
  have halign : coreEgressPacket.alignment = 64 := rfl
  have hbytes : ingressRingBytes = 2097152 := rfl
  rw [egressSlot, hsize, halign, hbytes]
  omega

end Passages

structure Valid (data basePtr : Nat) (s : Image) (x : Passage) : Prop where
  delivered : Delivered data basePtr s x
  aligned : Aligned basePtr x

/-- The two programs agree on every packet that passes through the segment,
wherever they have mapped it. The core uses aligned addresses for the packets
of the ingress ring, and only for these. -/
theorem segment_views_iff {basePtr : Nat} (hb : PageAligned basePtr) (data : Nat) (s : Image) (x : Passage) :
    Delivered data basePtr s x ∧ (Valid data basePtr s x ↔ ∃ packet, x = .ingress packet) := by
  rw [PageAligned] at hb
  cases x with
  | ingress packet =>
      have hdelivered := ingress_delivered data basePtr s packet
      have haligned : Aligned basePtr (.ingress packet) := by
        intro currentRead
        rw [ingressSlot_aligned]
        omega
      exact ⟨hdelivered, fun _ => ⟨packet, rfl⟩, fun _ => ⟨hdelivered, haligned⟩⟩
  | egress w packet =>
      refine ⟨egress_delivered data basePtr s w packet, fun h => ?_, ?_⟩
      · have hmod := (egressSlot_aligned basePtr w).mp h.aligned
        omega
      · rintro ⟨_, h⟩
        cases h

theorem segment_views_iff_ingress :
    PageAligned 0x7f0000000000 ∧
      Valid 0xc000000000 0x7f0000000000 (fun _ => 0) (.ingress ⟨1, 0, 0, 1, 101, 10, 1000, 1⟩) := by
  have hb : PageAligned 0x7f0000000000 := by decide
  exact ⟨hb, (segment_views_iff hb 0xc000000000 (fun _ => 0) _).2.mpr ⟨_, rfl⟩⟩

/-- The first slot of the egress ring, in a segment that is mapped at the
beginning of a page. -/
theorem egress_slot_misaligned :
    PageAligned 0x7f0000000000 ∧ egressSlot 0x7f0000000000 0 = 0x7f0000000000 + 2097184 ∧
      egressSlot 0x7f0000000000 0 % coreEgressPacket.alignment = 32 := by
  decide

end Sequitur.SharedSegment
