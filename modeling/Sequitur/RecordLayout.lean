import Mathlib

namespace Sequitur.RecordLayout

section Numbers

def bytes : Nat → Nat → List UInt8
  | 0, _ => []
  | size + 1, n => UInt8.ofNat n :: bytes size (n / 256)

def number (bs : List UInt8) : Nat := Nat.ofDigits 256 (bs.map UInt8.toNat)

@[simp] theorem length_bytes (size n : Nat) : (bytes size n).length = size := by
  induction size generalizing n with
  | zero => rfl
  | succ size ih => rw [bytes, List.length_cons, ih]

theorem number_bytes {size n : Nat} (h : n < 256 ^ size) : number (bytes size n) = n := by
  induction size generalizing n with
  | zero =>
      rw [Nat.pow_zero, Nat.lt_one_iff] at h
      rw [h]
      rfl
  | succ size ih =>
      have hdiv : n / 256 < 256 ^ size := by
        rw [Nat.div_lt_iff_lt_mul (by decide), ← Nat.pow_succ]
        exact h
      have hrest : Nat.ofDigits 256 ((bytes size (n / 256)).map UInt8.toNat) = n / 256 := ih hdiv
      rw [bytes, number, List.map_cons, Nat.ofDigits_cons, hrest, UInt8.toNat_ofNat']
      exact Nat.mod_add_div n 256

end Numbers

/-- The contents of a file, by offset. -/
def Image := Nat → UInt8

namespace Image

variable (m : Image) (a : Nat)

def store (bs : List UInt8) : Image := fun x => if a ≤ x then (bs[x - a]?).getD (m x) else m x

def load (size : Nat) : List UInt8 := (List.range size).map fun i => m (a + i)

variable {m a}

theorem store_outside {bs : List UInt8} {x : Nat} (h : x < a ∨ a + bs.length ≤ x) : m.store a bs x = m x := by
  rw [store]
  split
  next hle => rw [List.getElem?_eq_none (by omega), Option.getD_none]
  next => rfl

theorem load_store (bs : List UInt8) : (m.store a bs).load a bs.length = bs := by
  apply List.ext_getElem
  · simp [load]
  · intro i hi hi'
    simp [load, store, hi']

theorem load_congr {m' : Image} {size : Nat} (h : ∀ x, a ≤ x → x < a + size → m' x = m x) :
    m'.load a size = m.load a size := by
  refine List.map_congr_left fun i hi => h (a + i) (Nat.le_add_right a i) ?_
  have hlt := List.mem_range.mp hi
  omega

def word (m : Image) (a : Nat) : BitVec 64 := .ofNat 64 (number (m.load a 8))

def setWord (m : Image) (a : Nat) (idx : BitVec 64) : Image := m.store a (bytes 8 idx.toNat)

@[simp] theorem word_setWord (idx : BitVec 64) : (m.setWord a idx).word a = idx := by
  have hload := load_store (m := m) (a := a) (bytes 8 idx.toNat)
  rw [length_bytes] at hload
  rw [word, setWord, hload, number_bytes idx.isLt, BitVec.ofNat_toNat, BitVec.setWidth_eq]

theorem setWord_outside {idx : BitVec 64} {x : Nat} (h : x < a ∨ a + 8 ≤ x) : m.setWord a idx x = m x :=
  store_outside (by rwa [length_bytes])

theorem word_congr {m' : Image} (h : ∀ x, a ≤ x → x < a + 8 → m' x = m x) : m'.word a = m.word a := by
  rw [word, word, load_congr h]

end Image

section Layout

variable {F : Type}

structure Member (F : Type) where
  name : F
  size : Nat
  align : Nat

def Member.uint (size : Nat) (name : F) : Member F := ⟨name, size, size⟩

def Member.array (size : Nat) (name : F) : Member F := ⟨name, size, 1⟩

structure Field (F : Type) where
  name : F
  offset : Nat
  size : Nat
  deriving DecidableEq

def alignUp (align n : Nat) : Nat := (n + align - 1) / align * align

/-- The members in order of declaration, each at the next offset with its
alignment. -/
def place : Nat → List (Member F) → List (Field F)
  | _, [] => []
  | n, x :: xs => ⟨x.name, alignUp x.align n, x.size⟩ :: place (alignUp x.align n + x.size) xs

/-- A record type; `align` is what its declaration asks for besides the
alignments of its members. -/
structure Record (F : Type) where
  members : List (Member F)
  align : Nat

namespace Record

variable (r : Record F)

def fields : List (Field F) := place 0 r.members

def alignment : Nat := r.members.foldr (fun x => max x.align) r.align

def size : Nat := alignUp r.alignment ((r.fields.getLast?.map fun f => f.offset + f.size).getD 0)

/-- No two fields overlap, no two have the same name, and all lie inside of
the record. -/
structure Packed : Prop where
  names : (r.fields.map Field.name).Nodup
  ordered : r.fields.Pairwise fun f g => f.offset + f.size ≤ g.offset
  inside : ∀ f ∈ r.fields, f.offset + f.size ≤ r.size

end Record

def write (fields : List (Field F)) (m : Image) (a : Nat) (v : F → Nat) : Image :=
  fields.foldl (fun m f => m.store (a + f.offset) (bytes f.size (v f.name))) m

def read [DecidableEq F] (fields : List (Field F)) (m : Image) (a : Nat) (name : F) : Nat :=
  match fields.find? (·.name = name) with
  | some f => number (m.load (a + f.offset) f.size)
  | none => 0

def records [DecidableEq F] (r : Record F) (count : Nat) (m : Image) (a k : Nat) : F → Nat :=
  if k < count then read r.fields m (a + k * r.size) else fun _ => 0

variable {m : Image} {a : Nat} {v : F → Nat}

theorem write_outside {fields : List (Field F)} {x : Nat}
    (h : ∀ f ∈ fields, x < a + f.offset ∨ a + f.offset + f.size ≤ x) : write fields m a v x = m x := by
  induction fields generalizing m with
  | nil => rfl
  | cons f fields ih =>
      have hf := h f List.mem_cons_self
      refine (ih fun g hg => h g (List.mem_cons_of_mem _ hg)).trans (Image.store_outside ?_)
      rwa [length_bytes]

theorem load_write {fields : List (Field F)} (h : fields.Pairwise fun f g => f.offset + f.size ≤ g.offset)
    {f : Field F} (hf : f ∈ fields) :
    (write fields m a v).load (a + f.offset) f.size = bytes f.size (v f.name) := by
  induction fields generalizing m with
  | nil => cases hf
  | cons g fields ih =>
      obtain ⟨hg, h⟩ := List.pairwise_cons.mp h
      rcases List.mem_cons.mp hf with rfl | hf
      · have hload := Image.load_store (m := m) (a := a + f.offset) (bytes f.size (v f.name))
        rw [length_bytes] at hload
        refine Eq.trans (Image.load_congr fun x hx hlt => ?_) hload
        have hout : ∀ k ∈ fields, x < a + k.offset ∨ a + k.offset + k.size ≤ x := by
          intro k hk
          have hle := hg k hk
          omega
        exact write_outside hout
      · exact ih h hf

theorem find_name [DecidableEq F] {fields : List (Field F)} (h : (fields.map Field.name).Nodup) {f : Field F}
    (hf : f ∈ fields) : fields.find? (·.name = f.name) = some f := by
  induction fields with
  | nil => cases hf
  | cons g fields ih =>
      rw [List.map_cons, List.nodup_cons] at h
      rcases List.mem_cons.mp hf with rfl | hf
      · exact List.find?_cons_of_pos (by simp)
      · have hne : g.name ≠ f.name := fun he => h.1 (he ▸ List.mem_map_of_mem hf)
        rw [List.find?_cons_of_neg (by simpa using hne)]
        exact ih h.2 hf

namespace Record.Packed

variable {r : Record F} (h : r.Packed)

include h

/-- What was written is read back, if every name has a field that is wide
enough. -/
theorem read_write [DecidableEq F] (hall : ∀ name, ∃ f ∈ r.fields, f.name = name)
    (hfits : ∀ f ∈ r.fields, v f.name < 256 ^ f.size) : read r.fields (write r.fields m a v) a = v := by
  funext name
  obtain ⟨f, hf, rfl⟩ := hall name
  rw [read, find_name h.names hf]
  exact (congrArg number (load_write h.ordered hf)).trans (number_bytes (hfits f hf))

theorem write_frame {x : Nat} (hx : x < a ∨ a + r.size ≤ x) : write r.fields m a v x = m x := by
  refine write_outside fun f hf => ?_
  have hle := h.inside f hf
  omega

theorem read_congr [DecidableEq F] {m' : Image} (hm : ∀ x, a ≤ x → x < a + r.size → m' x = m x) :
    read r.fields m' a = read r.fields m a := by
  funext name
  rw [read, read]
  cases hf : r.fields.find? (·.name = name) with
  | none => rfl
  | some f =>
      have hle := h.inside f (List.mem_of_find?_eq_some hf)
      refine congrArg number (Image.load_congr fun x hx hlt => hm x ?_ ?_)
      · omega
      · omega

theorem records_write [DecidableEq F] (hall : ∀ name, ∃ f ∈ r.fields, f.name = name)
    (hfits : ∀ f ∈ r.fields, v f.name < 256 ^ f.size) {count k : Nat} (hk : k < count) :
    records r count (write r.fields m (a + k * r.size) v) a = Function.update (records r count m a) k v := by
  funext j
  by_cases hj : j = k
  · rw [hj, Function.update_self, records, if_pos hk]
    exact h.read_write hall hfits
  · rw [Function.update_of_ne hj, records, records]
    congr 1
    refine h.read_congr fun x hx hlt => h.write_frame ?_
    rcases Nat.lt_or_gt_of_ne hj with hj | hj
    · left
      have hle := Nat.mul_le_mul_right r.size hj
      rw [Nat.succ_mul] at hle
      omega
    · right
      have hle := Nat.mul_le_mul_right r.size hj
      rw [Nat.succ_mul] at hle
      omega

theorem records_congr [DecidableEq F] {m' : Image} {count : Nat}
    (hm : ∀ x, a ≤ x → x < a + count * r.size → m' x = m x) : records r count m' a = records r count m a := by
  funext k
  rw [records, records]
  split
  · refine h.read_congr fun x hx hlt => hm x ?_ ?_
    · omega
    · have hle := Nat.mul_le_mul_right r.size (Nat.succ_le_of_lt ‹k < count›)
      rw [Nat.succ_mul] at hle
      omega
  · rfl

end Record.Packed

end Layout

section Mapping

/-- A file of `size` bytes that a process sees at the addresses from `base`
on. -/
structure Mapping where
  base : Nat
  size : Nat

def Mapping.offset (p : Mapping) (addr n : Nat) : Option Nat :=
  if p.base ≤ addr ∧ addr + n ≤ p.base + p.size then some (addr - p.base) else none

namespace Mapping

variable {F : Type} (p : Mapping) (m : Image) (addr : Nat)

def loadWord : Option (BitVec 64) := (p.offset addr 8).map m.word

def storeWord (idx : BitVec 64) : Option Image := (p.offset addr 8).map fun k => m.setWord k idx

def readRecord [DecidableEq F] (r : Record F) : Option (F → Nat) :=
  (p.offset addr r.size).map fun k => read r.fields m k

def writeRecord (r : Record F) (v : F → Nat) : Option Image :=
  (p.offset addr r.size).map fun k => write r.fields m k v

variable {p m}

theorem offset_of_le {k n : Nat} (h : k + n ≤ p.size) : p.offset (p.base + k) n = some k := by
  rw [offset, if_pos (by omega), Nat.add_sub_cancel_left]

theorem loadWord_of_le {k : Nat} (h : k + 8 ≤ p.size) :
    p.loadWord m (p.base + k) = some (m.word k) := by
  rw [loadWord, offset_of_le h, Option.map_some]

theorem storeWord_of_le {k : Nat} (h : k + 8 ≤ p.size) (idx : BitVec 64) :
    p.storeWord m (p.base + k) idx = some (m.setWord k idx) := by
  rw [storeWord, offset_of_le h, Option.map_some]

theorem readRecord_of_le [DecidableEq F] {r : Record F} {k : Nat} (h : k + r.size ≤ p.size) :
    p.readRecord m (p.base + k) r = some (read r.fields m k) := by
  rw [readRecord, offset_of_le h, Option.map_some]

theorem writeRecord_of_le {r : Record F} {k : Nat} (h : k + r.size ≤ p.size) (v : F → Nat) :
    p.writeRecord m (p.base + k) r v = some (write r.fields m k v) := by
  rw [writeRecord, offset_of_le h, Option.map_some]

end Mapping

end Mapping

end Sequitur.RecordLayout
