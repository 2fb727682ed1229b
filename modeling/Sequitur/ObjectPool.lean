import Mathlib

namespace Sequitur

/-- The bookkeeping of an `ObjectPool`: a stack of free slot numbers, of which
`free_indices[0], …, free_indices[top]` are in use, and three counters. The
objects themselves are kept with the book that links them. -/
structure ObjectPool where
  freeIndices : Nat → UInt32
  top : Int
  capacity : Nat
  usedCount : UInt64
  allocFailures : UInt64
  peakUsage : UInt64

namespace ObjectPool

def init (cap : Nat) : ObjectPool where
  freeIndices := fun i => UInt32.ofNat i
  top := (cap : Int) - 1
  capacity := cap
  usedCount := 0
  allocFailures := 0
  peakUsage := 0

def acquire (p : ObjectPool) : ObjectPool × Option Nat :=
  if p.top < 0 then
    ({ p with allocFailures := p.allocFailures + 1 }, none)
  else
    let obsUsedCount := p.usedCount + 1
    let idx := p.freeIndices p.top.toNat
    ({ p with
        usedCount := obsUsedCount
        peakUsage := if obsUsedCount > p.peakUsage then obsUsedCount else p.peakUsage
        top := p.top - 1 }, some idx.toNat)

def release (p : ObjectPool) (ptr : Option Nat) : ObjectPool :=
  match ptr with
  | none => p
  | some slot =>
      { p with
        usedCount := p.usedCount - 1
        freeIndices := Function.update p.freeIndices (p.top + 1).toNat (UInt32.ofNat slot)
        top := p.top + 1 }

def failed (p : ObjectPool) (k : Nat) : ObjectPool := { p with allocFailures := p.allocFailures + UInt64.ofNat k }

theorem failed_failed (p : ObjectPool) (j k : Nat) : (p.failed j).failed k = p.failed (j + k) := by
  simp only [failed, UInt64.ofNat_add, UInt64.add_assoc]

def freeSlots (p : ObjectPool) : List Nat :=
  (List.range (p.top + 1).toNat).map fun i => (p.freeIndices i).toNat

end ObjectPool

end Sequitur
