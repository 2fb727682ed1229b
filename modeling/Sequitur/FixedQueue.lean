import Mathlib

namespace Sequitur

/-- The filled part `data[0], …, data[count - 1]` of a queue. The source does
not compare `count` with the capacity, and a push beyond it writes behind the
array; here the queue goes on as if it were longer. `pushedAt` is a ghost record
of the value that `count` had at each push, so a result about the source is one
about runs in which all of them are below the capacity. -/
structure FixedQueue (T : Type) where
  items : List T
  pushedAt : List Nat

namespace FixedQueue

variable {T : Type}

def empty : FixedQueue T := ⟨[], []⟩

def count (q : FixedQueue T) : Nat := q.items.length

def push (q : FixedQueue T) (item : T) : FixedQueue T :=
  ⟨q.items ++ [item], q.pushedAt ++ [q.count]⟩

def clear (q : FixedQueue T) : FixedQueue T := { q with items := [] }

def pushAll (q : FixedQueue T) (items : List T) : FixedQueue T := items.foldl push q

@[simp] theorem pushAll_nil (q : FixedQueue T) : q.pushAll [] = q := rfl

theorem push_pushAll (q : FixedQueue T) (x : T) (xs : List T) :
    (q.push x).pushAll xs = q.pushAll (x :: xs) := rfl

theorem pushAll_append (q : FixedQueue T) (xs ys : List T) :
    q.pushAll (xs ++ ys) = (q.pushAll xs).pushAll ys := List.foldl_append

@[simp] theorem pushAll_items (q : FixedQueue T) (xs : List T) :
    (q.pushAll xs).items = q.items ++ xs := by
  induction xs generalizing q with
  | nil => simp
  | cons x xs ih => rw [← push_pushAll, ih]; simp [push]

theorem pushAll_pushedAt (q : FixedQueue T) (xs : List T) :
    (q.pushAll xs).pushedAt = q.pushedAt ++ List.range' q.count xs.length := by
  induction xs generalizing q with
  | nil => simp
  | cons x xs ih =>
      rw [← push_pushAll, ih]
      simp [push, count, List.range'_succ]

end FixedQueue

end Sequitur
