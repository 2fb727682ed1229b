import Mathlib

namespace Sequitur.Families

variable {α β : Type}

/-- The lists of a family over `0, …, n - 1`, one after the other. -/
def flatten (n : Nat) (f : Nat → List α) : List α := (List.range n).flatMap f

theorem mem_flatten {n : Nat} {f : Nat → List α} {x : α} :
    x ∈ flatten n f ↔ ∃ i, i < n ∧ x ∈ f i := by
  simp [flatten, List.mem_flatMap]

theorem flatten_congr {n : Nat} {f g : Nat → List α} (h : ∀ i, i < n → f i = g i) :
    flatten n f = flatten n g := by
  refine List.flatMap_congr ?_
  exact fun i hi => h i (List.mem_range.mp hi)

theorem map_flatten (n : Nat) (f : Nat → List α) (g : α → β) :
    (flatten n f).map g = flatten n fun i => (f i).map g := by
  simp only [flatten, List.map_flatMap]

theorem range_split {n p : Nat} (hp : p < n) :
    List.range n = List.range p ++ p :: List.range' (p + 1) (n - (p + 1)) := by
  obtain ⟨k, rfl⟩ := Nat.exists_eq_add_of_lt hp
  have hk : p + k + 1 - (p + 1) = k := by omega
  rw [hk, Nat.add_assoc, List.range_eq_range', List.range_eq_range', ← List.range'_append_1, Nat.zero_add,
    List.range'_succ]

theorem flatten_update {n p : Nat} (hp : p < n) (f : Nat → List α) :
    ∃ xs ys, flatten n f = xs ++ f p ++ ys ∧
      ∀ l, flatten n (Function.update f p l) = xs ++ l ++ ys := by
  have hsplit (g : Nat → List α) :
      flatten n g = flatten p g ++ g p ++ (List.range' (p + 1) (n - (p + 1))).flatMap g := by
    simp only [flatten, range_split hp, List.flatMap_append, List.flatMap_cons, List.append_assoc]
  refine ⟨flatten p f, (List.range' (p + 1) (n - (p + 1))).flatMap f, hsplit f, fun l => ?_⟩
  rw [hsplit, Function.update_self]
  congr 1
  · congr 1
    exact flatten_congr fun i hi => Function.update_of_ne (Nat.ne_of_lt hi) _ _
  · refine List.flatMap_congr fun i hi => Function.update_of_ne ?_ _ _
    have := (List.mem_range'_1.mp hi).1
    omega

theorem flatten_eq_nil {n : Nat} {f : Nat → List α} (h : ∀ i, f i = []) : flatten n f = [] := by
  simp [flatten, h]

theorem length_flatten (n : Nat) (f : Nat → List α) :
    (flatten n f).length = ∑ i ∈ Finset.range n, (f i).length := by
  induction n with
  | zero => rfl
  | succ n ih =>
      rw [flatten, List.range_succ, List.flatMap_append, List.length_append, Finset.sum_range_succ, ← ih]
      simp [flatten]

end Sequitur.Families
