import Mathlib

namespace Sequitur.RankSelection

/-- The number of samples with a value below `i`, where `count v` is the
number of samples with the value `v`. -/
def below (count : Nat → Nat) (i : Nat) : Nat := ∑ v ∈ Finset.range i, count v

def first (count : Nat → Nat) (target k : Nat) : Option Nat :=
  (List.range k).find? fun v => target ≤ below count (v + 1)

variable {count : Nat → Nat} {target k v : Nat}

@[simp] theorem below_zero : below count 0 = 0 := rfl

theorem below_succ (i : Nat) : below count (i + 1) = below count i + count i :=
  Finset.sum_range_succ ..

theorem below_mono : Monotone (below count) :=
  monotone_nat_of_le_succ fun i => below_succ i ▸ Nat.le_add_right ..

theorem below_le_mul {bound : Nat} (h : ∀ v, count v ≤ bound) (i : Nat) : below count i ≤ i * bound := by
  induction i with
  | zero => simp
  | succ i ih => rw [below_succ, Nat.succ_mul]; exact Nat.add_le_add ih (h i)

theorem first_eq_some_iff :
    first count target k = some v ↔
      v < k ∧ target ≤ below count (v + 1) ∧ ∀ j < v, below count (j + 1) < target := by
  rw [first, List.find?_range_eq_some]
  simp only [decide_eq_true_eq, List.mem_range, Bool.not_eq_true', decide_eq_false_iff_not, Nat.not_le]
  tauto

theorem first_eq_none_iff (hk : 0 < k) : first count target k = none ↔ below count k < target := by
  simp only [first, List.find?_eq_none, List.mem_range, decide_eq_true_eq, Nat.not_le]
  constructor
  · intro h
    have hl := h (k - 1) (by omega)
    rwa [Nat.sub_add_cancel hk] at hl
  · intro h i hi
    exact Nat.lt_of_le_of_lt (below_mono (Nat.succ_le_of_lt hi)) h

theorem first_succ (k : Nat) :
    first count target (k + 1) =
      (first count target k).or (if target ≤ below count (k + 1) then some k else none) := by
  rw [first, List.range_succ, List.find?_append]
  congr 1
  by_cases h : target ≤ below count (k + 1) <;> simp [h]

theorem first_stable {n : Nat} (h : first count target k = some v) (hk : k ≤ n) :
    first count target n = some v := by
  rw [first_eq_some_iff] at h ⊢
  exact ⟨Nat.lt_of_lt_of_le h.1 hk, h.2⟩

theorem first_le {target' : Nat} (ht : target ≤ target') (h : first count target' k = some v) :
    ∃ u ≤ v, first count target k = some u := by
  rw [first_eq_some_iff] at h
  have hsome : first count target (v + 1) ≠ none := by
    rw [Ne, first_eq_none_iff (by omega)]
    omega
  obtain ⟨u, hu⟩ := Option.ne_none_iff_exists'.mp hsome
  have hlt := (first_eq_some_iff.mp hu).1
  exact ⟨u, by omega, first_stable hu h.1⟩

theorem first_zero (hk : 0 < k) : first count 0 k = some 0 := by
  rw [first_eq_some_iff]
  exact ⟨hk, Nat.zero_le _, fun j hj => absurd hj (Nat.not_lt_zero j)⟩

theorem below_single (v n i : Nat) : below (Function.update (fun _ => 0) v n) i = if v < i then n else 0 := by
  simp [below, Function.update_apply]

theorem first_single {n : Nat} (hv : v < k) (hpos : 0 < target) (hn : target ≤ n) :
    first (Function.update (fun _ => 0) v n) target k = some v := by
  rw [first_eq_some_iff]
  refine ⟨hv, ?_, fun j hj => ?_⟩
  · rwa [below_single, if_pos (Nat.lt_succ_self v)]
  · rwa [below_single, if_neg (by omega)]

/-- The value `v` is that of a sample, at least `x` samples are at most `v`
and fewer than `x` are below it. -/
structure HasRank (count : Nat → Nat) (x : ℚ) (v : Nat) : Prop where
  sampled : 0 < count v
  reached : x ≤ below count (v + 1)
  least : below count v < x

/-- Selecting with the rank `x` rounded down has the right rank unless the
rounded rank is exactly the number of samples up to some value. -/
theorem hasRank_iff {x : ℚ} (hx : 0 < x) (h : first count ⌊x⌋₊ k = some v) :
    HasRank count x v ↔ x = ⌊x⌋₊ ∨ ∀ i < k, below count (i + 1) ≠ ⌊x⌋₊ := by
  obtain ⟨hv, hge, hlt⟩ := first_eq_some_iff.mp h
  have hfloor : (⌊x⌋₊ : ℚ) ≤ x := Nat.floor_le hx.le
  have hsucc : below count (v + 1) = below count v + count v := below_succ v
  have hbelow : (below count v : ℚ) < x := by
    cases v with
    | zero => simpa using hx
    | succ u => exact lt_of_lt_of_le (by exact_mod_cast hlt u (Nat.lt_succ_self u)) hfloor
  -- `v` is the only value at which the count of samples can be the rounded rank for the first time
  have honly : (∀ i < k, below count (i + 1) ≠ ⌊x⌋₊) ↔ below count (v + 1) ≠ ⌊x⌋₊ := by
    refine ⟨fun hi => hi v hv, fun hn i _ he => hn ?_⟩
    have hvi : v ≤ i := Nat.le_of_not_lt fun hiv => (hlt i hiv).ne he
    exact Nat.le_antisymm (he ▸ below_mono (Nat.succ_le_succ hvi)) hge
  rw [honly]
  constructor
  · intro hr
    by_cases he : below count (v + 1) = ⌊x⌋₊
    · exact Or.inl (le_antisymm (he ▸ hr.reached) hfloor)
    · exact Or.inr he
  · intro hc
    have hreached : x ≤ below count (v + 1) := by
      rcases hc with he | hne
      · rw [he]
        exact_mod_cast hge
      · have hlt : ⌊x⌋₊ + 1 ≤ below count (v + 1) := Nat.lt_of_le_of_ne hge (Ne.symm hne)
        exact (Nat.lt_floor_add_one x).le.trans (by exact_mod_cast hlt)
    have hstrict : below count v < below count (v + 1) := by
      exact_mod_cast lt_of_lt_of_le hbelow hreached
    exact ⟨by omega, hreached, hbelow⟩

end Sequitur.RankSelection
