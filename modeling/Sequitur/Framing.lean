import Mathlib

namespace Sequitur.Framing

variable {α : Type} [DecidableEq α] (sep : α)

/-- The frames of a stream that a separator has closed. -/
def frames (s : List α) : List (List α) := (s.splitOn sep).dropLast

/-- What has come after the last separator. -/
def residue (s : List α) : List α := (s.splitOn sep).getLast (List.splitOn_ne_nil sep s)

def splitFirst (s : List α) : List α × List α := (s.takeWhile (· ≠ sep), (s.dropWhile (· ≠ sep)).tail)

variable {sep}

theorem frames_open {s : List α} (h : sep ∉ s) : frames sep s = [] := by
  rw [frames, List.splitOn_eq_singleton h, List.dropLast_singleton]

theorem residue_open {s : List α} (h : sep ∉ s) : residue sep s = s := by
  simp only [residue, List.splitOn_eq_singleton h, List.getLast_singleton]

theorem frames_closed {xs : List α} (h : sep ∉ xs) (ys : List α) :
    frames sep (xs ++ sep :: ys) = xs :: frames sep ys := by
  rw [frames, List.splitOn_append_cons_self_of_not_mem h,
    List.dropLast_cons_of_ne_nil (List.splitOn_ne_nil sep ys), frames]

theorem residue_closed {xs : List α} (h : sep ∉ xs) (ys : List α) :
    residue sep (xs ++ sep :: ys) = residue sep ys := by
  simp only [residue, List.splitOn_append_cons_self_of_not_mem h, List.getLast_cons (List.splitOn_ne_nil sep ys)]

theorem splitFirst_closed {xs : List α} (h : sep ∉ xs) (ys : List α) :
    splitFirst sep (xs ++ sep :: ys) = (xs, ys) := by
  have hxs : ∀ x ∈ xs, decide (x ≠ sep) = true := by
    intro x hx
    exact decide_eq_true fun he => h (he ▸ hx)
  rw [splitFirst, List.takeWhile_append_of_pos hxs, List.dropWhile_append_of_pos hxs,
    List.takeWhile_cons_of_neg (by simp), List.dropWhile_cons_of_neg (by simp), List.append_nil, List.tail_cons]

theorem stream_induction (sep : α) {P : List α → Prop} (hopen : ∀ s, sep ∉ s → P s)
    (hclosed : ∀ xs ys, sep ∉ xs → P ys → P (xs ++ sep :: ys)) (s : List α) : P s := by
  induction hn : s.length using Nat.strong_induction_on generalizing s with
  | _ n ih =>
      by_cases hs : sep ∈ s
      · obtain ⟨xs, ys, rfl, hxs⟩ := List.eq_append_cons_of_mem hs
        refine hclosed xs ys hxs (ih ys.length ?_ ys rfl)
        rw [← hn, List.length_append, List.length_cons]
        omega
      · exact hopen s hs

theorem frames_append (s t : List α) : frames sep (s ++ t) = frames sep s ++ frames sep (residue sep s ++ t) := by
  induction s using stream_induction sep with
  | hopen s hs => rw [frames_open hs, residue_open hs, List.nil_append]
  | hclosed xs ys hxs ih =>
      rw [List.append_assoc, List.cons_append, frames_closed hxs, frames_closed hxs, residue_closed hxs, ih,
        List.cons_append]

theorem residue_append (s t : List α) : residue sep (s ++ t) = residue sep (residue sep s ++ t) := by
  induction s using stream_induction sep with
  | hopen s hs => rw [residue_open hs]
  | hclosed xs ys hxs ih => rw [List.append_assoc, List.cons_append, residue_closed hxs, residue_closed hxs, ih]

theorem not_mem_residue {s : List α} : sep ∉ residue sep s := by
  induction s using stream_induction sep with
  | hopen s hs => rwa [residue_open hs]
  | hclosed xs ys hxs ih => rwa [residue_closed hxs]

end Sequitur.Framing
