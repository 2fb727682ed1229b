import Sequitur.LevelBook
import Sequitur.Families

namespace Sequitur.Accounting

open OrderBook LevelBook Families

/-- Everything that rests at the prices of the array. -/
def restingIn (a : Levels) : List Resting := flatten (maxPriceTicks + 1) a.levels

theorem restingIn_set {a : Levels} {p : Nat} (hp : p ≤ maxPriceTicks) :
    ∃ xs ys, restingIn a = xs ++ a.levels p ++ ys ∧
      ∀ l, restingIn (a.set p l) = xs ++ l ++ ys := by
  simp only [restingIn]
  exact flatten_update (Nat.lt_succ_of_le hp) a.levels

@[simp] theorem restingIn_advance (d : Sweep) (a : Levels) : restingIn (advance d a) = restingIn a := by
  rw [restingIn, advance_levels, restingIn]

theorem Swept.quantity {d : Sweep} {price : Nat} {a a' : Levels} {left left' : Nat} {fs : List Fill}
    (h : Swept d price a left a' left' fs) : left' + tradedQuantity fs = left := by
  induction h with
  | done | last => rfl
  | skip hl hw he hp h ih => exact ih
  | fill hl hw he h ih =>
      simp only [tradedQuantity_cons]
      omega

theorem fillHead_volume {a : Levels} {p : Nat} (hp : p ≤ maxPriceTicks) {r : Resting}
    {rest : List Resting} (he : a.levels p = r :: rest) (left : Nat) :
    volume (restingIn a) = volume (restingIn (a.fillHead p r rest left)) + min left r.quantity := by
  obtain ⟨xs, ys, ha, hset⟩ := restingIn_set (a := a) hp
  rw [ha, Levels.fillHead, hset, he]
  split <;> simp only [volume_append, volume_cons] <;> omega

theorem fillHead_slots {a : Levels} {p : Nat} (hp : p ≤ maxPriceTicks) {r : Resting}
    {rest : List Resting} (he : a.levels p = r :: rest) (left : Nat) :
    (slots (restingIn a)).Perm
      (filled [⟨p, r, min left r.quantity⟩] ++ slots (restingIn (a.fillHead p r rest left))) := by
  obtain ⟨xs, ys, ha, hset⟩ := restingIn_set (a := a) hp
  rw [ha, Levels.fillHead, hset, he]
  by_cases hq : r.quantity ≤ left
  · have hfill : filled [⟨p, r, min left r.quantity⟩] = [r.slot] := by simp [filled, hq]
    rw [hfill, if_pos hq]
    simp only [slots_append, slots_cons, List.append_assoc, List.cons_append, List.nil_append]
    exact List.perm_middle
  · have hne : min left r.quantity ≠ r.quantity := by omega
    have hfill : filled [⟨p, r, min left r.quantity⟩] = [] := by simp [filled, hne]
    rw [hfill, if_neg hq]
    simp

theorem Swept.volume {d : Sweep} {price : Nat} {a a' : Levels} {left left' : Nat} {fs : List Fill}
    (h : Swept d price a left a' left' fs) (hb : position d a ≤ maxPriceTicks) :
    LevelBook.volume (restingIn a) = LevelBook.volume (restingIn a') + tradedQuantity fs := by
  induction h with
  | done | last => rw [tradedQuantity_nil, Nat.add_zero]
  | skip hl hw he hp h ih => rw [← ih (position_advance_le hp hb), restingIn_advance]
  | fill hl hw he h ih =>
      rw [fillHead_volume hb he, ih (by simpa using hb)]
      simp only [tradedQuantity_cons]
      omega

theorem Swept.slots {d : Sweep} {price : Nat} {a a' : Levels} {left left' : Nat} {fs : List Fill}
    (h : Swept d price a left a' left' fs) (hb : position d a ≤ maxPriceTicks) :
    (LevelBook.slots (restingIn a)).Perm (filled fs ++ LevelBook.slots (restingIn a')) := by
  induction h with
  | done | last => rw [filled_nil, List.nil_append]
  | skip hl hw he hp h ih => simpa using ih (position_advance_le hp hb)
  | fill hl hw he h ih =>
      rw [filled_cons, List.append_assoc]
      exact (fillHead_slots hb he _).trans ((ih (by simpa using hb)).append_left _)

theorem Swept.fill_pos {d : Sweep} {price : Nat} {a a' : Levels} {left left' : Nat} {fs : List Fill}
    (h : Swept d price a left a' left' fs) (hp : Positive a) {f : Fill} (hf : f ∈ fs) :
    0 < f.quantity := by
  induction h with
  | done | last => simp at hf
  | skip hl hw he hne h ih => exact ih (by simpa only [Positive, advance_levels] using hp) hf
  | @fill a left a' left' fs r rest hl hw he h ih =>
      rcases List.mem_cons.mp hf with rfl | hf
      · exact Nat.lt_min.mpr ⟨hl, hp _ r (by rw [he]; exact List.mem_cons_self)⟩
      · exact ih (fillHead_positive hp he _) hf

structure Bounded (a : Levels) : Prop where
  bestBid : a.bestBid ≤ maxPriceTicks
  bestAsk : a.bestAsk ≤ maxPriceTicks
  levels : ∀ p, maxPriceTicks < p → a.levels p = []

theorem empty_bounded : Bounded .empty := ⟨Nat.zero_le _, Nat.le_refl _, fun _ _ => rfl⟩

section Matched

variable {price : Nat} {side : UInt8} {a a' : Levels} {quantity left : Nat} {fs : List Fill}
  (h : Matched price side a quantity a' left fs)

include h

theorem matched_quantity : left + tradedQuantity fs = quantity := by
  cases h with
  | buy h | sell h => exact Swept.quantity h
  | other => rw [tradedQuantity_nil, Nat.add_zero]

theorem matched_fill_pos (hp : Positive a) : ∀ f ∈ fs, 0 < f.quantity := by
  intro f hf
  cases h with
  | buy h | sell h => exact Swept.fill_pos h hp hf
  | other => simp at hf

theorem matched_volume (hb : Bounded a) :
    volume (restingIn a) = volume (restingIn a') + tradedQuantity fs := by
  cases h with
  | buy h => exact Swept.volume h hb.bestAsk
  | sell h => exact Swept.volume h hb.bestBid
  | other => rw [tradedQuantity_nil, Nat.add_zero]

theorem matched_slots (hb : Bounded a) :
    (slots (restingIn a)).Perm (filled fs ++ slots (restingIn a')) := by
  cases h with
  | buy h => exact Swept.slots h hb.bestAsk
  | sell h => exact Swept.slots h hb.bestBid
  | other => rw [filled_nil, List.nil_append]

theorem matched_levels_nil {p : Nat} (hp : a.levels p = []) : a'.levels p = [] := by
  rw [List.eq_nil_iff_forall_not_mem]
  intro r hr
  obtain ⟨r₀, hr₀, -⟩ := h.mem hr
  rw [hp] at hr₀
  simp at hr₀

theorem matched_bounded (hb : Bounded a) : Bounded a' := by
  have hl : ∀ p, maxPriceTicks < p → a'.levels p = [] := fun p hp =>
    matched_levels_nil h (hb.levels p hp)
  cases h with
  | buy h => exact ⟨Nat.le_trans (Nat.le_of_eq h.opposite_eq) hb.bestBid, h.position_le hb.bestAsk, hl⟩
  | sell h => exact ⟨h.position_le hb.bestBid, Nat.le_trans (Nat.le_of_eq h.opposite_eq) hb.bestAsk, hl⟩
  | other => exact hb

end Matched

theorem restingIn_enqueue {a : Levels} {p : Nat} (hp : p ≤ maxPriceTicks) (r : Resting) :
    ∃ xs ys, restingIn a = xs ++ ys ∧ restingIn (a.enqueue p r) = xs ++ r :: ys := by
  obtain ⟨xs, ys, ha, hset⟩ := restingIn_set (a := a) hp
  have he : restingIn (a.enqueue p r) = restingIn (a.set p (a.levels p ++ [r])) := by
    rw [restingIn, restingIn, Levels.enqueue_levels]
    rfl
  refine ⟨xs ++ a.levels p, ys, ha, ?_⟩
  rw [he, hset]
  simp only [List.append_assoc, List.cons_append, List.nil_append]

theorem restResidue_volume {a : Levels} {p : Nat} (hp : p ≤ maxPriceTicks) (r : Resting) (left : Nat) :
    volume (restingIn (restResidue a p r left)) = volume (restingIn a) + left := by
  rw [restResidue]
  split
  · obtain ⟨xs, ys, ha, hq⟩ := restingIn_enqueue (a := a) hp { r with quantity := left }
    rw [ha, hq]
    simp only [volume_append, volume_cons]
    omega
  · omega

theorem restResidue_slots {a : Levels} {p : Nat} (hp : p ≤ maxPriceTicks) (r : Resting) (left : Nat) :
    (slots (restingIn (restResidue a p r left))).Perm
      ((if 0 < left then [r.slot] else []) ++ slots (restingIn a)) := by
  rw [restResidue]
  split
  · obtain ⟨xs, ys, ha, hq⟩ := restingIn_enqueue (a := a) hp { r with quantity := left }
    rw [ha, hq]
    simp only [slots_append, slots_cons, List.cons_append, List.nil_append]
    exact List.perm_middle
  · rw [List.nil_append]

theorem restResidue_positive {a : Levels} (h : Positive a) (p : Nat) (r : Resting) (left : Nat) :
    Positive (restResidue a p r left) := by
  intro q x hx
  rw [restResidue] at hx
  split at hx
  next hl =>
    rcases Levels.mem_enqueue.mp hx with hx | ⟨-, rfl⟩
    · exact h q x hx
    · exact hl
  next => exact h q x hx

theorem restResidue_bounded {a : Levels} (h : Bounded a) {p : Nat} (hp : p ≤ maxPriceTicks)
    (r : Resting) (left : Nat) : Bounded (restResidue a p r left) := by
  rw [restResidue]
  split
  · refine ⟨?_, ?_, ?_⟩
    · rw [Levels.enqueue_bestBid]
      split
      · exact Nat.max_le.mpr ⟨hp, h.bestBid⟩
      · exact h.bestBid
    · rw [Levels.enqueue_bestAsk]
      split
      · exact Nat.le_trans (Nat.min_le_left _ _) hp
      · exact h.bestAsk
    · intro q hq
      rw [Levels.enqueue_levels, Function.update_of_ne (by omega)]
      exact h.levels q hq
  · exact h

end Sequitur.Accounting
