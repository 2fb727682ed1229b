import Sequitur.OrderBook

namespace Sequitur.LevelBook

open OrderBook

/-- A resting order as its queue sees it. The price is that of its level. -/
structure Resting where
  slot : Nat
  id : UInt64
  side : UInt8
  traderId : UInt32
  quantity : Nat
  deriving DecidableEq

def slots (l : List Resting) : List Nat := l.map Resting.slot

def volume (l : List Resting) : Nat := (l.map Resting.quantity).sum

@[simp] theorem slots_nil : slots [] = [] := rfl

@[simp] theorem slots_cons (r : Resting) (l : List Resting) : slots (r :: l) = r.slot :: slots l := rfl

@[simp] theorem slots_append (l l' : List Resting) : slots (l ++ l') = slots l ++ slots l' :=
  List.map_append

@[simp] theorem volume_nil : volume [] = 0 := rfl

@[simp] theorem volume_cons (r : Resting) (l : List Resting) :
    volume (r :: l) = r.quantity + volume l := rfl

@[simp] theorem volume_append (l l' : List Resting) : volume (l ++ l') = volume l + volume l' := by
  simp [volume]

theorem mem_slots {l : List Resting} {r : Resting} (h : r ∈ l) : r.slot ∈ slots l :=
  List.mem_map_of_mem h

/-- The book without pointers: one queue for each price, and the two cursors. -/
structure Levels where
  levels : Nat → List Resting
  bestBid : Nat
  bestAsk : Nat

namespace Levels

def empty : Levels := ⟨fun _ => [], 0, maxPriceTicks⟩

def set (a : Levels) (p : Nat) (l : List Resting) : Levels :=
  { a with levels := Function.update a.levels p l }

@[simp] theorem set_bestBid (a : Levels) (p : Nat) (l : List Resting) :
    (a.set p l).bestBid = a.bestBid := rfl

@[simp] theorem set_bestAsk (a : Levels) (p : Nat) (l : List Resting) :
    (a.set p l).bestAsk = a.bestAsk := rfl

@[simp] theorem set_levels_self (a : Levels) (p : Nat) (l : List Resting) :
    (a.set p l).levels p = l := Function.update_self ..

theorem set_levels_of_ne (a : Levels) {p q : Nat} (h : q ≠ p) (l : List Resting) :
    (a.set p l).levels q = a.levels q := Function.update_of_ne h ..

@[simp] theorem set_set (a : Levels) (p : Nat) (l m : List Resting) :
    (a.set p l).set p m = a.set p m := by
  simp [set, Function.update_idem]

@[simp] theorem set_levels_eq (a : Levels) (p : Nat) : a.set p (a.levels p) = a := by
  rw [set, Function.update_eq_self]

def fillHead (a : Levels) (p : Nat) (r : Resting) (rest : List Resting) (left : Nat) : Levels :=
  a.set p (if r.quantity ≤ left then rest else { r with quantity := r.quantity - left } :: rest)

def enqueue (a : Levels) (p : Nat) (r : Resting) : Levels :=
  let a := a.set p (a.levels p ++ [r])
  if r.side = 0 then { a with bestBid := max p a.bestBid }
  else if r.side = 1 then { a with bestAsk := min p a.bestAsk }
  else a

@[simp] theorem enqueue_levels (a : Levels) (p : Nat) (r : Resting) :
    (a.enqueue p r).levels = Function.update a.levels p (a.levels p ++ [r]) := by
  simp only [enqueue, set]
  split
  · rfl
  · split <;> rfl

theorem enqueue_bestBid (a : Levels) (p : Nat) (r : Resting) :
    (a.enqueue p r).bestBid = if r.side = 0 then max p a.bestBid else a.bestBid := by
  simp only [enqueue]
  split
  · rfl
  · split <;> rfl

theorem enqueue_bestAsk (a : Levels) (p : Nat) (r : Resting) :
    (a.enqueue p r).bestAsk = if r.side = 1 then min p a.bestAsk else a.bestAsk := by
  simp only [enqueue]
  by_cases hb : r.side = 0
  · rw [if_pos hb, if_neg (by simp [hb])]
    rfl
  · rw [if_neg hb]
    split <;> rfl

theorem mem_enqueue {a : Levels} {p q : Nat} {r x : Resting} :
    x ∈ (a.enqueue p r).levels q ↔ x ∈ a.levels q ∨ (q = p ∧ x = r) := by
  rw [enqueue_levels]
  by_cases hq : q = p
  · subst hq
    simp
  · simp [hq]

end Levels

def position : Sweep → Levels → Nat
  | .asks, a => a.bestAsk
  | .bids, a => a.bestBid

def opposite : Sweep → Levels → Nat
  | .asks, a => a.bestBid
  | .bids, a => a.bestAsk

/-- Level `p` is at the cursor `c` or still ahead of it. -/
def Ahead : Sweep → Nat → Nat → Prop
  | .asks, c, p => c ≤ p
  | .bids, c, p => p ≤ c

def limit : Sweep → Nat
  | .asks => maxPriceTicks
  | .bids => 0

def advance : Sweep → Levels → Levels
  | .asks, a => { a with bestAsk := a.bestAsk + 1 }
  | .bids, a => { a with bestBid := a.bestBid - 1 }

structure Fill where
  price : Nat
  maker : Resting
  quantity : Nat

def Fill.trade (f : Fill) (takerId : UInt32) : Trade :=
  ⟨f.maker.traderId.toUInt64, takerId.toUInt64, UInt64.ofNat f.price, UInt32.ofNat f.quantity⟩

def filled (fs : List Fill) : List Nat :=
  (fs.filter fun f => f.quantity = f.maker.quantity).map fun f => f.maker.slot

def tradedQuantity (fs : List Fill) : Nat := (fs.map Fill.quantity).sum

@[simp] theorem filled_nil : filled [] = [] := rfl

theorem filled_cons (f : Fill) (fs : List Fill) : filled (f :: fs) = filled [f] ++ filled fs := by
  simp only [filled, List.filter_cons]
  split <;> simp

@[simp] theorem tradedQuantity_nil : tradedQuantity [] = 0 := rfl

@[simp] theorem tradedQuantity_cons (f : Fill) (fs : List Fill) :
    tradedQuantity (f :: fs) = f.quantity + tradedQuantity fs := rfl

/-- `Swept d price a left a' left' fs`: the matching loop for a limit `price`
and an open quantity `left` turns `a` into `a'`, makes the trades `fs` and
leaves `left'` open. -/
inductive Swept (d : Sweep) (price : Nat) : Levels → Nat → Levels → Nat → List Fill → Prop
  | done {a left} (h : left = 0 ∨ ¬ Ahead d (position d a) price) : Swept d price a left a left []
  | last {a left} (hl : 0 < left) (hw : Ahead d (position d a) price)
      (he : a.levels (position d a) = []) (hp : position d a = limit d) :
      Swept d price a left a left []
  | skip {a left a' left' fs} (hl : 0 < left) (hw : Ahead d (position d a) price)
      (he : a.levels (position d a) = []) (hp : position d a ≠ limit d)
      (h : Swept d price (advance d a) left a' left' fs) : Swept d price a left a' left' fs
  | fill {a left a' left' fs r rest} (hl : 0 < left) (hw : Ahead d (position d a) price)
      (he : a.levels (position d a) = r :: rest)
      (h : Swept d price (a.fillHead (position d a) r rest left) (left - r.quantity) a' left' fs) :
      Swept d price a left a' left' (⟨position d a, r, min left r.quantity⟩ :: fs)

@[simp] theorem position_fillHead (d : Sweep) (a : Levels) (p : Nat) (r : Resting)
    (rest : List Resting) (left : Nat) : position d (a.fillHead p r rest left) = position d a := by
  cases d <;> rfl

@[simp] theorem opposite_fillHead (d : Sweep) (a : Levels) (p : Nat) (r : Resting)
    (rest : List Resting) (left : Nat) : opposite d (a.fillHead p r rest left) = opposite d a := by
  cases d <;> rfl

@[simp] theorem advance_levels (d : Sweep) (a : Levels) : (advance d a).levels = a.levels := by
  cases d <;> rfl

@[simp] theorem opposite_advance (d : Sweep) (a : Levels) :
    opposite d (advance d a) = opposite d a := by
  cases d <;> rfl

theorem ahead_refl (d : Sweep) (c : Nat) : Ahead d c c := by
  cases d <;> exact Nat.le_refl c

theorem ahead_trans {d : Sweep} {c p q : Nat} (h : Ahead d c p) (h' : Ahead d p q) :
    Ahead d c q := by
  cases d with
  | asks => exact Nat.le_trans h h'
  | bids => exact Nat.le_trans h' h

theorem ahead_advance {d : Sweep} {a : Levels} (hp : position d a ≠ limit d) (p : Nat) :
    Ahead d (position d (advance d a)) p ↔ Ahead d (position d a) p ∧ p ≠ position d a := by
  cases d with
  | asks => simp only [Ahead, position, advance]; omega
  | bids => simp only [Ahead, position, advance, limit] at hp ⊢; omega

theorem Swept.of_zero {d : Sweep} {price : Nat} {a a' : Levels} {left left' : Nat} {fs : List Fill}
    (h : Swept d price a left a' left' fs) (hz : left = 0) : a' = a ∧ left' = 0 ∧ fs = [] := by
  cases h with
  | done => exact ⟨rfl, hz, rfl⟩
  | last hl | skip hl | fill hl => omega

theorem Swept.of_not_ahead {d : Sweep} {price : Nat} {a a' : Levels} {left left' : Nat} {fs : List Fill}
    (h : Swept d price a left a' left' fs) (hn : ¬ Ahead d (position d a) price) :
    a' = a ∧ left' = left ∧ fs = [] := by
  cases h with
  | done => exact ⟨rfl, rfl, rfl⟩
  | last _ hw | skip _ hw | fill _ hw => exact absurd hw hn

theorem Swept.opposite_eq {d : Sweep} {price : Nat} {a a' : Levels} {left left' : Nat}
    {fs : List Fill} (h : Swept d price a left a' left' fs) : opposite d a' = opposite d a := by
  induction h with
  | done | last => rfl
  | skip hl hw he hp h ih => rw [ih, opposite_advance]
  | fill hl hw he h ih => rw [ih, opposite_fillHead]

theorem Swept.ahead {d : Sweep} {price : Nat} {a a' : Levels} {left left' : Nat} {fs : List Fill}
    (h : Swept d price a left a' left' fs) : Ahead d (position d a) (position d a') := by
  induction h with
  | done | last => exact ahead_refl d _
  | skip hl hw he hp h ih => exact ((ahead_advance hp _).mp ih).1
  | fill hl hw he h ih => rwa [position_fillHead] at ih

/-- The ways out of the loop: nothing left to trade, the price limit passed,
or the end of the array with nothing there. -/
theorem Swept.exit {d : Sweep} {price : Nat} {a a' : Levels} {left left' : Nat} {fs : List Fill}
    (h : Swept d price a left a' left' fs) :
    left' = 0 ∨ ¬ Ahead d (position d a') price ∨
      (position d a' = limit d ∧ a'.levels (limit d) = [] ∧ Ahead d (limit d) price) := by
  induction h with
  | done h => rcases h with h | h <;> simp [h]
  | last hl hw he hp => exact .inr (.inr ⟨hp, hp ▸ he, hp ▸ hw⟩)
  | skip hl hw he hp h ih | fill hl hw he h ih => exact ih

theorem Swept.levels_outside {d : Sweep} {price : Nat} {a a' : Levels} {left left' : Nat}
    {fs : List Fill} (h : Swept d price a left a' left' fs) (p : Nat)
    (hp : ¬ Ahead d (position d a) p ∨ (Ahead d (position d a') p ∧ p ≠ position d a')) :
    a'.levels p = a.levels p := by
  induction h with
  | done | last => rfl
  | @skip a _ _ _ _ hl hw he hne h ih =>
      rw [ih, advance_levels]
      refine hp.imp_left fun hb ha => hb ((ahead_advance hne p).mp ha).1
  | @fill a left a' _ _ r rest hl hw he h ih =>
      rw [ih (by simpa using hp)]
      have hne : p ≠ position d a := by
        rintro rfl
        rcases hp with hp | hp
        · exact hp (ahead_refl d _)
        · have hc := h.ahead
          rw [position_fillHead] at hc
          obtain ⟨hp, hne⟩ := hp
          cases d with
          | asks => simp only [Ahead] at hp hc; omega
          | bids => simp only [Ahead] at hp hc; omega
      exact a.set_levels_of_ne hne _

theorem Swept.levels_passed {d : Sweep} {price : Nat} {a a' : Levels} {left left' : Nat}
    {fs : List Fill} (h : Swept d price a left a' left' fs) (p : Nat)
    (hp : Ahead d (position d a) p) (hp' : ¬ Ahead d (position d a') p) : a'.levels p = [] := by
  induction h with
  | done | last => exact absurd hp hp'
  | @skip a _ _ _ _ hl hw he hne h ih =>
      by_cases hpa : p = position d a
      · have hb : ¬ Ahead d (position d (advance d a)) p := fun ha => ((ahead_advance hne p).mp ha).2 hpa
        rw [h.levels_outside p (.inl hb), advance_levels, hpa, he]
      · exact ih ((ahead_advance hne p).mpr ⟨hp, hpa⟩) hp'
  | fill hl hw he h ih => exact ih (by simpa using hp) hp'

def Resting.Leaves (r r' : Resting) : Prop :=
  r'.slot = r.slot ∧ r'.id = r.id ∧ r'.side = r.side ∧ r'.traderId = r.traderId ∧
    r'.quantity ≤ r.quantity

theorem Resting.Leaves.refl (r : Resting) : r.Leaves r := ⟨rfl, rfl, rfl, rfl, Nat.le_refl _⟩

theorem Resting.Leaves.trans {r s t : Resting} (h : r.Leaves s) (h' : s.Leaves t) : r.Leaves t :=
  ⟨h'.1.trans h.1, h'.2.1.trans h.2.1, h'.2.2.1.trans h.2.2.1, h'.2.2.2.1.trans h.2.2.2.1,
    Nat.le_trans h'.2.2.2.2 h.2.2.2.2⟩

theorem mem_fillHead {a : Levels} {p : Nat} {r : Resting} {rest : List Resting} {left : Nat}
    (he : a.levels p = r :: rest) {q : Nat} {r' : Resting}
    (hr : r' ∈ (a.fillHead p r rest left).levels q) : ∃ r₀ ∈ a.levels q, r₀.Leaves r' := by
  by_cases hq : q = p
  · subst hq
    rw [Levels.fillHead, Levels.set_levels_self] at hr
    split at hr
    · exact ⟨r', by rw [he]; exact List.mem_cons_of_mem _ hr, .refl r'⟩
    · rcases List.mem_cons.mp hr with rfl | hr
      · exact ⟨r, by simp [he], rfl, rfl, rfl, rfl, Nat.sub_le _ _⟩
      · exact ⟨r', by rw [he]; exact List.mem_cons_of_mem _ hr, .refl r'⟩
  · rw [Levels.fillHead, a.set_levels_of_ne hq] at hr
    exact ⟨r', hr, .refl r'⟩

theorem Swept.mem {d : Sweep} {price : Nat} {a a' : Levels} {left left' : Nat} {fs : List Fill}
    (h : Swept d price a left a' left' fs) {p : Nat} {r' : Resting} (hr : r' ∈ a'.levels p) :
    ∃ r ∈ a.levels p, r.Leaves r' := by
  induction h with
  | done | last => exact ⟨r', hr, .refl r'⟩
  | skip hl hw he hp h ih => simpa using ih hr
  | fill hl hw he h ih =>
      obtain ⟨r₁, hr₁, h₁⟩ := ih hr
      obtain ⟨r₀, hr₀, h₀⟩ := mem_fillHead he hr₁
      exact ⟨r₀, hr₀, h₀.trans h₁⟩

/-- Makers come from the book as it was before the call: an order that is
only partly filled ends the loop, so none is met twice. -/
theorem Swept.maker_mem {d : Sweep} {price : Nat} {a a' : Levels} {left left' : Nat} {fs : List Fill}
    (h : Swept d price a left a' left' fs) {f : Fill} (hf : f ∈ fs) :
    f.maker ∈ a.levels f.price ∧ Ahead d (position d a) f.price ∧ Ahead d f.price price := by
  induction h with
  | done | last => simp at hf
  | skip hl hw he hp h ih =>
      obtain ⟨hm, ha, hb⟩ := ih hf
      exact ⟨by simpa using hm, ((ahead_advance hp _).mp ha).1, hb⟩
  | @fill a left a' left' fs r rest hl hw he h ih =>
      rcases List.mem_cons.mp hf with rfl | hf
      · exact ⟨by simp [he], ahead_refl d _, hw⟩
      · obtain ⟨hm, ha, hb⟩ := ih hf
        rw [position_fillHead] at ha
        refine ⟨?_, ha, hb⟩
        by_cases hq : f.price = position d a
        · rw [hq, Levels.fillHead, Levels.set_levels_self] at hm
          split at hm
          · rw [hq, he]; exact List.mem_cons_of_mem _ hm
          · rw [(h.of_zero (by omega)).2.2] at hf
            simp at hf
        · rwa [Levels.fillHead, a.set_levels_of_ne hq] at hm

def Positive (a : Levels) : Prop := ∀ p, ∀ r ∈ a.levels p, 0 < r.quantity

theorem fillHead_positive {a : Levels} (h : Positive a) {p : Nat} {r : Resting} {rest : List Resting}
    (he : a.levels p = r :: rest) (left : Nat) : Positive (a.fillHead p r rest left) := by
  intro q r' hr'
  by_cases hq : q = p
  · subst hq
    have htail : ∀ x ∈ rest, 0 < x.quantity := fun x hx =>
      h q x (by rw [he]; exact List.mem_cons_of_mem _ hx)
    rw [Levels.fillHead, Levels.set_levels_self] at hr'
    split at hr'
    next => exact htail r' hr'
    next hlt =>
      rcases List.mem_cons.mp hr' with rfl | hr'
      · exact Nat.sub_pos_of_lt (Nat.lt_of_not_le hlt)
      · exact htail r' hr'
  · rw [Levels.fillHead, a.set_levels_of_ne hq] at hr'
    exact h q r' hr'

theorem Swept.positive {d : Sweep} {price : Nat} {a a' : Levels} {left left' : Nat} {fs : List Fill}
    (h : Swept d price a left a' left' fs) (hp : Positive a) : Positive a' := by
  induction h with
  | done | last => exact hp
  | skip hl hw he hne h ih =>
      refine ih ?_
      simpa only [Positive, advance_levels] using hp
  | fill hl hw he h ih => exact ih (fillHead_positive hp he _)

def distance : Sweep → Levels → Nat
  | .asks, a => maxPriceTicks - a.bestAsk
  | .bids, a => a.bestBid

theorem distance_advance {d : Sweep} {a : Levels} (hp : position d a ≠ limit d)
    (hb : position d a ≤ maxPriceTicks) : distance d (advance d a) < distance d a := by
  cases d with
  | asks => simp only [distance, advance, position, limit] at *; omega
  | bids => simp only [distance, advance, position, limit] at *; omega

theorem position_advance_le {d : Sweep} {a : Levels} (hp : position d a ≠ limit d)
    (hb : position d a ≤ maxPriceTicks) : position d (advance d a) ≤ maxPriceTicks := by
  cases d with
  | asks => simp only [advance, position, limit] at *; omega
  | bids => simp only [advance, position, limit] at *; omega

@[simp] theorem distance_fillHead (d : Sweep) (a : Levels) (p : Nat) (r : Resting)
    (rest : List Resting) (left : Nat) : distance d (a.fillHead p r rest left) = distance d a := by
  cases d <;> rfl

theorem Swept.position_le {d : Sweep} {price : Nat} {a a' : Levels} {left left' : Nat}
    {fs : List Fill} (h : Swept d price a left a' left' fs) (hb : position d a ≤ maxPriceTicks) :
    position d a' ≤ maxPriceTicks := by
  induction h with
  | done | last => exact hb
  | skip hl hw he hp h ih => exact ih (position_advance_le hp hb)
  | fill hl hw he h ih => exact ih (by simpa using hb)

/-- The matching part of `match_order`, by the side of the incoming order. -/
inductive Matched (price : Nat) : UInt8 → Levels → Nat → Levels → Nat → List Fill → Prop
  | buy {a quantity a' left fs} (h : Swept .asks price a quantity a' left fs) :
      Matched price 0 a quantity a' left fs
  | sell {a quantity a' left fs} (h : Swept .bids price a quantity a' left fs) :
      Matched price 1 a quantity a' left fs
  | other {side a quantity} (hb : side ≠ 0) (hs : side ≠ 1) :
      Matched price side a quantity a quantity []

theorem Matched.positive {price : Nat} {side : UInt8} {a a' : Levels} {quantity left : Nat}
    {fs : List Fill} (h : Matched price side a quantity a' left fs) (hp : Positive a) :
    Positive a' := by
  cases h with
  | buy h | sell h => exact h.positive hp
  | other => exact hp

theorem Matched.mem {price : Nat} {side : UInt8} {a a' : Levels} {quantity left : Nat}
    {fs : List Fill} (h : Matched price side a quantity a' left fs) {p : Nat} {r' : Resting}
    (hr : r' ∈ a'.levels p) : ∃ r ∈ a.levels p, r.Leaves r' := by
  cases h with
  | buy h | sell h => exact h.mem hr
  | other => exact ⟨r', hr, .refl r'⟩

theorem Matched.maker_mem {price : Nat} {side : UInt8} {a a' : Levels} {quantity left : Nat}
    {fs : List Fill} (h : Matched price side a quantity a' left fs) {f : Fill} (hf : f ∈ fs) :
    f.maker ∈ a.levels f.price := by
  cases h with
  | buy h | sell h => exact (h.maker_mem hf).1
  | other => simp at hf

def restResidue (a : Levels) (price : Nat) (r : Resting) (left : Nat) : Levels :=
  if 0 < left then a.enqueue price { r with quantity := left } else a

end Sequitur.LevelBook
