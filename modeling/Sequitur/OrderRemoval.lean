import Sequitur.Abstraction
import Sequitur.Runs

namespace Sequitur.OrderRemoval

open OrderBook LinkedLists Abstraction

section Adjust

variable {α : Type}

def adjust (s : Nat → α) (p : Nat) (f : α → α) : Nat → α := Function.update s p (f (s p))

theorem adjust_comm (s : Nat → α) (p q : Nat) {f g : α → α} (h : ∀ x, f (g x) = g (f x)) :
    adjust (adjust s q g) p f = adjust (adjust s p f) q g := by
  by_cases hpq : p = q
  · subst hpq
    simp [adjust, h]
  · funext r
    simp only [adjust, Function.update_of_ne hpq, Function.update_of_ne (Ne.symm hpq)]
    exact congrFun (Function.update_comm (Ne.symm hpq) _ _ s) r

theorem adjust_cancel (s : Nat → α) (p : Nat) {f g : α → α} (h : f (g (s p)) = s p) :
    adjust (adjust s p g) p f = s := by
  simp [adjust, h]

end Adjust

structure Shelves where
  levels : Nat → List Nat
  volume : Nat → UInt32

namespace Shelves

def insert (s : Shelves) (p o : Nat) (quantity : UInt32) : Shelves where
  levels := adjust s.levels p (· ++ [o])
  volume := adjust s.volume p (· + quantity)

def remove (s : Shelves) (p o : Nat) (quantity : UInt32) : Shelves where
  levels := adjust s.levels p (·.erase o)
  volume := adjust s.volume p (· - quantity)

theorem remove_insert (s : Shelves) {p o : Nat} (ho : o ∉ s.levels p) (quantity : UInt32) :
    (s.insert p o quantity).remove p o quantity = s := by
  have hl : (s.levels p ++ [o]).erase o = s.levels p := by simp [List.erase_append_right _ ho]
  have hv : s.volume p + quantity - quantity = s.volume p := UInt32.add_sub_cancel _ _
  have hlevels : adjust (adjust s.levels p (· ++ [o])) p (·.erase o) = s.levels := adjust_cancel _ _ hl
  have hvolume : adjust (adjust s.volume p (· + quantity)) p (· - quantity) = s.volume := adjust_cancel _ _ hv
  simp only [insert, remove, hlevels, hvolume]

theorem remove_insert_comm (s : Shelves) (p q : Nat) {o x : Nat} (hx : x ≠ o) (k n : UInt32) :
    (s.insert q x n).remove p o k = (s.remove p o k).insert q x n := by
  have hl (l : List Nat) : (l ++ [x]).erase o = l.erase o ++ [x] := by
    by_cases ho : o ∈ l
    · exact List.erase_append_left _ ho
    · rw [List.erase_append_right _ ho, List.erase_of_not_mem ho, List.erase_of_not_mem (by simpa using Ne.symm hx)]
  have hv (v : UInt32) : v + n - k = v - k + n := by
    rw [UInt32.sub_eq_add_neg, UInt32.sub_eq_add_neg, UInt32.add_assoc, UInt32.add_comm n, UInt32.add_assoc]
  simp only [insert, remove, mk.injEq]
  exact ⟨adjust_comm _ _ _ hl, adjust_comm _ _ _ hv⟩

theorem remove_remove_comm (s : Shelves) (p o q x : Nat) (k n : UInt32) :
    (s.remove q x n).remove p o k = (s.remove p o k).remove q x n := by
  have hv (v : UInt32) : v - n - k = v - k - n := by
    simp only [UInt32.sub_eq_add_neg, UInt32.add_assoc, UInt32.add_comm (-n)]
  simp only [remove, mk.injEq]
  exact ⟨adjust_comm _ _ _ fun _ => List.erase_comm x o, adjust_comm _ _ _ hv⟩

theorem mem_insert_of_ne (s : Shelves) (p q : Nat) {o x : Nat} (hx : o ≠ x) (n : UInt32) :
    o ∈ (s.insert q x n).levels p ↔ o ∈ s.levels p := by
  by_cases hp : p = q
  · subst hp
    simp [insert, adjust, hx]
  · simp [insert, adjust, hp]

theorem mem_remove_of_ne (s : Shelves) (p q : Nat) {o x : Nat} (hx : o ≠ x) (n : UInt32) :
    o ∈ (s.remove q x n).levels p ↔ o ∈ s.levels p := by
  by_cases hp : p = q
  · subst hp
    simp [remove, adjust, List.mem_erase_of_ne hx]
  · simp [remove, adjust, hp]

end Shelves

section Market

variable (m : Market) (o : Nat)

theorem insertOrder_cursors : ∃ bid ask, m.insertOrder o = { inserted m o with bestBid := bid, bestAsk := ask } := by
  rw [insertOrder_eq]
  split
  · exact ⟨_, _, rfl⟩
  · split
    · exact ⟨_, _, rfl⟩
    · exact ⟨_, _, rfl⟩

theorem links_insertOrder : links (m.insertOrder o) = pushBack (links m) (m.heap o).price.toNat o := by
  have hi : links (inserted m o) = pushBack (links m) (m.heap o).price.toNat o := by
    rw [inserted, links_setVolume, links_linkOrder]
    rfl
  obtain ⟨bid, ask, h⟩ := insertOrder_cursors m o
  rw [h]
  exact hi

theorem bare_insertOrder (s : Nat) : bare ((m.insertOrder o).heap s) = bare (m.heap s) := by
  obtain ⟨bid, ask, h⟩ := insertOrder_cursors m o
  rw [h]
  exact bare_inserted m o s

theorem volume_insertOrder :
    (fun q => ((m.insertOrder o).book q).volume) =
      adjust (fun q => (m.book q).volume) (m.heap o).price.toNat (· + (m.heap o).quantity) := by
  have hquantity := quantity_eq (bare_inserted m o o)
  obtain ⟨bid, ask, h⟩ := insertOrder_cursors m o
  rw [h]
  funext q
  by_cases hq : q = (m.heap o).price.toNat
  · subst hq
    simp only [inserted, Market.setLevel, Function.update_self, volume_linkOrder, adjust]
    exact congrArg _ hquantity
  · simp only [inserted, Market.setLevel, Function.update_of_ne hq, volume_linkOrder, adjust]
    rfl

theorem volume_removed :
    (fun q => ((m.removeOrder o).book q).volume) =
      adjust (fun q => (m.book q).volume) (m.heap o).price.toNat (· - (m.heap o).quantity) := by
  funext q
  rw [volume_removeOrder]
  by_cases hq : q = (m.heap o).price.toNat
  · subst hq
    simp [adjust]
  · simp [adjust, hq]

end Market

theorem price_eq {x y : Order} (h : bare x = bare y) : x.price = y.price := by
  have hp := congrArg Order.price h
  exact hp

theorem order_eq {x y : Order} (h : bare x = bare y) (hp : x.prevOrder = y.prevOrder)
    (hn : x.nextOrder = y.nextOrder) : x = y := by
  cases x
  cases y
  simp_all [bare]

/-- A book whose levels are well-formed lists of orders with their price. -/
structure Book where
  market : Market
  levels : Nat → List Nat
  holds : Holds (links market) levels
  priced : ∀ p, ∀ o ∈ levels p, (market.heap o).price.toNat = p

namespace Book

def init (heap : Nat → Order) : Book where
  market := .init heap
  levels := fun _ => []
  holds := ⟨fun _ => rfl, fun _ => rfl, fun _ => trivial, fun _ => List.nodup_nil, by simp⟩
  priced := by simp

variable (b : Book) (o : Nat)

def level : Nat := (b.market.heap o).price.toNat

def Linked : Prop := o ∈ b.levels (b.level o)

instance : Decidable (b.Linked o) := inferInstanceAs (Decidable (_ ∈ _))

variable {b o}

theorem not_mem (h : ¬ b.Linked o) (p : Nat) : o ∉ b.levels p := by
  intro ho
  refine h ?_
  rwa [Linked, level, b.priced p o ho]

def insert (b : Book) (o : Nat) (h : ¬ b.Linked o) : Book where
  market := b.market.insertOrder o
  levels := adjust b.levels (b.level o) (· ++ [o])
  holds := by
    rw [links_insertOrder]
    exact pushBack_holds b.holds _ o (not_mem h)
  priced := by
    intro p x hx
    rw [price_eq (bare_insertOrder b.market o x)]
    by_cases hp : p = b.level o
    · subst hp
      rw [adjust, Function.update_self] at hx
      rcases List.mem_append.mp hx with hx | hx
      · exact b.priced _ x hx
      · rw [List.mem_singleton.mp hx]
        rfl
    · rw [adjust, Function.update_of_ne hp] at hx
      exact b.priced p x hx

theorem erase_eq {xs ys : List Nat} {p : Nat} (h : b.levels p = xs ++ o :: ys) :
    (b.levels p).erase o = xs ++ ys := by
  have hnodup := b.holds.nodup p
  rw [h] at hnodup ⊢
  have ho : o ∉ xs := fun hx => (List.nodup_append.mp hnodup).2.2 o hx o List.mem_cons_self rfl
  rw [List.erase_append_right _ ho, List.erase_cons_head]

def remove (b : Book) (o : Nat) (h : b.Linked o) : Book where
  market := b.market.removeOrder o
  levels := adjust b.levels (b.level o) (·.erase o)
  holds := by
    obtain ⟨xs, ys, hl⟩ := List.append_of_mem h
    rw [links_removeOrder, adjust, erase_eq hl]
    exact unlink_holds b.holds hl
  priced := by
    intro p x hx
    rw [price_eq (bare_removeOrder b.market o x)]
    by_cases hp : p = b.level o
    · subst hp
      rw [adjust, Function.update_self] at hx
      exact b.priced _ x (List.mem_of_mem_erase hx)
    · rw [adjust, Function.update_of_ne hp] at hx
      exact b.priced p x hx

def shelves (b : Book) : Shelves := ⟨b.levels, fun p => (b.market.book p).volume⟩

def SameData (b b' : Book) : Prop := ∀ x, bare (b'.market.heap x) = bare (b.market.heap x)

theorem insert_data (h : ¬ b.Linked o) : SameData b (b.insert o h) := bare_insertOrder b.market o

theorem remove_data (h : b.Linked o) : SameData b (b.remove o h) := bare_removeOrder b.market o

theorem SameData.symm {b' : Book} (h : SameData b b') : SameData b' b := fun x => (h x).symm

theorem SameData.trans {b' b'' : Book} (h : SameData b b') (h' : SameData b' b'') : SameData b b'' :=
  fun x => (h' x).trans (h x)

theorem SameData.level {b' : Book} (h : SameData b b') (x : Nat) : b'.level x = b.level x := by
  rw [Book.level, Book.level, price_eq (h x)]

theorem SameData.quantity {b' : Book} (h : SameData b b') (x : Nat) :
    (b'.market.heap x).quantity = (b.market.heap x).quantity := quantity_eq (h x)

theorem shelves_insert (h : ¬ b.Linked o) :
    (b.insert o h).shelves = b.shelves.insert (b.level o) o (b.market.heap o).quantity :=
  congrArg (Shelves.mk _) (volume_insertOrder b.market o)

theorem shelves_remove (h : b.Linked o) :
    (b.remove o h).shelves = b.shelves.remove (b.level o) o (b.market.heap o).quantity :=
  congrArg (Shelves.mk _) (volume_removed b.market o)

end Book

theorem removeOrder_book_of_ne (m : Market) {o q : Nat} (hq : q ≠ (m.heap o).price.toNat) :
    (m.removeOrder o).book q = m.book q := by
  have hf (n : Market) {p : Nat} (hp : q ≠ p) : (n.bypassForward p o).book q = n.book q := by
    cases hc : (n.heap o).prevOrder <;> simp [Market.bypassForward, hc, Market.setOrder, Market.setLevel, hp]
  have hb (n : Market) {p : Nat} (hp : q ≠ p) : (n.bypassBackward p o).book q = n.book q := by
    cases hc : (n.heap o).nextOrder <;> simp [Market.bypassBackward, hc, Market.setOrder, Market.setLevel, hp]
  simp only [Market.removeOrder, Market.setLevel, Function.update_of_ne hq]
  exact (hb _ hq).trans (hf _ hq)

structure Removed (b : Book) (o : Nat) (b' : Book) : Prop where
  market : b'.market = b.market.removeOrder o
  level : ∃ xs ys, b.levels (b.level o) = xs ++ o :: ys ∧ b'.levels (b.level o) = xs ++ ys
  volume : (b'.market.book (b.level o)).volume =
    (b.market.book (b.level o)).volume - (b.market.heap o).quantity
  otherLevels : ∀ q, q ≠ b.level o → b'.levels q = b.levels q ∧ b'.market.book q = b.market.book q
  otherOrders : ∀ q, q ≠ b.level o → ∀ x ∈ b.levels q, b'.market.heap x = b.market.heap x
  bestBid : b'.market.bestBid = b.market.bestBid
  bestAsk : b'.market.bestAsk = b.market.bestAsk
  data : b.SameData b'

theorem heap_eq {b b' : Book} (hdata : b.SameData b') {q : Nat} (hl : b'.levels q = b.levels q) {x : Nat}
    (hx : x ∈ b.levels q) : b'.market.heap x = b.market.heap x := by
  obtain ⟨i, hi⟩ := List.getElem?_of_mem hx
  have hi' : (b'.levels q)[i]? = some x := by rw [hl, hi]
  refine order_eq (hdata x) ?_ ?_
  · have hprev := (b.holds.segment q).prev_eq hi
    have hprev' := (b'.holds.segment q).prev_eq hi'
    cases i with
    | zero => exact hprev'.trans hprev.symm
    | succ i => exact (hprev'.trans (congrArg (·[i]?) hl)).trans hprev.symm
  · have hnext := (b.holds.segment q).next_eq hi
    have hnext' := (b'.holds.segment q).next_eq hi'
    rw [hl] at hnext'
    exact hnext'.trans hnext.symm

theorem removed (b : Book) {o : Nat} (h : b.Linked o) : Removed b o (b.remove o h) := by
  obtain ⟨xs, ys, hl⟩ := List.append_of_mem h
  have hbid := congrArg Market.bestBid (removeOrder_frame b.market o)
  have hask := congrArg Market.bestAsk (removeOrder_frame b.market o)
  have hother : ∀ q, q ≠ b.level o → (b.remove o h).levels q = b.levels q :=
    fun q hq => Function.update_of_ne hq _ _
  refine ⟨rfl, ⟨xs, ys, hl, ?_⟩, ?_, fun q hq => ⟨hother q hq, removeOrder_book_of_ne b.market hq⟩,
    fun q hq x hx => heap_eq (Book.remove_data h) (hother q hq) hx, ?_, ?_, Book.remove_data h⟩
  · exact (Function.update_self ..).trans (Book.erase_eq hl)
  · exact (volume_removeOrder b.market o _).trans (if_pos rfl)
  · exact hbid
  · exact hask

inductive Op
  | insert (o : Nat)
  | remove (o : Nat)

def Op.order : Op → Nat
  | .insert o => o
  | .remove o => o

def step (b : Book) : Op → Option Book
  | .insert o => if h : b.Linked o then none else some (b.insert o h)
  | .remove o => if h : b.Linked o then some (b.remove o h) else none

structure Without (o : Nat) (b b' : Book) : Prop where
  data : b.SameData b'
  shelves : b'.shelves = b.shelves.remove (b.level o) o (b.market.heap o).quantity
  linked : b.Linked o

section Without

variable {o x : Nat} {b b' c' : Book}

theorem insert_without (h : ¬ b.Linked o) : Without o (b.insert o h) b where
  data := (Book.insert_data h).symm
  shelves := by
    rw [(Book.insert_data h).level, (Book.insert_data h).quantity, Book.shelves_insert]
    exact (b.shelves.remove_insert h _).symm
  linked := by
    have hl : (b.insert o h).levels (b.level o) = b.levels (b.level o) ++ [o] := Function.update_self ..
    rw [Book.Linked, (Book.insert_data h).level, hl]
    exact List.mem_append_right _ (List.mem_singleton_self o)

theorem Without.linked_iff (h : Without o b b') (hx : x ≠ o) : b'.Linked x ↔ b.Linked x := by
  have hlevels := congrArg (fun s => x ∈ s.levels (b.level x)) h.shelves
  rw [Book.Linked, Book.Linked, h.data.level]
  exact (iff_of_eq hlevels).trans (Shelves.mem_remove_of_ne _ _ _ hx _)

theorem Without.insert (h : Without o b b') (hx : x ≠ o) (hb : ¬ b.Linked x) (hb' : ¬ b'.Linked x) :
    Without o (b.insert x hb) (b'.insert x hb') where
  data := ((Book.insert_data hb).symm.trans h.data).trans (Book.insert_data hb')
  shelves := by
    rw [(Book.insert_data hb).level, (Book.insert_data hb).quantity, Book.shelves_insert, Book.shelves_insert,
      h.shelves, h.data.level, h.data.quantity]
    exact (b.shelves.remove_insert_comm _ _ hx _ _).symm
  linked := by
    have hmem := b.shelves.mem_insert_of_ne (b.level o) (b.level x) (Ne.symm hx) (b.market.heap x).quantity
    rw [← Book.shelves_insert hb] at hmem
    rw [Book.Linked, (Book.insert_data hb).level]
    exact hmem.mpr h.linked

theorem Without.remove (h : Without o b b') (hx : x ≠ o) (hb : b.Linked x) (hb' : b'.Linked x) :
    Without o (b.remove x hb) (b'.remove x hb') where
  data := ((Book.remove_data hb).symm.trans h.data).trans (Book.remove_data hb')
  shelves := by
    rw [(Book.remove_data hb).level, (Book.remove_data hb).quantity, Book.shelves_remove, Book.shelves_remove,
      h.shelves, h.data.level, h.data.quantity]
    exact (b.shelves.remove_remove_comm _ _ _ _ _ _).symm
  linked := by
    have hmem := b.shelves.mem_remove_of_ne (b.level o) (b.level x) (Ne.symm hx) (b.market.heap x).quantity
    rw [← Book.shelves_remove hb] at hmem
    rw [Book.Linked, (Book.remove_data hb).level]
    exact hmem.mpr h.linked

theorem step_without {op : Op} (hop : op.order ≠ o) (h : Without o b b') (hs : step b' op = some c') :
    ∃ c, step b op = some c ∧ Without o c c' := by
  cases op with
  | insert x =>
      have hx : x ≠ o := hop
      by_cases hb' : b'.Linked x
      · rw [step, dif_pos hb'] at hs
        exact absurd hs (Option.some_ne_none _).symm
      · have hb : ¬ b.Linked x := fun hb => hb' ((h.linked_iff hx).mpr hb)
        rw [step, dif_neg hb'] at hs
        obtain rfl := Option.some.inj hs
        exact ⟨b.insert x hb, dif_neg hb, h.insert hx hb hb'⟩
  | remove x =>
      have hx : x ≠ o := hop
      by_cases hb' : b'.Linked x
      · have hb : b.Linked x := (h.linked_iff hx).mp hb'
        rw [step, dif_pos hb'] at hs
        obtain rfl := Option.some.inj hs
        exact ⟨b.remove x hb, dif_pos hb, h.remove hx hb hb'⟩
      · rw [step, dif_neg hb'] at hs
        exact absurd hs (Option.some_ne_none _).symm

theorem run_without {ops : List Op} (hops : ∀ op ∈ ops, op.order ≠ o) (h : Without o b b')
    (hr : Runs.run step b' ops = some c') : ∃ c, Runs.run step b ops = some c ∧ Without o c c' := by
  induction ops generalizing b b' with
  | nil => exact ⟨b, rfl, Option.some.inj hr ▸ h⟩
  | cons op ops ih =>
      obtain ⟨d', hd', hr⟩ := Runs.run_cons_some hr
      obtain ⟨d, hd, hw⟩ := step_without (hops op List.mem_cons_self) h hd'
      obtain ⟨c, hc, hw⟩ := ih (fun op hm => hops op (List.mem_cons_of_mem _ hm)) hw hr
      exact ⟨c, by rw [Runs.run_cons, hd, Option.bind_some, hc], hw⟩

end Without

/-- Removing an order takes it, and nothing else, out of its level. Inserting
an order and removing it later leaves the lists and the volumes that would be
there without it, whatever is done with other orders in between. -/
theorem removal_exact (b : Book) (o : Nat) :
    (b.Linked o → ∃ b', step b (.remove o) = some b' ∧ Removed b o b') ∧
      (¬ b.Linked o → ∀ ops : List Op, (∀ op ∈ ops, op.order ≠ o) → ∀ b', Runs.run step b ops = some b' →
        ∃ b'', Runs.run step b (.insert o :: (ops ++ [.remove o])) = some b'' ∧ b''.shelves = b'.shelves) := by
  constructor
  · intro h
    exact ⟨b.remove o h, dif_pos h, removed b h⟩
  · intro h ops hops b' hr
    obtain ⟨c, hc, hw⟩ := run_without hops (insert_without h) hr
    have hfirst : step b (.insert o) = some (b.insert o h) := dif_neg h
    have hlast : step c (.remove o) = some (c.remove o hw.linked) := dif_pos hw.linked
    refine ⟨c.remove o hw.linked, ?_, ?_⟩
    · rw [Runs.run_cons, hfirst, Option.bind_some]
      exact Runs.run_concat hc hlast
    · rw [Book.shelves_remove, hw.shelves]

def threeOrders : Book := .init fun o => { Order.zero with price := 5, quantity := UInt32.ofNat (o + 1) }

theorem removal_exact_between :
    ∃ b', Runs.run step threeOrders [.insert 1, .insert 2, .remove 1] = some b' ∧
      (∃ b'', Runs.run step threeOrders [.insert 0, .insert 1, .insert 2, .remove 1, .remove 0] = some b'' ∧
        b''.shelves = b'.shelves) ∧
      ∃ b'', step b' (.remove 2) = some b'' ∧ Removed b' 2 b'' := by
  have hsome : (Runs.run step threeOrders [.insert 1, .insert 2, .remove 1]).isSome := by decide +kernel
  obtain ⟨b', hr⟩ := Option.isSome_iff_exists.mp hsome
  have hlinked : ∀ b ∈ Runs.run step threeOrders [.insert 1, .insert 2, .remove 1], b.Linked 2 := by
    decide +kernel
  refine ⟨b', hr, ?_, ?_⟩
  · exact (removal_exact threeOrders 0).2 (by decide +kernel) [.insert 1, .insert 2, .remove 1]
      (by simp [Op.order]) b' hr
  · exact (removal_exact b' 2).1 (hlinked b' hr)

end Sequitur.OrderRemoval
