import Sequitur.LevelBook

namespace Sequitur.Abstraction

open OrderBook LevelBook LinkedLists

def links (m : Market) : Links Nat Nat where
  head := fun p => (m.book p).head
  tail := fun p => (m.book p).tail
  next := fun o => (m.heap o).nextOrder
  prev := fun o => (m.heap o).prevOrder

theorem links_setLevel (m : Market) (p : Nat) (f : PriceLevel → PriceLevel) :
    links (m.setLevel p f) =
      { links m with
        head := Function.update (links m).head p (f (m.book p)).head
        tail := Function.update (links m).tail p (f (m.book p)).tail } := by
  simp only [links, Market.setLevel, Links.mk.injEq, and_true]
  constructor <;> funext q <;> by_cases hq : q = p <;> simp [hq]

theorem links_setOrder (m : Market) (o : Nat) (f : Order → Order) :
    links (m.setOrder o f) =
      { links m with
        next := Function.update (links m).next o (f (m.heap o)).nextOrder
        prev := Function.update (links m).prev o (f (m.heap o)).prevOrder } := by
  simp only [links, Market.setOrder, Links.mk.injEq, true_and]
  constructor <;> funext q <;> by_cases hq : q = o <;> simp [hq]

theorem links_setHead (m : Market) (p : Nat) (v : Option Nat) :
    links (m.setLevel p fun pl => { pl with head := v }) =
      { links m with head := Function.update (links m).head p v } := by
  rw [links_setLevel]
  exact Links.ext rfl (Function.update_eq_self p (links m).tail) rfl rfl

theorem links_setTail (m : Market) (p : Nat) (v : Option Nat) :
    links (m.setLevel p fun pl => { pl with tail := v }) =
      { links m with tail := Function.update (links m).tail p v } := by
  rw [links_setLevel]
  exact Links.ext (Function.update_eq_self p (links m).head) rfl rfl rfl

theorem links_setVolume (m : Market) (p : Nat) (f : PriceLevel → UInt32) :
    links (m.setLevel p fun pl => { pl with volume := f pl }) = links m := by
  rw [links_setLevel]
  exact Links.ext (Function.update_eq_self p (links m).head) (Function.update_eq_self p (links m).tail)
    rfl rfl

theorem links_setNext (m : Market) (o : Nat) (v : Option Nat) :
    links (m.setOrder o fun x => { x with nextOrder := v }) =
      { links m with next := Function.update (links m).next o v } := by
  rw [links_setOrder]
  exact Links.ext rfl rfl rfl (Function.update_eq_self o (links m).prev)

theorem links_setPrev (m : Market) (o : Nat) (v : Option Nat) :
    links (m.setOrder o fun x => { x with prevOrder := v }) =
      { links m with prev := Function.update (links m).prev o v } := by
  rw [links_setOrder]
  exact Links.ext rfl rfl (Function.update_eq_self o (links m).next) rfl

theorem links_setQuantity (m : Market) (o : Nat) (f : Order → UInt32) :
    links (m.setOrder o fun x => { x with quantity := f x }) = links m := by
  rw [links_setOrder]
  exact Links.ext rfl rfl (Function.update_eq_self o (links m).next)
    (Function.update_eq_self o (links m).prev)

theorem links_linkOrder (m : Market) (p o : Nat) :
    links (m.linkOrder p o) = pushBack (links m) p o := by
  cases hh : (m.book p).head with
  | none =>
      have hp : (links m).head p = none := hh
      simp only [Market.linkOrder, hh, links_setOrder, links_setLevel, pushBack, hp]
  | some x =>
      have hp : (links m).head p = some x := hh
      cases ht : (m.book p).tail with
      | none =>
          have hq : (links m).tail p = none := ht
          simp only [Market.linkOrder, hh, ht, Market.setNext, links_setNext, links_setTail,
            links_setPrev, pushBack, hp, hq]
      | some y =>
          have hq : (links m).tail p = some y := ht
          simp only [Market.linkOrder, hh, ht, Market.setNext, links_setNext, links_setTail,
            links_setPrev, pushBack, hp, hq]

theorem links_bypassForward (m : Market) (p o : Nat) :
    links (m.bypassForward p o) =
      { links m with
        head := match (links m).prev o with
          | none => Function.update (links m).head p ((links m).next o)
          | some _ => (links m).head
        next := match (links m).prev o with
          | none => (links m).next
          | some y => Function.update (links m).next y ((links m).next o) } := by
  have hp : (links m).prev o = (m.heap o).prevOrder := rfl
  cases hc : (m.heap o).prevOrder with
  | none => simp only [Market.bypassForward, links_setHead, hp, hc]; rfl
  | some y => simp only [Market.bypassForward, links_setNext, hp, hc]; rfl

theorem links_bypassBackward (m : Market) (p o : Nat) :
    links (m.bypassBackward p o) =
      { links m with
        tail := match (links m).next o with
          | none => Function.update (links m).tail p ((links m).prev o)
          | some _ => (links m).tail
        prev := match (links m).next o with
          | none => (links m).prev
          | some y => Function.update (links m).prev y ((links m).prev o) } := by
  have hn : (links m).next o = (m.heap o).nextOrder := rfl
  cases hc : (m.heap o).nextOrder with
  | none => simp only [Market.bypassBackward, links_setTail, hn, hc]; rfl
  | some y => simp only [Market.bypassBackward, links_setPrev, hn, hc]; rfl

theorem links_removeOrder (m : Market) (o : Nat) :
    links (m.removeOrder o) = unlink (links m) (m.heap o).price.toNat o := by
  have ht : links (m.touch (m.heap o).price.toNat) = links m := rfl
  simp only [Market.removeOrder, links_setVolume, links_bypassBackward, links_bypassForward, ht, unlink]
  cases hp : (links m).prev o with
  | none => cases hn : (links m).next o <;> simp only [hn]
  | some y => cases hn : Function.update (links m).next y ((links m).next o) o <;> simp only [hn]

def bare (x : Order) : Order := { x with prevOrder := none, nextOrder := none }

theorem side_eq {x y : Order} (h : bare x = bare y) : x.side = y.side := by
  have hs := congrArg Order.side h
  exact hs

theorem quantity_eq {x y : Order} (h : bare x = bare y) : x.quantity = y.quantity := by
  have hq := congrArg Order.quantity h
  exact hq

theorem bare_setOrder (m : Market) (o : Nat) (f : Order → Order) (hf : ∀ x, bare (f x) = bare x)
    (s : Nat) : bare ((m.setOrder o f).heap s) = bare (m.heap s) := by
  by_cases hs : s = o
  · subst hs; simp [Market.setOrder, hf]
  · simp [Market.setOrder, Function.update_of_ne hs]

theorem bare_linkOrder (m : Market) (p o s : Nat) :
    bare ((m.linkOrder p o).heap s) = bare (m.heap s) := by
  cases hh : (m.book p).head with
  | none =>
      simp only [Market.linkOrder, hh]
      exact bare_setOrder _ _ _ (by intro x; rfl) s
  | some x =>
      simp only [Market.linkOrder, hh]
      rw [bare_setOrder _ _ _ (by intro x; rfl), Market.setLevel_heap,
        bare_setOrder _ _ _ (by intro x; rfl)]
      cases (m.book p).tail with
      | none => rfl
      | some y => rw [Market.setNext, bare_setOrder _ _ _ (by intro x; rfl)]

theorem bare_removeOrder (m : Market) (o s : Nat) :
    bare ((m.removeOrder o).heap s) = bare (m.heap s) := by
  have hf (n : Market) (p : Nat) : bare ((n.bypassForward p o).heap s) = bare (n.heap s) := by
    cases hc : (n.heap o).prevOrder with
    | none => simp only [Market.bypassForward, hc]; rfl
    | some y => simp only [Market.bypassForward, hc]; exact bare_setOrder _ _ _ (by intro x; rfl) s
  have hb (n : Market) (p : Nat) : bare ((n.bypassBackward p o).heap s) = bare (n.heap s) := by
    cases hc : (n.heap o).nextOrder with
    | none => simp only [Market.bypassBackward, hc]; rfl
    | some y => simp only [Market.bypassBackward, hc]; exact bare_setOrder _ _ _ (by intro x; rfl) s
  exact (hb _ _).trans (hf _ _)

theorem volume_linkOrder (m : Market) (p o q : Nat) :
    ((m.linkOrder p o).book q).volume = (m.book q).volume := by
  cases hh : (m.book p).head with
  | none =>
      simp only [Market.linkOrder, hh]
      by_cases hq : q = p <;> simp [Market.setOrder, Market.setLevel, hq]
  | some x =>
      cases ht : (m.book p).tail <;> by_cases hq : q = p <;>
        simp [Market.linkOrder, hh, ht, Market.setNext, Market.setOrder, Market.setLevel, hq]

theorem volume_removeOrder (m : Market) (o q : Nat) :
    ((m.removeOrder o).book q).volume =
      if q = (m.heap o).price.toNat then (m.book q).volume - (m.heap o).quantity
      else (m.book q).volume := by
  have hf (n : Market) (p : Nat) : ((n.bypassForward p o).book q).volume = (n.book q).volume := by
    cases hc : (n.heap o).prevOrder <;> by_cases hq : q = p <;>
      simp [Market.bypassForward, hc, Market.setOrder, Market.setLevel, hq]
  have hb (n : Market) (p : Nat) : ((n.bypassBackward p o).book q).volume = (n.book q).volume := by
    cases hc : (n.heap o).nextOrder <;> by_cases hq : q = p <;>
      simp [Market.bypassBackward, hc, Market.setOrder, Market.setLevel, hq]
  have hq : ((m.removeOrder o).heap o).quantity = (m.heap o).quantity :=
    quantity_eq (bare_removeOrder m o o)
  by_cases hp : q = (m.heap o).price.toNat
  · subst hp
    simp only [Market.removeOrder, Market.setLevel, Function.update_self, if_true]
    rw [hb, hf]
    exact congrArg _ hq
  · rw [if_neg hp]
    simp only [Market.removeOrder, Market.setLevel, Function.update_of_ne hp]
    exact (hb _ _).trans (hf _ _)

theorem linkOrder_frame (m : Market) (p o : Nat) :
    m.linkOrder p o = { m with heap := (m.linkOrder p o).heap, book := (m.linkOrder p o).book } := by
  cases hh : (m.book p).head with
  | none => simp only [Market.linkOrder, hh]; rfl
  | some x => cases ht : (m.book p).tail <;> simp only [Market.linkOrder, hh, ht] <;> rfl

theorem removeOrder_frame (m : Market) (o : Nat) :
    m.removeOrder o = { m with
      heap := (m.removeOrder o).heap
      book := (m.removeOrder o).book
      touched := m.touched ++ [(m.heap o).price.toNat] } := by
  have hf (n : Market) (p : Nat) : n.bypassForward p o = { n with
      heap := (n.bypassForward p o).heap
      book := (n.bypassForward p o).book } := by
    cases hc : (n.heap o).prevOrder <;> simp only [Market.bypassForward, hc] <;> rfl
  have hb (n : Market) (p : Nat) : n.bypassBackward p o = { n with
      heap := (n.bypassBackward p o).heap
      book := (n.bypassBackward p o).book } := by
    cases hc : (n.heap o).nextOrder <;> simp only [Market.bypassBackward, hc] <;> rfl
  simp only [Market.removeOrder]
  rw [hb, hf]
  rfl

structure Shows (x : Order) (p : Nat) (r : Resting) : Prop where
  id : x.id = r.id
  side : x.side = r.side
  traderId : x.traderId = r.traderId
  price : x.price.toNat = p
  quantity : x.quantity.toNat = r.quantity

theorem Shows.congr {x y : Order} {p : Nat} {r : Resting} (h : Shows x p r)
    (hb : bare y = bare x) : Shows y p r where
  id := (congrArg Order.id hb).trans h.id
  side := (congrArg Order.side hb).trans h.side
  traderId := (congrArg Order.traderId hb).trans h.traderId
  price := (congrArg (fun z => z.price.toNat) hb).trans h.price
  quantity := (congrArg (fun z => z.quantity.toNat) hb).trans h.quantity

/-- The linked levels of the market hold exactly the queues of the level
book, with the same data in every slot, and the cursors agree. -/
structure Represents (m : Market) (a : Levels) : Prop where
  links : Holds (links m) fun p => slots (a.levels p)
  data : ∀ p, ∀ r ∈ a.levels p, Shows (m.heap r.slot) p r
  volume : ∀ p, (m.book p).volume = UInt32.ofNat (volume (a.levels p))
  bestBid : m.bestBid.toNat = a.bestBid
  bestAsk : m.bestAsk.toNat = a.bestAsk

theorem init_represents (heap : Nat → Order) : Represents (.init heap) .empty where
  links := ⟨fun _ => rfl, fun _ => rfl, fun _ => trivial, fun _ => List.nodup_nil, by simp [Levels.empty]⟩
  data := by simp [Levels.empty]
  volume := fun _ => rfl
  bestBid := rfl
  bestAsk := maxPriceTicks_toNat

def Unlinked (a : Levels) (o : Nat) : Prop := ∀ p, o ∉ slots (a.levels p)

theorem slots_set (a : Levels) (p : Nat) (l : List Resting) :
    (fun q => slots ((a.set p l).levels q)) =
      Function.update (fun q => slots (a.levels q)) p (slots l) := by
  funext q
  by_cases hq : q = p
  · subst hq; simp
  · simp [a.set_levels_of_ne hq, Function.update_of_ne hq]

theorem Represents.slot_ne {m : Market} {a : Levels} (h : Represents m a) {p q : Nat} {r r' : Resting}
    (hr : r ∈ a.levels p) (hr' : r' ∈ a.levels q) (hpq : p ≠ q) : r.slot ≠ r'.slot := by
  intro he
  exact hpq (h.links.apart p q r.slot (mem_slots hr) (he ▸ mem_slots hr'))

theorem removeOrder_represents {m : Market} {a : Levels} (h : Represents m a) {p : Nat} {r : Resting}
    {xs ys : List Resting} (hl : a.levels p = xs ++ r :: ys) :
    Represents (m.removeOrder r.slot) (a.set p (xs ++ ys)) := by
  have hr : r ∈ a.levels p := by simp [hl]
  have hs := h.data p r hr
  have hslots : slots (a.levels p) = slots xs ++ r.slot :: slots ys := by simp [hl]
  refine ⟨?_, ?_, ?_, ?_, ?_⟩
  · rw [slots_set, links_removeOrder, hs.price, slots_append]
    exact unlink_holds h.links hslots
  · intro q r' hr'
    refine Shows.congr ?_ (bare_removeOrder m r.slot r'.slot)
    by_cases hq : q = p
    · subst hq
      rw [Levels.set_levels_self] at hr'
      refine h.data q r' ?_
      rw [hl, List.mem_append, List.mem_cons]
      rcases List.mem_append.mp hr' with hr' | hr'
      · exact .inl hr'
      · exact .inr (.inr hr')
    · rw [a.set_levels_of_ne hq] at hr'
      exact h.data q r' hr'
  · intro q
    rw [volume_removeOrder, hs.price]
    by_cases hq : q = p
    · subst hq
      rw [if_pos rfl, Levels.set_levels_self, h.volume, hl]
      have hv : LevelBook.volume (xs ++ r :: ys) =
          LevelBook.volume (xs ++ ys) + (m.heap r.slot).quantity.toNat := by
        simp only [volume_append, volume_cons, hs.quantity]
        omega
      rw [hv, UInt32.ofNat_add, UInt32.ofNat_toNat, UInt32.add_sub_cancel]
    · rw [if_neg hq, a.set_levels_of_ne hq, h.volume]
  · rw [removeOrder_frame]
    exact h.bestBid
  · rw [removeOrder_frame]
    exact h.bestAsk

theorem toNat_max (x y : UInt64) : (max x y).toNat = max x.toNat y.toNat := by
  rw [Nat.max_def, UInt64.max_def]
  simp only [UInt64.le_iff_toNat_le]
  split <;> rfl

theorem toNat_min (x y : UInt64) : (min x y).toNat = min x.toNat y.toNat := by
  rw [Nat.min_def, UInt64.min_def]
  simp only [UInt64.le_iff_toNat_le]
  split <;> rfl

theorem Represents.withCursors {m : Market} {a : Levels} (h : Represents m a) (b c : UInt64) :
    Represents { m with bestBid := b, bestAsk := c }
      { a with bestBid := b.toNat, bestAsk := c.toNat } :=
  ⟨h.links, h.data, h.volume, rfl, rfl⟩

/-- `insert_order` up to its cursor update. -/
def inserted (m : Market) (o : Nat) : Market :=
  let p := (m.heap o).price.toNat
  let m := (m.touch p).linkOrder p o
  m.setLevel p fun pl => { pl with volume := pl.volume + (m.heap o).quantity }

theorem bare_inserted (m : Market) (o s : Nat) : bare ((inserted m o).heap s) = bare (m.heap s) :=
  bare_linkOrder _ _ _ _

theorem insertOrder_eq (m : Market) (o : Nat) :
    m.insertOrder o =
      if (m.heap o).side = 0 then
        { inserted m o with bestBid := max (m.heap o).price m.bestBid }
      else if (m.heap o).side = 1 then
        { inserted m o with bestAsk := min (m.heap o).price m.bestAsk }
      else inserted m o := by
  have hside : ((inserted m o).heap o).side = (m.heap o).side := side_eq (bare_inserted m o o)
  have hbid : (inserted m o).bestBid = m.bestBid := by rw [inserted, linkOrder_frame]; rfl
  have hask : (inserted m o).bestAsk = m.bestAsk := by rw [inserted, linkOrder_frame]; rfl
  rw [← hside, ← hbid, ← hask]
  rfl

theorem inserted_represents {m : Market} {a : Levels} (h : Represents m a) {p : Nat} {r : Resting}
    (hu : Unlinked a r.slot) (hs : Shows (m.heap r.slot) p r) :
    Represents (inserted m r.slot) (a.set p (a.levels p ++ [r])) := by
  refine ⟨?_, ?_, ?_, ?_, ?_⟩
  · rw [slots_set, inserted, links_setVolume, links_linkOrder, hs.price, slots_append]
    exact pushBack_holds h.links p r.slot hu
  · intro q r' hr'
    refine Shows.congr ?_ (bare_inserted m r.slot r'.slot)
    by_cases hq : q = p
    · subst hq
      rw [Levels.set_levels_self] at hr'
      rcases List.mem_append.mp hr' with hr' | hr'
      · exact h.data q r' hr'
      · rw [List.mem_singleton.mp hr']; exact hs
    · rw [a.set_levels_of_ne hq] at hr'
      exact h.data q r' hr'
  · intro q
    have hquantity : (((m.touch (m.heap r.slot).price.toNat).linkOrder (m.heap r.slot).price.toNat
        r.slot).heap r.slot).quantity = (m.heap r.slot).quantity :=
      quantity_eq (bare_inserted m r.slot r.slot)
    have htouch : ((m.touch (m.heap r.slot).price.toNat).book q).volume = (m.book q).volume := rfl
    by_cases hq : q = p
    · subst hq
      simp only [inserted, hs.price, Market.setLevel, Function.update_self] at hquantity ⊢
      rw [volume_linkOrder, hquantity, Levels.set_levels_self]
      simp only [volume_append, volume_cons, volume_nil, Nat.add_zero, UInt32.ofNat_add]
      rw [← hs.quantity, UInt32.ofNat_toNat, ← h.volume]
      rfl
    · simp only [inserted, hs.price, Market.setLevel, Function.update_of_ne hq]
      rw [volume_linkOrder, a.set_levels_of_ne hq, ← h.volume]
      rfl
  · rw [inserted, linkOrder_frame]
    exact h.bestBid
  · rw [inserted, linkOrder_frame]
    exact h.bestAsk

theorem insertOrder_represents {m : Market} {a : Levels} (h : Represents m a) {p : Nat} {r : Resting}
    (hu : Unlinked a r.slot) (hs : Shows (m.heap r.slot) p r) :
    Represents (m.insertOrder r.slot) (a.enqueue p r) := by
  have hi := inserted_represents h hu hs
  rw [insertOrder_eq, hs.side]
  simp only [Levels.enqueue]
  split
  · have hc := hi.withCursors (max (m.heap r.slot).price m.bestBid) (inserted m r.slot).bestAsk
    rw [toNat_max, hs.price, h.bestBid, hi.bestAsk] at hc
    exact hc
  · split
    · have hc := hi.withCursors (inserted m r.slot).bestBid (min (m.heap r.slot).price m.bestAsk)
      rw [toNat_min, hs.price, h.bestAsk, hi.bestBid] at hc
      exact hc
    · exact hi

end Sequitur.Abstraction
