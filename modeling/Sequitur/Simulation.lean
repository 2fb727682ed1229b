import Sequitur.Abstraction

namespace Sequitur.Simulation

open OrderBook LevelBook LinkedLists Abstraction

theorem setOrder_represents {m : Market} {a : Levels} (h : Represents m a) {o : Nat}
    (hu : Unlinked a o) (f : Order → Order) : Represents (m.setOrder o f) a := by
  have hheap {p : Nat} {s : Nat} (hs : s ∈ slots (a.levels p)) :
      (m.setOrder o f).heap s = m.heap s := by
    have hne : s ≠ o := fun he => hu p (he ▸ hs)
    exact Function.update_of_ne hne _ _
  refine ⟨?_, ?_, h.volume, h.bestBid, h.bestAsk⟩
  · refine h.links.congr (fun _ => rfl) (fun _ => rfl) ?_ ?_
    · exact fun p s hs => congrArg Order.nextOrder (hheap hs)
    · exact fun p s hs => congrArg Order.prevOrder (hheap hs)
  · intro p r hr
    rw [hheap (mem_slots hr)]
    exact h.data p r hr

theorem reduce_represents {m : Market} {a : Levels} (h : Represents m a) {p : Nat} {r : Resting}
    {rest : List Resting} (he : a.levels p = r :: rest) {t : UInt32} (ht : t.toNat ≤ r.quantity) :
    Represents
      ((m.setOrder r.slot fun x => { x with quantity := x.quantity - t }).setLevel p
        fun pl => { pl with volume := pl.volume - t })
      (a.set p ({ r with quantity := r.quantity - t.toNat } :: rest)) := by
  have hr : r ∈ a.levels p := by simp [he]
  have hs := h.data p r hr
  have hle : t ≤ (m.heap r.slot).quantity := by
    rw [UInt32.le_iff_toNat_le, hs.quantity]
    exact ht
  refine ⟨?_, ?_, ?_, h.bestBid, h.bestAsk⟩
  · rw [links_setVolume, links_setQuantity, slots_set]
    have hslots : slots ({ r with quantity := r.quantity - t.toNat } :: rest) = slots (a.levels p) := by
      simp [he]
    rw [hslots, Function.update_eq_self p fun q => slots (a.levels q)]
    exact h.links
  · intro q r' hr'
    rw [Market.setLevel_heap]
    by_cases hq : q = p
    · subst hq
      rw [Levels.set_levels_self] at hr'
      rcases List.mem_cons.mp hr' with rfl | hr'
      · simp only [Market.setOrder, Function.update_self]
        exact ⟨hs.id, hs.side, hs.traderId, hs.price, by
          rw [UInt32.toNat_sub_of_le _ _ hle, hs.quantity]⟩
      · have hnodup := h.links.nodup q
        simp only [he, slots_cons, List.nodup_cons] at hnodup
        have hne : r'.slot ≠ r.slot := fun hc => hnodup.1 (hc ▸ mem_slots hr')
        simp only [Market.setOrder, Function.update_of_ne hne]
        exact h.data q r' (by rw [he]; exact List.mem_cons_of_mem _ hr')
    · rw [a.set_levels_of_ne hq] at hr'
      simp only [Market.setOrder, Function.update_of_ne (h.slot_ne hr' hr hq)]
      exact h.data q r' hr'
  · intro q
    by_cases hq : q = p
    · subst hq
      simp only [Market.setLevel, Market.setOrder, Function.update_self, Levels.set_levels_self]
      have hv : volume (a.levels q) =
          volume ({ r with quantity := r.quantity - t.toNat } :: rest) + t.toNat := by
        simp only [he, volume_cons]
        omega
      rw [h.volume, hv, UInt32.ofNat_add, UInt32.ofNat_toNat, UInt32.add_sub_cancel]
    · simp only [Market.setLevel, Market.setOrder, Function.update_of_ne hq, a.set_levels_of_ne hq]
      exact h.volume q

def identity (x : Order) : UInt64 × UInt8 × UInt32 × UInt64 := (x.id, x.side, x.traderId, x.price)

theorem toNat_min32 (x y : UInt32) : (min x y).toNat = min x.toNat y.toNat := by
  rw [Nat.min_def, UInt32.min_def]
  simp only [UInt32.le_iff_toNat_le]
  split <;> rfl

/-- The statements of a trade up to the test for a filled maker. -/
def traded (m : Market) (p incoming resting : Nat) : Market :=
  let maker := m.heap resting
  let taker := m.heap incoming
  let t := min taker.quantity maker.quantity
  let m := { m with
    totalTrades := m.totalTrades + 1
    totalVolume := m.totalVolume + t.toUInt64
    execQ := m.execQ.push ⟨maker.traderId.toUInt64, taker.traderId.toUInt64, maker.price, t⟩
    fills := m.fills ++ [(maker, taker)] }
  let m := m.setOrder incoming fun x => { x with quantity := x.quantity - t }
  let m := m.setOrder resting fun x => { x with quantity := x.quantity - t }
  m.setLevel p fun pl => { pl with volume := pl.volume - t }

theorem fill_eq (m : Market) (p incoming resting : Nat) :
    m.fill p incoming resting =
      if ((traded m p incoming resting).heap resting).quantity = 0 then
        { traded m p incoming resting with
          trashQ := m.trashQ.push resting }.removeOrder resting
      else traded m p incoming resting := rfl

theorem traded_represents {m : Market} {a : Levels} (h : Represents m a) {inc p : Nat} {r : Resting}
    {rest : List Resting} (hu : Unlinked a inc) (he : a.levels p = r :: rest) :
    Represents (traded m p inc r.slot)
      (a.set p ({ r with quantity := r.quantity - (m.heap inc).quantity.toNat } :: rest)) := by
  have hs := h.data p r (by simp [he])
  have hmin : (min (m.heap inc).quantity (m.heap r.slot).quantity).toNat =
      min (m.heap inc).quantity.toNat r.quantity := by rw [toNat_min32, hs.quantity]
  have hcount : Represents { m with
      totalTrades := m.totalTrades + 1
      totalVolume := m.totalVolume + (min (m.heap inc).quantity (m.heap r.slot).quantity).toUInt64
      execQ := m.execQ.push ⟨(m.heap r.slot).traderId.toUInt64, (m.heap inc).traderId.toUInt64,
        (m.heap r.slot).price, min (m.heap inc).quantity (m.heap r.slot).quantity⟩
      fills := m.fills ++ [(m.heap r.slot, m.heap inc)] } a :=
    ⟨h.links, h.data, h.volume, h.bestBid, h.bestAsk⟩
  have hset := setOrder_represents hcount hu
    fun x => { x with quantity := x.quantity - min (m.heap inc).quantity (m.heap r.slot).quantity }
  have hred := reduce_represents hset he
    (t := min (m.heap inc).quantity (m.heap r.slot).quantity) (by rw [hmin]; exact Nat.min_le_right _ _)
  have hsub : r.quantity - min (m.heap inc).quantity.toNat r.quantity =
      r.quantity - (m.heap inc).quantity.toNat := by omega
  rw [hmin, hsub] at hred
  exact hred

theorem traded_taker {m : Market} {a : Levels} (h : Represents m a) {inc p : Nat} {r : Resting}
    {rest : List Resting} (hu : Unlinked a inc) (he : a.levels p = r :: rest) :
    ((traded m p inc r.slot).heap inc).quantity.toNat = (m.heap inc).quantity.toNat - r.quantity ∧
      identity ((traded m p inc r.slot).heap inc) = identity (m.heap inc) := by
  have hs := h.data p r (by simp [he])
  have hne : inc ≠ r.slot := fun hc => hu p (by rw [he, hc]; simp)
  have hle : min (m.heap inc).quantity (m.heap r.slot).quantity ≤ (m.heap inc).quantity := by
    rw [UInt32.le_iff_toNat_le, toNat_min32]
    exact Nat.min_le_left _ _
  simp only [traded, Market.setLevel, Market.setOrder, Function.update_of_ne hne, Function.update_self]
  refine ⟨?_, rfl⟩
  rw [UInt32.toNat_sub_of_le _ _ hle, toNat_min32, hs.quantity]
  omega

theorem fill_represents {m : Market} {a : Levels} (h : Represents m a) {inc p : Nat} {r : Resting}
    {rest : List Resting} (hu : Unlinked a inc) (he : a.levels p = r :: rest) :
    Represents (m.fill p inc r.slot) (a.fillHead p r rest (m.heap inc).quantity.toNat) := by
  have ht := traded_represents h hu he
  have hq := (ht.data p { r with quantity := r.quantity - (m.heap inc).quantity.toNat } (by simp)).quantity
  have hzero : ((traded m p inc r.slot).heap r.slot).quantity = 0 ↔
      r.quantity ≤ (m.heap inc).quantity.toNat := by
    rw [← UInt32.toNat_inj, hq]
    simp only [UInt32.toNat_zero]
    omega
  rw [fill_eq, Levels.fillHead]
  simp only [hzero]
  split
  · have htrash : Represents { traded m p inc r.slot with trashQ := m.trashQ.push r.slot }
        (a.set p ({ r with quantity := r.quantity - (m.heap inc).quantity.toNat } :: rest)) :=
      ⟨ht.links, ht.data, ht.volume, ht.bestBid, ht.bestAsk⟩
    have hlevel : (a.set p ({ r with quantity := r.quantity - (m.heap inc).quantity.toNat } :: rest)).levels p =
        [] ++ { r with quantity := r.quantity - (m.heap inc).quantity.toNat } :: rest :=
      Levels.set_levels_self ..
    have hrem := removeOrder_represents htrash hlevel
    rwa [Levels.set_set] at hrem
  · exact ht

theorem fill_taker {m : Market} {a : Levels} (h : Represents m a) {inc p : Nat} {r : Resting}
    {rest : List Resting} (hu : Unlinked a inc) (he : a.levels p = r :: rest) :
    ((m.fill p inc r.slot).heap inc).quantity.toNat = (m.heap inc).quantity.toNat - r.quantity := by
  rw [← (traded_taker h hu he).1, fill_eq]
  split
  · exact congrArg UInt32.toNat (quantity_eq (bare_removeOrder _ r.slot inc))
  · rfl

/-- What a stretch of the matching loop with trades `fs` does besides changing
the book, when its cursor moves from `c` to `c'`. -/
structure Effects (d : Sweep) (inc c c' : Nat) (fs : List Fill) (m m' : Market) : Prop where
  identity : identity (m'.heap inc) = identity (m.heap inc)
  execQ : m'.execQ = m.execQ.pushAll (fs.map fun f => f.trade (m.heap inc).traderId)
  trashQ : m'.trashQ = m.trashQ.pushAll (filled fs)
  totalTrades : m'.totalTrades = m.totalTrades + UInt64.ofNat fs.length
  totalVolume : m'.totalVolume = m.totalVolume + UInt64.ofNat (tradedQuantity fs)
  fills : ∃ gs, m'.fills = m.fills ++ gs ∧
    gs.map (fun g => (g.1.side, g.2.side)) = fs.map fun f => (f.maker.side, (m.heap inc).side)
  touched : ∃ ts, m'.touched = m.touched ++ ts ∧ ∀ i ∈ ts, Ahead d c i ∧ Ahead d i c'

theorem Effects.refl (d : Sweep) (inc c : Nat) (m : Market) : Effects d inc c c [] m m where
  identity := rfl
  execQ := rfl
  trashQ := rfl
  totalTrades := by simp
  totalVolume := by simp [tradedQuantity]
  fills := ⟨[], by simp, rfl⟩
  touched := ⟨[], by simp, by simp⟩

theorem Effects.trans {d : Sweep} {inc c c' c'' : Nat} {fs gs : List Fill} {m m' m'' : Market}
    (h : Effects d inc c c' fs m m') (h' : Effects d inc c' c'' gs m' m'')
    (hc : Ahead d c c') (hc' : Ahead d c' c'') : Effects d inc c c'' (fs ++ gs) m m'' := by
  have htrader : (m'.heap inc).traderId = (m.heap inc).traderId :=
    congrArg (fun x => x.2.2.1) h.identity
  have hside : (m'.heap inc).side = (m.heap inc).side := congrArg (fun x => x.2.1) h.identity
  refine ⟨h'.identity.trans h.identity, ?_, ?_, ?_, ?_, ?_, ?_⟩
  · rw [h'.execQ, h.execQ, htrader, List.map_append, FixedQueue.pushAll_append]
  · rw [h'.trashQ, h.trashQ, ← FixedQueue.pushAll_append]
    simp [filled]
  · rw [h'.totalTrades, h.totalTrades, List.length_append, UInt64.ofNat_add, UInt64.add_assoc]
  · rw [h'.totalVolume, h.totalVolume]
    simp [tradedQuantity, UInt64.add_assoc]
  · obtain ⟨xs, hx, hxs⟩ := h.fills
    obtain ⟨ys, hy, hys⟩ := h'.fills
    refine ⟨xs ++ ys, by rw [hy, hx, List.append_assoc], ?_⟩
    rw [List.map_append, List.map_append, hxs, hys, hside]
  · obtain ⟨xs, hx, hxs⟩ := h.touched
    obtain ⟨ys, hy, hys⟩ := h'.touched
    refine ⟨xs ++ ys, by rw [hy, hx, List.append_assoc], ?_⟩
    intro i hi
    rcases List.mem_append.mp hi with hi | hi
    · exact ⟨(hxs i hi).1, ahead_trans (hxs i hi).2 hc'⟩
    · exact ⟨ahead_trans hc (hys i hi).1, (hys i hi).2⟩

theorem touch_represents {m : Market} {a : Levels} (h : Represents m a) (p : Nat) : Represents (m.touch p) a :=
  ⟨h.links, h.data, h.volume, h.bestBid, h.bestAsk⟩

theorem touch_effects (d : Sweep) (inc p : Nat) (m : Market) :
    Effects d inc p p [] m (m.touch p) := by
  obtain ⟨hi, he, ht, hn, hv, hf, -⟩ := Effects.refl d inc p m
  refine ⟨hi, he, ht, hn, hv, hf, [p], rfl, ?_⟩
  intro i hp
  rw [List.mem_singleton.mp hp]
  exact ⟨ahead_refl d p, ahead_refl d p⟩

theorem fill_effects {m : Market} {a : Levels} (h : Represents m a) (d : Sweep) {inc p : Nat}
    {r : Resting} {rest : List Resting} (hu : Unlinked a inc) (he : a.levels p = r :: rest) :
    Effects d inc p p [⟨p, r, min (m.heap inc).quantity.toNat r.quantity⟩] m
      (m.fill p inc r.slot) := by
  have hs := h.data p r (by simp [he])
  have hr := (traded_represents h hu he).data p
    { r with quantity := r.quantity - (m.heap inc).quantity.toNat } (by simp)
  have hid := (traded_taker h hu he).2
  have hprice : (m.heap r.slot).price = UInt64.ofNat p := by rw [← hs.price, UInt64.ofNat_toNat]
  have hmin : min (m.heap inc).quantity (m.heap r.slot).quantity =
      UInt32.ofNat (min (m.heap inc).quantity.toNat r.quantity) := by
    rw [← hs.quantity, ← toNat_min32, UInt32.ofNat_toNat]
  have hvolume : (min (m.heap inc).quantity (m.heap r.slot).quantity).toUInt64 =
      UInt64.ofNat (min (m.heap inc).quantity.toNat r.quantity) := by
    rw [← hs.quantity, ← toNat_min32, ← UInt32.toNat_toUInt64, UInt64.ofNat_toNat]
  have hzero : ((traded m p inc r.slot).heap r.slot).quantity = 0 ↔
      min (m.heap inc).quantity.toNat r.quantity = r.quantity := by
    rw [← UInt32.toNat_inj, hr.quantity]
    simp only [UInt32.toNat_zero]
    omega
  have hexec : (traded m p inc r.slot).execQ = m.execQ.pushAll
      ([⟨p, r, min (m.heap inc).quantity.toNat r.quantity⟩].map fun f : Fill =>
        f.trade (m.heap inc).traderId) := by
    simp only [traded, hmin, hprice, hs.traderId]
    rfl
  have htotal : (traded m p inc r.slot).totalVolume = m.totalVolume + UInt64.ofNat
      (tradedQuantity [⟨p, r, min (m.heap inc).quantity.toNat r.quantity⟩]) := by
    simp only [traded, hvolume]
    rfl
  have hsides : [((m.heap r.slot).side, (m.heap inc).side)] = [(r.side, (m.heap inc).side)] := by
    rw [hs.side]
  rw [fill_eq]
  simp only [hzero]
  split
  next hfull =>
    have hbare := bare_removeOrder { traded m p inc r.slot with trashQ := m.trashQ.push r.slot } r.slot inc
    refine ⟨?_, ?_, ?_, ?_, ?_, ?_, ?_⟩
    · refine Eq.trans ?_ hid
      have hi := congrArg identity hbare
      exact hi
    · rw [removeOrder_frame]; exact hexec
    · rw [removeOrder_frame]; simp [filled, hfull]; rfl
    · rw [removeOrder_frame]; rfl
    · rw [removeOrder_frame]; exact htotal
    · rw [removeOrder_frame]; exact ⟨[(m.heap r.slot, m.heap inc)], rfl, hsides⟩
    · rw [removeOrder_frame]
      refine ⟨[p], ?_, ?_⟩
      · exact congrArg (fun i => m.touched ++ [i]) hr.price
      · intro i hp
        rw [List.mem_singleton.mp hp]
        exact ⟨ahead_refl d p, ahead_refl d p⟩
  next hpart =>
    refine ⟨hid, hexec, ?_, rfl, htotal, ⟨[(m.heap r.slot, m.heap inc)], rfl, hsides⟩, [], ?_, by simp⟩
    · simp [filled, hpart]; rfl
    · simp [traded, Market.setLevel, Market.setOrder]

theorem cursor_eq {m : Market} {a : Levels} (h : Represents m a) (d : Sweep) :
    (d.cursor m).toNat = position d a := by
  cases d with
  | asks => exact h.bestAsk
  | bids => exact h.bestBid

theorem reaches_iff (d : Sweep) (c price : UInt64) :
    d.reaches c price = true ↔ Ahead d c.toNat price.toNat := by
  cases d with
  | asks => simp [Sweep.reaches, Ahead, UInt64.le_iff_toNat_le]
  | bids => simp [Sweep.reaches, Ahead, UInt64.le_iff_toNat_le]

theorem last_iff (d : Sweep) (c : UInt64) : c = d.last ↔ c.toNat = limit d := by
  rw [← UInt64.toNat_inj]
  cases d with
  | asks => rw [Sweep.last, maxPriceTicks_toNat, limit]
  | bids => rfl

theorem advance_represents {m : Market} {a : Levels} (h : Represents m a) {d : Sweep}
    (hp : position d a ≠ limit d) (hb : position d a ≤ maxPriceTicks) :
    Represents (d.advance m) (advance d a) := by
  refine ⟨?_, ?_, ?_, ?_, ?_⟩
  · rw [advance_levels]; cases d <;> exact h.links
  · rw [advance_levels]; cases d <;> exact h.data
  · rw [advance_levels]; cases d <;> exact h.volume
  · cases d with
    | asks => exact h.bestBid
    | bids =>
        simp only [position, limit] at hp
        have hle : (1 : UInt64) ≤ m.bestBid := by
          rw [UInt64.le_iff_toNat_le, h.bestBid, UInt64.toNat_one]
          omega
        simp only [Sweep.advance, advance]
        rw [UInt64.toNat_sub_of_le _ _ hle, h.bestBid, UInt64.toNat_one]
  · cases d with
    | asks =>
        simp only [position, maxPriceTicks] at hb
        simp only [Sweep.advance, advance, UInt64.toNat_add, h.bestAsk, UInt64.toNat_one]
        omega
    | bids => exact h.bestAsk

theorem advance_effects {m : Market} (d : Sweep) (inc c c' : Nat) :
    Effects d inc c c' [] m (d.advance m) := by
  obtain ⟨hi, he, ht, hn, hv, hf, -⟩ := Effects.refl d inc c m
  cases d <;> exact ⟨hi, he, ht, hn, hv, hf, [], by simp [Sweep.advance], by simp⟩

theorem unlinked_fillHead {a : Levels} {inc p : Nat} {r : Resting} {rest : List Resting}
    (hu : Unlinked a inc) (he : a.levels p = r :: rest) (left : Nat) :
    Unlinked (a.fillHead p r rest left) inc := by
  intro q hq
  obtain ⟨r', hr', rfl⟩ := List.mem_map.mp hq
  obtain ⟨r₀, hr₀, hl⟩ := mem_fillHead he hr'
  exact hu q (hl.1 ▸ mem_slots hr₀)

/-- The loop over the links computes a sweep of the queues: enough fuel is
the open quantity and the levels that are left. -/
theorem sweep_simulates (d : Sweep) (inc : Nat) (fuel : Nat) {m : Market} {a : Levels}
    (h : Represents m a) (hu : Unlinked a inc) (hpos : Positive a)
    (hb : position d a ≤ maxPriceTicks)
    (hfuel : (m.heap inc).quantity.toNat + distance d a < fuel) :
    ∃ m' a' left' fs, sweep d inc fuel m = some m' ∧
      Swept d (m.heap inc).price.toNat a (m.heap inc).quantity.toNat a' left' fs ∧
      Represents m' a' ∧ Unlinked a' inc ∧ (m'.heap inc).quantity.toNat = left' ∧
      Effects d inc (position d a) (position d a') fs m m' := by
  induction fuel generalizing m a with
  | zero => omega
  | succ fuel ih =>
      have hcur := cursor_eq h d
      have hcond : (0 < (m.heap inc).quantity ∧
          d.reaches (d.cursor m) (m.heap inc).price = true) ↔
          0 < (m.heap inc).quantity.toNat ∧ Ahead d (position d a) (m.heap inc).price.toNat := by
        rw [reaches_iff, hcur, UInt32.lt_iff_toNat_lt, UInt32.toNat_zero]
      by_cases hc : 0 < (m.heap inc).quantity.toNat ∧
          Ahead d (position d a) (m.heap inc).price.toNat
      · have ht := touch_represents h (position d a)
        have hte := touch_effects d inc (position d a) m
        have hhead : ((m.touch (position d a)).book (position d a)).head =
            (slots (a.levels (position d a))).head? := h.links.head _
        rw [sweep, if_pos (hcond.mpr hc)]
        simp only [hcur, hhead]
        cases hl : a.levels (position d a) with
        | nil =>
            simp only [slots_nil, List.head?_nil, last_iff, cursor_eq ht d]
            by_cases hp : position d a = limit d
            · rw [if_pos hp]
              exact ⟨_, a, _, [], rfl, .last hc.1 hc.2 hl hp, ht, hu, rfl, hte⟩
            · rw [if_neg hp]
              have hae := advance_effects (m := m.touch (position d a)) d inc (position d a)
                (position d (advance d a))
              have hheap : (d.advance (m.touch (position d a))).heap = m.heap := by cases d <;> rfl
              obtain ⟨m', a', left', fs, hr, hs, hrep, hun, hq, heff⟩ :=
                ih (advance_represents ht hp hb) (by simpa [Unlinked] using hu)
                  (by simpa [Positive] using hpos) (position_advance_le hp hb)
                  (by rw [hheap]; have := distance_advance hp hb; omega)
              rw [hheap] at hs
              have hmove : Ahead d (position d a) (position d (advance d a)) :=
                ((ahead_advance hp _).mp (ahead_refl d _)).1
              exact ⟨m', a', left', fs, hr, .skip hc.1 hc.2 hl hp hs, hrep, hun, hq,
                (hte.trans hae (ahead_refl d _) hmove).trans heff hmove hs.ahead⟩
        | cons r rest =>
            simp only [slots_cons, List.head?_cons]
            have hpr : 0 < r.quantity := hpos (position d a) r (by simp [hl])
            have hfe := fill_effects ht d hu hl
            have htaker := fill_taker ht hu hl
            have hheap : (m.touch (position d a)).heap = m.heap := rfl
            obtain ⟨m', a', left', fs, hr, hs, hrep, hun, hq, heff⟩ :=
              ih (fill_represents ht hu hl) (unlinked_fillHead hu hl _) (fillHead_positive hpos hl _)
                (by simpa using hb) (by rw [htaker, distance_fillHead, hheap]; omega)
            rw [position_fillHead] at heff
            have hprice : (((m.touch (position d a)).fill (position d a) inc r.slot).heap inc).price =
                (m.heap inc).price := congrArg (fun x => x.2.2.2) hfe.identity
            rw [htaker, hprice] at hs
            have hmove := hs.ahead
            rw [position_fillHead] at hmove
            exact ⟨m', a', left', _, hr, .fill hc.1 hc.2 hl hs, hrep, hun, hq,
              (hte.trans hfe (ahead_refl d _) (ahead_refl d _)).trans heff (ahead_refl d _) hmove⟩
      · refine ⟨m, a, _, [], ?_, .done ?_, h, hu, rfl, .refl d inc _ m⟩
        · rw [sweep, if_neg (hcond.not.mpr hc)]
        · by_cases hz : (m.heap inc).quantity.toNat = 0
          · exact .inl hz
          · exact .inr fun ha => hc ⟨Nat.pos_of_ne_zero hz, ha⟩

def resting (m : Market) (o : Nat) : Resting :=
  ⟨o, (m.heap o).id, (m.heap o).side, (m.heap o).traderId, (m.heap o).quantity.toNat⟩

structure Outcome (inc left : Nat) (fs : List Fill) (m m' : Market) : Prop where
  quantity : (m'.heap inc).quantity.toNat = left
  execQ : m'.execQ = m.execQ.pushAll (fs.map fun f => f.trade (m.heap inc).traderId)
  trashQ : m'.trashQ = m.trashQ.pushAll (filled fs)
  totalTrades : m'.totalTrades = m.totalTrades + UInt64.ofNat fs.length
  totalVolume : m'.totalVolume = m.totalVolume + UInt64.ofNat (tradedQuantity fs)
  fills : ∃ gs, m'.fills = m.fills ++ gs ∧
    gs.map (fun g => (g.1.side, g.2.side)) = fs.map fun f => (f.maker.side, (m.heap inc).side)
  touched : ∃ ts, m'.touched = m.touched ++ ts ++ (if 0 < left then [(m.heap inc).price.toNat] else []) ∧
    ∀ i ∈ ts, i ≤ maxPriceTicks

theorem insertOrder_frame (m : Market) (o : Nat) :
    m.insertOrder o = { m with
      heap := (inserted m o).heap
      book := (inserted m o).book
      bestBid := (m.insertOrder o).bestBid
      bestAsk := (m.insertOrder o).bestAsk
      touched := m.touched ++ [(m.heap o).price.toNat] } := by
  have hf : inserted m o = { m with
      heap := (inserted m o).heap
      book := (inserted m o).book
      touched := m.touched ++ [(m.heap o).price.toNat] } := by
    simp only [inserted]
    rw [linkOrder_frame]
    rfl
  rw [insertOrder_eq]
  split
  · rw [hf]
  · split
    · rw [hf]
    · rw [hf]

theorem matchLoop_simulates {m : Market} {a : Levels} (h : Represents m a) {inc : Nat}
    (hu : Unlinked a inc) (hpos : Positive a) (hbid : a.bestBid ≤ maxPriceTicks)
    (hask : a.bestAsk ≤ maxPriceTicks) :
    ∃ m' a' left fs, matchLoop m inc = some m' ∧
      Matched (m.heap inc).price.toNat (m.heap inc).side a (m.heap inc).quantity.toNat a' left fs ∧
      Represents m' a' ∧ Unlinked a' inc ∧ (m'.heap inc).quantity.toNat = left ∧
      ∃ d, Effects d inc (position d a) (position d a') fs m m' ∧
        position d a ≤ maxPriceTicks ∧ position d a' ≤ maxPriceTicks := by
  by_cases hbuy : (m.heap inc).side = 0
  · by_cases hp : (m.heap inc).price ≥ m.bestAsk
    · obtain ⟨m', a', left, fs, hr, hs, hrep, hun, hq, heff⟩ :=
        sweep_simulates .asks inc (fuelFor (m.heap inc).quantity) h hu hpos hask (by
          simp only [fuelFor, distance]; omega)
      refine ⟨m', a', left, fs, ?_, hbuy ▸ .buy hs, hrep, hun, hq, .asks, heff, hask, hs.position_le hask⟩
      rw [matchLoop, if_pos ⟨hbuy, hp⟩, hr]
    · refine ⟨m, a, _, [], ?_, hbuy ▸ .buy (.done (.inr ?_)), h, hu, rfl, .asks, .refl _ _ _ _, hask, hask⟩
      · rw [matchLoop, if_neg (fun hc => hp hc.2), if_neg (fun hc => by simp [hbuy] at hc)]
      · rw [← cursor_eq h .asks, ← reaches_iff]
        exact fun hc => hp (of_decide_eq_true hc)
  · by_cases hsell : (m.heap inc).side = 1
    · by_cases hp : (m.heap inc).price ≤ m.bestBid
      · obtain ⟨m', a', left, fs, hr, hs, hrep, hun, hq, heff⟩ :=
          sweep_simulates .bids inc (fuelFor (m.heap inc).quantity) h hu hpos hbid (by
            simp only [fuelFor, distance]; omega)
        refine ⟨m', a', left, fs, ?_, hsell ▸ .sell hs, hrep, hun, hq, .bids, heff, hbid, hs.position_le hbid⟩
        rw [matchLoop, if_neg (fun hc => hbuy hc.1), if_pos ⟨hsell, hp⟩, hr]
      · refine ⟨m, a, _, [], ?_, hsell ▸ .sell (.done (.inr ?_)), h, hu, rfl, .bids, .refl _ _ _ _, hbid, hbid⟩
        · rw [matchLoop, if_neg (fun hc => hbuy hc.1), if_neg (fun hc => hp hc.2)]
        · rw [← cursor_eq h .bids, ← reaches_iff]
          exact fun hc => hp (of_decide_eq_true hc)
    · refine ⟨m, a, _, [], ?_, .other hbuy hsell, h, hu, rfl, .asks, .refl _ _ _ _, hask, hask⟩
      rw [matchLoop, if_neg (fun hc => hbuy hc.1), if_neg (fun hc => hsell hc.1)]

/-- A call of `match_order` on the links is a matching of the queues followed
by the resting of what is left. -/
theorem matchOrder_simulates {m : Market} {a : Levels} (h : Represents m a) {inc : Nat}
    (hu : Unlinked a inc) (hpos : Positive a) (hbid : a.bestBid ≤ maxPriceTicks)
    (hask : a.bestAsk ≤ maxPriceTicks) :
    ∃ m' a' left fs, matchOrder m inc = some m' ∧
      Matched (m.heap inc).price.toNat (m.heap inc).side a (m.heap inc).quantity.toNat a' left fs ∧
      Unlinked a' inc ∧
      Represents m' (restResidue a' (m.heap inc).price.toNat (resting m inc) left) ∧
      Outcome inc left fs m m' := by
  obtain ⟨n, a', left, fs, hr, hm, hrep, hun, hq, d, heff, hc, hc'⟩ :=
    matchLoop_simulates h hu hpos hbid hask
  have hid := heff.identity
  have htouched : ∃ ts, n.touched = m.touched ++ ts ∧ ∀ i ∈ ts, i ≤ maxPriceTicks := by
    obtain ⟨ts, ht, hts⟩ := heff.touched
    refine ⟨ts, ht, fun i hi => ?_⟩
    obtain ⟨h₁, h₂⟩ := hts i hi
    cases d with
    | asks => exact Nat.le_trans h₂ hc'
    | bids => exact Nat.le_trans h₁ hc
  obtain ⟨ts, ht, hts⟩ := htouched
  by_cases hl : 0 < left
  · have hlt : 0 < (n.heap inc).quantity := by
      rw [UInt32.lt_iff_toNat_lt, hq]
      exact hl
    have hprice : (n.heap inc).price = (m.heap inc).price := congrArg (fun x => x.2.2.2) hid
    have hshow : Shows (n.heap inc) (m.heap inc).price.toNat { resting m inc with quantity := left } :=
      ⟨congrArg (fun x => x.1) hid, congrArg (fun x => x.2.1) hid, congrArg (fun x => x.2.2.1) hid,
        congrArg UInt64.toNat hprice, hq⟩
    refine ⟨n.insertOrder inc, a', left, fs, ?_, hm, hun, ?_, ?_⟩
    · rw [matchOrder, hr, Option.map_some, if_pos hlt]
    · rw [restResidue, if_pos hl]
      exact insertOrder_represents hrep (r := { resting m inc with quantity := left }) hun hshow
    · rw [insertOrder_frame]
      refine ⟨?_, heff.execQ, heff.trashQ, heff.totalTrades, heff.totalVolume, heff.fills, ts, ?_, hts⟩
      · exact (congrArg UInt32.toNat (quantity_eq (bare_inserted n inc inc))).trans hq
      · simp only [ht, hprice, if_pos hl]
  · have hge : ¬ 0 < (n.heap inc).quantity := by
      rw [UInt32.lt_iff_toNat_lt, hq]
      exact hl
    refine ⟨n, a', left, fs, ?_, hm, hun, ?_, ?_⟩
    · rw [matchOrder, hr, Option.map_some, if_neg hge]
    · rw [restResidue, if_neg hl]
      exact hrep
    · refine ⟨hq, heff.execQ, heff.trashQ, heff.totalTrades, heff.totalVolume, heff.fills, ts, ?_, hts⟩
      simp only [ht, if_neg hl, List.append_nil]

end Sequitur.Simulation
