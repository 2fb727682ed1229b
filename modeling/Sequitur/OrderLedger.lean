import Sequitur.Answers
import Sequitur.Conservation

namespace Sequitur.OrderLedger

open OrderBook LevelBook Abstraction Simulation Accounting MatchingEngine EngineStep Sessions Answers Conservation

section Fills

structure Meets (taker : UInt64 × UInt8 × UInt32 × UInt64) (g : Order × Order) (f : Fill) : Prop where
  maker : Shows g.1 f.price f.maker
  taker : identity g.2 = taker
  quantity : (min g.2.quantity g.1.quantity).toNat = f.quantity

theorem meets_of_mem {taker : UInt64 × UInt8 × UInt32 × UInt64} {gs : List (Order × Order)} {fs : List Fill}
    (h : List.Forall₂ (Meets taker) gs fs) {g : Order × Order} (hg : g ∈ gs) : ∃ f ∈ fs, Meets taker g f := by
  induction h with
  | nil => simp at hg
  | cons hm _ ih =>
      rcases List.mem_cons.mp hg with rfl | hg
      · exact ⟨_, List.mem_cons_self, hm⟩
      · obtain ⟨f, hf, hgf⟩ := ih hg
        exact ⟨f, List.mem_cons_of_mem _ hf, hgf⟩

theorem fill_fills (m : Market) (p inc o : Nat) : (m.fill p inc o).fills = m.fills ++ [(m.heap o, m.heap inc)] :=
  (fill_trades m p inc o).1

variable {d : Sweep} {inc : Nat} {m m' : Market} {a a' : Levels} {left : Nat} {fs : List Fill}

theorem sweep_meets (fuel : Nat) (h : Represents m a) (hu : Unlinked a inc) (hb : position d a ≤ maxPriceTicks)
    (hr : sweep d inc fuel m = some m')
    (hs : Swept d (m.heap inc).price.toNat a (m.heap inc).quantity.toNat a' left fs) :
    ∃ gs, m'.fills = m.fills ++ gs ∧ List.Forall₂ (Meets (identity (m.heap inc))) gs fs := by
  induction fuel generalizing m a fs with
  | zero => simp [sweep] at hr
  | succ fuel ih =>
      have hcur := cursor_eq h d
      have ht := touch_represents h (position d a)
      have hhead : ((m.touch (position d a)).book (position d a)).head = (slots (a.levels (position d a))).head? :=
        h.links.head _
      have hcond : (0 < (m.heap inc).quantity ∧ d.reaches (d.cursor m) (m.heap inc).price = true) ↔
          0 < (m.heap inc).quantity.toNat ∧ Ahead d (position d a) (m.heap inc).price.toNat := by
        rw [reaches_iff, hcur, UInt32.lt_iff_toNat_lt, UInt32.toNat_zero]
      rw [sweep] at hr
      cases hs with
      | done hdone =>
          have hstop := mt hcond.mp fun hc => hdone.elim (Nat.ne_of_gt hc.1) (fun hn => hn hc.2)
          rw [if_neg hstop] at hr
          obtain rfl := Option.some.inj hr
          exact ⟨[], (List.append_nil _).symm, .nil⟩
      | last hl hw he hp =>
          rw [if_pos (hcond.mpr ⟨hl, hw⟩)] at hr
          simp only [hcur, hhead, he, slots_nil, List.head?_nil, last_iff, cursor_eq ht d, if_pos hp] at hr
          obtain rfl := Option.some.inj hr
          exact ⟨[], (List.append_nil _).symm, .nil⟩
      | skip hl hw he hp hs =>
          rw [if_pos (hcond.mpr ⟨hl, hw⟩)] at hr
          simp only [hcur, hhead, he, slots_nil, List.head?_nil, last_iff, cursor_eq ht d, if_neg hp] at hr
          have hheap : (d.advance (m.touch (position d a))).heap = m.heap := by cases d <;> rfl
          have hfills : (d.advance (m.touch (position d a))).fills = m.fills := by cases d <;> rfl
          rw [← hheap] at hs ⊢
          rw [← hfills]
          exact ih (advance_represents ht hp hb) (fun p => by rw [advance_levels]; exact hu p)
            (position_advance_le hp hb) hr hs
      | @fill _ _ _ _ fs r rest hl hw he hs =>
          rw [if_pos (hcond.mpr ⟨hl, hw⟩)] at hr
          simp only [hcur, hhead, he, slots_cons, List.head?_cons] at hr
          have hshows := h.data (position d a) r (by simp [he])
          have htaker := fill_taker ht hu he
          have hid := (fill_effects ht d hu he).identity
          have hprice : (((m.touch (position d a)).fill (position d a) inc r.slot).heap inc).price =
              (m.heap inc).price := congrArg (fun x => x.2.2.2) hid
          have hs' := hs
          rw [← hprice] at hs'
          have hheap : (m.touch (position d a)).heap = m.heap := rfl
          rw [hheap] at htaker
          rw [← htaker] at hs'
          obtain ⟨gs, hgs, hmeets⟩ := ih (fill_represents ht hu he) (unlinked_fillHead hu he _) (by simpa using hb) hr hs'
          refine ⟨(m.heap r.slot, m.heap inc) :: gs, ?_, .cons ⟨hshows, rfl, ?_⟩ (hid ▸ hmeets)⟩
          · rw [hgs, fill_fills, List.append_assoc]
            rfl
          · rw [toNat_min32, hshows.quantity]

theorem matchOrder_meets (h : Represents m a) (hu : Unlinked a inc) (hb : Bounded a)
    (hr : matchOrder m inc = some m')
    (hm : Matched (m.heap inc).price.toNat (m.heap inc).side a (m.heap inc).quantity.toNat a' left fs) :
    ∃ gs, m'.fills = m.fills ++ gs ∧ List.Forall₂ (Meets (identity (m.heap inc))) gs fs := by
  obtain ⟨n, hn, rfl⟩ := Option.map_eq_some_iff.mp hr
  have hfills : (if 0 < (n.heap inc).quantity then n.insertOrder inc else n).fills = n.fills := by
    split
    · rw [insertOrder_frame]
    · rfl
  rw [hfills]
  simp only [matchLoop] at hn
  generalize hside : (m.heap inc).side = side at hm hn
  cases hm with
  | buy hs =>
      split at hn
      next => exact sweep_meets (d := .asks) _ h hu hb.bestAsk hn hs
      next hno =>
        rw [if_neg (by simp)] at hn
        obtain rfl := Option.some.inj hn
        have hnot : ¬ Ahead .asks (position .asks a) (m.heap inc).price.toNat := by
          rw [← cursor_eq h .asks, ← reaches_iff]
          exact fun hc => hno ⟨rfl, of_decide_eq_true hc⟩
        obtain ⟨-, -, rfl⟩ := hs.of_not_ahead hnot
        exact ⟨[], (List.append_nil _).symm, .nil⟩
  | sell hs =>
      rw [if_neg (by simp)] at hn
      split at hn
      next => exact sweep_meets (d := .bids) _ h hu hb.bestBid hn hs
      next hno =>
        obtain rfl := Option.some.inj hn
        have hnot : ¬ Ahead .bids (position .bids a) (m.heap inc).price.toNat := by
          rw [← cursor_eq h .bids, ← reaches_iff]
          exact fun hc => hno ⟨rfl, of_decide_eq_true hc⟩
        obtain ⟨-, -, rfl⟩ := hs.of_not_ahead hnot
        exact ⟨[], (List.append_nil _).symm, .nil⟩
  | other hbuy hsell =>
      rw [if_neg (fun hc => hbuy hc.1), if_neg (fun hc => hsell hc.1)] at hn
      obtain rfl := Option.some.inj hn
      exact ⟨[], (List.append_nil _).symm, .nil⟩

theorem accepted_meets {n : Nat} {e e' : Engine} {c : Call} {slot : Nat} (h : Consistent n e a)
    (hs : submitOrder e c = some (e', true)) (ha : Accepted e c a e' slot a' left fs) :
    ∃ gs, e'.market.fills = e.market.fills ++ gs ∧ List.Forall₂ (Meets (identity (c.order e.nextOrderId))) gs fs := by
  have hacq : e.pool.acquire = (e.pool.acquire.1, some slot) := Prod.ext rfl ha.acquired
  rw [submitOrder, hacq] at hs
  obtain ⟨m, hm, he⟩ := Option.map_eq_some_iff.mp hs
  obtain ⟨rfl, -⟩ := Prod.mk.inj he
  have hheap : (e.market.setOrder slot fun _ => c.order e.nextOrderId).heap slot = c.order e.nextOrderId :=
    Function.update_self ..
  have hmatched := ha.matched
  have hmeets := matchOrder_meets (setOrder_represents h.market ha.unlinked _) ha.unlinked h.bounded hm
    (by rw [hheap]; exact hmatched)
  rw [hheap] at hmeets
  exact hmeets

end Fills

section Accounts

def share (id : UInt64) (owner : UInt64) (q : Nat) : Nat := if owner = id then q else 0

theorem share_add (id owner : UInt64) (q q' : Nat) : share id owner (q + q') = share id owner q + share id owner q' := by
  rw [share, share, share]
  split <;> rfl

def filledOf (id : UInt64) (fills : List (Order × Order)) : Nat :=
  (fills.map fun g => share id g.1.id (min g.2.quantity g.1.quantity).toNat +
    share id g.2.id (min g.2.quantity g.1.quantity).toNat).sum

def openOf (id : UInt64) (orders : List Order) : Nat := (orders.map fun x => share id x.id x.quantity.toNat).sum

def openIn (id : UInt64) (l : List Resting) : Nat := (l.map fun r => share id r.id r.quantity).sum

def madeIn (id : UInt64) (fs : List Fill) : Nat := (fs.map fun f => share id f.maker.id f.quantity).sum

theorem filledOf_append (id : UInt64) (gs hs : List (Order × Order)) :
    filledOf id (gs ++ hs) = filledOf id gs + filledOf id hs := by
  simp [filledOf]

theorem openIn_append (id : UInt64) (l l' : List Resting) : openIn id (l ++ l') = openIn id l + openIn id l' := by
  simp [openIn]

theorem openIn_cons (id : UInt64) (r : Resting) (l : List Resting) :
    openIn id (r :: l) = share id r.id r.quantity + openIn id l := rfl

theorem madeIn_nil (id : UInt64) : madeIn id [] = 0 := rfl

theorem madeIn_cons (id : UInt64) (f : Fill) (fs : List Fill) :
    madeIn id (f :: fs) = share id f.maker.id f.quantity + madeIn id fs := rfl

theorem filledOf_meets {x : Order} {gs : List (Order × Order)} {fs : List Fill}
    (h : List.Forall₂ (Meets (identity x)) gs fs) (id : UInt64) :
    filledOf id gs = madeIn id fs + share id x.id (tradedQuantity fs) := by
  induction h with
  | nil =>
      rw [share, tradedQuantity_nil]
      split <;> rfl
  | @cons g f gs fs hg h ih =>
      have htaker : g.2.id = x.id := congrArg (fun y => y.1) hg.taker
      rw [filledOf, List.map_cons, List.sum_cons, ← filledOf, ih, madeIn_cons, tradedQuantity_cons, share_add,
        hg.quantity, hg.maker.id, htaker]
      omega

variable {d : Sweep} {price p left left' : Nat} {a a' : Levels} {fs : List Fill} {r : Resting} {rest : List Resting}

theorem fillHead_open (id : UInt64) (hp : p ≤ maxPriceTicks) (he : a.levels p = r :: rest) (left : Nat) :
    openIn id (restingIn a) =
      openIn id (restingIn (a.fillHead p r rest left)) + share id r.id (min left r.quantity) := by
  obtain ⟨xs, ys, ha, hset⟩ := restingIn_set (a := a) hp
  rw [ha, Levels.fillHead, hset, he]
  by_cases hq : r.quantity ≤ left
  · rw [if_pos hq, Nat.min_eq_right hq]
    simp only [openIn_append, openIn_cons]
    omega
  · have hsplit := share_add id r.id (r.quantity - left) left
    rw [Nat.sub_add_cancel (Nat.le_of_not_le hq)] at hsplit
    rw [if_neg hq, Nat.min_eq_left (Nat.le_of_not_le hq)]
    simp only [openIn_append, openIn_cons]
    omega

theorem swept_open (id : UInt64) (h : Swept d price a left a' left' fs) (hb : position d a ≤ maxPriceTicks) :
    openIn id (restingIn a) = openIn id (restingIn a') + madeIn id fs := by
  induction h with
  | done | last => rw [madeIn_nil, Nat.add_zero]
  | skip hl hw he hp h ih => rw [← ih (position_advance_le hp hb), restingIn_advance]
  | fill hl hw he h ih =>
      rw [fillHead_open id hb he, ih (by simpa using hb)]
      simp only [madeIn_cons]
      omega

theorem matched_open {side : UInt8} {quantity : Nat} (id : UInt64)
    (h : Matched price side a quantity a' left fs) (hb : Bounded a) :
    openIn id (restingIn a) = openIn id (restingIn a') + madeIn id fs := by
  cases h with
  | buy h => exact swept_open id h hb.bestAsk
  | sell h => exact swept_open id h hb.bestBid
  | other => rw [madeIn_nil, Nat.add_zero]

theorem restResidue_open (id : UInt64) (hp : p ≤ maxPriceTicks) (r : Resting) (left : Nat) :
    openIn id (restingIn (restResidue a p r left)) = openIn id (restingIn a) + share id r.id left := by
  rw [restResidue]
  split
  next =>
    obtain ⟨xs, ys, ha, hq⟩ := restingIn_enqueue (a := a) hp { r with quantity := left }
    rw [ha, hq]
    simp only [openIn_append, openIn_cons]
    omega
  next hl =>
    obtain rfl : left = 0 := by omega
    rw [share, ite_self, Nat.add_zero]

def accountOf (id : UInt64) (m : Market) (a : Levels) : Nat := filledOf id m.fills + openIn id (restingIn a)

/-- A call adds its quantity to the account of the id that it gets, and leaves
every other account as it was: what a maker has less open is filled. -/
theorem accepted_account {n slot : Nat} {e e' : Engine} {c : Call} (h : Consistent n e a)
    (hp : c.price.toNat ≤ maxPriceTicks) (hs : submitOrder e c = some (e', true))
    (ha : Accepted e c a e' slot a' left fs) (id : UInt64) :
    accountOf id e'.market (restResidue a' c.price.toNat (ofCall c slot e.nextOrderId) left) =
      accountOf id e.market a + share id e.nextOrderId c.quantity.toNat := by
  obtain ⟨gs, hgs, hmeets⟩ := accepted_meets h hs ha
  have hfilled := filledOf_meets hmeets id
  have hopen := matched_open id ha.matched h.bounded
  have hsplit := share_add id e.nextOrderId left (tradedQuantity fs)
  rw [matched_quantity ha.matched] at hsplit
  have hrest := restResidue_open (a := a') id hp (ofCall c slot e.nextOrderId) left
  rw [accountOf, accountOf, hgs, filledOf_append, hfilled, hrest, hopen, hsplit]
  simp only [Call.order, ofCall]
  omega

end Accounts

section Provenance

def Stems (calls : List Call) (t : UInt64 × UInt8 × UInt32 × UInt64) : Prop :=
  ∃ (i : Nat) (c : Call), calls[i]? = some c ∧ t = identity (c.order (.ofNat (i + 1)))

theorem Stems.append {calls : List Call} {t : UInt64 × UInt8 × UInt32 × UInt64} (h : Stems calls t)
    (later : List Call) : Stems (calls ++ later) t := by
  obtain ⟨i, c, hi, ht⟩ := h
  have hlt := (List.getElem?_eq_some_iff.mp hi).1
  exact ⟨i, c, by rw [List.getElem?_append_left hlt]; exact hi, ht⟩

theorem stems_last (calls : List Call) (c : Call) :
    Stems (calls ++ [c]) (identity (c.order (.ofNat (calls.length + 1)))) :=
  ⟨calls.length, c, by simp, rfl⟩

theorem Stems.id_lt {calls : List Call} {t : UInt64 × UInt8 × UInt32 × UInt64} (h : Stems calls t)
    (hlen : calls.length + 1 < 2 ^ 64) : t.1 < UInt64.ofNat (calls.length + 1) := by
  obtain ⟨i, c, hi, rfl⟩ := h
  have hlt := (List.getElem?_eq_some_iff.mp hi).1
  rw [UInt64.lt_iff_toNat_lt]
  simp only [identity, Call.order, UInt64.toNat_ofNat']
  omega

def restingIdentity (p : Nat) (r : Resting) : UInt64 × UInt8 × UInt32 × UInt64 :=
  (r.id, r.side, r.traderId, .ofNat p)

theorem shows_identity {x : Order} {p : Nat} {r : Resting} (h : Shows x p r) :
    identity x = restingIdentity p r := by
  rw [identity, restingIdentity, h.id, h.side, h.traderId, ← h.price, UInt64.ofNat_toNat]

def ids (l : List Resting) : List UInt64 := l.map Resting.id

theorem ids_append (l l' : List Resting) : ids (l ++ l') = ids l ++ ids l' := List.map_append

variable {d : Sweep} {price p left left' : Nat} {a a' : Levels} {fs : List Fill} {r : Resting} {rest : List Resting}

theorem fillHead_ids (hp : p ≤ maxPriceTicks) (he : a.levels p = r :: rest) (left : Nat) :
    (ids (restingIn (a.fillHead p r rest left))).Sublist (ids (restingIn a)) := by
  obtain ⟨xs, ys, ha, hset⟩ := restingIn_set (a := a) hp
  rw [ha, Levels.fillHead, hset, he]
  simp only [ids_append]
  refine ((List.Sublist.refl _).append ?_).append (.refl _)
  split
  · exact List.sublist_cons_self _ _
  · exact .refl _

theorem swept_ids (h : Swept d price a left a' left' fs) (hb : position d a ≤ maxPriceTicks) :
    (ids (restingIn a')).Sublist (ids (restingIn a)) := by
  induction h with
  | done | last => exact .refl _
  | skip hl hw he hp h ih => simpa using ih (position_advance_le hp hb)
  | fill hl hw he h ih => exact (ih (by simpa using hb)).trans (fillHead_ids hb he _)

theorem matched_ids {side : UInt8} {quantity : Nat} (h : Matched price side a quantity a' left fs) (hb : Bounded a) :
    (ids (restingIn a')).Sublist (ids (restingIn a)) := by
  cases h with
  | buy h => exact swept_ids h hb.bestAsk
  | sell h => exact swept_ids h hb.bestBid
  | other => exact .refl _

theorem restResidue_ids (hp : p ≤ maxPriceTicks) (r : Resting) (left : Nat) (hn : (ids (restingIn a)).Nodup)
    (hr : r.id ∉ ids (restingIn a)) : (ids (restingIn (restResidue a p r left))).Nodup := by
  rw [restResidue]
  split
  · obtain ⟨xs, ys, ha, hq⟩ := restingIn_enqueue (a := a) hp { r with quantity := left }
    rw [ha, ids_append] at hn hr
    rw [hq, ids_append]
    exact List.nodup_middle.mpr (List.nodup_cons.mpr ⟨hr, hn⟩)
  · exact hn

/-- Everything in the book, and both parties of every trade so far, stem from
accepted calls, and no id stands in the book twice. -/
structure Traced (s : Session) (a : Levels) : Prop where
  nextOrderId : s.engine.nextOrderId = .ofNat ((acceptedCalls s.log).length + 1)
  resting : ∀ p, ∀ r ∈ a.levels p, Stems (acceptedCalls s.log) (restingIdentity p r)
  nodup : (ids (restingIn a)).Nodup
  fills : ∀ g ∈ s.engine.market.fills, Stems (acceptedCalls s.log) (identity g.1) ∧
    Stems (acceptedCalls s.log) (identity g.2) ∧ g.1.id < g.2.id
  account : ∀ (i : Nat) (c : Call), (acceptedCalls s.log)[i]? = some c →
    accountOf (.ofNat (i + 1)) s.engine.market a = c.quantity.toNat
  fresh : ∀ id : UInt64, (acceptedCalls s.log).length < id.toNat → accountOf id s.engine.market a = 0

theorem init_traced (n : Nat) : Traced (.init n) .empty where
  nextOrderId := rfl
  resting := by simp [Levels.empty]
  nodup := by simp [restingIn_empty, ids]
  fills := by simp [Session.init, Engine.init, Market.init]
  account := by simp [Session.init, acceptedCalls]
  fresh id _ := by
    rw [accountOf, restingIn_empty]
    rfl

variable {n slot : Nat} {s : Session} {e' : Engine} {c : Call}

theorem traced_resting (h : Traced s a) (hm : Matched c.price.toNat c.side a c.quantity.toNat a' left fs) :
    ∀ p, ∀ r ∈ (restResidue a' c.price.toNat (ofCall c slot s.engine.nextOrderId) left).levels p,
      Stems (acceptedCalls s.log ++ [c]) (restingIdentity p r) := by
  have hold : ∀ p, ∀ r ∈ a'.levels p, Stems (acceptedCalls s.log ++ [c]) (restingIdentity p r) := by
    intro p r hr
    obtain ⟨r₀, hr₀, -, hid, hside, htrader, -⟩ := hm.mem hr
    have hsame : restingIdentity p r = restingIdentity p r₀ := by
      rw [restingIdentity, restingIdentity, hid, hside, htrader]
    rw [hsame]
    exact (h.resting p r₀ hr₀).append _
  intro p r hr
  rw [restResidue] at hr
  split at hr
  next =>
    rcases Levels.mem_enqueue.mp hr with hr | ⟨rfl, rfl⟩
    · exact hold p r hr
    · have hlast := stems_last (acceptedCalls s.log) c
      rw [← h.nextOrderId] at hlast
      simpa [restingIdentity, ofCall, identity, Call.order] using hlast
  next => exact hold p r hr

theorem traced_fills (hc : Consistent n s.engine a) (h : Traced s a) (hlen : (acceptedCalls s.log).length + 1 < 2 ^ 64)
    (hs : submitOrder s.engine c = some (e', true)) (ha : Accepted s.engine c a e' slot a' left fs) :
    ∀ g ∈ e'.market.fills, Stems (acceptedCalls s.log ++ [c]) (identity g.1) ∧
      Stems (acceptedCalls s.log ++ [c]) (identity g.2) ∧ g.1.id < g.2.id := by
  obtain ⟨gs, hgs, hmeets⟩ := accepted_meets hc hs ha
  intro g hg
  rw [hgs] at hg
  rcases List.mem_append.mp hg with hg | hg
  · obtain ⟨h₁, h₂, hlt⟩ := h.fills g hg
    exact ⟨h₁.append _, h₂.append _, hlt⟩
  · obtain ⟨f, hf, hgf⟩ := meets_of_mem hmeets hg
    -- The maker was in the book before the call, hence its id is an older one.
    have hmaker := h.resting f.price f.maker (ha.matched.maker_mem hf)
    rw [← shows_identity hgf.maker] at hmaker
    have hlt : g.1.id < g.2.id := by
      have htaker : g.2.id = s.engine.nextOrderId := congrArg (fun y => y.1) hgf.taker
      rw [htaker, h.nextOrderId]
      exact hmaker.id_lt hlen
    refine ⟨hmaker.append _, ?_, hlt⟩
    rw [hgf.taker, h.nextOrderId]
    exact stems_last _ _

theorem traced_account (hc : Consistent n s.engine a) (hp : c.price.toNat ≤ maxPriceTicks) (h : Traced s a)
    (hlen : (acceptedCalls s.log).length + 1 < 2 ^ 64) (hs : submitOrder s.engine c = some (e', true))
    (ha : Accepted s.engine c a e' slot a' left fs) (i : Nat) (c' : Call)
    (hi : (acceptedCalls s.log ++ [c])[i]? = some c') :
    accountOf (.ofNat (i + 1)) e'.market (restResidue a' c.price.toNat (ofCall c slot s.engine.nextOrderId) left) =
      c'.quantity.toNat := by
  rw [accepted_account hc hp hs ha, h.nextOrderId]
  have hle := (List.getElem?_eq_some_iff.mp hi).1
  rw [List.length_append, List.length_singleton] at hle
  rcases Nat.lt_or_ge i (acceptedCalls s.log).length with hlt | hge
  · rw [List.getElem?_append_left hlt] at hi
    have hne : UInt64.ofNat ((acceptedCalls s.log).length + 1) ≠ UInt64.ofNat (i + 1) := by
      rw [Ne, ← UInt64.toNat_inj, UInt64.toNat_ofNat', UInt64.toNat_ofNat']
      omega
    rw [h.account i c' hi, share, if_neg hne, Nat.add_zero]
  · obtain rfl : i = (acceptedCalls s.log).length := by omega
    obtain rfl : c = c' := by simpa using hi
    have hfresh := h.fresh (.ofNat ((acceptedCalls s.log).length + 1))
      (by rw [UInt64.toNat_ofNat']; omega)
    rw [hfresh, share, if_pos rfl, Nat.zero_add]

theorem accepted_traced (hc : Consistent n s.engine a) (hp : c.price.toNat ≤ maxPriceTicks) (h : Traced s a)
    (hlen : (acceptedCalls s.log).length + 1 < 2 ^ 64) (hs : submitOrder s.engine c = some (e', true))
    (ha : Accepted s.engine c a e' slot a' left fs) (ts : List Trade) :
    Traced ⟨e'.clearExecutionQueue, s.log ++ [⟨c, true, ts⟩]⟩
      (restResidue a' c.price.toNat (ofCall c slot s.engine.nextOrderId) left) := by
  have hcalls : acceptedCalls (s.log ++ [⟨c, true, ts⟩]) = acceptedCalls s.log ++ [c] := acceptedCalls_append _ _
  have hlength : (acceptedCalls s.log ++ [c]).length = (acceptedCalls s.log).length + 1 := by simp
  constructor
  case nextOrderId =>
    rw [hcalls, hlength, UInt64.ofNat_add, ← h.nextOrderId]
    exact ha.nextOrderId
  case resting =>
    rw [hcalls]
    exact traced_resting h ha.matched
  case nodup =>
    have hnodup := h.nodup.sublist (matched_ids ha.matched hc.bounded)
    refine restResidue_ids hp _ _ hnodup fun hmem => ?_
    -- An id in the book is smaller than the next one.
    obtain ⟨r, hr, hid⟩ := List.mem_map.mp ((matched_ids ha.matched hc.bounded).subset hmem)
    obtain ⟨p, hr⟩ := (mem_restingIn hc.bounded).mp hr
    have hlt := (h.resting p r hr).id_lt hlen
    rw [← h.nextOrderId] at hlt
    exact UInt64.ne_of_lt hlt hid
  case fills =>
    have hfills := traced_fills hc h hlen hs ha
    rw [hcalls]
    exact hfills
  case account =>
    have haccount := traced_account hc hp h hlen hs ha
    rw [hcalls]
    exact haccount
  case fresh =>
    intro id hid
    rw [hcalls, hlength] at hid
    have hne : s.engine.nextOrderId ≠ id := by
      rintro rfl
      rw [h.nextOrderId, UInt64.toNat_ofNat'] at hid
      omega
    have hacc := accepted_account hc hp hs ha id
    rw [h.fresh id (by omega), share, if_neg hne] at hacc
    exact hacc

theorem submit_traced (hr : Ready n s a) (hp : c.price.toNat ≤ maxPriceTicks) (h : Traced s a)
    (hlen : (acceptedCalls s.log).length + 1 < 2 ^ 64) :
    ∃ s' a', s.submit c = some s' ∧ Ready n s' a' ∧ Traced s' a' := by
  by_cases hl : (restingIn a).length = n
  · obtain ⟨hs, hc⟩ := submitOrder_rejects hr.toConsistent c hl
    refine ⟨_, a, by rw [Session.submit, hs, Option.map_some], ⟨consistent_clear hc, rfl⟩, ?_⟩
    have hcalls : acceptedCalls (s.log ++ [⟨c, false, s.engine.market.execQ.items⟩]) = acceptedCalls s.log := by
      rw [acceptedCalls_append]
      exact List.append_nil _
    exact ⟨by rw [hcalls]; exact h.nextOrderId, by rw [hcalls]; exact h.resting, h.nodup,
      by rw [hcalls]; exact h.fills, by rw [hcalls]; exact h.account, by rw [hcalls]; exact h.fresh⟩
  · obtain ⟨e', slot, a', left, fs, hs, ha, hc⟩ :=
      submitOrder_accepts hr.toConsistent c (Nat.lt_of_le_of_ne hr.length_le hl)
    refine ⟨_, _, by rw [Session.submit, hs, Option.map_some], ⟨consistent_clear (hc fun _ => hp), rfl⟩, ?_⟩
    exact accepted_traced hr.toConsistent hp h hlen hs ha _

theorem acceptedCalls_length_le (log : List Entry) : (acceptedCalls log).length ≤ log.length := by
  rw [acceptedCalls, List.length_map]
  exact List.length_filter_le _ _

theorem after_traced (hn : n ≤ 2 ^ 32) {calls : List Call} (hc : ∀ c ∈ calls, c.price.toNat ≤ maxPriceTicks)
    (hlen : calls.length < 2 ^ 64) :
    ∃ s a, Session.after n calls = some s ∧ Ready n s a ∧ Traced s a := by
  induction calls using List.reverseRecOn with
  | nil => exact ⟨_, _, rfl, init_ready hn, init_traced n⟩
  | append_singleton calls c ih =>
      rw [List.length_append, List.length_singleton] at hlen
      obtain ⟨s, a, hs, hr, ht⟩ := ih (fun x hx => hc x (List.mem_append_left _ hx)) (by omega)
      have hle := acceptedCalls_length_le s.log
      rw [← List.length_map (f := Entry.call), after_log hs] at hle
      obtain ⟨s', a', hsub, hr', ht'⟩ := submit_traced hr (hc c (by simp)) ht (by omega)
      exact ⟨s', a', Runs.run_concat hs hsub, hr', ht'⟩

end Provenance

section Sessions

variable {n : Nat} {calls : List Call} {s : Session}

theorem after_trades (hs : Session.after n calls = some s) : trades s.log = s.engine.market.fills.map tradeOf := by
  have hstep : ∀ (s : Session) (c : Call) (s' : Session),
      (s.engine.market.execQ.items = [] ∧ trades s.log = s.engine.market.fills.map tradeOf) →
      s.submit c = some s' → s'.engine.market.execQ.items = [] ∧ trades s'.log = s'.engine.market.fills.map tradeOf := by
    rintro s c s' ⟨hq, ht⟩ h
    obtain ⟨⟨e', ok⟩, he, rfl⟩ := Option.map_eq_some_iff.mp h
    obtain ⟨-, gs, hfills, hexec, -⟩ := submitOrder_trades he
    refine ⟨rfl, ?_⟩
    have hmarket : e'.clearExecutionQueue.market.fills = e'.market.fills := rfl
    rw [trades_append, ht, hmarket, hfills, hexec, hq, List.nil_append, List.map_append]
  have hinv := Runs.run_invariant hstep ⟨rfl, rfl⟩ hs
  exact hinv.2

theorem shows_of_resting {e : Engine} {a : Levels} (h : Consistent n e a) {x : Order} (hx : x ∈ e.restingOrders) :
    ∃ p, ∃ r ∈ a.levels p, Shows x p r := by
  obtain ⟨o, ho, rfl⟩ := List.mem_map.mp hx
  rw [restingSlots_eq h] at ho
  obtain ⟨r, hr, rfl⟩ := List.mem_map.mp ho
  obtain ⟨p, hr⟩ := (mem_restingIn h.bounded).mp hr
  exact ⟨p, r, hr, h.market.data p r hr⟩

theorem openOf_eq {e : Engine} {a : Levels} (h : Consistent n e a) (id : UInt64) :
    openOf id e.restingOrders = openIn id (restingIn a) := by
  rw [openOf, openIn, restingOrders_eq h _ (fun r => share id r.id r.quantity)]
  intro p r x hx
  rw [hx.id, hx.quantity]

/-- Over a whole session the quantity of every accepted order is what the
trades have taken from it, as taker and as maker, plus what is open of it in
the book. -/
theorem orders_accounted (hn : n ≤ 2 ^ 32) (hc : ∀ c ∈ calls, c.price.toNat ≤ maxPriceTicks)
    (hlen : calls.length < 2 ^ 64) :
    ∃ s, Session.after n calls = some s ∧ trades s.log = s.engine.market.fills.map tradeOf ∧
      ∀ (i : Nat) (c : Call), (acceptedCalls s.log)[i]? = some c →
        c.quantity.toNat = filledOf (.ofNat (i + 1)) s.engine.market.fills +
          openOf (.ofNat (i + 1)) s.engine.restingOrders := by
  obtain ⟨s, a, hs, hr, ht⟩ := after_traced hn hc hlen
  refine ⟨s, hs, after_trades hs, fun i c hi => ?_⟩
  rw [openOf_eq hr.toConsistent]
  exact (ht.account i c hi).symm

def partialFill : List Call := [⟨0, 5, 100, 1⟩, ⟨1, 5, 40, 2⟩]

theorem partialFill_price : ∀ c ∈ partialFill, c.price.toNat ≤ maxPriceTicks := by decide +kernel

theorem orders_accounted_partial_fill :
    ∃ s, Session.after 3 partialFill = some s ∧ filledOf 1 s.engine.market.fills = 40 ∧
      openOf 1 s.engine.restingOrders = 60 := by
  have hrun : (Session.after 3 partialFill).map
      (fun s => (acceptedCalls s.log, filledOf 1 s.engine.market.fills)) =
        some (partialFill, 40) := by decide +kernel
  obtain ⟨s, hs, hresult⟩ := Option.map_eq_some_iff.mp hrun
  obtain ⟨hcalls, hfilled⟩ := Prod.mk.inj hresult
  obtain ⟨s', hs', -, haccount⟩ := orders_accounted (by decide : 3 ≤ 2 ^ 32) partialFill_price (by decide)
  obtain rfl := Option.some.inj (hs.symm.trans hs')
  have hbuy : 100 = filledOf 1 s.engine.market.fills + openOf 1 s.engine.restingOrders :=
    haccount 0 ⟨0, 5, 100, 1⟩ (by rw [hcalls]; rfl)
  rw [hfilled] at hbuy
  exact ⟨s, hs, hfilled, (Nat.add_left_cancel hbuy).symm⟩

/-- Every order in the book is what an accepted call brought, with its side,
price and trader, and no id is there twice. In every trade the maker came
before the taker. -/
theorem orders_traced (hn : n ≤ 2 ^ 32) (hc : ∀ c ∈ calls, c.price.toNat ≤ maxPriceTicks)
    (hlen : calls.length < 2 ^ 64) :
    ∃ s, Session.after n calls = some s ∧
      (∀ x ∈ s.engine.restingOrders, Stems (acceptedCalls s.log) (identity x)) ∧
      (s.engine.restingOrders.map Order.id).Nodup ∧
      ∀ g ∈ s.engine.market.fills, Stems (acceptedCalls s.log) (identity g.1) ∧
        Stems (acceptedCalls s.log) (identity g.2) ∧ g.1.id < g.2.id := by
  obtain ⟨s, a, hs, hr, ht⟩ := after_traced hn hc hlen
  refine ⟨s, hs, fun x hx => ?_, ?_, ht.fills⟩
  · obtain ⟨p, r, hmem, hshows⟩ := shows_of_resting hr.toConsistent hx
    rw [shows_identity hshows]
    exact ht.resting p r hmem
  · rw [restingOrders_eq hr.toConsistent Order.id Resting.id (fun _ _ _ h => h.id)]
    exact ht.nodup

theorem orders_traced_partial_fill :
    ∃ s, Session.after 3 partialFill = some s ∧
      (s.engine.market.fills.map fun g => (g.1.id, g.2.id)) = [(1, 2)] ∧
      ∀ g ∈ s.engine.market.fills, g.1.id < g.2.id := by
  have hrun : (Session.after 3 partialFill).map
      (fun s => s.engine.market.fills.map fun g => (g.1.id, g.2.id)) = some [(1, 2)] := by decide +kernel
  obtain ⟨s, hs, hids⟩ := Option.map_eq_some_iff.mp hrun
  obtain ⟨s', hs', -, -, hfills⟩ := orders_traced (by decide : 3 ≤ 2 ^ 32) partialFill_price (by decide)
  obtain rfl := Option.some.inj (hs.symm.trans hs')
  exact ⟨s, hs, hids, fun g hg => (hfills g hg).2.2⟩

end Sessions

end Sequitur.OrderLedger
