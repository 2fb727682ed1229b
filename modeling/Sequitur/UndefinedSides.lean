import Sequitur.Answers

namespace Sequitur.UndefinedSides

open OrderBook LevelBook Accounting MatchingEngine EngineStep Sessions Protocol CoreLoop Answers

def Defined (side : UInt8) : Prop := side = 0 ∨ side = 1

instance : DecidablePred Defined := fun side => inferInstanceAs (Decidable (side = 0 ∨ side = 1))

section Forget

/-- A resting order without the slot it is in and the id it was given. -/
def anonymous (r : Resting) : Resting := { r with slot := 0, id := 0 }

def forget (a : Levels) : Levels := { a with levels := fun p => (a.levels p).map anonymous }

def forgetFill (f : Fill) : Fill := { f with maker := anonymous f.maker }

@[simp] theorem anonymous_quantity (r : Resting) : (anonymous r).quantity = r.quantity := rfl

@[simp] theorem position_forget (d : Sweep) (a : Levels) : position d (forget a) = position d a := by cases d <;> rfl

@[simp] theorem forget_levels (a : Levels) (p : Nat) : (forget a).levels p = (a.levels p).map anonymous := rfl

theorem forget_advance (d : Sweep) (a : Levels) : forget (advance d a) = advance d (forget a) := by cases d <;> rfl

theorem forget_set (a : Levels) (p : Nat) (l : List Resting) :
    forget (a.set p l) = (forget a).set p (l.map anonymous) := by
  simp only [forget, Levels.set, Levels.mk.injEq, and_true]
  funext q
  by_cases hq : q = p
  · subst hq
    simp
  · simp [Function.update_of_ne hq]

theorem forget_fillHead (a : Levels) (p : Nat) (r : Resting) (rest : List Resting) (left : Nat) :
    forget (a.fillHead p r rest left) = (forget a).fillHead p (anonymous r) (rest.map anonymous) left := by
  rw [Levels.fillHead, forget_set, Levels.fillHead]
  congr 1
  by_cases hq : r.quantity ≤ left
  · rw [if_pos hq, if_pos (show (anonymous r).quantity ≤ left from hq)]
  · rw [if_neg hq, if_neg (show ¬ (anonymous r).quantity ≤ left from hq)]
    rfl

theorem forget_enqueue (a : Levels) (p : Nat) (r : Resting) :
    forget (a.enqueue p r) = (forget a).enqueue p (anonymous r) := by
  have hset : (forget a).set p ((forget a).levels p ++ [anonymous r]) = forget (a.set p (a.levels p ++ [r])) := by
    rw [forget_set, List.map_append]
    rfl
  rw [Levels.enqueue, Levels.enqueue, hset]
  by_cases hb : r.side = 0
  · rw [if_pos hb, if_pos (show (anonymous r).side = 0 from hb)]
    rfl
  · rw [if_neg hb, if_neg (show ¬ (anonymous r).side = 0 from hb)]
    by_cases hs : r.side = 1
    · rw [if_pos hs, if_pos (show (anonymous r).side = 1 from hs)]
      rfl
    · rw [if_neg hs, if_neg (show ¬ (anonymous r).side = 1 from hs)]

theorem swept_forget {d : Sweep} {price left left' : Nat} {a a' : Levels} {fs : List Fill}
    (h : Swept d price a left a' left' fs) : Swept d price (forget a) left (forget a') left' (fs.map forgetFill) := by
  induction h with
  | done h => exact .done (by simpa using h)
  | last hl hw he hp => exact .last hl (by simpa using hw) (by simp [he]) (by simpa using hp)
  | skip hl hw he hp h ih =>
      refine .skip hl (by simpa using hw) (by simp [he]) (by simpa using hp) ?_
      rwa [forget_advance] at ih
  | @fill a left a' left' fs r rest hl hw he h ih =>
      rw [forget_fillHead] at ih
      have hhead : (forget a).levels (position d (forget a)) = anonymous r :: rest.map anonymous := by simp [he]
      have hstep := Swept.fill hl (by simpa using hw : Ahead d (position d (forget a)) price) hhead (by simpa using ih)
      simpa [forgetFill] using hstep

theorem swept_unique {d : Sweep} {price left l m : Nat} {a a' b' : Levels} {fs gs : List Fill}
    (h : Swept d price a left a' l fs) (h' : Swept d price a left b' m gs) : a' = b' ∧ l = m ∧ fs = gs := by
  induction h generalizing gs with
  | done hd =>
      cases h' with
      | done => exact ⟨rfl, rfl, rfl⟩
      | last hl hw | skip hl hw | fill hl hw => exact (hd.elim (Nat.ne_of_gt hl) (absurd hw)).elim
  | last hl hw he hp =>
      cases h' with
      | done hd => exact (hd.elim (Nat.ne_of_gt hl) (absurd hw)).elim
      | last => exact ⟨rfl, rfl, rfl⟩
      | skip _ _ _ hp' => exact absurd hp hp'
      | fill _ _ he' => simp [he] at he'
  | skip hl hw he hp h ih =>
      cases h' with
      | done hd => exact (hd.elim (Nat.ne_of_gt hl) (absurd hw)).elim
      | last _ _ _ hp' => exact absurd hp' hp
      | skip _ _ _ _ h' => exact ih h'
      | fill _ _ he' => simp [he] at he'
  | fill hl hw he h ih =>
      cases h' with
      | done hd => exact (hd.elim (Nat.ne_of_gt hl) (absurd hw)).elim
      | last _ _ he' | skip _ _ he' => simp [he] at he'
      | fill _ _ he' h' =>
          obtain ⟨rfl, rfl⟩ := List.cons.inj (he.symm.trans he')
          obtain ⟨h₁, h₂, rfl⟩ := ih h'
          exact ⟨h₁, h₂, rfl⟩

variable {a a' b b' : Levels} {packet : IngressPacket} {x y : Answer}

theorem matched_alike {price quantity l m : Nat} {side : UInt8} {fs gs : List Fill}
    (h : Matched price side a quantity a' l fs) (h' : Matched price side b quantity b' m gs)
    (hab : forget a = forget b) : forget a' = forget b' ∧ l = m ∧ fs.map forgetFill = gs.map forgetFill := by
  cases h with
  | buy h =>
      cases h' with
      | buy h' => exact swept_unique (hab ▸ swept_forget h) (swept_forget h')
      | other hb => exact absurd rfl hb
  | sell h =>
      cases h' with
      | sell h' => exact swept_unique (hab ▸ swept_forget h) (swept_forget h')
      | other _ hs => exact absurd rfl hs
  | other hb hs =>
      cases h' with
      | buy => exact absurd rfl hb
      | sell => exact absurd rfl hs
      | other => exact ⟨hab, rfl, rfl⟩

theorem restResidue_alike {price left : Nat} {r t : Resting} (hab : forget a = forget b)
    (hrt : anonymous r = anonymous t) : forget (restResidue a price r left) = forget (restResidue b price t left) := by
  rw [restResidue, restResidue]
  split
  · have hq : anonymous { r with quantity := left } = anonymous { t with quantity := left } :=
      congrArg (fun z => { z with quantity := left }) hrt
    rw [forget_enqueue, forget_enqueue, hab, hq]
  · exact hab

theorem length_alike (hab : forget a = forget b) : (restingIn a).length = (restingIn b).length := by
  have hlen : ∀ c : Levels, (restingIn (forget c)).length = (restingIn c).length := by
    intro c
    have hmap : restingIn (forget c) = (restingIn c).map anonymous := (Families.map_flatten _ _ _).symm
    rw [hmap, List.length_map]
  rw [← hlen a, hab, hlen b]

theorem trades_alike {fs gs : List Fill} (h : fs.map forgetFill = gs.map forgetFill) (traderId : UInt32) :
    (fs.map fun f => f.trade traderId) = gs.map fun f => f.trade traderId := by
  have hforget : ∀ hs : List Fill, (hs.map fun f => f.trade traderId) =
      (hs.map forgetFill).map fun f => f.trade traderId := by
    intro hs
    rw [List.map_map]
    rfl
  rw [hforget fs, h, ← hforget gs]

def outcome (x : Answer) : IngressPacket × List EgressPacket × List Trade :=
  (x.packet, x.reports, x.fills.map tradeOf)

theorem consumed_alike (h : Consumed a packet x a') (h' : Consumed b packet y b') (hab : forget a = forget b) :
    forget a' = forget b' ∧ outcome x = outcome y := by
  have hlen := length_alike hab
  cases h with
  | rejected hno =>
      cases h' with
      | rejected => exact ⟨hab, rfl⟩
      | accepted ht hl => exact absurd (hno ht) (by omega)
  | accepted ht hl hm htrades =>
      cases h' with
      | rejected hno => exact absurd (hno ht) (by omega)
      | accepted _ _ hm' htrades' =>
          obtain ⟨hab', rfl, hfs⟩ := matched_alike hm hm' hab
          refine ⟨restResidue_alike hab' rfl, ?_⟩
          simp only [outcome]
          rw [htrades, htrades', trades_alike hfs]

end Forget

section Enters

/-- An order with an undefined side that gets a slot and asks for something. -/
def Enters (j : Journal) (packet : IngressPacket) : Prop :=
  packet.type = newOrder ∧ ¬ Defined packet.side ∧ 0 < packet.quantity ∧ 0 ≤ j.core.engine.pool.top

instance (j : Journal) (packet : IngressPacket) : Decidable (Enters j packet) :=
  inferInstanceAs (Decidable (packet.type = newOrder ∧ ¬ Defined packet.side ∧ 0 < packet.quantity ∧
    0 ≤ j.core.engine.pool.top))

def AllDefined (a : Levels) : Prop := ∀ p, ∀ r ∈ a.levels p, Defined r.side

variable {j : Journal} {a a' : Levels} {packet : IngressPacket} {x : Answer}

theorem restingOrders_defined_iff (h : Stands j a) :
    (∀ o ∈ j.core.engine.restingOrders, Defined o.side) ↔ AllDefined a := by
  have hsides := restingOrders_eq h.toConsistent Order.side Resting.side fun p r o ho => ho.side
  have hmem : (∀ t ∈ j.core.engine.restingOrders.map Order.side, Defined t) ↔
      ∀ t ∈ (restingIn a).map Resting.side, Defined t := by rw [hsides]
  rw [List.forall_mem_map, List.forall_mem_map] at hmem
  rw [hmem]
  constructor
  · exact fun hr p r hp => hr r ((mem_restingIn h.bounded).mpr ⟨p, hp⟩)
  · intro hr r hm
    obtain ⟨p, hp⟩ := (mem_restingIn h.bounded).mp hm
    exact hr p r hp

theorem enters_iff (h : Stands j a) : Enters j packet ↔
    packet.type = newOrder ∧ ¬ Defined packet.side ∧ 0 < packet.quantity.toNat ∧ (restingIn a).length < 1000000 := by
  have htop : 0 ≤ j.core.engine.pool.top ↔ (restingIn a).length < 1000000 := by
    have hne := top_nonneg_iff h.toConsistent
    have hle := h.length_le
    exact hne.trans ⟨Nat.lt_of_le_of_ne hle, Nat.ne_of_lt⟩
  rw [Enters, htop]
  exact Iff.rfl

theorem matched_undefined {price quantity left : Nat} {side : UInt8} {fs : List Fill}
    (h : Matched price side a quantity a' left fs) (hside : ¬ Defined side) :
    a' = a ∧ left = quantity ∧ fs = [] := by
  cases h with
  | buy => exact absurd (.inl rfl) hside
  | sell => exact absurd (.inr rfl) hside
  | other => exact ⟨rfl, rfl, rfl⟩

theorem consumed_defined (h : Stands j a) (hno : ¬ Enters j packet) (hc : Consumed a packet x a')
    (ha : AllDefined a) : AllDefined a' := by
  refine hc.resting (Q := fun side _ => Defined side) ha fun ht hl hq => ?_
  exact Classical.not_not.mp fun hside => hno ((enters_iff h).mpr ⟨ht, hside, hq, hl⟩)

theorem consumed_undefined (h : Stands j a) (hin : Enters j packet) (hc : Consumed a packet x a') :
    ¬ AllDefined a' := by
  obtain ⟨ht, hside, hq, hl⟩ := (enters_iff h).mp hin
  cases hc with
  | rejected hno => exact absurd (hno ht) (by omega)
  | @accepted slot id b left fs gs _ _ hm =>
      intro hall
      obtain ⟨-, hleft, -⟩ := matched_undefined hm hside
      refine hside (hall packet.price.toNat { ofCall (call packet (process packet)) slot id with quantity := left } ?_)
      rw [restResidue, if_pos (by omega)]
      exact Levels.mem_enqueue.mpr (.inr ⟨rfl, rfl⟩)

theorem consumed_idle (h : Stands j a) (hside : ¬ Defined packet.side) (hno : ¬ Enters j packet)
    (hc : Consumed a packet x a') : a' = a := by
  cases hc with
  | rejected => rfl
  | @accepted slot id b left fs gs ht hl hm =>
      have hzero : packet.quantity.toNat = 0 :=
        Nat.eq_zero_of_not_pos fun hq => hno ((enters_iff h).mpr ⟨ht, hside, hq, hl⟩)
      obtain ⟨rfl, hleft, -⟩ := matched_undefined hm hside
      rw [restResidue, if_neg (by omega)]

theorem consumed_fills (hc : Consumed a packet x a') (ha : AllDefined a) :
    ∀ g ∈ x.fills, Defined g.1.side ∧ Defined g.2.side := by
  cases hc with
  | rejected => simp
  | @accepted slot id b left fs gs ht hl hm htrades hsides =>
      intro g hg
      have hmem : (g.1.side, g.2.side) ∈ fs.map fun f => (f.maker.side, packet.side) :=
        hsides ▸ List.mem_map_of_mem hg
      obtain ⟨f, hf, he⟩ := List.mem_map.mp hmem
      obtain ⟨hmaker, htaker⟩ := Prod.mk.inj he
      refine ⟨hmaker ▸ ha f.price f.maker (hm.maker_mem hf), htaker ▸ Classical.not_not.mp fun hside => ?_⟩
      rw [(matched_undefined hm hside).2.2] at hf
      simp at hf

end Enters

section Runs

def others (answers : List Answer) : List Answer := answers.filter fun x => Defined x.packet.side

/-- The journal `j` of a run and the journal `k` of the same run without the
packets that have an undefined side. -/
structure Alike (j k : Journal) (a b : Levels) : Prop where
  left : Stands j a
  right : Stands k b
  books : forget a = forget b
  rest : AllDefined a
  fills : ∀ x ∈ j.answers, ∀ g ∈ x.fills, Defined g.1.side ∧ Defined g.2.side
  outcomes : (others j.answers).map outcome = k.answers.map outcome

theorem init_alike : Alike .init .init .empty .empty where
  left := init_stands
  right := init_stands
  books := rfl
  rest := by simp [AllDefined, Levels.empty]
  fills := by simp [Journal.init]
  outcomes := rfl

variable {j k : Journal} {a b : Levels} {packet : IngressPacket}

theorem others_append (answers : List Answer) (x : Answer) :
    others (answers ++ [x]) = others answers ++ if Defined x.packet.side then [x] else [] := by
  rw [others, List.filter_append, List.filter_singleton]
  simp [others]

theorem alike_both (h : Alike j k a b) (hp : packet.price.toNat ≤ maxPriceTicks) (hside : Defined packet.side) :
    ∃ j' k' a' b', j.consume packet = some j' ∧ k.consume packet = some k' ∧ Alike j' k' a' b' := by
  obtain ⟨j', x, a', hj, hx, -, hc, ha'⟩ := consume_levels h.left hp
  obtain ⟨k', y, b', hk, hy, -, hd, hb'⟩ := consume_levels h.right hp
  obtain ⟨hbooks, hout⟩ := consumed_alike hc hd h.books
  have hno : ¬ Enters j packet := fun he => he.2.1 hside
  refine ⟨j', k', a', b', hj, hk, ha', hb', hbooks, consumed_defined h.left hno hc h.rest, ?_, ?_⟩
  · rw [hx, List.forall_mem_append, List.forall_mem_singleton]
    exact ⟨h.fills, consumed_fills hc h.rest⟩
  · rw [hx, hy, others_append, hc.packet_eq, if_pos hside, List.map_append, List.map_append, h.outcomes,
      List.map_singleton, List.map_singleton, hout]

theorem alike_left (h : Alike j k a b) (hp : packet.price.toNat ≤ maxPriceTicks) (hside : ¬ Defined packet.side)
    (hno : ¬ Enters j packet) : ∃ j', j.consume packet = some j' ∧ Alike j' k a b := by
  obtain ⟨j', x, a', hj, hx, -, hc, ha'⟩ := consume_levels h.left hp
  obtain rfl := consumed_idle h.left hside hno hc
  refine ⟨j', hj, ha', h.right, h.books, h.rest, ?_, ?_⟩
  · rw [hx, List.forall_mem_append, List.forall_mem_singleton]
    exact ⟨h.fills, consumed_fills hc h.rest⟩
  · rw [hx, others_append, hc.packet_eq, if_neg hside, List.append_nil, h.outcomes]

theorem run_alike {packets : List IngressPacket} (h : Alike j k a b)
    (hp : ∀ p ∈ packets, p.price.toNat ≤ maxPriceTicks)
    (hno : Runs.Along Journal.consume (fun j p => ¬ Enters j p) j packets) :
    ∃ j' k' a' b', Runs.run Journal.consume j packets = some j' ∧
      Runs.run Journal.consume k (packets.filter fun p => Defined p.side) = some k' ∧ Alike j' k' a' b' := by
  induction packets generalizing j k a b with
  | nil => exact ⟨j, k, a, b, rfl, rfl, h⟩
  | cons p packets ih =>
      obtain ⟨hprice, hp⟩ := List.forall_mem_cons.mp hp
      by_cases hside : Defined p.side
      · obtain ⟨j₁, k₁, a₁, b₁, hj, hk, h₁⟩ := alike_both h hprice hside
        obtain ⟨j', k', a', b', hr, hr', h'⟩ := ih h₁ hp (hno.2 j₁ hj)
        refine ⟨j', k', a', b', ?_, ?_, h'⟩
        · rw [Runs.run_cons, hj, Option.bind_some, hr]
        · rw [List.filter_cons_of_pos (by simpa using hside), Runs.run_cons, hk, Option.bind_some, hr']
      · obtain ⟨j₁, hj, h₁⟩ := alike_left h hprice hside hno.1
        obtain ⟨j', k', a', b', hr, hr', h'⟩ := ih h₁ hp (hno.2 j₁ hj)
        refine ⟨j', k', a', b', ?_, ?_, h'⟩
        · rw [Runs.run_cons, hj, Option.bind_some, hr]
        · rw [List.filter_cons_of_neg (by simpa using hside), hr']

def Regular (j : Journal) : Prop := ∃ a, Stands j a ∧ AllDefined a

theorem never_rests_iff {packets : List IngressPacket} (hp : ∀ p ∈ packets, p.price.toNat ≤ maxPriceTicks) {t : Journal}
    (hr : Journal.after packets = some t) :
    (∀ before after t, packets = before ++ after → Journal.after before = some t →
        ∀ o ∈ t.core.engine.restingOrders, Defined o.side) ↔
      Runs.Along Journal.consume (fun j p => ¬ Enters j p) .init packets := by
  have hinit : Regular .init := ⟨.empty, init_alike.left, init_alike.rest⟩
  refine Runs.always_iff_along ?_ ?_ ?_ hinit hr
  · rintro j ⟨a, ha, hall⟩
    exact (restingOrders_defined_iff ha).mpr hall
  · rintro j p hm j' ⟨a, ha, hall⟩ hno hj
    obtain ⟨j₁, x, a', hj₁, -, -, hc, ha'⟩ := consume_levels ha (hp p hm)
    obtain rfl : j₁ = j' := Option.some.inj (hj₁.symm.trans hj)
    exact ⟨a', ha', consumed_defined ha hno hc hall⟩
  · rintro j p hm j' ⟨a, ha, hall⟩ hin hj
    obtain ⟨j₁, x, a', hj₁, -, -, hc, ha'⟩ := consume_levels ha (hp p hm)
    obtain rfl : j₁ = j' := Option.some.inj (hj₁.symm.trans hj)
    rw [restingOrders_defined_iff ha']
    exact consumed_undefined ha hin hc

/-- Orders with an undefined side neither rest nor trade nor change what the
other orders do, exactly if none of them gets a slot with something to ask. The
queues of the engine are taken to be long enough for every packet. -/
theorem undefined_sides_stay_out_iff {packets : List IngressPacket}
    (hp : ∀ p ∈ packets, p.price.toNat ≤ maxPriceTicks) :
    (∃ j k, Journal.after packets = some j ∧ Journal.after (packets.filter fun p => Defined p.side) = some k ∧
        (∀ before after t, packets = before ++ after → Journal.after before = some t →
          ∀ o ∈ t.core.engine.restingOrders, Defined o.side) ∧
        (∀ x ∈ j.answers, ∀ g ∈ x.fills, Defined g.1.side ∧ Defined g.2.side) ∧
        (j.answers.filter fun x => Defined x.packet.side).map outcome = k.answers.map outcome) ↔
      Runs.Along Journal.consume (fun j p => ¬ Enters j p) .init packets := by
  constructor
  · rintro ⟨j, -, hj, -, hrest, -⟩
    exact (never_rests_iff hp hj).mp hrest
  · intro hno
    obtain ⟨j, k, a, b, hj, hk, h⟩ := run_alike init_alike hp hno
    exact ⟨j, k, hj, hk, (never_rests_iff hp hj).mpr hno, h.fills, h.outcomes⟩

def withIdle : List IngressPacket :=
  [⟨1, 2, 1, 6, 0, 100, 8⟩, ⟨1, 1, 1, 7, 5, 100, 9⟩, ⟨1, 0, 1, 8, 5, 100, 10⟩]

theorem undefined_sides_stay_out_iff_idle :
    ∃ j k, Journal.after withIdle = some j ∧ Journal.after (withIdle.filter fun p => Defined p.side) = some k ∧
      (∀ before after t, withIdle = before ++ after → Journal.after before = some t →
        ∀ o ∈ t.core.engine.restingOrders, Defined o.side) ∧
      (∀ x ∈ j.answers, ∀ g ∈ x.fills, Defined g.1.side ∧ Defined g.2.side) ∧
      (j.answers.filter fun x => Defined x.packet.side).map outcome = k.answers.map outcome := by
  have hprice : ∀ p ∈ withIdle, p.price.toNat ≤ maxPriceTicks := by
    rw [maxPriceTicks]
    decide
  have hno : Runs.Along Journal.consume (fun j p => ¬ Enters j p) .init withIdle := by decide +kernel
  exact (undefined_sides_stay_out_iff hprice).mpr hno

def intruder : List IngressPacket :=
  [⟨1, 2, 1, 6, 5, 100, 8⟩, ⟨1, 1, 1, 7, 5, 100, 9⟩, ⟨1, 0, 1, 8, 5, 100, 10⟩]

/-- The buy trades with the order that has no defined side, and no longer with
the sell. -/
theorem undefined_side_trades :
    (∃ j, Journal.after intruder = some j ∧
      j.answers.map (fun x => x.fills.map fun g => (g.1.side, tradeOf g)) = [[], [], [(2, ⟨6, 8, 100, 5⟩)]]) ∧
    ∃ k, Journal.after (intruder.filter fun p => Defined p.side) = some k ∧
      k.answers.map (fun x => x.fills.map fun g => (g.1.side, tradeOf g)) = [[], [(1, ⟨7, 8, 100, 5⟩)]] := by
  have hj : (Journal.after intruder).map
      (fun j => j.answers.map fun x => x.fills.map fun g => (g.1.side, tradeOf g)) =
      some [[], [], [(2, ⟨6, 8, 100, 5⟩)]] := by decide +kernel
  have hk : (Journal.after (intruder.filter fun p => Defined p.side)).map
      (fun j => j.answers.map fun x => x.fills.map fun g => (g.1.side, tradeOf g)) =
      some [[], [(1, ⟨7, 8, 100, 5⟩)]] := by decide +kernel
  exact ⟨Option.map_eq_some_iff.mp hj, Option.map_eq_some_iff.mp hk⟩

end Runs

end Sequitur.UndefinedSides
