import Sequitur.Sessions

namespace Sequitur.Histories

open OrderBook LevelBook Abstraction Simulation Accounting MatchingEngine Sessions

/-- The ghost records of a market only grow. -/
structure Extends (m m' : Market) : Prop where
  touched : m.touched <+: m'.touched
  fills : m.fills <+: m'.fills
  execQ : m.execQ.pushedAt <+: m'.execQ.pushedAt
  trashQ : m.trashQ.pushedAt <+: m'.trashQ.pushedAt

theorem Extends.refl (m : Market) : Extends m m :=
  ⟨List.prefix_rfl, List.prefix_rfl, List.prefix_rfl, List.prefix_rfl⟩

theorem Extends.trans {m m' m'' : Market} (h : Extends m m') (h' : Extends m' m'') : Extends m m'' :=
  ⟨h.touched.trans h'.touched, h.fills.trans h'.fills, h.execQ.trans h'.execQ, h.trashQ.trans h'.trashQ⟩

theorem insertOrder_extends (m : Market) (o : Nat) : Extends m (m.insertOrder o) := by
  rw [insertOrder_frame]
  exact ⟨List.prefix_append _ _, List.prefix_rfl, List.prefix_rfl, List.prefix_rfl⟩

theorem removeOrder_extends (m : Market) (o : Nat) : Extends m (m.removeOrder o) := by
  rw [removeOrder_frame]
  exact ⟨List.prefix_append _ _, List.prefix_rfl, List.prefix_rfl, List.prefix_rfl⟩

theorem fill_extends (m : Market) (p inc o : Nat) : Extends m (m.fill p inc o) := by
  have ht : Extends m (traded m p inc o) :=
    ⟨List.prefix_rfl, List.prefix_append _ _, List.prefix_append _ _, List.prefix_rfl⟩
  rw [fill_eq]
  split
  · refine Extends.trans ?_ (removeOrder_extends _ o)
    exact ⟨ht.touched, ht.fills, ht.execQ, List.prefix_append _ _⟩
  · exact ht

theorem touch_extends (m : Market) (p : Nat) : Extends m (m.touch p) :=
  ⟨List.prefix_append _ _, List.prefix_rfl, List.prefix_rfl, List.prefix_rfl⟩

theorem advance_extends (d : Sweep) (m : Market) : Extends m (d.advance m) := by
  obtain ⟨h₁, h₂, h₃, h₄⟩ := Extends.refl m
  cases d <;> exact ⟨h₁, h₂, h₃, h₄⟩

theorem sweep_extends {d : Sweep} {inc fuel : Nat} {m m' : Market} (h : sweep d inc fuel m = some m') :
    Extends m m' := by
  induction fuel generalizing m with
  | zero => simp [sweep] at h
  | succ fuel ih =>
      have htouch := touch_extends m (d.cursor m).toNat
      rw [sweep] at h
      split at h
      · dsimp only at h
        split at h
        · split at h
          · exact Option.some.inj h ▸ htouch
          · exact htouch.trans ((advance_extends d _).trans (ih h))
        · exact htouch.trans ((fill_extends _ _ _ _).trans (ih h))
      · exact Option.some.inj h ▸ .refl m

theorem matchOrder_extends {m m' : Market} {inc : Nat} (h : matchOrder m inc = some m') : Extends m m' := by
  obtain ⟨n, hn, hm⟩ := Option.map_eq_some_iff.mp h
  have hloop : Extends m n := by
    simp only [matchLoop] at hn
    split at hn
    · exact sweep_extends hn
    · split at hn
      · exact sweep_extends hn
      · exact Option.some.inj hn ▸ .refl m
  split at hm
  · exact hm ▸ hloop.trans (insertOrder_extends n inc)
  · exact hm ▸ hloop

theorem submit_extends {s s' : Session} {c : Call} (h : s.submit c = some s') :
    Extends s.engine.market s'.engine.market := by
  obtain ⟨⟨e, r⟩, hr, rfl⟩ := Option.map_eq_some_iff.mp h
  have he : Extends s.engine.market e.market := by
    rw [submitOrder] at hr
    split at hr
    · obtain ⟨rfl, -⟩ := Prod.mk.inj (Option.some.inj hr)
      exact .refl _
    · obtain ⟨m, hm, he⟩ := Option.map_eq_some_iff.mp hr
      obtain ⟨rfl, -⟩ := Prod.mk.inj he
      obtain ⟨h₁, h₂, h₃, h₄⟩ := matchOrder_extends hm
      exact ⟨h₁, h₂, h₃, h₄⟩
  exact ⟨he.touched, he.fills, he.execQ, he.trashQ⟩

/-- Suppose that a property of the records survives a call exactly if the call
is not bad. Then it holds after a session exactly if no call of it was bad. -/
theorem after_good_iff {n : Nat} (hn : n ≤ 2 ^ 32) {Inv : Levels → Prop} {Good : Market → Prop}
    {Bad : Engine → Call → Prop} {calls : List Call} (hinit : Inv .empty)
    (hgood : Good (Market.init fun _ => .zero)) (hgrow : ∀ m m', Extends m m' → Good m' → Good m)
    (hstep : ∀ s a, ∀ c ∈ calls, ∀ s' a', Ready n s a → Inv a → Submitted n s c a s' a' →
      (Good s'.engine.market ↔ Good s.engine.market ∧ ¬ Bad s.engine c) ∧
        (¬ Bad s.engine c → Bounded a' ∧ Inv a')) :
    (∃ s, Session.after n calls = some s ∧ Good s.engine.market) ↔
      Runs.Along Session.submit (fun s c => ¬ Bad s.engine c) (.init n) calls := by
  have hinv : ∀ s, (∃ a, Ready n s a ∧ Inv a ∧ Good s.engine.market) → Good s.engine.market := by
    rintro s ⟨-, -, -, hg⟩
    exact hg
  refine Runs.run_good_iff hinv ?_ ?_ ?_ ⟨.empty, init_ready hn, hinit, hgood⟩
  · rintro s c hm ⟨a, hr, hi, hg⟩ hb
    obtain ⟨s', a', hs, hsub, hready⟩ := submit_steps hr c
    obtain ⟨hiff, hkeep⟩ := hstep s a c hm s' a' hr hi hsub
    exact ⟨s', hs, a', hready (hkeep hb).1, (hkeep hb).2, hiff.mpr ⟨hg, hb⟩⟩
  · rintro s c hm ⟨a, hr, hi, -⟩ hb s' hs' hg
    obtain ⟨s'', a', hs, hsub, -⟩ := submit_steps hr c
    obtain rfl : s'' = s' := Option.some.inj (hs.symm.trans hs')
    exact hb ((hstep s a c hm s'' a' hr hi hsub).1.mp hg).2
  · exact fun s c s' hs => hgrow _ _ (submit_extends hs)

end Sequitur.Histories
