import Sequitur.Sessions

namespace Sequitur.Exhaustion

open OrderBook LevelBook Accounting MatchingEngine EngineStep Sessions

def Exhausted (n : Nat) (s : Session) (a : Levels) : Prop := Ready n s a ∧ (restingIn a).length = n

theorem clear_of_empty {e : Engine} (h : e.market.execQ.items = []) : e.clearExecutionQueue = e := by
  have hq : e.market.execQ.clear = e.market.execQ := by
    rw [FixedQueue.clear, ← h]
  rw [Engine.clearExecutionQueue, hq]

theorem submit_exhausted {n : Nat} {s : Session} {a : Levels} (h : Exhausted n s a) (c : Call) :
    ∃ s', s.submit c = some s' ∧ Exhausted n s' a ∧ s'.log = s.log ++ [⟨c, false, []⟩] ∧
      s'.engine = { s.engine with pool := s.engine.pool.failed 1 } := by
  obtain ⟨hready, hfull⟩ := h
  obtain ⟨hr, hc⟩ := submitOrder_rejects hready.toConsistent c hfull
  refine ⟨⟨{ s.engine with pool := s.engine.pool.failed 1 }.clearExecutionQueue, s.log ++ [⟨c, false, []⟩]⟩, ?_,
    ⟨⟨consistent_clear hc, rfl⟩, hfull⟩, rfl, ?_⟩
  · simp only [Session.submit, hr, Option.map_some, hready.execQ]
  · exact clear_of_empty (e := { s.engine with pool := s.engine.pool.failed 1 }) hready.execQ

theorem run_exhausted {n : Nat} {s : Session} {a : Levels} (h : Exhausted n s a) (calls : List Call) :
    ∃ t, Runs.run Session.submit s calls = some t ∧ t.log = s.log ++ calls.map (fun c => ⟨c, false, []⟩) ∧
      t.engine = { s.engine with pool := s.engine.pool.failed calls.length } := by
  induction calls generalizing s with
  | nil => exact ⟨s, rfl, (List.append_nil _).symm, by simp [ObjectPool.failed]⟩
  | cons c calls ih =>
      obtain ⟨s', hs, hex, hlog, hengine⟩ := submit_exhausted h c
      obtain ⟨t, ht, htlog, htengine⟩ := ih hex
      refine ⟨t, ?_, ?_, ?_⟩
      · rw [Runs.run_cons, hs]
        exact ht
      · rw [htlog, hlog, List.map_cons, List.append_assoc]
        rfl
      · rw [htengine, hengine, ObjectPool.failed_failed, Nat.add_comm, List.length_cons]

/-- A call is rejected only when the pool is exhausted, and then it stays so:
slots come back only by matching, and without a slot nothing is matched. -/
theorem after_exhausted {n : Nat} (hn : n ≤ 2 ^ 32) {calls : List Call}
    (hc : ∀ c ∈ calls, c.price.toNat ≤ maxPriceTicks) :
    ∃ s a, Session.after n calls = some s ∧ Ready n s a ∧
      ((∃ x ∈ s.log, x.accepted = false) → (restingIn a).length = n) := by
  refine after_induction hn (fun _ h => h) (by simp [Session.init]) (fun s a c s' a' _ _ h hs => ?_) hc
  cases hs with
  | rejected hl => exact fun _ => hl
  | accepted hl =>
      rintro ⟨x, hx, hr⟩
      rcases List.mem_append.mp hx with hx | hx
      · exact absurd (h ⟨x, hx, hr⟩) (Nat.ne_of_lt hl)
      · obtain rfl := List.mem_singleton.mp hx
        simp at hr

/-- After its first rejection an engine rejects every call for ever, of
whatever price, side and quantity: it trades nothing more, and nothing of it
changes but the number of its failures. -/
theorem rejection_is_final {n : Nat} (hn : n ≤ 2 ^ 32) {calls : List Call}
    (hc : ∀ c ∈ calls, c.price.toNat ≤ maxPriceTicks) {s : Session} (hs : Session.after n calls = some s)
    (hr : ∃ x ∈ s.log, x.accepted = false) (later : List Call) :
    ∃ t, Session.after n (calls ++ later) = some t ∧ t.log = s.log ++ later.map (fun c => ⟨c, false, []⟩) ∧
      t.engine = { s.engine with pool :=
        { s.engine.pool with allocFailures := s.engine.pool.allocFailures + UInt64.ofNat later.length } } := by
  obtain ⟨s₀, a, hs₀, hready, hfull⟩ := after_exhausted hn hc
  obtain rfl := Option.some.inj (hs₀.symm.trans hs)
  obtain ⟨t, ht, hlog, hengine⟩ := run_exhausted ⟨hready, hfull hr⟩ later
  exact ⟨t, Runs.run_trans hs ht, hlog, hengine⟩

theorem rejection_is_final_single :
    ∃ s t, Session.after 1 [⟨0, 5, 1, 7⟩, ⟨0, 5, 1, 7⟩] = some s ∧
      Session.after 1 [⟨0, 5, 1, 7⟩, ⟨0, 5, 1, 7⟩, ⟨1, 5, 1, 8⟩] = some t ∧
      t.log = s.log ++ [⟨⟨1, 5, 1, 8⟩, false, []⟩] ∧ t.engine.market = s.engine.market ∧
      t.engine.pool.allocFailures = s.engine.pool.allocFailures + 1 := by
  have hrun : (Session.after 1 [⟨0, 5, 1, 7⟩, ⟨0, 5, 1, 7⟩]).map Session.log =
      some [⟨⟨0, 5, 1, 7⟩, true, []⟩, ⟨⟨0, 5, 1, 7⟩, false, []⟩] := by decide +kernel
  obtain ⟨s, hs, hlog⟩ := Option.map_eq_some_iff.mp hrun
  obtain ⟨t, ht, htlog, hengine⟩ :=
    rejection_is_final (by decide) (by decide +kernel) hs (by rw [hlog]; simp) [⟨1, 5, 1, 8⟩]
  exact ⟨s, t, hs, ht, htlog, by rw [hengine], by rw [hengine]; rfl⟩

end Sequitur.Exhaustion
