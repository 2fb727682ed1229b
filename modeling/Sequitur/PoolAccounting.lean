import Sequitur.SlotStack
import Sequitur.Runs

namespace Sequitur.PoolAccounting

open SlotStack

/-- An `ObjectPool` in its machine types. `freeIndices` is the memory around the
array, by the index that is added to its address, and `accessed` records every
index that was used. -/
structure Pool where
  freeIndices : Int → UInt32
  top : Int64
  capacity : UInt64
  usedCount : UInt64
  allocFailures : UInt64
  peakUsage : UInt64
  accessed : List Int

namespace Pool

def write (p : Pool) (i : Int) (idx : UInt32) : Pool :=
  { p with freeIndices := Function.update p.freeIndices i idx, accessed := p.accessed ++ [i] }

def fill (p : Pool) (k : Nat) : Pool := (List.range k).foldl (fun p (i : Nat) => p.write i (.ofNat i)) p

/-- The constructor. The new array has any contents, and `cap - 1` is an
unsigned number. -/
def init (memory : Int → UInt32) (cap : UInt64) : Pool :=
  { fill ⟨memory, 0, cap, 0, 0, 0, []⟩ cap.toNat with top := (cap - 1).toInt64 }

/-- The loop that raises `peak_usage`. Its first `spurious` exchanges fail, and
each failure loads the current value; nobody else writes it. -/
def raisePeak (obsUsedCount : UInt64) : Nat → UInt64 → UInt64 → UInt64
  | 0, peakUsage, obsPeakUsage =>
      if obsUsedCount > obsPeakUsage then
        if peakUsage = obsPeakUsage then obsUsedCount
        else if obsUsedCount > peakUsage then obsUsedCount else peakUsage
      else peakUsage
  | spurious + 1, peakUsage, obsPeakUsage =>
      if obsUsedCount > obsPeakUsage then raisePeak obsUsedCount spurious peakUsage peakUsage else peakUsage

def acquire (p : Pool) (spurious : Nat) : Pool × Option Nat :=
  if p.top < 0 then ({ p with allocFailures := p.allocFailures + 1 }, none)
  else
    let oldCount := p.usedCount
    let obsUsedCount := oldCount + 1
    let obsPeakUsage := p.peakUsage
    let idx := p.freeIndices p.top.toInt
    ({ p with
        usedCount := oldCount + 1
        peakUsage := raisePeak obsUsedCount spurious p.peakUsage obsPeakUsage
        accessed := p.accessed ++ [p.top.toInt]
        top := p.top - 1 }, some idx.toNat)

def release (p : Pool) (ptr : Option Nat) : Pool :=
  match ptr with
  | none => p
  | some slot =>
      let top := p.top + 1
      { p.write top.toInt (.ofNat slot) with usedCount := p.usedCount - 1, top := top }

def toObjectPool (p : Pool) : ObjectPool where
  freeIndices := fun i => p.freeIndices i
  top := p.top.toInt
  capacity := p.capacity.toNat
  usedCount := p.usedCount
  allocFailures := p.allocFailures
  peakUsage := p.peakUsage

end Pool

inductive Event
  | acquired (ptr : Option Nat)
  | released (ptr : Option Nat)
  deriving DecidableEq

def Event.apply (live : List Nat) : Event → List Nat
  | .acquired (some slot) => slot :: live
  | .released (some slot) => live.erase slot
  | .acquired none | .released none => live

def live (history : List Event) : List Nat := history.foldl Event.apply []

def nulls (history : List Event) : Nat := history.count (.acquired none)

def counts (history : List Event) : Set Nat := {k | ∃ before, before <+: history ∧ (live before).length = k}

structure State where
  pool : Pool
  history : List Event

def State.init (memory : Int → UInt32) (cap : UInt64) : State := ⟨.init memory cap, []⟩

inductive Call
  | acquire (spurious : Nat)
  | release (ptr : Option Nat)

def Allowed (s : State) (ptr : Option Nat) : Prop := ∀ slot ∈ ptr, slot ∈ live s.history

instance (s : State) (ptr : Option Nat) : Decidable (Allowed s ptr) :=
  inferInstanceAs (Decidable (∀ slot ∈ ptr, _))

def step (s : State) : Call → Option State
  | .acquire spurious =>
      some ⟨(s.pool.acquire spurious).1, s.history ++ [.acquired (s.pool.acquire spurious).2]⟩
  | .release ptr =>
      if Allowed s ptr then some ⟨s.pool.release ptr, s.history ++ [.released ptr]⟩ else none

section Histories

@[simp] theorem live_concat (history : List Event) (e : Event) : live (history ++ [e]) = e.apply (live history) := by
  rw [live, List.foldl_concat, live]

theorem counts_concat (history : List Event) (e : Event) :
    counts (history ++ [e]) = insert (e.apply (live history)).length (counts history) := by
  ext k
  constructor
  · rintro ⟨before, hb, rfl⟩
    rcases List.prefix_concat_iff.mp hb with rfl | hb
    · exact .inl (by rw [live_concat])
    · exact .inr ⟨before, hb, rfl⟩
  · rintro (rfl | ⟨before, hb, rfl⟩)
    · exact ⟨_, List.prefix_rfl, by rw [live_concat]⟩
    · exact ⟨before, hb.trans (List.prefix_append _ _), rfl⟩

theorem isGreatest_concat {history : List Event} {k : Nat} (h : IsGreatest (counts history) k) {e : Event}
    (he : (e.apply (live history)).length ≤ (live history).length) :
    IsGreatest (counts (history ++ [e])) k := by
  have hk : (live history).length ≤ k := h.2 ⟨history, List.prefix_rfl, rfl⟩
  have hg := h.insert (e.apply (live history)).length
  rwa [counts_concat, ← Nat.max_eq_right (Nat.le_trans he hk)]

theorem nulls_concat_null (history : List Event) : nulls (history ++ [.acquired none]) = nulls history + 1 := by
  rw [nulls, List.count_append, List.count_singleton_self, nulls]

theorem nulls_concat_of_ne (history : List Event) {e : Event} (he : e ≠ .acquired none) :
    nulls (history ++ [e]) = nulls history := by
  have hzero : [e].count (.acquired none) = 0 := List.count_eq_zero_of_not_mem (by simpa using he.symm)
  rw [nulls, List.count_append, hzero, Nat.add_zero, nulls]

end Histories

section Refinement

variable {p : Pool}

theorem raisePeak_eq (obsUsedCount peakUsage : UInt64) (spurious : Nat) :
    Pool.raisePeak obsUsedCount spurious peakUsage peakUsage =
      if obsUsedCount > peakUsage then obsUsedCount else peakUsage := by
  induction spurious with
  | zero =>
      rw [Pool.raisePeak, if_pos rfl]
  | succ spurious ih =>
      rw [Pool.raisePeak, ih]
      split <;> rfl

theorem toInt_sub_one {top : Int64} (h : 0 ≤ top.toInt) : (top - 1).toInt = top.toInt - 1 := by
  have hlt := top.toInt_lt
  rw [Int64.toInt_sub, Int64.toInt_one]
  apply Int.bmod_eq_of_le_mul_two <;> push_cast <;> omega

theorem toInt_add_one {top : Int64} (h : -1 ≤ top.toInt) (hlt : top.toInt < 2 ^ 32) :
    (top + 1).toInt = top.toInt + 1 := by
  rw [Int64.toInt_add, Int64.toInt_one]
  apply Int.bmod_eq_of_le_mul_two <;> push_cast <;> omega

theorem acquire_toObjectPool (p : Pool) (spurious : Nat) :
    (p.acquire spurious).1.toObjectPool = p.toObjectPool.acquire.1 ∧
      (p.acquire spurious).2 = p.toObjectPool.acquire.2 := by
  have htop : p.top < 0 ↔ p.toObjectPool.top < 0 := Int64.lt_iff_toInt_lt
  rw [Pool.acquire, ObjectPool.acquire]
  by_cases h : p.top < 0
  · rw [if_pos h, if_pos (htop.mp h)]
    exact ⟨rfl, rfl⟩
  · rw [if_neg h, if_neg (mt htop.mpr h)]
    have hnn : 0 ≤ p.top.toInt := by
      rw [htop] at h
      exact Int.not_lt.mp h
    have hidx : (p.top.toInt.toNat : Int) = p.top.toInt := Int.toNat_of_nonneg hnn
    constructor
    · simp only [Pool.toObjectPool, toInt_sub_one hnn, raisePeak_eq]
      rfl
    · simp only [Pool.toObjectPool, hidx]

theorem acquire_counters (h : ¬ p.top < 0) (spurious : Nat) :
    (p.acquire spurious).1.peakUsage =
        (if p.usedCount + 1 > p.peakUsage then p.usedCount + 1 else p.peakUsage) ∧
      (p.acquire spurious).1.allocFailures = p.allocFailures ∧
      (p.acquire spurious).1.accessed = p.accessed ++ [p.top.toInt] := by
  rw [Pool.acquire, if_neg h]
  exact ⟨raisePeak_eq .., rfl, rfl⟩

theorem release_toObjectPool {slot : Nat} (h : -1 ≤ p.top.toInt) (hlt : p.top.toInt < 2 ^ 32) :
    (p.release (some slot)).toObjectPool = p.toObjectPool.release (some slot) := by
  have htop := toInt_add_one h hlt
  have hfree : (fun i : Nat => Function.update p.freeIndices (p.top.toInt + 1) (UInt32.ofNat slot) i) =
      Function.update (fun i : Nat => p.freeIndices i) (p.top.toInt + 1).toNat (UInt32.ofNat slot) := by
    funext i
    by_cases hi : (i : Int) = p.top.toInt + 1
    · rw [hi, Function.update_self, ← hi, Int.toNat_natCast, Function.update_self]
    · rw [Function.update_of_ne hi, Function.update_of_ne (by omega)]
  simp only [Pool.toObjectPool, Pool.release, Pool.write, ObjectPool.release, htop, hfree]

theorem toInt_init_top {cap : UInt64} (h : cap.toNat ≤ 2 ^ 32) : (cap - 1).toInt64.toInt = (cap.toNat : Int) - 1 := by
  have he : (cap - 1).toInt64.toInt = ((cap - 1).toNat : Int).bmod (2 ^ 64) :=
    BitVec.toInt_eq_toNat_bmod (cap - 1).toBitVec
  -- An empty pool starts at 2⁶⁴ - 1, which is -1 as a signed number.
  by_cases hc : cap.toNat = 0
  · obtain rfl : cap = 0 := UInt64.toNat_inj.mp hc
    rfl
  · have hpos : (1 : UInt64) ≤ cap := by
      rw [UInt64.le_iff_toNat_le, UInt64.toNat_one]
      exact Nat.one_le_iff_ne_zero.mpr hc
    rw [he, UInt64.toNat_sub_of_le _ _ hpos, UInt64.toNat_one, Int.bmod_eq_of_le_mul_two]
    all_goals push_cast [Nat.one_le_iff_ne_zero.mpr hc]
    all_goals omega

theorem fill_succ (p : Pool) (k : Nat) : p.fill (k + 1) = (p.fill k).write k (.ofNat k) := by
  rw [Pool.fill, List.range_succ, List.foldl_concat, Pool.fill]

theorem fill_freeIndices (p : Pool) {k i : Nat} (h : i < k) : (p.fill k).freeIndices i = .ofNat i := by
  induction k with
  | zero => omega
  | succ k ih =>
      rw [fill_succ]
      by_cases hi : i = k
      · rw [hi]
        exact Function.update_self ..
      · exact (Function.update_of_ne (by omega) ..).trans (ih (by omega))

theorem fill_frame (p : Pool) (k : Nat) :
    p.fill k = { p with
      freeIndices := (p.fill k).freeIndices
      accessed := p.accessed ++ (List.range k).map fun i : Nat => (i : Int) } := by
  induction k with
  | zero => simp [Pool.fill]
  | succ k ih =>
      rw [fill_succ, List.range_succ, List.map_append, ← List.append_assoc]
      rw [ih]
      rfl

theorem init_tracks {cap : UInt64} (h : cap.toNat ≤ 2 ^ 32) (memory : Int → UInt32) :
    Tracks cap.toNat (Pool.init memory cap).toObjectPool [] := by
  have htop : (Pool.init memory cap).toObjectPool.top = (ObjectPool.init cap.toNat).top := toInt_init_top h
  have hfree : (Pool.init memory cap).toObjectPool.freeSlots = (ObjectPool.init cap.toNat).freeSlots := by
    rw [ObjectPool.freeSlots, ObjectPool.freeSlots, htop]
    refine List.map_congr_left fun i hi => congrArg UInt32.toNat ?_
    have hlt : i < cap.toNat := by simpa [ObjectPool.init] using List.mem_range.mp hi
    exact fill_freeIndices _ hlt
  have hi := SlotStack.init_tracks h
  have hframe := fill_frame ⟨memory, 0, cap, 0, 0, 0, []⟩ cap.toNat
  refine ⟨h, ?_, htop ▸ hi.top, hfree ▸ hi.partition, ?_⟩
  · exact congrArg (fun p : Pool => p.capacity.toNat) hframe
  · exact congrArg Pool.usedCount hframe

end Refinement

structure Accounts (n : Nat) (s : State) : Prop where
  distinct : (live s.history).Nodup
  exhausted : ∀ spurious, (s.pool.acquire spurious).2 = none ↔ (live s.history).length = n
  balance : s.pool.top.toInt + 1 + s.pool.usedCount.toNat = n
  used : s.pool.usedCount.toNat = (live s.history).length
  peak : IsGreatest (counts s.history) s.pool.peakUsage.toNat
  failures : s.pool.allocFailures.toNat = nulls s.history % 2 ^ 64
  inside : ∀ i ∈ s.pool.accessed, 0 ≤ i ∧ i < n

structure Inv (n : Nat) (s : State) : Prop where
  tracks : Tracks n s.pool.toObjectPool (live s.history)
  peak : IsGreatest (counts s.history) s.pool.peakUsage.toNat
  failures : s.pool.allocFailures = .ofNat (nulls s.history)
  inside : ∀ i ∈ s.pool.accessed, 0 ≤ i ∧ i < n

section Invariant

variable {n : Nat} {s : State}

theorem init_inv {cap : UInt64} (h : cap.toNat ≤ 2 ^ 32) (memory : Int → UInt32) :
    Inv cap.toNat (.init memory cap) := by
  have hframe := fill_frame ⟨memory, 0, cap, 0, 0, 0, []⟩ cap.toNat
  have hcounts : counts [] = {0} := by
    ext k
    simp [counts, live, eq_comm]
  have hpeak : (State.init memory cap).pool.peakUsage = 0 := congrArg Pool.peakUsage hframe
  have haccessed : (State.init memory cap).pool.accessed = (List.range cap.toNat).map fun i : Nat => (i : Int) :=
    congrArg Pool.accessed hframe
  refine ⟨init_tracks h memory, ?_, congrArg Pool.allocFailures hframe, ?_⟩
  · rw [hpeak]
    exact hcounts ▸ isGreatest_singleton
  · rw [haccessed]
    intro i hi
    obtain ⟨j, hj, rfl⟩ := List.mem_map.mp hi
    have := List.mem_range.mp hj
    omega

theorem Inv.top (h : Inv n s) : s.pool.top.toInt + 1 + (live s.history).length = n ∧ -1 ≤ s.pool.top.toInt := by
  have hlen := h.tracks.length
  have htop : -1 ≤ s.pool.top.toInt := h.tracks.top
  have he : s.pool.toObjectPool.top = s.pool.top.toInt := rfl
  rw [he] at hlen
  omega

theorem Inv.used (h : Inv n s) : s.pool.usedCount.toNat = (live s.history).length := by
  have hused : s.pool.usedCount = .ofNat (live s.history).length := h.tracks.used
  have hfits := h.tracks.fits
  have htop := h.top
  rw [hused]
  exact UInt64.toNat_ofNat_of_lt' (by simp only [UInt64.size]; omega)

theorem Inv.null_iff (h : Inv n s) (spurious : Nat) :
    (s.pool.acquire spurious).2 = none ↔ (live s.history).length = n := by
  rw [(acquire_toObjectPool s.pool spurious).2, ← h.tracks.exhausted_iff, ObjectPool.acquire]
  split <;> simp [*]

theorem Inv.accounts (h : Inv n s) : Accounts n s where
  distinct := h.tracks.nodup.of_append_right
  exhausted := h.null_iff
  balance := by rw [h.used]; exact h.top.1
  used := h.used
  peak := h.peak
  failures := by rw [h.failures, UInt64.toNat_ofNat']
  inside := h.inside

theorem acquire_null_inv (h : Inv n s) (hl : (live s.history).length = n) (spurious : Nat) :
    Inv n ⟨(s.pool.acquire spurious).1, s.history ++ [.acquired (s.pool.acquire spurious).2]⟩ := by
  have htop : s.pool.top < 0 := by
    rw [Int64.lt_iff_toInt_lt]
    exact h.tracks.exhausted_iff.mpr hl
  have hacq : s.pool.acquire spurious = ({ s.pool with allocFailures := s.pool.allocFailures + 1 }, none) :=
    if_pos htop
  rw [hacq]
  refine ⟨?_, isGreatest_concat h.peak (Nat.le_refl _), ?_, h.inside⟩
  · rw [live_concat]
    exact (acquire_exhausted h.tracks hl).2
  · rw [nulls_concat_null, UInt64.ofNat_add, ← h.failures]
    rfl

theorem peak_toNat (h : Inv n s) :
    (if s.pool.usedCount + 1 > s.pool.peakUsage then s.pool.usedCount + 1 else s.pool.peakUsage).toNat =
      max ((live s.history).length + 1) s.pool.peakUsage.toNat := by
  have hfits := h.tracks.fits
  have htop := h.top
  have hused : (s.pool.usedCount + 1).toNat = (live s.history).length + 1 := by
    rw [UInt64.toNat_add, UInt64.toNat_one, h.used, Nat.mod_eq_of_lt (by omega)]
  split
  next hlt =>
    rw [gt_iff_lt, UInt64.lt_iff_toNat_lt] at hlt
    omega
  next hge =>
    rw [gt_iff_lt, UInt64.lt_iff_toNat_lt] at hge
    omega

theorem acquire_live_inv (h : Inv n s) (hl : (live s.history).length ≠ n) (spurious : Nat) :
    Inv n ⟨(s.pool.acquire spurious).1, s.history ++ [.acquired (s.pool.acquire spurious).2]⟩ := by
  obtain ⟨hbalance, hlow⟩ := h.top
  obtain ⟨p', slot, hp', htracks⟩ := acquire_tracks h.tracks (by omega)
  obtain ⟨hpool, hptr⟩ := acquire_toObjectPool s.pool spurious
  rw [hp'] at hpool hptr
  have htop : ¬ s.pool.top < 0 := by
    rw [Int64.lt_iff_toInt_lt, Int64.toInt_zero]
    omega
  obtain ⟨hpeak, hfailures, haccessed⟩ := acquire_counters htop spurious
  rw [hptr]
  refine ⟨?_, ?_, ?_, ?_⟩
  · rw [live_concat, hpool]
    exact htracks
  · rw [hpeak, peak_toNat h, counts_concat]
    exact h.peak.insert _
  · rw [hfailures, nulls_concat_of_ne _ (by simp)]
    exact h.failures
  · rw [haccessed]
    intro i hi
    rcases List.mem_append.mp hi with hi | hi
    · exact h.inside i hi
    · obtain rfl := List.mem_singleton.mp hi
      omega

theorem release_inv (h : Inv n s) {slot : Nat} (hm : slot ∈ live s.history) :
    Inv n ⟨s.pool.release (some slot), s.history ++ [.released (some slot)]⟩ := by
  obtain ⟨hbalance, hlow⟩ := h.top
  have hpos := List.length_pos_of_mem hm
  have hfits := h.tracks.fits
  -- The object was acquired, so there is room for its index above the top.
  have htracks := release_tracks (h.tracks.perm (List.perm_cons_erase hm))
  refine ⟨?_, isGreatest_concat h.peak List.length_erase_le, ?_, ?_⟩
  · rw [live_concat, release_toObjectPool hlow (by omega)]
    exact htracks
  · rw [nulls_concat_of_ne _ (by simp)]
    exact h.failures
  · intro i hi
    rcases List.mem_append.mp hi with hi | hi
    · exact h.inside i hi
    · rw [List.mem_singleton.mp hi, toInt_add_one hlow (by omega)]
      omega

theorem step_inv (call : Call) {s' : State} (h : Inv n s) (hs : step s call = some s') : Inv n s' := by
  cases call with
  | acquire spurious =>
      obtain rfl := Option.some.inj hs
      by_cases hl : (live s.history).length = n
      · exact acquire_null_inv h hl spurious
      · exact acquire_live_inv h hl spurious
  | release ptr =>
      rw [step] at hs
      split at hs
      next hallowed =>
        obtain rfl := Option.some.inj hs
        cases ptr with
        | none =>
            refine ⟨?_, isGreatest_concat h.peak (Nat.le_refl _), ?_, h.inside⟩
            · rw [live_concat]
              exact h.tracks
            · rw [nulls_concat_of_ne _ (by simp)]
              exact h.failures
        | some slot => exact release_inv h (hallowed slot rfl)
      next => cases hs

theorem run_inv {cap : UInt64} (hcap : cap.toNat ≤ 2 ^ 32) (memory : Int → UInt32) {calls : List Call}
    (hr : Runs.run step (.init memory cap) calls = some s) : Inv cap.toNat s :=
  Runs.run_invariant (fun _ call _ h hs => step_inv call h hs) (init_inv hcap memory) hr

end Invariant

/-- After any sequence of calls the counters agree with what the callers have
seen. The failures are counted modulo 2⁶⁴. -/
theorem pool_accounts {cap : UInt64} (hcap : cap.toNat ≤ 2 ^ 32) (memory : Int → UInt32) (calls : List Call)
    {s : State} (hr : Runs.run step (.init memory cap) calls = some s) : Accounts cap.toNat s :=
  (run_inv hcap memory hr).accounts

theorem pool_accounts_exhausted :
    ∃ s, Runs.run step (.init (fun _ => 0) 2)
        [.acquire 0, .acquire 3, .acquire 0, .release none, .release (some 1), .acquire 1] = some s ∧
      Accounts 2 s ∧ s.pool.allocFailures = 1 ∧ s.pool.peakUsage = 2 := by
  have hrun : (Runs.run step (.init (fun _ => 0) 2)
      [.acquire 0, .acquire 3, .acquire 0, .release none, .release (some 1), .acquire 1]).map
        (fun s => (s.pool.allocFailures, s.pool.peakUsage)) = some (1, 2) := by decide +kernel
  obtain ⟨s, hs, he⟩ := Option.map_eq_some_iff.mp hrun
  obtain ⟨hfailures, hpeak⟩ := Prod.mk.inj he
  have haccounts : Accounts (2 : UInt64).toNat s := pool_accounts (by decide) _ _ hs
  exact ⟨s, hs, haccounts, hfailures, hpeak⟩

theorem run_acquire_none (memory : Int → UInt32) (k : Nat) :
    ∃ s, Runs.run step (.init memory 0) (List.replicate k (.acquire 0)) = some s ∧
      s.history = List.replicate k (.acquired none) := by
  induction k with
  | zero => exact ⟨_, rfl, rfl⟩
  | succ k ih =>
      obtain ⟨s, hs, hh⟩ := ih
      have hinv : Inv (0 : UInt64).toNat s := run_inv (by decide) memory hs
      have hlive := hinv.top
      rw [UInt64.toNat_zero] at hlive
      have hnull : (s.pool.acquire 0).2 = none := (hinv.null_iff 0).mpr (by rw [UInt64.toNat_zero]; omega)
      have hstep : step s (.acquire 0) = some ⟨(s.pool.acquire 0).1, s.history ++ [.acquired none]⟩ := by
        rw [step, hnull]
      rw [List.replicate_succ', List.replicate_succ', ← hh]
      exact ⟨_, Runs.run_concat hs hstep, rfl⟩

/-- After 2⁶⁴ failures the counter is back at zero. -/
theorem failures_wrap :
    ∃ s, Runs.run step (.init (fun _ => 0) 0) (List.replicate (2 ^ 64) (.acquire 0)) = some s ∧
      nulls s.history = 2 ^ 64 ∧ s.pool.allocFailures = 0 := by
  obtain ⟨s, hs, hh⟩ := run_acquire_none (fun _ => 0) (2 ^ 64)
  have hinv : Inv (0 : UInt64).toNat s := run_inv (by decide) _ hs
  have hnulls : nulls s.history = 2 ^ 64 := by rw [nulls, hh, List.count_replicate_self]
  refine ⟨s, hs, hnulls, ?_⟩
  rw [hinv.failures, hnulls]
  rfl

end Sequitur.PoolAccounting
