import Sequitur.MetricsWorker
import Sequitur.RankSelection

namespace Sequitur.LatencyPercentiles

open MetricsWorker RankSelection

inductive Quantile
  | p50
  | p99
  | p999
  deriving DecidableEq

def share : Quantile → ℚ
  | .p50 => 50 / 100
  | .p99 => 99 / 100
  | .p999 => 999 / 1000

def target (t : Targets) : Quantile → UInt64
  | .p50 => t.p50
  | .p99 => t.p99
  | .p999 => t.p999

def found (s : Scan) : Quantile → Percentile
  | .p50 => s.p50
  | .p99 => s.p99
  | .p999 => s.p999

theorem found_p50 (s : Scan) : found s .p50 = s.p50 := rfl

theorem found_p99 (s : Scan) : found s .p99 = s.p99 := rfl

theorem found_p999 (s : Scan) : found s .p999 = s.p999 := rfl

def samples (latencyBuckets : Nat → UInt32) (v : Nat) : Nat := (latencyBuckets v).toNat

def bucketed (latencyBuckets : Nat → UInt32) : Nat := below (samples latencyBuckets) numBuckets

def shown (o : Option Nat) : Percentile := ⟨.ofNat (o.getD 0), o.isSome⟩

section Loop

variable (b : Nat → UInt32) (t : Targets)

theorem below_samples_lt {k : Nat} (hk : k ≤ numBuckets) : below (samples b) k < 2 ^ 64 := by
  have hle : below (samples b) k ≤ k * (2 ^ 32 - 1) :=
    below_le_mul (fun v => Nat.le_of_lt_succ (b v).toNat_lt) k
  rw [numBuckets] at hk
  have hmul := Nat.mul_le_mul_right (2 ^ 32 - 1) hk
  omega

theorem add_bucket (k : Nat) :
    UInt64.ofNat (below (samples b) k) + (b k).toUInt64 = .ofNat (below (samples b) (k + 1)) := by
  rw [below_succ, UInt64.ofNat_add, samples, UInt64.ofNat_uInt32ToNat]

theorem totalSamples_eq (w : Worker) :
    w.totalSamples = w.latencyOutliers + .ofNat (bucketed w.latencyBuckets) := by
  have hfold : ∀ k, (List.range k).foldl (fun total i => total + (w.latencyBuckets i).toUInt64)
      w.latencyOutliers = w.latencyOutliers + .ofNat (below (samples w.latencyBuckets) k) := by
    intro k
    induction k with
    | zero => simp
    | succ k ih =>
        rw [List.range_succ, List.foldl_append, ih, List.foldl_cons, List.foldl_nil, UInt64.add_assoc,
          add_bucket]
  exact hfold numBuckets

theorem visit_shown (target : UInt64) {k : Nat} (hk : k < numBuckets) :
    (shown (first (samples b) target.toNat k)).visit target (.ofNat (below (samples b) (k + 1))) k =
      shown (first (samples b) target.toNat (k + 1)) := by
  have hle : target ≤ .ofNat (below (samples b) (k + 1)) ↔ target.toNat ≤ below (samples b) (k + 1) := by
    rw [UInt64.le_iff_toNat_le, UInt64.toNat_ofNat_of_lt' (below_samples_lt b hk)]
  rw [first_succ, Percentile.visit]
  cases hf : first (samples b) target.toNat k with
  | some v => simp [shown]
  | none => by_cases ht : target.toNat ≤ below (samples b) (k + 1) <;> simp [shown, hle, ht]

def stateAt (k : Nat) : Scan where
  runningSum := .ofNat (below (samples b) k)
  p50 := shown (first (samples b) t.p50.toNat k)
  p99 := shown (first (samples b) t.p99.toNat k)
  p999 := shown (first (samples b) t.p999.toNat k)

theorem scanBucket_stateAt {k : Nat} (hk : k < numBuckets) :
    scanBucket b t (stateAt b t k) k = stateAt b t (k + 1) := by
  simp only [scanBucket, stateAt, add_bucket, visit_shown b _ hk]

theorem scanLoop_stateAt (n k : Nat) (hk : k + n = numBuckets) :
    ∃ j ≤ numBuckets, scanLoop b t (stateAt b t k) (List.range' k n) = stateAt b t j ∧
      (j = numBuckets ∨ ∃ v, first (samples b) t.p999.toNat j = some v) := by
  induction n generalizing k with
  | zero => exact ⟨k, by omega, rfl, Or.inl (by omega)⟩
  | succ n ih =>
      rw [List.range'_succ, scanLoop, scanBucket_stateAt b t (by omega)]
      by_cases hit : (stateAt b t (k + 1)).p999.hit
      · refine ⟨k + 1, by omega, if_pos hit, Or.inr ?_⟩
        exact Option.isSome_iff_exists.mp hit
      · obtain ⟨j, hj, hrun, hend⟩ := ih (k + 1) (by omega)
        exact ⟨j, hj, (if_neg hit).trans hrun, hend⟩

variable {b t}

/-- A percentile whose target is not above the highest one is searched for in
all buckets, in spite of the break. -/
theorem found_scan {q : Quantile} (hq : target t q ≤ t.p999) :
    found (scan b t) q = shown (first (samples b) (target t q).toNat numBuckets) := by
  obtain ⟨j, hj, hrun, hend⟩ := scanLoop_stateAt b t numBuckets 0 (Nat.zero_add _)
  have hscan : scan b t = stateAt b t j := by
    rw [scan, List.range_eq_range']
    exact hrun
  have hfound : found (stateAt b t j) q = shown (first (samples b) (target t q).toNat j) := by
    cases q <;> rfl
  rw [hscan, hfound]
  rcases hend with rfl | ⟨v, hv⟩
  · rfl
  · obtain ⟨u, -, hu⟩ := first_le (UInt64.le_iff_toNat_le.mp hq) hv
    rw [hu, first_stable hu hj]

theorem found_ns {q : Quantile} (hq : target t q ≤ t.p999) :
    (found (scan b t) q).ns.toNat = (first (samples b) (target t q).toNat numBuckets).getD 0 := by
  rw [found_scan hq, shown]
  cases hf : first (samples b) (target t q).toNat numBuckets with
  | none => rfl
  | some v =>
      have hv := (first_eq_some_iff.mp hf).1
      exact UInt64.toNat_ofNat_of_lt' (Nat.lt_trans hv (by decide))

end Loop

def single (v : Nat) (n : UInt32) : Nat → UInt32 := Function.update (fun _ => 0) v n

theorem samples_single (v : Nat) (n : UInt32) : samples (single v n) = Function.update (fun _ => 0) v n.toNat := by
  funext i
  by_cases hi : i = v <;> simp [samples, single, hi]

theorem bucketed_single {v : Nat} (hv : v < numBuckets) (n : UInt32) : bucketed (single v n) = n.toNat := by
  rw [bucketed, samples_single, below_single, if_pos hv]

section Order

variable {b : Nat → UInt32} {t : Targets}

/-- The percentiles are ordered, and one whose target lies among the outliers
is at least every sample in a bucket. -/
structure Ordered (b : Nat → UInt32) (t : Targets) : Prop where
  p50_le_p99 : (scan b t).p50.ns ≤ (scan b t).p99.ns
  p99_le_p999 : (scan b t).p99.ns ≤ (scan b t).p999.ns
  outliers : ∀ q, bucketed b < (target t q).toNat → ∀ v < numBuckets, 0 < b v → v ≤ (found (scan b t) q).ns.toNat

theorem target_le_p999 (h50 : t.p50 ≤ t.p99) (h99 : t.p99 ≤ t.p999) (q : Quantile) :
    target t q ≤ t.p999 := by
  cases q with
  | p50 => exact UInt64.le_trans h50 h99
  | p99 => exact h99
  | p999 => exact UInt64.le_refl _

theorem ordered_of_reached (h50 : t.p50 ≤ t.p99) (h99 : t.p99 ≤ t.p999) (h : t.p999.toNat ≤ bucketed b) :
    Ordered b t := by
  have hq := target_le_p999 h50 h99
  have hsome : first (samples b) t.p999.toNat numBuckets ≠ none := by
    rw [Ne, first_eq_none_iff (by decide)]
    exact Nat.not_lt.mpr h
  obtain ⟨v, hv⟩ := Option.ne_none_iff_exists'.mp hsome
  obtain ⟨u, huv, hu⟩ := first_le (UInt64.le_iff_toNat_le.mp h99) hv
  obtain ⟨s, hsu, hs⟩ := first_le (UInt64.le_iff_toNat_le.mp h50) hu
  refine ⟨?_, ?_, fun q hlt => ?_⟩
  · rwa [← found_p50, ← found_p99, UInt64.le_iff_toNat_le, found_ns (hq .p50), found_ns (hq .p99), target, target,
      hs, hu]
  · rwa [← found_p99, ← found_p999, UInt64.le_iff_toNat_le, found_ns (hq .p99), found_ns (hq .p999), target, target,
      hu, hv]
  · have hle := UInt64.le_iff_toNat_le.mp (hq q)
    omega

theorem first_getD_of_empty (h : ∀ v < numBuckets, 0 < v → b v = 0) (n : Nat) :
    (first (samples b) n numBuckets).getD 0 = 0 := by
  cases hf : first (samples b) n numBuckets with
  | none => rfl
  | some v =>
      obtain ⟨hv, hge, hlt⟩ := first_eq_some_iff.mp hf
      refine Nat.eq_zero_of_not_pos fun (hpos : 0 < v) => ?_
      have hbefore := hlt (v - 1) (by omega)
      rw [Nat.sub_add_cancel hpos] at hbefore
      have hzero : samples b v = 0 := by rw [samples, h v hv hpos, UInt32.toNat_zero]
      rw [below_succ] at hge
      omega

theorem ordered_of_empty (h50 : t.p50 ≤ t.p99) (h99 : t.p99 ≤ t.p999)
    (h : ∀ v < numBuckets, 0 < v → b v = 0) : Ordered b t := by
  have hns : ∀ q, (found (scan b t) q).ns.toNat = 0 := fun q =>
    (found_ns (target_le_p999 h50 h99 q)).trans (first_getD_of_empty h _)
  refine ⟨?_, ?_, fun q _ v hv hb => ?_⟩
  · rw [← found_p50, UInt64.le_iff_toNat_le, hns]
    exact Nat.zero_le _
  · rw [← found_p99, UInt64.le_iff_toNat_le, hns]
    exact Nat.zero_le _
  · refine (Nat.eq_zero_of_not_pos fun hpos => ?_).trans_le (Nat.zero_le _)
    rw [h v hv hpos] at hb
    exact absurd hb (by decide)

/-- The scan orders the percentiles exactly if the highest target is reached
in the buckets or no sample lies above bucket 0. -/
theorem percentiles_ordered_iff (h50 : t.p50 ≤ t.p99) (h99 : t.p99 ≤ t.p999) :
    Ordered b t ↔ t.p999.toNat ≤ bucketed b ∨ ∀ v < numBuckets, 0 < v → b v = 0 := by
  constructor
  · intro h
    by_contra hno
    push Not at hno
    obtain ⟨hlt, v, hv, hpos, hb⟩ := hno
    have hle := h.outliers .p999 hlt v hv (UInt32.pos_iff_ne_zero.mpr hb)
    have hnone := (first_eq_none_iff (by decide)).mpr hlt
    rw [found_ns (target_le_p999 h50 h99 .p999), target, hnone, Option.getD_none] at hle
    omega
  · rintro (h | h)
    · exact ordered_of_reached h50 h99 h
    · exact ordered_of_empty h50 h99 h

end Order

def halfOutliers : Worker := { Worker.init with latencyBuckets := single 5 5, latencyOutliers := 5 }

theorem halfOutliers_totalSamples : halfOutliers.totalSamples = 10 := by
  rw [totalSamples_eq, halfOutliers, bucketed_single (by decide)]
  rfl

theorem percentiles_ordered_iff_reached : Ordered (single 5 5) ⟨2, 4, 5⟩ :=
  (percentiles_ordered_iff (by decide) (by decide)).mpr (Or.inl (by rw [bucketed_single (by decide)]; decide))

/-- The reported median is 5 ns and the 99th percentile 0 ns. -/
theorem percentiles_unordered :
    targets .exact halfOutliers.totalSamples = ⟨5, 9, 9⟩ ∧
      (halfOutliers.percentiles .exact).p50.ns = 5 ∧ (halfOutliers.percentiles .exact).p99.ns = 0 ∧
      (halfOutliers.percentiles .exact).p999.ns = 0 ∧
      ¬ Ordered halfOutliers.latencyBuckets (targets .exact halfOutliers.totalSamples) := by
  have htargets : targets .exact halfOutliers.totalSamples = ⟨5, 9, 9⟩ := by
    rw [halfOutliers_totalSamples]
    decide +kernel
  have hscan : halfOutliers.percentiles .exact = scan (single 5 5) ⟨5, 9, 9⟩ := by
    rw [Worker.percentiles, htargets, halfOutliers_totalSamples, if_pos (by decide), halfOutliers]
  have hfirst : first (samples (single 5 5)) 5 numBuckets = some 5 := by
    rw [samples_single]
    exact first_single (by decide) (by decide) (by decide)
  have hnone : first (samples (single 5 5)) 9 numBuckets = none := by
    rw [first_eq_none_iff (by decide), ← bucketed, bucketed_single (by decide)]
    decide
  have h50 : (scan (single 5 5) ⟨5, 9, 9⟩).p50 = shown (some 5) := by
    rw [← found_p50, ← hfirst]
    exact found_scan (by decide)
  have h99 : (scan (single 5 5) ⟨5, 9, 9⟩).p99 = shown none := by
    rw [← found_p99, ← hnone]
    exact found_scan (by decide)
  have h999 : (scan (single 5 5) ⟨5, 9, 9⟩).p999 = shown none := by
    rw [← found_p999, ← hnone]
    exact found_scan (by decide)
  rw [hscan, htargets, h50, h99, h999]
  refine ⟨rfl, by decide, by decide, by decide, fun h => ?_⟩
  have hbuckets : halfOutliers.latencyBuckets = single 5 5 := rfl
  have hle := h.p50_le_p99
  rw [hbuckets, h50, h99] at hle
  exact absurd hle (by decide)

section Rank

variable {w : Worker}

theorem share_pos (q : Quantile) : 0 < share q := by cases q <;> norm_num [share]

theorem share_le (q : Quantile) : share q ≤ share .p999 := by cases q <;> norm_num [share]

theorem floor_share_le (n : Nat) (q : Quantile) : ⌊n * share q⌋₊ ≤ n := by
  have hone : share q ≤ 1 := (share_le q).trans (by norm_num [share])
  have hfloor := Nat.floor_le_floor (mul_le_of_le_one_right (Nat.cast_nonneg (α := ℚ) n) hone)
  rwa [Nat.floor_natCast] at hfloor

theorem target_exact (n : UInt64) (q : Quantile) : (target (targets .exact n) q).toNat = ⌊n.toNat * share q⌋₊ := by
  have he : target (targets .exact n) q = .ofNat ⌊(n.toNat : ℚ) * share q⌋₊ := by cases q <;> rfl
  rw [he]
  exact UInt64.toNat_ofNat_of_lt' (Nat.lt_of_le_of_lt (floor_share_le _ q) n.toNat_lt)

/-- With exact products, a percentile has the right rank exactly if the rank
is an integer or its integer part is not the number of samples up to some
bucket. -/
theorem percentile_rank_iff (hout : w.latencyOutliers = 0) (hn : 0 < w.totalSamples) (q : Quantile) :
    HasRank (samples w.latencyBuckets) (w.totalSamples.toNat * share q)
        (found (w.percentiles .exact) q).ns.toNat ↔
      (w.totalSamples.toNat * share q = ⌊w.totalSamples.toNat * share q⌋₊ ∨
        ∀ v < numBuckets, below (samples w.latencyBuckets) (v + 1) ≠ ⌊w.totalSamples.toNat * share q⌋₊) := by
  have hpos : (0 : ℚ) < w.totalSamples.toNat * share q :=
    mul_pos (Nat.cast_pos.mpr (UInt64.lt_iff_toNat_lt.mp hn)) (share_pos q)
  have hq : target (targets .exact w.totalSamples) q ≤ (targets .exact w.totalSamples).p999 := by
    have hmul := mul_le_mul_of_nonneg_left (share_le q) (Nat.cast_nonneg (α := ℚ) w.totalSamples.toNat)
    rw [UInt64.le_iff_toNat_le, target_exact]
    exact (Nat.floor_le_floor hmul).trans_eq (target_exact _ .p999).symm
  have htotal : w.totalSamples.toNat = bucketed w.latencyBuckets := by
    rw [totalSamples_eq, hout, UInt64.zero_add]
    exact UInt64.toNat_ofNat_of_lt' (below_samples_lt _ le_rfl)
  have hsome : first (samples w.latencyBuckets) ⌊(w.totalSamples.toNat : ℚ) * share q⌋₊ numBuckets ≠ none := by
    rw [Ne, first_eq_none_iff (by decide)]
    exact Nat.not_lt.mpr ((floor_share_le _ q).trans_eq htotal)
  obtain ⟨v, hv⟩ := Option.ne_none_iff_exists'.mp hsome
  have hns := found_ns (b := w.latencyBuckets) hq
  rw [target_exact, hv, Option.getD_some] at hns
  rw [Worker.percentiles, if_pos hn, hns]
  exact hasRank_iff hpos hv

end Rank

def pair : Worker := { Worker.init with latencyBuckets := single 5 2 }

theorem percentile_rank_iff_pair :
    HasRank (samples pair.latencyBuckets) (pair.totalSamples.toNat * share .p50)
      (found (pair.percentiles .exact) .p50).ns.toNat := by
  have htotal : pair.totalSamples = 2 := by
    rw [totalSamples_eq, pair, bucketed_single (by decide)]
    rfl
  refine (percentile_rank_iff rfl (by rw [htotal]; decide) .p50).mpr (Or.inl ?_)
  have hshare : ((2 : UInt64).toNat : ℚ) * share .p50 = (1 : Nat) := by norm_num [share, UInt64.toNat_ofNat]
  rw [htotal, hshare, Nat.floor_natCast]

def lone : Worker := { Worker.init with latencyBuckets := single 5 1 }

/-- Its median is reported as 0 ns, a latency that no sample has. -/
theorem percentile_without_sample :
    lone.latencyOutliers = 0 ∧ lone.totalSamples = 1 ∧ (lone.percentiles .exact).p50.ns = 0 ∧
      lone.latencyBuckets 0 = 0 ∧
      ¬ HasRank (samples lone.latencyBuckets) (lone.totalSamples.toNat * share .p50)
        (found (lone.percentiles .exact) .p50).ns.toNat := by
  have htotal : lone.totalSamples = 1 := by
    rw [totalSamples_eq, lone, bucketed_single (by decide)]
    rfl
  have htargets : targets .exact lone.totalSamples = ⟨0, 0, 0⟩ := by
    rw [htotal]
    decide +kernel
  have hscan : lone.percentiles .exact = scan (single 5 1) ⟨0, 0, 0⟩ := by
    rw [Worker.percentiles, htargets, htotal, if_pos (by decide), lone]
  have h50 : (scan (single 5 1) ⟨0, 0, 0⟩).p50 = shown (some 0) := by
    have hfirst : first (samples (single 5 1)) 0 numBuckets = some 0 := first_zero (by decide)
    rw [← found_p50, ← hfirst]
    exact found_scan (by decide)
  refine ⟨rfl, htotal, by rw [hscan, h50]; rfl, rfl, fun h => ?_⟩
  have hsampled := h.sampled
  rw [hscan, found, h50, lone, samples_single] at hsampled
  exact absurd hsampled (by decide)

end Sequitur.LatencyPercentiles
