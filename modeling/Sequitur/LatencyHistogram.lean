import Sequitur.MetricsWorker

namespace Sequitur.LatencyHistogram

open MetricsWorker

def trueLatency (latencyCycles : UInt64) : Nat := latencyCycles.toNat * 10 ^ 9 / 3600000000

/-- The product of cycles and 10⁹ leaves 64 bits, and what is left of it
reads as fewer than 2048 ns. -/
def Wraps (latencyCycles : UInt64) : Prop :=
  2 ^ 64 ≤ latencyCycles.toNat * 10 ^ 9 ∧ latencyCycles.toNat * 10 ^ 9 % 2 ^ 64 < 2048 * 3600000000

instance (latencyCycles : UInt64) : Decidable (Wraps latencyCycles) :=
  inferInstanceAs (Decidable (_ ∧ _))

theorem latencyNs_toNat (c : UInt64) : (latencyNs c).toNat = c.toNat * 10 ^ 9 % 2 ^ 64 / 3600000000 := by
  rw [latencyNs, UInt64.toNat_div, UInt64.toNat_mul]
  rfl

theorem Wraps.lost {c : UInt64} (h : Wraps c) :
    (latencyNs c).toNat < numBuckets ∧ numBuckets ≤ trueLatency c := by
  obtain ⟨hover, hsmall⟩ := h
  rw [latencyNs_toNat, numBuckets, trueLatency]
  omega

theorem latencyNs_of_not_wraps {c : UInt64} (h : ¬ Wraps c) :
    (latencyNs c).toNat = trueLatency c ∨
      (numBuckets ≤ (latencyNs c).toNat ∧ numBuckets ≤ trueLatency c) := by
  rw [latencyNs_toNat, numBuckets, trueLatency]
  by_cases hover : 2 ^ 64 ≤ c.toNat * 10 ^ 9
  · have hlarge : 2048 * 3600000000 ≤ c.toNat * 10 ^ 9 % 2 ^ 64 := by
      rw [Wraps, not_and, Nat.not_lt] at h
      exact h hover
    right
    omega
  · left
    rw [Nat.mod_eq_of_lt (by omega)]

section Consumption

variable (w : Worker) (packet : MetricsPacket) (packets : List MetricsPacket)

theorem consume_latencyBuckets {v : Nat} (hv : v < numBuckets) :
    (w.consume packet).latencyBuckets v =
      w.latencyBuckets v + if (latencyNs packet.latencyCycles).toNat = v then 1 else 0 := by
  simp only [Worker.consume]
  by_cases hns : (latencyNs packet.latencyCycles).toNat < numBuckets
  · rw [if_pos hns]
    by_cases he : (latencyNs packet.latencyCycles).toNat = v
    · simp [he]
    · simp [he, Ne.symm he]
  · have hne : (latencyNs packet.latencyCycles).toNat ≠ v := by omega
    rw [if_neg hns, if_neg hne, UInt32.add_zero]

theorem consume_latencyOutliers :
    (w.consume packet).latencyOutliers =
      w.latencyOutliers + if numBuckets ≤ (latencyNs packet.latencyCycles).toNat then 1 else 0 := by
  simp only [Worker.consume]
  by_cases hns : (latencyNs packet.latencyCycles).toNat < numBuckets
  · simp [hns, Nat.not_le.mpr hns]
  · simp [hns, Nat.not_lt.mp hns]

theorem consumeAll_latencyBuckets {v : Nat} (hv : v < numBuckets) :
    (w.consumeAll packets).latencyBuckets v = w.latencyBuckets v +
      .ofNat (packets.countP fun p => (latencyNs p.latencyCycles).toNat = v) := by
  induction packets generalizing w with
  | nil => simp [Worker.consumeAll]
  | cons p ps ih =>
      have hstep := ih (w.consume p)
      rw [consume_latencyBuckets w p hv] at hstep
      rw [Worker.consumeAll, List.foldl_cons, ← Worker.consumeAll, hstep, List.countP_cons, UInt32.ofNat_add,
        UInt32.add_assoc, UInt32.add_comm (UInt32.ofNat _)]
      by_cases he : (latencyNs p.latencyCycles).toNat = v <;> simp [he]

theorem consumeAll_latencyOutliers :
    (w.consumeAll packets).latencyOutliers = w.latencyOutliers +
      .ofNat (packets.countP fun p => numBuckets ≤ (latencyNs p.latencyCycles).toNat) := by
  induction packets generalizing w with
  | nil => simp [Worker.consumeAll]
  | cons p ps ih =>
      have hstep := ih (w.consume p)
      rw [consume_latencyOutliers w p] at hstep
      rw [Worker.consumeAll, List.foldl_cons, ← Worker.consumeAll, hstep, List.countP_cons, UInt64.ofNat_add,
        UInt64.add_assoc, UInt64.add_comm (UInt64.ofNat _)]
      by_cases he : numBuckets ≤ (latencyNs p.latencyCycles).toNat <;> simp [he]

end Consumption

def counterOf (latencyCycles : UInt64) : Nat := min (latencyNs latencyCycles).toNat numBuckets

/-- The histogram counts every packet under its true latency, so that no
packet has a lower counter than a faster one. -/
structure Faithful (packets : List MetricsPacket) (w : Worker) : Prop where
  buckets : ∀ v < numBuckets,
    (w.latencyBuckets v).toNat = packets.countP fun p => trueLatency p.latencyCycles = v
  outliers : w.latencyOutliers.toNat = packets.countP fun p => numBuckets ≤ trueLatency p.latencyCycles
  monotone : ∀ p ∈ packets, ∀ q ∈ packets, trueLatency p.latencyCycles ≤ trueLatency q.latencyCycles →
    counterOf p.latencyCycles ≤ counterOf q.latencyCycles

section Faithfulness

variable {packets : List MetricsPacket}

theorem fresh_latencyBuckets (hlen : packets.length < 2 ^ 32) {v : Nat} (hv : v < numBuckets) :
    ((Worker.init.consumeAll packets).latencyBuckets v).toNat =
      packets.countP fun p => (latencyNs p.latencyCycles).toNat = v := by
  rw [consumeAll_latencyBuckets _ _ hv, Worker.init, UInt32.zero_add]
  exact UInt32.toNat_ofNat_of_lt' (Nat.lt_of_le_of_lt List.countP_le_length hlen)

theorem fresh_latencyOutliers (hlen : packets.length < 2 ^ 32) :
    (Worker.init.consumeAll packets).latencyOutliers.toNat =
      packets.countP fun p => numBuckets ≤ (latencyNs p.latencyCycles).toNat := by
  rw [consumeAll_latencyOutliers, Worker.init, UInt64.zero_add]
  refine UInt64.toNat_ofNat_of_lt' (Nat.lt_of_le_of_lt List.countP_le_length (Nat.lt_trans hlen ?_))
  decide

theorem faithful_of_not_wraps (hlen : packets.length < 2 ^ 32) (h : ∀ p ∈ packets, ¬ Wraps p.latencyCycles) :
    Faithful packets (Worker.init.consumeAll packets) where
  buckets v hv := by
    rw [fresh_latencyBuckets hlen hv]
    refine List.countP_congr fun p hp => ?_
    have hns := latencyNs_of_not_wraps (h p hp)
    simp only [decide_eq_true_eq]
    omega
  outliers := by
    rw [fresh_latencyOutliers hlen]
    refine List.countP_congr fun p hp => ?_
    have hns := latencyNs_of_not_wraps (h p hp)
    simp only [decide_eq_true_eq]
    omega
  monotone p hp q hq hle := by
    have hns := latencyNs_of_not_wraps (h p hp)
    have hns' := latencyNs_of_not_wraps (h q hq)
    rw [counterOf, counterOf]
    omega

theorem not_wraps_of_outliers (hlen : packets.length < 2 ^ 32)
    (h : (Worker.init.consumeAll packets).latencyOutliers.toNat =
      packets.countP fun p => numBuckets ≤ trueLatency p.latencyCycles) :
    ∀ p ∈ packets, ¬ Wraps p.latencyCycles := by
  intro p hp hw
  have himp : ∀ q : MetricsPacket, numBuckets ≤ (latencyNs q.latencyCycles).toNat →
      numBuckets ≤ trueLatency q.latencyCycles := by
    intro q hq
    by_cases hwq : Wraps q.latencyCycles
    · exact hwq.lost.2
    · have hns := latencyNs_of_not_wraps hwq
      omega
  -- the packets counted as outliers are some of the true ones, and as many
  rw [fresh_latencyOutliers hlen, List.countP_eq_length_filter, List.countP_eq_length_filter] at h
  have hsub := List.monotone_filter_right packets fun q hq => decide_eq_true (himp q (of_decide_eq_true hq))
  have hmem : p ∈ packets.filter fun q => numBuckets ≤ trueLatency q.latencyCycles := by
    simp [hp, hw.lost.2]
  rw [← hsub.eq_of_length h, List.mem_filter, decide_eq_true_eq] at hmem
  exact Nat.not_le.mpr hw.lost.1 hmem.2

end Faithfulness

/-- The histogram is faithful exactly if no packet wraps into the buckets. -/
theorem histogram_faithful_iff {packets : List MetricsPacket} (hlen : packets.length < 2 ^ 32) :
    Faithful packets (Worker.init.consumeAll packets) ↔ ∀ p ∈ packets, ¬ Wraps p.latencyCycles :=
  ⟨fun h => not_wraps_of_outliers hlen h.outliers, faithful_of_not_wraps hlen⟩

def measured (latencyCycles : UInt64) : MetricsPacket := ⟨.orderProcessed, latencyCycles, 0, 0, 0, 0, 0, 0⟩

theorem histogram_faithful_iff_microsecond :
    Faithful [measured 3600, measured 36000] (Worker.init.consumeAll [measured 3600, measured 36000]) :=
  (histogram_faithful_iff (by decide)).mpr (by simp [measured, Wraps])

/-- A stall of five seconds is counted in bucket 0, below a packet of one
microsecond. -/
theorem stall_in_bucket_zero :
    trueLatency 18446744074 = 5124095576 ∧
      (Worker.init.consumeAll [measured 3600, measured 18446744074]).latencyBuckets 0 = 1 ∧
      (Worker.init.consumeAll [measured 3600, measured 18446744074]).latencyOutliers = 0 ∧
      counterOf 18446744074 < counterOf 3600 ∧
      ¬ Faithful [measured 3600, measured 18446744074]
        (Worker.init.consumeAll [measured 3600, measured 18446744074]) := by
  refine ⟨by decide +kernel, by decide +kernel, by decide +kernel, by decide +kernel, fun h => ?_⟩
  have hout := h.outliers
  revert hout
  decide +kernel

end Sequitur.LatencyHistogram
