import Sequitur.Rounding

namespace Sequitur.MetricsWorker

inductive MetricsUpdateType
  | orderProcessed
  | backpressureDetected
  deriving DecidableEq

structure MetricsPacket where
  type : MetricsUpdateType
  latencyCycles : UInt64
  totalOrders : UInt64
  totalTrades : UInt64
  poolUsed : UInt64
  poolFailures : UInt64
  poolPeak : UInt64
  poolCapacity : UInt64
  deriving DecidableEq

def numBuckets : Nat := 2048

def cpuHz : UInt64 := 3600000000

/-- The counters of the worker and the variables of `logging_loop` that
outlive one iteration. -/
structure Worker where
  latencyBuckets : Nat → UInt32
  latencyOutliers : UInt64
  backpressureEvents : UInt64
  lastOrders : UInt64
  currentOrders : UInt64
  currentTrades : UInt64
  poolUsed : UInt64
  poolFailures : UInt64
  poolPeak : UInt64

def Worker.init : Worker := ⟨fun _ => 0, 0, 0, 0, 0, 0, 0, 0, 0⟩

def latencyNs (latencyCycles : UInt64) : UInt64 := latencyCycles * 1000000000 / cpuHz

def Worker.consume (w : Worker) (packet : MetricsPacket) : Worker :=
  let w := { w with
    backpressureEvents :=
      if packet.type = MetricsUpdateType.backpressureDetected then w.backpressureEvents + 1
      else w.backpressureEvents
    currentOrders := packet.totalOrders
    currentTrades := packet.totalTrades
    poolUsed := packet.poolUsed
    poolFailures := packet.poolFailures
    poolPeak := packet.poolPeak }
  let ns := (latencyNs packet.latencyCycles).toNat
  if ns < numBuckets then
    { w with latencyBuckets := Function.update w.latencyBuckets ns (w.latencyBuckets ns + 1) }
  else { w with latencyOutliers := w.latencyOutliers + 1 }

def Worker.consumeAll (w : Worker) (packets : List MetricsPacket) : Worker := packets.foldl Worker.consume w

def Worker.totalSamples (w : Worker) : UInt64 :=
  (List.range numBuckets).foldl (fun total i => total + (w.latencyBuckets i).toUInt64) w.latencyOutliers

structure Targets where
  p50 : UInt64
  p99 : UInt64
  p999 : UInt64
  deriving DecidableEq

def targets (R : Rounding) (totalSamples : UInt64) : Targets where
  p50 := .ofNat (R.scale totalSamples.toNat (50 / 100))
  p99 := .ofNat (R.scale totalSamples.toNat (99 / 100))
  p999 := .ofNat (R.scale totalSamples.toNat (999 / 1000))

structure Percentile where
  ns : UInt64
  hit : Bool
  deriving DecidableEq

def Percentile.visit (p : Percentile) (target runningSum : UInt64) (i : Nat) : Percentile :=
  if !p.hit && target ≤ runningSum then ⟨.ofNat i, true⟩ else p

structure Scan where
  runningSum : UInt64
  p50 : Percentile
  p99 : Percentile
  p999 : Percentile
  deriving DecidableEq

def Scan.init : Scan := ⟨0, ⟨0, false⟩, ⟨0, false⟩, ⟨0, false⟩⟩

def scanBucket (latencyBuckets : Nat → UInt32) (t : Targets) (s : Scan) (i : Nat) : Scan :=
  let runningSum := s.runningSum + (latencyBuckets i).toUInt64
  { runningSum := runningSum
    p50 := s.p50.visit t.p50 runningSum i
    p99 := s.p99.visit t.p99 runningSum i
    p999 := s.p999.visit t.p999 runningSum i }

/-- The loop over the buckets, which breaks off once `p999_ns` is found. -/
def scanLoop (latencyBuckets : Nat → UInt32) (t : Targets) : Scan → List Nat → Scan
  | s, [] => s
  | s, i :: is =>
      let s := scanBucket latencyBuckets t s i
      if s.p999.hit then s else scanLoop latencyBuckets t s is

def scan (latencyBuckets : Nat → UInt32) (t : Targets) : Scan :=
  scanLoop latencyBuckets t .init (List.range numBuckets)

def Worker.percentiles (R : Rounding) (w : Worker) : Scan :=
  if 0 < w.totalSamples then scan w.latencyBuckets (targets R w.totalSamples) else .init

def Worker.fillRate (R : Rounding) (w : Worker) : ℚ :=
  if 0 < w.currentOrders then R.ratio w.currentTrades.toNat w.currentOrders.toNat else 0

def Worker.poolHitRate (R : Rounding) (w : Worker) : ℚ :=
  if 0 < w.currentOrders then R.ratio (w.currentOrders - w.poolFailures).toNat w.currentOrders.toNat else 1

/-- The values that are written to the telemetry log. -/
structure Report where
  totalOrders : UInt64
  totalTrades : UInt64
  fillRate : ℚ
  throughputOps : UInt64
  p50LatencyNs : UInt64
  p99LatencyNs : UInt64
  p999LatencyNs : UInt64
  poolUsedObjects : UInt64
  poolPeakObjects : UInt64
  memoryPoolHitRate : ℚ
  ringBufferBackpressureEvents : UInt64

def Worker.report (R : Rounding) (w : Worker) : Worker × Report :=
  let deltaOrders := w.currentOrders - w.lastOrders
  let s := w.percentiles R
  ({ w with lastOrders := w.currentOrders },
    { totalOrders := w.currentOrders
      totalTrades := w.currentTrades
      fillRate := w.fillRate R
      throughputOps := deltaOrders * 4
      p50LatencyNs := s.p50.ns
      p99LatencyNs := s.p99.ns
      p999LatencyNs := s.p999.ns
      poolUsedObjects := w.poolUsed
      poolPeakObjects := w.poolPeak
      memoryPoolHitRate := w.poolHitRate R
      ringBufferBackpressureEvents := w.backpressureEvents })

end Sequitur.MetricsWorker
