import Sequitur.EngineTelemetry
import Sequitur.FlatObjects

namespace Sequitur.TelemetryLine

open MetricsWorker DecimalFields FlatObjects Framing EngineProcess

def bytes (s : String) : List UInt8 := s.toUTF8.data.toList

section Writer

structure Buffer where
  written : List UInt8
  fits : written.length ≤ 1024

def Buffer.empty : Buffer := ⟨[], Nat.zero_le _⟩

/-- One statement of the formatter: `append_str` with a literal and its
length, or `std::to_chars` for a number with the given digits. -/
inductive Piece
  | appendStr (str : String) (len : Nat)
  | toChars (digits : List UInt8)

/-- `append_str` leaves out what does not end before the last byte. The result
of a `memcpy` beyond the literal, and the bytes that `to_chars` leaves behind
when the digits do not fit, are unspecified. -/
def Buffer.write (b : Buffer) : Piece → Option Buffer
  | .appendStr str len =>
      if len ≤ (bytes str).length then
        if h : b.written.length + len < 1024 then
          some ⟨b.written ++ (bytes str).take len, by
            rw [List.length_append, List.length_take]
            omega⟩
        else some b
      else none
  | .toChars digits =>
      if h : b.written.length + digits.length ≤ 1024 then
        some ⟨b.written ++ digits, by rwa [List.length_append]⟩
      else none

def decimal (n : UInt64) : List UInt8 := numeral 0 n.toNat

def roundEven (q : ℚ) : Nat :=
  if q - ⌊q⌋₊ < 1 / 2 ∨ (q - ⌊q⌋₊ = 1 / 2 ∧ ⌊q⌋₊ % 2 = 0) then ⌊q⌋₊ else ⌊q⌋₊ + 1

/-- `to_chars` for a double that is not negative, in fixed notation with four
digits after the point. -/
def fixed4 (q : ℚ) : List UInt8 :=
  let n := roundEven (q * 10 ^ 4)
  numeral 0 (n / 10 ^ 4) ++ 0x2E :: padded 4 (n % 10 ^ 4)

def message (r : Report) : List Piece :=
  [.appendStr "\x7b" 1,
   .appendStr "\"latency_scope\":\"matching_core_isolated\"," 41,
   .appendStr "\"clock_source\":\"rdtsc\"," 23,
   .appendStr "\"cpu_hz_estimated\":3600000000," 30,
   .appendStr "\"total_orders\":" 15, .toChars (decimal r.totalOrders), .appendStr "," 1,
   .appendStr "\"total_trades\":" 15, .toChars (decimal r.totalTrades), .appendStr "," 1,
   .appendStr "\"fill_rate\":" 12, .toChars (fixed4 r.fillRate), .appendStr "," 1,
   .appendStr "\"throughput_ops\":" 17, .toChars (decimal r.throughputOps), .appendStr "," 1,
   .appendStr "\"p50_latency_ns\":" 17, .toChars (decimal r.p50LatencyNs), .appendStr "," 1,
   .appendStr "\"p99_latency_ns\":" 17, .toChars (decimal r.p99LatencyNs), .appendStr "," 1,
   .appendStr "\"p999_latency_ns\":" 18, .toChars (decimal r.p999LatencyNs), .appendStr "," 1,
   .appendStr "\"pool_used_objects\":" 20, .toChars (decimal r.poolUsedObjects), .appendStr "," 1,
   .appendStr "\"pool_peak_objects\":" 20, .toChars (decimal r.poolPeakObjects), .appendStr "," 1,
   .appendStr "\"memory_pool_hit_rate\":" 23, .toChars (fixed4 r.memoryPoolHitRate), .appendStr "," 1,
   .appendStr "\"ring_buffer_backpressure_events\":" 34, .toChars (decimal r.ringBufferBackpressureEvents),
   .appendStr "\x7d\n" 2]

def line (r : Report) : Option (List UInt8) := (Runs.run Buffer.write .empty (message r)).map Buffer.written

end Writer

section Lengths

def Piece.text : Piece → List UInt8
  | .appendStr str _ => bytes str
  | .toChars digits => digits

def Piece.size : Piece → Nat
  | .appendStr _ len => len
  | .toChars digits => digits.length

def Piece.Exact (p : Piece) : Prop := p.text.length = p.size

theorem write_exact {b : Buffer} {p : Piece} (hp : p.Exact) (h : b.written.length + p.size < 1024) :
    ∃ b', b.write p = some b' ∧ b'.written = b.written ++ p.text := by
  cases p with
  | appendStr str len =>
      obtain rfl : (bytes str).length = len := hp
      simp only [Piece.size] at h
      simp only [Buffer.write, if_pos (Nat.le_refl _), dif_pos h]
      exact ⟨_, rfl, congrArg (b.written ++ ·) List.take_length⟩
  | toChars digits =>
      simp only [Buffer.write, dif_pos (Nat.le_of_lt h : b.written.length + digits.length ≤ 1024)]
      exact ⟨_, rfl, rfl⟩

theorem write_all {ps : List Piece} (hps : ∀ p ∈ ps, p.Exact) {b : Buffer}
    (h : b.written.length + (ps.map Piece.size).sum < 1024) :
    ∃ b', Runs.run Buffer.write b ps = some b' ∧ b'.written = b.written ++ ps.flatMap Piece.text := by
  induction ps generalizing b with
  | nil => exact ⟨b, rfl, by simp⟩
  | cons p ps ih =>
      obtain ⟨hp, hps⟩ := List.forall_mem_cons.mp hps
      rw [List.map_cons, List.sum_cons] at h
      obtain ⟨b₁, hb₁, hw₁⟩ := write_exact hp (by omega : b.written.length + p.size < 1024)
      have hlen : b₁.written.length = b.written.length + p.size := by rw [hw₁, List.length_append, hp]
      obtain ⟨b', hb', hw'⟩ := ih hps (by omega : b₁.written.length + (ps.map Piece.size).sum < 1024)
      refine ⟨b', ?_, by rw [hw', hw₁, List.flatMap_cons, List.append_assoc]⟩
      rw [Runs.run_cons, hb₁]
      exact hb'

theorem message_exact (r : Report) : ∀ p ∈ message r, p.Exact := by
  simp only [message, List.forall_mem_cons, List.not_mem_nil, IsEmpty.forall_iff, implies_true, and_true,
    Piece.Exact, Piece.text, Piece.size, true_and]
  decide +kernel

theorem length_decimal (n : UInt64) : (decimal n).length ≤ 20 := by
  rw [decimal, numeral, List.replicate_zero, List.nil_append, List.length_map]
  refine (Nat.length_toDigits_le_iff (by decide) (by decide)).mpr (Nat.lt_trans n.toNat_lt (by decide))

theorem roundEven_le {q : ℚ} {n : Nat} (h : q ≤ n) : roundEven q ≤ n := by
  have hfloor : ⌊q⌋₊ ≤ n := Nat.floor_le_of_le h
  rw [roundEven]
  split
  next => exact hfloor
  next hup =>
    -- A rest is rounded up, so `q` is not an integer.
    rcases Nat.lt_or_eq_of_le hfloor with hlt | heq
    · exact hlt
    · refine absurd (Or.inl ?_) hup
      rw [heq]
      linarith

theorem length_fixed4 {q : ℚ} (h : q ≤ 2 ^ 64) : (fixed4 q).length ≤ 25 := by
  have hround : roundEven (q * 10 ^ 4) ≤ 2 ^ 64 * 10 ^ 4 := by
    refine roundEven_le ?_
    push_cast
    linarith
  have hwhole : (numeral 0 (roundEven (q * 10 ^ 4) / 10 ^ 4)).length ≤ 20 := by
    rw [numeral, List.replicate_zero, List.nil_append, List.length_map]
    refine (Nat.length_toDigits_le_iff (by decide) (by decide)).mpr ?_
    omega
  have hfraction := length_padded (by decide : 0 < 4) (Nat.mod_lt (roundEven (q * 10 ^ 4)) (by decide : 0 < 10 ^ 4))
  simp only [fixed4, List.length_append, List.length_cons, hfraction]
  omega

structure Rated (r : Report) : Prop where
  fillRate : r.fillRate ≤ 2 ^ 64
  memoryPoolHitRate : r.memoryPoolHitRate ≤ 2 ^ 64

theorem message_size {r : Report} (h : Rated r) : ((message r).map Piece.size).sum ≤ 545 := by
  simp only [message, List.map_cons, List.map_nil, List.sum_cons, List.sum_nil, Piece.size]
  linarith [length_fixed4 h.fillRate, length_fixed4 h.memoryPoolHitRate, length_decimal r.totalOrders,
    length_decimal r.totalTrades, length_decimal r.throughputOps, length_decimal r.p50LatencyNs,
    length_decimal r.p99LatencyNs, length_decimal r.p999LatencyNs, length_decimal r.poolUsedObjects,
    length_decimal r.poolPeakObjects, length_decimal r.ringBufferBackpressureEvents]

end Lengths

section Members

def members (r : Report) : List Member :=
  [⟨bytes "latency_scope", .text (bytes "matching_core_isolated")⟩,
   ⟨bytes "clock_source", .text (bytes "rdtsc")⟩,
   ⟨bytes "cpu_hz_estimated", .integer cpuHz.toNat⟩,
   ⟨bytes "total_orders", .integer r.totalOrders.toNat⟩,
   ⟨bytes "total_trades", .integer r.totalTrades.toNat⟩,
   ⟨bytes "fill_rate", .decimal 4 (roundEven (r.fillRate * 10 ^ 4))⟩,
   ⟨bytes "throughput_ops", .integer r.throughputOps.toNat⟩,
   ⟨bytes "p50_latency_ns", .integer r.p50LatencyNs.toNat⟩,
   ⟨bytes "p99_latency_ns", .integer r.p99LatencyNs.toNat⟩,
   ⟨bytes "p999_latency_ns", .integer r.p999LatencyNs.toNat⟩,
   ⟨bytes "pool_used_objects", .integer r.poolUsedObjects.toNat⟩,
   ⟨bytes "pool_peak_objects", .integer r.poolPeakObjects.toNat⟩,
   ⟨bytes "memory_pool_hit_rate", .decimal 4 (roundEven (r.memoryPoolHitRate * 10 ^ 4))⟩,
   ⟨bytes "ring_buffer_backpressure_events", .integer r.ringBufferBackpressureEvents.toNat⟩]

theorem members_valid (r : Report) : ∀ m ∈ members r, m.Valid := by
  have hkey : ∀ m ∈ members r, Plain m.key := by
    simp only [members, List.forall_mem_cons, List.not_mem_nil, IsEmpty.forall_iff, implies_true, and_true]
    decide +kernel
  have hvalue : ∀ m ∈ members r, m.value.Valid := by
    simp only [members, List.forall_mem_cons, List.not_mem_nil, IsEmpty.forall_iff, implies_true, and_true,
      Value.Valid, true_and]
    decide +kernel
  exact fun m hm => ⟨hkey m hm, hvalue m hm⟩

theorem labels : ∀ x ∈ [("\"total_orders\":", "total_orders"), ("\"total_trades\":", "total_trades"),
    ("\"fill_rate\":", "fill_rate"), ("\"throughput_ops\":", "throughput_ops"),
    ("\"p50_latency_ns\":", "p50_latency_ns"), ("\"p99_latency_ns\":", "p99_latency_ns"),
    ("\"p999_latency_ns\":", "p999_latency_ns"), ("\"pool_used_objects\":", "pool_used_objects"),
    ("\"pool_peak_objects\":", "pool_peak_objects"), ("\"memory_pool_hit_rate\":", "memory_pool_hit_rate"),
    ("\"ring_buffer_backpressure_events\":", "ring_buffer_backpressure_events")],
    bytes x.1 = quote :: (bytes x.2 ++ [quote, colon]) := by
  decide +kernel

theorem message_text (r : Report) : (message r).flatMap Piece.text = render (members r) ++ [0x0A] := by
  have hlabels := labels
  simp only [List.forall_mem_cons, List.not_mem_nil, IsEmpty.forall_iff, implies_true, and_true] at hlabels
  have hscope : bytes "\"latency_scope\":\"matching_core_isolated\"," =
      Member.render ⟨bytes "latency_scope", .text (bytes "matching_core_isolated")⟩ ++ [comma] := by decide +kernel
  have hclock : bytes "\"clock_source\":\"rdtsc\"," =
      Member.render ⟨bytes "clock_source", .text (bytes "rdtsc")⟩ ++ [comma] := by decide +kernel
  have hcpu : bytes "\"cpu_hz_estimated\":3600000000," =
      Member.render ⟨bytes "cpu_hz_estimated", .integer cpuHz.toNat⟩ ++ [comma] := by decide +kernel
  have hmarks : bytes "\x7b" = [opening] ∧ bytes "," = [comma] ∧ bytes "\x7d\n" = [closing, 0x0A] := by
    decide +kernel
  obtain ⟨hopening, hcomma, hclosing⟩ := hmarks
  simp only [message, List.flatMap_cons, List.flatMap_nil, Piece.text, hscope, hclock, hcpu, hopening, hcomma,
    hclosing, hlabels]
  simp only [members, render, List.map_cons, List.map_nil, List.intercalate_cons_cons, List.intercalate_singleton,
    Member.render, Value.render, decimal, fixed4, point, List.append_assoc, List.cons_append, List.nil_append,
    List.append_nil]

theorem line_eq {r : Report} (h : Rated r) : line r = some (render (members r) ++ [0x0A]) := by
  have hsize := message_size h
  have hroom : Buffer.empty.written.length + ((message r).map Piece.size).sum < 1024 :=
    Nat.lt_of_le_of_lt (Nat.le_of_eq (Nat.zero_add _)) (Nat.lt_of_le_of_lt hsize (by decide))
  obtain ⟨b, hb, hw⟩ := write_all (message_exact r) hroom
  rw [line, hb, Option.map_some, hw, message_text]
  rfl

theorem newline_not_mem (r : Report) : 0x0A ∉ render (members r) :=
  fun h => absurd (printable (members_valid r) _ h) (by decide)

theorem read_members (r : Report) : read (render (members r)) = some (members r) :=
  read_render (List.cons_ne_nil _ _) (members_valid r)

end Members

section Rates

theorem abs_roundEven_sub_le {q : ℚ} (h : 0 ≤ q) : |(roundEven q : ℚ) - q| ≤ 1 / 2 := by
  have hlo := Nat.floor_le h
  have hhi := Nat.lt_floor_add_one q
  rw [roundEven]
  split
  next hdown =>
    rw [abs_le]
    rcases hdown with hdown | ⟨hdown, -⟩ <;> constructor <;> linarith
  next hup =>
    rw [not_or] at hup
    rw [abs_le]
    push_cast
    constructor <;> linarith [not_lt.mp hup.1]

def Written (q : ℚ) : Prop := |(roundEven (q * 10 ^ 4) : ℚ) / 10 ^ 4 - q| ≤ 1 / 2 / 10 ^ 4

theorem written_of_nonneg {q : ℚ} (h : 0 ≤ q) : Written q := by
  have herror := abs_roundEven_sub_le (mul_nonneg h (by norm_num : (0 : ℚ) ≤ 10 ^ 4))
  have hscale : (roundEven (q * 10 ^ 4) : ℚ) / 10 ^ 4 - q = ((roundEven (q * 10 ^ 4) : ℚ) - q * 10 ^ 4) / 10 ^ 4 := by
    ring
  rw [Written, hscale, abs_div, abs_of_pos (by norm_num : (0 : ℚ) < 10 ^ 4)]
  exact div_le_div_of_nonneg_right herror (by norm_num)

variable {R : Rounding}

theorem cast_le (n : UInt64) : (n.toNat : ℚ) ≤ 2 ^ 64 := by
  have h : (n.toNat : ℚ) ≤ ((2 ^ 64 : Nat) : ℚ) := Nat.cast_le.mpr (Nat.le_of_lt n.toNat_lt)
  push_cast at h
  exact h

theorem report_rated (hR : R.round (2 ^ 64) = 2 ^ 64) (w : Worker) : Rated (w.report R).2 := by
  have hrate : ∀ a b : UInt64, ∀ q : ℚ, q ≤ 1 → (if 0 < b then R.ratio a.toNat b.toNat else q) ≤ 2 ^ 64 := by
    intro a b q hq
    split
    next hb => exact R.ratio_le hR (cast_le a) (UInt64.lt_iff_toNat_lt.mp hb)
    next => exact hq.trans (by norm_num)
  exact ⟨hrate _ _ 0 (by norm_num), hrate _ _ 1 le_rfl⟩

theorem report_written (w : Worker) : Written (w.report R).2.fillRate ∧ Written (w.report R).2.memoryPoolHitRate := by
  have hrate : ∀ a b : UInt64, ∀ q : ℚ, 0 ≤ q → 0 ≤ (if 0 < b then R.ratio a.toNat b.toNat else q) := by
    intro a b q hq
    split
    next => exact R.ratio_nonneg _ _
    next => exact hq
  exact ⟨written_of_nonneg (hrate _ _ 0 le_rfl), written_of_nonneg (hrate _ _ 1 (by norm_num))⟩

end Rates

section Log

def logFile (log : List Report) : Option (List UInt8) := (log.mapM line).map List.flatten

theorem logFile_eq {log : List Report} (h : ∀ r ∈ log, Rated r) :
    logFile log = some (log.flatMap fun r => render (members r) ++ [0x0A]) := by
  have hlines : log.mapM line = some (log.map fun r => render (members r) ++ [0x0A]) := by
    induction log with
    | nil => rfl
    | cons r log ih =>
        obtain ⟨hr, hlog⟩ := List.forall_mem_cons.mp h
        rw [List.mapM_cons, line_eq hr, ih hlog]
        rfl
  rw [logFile, hlines, Option.map_some, List.flatMap_def]

theorem frames_lines (log : List Report) :
    frames 0x0A (log.flatMap fun r => render (members r) ++ [0x0A]) = log.map (fun r => render (members r)) ∧
      residue 0x0A (log.flatMap fun r => render (members r) ++ [0x0A]) = [] := by
  induction log with
  | nil => exact ⟨frames_open List.not_mem_nil, residue_open List.not_mem_nil⟩
  | cons r log ih =>
      rw [List.flatMap_cons, List.append_assoc, List.singleton_append, frames_closed (newline_not_mem r),
        residue_closed (newline_not_mem r), ih.1, ih.2]
      exact ⟨rfl, rfl⟩

variable {R : Rounding} {inBase outBase : BitVec 64} {s s' : State} {packets : Nat → Protocol.IngressPacket}
  {queued reports : Nat → CoreLoop.EgressPacket} {snapshots : Nat → MetricsPacket} {actions : List Action}

def Reported (R : Rounding) (s : State) : Prop := ∀ r ∈ s.log, ∃ w : Worker, r = (w.report R).2

theorem step_reported {a : Action} (h : Reported R s) (hs : step R s a = some s') : Reported R s' := by
  cases steps_of_step hs with
  | due hl =>
      intro r hr
      rcases List.mem_append.mp hr with hr | hr
      · exact h r hr
      · exact ⟨s.worker, List.mem_singleton.mp hr⟩
  | signal | enqueue | deliver | enter | leave | iterate | push | pushed | count | batch | sample | sampled | log |
    drain | early | join | clear | stop => exact h

/-- Whatever the threads do, the log file consists of one line for each report,
and every line is a well-formed object from which the values of its report can
be read. No line leaves the buffer or loses a part. -/
theorem log_readable (hR : R.round (2 ^ 64) = 2 ^ 64)
    (hr : Runs.run (step R) (init packets queued reports snapshots inBase outBase) actions = some s) :
    (∀ r ∈ s.log, ((message r).map Piece.size).sum ≤ 545 ∧ Written r.fillRate ∧ Written r.memoryPoolHitRate) ∧
      ∃ file, logFile s.log = some file ∧ residue 0x0A file = [] ∧
        (frames 0x0A file).map read = s.log.map fun r => some (members r) := by
  have hreported : Reported R s :=
    Runs.run_invariant (fun s a s' h hs => step_reported h hs) (fun r hr => absurd hr List.not_mem_nil) hr
  have hrated : ∀ r ∈ s.log, Rated r := by
    intro r hr
    obtain ⟨w, rfl⟩ := hreported r hr
    exact report_rated hR w
  refine ⟨fun r hr => ?_, _, logFile_eq hrated, (frames_lines s.log).2, ?_⟩
  · obtain ⟨w, hw⟩ := hreported r hr
    exact ⟨message_size (hrated r hr), hw ▸ report_written w⟩
  · rw [(frames_lines s.log).1, List.map_map]
    exact List.map_congr_left fun r _ => read_members r

open EngineTelemetry (requests batch run_batch) in
theorem log_readable_batch :
    ∃ s file, Runs.run (step .exact) EngineDelivery.start (requests ++ batch) = some s ∧
      s.log.map (fun r => [r.totalOrders, r.totalTrades, r.throughputOps]) = [[64, 32, 256]] ∧
      logFile s.log = some file ∧ (frames 0x0A file).map read = s.log.map fun r => some (members r) := by
  obtain ⟨s, -, hs, -, -, -, -, hlog⟩ := run_batch
  obtain ⟨-, file, hfile, -, hread⟩ := log_readable rfl hs
  exact ⟨s, file, hs, hlog, hfile, hread⟩

end Log

end Sequitur.TelemetryLine
