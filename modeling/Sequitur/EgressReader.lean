import Sequitur.CoreLoop
import Sequitur.Framing
import Sequitur.SharedSegment

namespace Sequitur.EgressReader

open Framing SharedSegment

section Python

/-- What Python knows about the characters beyond ASCII. -/
structure CharacterData where
  isSpace : Char → Bool
  decimal : Char → Option Nat

inductive Exception
  | unicodeDecodeError
  | valueError (literal : List Char)

variable (t : CharacterData)

def decode (data : List UInt8) : Except Exception (List Char) :=
  match data.toByteArray.utf8Decode? with
  | some text => .ok text.toList
  | none => .error .unicodeDecodeError

def isSpace (c : Char) : Bool :=
  if c.toNat < 128 then 9 ≤ c.toNat ∧ c.toNat ≤ 13 ∨ 28 ≤ c.toNat ∧ c.toNat ≤ 32 else t.isSpace c

def strip (s : List Char) : List Char := (s.dropWhile (isSpace t)).rdropWhile (isSpace t)

/-- The white space that `int` allows around a number; the separators 28 to 31
are not part of it. -/
def isIntSpace (c : Char) : Bool :=
  if c.toNat < 128 then 9 ≤ c.toNat ∧ c.toNat ≤ 13 ∨ c.toNat = 32 else t.isSpace c

def digit (c : Char) : Option Nat :=
  if c.isDigit then some (c.toNat - '0'.toNat) else if c.toNat < 128 then none else t.decimal c

/-- The digits after those of `n`. A single underscore may stand between two of
them. -/
def digitsFrom : Nat → List Char → Option Nat
  | n, [] => some n
  | n, c :: s =>
      match digit t c with
      | some d => digitsFrom (10 * n + d) s
      | none =>
          match s with
          | [] => none
          | c' :: s => if c = '_' then (digit t c').bind fun d => digitsFrom (10 * n + d) s else none

def natural : List Char → Option Nat
  | [] => none
  | c :: s => (digit t c).bind fun d => digitsFrom t d s

def signed : List Char → Option Int
  | '-' :: s => (natural t s).map fun n => -Int.ofNat n
  | '+' :: s => (natural t s).map Int.ofNat
  | s => (natural t s).map Int.ofNat

def int (literal : List Char) : Except Exception Int :=
  match signed t ((literal.dropWhile (isIntSpace t)).rdropWhile (isIntSpace t)) with
  | some n => .ok n
  | none => .error (.valueError literal)

end Python

structure Stats where
  acceptedCount : Nat
  filledCount : Nat
  rejectedCount : Nat
  deriving DecidableEq

def Stats.init : Stats := ⟨0, 0, 0⟩

def Stats.record (stats : Stats) (msgType : Int) : Stats :=
  if msgType = 1 then { stats with acceptedCount := stats.acceptedCount + 1 }
  else if msgType = 4 then { stats with filledCount := stats.filledCount + 1 }
  else if msgType = 2 then { stats with rejectedCount := stats.rejectedCount + 1 }
  else stats

structure Reader where
  stats : Stats
  socketBuffer : List Char

def Reader.init : Reader := ⟨.init, []⟩

/-- One pass of the outer loop: the value of its condition, and what `recv`
returns if it is called. -/
structure Pass where
  shutdown : Bool
  received : List UInt8

inductive Outcome
  | receiving
  | ended
  | raised (e : Exception)

section Loop

variable (t : CharacterData)

/-- The body of the inner loop for a line. -/
def handle (stats : Stats) (line : List Char) : Except Exception Stats :=
  if strip t line = [] then .ok stats
  else if (line.splitOn ',').length ≠ 6 then .ok stats
  else (int t ((line.splitOn ',').headD [])).map stats.record

theorem splitFirst_length_lt {s : List Char} (h : '\n' ∈ s) : (splitFirst '\n' s).2.length < s.length := by
  obtain ⟨xs, ys, rfl, hxs⟩ := List.eq_append_cons_of_mem h
  rw [splitFirst_closed hxs, List.length_append, List.length_cons]
  exact Nat.lt_add_left xs.length (Nat.lt_succ_self ys.length)

def drain (stats : Stats) (socketBuffer : List Char) : Stats × List Char × Option Exception :=
  if '\n' ∈ socketBuffer then
    match handle t stats (splitFirst '\n' socketBuffer).1 with
    | .ok stats => drain stats (splitFirst '\n' socketBuffer).2
    | .error e => (stats, (splitFirst '\n' socketBuffer).2, some e)
  else (stats, socketBuffer, none)
termination_by socketBuffer.length
decreasing_by exact splitFirst_length_lt ‹_›

/-- The outer loop, as far as the given passes go. -/
def egressReaderLoop (r : Reader) : List Pass → Reader × Outcome
  | [] => (r, .receiving)
  | pass :: passes =>
      if pass.shutdown then (r, .ended)
      else
        match decode pass.received with
        | .error e => (r, .raised e)
        | .ok dataChunk =>
            if dataChunk = [] then (r, .ended)
            else
              match drain t r.stats (r.socketBuffer ++ dataChunk) with
              | (stats, socketBuffer, none) => egressReaderLoop ⟨stats, socketBuffer⟩ passes
              | (stats, socketBuffer, some e) => (⟨stats, socketBuffer⟩, .raised e)

end Loop

section Reports

def reportFields (packet : EgressPacket) : List Nat :=
  [packet.type.toNat, packet.side.toNat, packet.instrumentId.toNat, packet.clientOrderId.toNat,
    packet.matchPrice.toNat, packet.matchQuantity.toNat]

def reportLine (packet : EgressPacket) : List Char :=
  [','].intercalate ((reportFields packet).map (Nat.toDigits 10))

def reportStr (packet : EgressPacket) : List Char := reportLine packet ++ ['\n']

def encode (text : List Char) : List UInt8 := text.flatMap String.utf8EncodeChar

def payload (packet : EgressPacket) : List UInt8 := encode (reportStr packet)

open CoreLoop (EgressType) in
def typeCode : EgressType → UInt8
  | .orderAccepted => 1
  | .orderRejected => 2
  | .orderCanceled => 3
  | .orderFilled => 4

/-- A report of the core as it stands in the segment. -/
def wire (report : CoreLoop.EgressPacket) : EgressPacket where
  type := typeCode report.type
  side := report.side
  padding16 := 0
  instrumentId := report.instrumentId
  clientOrderId := report.clientOrderId
  makerId := report.makerId
  takerId := report.takerId
  matchPrice := report.matchPrice
  matchQuantity := report.matchQuantity
  leavesQuantity := report.leavesQuantity
  padding := 0

end Reports

section Ascii

def Ascii (text : List Char) : Prop := ∀ c ∈ text, c.toNat < 128

theorem encode_ascii {text : List Char} (h : Ascii text) : encode text = text.map fun c => UInt8.ofNat c.toNat := by
  rw [encode, List.map_eq_flatMap]
  refine List.flatMap_congr fun c hc => ?_
  have hle : c.val.toNat ≤ 127 := Nat.le_of_lt_succ (h c hc)
  rw [String.utf8EncodeChar.eq_def]
  exact if_pos hle

theorem decode_encode (text : List Char) : decode (encode text) = .ok text := by
  have hdecode : (encode text).toByteArray.utf8Decode? = some text.toArray := List.utf8Decode?_utf8Encode
  rw [decode, hdecode]

theorem encode_cut {text : List Char} (h : Ascii text) {front back : List UInt8} (hcut : front ++ back = encode text) :
    ∃ l l', text = l ++ l' ∧ encode l = front ∧ encode l' = back := by
  rw [encode_ascii h] at hcut
  obtain ⟨l, l', rfl, hl, hl'⟩ := List.map_eq_append_iff.mp hcut.symm
  refine ⟨l, l', rfl, ?_, ?_⟩
  · rw [encode_ascii fun c hc => h c (List.mem_append_left _ hc), hl]
  · rw [encode_ascii fun c hc => h c (List.mem_append_right _ hc), hl']

end Ascii

section Chunks

variable (t : CharacterData)

theorem drain_open (stats : Stats) {s : List Char} (h : '\n' ∉ s) : drain t stats s = (stats, s, none) := by
  rw [drain, if_neg h]

theorem drain_closed (stats : Stats) {line : List Char} (h : '\n' ∉ line) (s : List Char) {stats' : Stats}
    (hh : handle t stats line = .ok stats') : drain t stats (line ++ '\n' :: s) = drain t stats' s := by
  rw [drain, if_pos (List.mem_append_right _ List.mem_cons_self), splitFirst_closed h]
  simp only [hh]

theorem drain_eq {stats stats' : Stats} {s : List Char}
    (h : (frames '\n' s).foldlM (handle t) stats = .ok stats') :
    drain t stats s = (stats', residue '\n' s, none) := by
  induction s using stream_induction '\n' generalizing stats with
  | hopen s hs =>
      rw [frames_open hs] at h
      obtain rfl := Except.ok.inj h
      rw [drain_open t stats hs, residue_open hs]
  | hclosed line s hline ih =>
      rw [frames_closed hline, List.foldlM_cons] at h
      cases hh : handle t stats line with
      | error e => rw [hh] at h; cases h
      | ok next =>
          rw [hh] at h
          rw [drain_closed t stats hline s hh, residue_closed hline]
          exact ih h

theorem loop_chunks {chunks : List (List UInt8)} (hne : ∀ chunk ∈ chunks, chunk ≠ []) {text : List Char}
    (hascii : Ascii text) (hcut : chunks.flatten = encode text) {stats stats' : Stats} {buffer : List Char}
    (hbuffer : '\n' ∉ buffer) (h : (frames '\n' (buffer ++ text)).foldlM (handle t) stats = .ok stats') :
    egressReaderLoop t ⟨stats, buffer⟩ (chunks.map (⟨false, ·⟩)) =
      (⟨stats', residue '\n' (buffer ++ text)⟩, .receiving) := by
  -- Between two chunks the buffer is the residue of all that has come, which has no newline.
  induction chunks generalizing text stats buffer with
  | nil =>
      obtain rfl : text = [] := by
        have hnil := decode_encode text
        rw [← hcut, List.flatten_nil] at hnil
        exact Except.ok.inj (hnil.symm.trans (decode_encode []))
      rw [List.append_nil] at h ⊢
      rw [frames_open hbuffer] at h
      obtain rfl := Except.ok.inj h
      rw [residue_open hbuffer]
      rfl
  | cons chunk chunks ih =>
      rw [List.flatten_cons] at hcut
      obtain ⟨l, l', rfl, rfl, hl'⟩ := encode_cut hascii hcut
      have hl : l ≠ [] := by
        rintro rfl
        exact hne _ List.mem_cons_self rfl
      rw [← List.append_assoc, frames_append, List.foldlM_append] at h
      cases hdrain : (frames '\n' (buffer ++ l)).foldlM (handle t) stats with
      | error e => rw [hdrain] at h; cases h
      | ok next =>
          rw [hdrain] at h
          rw [List.map_cons, egressReaderLoop, if_neg (by simp), decode_encode]
          simp only [if_neg hl, drain_eq t hdrain]
          rw [← List.append_assoc, residue_append (buffer ++ l)]
          exact ih (fun c hc => hne c (List.mem_cons_of_mem _ hc))
            (fun c hc => hascii c (List.mem_append_right _ hc)) hl'.symm not_mem_residue h

theorem loop_append {r r' : Reader} {passes : List Pass} (h : egressReaderLoop t r passes = (r', .receiving))
    (more : List Pass) : egressReaderLoop t r (passes ++ more) = egressReaderLoop t r' more := by
  induction passes generalizing r with
  | nil =>
      obtain ⟨rfl, -⟩ := Prod.mk.inj h
      rfl
  | cons pass passes ih =>
      rw [List.cons_append, egressReaderLoop]
      rw [egressReaderLoop] at h
      by_cases hs : pass.shutdown = true
      · rw [if_pos hs] at h
        cases h
      · rw [if_neg hs] at h ⊢
        cases hd : decode pass.received with
        | error e =>
            simp only [hd] at h
            cases h
        | ok dataChunk =>
            simp only [hd] at h ⊢
            by_cases hc : dataChunk = []
            · rw [if_pos hc] at h
              cases h
            · rw [if_neg hc] at h ⊢
              generalize drain t r.stats (r.socketBuffer ++ dataChunk) = result at h ⊢
              obtain ⟨stats, socketBuffer, e⟩ := result
              cases e with
              | none => exact ih h
              | some e => cases h

end Chunks

section Lines

variable (t : CharacterData)

theorem ascii_of_isDigit {c : Char} (h : c.isDigit = true) : 48 ≤ c.toNat ∧ c.toNat ≤ 57 :=
  Char.isDigit_iff_toNat.mp h

theorem digit_of_isDigit {c : Char} (h : c.isDigit = true) : digit t c = some (c.toNat - '0'.toNat) := if_pos h

theorem isSpace_of_isDigit {c : Char} (h : c.isDigit = true) : isSpace t c = false := by
  have hc := ascii_of_isDigit h
  rw [isSpace, if_pos (by omega)]
  exact decide_eq_false (by omega)

theorem isIntSpace_of_isDigit {c : Char} (h : c.isDigit = true) : isIntSpace t c = false := by
  have hc := ascii_of_isDigit h
  rw [isIntSpace, if_pos (by omega)]
  exact decide_eq_false (by omega)

theorem digitsFrom_digits {s : List Char} (h : ∀ c ∈ s, c.isDigit = true) (n : Nat) :
    digitsFrom t n s = some (Nat.ofDigitChars 10 s n) := by
  induction s generalizing n with
  | nil => rfl
  | cons c s ih =>
      have hd := digit_of_isDigit t (h c List.mem_cons_self)
      rw [digitsFrom.eq_def, Nat.ofDigitChars_cons]
      simp only [hd]
      exact ih (fun d hd => h d (List.mem_cons_of_mem _ hd)) _

theorem signed_digits {s : List Char} (h : ∀ c ∈ s, c.isDigit = true) (hne : s ≠ []) :
    signed t s = some (Int.ofNat (Nat.ofDigitChars 10 s 0)) := by
  obtain ⟨c, s, rfl⟩ := List.exists_cons_of_ne_nil hne
  have hc := h c List.mem_cons_self
  have hnat : natural t (c :: s) = some (Nat.ofDigitChars 10 (c :: s) 0) := by
    rw [natural, digit_of_isDigit t hc, Option.bind_some,
      digitsFrom_digits t (fun d hd => h d (List.mem_cons_of_mem _ hd)), Nat.ofDigitChars_cons, Nat.mul_zero,
      Nat.zero_add]
  rw [signed]
  · rw [hnat, Option.map_some]
  · rintro s' he
    obtain ⟨rfl, -⟩ := List.cons.inj he
    cases hc
  · rintro s' he
    obtain ⟨rfl, -⟩ := List.cons.inj he
    cases hc

theorem int_toDigits (n : Nat) : int t (Nat.toDigits 10 n) = .ok n := by
  have hdigits : ∀ c ∈ Nat.toDigits 10 n, c.isDigit = true :=
    fun c hc => Nat.isDigit_of_mem_toDigits (by decide) (by decide) hc
  have hne : Nat.toDigits 10 n ≠ [] := Nat.toDigits_ne_nil
  have hdrop : (Nat.toDigits 10 n).dropWhile (isIntSpace t) = Nat.toDigits 10 n := by
    rw [List.dropWhile_eq_self_iff]
    intro hl
    simp [isIntSpace_of_isDigit t (hdigits _ (List.getElem_mem hl))]
  have hrdrop : (Nat.toDigits 10 n).rdropWhile (isIntSpace t) = Nat.toDigits 10 n := by
    rw [List.rdropWhile_eq_self_iff]
    intro hl
    simp [isIntSpace_of_isDigit t (hdigits _ (List.getLast_mem hl))]
  rw [int, hdrop, hrdrop, signed_digits t hdigits hne, Nat.ofDigitChars_ten_toDigits]
  rfl

theorem strip_ne_nil {s : List Char} {c : Char} (hc : c ∈ s) (hs : isSpace t c = false) : strip t s ≠ [] := by
  intro h
  rw [strip, List.rdropWhile_eq_nil_iff] at h
  have hmem : c ∈ s.dropWhile (isSpace t) := by
    rw [← List.takeWhile_append_dropWhile (p := isSpace t) (l := s), List.mem_append] at hc
    rcases hc with hc | hc
    · exact absurd (hs.symm.trans (List.mem_takeWhile_imp hc)) Bool.false_ne_true
    · exact hc
  exact absurd (hs.symm.trans (h c hmem)) Bool.false_ne_true

theorem splitOn_reportLine (packet : EgressPacket) :
    (reportLine packet).splitOn ',' = (reportFields packet).map (Nat.toDigits 10) := by
  refine List.splitOn_intercalate ',' (fun l hl => ?_) (List.cons_ne_nil _ _)
  obtain ⟨n, -, rfl⟩ := List.mem_map.mp hl
  intro hm
  exact absurd (Nat.isDigit_of_mem_toDigits (by decide) (by decide) hm) (by decide)

theorem mem_reportLine {packet : EgressPacket} {c : Char} (h : c ∈ reportLine packet) : c.isDigit = true ∨ c = ',' := by
  have hdigits (n : Nat) : c ∈ Nat.toDigits 10 n → c.isDigit = true :=
    Nat.isDigit_of_mem_toDigits (by decide) (by decide)
  simp only [reportLine, reportFields, List.map_cons, List.map_nil, List.intercalate, List.intersperse,
    List.flatten_cons, List.flatten_nil, List.mem_append, List.mem_singleton, List.not_mem_nil, or_false] at h
  tauto

theorem newline_not_mem_reportLine (packet : EgressPacket) : '\n' ∉ reportLine packet := by
  intro h
  rcases mem_reportLine h with h | h
  · cases h
  · cases h

theorem reportStr_ascii (packet : EgressPacket) : Ascii (reportStr packet) := by
  intro c hc
  rcases List.mem_append.mp hc with hc | hc
  · rcases mem_reportLine hc with hc | rfl
    · have hle := ascii_of_isDigit hc
      omega
    · decide
  · obtain rfl := List.mem_singleton.mp hc
    decide

theorem handle_reportLine (stats : Stats) (packet : EgressPacket) :
    handle t stats (reportLine packet) = .ok (stats.record packet.type.toNat) := by
  have hstrip : strip t (reportLine packet) ≠ [] := by
    obtain ⟨c, cs, hcs⟩ := List.exists_cons_of_ne_nil (Nat.toDigits_ne_nil (b := 10) (n := packet.type.toNat))
    have hmem : c ∈ Nat.toDigits 10 packet.type.toNat := by
      rw [hcs]
      exact List.mem_cons_self
    have hdigit : c.isDigit = true := Nat.isDigit_of_mem_toDigits (by decide) (by decide) hmem
    refine strip_ne_nil t ?_ (isSpace_of_isDigit t hdigit)
    simp [reportLine, reportFields, List.intercalate, List.intersperse, hmem]
  rw [handle, if_neg hstrip, splitOn_reportLine, if_neg (by simp [reportFields])]
  exact congrArg (Except.map stats.record) (int_toDigits t packet.type.toNat)

end Lines

section Streams

variable (t : CharacterData)

theorem frames_reports (packets : List EgressPacket) :
    frames '\n' (packets.flatMap reportStr) = packets.map reportLine ∧
      residue '\n' (packets.flatMap reportStr) = [] := by
  induction packets with
  | nil => exact ⟨frames_open List.not_mem_nil, residue_open List.not_mem_nil⟩
  | cons packet packets ih =>
      have hline := newline_not_mem_reportLine packet
      rw [List.flatMap_cons, reportStr, List.append_assoc, List.singleton_append, frames_closed hline,
        residue_closed hline, ih.1]
      exact ⟨rfl, ih.2⟩

def Stats.after (stats : Stats) (packets : List EgressPacket) : Stats where
  acceptedCount := stats.acceptedCount + packets.countP fun p => p.type = 1
  filledCount := stats.filledCount + packets.countP fun p => p.type = 4
  rejectedCount := stats.rejectedCount + packets.countP fun p => p.type = 2

theorem record_type (stats : Stats) (packet : EgressPacket) :
    stats.record packet.type.toNat = stats.after [packet] := by
  have htype (n : UInt8) : ((packet.type.toNat : Int) = n.toNat) ↔ packet.type = n := by
    rw [Int.natCast_inj, UInt8.toNat_inj]
  have h1 := htype 1
  have h4 := htype 4
  have h2 := htype 2
  simp only [UInt8.reduceToNat, Nat.cast_ofNat, Nat.cast_one] at h1 h4 h2
  rw [Stats.record]
  simp only [h1, h4, h2]
  by_cases hp : packet.type = 1
  · simp [Stats.after, hp]
  · by_cases hq : packet.type = 4
    · simp [Stats.after, hq]
    · by_cases hr : packet.type = 2
      · simp [Stats.after, hr]
      · simp [Stats.after, hp, hq, hr]

theorem after_cons (stats : Stats) (packet : EgressPacket) (packets : List EgressPacket) :
    (stats.after [packet]).after packets = stats.after (packet :: packets) := by
  simp only [Stats.after, List.countP_cons, List.countP_nil, Stats.mk.injEq]
  omega

theorem handle_reports (stats : Stats) (packets : List EgressPacket) :
    (packets.map reportLine).foldlM (handle t) stats = .ok (stats.after packets) := by
  induction packets generalizing stats with
  | nil => rfl
  | cons packet packets ih =>
      rw [List.map_cons, List.foldlM_cons, handle_reportLine, record_type, ← after_cons stats packet packets]
      exact ih (stats.after [packet])

theorem encode_reports (packets : List EgressPacket) :
    packets.flatMap payload = encode (packets.flatMap reportStr) := by
  rw [encode, List.flatMap_assoc]
  rfl

theorem reports_ascii (packets : List EgressPacket) : Ascii (packets.flatMap reportStr) := by
  intro c hc
  obtain ⟨packet, -, hc⟩ := List.mem_flatMap.mp hc
  exact reportStr_ascii packet c hc

theorem loop_reports {packets : List EgressPacket} {chunks : List (List UInt8)}
    (hne : ∀ chunk ∈ chunks, chunk ≠ []) (hcut : chunks.flatten = packets.flatMap payload) :
    egressReaderLoop t .init (chunks.map (⟨false, ·⟩)) = (⟨Stats.init.after packets, []⟩, .receiving) := by
  obtain ⟨hframes, hresidue⟩ := frames_reports packets
  rw [encode_reports] at hcut
  have hlines : (frames '\n' ([] ++ packets.flatMap reportStr)).foldlM (handle t) .init =
      .ok (Stats.init.after packets) := by
    rw [List.nil_append, hframes]
    exact handle_reports t .init packets
  rw [Reader.init, loop_chunks t hne (reports_ascii packets) hcut List.not_mem_nil hlines, List.nil_append, hresidue]

end Streams

/-- However the reports of some packets are cut into chunks, the reader counts
them by their types, raises nothing and keeps nothing. It is still receiving
after the last chunk, and ends when the connection is closed. -/
theorem reader_chunking_independent (t : CharacterData) (packets : List EgressPacket) {chunks : List (List UInt8)}
    (hne : ∀ chunk ∈ chunks, chunk ≠ []) (hcut : chunks.flatten = packets.flatMap payload) :
    ∃ r : Reader,
      egressReaderLoop t .init (chunks.map (⟨false, ·⟩)) = (r, .receiving) ∧
      egressReaderLoop t .init (chunks.map (⟨false, ·⟩) ++ [⟨false, []⟩]) = (r, .ended) ∧
      r.stats.acceptedCount = packets.countP (fun p => p.type = 1) ∧
      r.stats.filledCount = packets.countP (fun p => p.type = 4) ∧
      r.stats.rejectedCount = packets.countP (fun p => p.type = 2) ∧ r.socketBuffer = [] := by
  have hloop := loop_reports t hne hcut
  refine ⟨_, hloop, ?_, Nat.zero_add _, Nat.zero_add _, Nat.zero_add _, rfl⟩
  rw [loop_append t hloop]
  rfl

def asciiOnly : CharacterData := ⟨fun _ => false, fun _ => none⟩

def traffic : List EgressPacket :=
  [⟨1, 0, 0, 1, 101, 1, 0, 1000, 10, 10, 0⟩, ⟨4, 1, 0, 1, 102, 1, 2, 1000, 10, 0, 0⟩, ⟨2, 0, 0, 1, 7, 0, 0, 0, 0, 0, 0⟩]

def pieces : List (List UInt8) :=
  ["1,0,1,10", "1,1000,10\n4", ",1,1,102,1000,10\n2,0,1,7,0,0", "\n"].map fun piece => encode piece.toList

theorem reader_chunking_pieces :
    (∀ chunk ∈ pieces, chunk ≠ []) ∧ pieces.flatten = traffic.flatMap payload ∧
      ∃ r : Reader,
        egressReaderLoop asciiOnly .init (pieces.map (⟨false, ·⟩)) = (r, .receiving) ∧
        egressReaderLoop asciiOnly .init (pieces.map (⟨false, ·⟩) ++ [⟨false, []⟩]) = (r, .ended) ∧
        r.stats.acceptedCount = 1 ∧ r.stats.filledCount = 1 ∧ r.stats.rejectedCount = 1 ∧ r.socketBuffer = [] := by
  have hne : ∀ chunk ∈ pieces, chunk ≠ [] := by decide +kernel
  have hcut : pieces.flatten = traffic.flatMap payload := by decide +kernel
  exact ⟨hne, hcut, reader_chunking_independent asciiOnly traffic hne hcut⟩

end Sequitur.EgressReader
