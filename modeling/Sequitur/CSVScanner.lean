import Sequitur.DecimalFields
import Sequitur.Protocol

namespace Sequitur.CSVScanner

open Protocol DecimalFields

/-- The inner loop of `ParseCSV`: `right` goes on to the next comma or to the
end of the line. -/
def seek (line : List UInt8) (right : Nat) : Nat :=
  if h : right < line.length then
    if line.get ⟨right, h⟩ = 0x2C then right else seek line (right + 1)
  else right
termination_by line.length - right

theorem le_seek (line : List UInt8) (right : Nat) : right ≤ seek line right := by
  fun_induction seek line right with
  | case1 right h hc => exact Nat.le_refl _
  | case2 right h hc ih => omega
  | case3 right h => exact Nat.le_refl _

/-- The outer loop, over the three variables that the two loops share. -/
def scan (line : List UInt8) (packet : IngressPacket) (left right counter : Nat) :
    IngressPacket × Except NumError Nat :=
  if right < line.length then
    let right' := seek line right
    let val := (line.take right').drop left
    match assignField packet counter val with
    | .ok packet => scan line packet (right' + 1) (right' + 1) (counter + 1)
    | .error err => (packet, .error err)
  else (packet, .ok counter)
termination_by line.length - right
decreasing_by
  have := le_seek line right
  omega

def parseCSV (packet : IngressPacket) (line : List UInt8) : IngressPacket × Option ParseError :=
  let line := trimSpace line
  match scan line packet 0 0 0 with
  | (packet, .ok counter) =>
      if counter ≠ 7 then
        (packet, some (.incomplete ("incomplete packet: expected 7 fields, got " ++ toString counter)))
      else (packet, none)
  | (packet, .error err) => (packet, some (.field err))

section Scanner

theorem seek_spec {line : List UInt8} {right : Nat} (h : right ≤ line.length) :
    ∃ xs, 0x2C ∉ xs ∧ seek line right = right + xs.length ∧
      (line.drop right = xs ∨ line.drop right = xs ++ 0x2C :: line.drop (seek line right + 1)) := by
  fun_induction seek line right with
  | case1 right hlt hc =>
      refine ⟨[], by simp, rfl, .inr ?_⟩
      rw [List.drop_eq_getElem_cons hlt, List.nil_append]
      exact congrArg (· :: _) hc
  | case2 right hlt hc ih =>
      obtain ⟨xs, hx, he, hd⟩ := ih hlt
      refine ⟨line.get ⟨right, hlt⟩ :: xs, ?_, by rw [he, List.length_cons]; omega, ?_⟩
      · intro hm
        rcases List.mem_cons.mp hm with hm | hm
        · exact hc hm.symm
        · exact hx hm
      · rw [List.drop_eq_getElem_cons hlt]
        exact hd.imp (congrArg _) (congrArg _)
  | case3 right hge => exact ⟨[], by simp, rfl, .inl (List.drop_eq_nil_of_le (by omega))⟩

theorem scan_eq (line : List UInt8) (packet : IngressPacket) (right counter : Nat) :
    scan line packet right right counter = assignFields packet counter (pieces 0x2C (line.drop right)) := by
  induction hn : line.length - right using Nat.strong_induction_on generalizing packet right counter with
  | _ n ih =>
      rw [scan]
      by_cases hlt : right < line.length
      · obtain ⟨xs, hx, he, hd⟩ := seek_spec (Nat.le_of_lt hlt)
        have hnext := ih (line.length - (seek line right + 1)) (by omega)
        have hval : (line.take (seek line right)).drop right = xs := by
          rw [he, List.drop_take, Nat.add_sub_cancel_left]
          rcases hd with hd | hd <;> rw [hd]
          · exact List.take_length
          · exact List.take_left
        have hpieces : pieces 0x2C (line.drop right) = xs :: pieces 0x2C (line.drop (seek line right + 1)) := by
          rcases hd with hd | hd
          · have hlen : line.length = right + xs.length := by
              rw [← hd, List.length_drop]
              omega
            have hne : xs ≠ [] := by
              rintro rfl
              rw [List.length_nil] at hlen
              omega
            rw [hd, pieces_single hx hne, List.drop_eq_nil_of_le (by omega), pieces_nil]
          · rw [hd, pieces_cons hx]
        rw [if_pos hlt, hpieces, assignFields]
        dsimp only
        rw [hval]
        cases hfield : assignField packet counter xs with
        | error err => rfl
        | ok packet' => exact hnext packet' _ _ rfl
      · rw [if_neg hlt, List.drop_eq_nil_of_le (by omega), pieces_nil, assignFields]

theorem slices_eq {val : List UInt8} (hv : 0x2C ∉ val) {line : List UInt8} (hne : val ++ line ≠ []) :
    slices val line = pieces 0x2C (val ++ line) := by
  induction line generalizing val with
  | nil =>
      rw [List.append_nil] at hne ⊢
      rw [slices, pieces_single hv hne]
  | cons c line ih =>
      rw [slices.eq_def]
      by_cases hc : c = 0x2C
      · subst hc
        dsimp only
        rw [if_pos rfl, pieces_cons hv]
        cases line with
        | nil => rw [pieces_nil]
        | cons d line => exact congrArg (val :: ·) (ih (by simp) (by simp))
      · dsimp only
        have hval : 0x2C ∉ val ++ [c] := by
          simp [hv, Ne.symm hc]
        rw [if_neg hc, ih hval (by simp), List.append_assoc, List.singleton_append]

/-- The scanner computes the parser that the gateway is modelled with. -/
theorem parseCSV_eq (packet : IngressPacket) (line : List UInt8) :
    parseCSV packet line = Protocol.parseCSV packet line := by
  have hcut : (if trimSpace line = [] then [] else slices [] (trimSpace line)) = pieces 0x2C (trimSpace line) := by
    by_cases hl : trimSpace line = []
    · rw [if_pos hl, hl, pieces_nil]
    · rw [if_neg hl, slices_eq (by simp) hl, List.nil_append]
  rw [parseCSV, Protocol.parseCSV, hcut, scan_eq, List.drop_zero]
  obtain ⟨packet', result⟩ := assignFields packet 0 (pieces 0x2C (trimSpace line))
  cases result <;> rfl

end Scanner

section Numbers

theorem digits_iff {bits n k : Nat} {s : List UInt8} (hn : n < 2 ^ bits) :
    digits bits n s = .ok k ↔ (∀ c ∈ s, Digit c) ∧ valueFrom n s < 2 ^ bits ∧ k = valueFrom n s := by
  induction s generalizing n with
  | nil => simp [digits, valueFrom, hn, eq_comm]
  | cons c s ih =>
      have hv : valueFrom n (c :: s) = valueFrom (10 * n + (c - 0x30).toNat) s := rfl
      have hle := le_valueFrom (10 * n + (c - 0x30).toNat) s
      rw [digits, hv, List.forall_mem_cons]
      by_cases hc : 0x30 ≤ c ∧ c ≤ 0x39
      · rw [if_pos hc]
        by_cases hlt : 10 * n + (c - 0x30).toNat < 2 ^ bits
        · rw [if_pos hlt, ih hlt]
          simp only [Digit, hc, and_self, true_and]
        · rw [if_neg hlt]
          refine ⟨fun h => by simp at h, fun h => absurd h.2.1 (by omega)⟩
      · rw [if_neg hc]
        exact ⟨fun h => by simp at h, fun h => absurd h.1.1 hc⟩

theorem parseUint_iff {bits k : Nat} {s : List UInt8} :
    parseUint s bits = .ok k ↔ Numeral bits s ∧ k = value s := by
  rw [parseUint]
  by_cases hs : s = []
  · rw [if_pos hs]
    exact ⟨fun h => by simp at h, fun h => absurd hs h.1.nonempty⟩
  · rw [if_neg hs, digits_iff (Nat.two_pow_pos bits)]
    exact ⟨fun h => ⟨⟨hs, h.1, h.2.1⟩, h.2.2⟩, fun h => ⟨h.1.digits, h.1.fits, h.2⟩⟩

theorem parseUint_numeral {bits n : Nat} (zeros : Nat) (h : n < 2 ^ bits) :
    parseUint (numeral zeros n) bits = .ok n :=
  parseUint_iff.mpr ⟨numeral_numeral zeros h, (value_numeral zeros n).symm⟩

end Numbers

section TrimSpace

def Space (b : UInt8) : Prop := b = 0x20 ∨ 0x09 ≤ b ∧ b ≤ 0x0D

instance : DecidablePred Space := fun b => inferInstanceAs (Decidable (b = 0x20 ∨ 0x09 ≤ b ∧ b ≤ 0x0D))

theorem Space.lt {b : UInt8} (h : Space b) : b < 0x80 := by
  rcases h with rfl | ⟨-, h⟩
  · decide
  · exact UInt8.lt_of_le_of_lt h (by decide)

theorem digit_lt {b : UInt8} (h : Digit b) : b < 0x80 := UInt8.lt_of_le_of_lt h.2 (by decide)

theorem not_space_of_digit {b : UInt8} (h : Digit b) : ¬ Space b := by
  rintro (rfl | ⟨-, hb⟩)
  · exact absurd h.1 (by decide)
  · exact absurd (UInt8.le_trans h.1 hb) (by decide)

theorem spaceWidth_cons {b : UInt8} (hb : b < 0x80) (s : List UInt8) :
    spaceWidth (b :: s) = if Space b then 1 else 0 := by
  unfold spaceWidth
  split <;> simp_all [Space]

theorem spaceWidth_of_ascii {a : UInt8} (ha : a < 0x80) (b c : UInt8) :
    spaceWidth [c, b, a] ≠ 3 ∧ spaceWidth [b, a] ≠ 2 := by
  constructor
  · unfold spaceWidth
    split <;> try split
    all_goals simp_all
    rename_i h
    rcases h with h | rfl | rfl | rfl
    · exact absurd ha (UInt8.not_lt.mpr h.1)
    all_goals exact absurd ha (by decide)
  · unfold spaceWidth
    split <;> try split
    all_goals simp_all

theorem lastSpaceWidth_cons {a : UInt8} (ha : a < 0x80) (s : List UInt8) :
    lastSpaceWidth (a :: s) = if Space a then 1 else 0 := by
  rw [← spaceWidth_cons ha []]
  cases s with
  | nil => rfl
  | cons b s =>
      cases s with
      | nil => rw [lastSpaceWidth, if_neg (spaceWidth_of_ascii ha b b).2]
      | cons c s => rw [lastSpaceWidth, if_neg (spaceWidth_of_ascii ha b c).1, if_neg (spaceWidth_of_ascii ha b c).2]

theorem trimWith_eq {width : List UInt8 → Nat}
    (hw : ∀ b < 0x80, ∀ s, width (b :: s) = if Space b then 1 else 0) {spaces body : List UInt8}
    (hs : ∀ b ∈ spaces, Space b) {d : UInt8} (hd : Digit d) {fuel : Nat} (hf : spaces.length < fuel) :
    trimWith width fuel (spaces ++ d :: body) = d :: body := by
  induction spaces generalizing fuel with
  | nil =>
      obtain ⟨fuel, rfl⟩ := Nat.exists_eq_add_one_of_ne_zero (Nat.ne_of_gt hf)
      rw [List.nil_append, trimWith, hw d (digit_lt hd), if_neg (not_space_of_digit hd), if_pos rfl]
  | cons b spaces ih =>
      obtain ⟨fuel, rfl⟩ := Nat.exists_eq_add_one_of_ne_zero (Nat.ne_of_gt (Nat.lt_of_le_of_lt (Nat.zero_le _) hf))
      have hb := hs b List.mem_cons_self
      rw [List.cons_append, trimWith, hw b hb.lt, if_pos hb, if_neg Nat.one_ne_zero, List.drop_one, List.tail_cons]
      exact ih (fun c hc => hs c (List.mem_cons_of_mem _ hc)) (by simpa using hf)

theorem trimSpace_eq {pre suf body : List UInt8} (hpre : ∀ b ∈ pre, Space b) (hsuf : ∀ b ∈ suf, Space b)
    (hfirst : ∃ d, Digit d ∧ ∃ rest, body = d :: rest) (hlast : ∃ d, Digit d ∧ ∃ rest, body = rest ++ [d]) :
    trimSpace (pre ++ body ++ suf) = body := by
  obtain ⟨d, hd, rest, rfl⟩ := hfirst
  obtain ⟨e, he, rest', hbody⟩ := hlast
  have hleft : trimWith spaceWidth (pre ++ d :: rest ++ suf).length (pre ++ d :: rest ++ suf) = d :: rest ++ suf := by
    rw [List.append_assoc]
    exact trimWith_eq (fun b hb s => spaceWidth_cons hb s) hpre hd (by simp)
  have hright : (d :: rest ++ suf).reverse = suf.reverse ++ e :: rest'.reverse := by
    rw [hbody]
    simp
  rw [trimSpace, hleft, hright, trimWith_eq (fun b hb s => lastSpaceWidth_cons hb s) (by simpa using hsuf) he, hbody]
  · simp
  · rw [hbody]
    simp
    omega

end TrimSpace

section Fields

/-- The bit sizes with which `assignField` parses the seven fields. -/
def widths : List Nat := [8, 8, 32, 32, 32, 64, 64]

theorem assignFields_extra {counter : Nat} (h : 7 ≤ counter) (packet : IngressPacket) (vals : List (List UInt8)) :
    assignFields packet counter vals = (packet, .ok (counter + vals.length)) := by
  induction vals generalizing counter with
  | nil => rfl
  | cons val vals ih =>
      have hfield : assignField packet counter val = .ok packet := by
        obtain ⟨k, rfl⟩ := Nat.exists_eq_add_of_le' h
        rfl
      rw [assignFields, hfield]
      dsimp only
      rw [ih (by omega), List.length_cons, Nat.add_right_comm, Nat.add_assoc]

theorem map_ok_iff {f : Nat → IngressPacket} {val : List UInt8} {bits : Nat} :
    (∃ packet, (parseUint val bits).map f = .ok packet) ↔ Numeral bits val := by
  constructor
  · rintro ⟨packet, h⟩
    cases hp : parseUint val bits with
    | error err => rw [hp] at h; simp [Except.map] at h
    | ok k => exact (parseUint_iff.mp hp).1
  · intro h
    rw [parseUint_iff.mpr ⟨h, rfl⟩]
    exact ⟨_, rfl⟩

theorem assignField_ok_iff (packet : IngressPacket) {counter bits : Nat} (h : widths[counter]? = some bits)
    (val : List UInt8) : (∃ packet', assignField packet counter val = .ok packet') ↔ Numeral bits val := by
  have hlt : counter < 7 := (List.getElem?_eq_some_iff.mp h).1
  interval_cases counter
  all_goals
    obtain rfl := Option.some.inj h
    exact map_ok_iff

theorem assignFields_ok_iff (packet : IngressPacket) {counter : Nat} (hc : counter ≤ 7)
    (vals : List (List UInt8)) :
    (assignFields packet counter vals).2 = .ok 7 ↔ List.Forall₂ Numeral (widths.drop counter) vals := by
  induction vals generalizing packet counter with
  | nil =>
      rw [assignFields, List.forall₂_nil_right_iff, List.drop_eq_nil_iff]
      simp [widths]
      omega
  | cons val vals ih =>
      rcases Nat.lt_or_eq_of_le hc with hlt | rfl
      · have hdrop : widths.drop counter = widths.get ⟨counter, hlt⟩ :: widths.drop (counter + 1) :=
          List.drop_eq_getElem_cons hlt
        have hfield := assignField_ok_iff packet (List.getElem?_eq_getElem (l := widths) hlt) val
        rw [hdrop, List.forall₂_cons]
        rw [assignFields]
        cases hf : assignField packet counter val with
        | error err =>
            rw [hf] at hfield
            refine ⟨fun h => by simp at h, fun h => ?_⟩
            obtain ⟨packet', h'⟩ := hfield.mpr h.1
            simp at h'
        | ok packet' =>
            rw [hf] at hfield
            dsimp only
            rw [ih packet' hlt]
            exact ⟨fun h => ⟨hfield.mp ⟨packet', rfl⟩, h⟩, fun h => h.2⟩
      · rw [assignFields_extra (Nat.le_refl 7)]
        simp [widths]

theorem parseCSV_none_iff (packet : IngressPacket) (line : List UInt8) :
    (parseCSV packet line).2 = none ↔ List.Forall₂ Numeral widths (pieces 0x2C (trimSpace line)) := by
  have h := assignFields_ok_iff packet (Nat.zero_le 7) (pieces 0x2C (trimSpace line))
  rw [List.drop_zero] at h
  rw [parseCSV, scan_eq, List.drop_zero, ← h]
  obtain ⟨packet', result⟩ := assignFields packet 0 (pieces 0x2C (trimSpace line))
  cases result with
  | error err => simp
  | ok counter =>
      dsimp only
      split
      next hne => simp [hne]
      next heq => simp [Classical.not_not.mp heq]

end Fields

/-- The values of a packet as a line of decimal numerals, with extra zeros in
front of each. -/
def csvLine (zeros : Fin 7 → Nat) (packet : IngressPacket) : List UInt8 :=
  [0x2C].intercalate
    [numeral (zeros 0) packet.type.toNat, numeral (zeros 1) packet.side.toNat,
      numeral (zeros 2) packet.instrumentId.toNat, numeral (zeros 3) packet.traderId.toNat,
      numeral (zeros 4) packet.quantity.toNat, numeral (zeros 5) packet.price.toNat,
      numeral (zeros 6) packet.clientOrderId.toNat]

section RoundTrip

variable (zeros : Fin 7 → Nat) (packet : IngressPacket)

theorem comma_not_mem_numeral (zeros n : Nat) : 0x2C ∉ numeral zeros n := by
  intro h
  exact absurd (numeral_digits zeros n _ h) (by decide)

theorem csvLine_ends : (∃ d, Digit d ∧ ∃ rest, csvLine zeros packet = d :: rest) ∧
    ∃ d, Digit d ∧ ∃ rest, csvLine zeros packet = rest ++ [d] := by
  constructor
  · obtain ⟨d, rest, hd⟩ := List.exists_cons_of_ne_nil (numeral_ne_nil (zeros 0) packet.type.toNat)
    refine ⟨d, numeral_digits (zeros 0) packet.type.toNat d (by simp [hd]), ?_⟩
    rw [csvLine, List.intercalate_cons_cons, hd]
    exact ⟨_, rfl⟩
  · obtain ⟨rest, d, hd⟩ := (List.eq_nil_or_concat (numeral (zeros 6) packet.clientOrderId.toNat)).resolve_left
      (numeral_ne_nil _ _)
    refine ⟨d, numeral_digits (zeros 6) packet.clientOrderId.toNat d (by simp [hd]), ?_⟩
    simp only [csvLine, List.intercalate_cons_cons, List.intercalate_singleton, hd, List.concat_eq_append]
    simp only [← List.append_assoc]
    exact ⟨_, rfl⟩

theorem pieces_csvLine : pieces 0x2C (csvLine zeros packet) =
    [numeral (zeros 0) packet.type.toNat, numeral (zeros 1) packet.side.toNat,
      numeral (zeros 2) packet.instrumentId.toNat, numeral (zeros 3) packet.traderId.toNat,
      numeral (zeros 4) packet.quantity.toNat, numeral (zeros 5) packet.price.toNat,
      numeral (zeros 6) packet.clientOrderId.toNat] := by
  apply pieces_intercalate
  · simp [comma_not_mem_numeral]
  · simp
  · simp [numeral_ne_nil]

/-- Whatever the packet held before, a line of its seven values is parsed to
these values, with any leading zeros and any white space around the line. -/
theorem parseCSV_csvLine (before : IngressPacket) {pre suf : List UInt8} (hpre : ∀ b ∈ pre, Space b)
    (hsuf : ∀ b ∈ suf, Space b) : parseCSV before (pre ++ csvLine zeros packet ++ suf) = (packet, none) := by
  obtain ⟨hfirst, hlast⟩ := csvLine_ends zeros packet
  have hscan : scan (csvLine zeros packet) before 0 0 0 = (packet, .ok 7) := by
    rw [scan_eq, List.drop_zero, pieces_csvLine]
    simp only [assignFields, assignField, parseUint_numeral _ packet.type.toNat_lt,
      parseUint_numeral _ packet.side.toNat_lt, parseUint_numeral _ packet.instrumentId.toNat_lt,
      parseUint_numeral _ packet.traderId.toNat_lt, parseUint_numeral _ packet.quantity.toNat_lt,
      parseUint_numeral _ packet.price.toNat_lt, parseUint_numeral _ packet.clientOrderId.toNat_lt, Except.map,
      UInt8.ofNat_toNat, UInt32.ofNat_toNat, UInt64.ofNat_toNat]
  rw [parseCSV, trimSpace_eq hpre hsuf hfirst hlast, hscan]
  rfl

end RoundTrip

theorem parseCSV_csvLine_padded :
    parseCSV ⟨9, 9, 9, 9, 9, 9, 9⟩ "  001,0,1,7,05,100,18446744073709551615\r\n".toUTF8.toList =
      (⟨1, 0, 1, 7, 5, 100, 18446744073709551615⟩, none) := by
  have hline : "  001,0,1,7,05,100,18446744073709551615\r\n".toUTF8.toList = [0x20, 0x20] ++
      csvLine ![2, 0, 0, 0, 1, 0, 0] ⟨1, 0, 1, 7, 5, 100, 18446744073709551615⟩ ++ [0x0D, 0x0A] := by decide +kernel
  rw [hline]
  exact parseCSV_csvLine _ _ _ (by simp [Space]) (by simp [Space])

example : forwarded "1,0,1,7,5,1000001,9\n".toUTF8.toList = some ⟨1, 0, 1, 7, 5, 1000001, 9⟩ := by decide +kernel

structure WellFormed (line : List UInt8) : Prop where
  commas : line.count 0x2C = 6
  fields : List.Forall₂ Numeral widths (line.splitOn 0x2C)

theorem wellFormed_iff (line : List UInt8) : WellFormed line ↔ List.Forall₂ Numeral widths (line.splitOn 0x2C) := by
  refine ⟨fun h => h.fields, fun h => ⟨?_, h⟩⟩
  have hlen := h.length_eq
  rw [length_splitOn] at hlen
  exact (Nat.succ.inj hlen).symm

/-- A line that is not well-formed is refused, unless it is a well-formed one
with a comma after it. -/
theorem parseCSV_strict_iff (packet : IngressPacket) (line : List UInt8) :
    (((parseCSV packet line).2 = none → WellFormed (trimSpace line)) ∧
        (¬ WellFormed (trimSpace line) → ∃ err, (parseCSV packet line).2 = some err)) ↔
      ¬ ∃ body, trimSpace line = body ++ [0x2C] ∧ WellFormed body := by
  rw [parseCSV_none_iff]
  constructor
  · rintro ⟨h, -⟩ ⟨body, hline, hbody⟩
    rw [hline, pieces_concat] at h
    have hcommas := (h hbody.fields).commas
    rw [List.count_append, hbody.commas] at hcommas
    simp at hcommas
  · intro h
    have hstrict : List.Forall₂ Numeral widths (pieces 0x2C (trimSpace line)) → WellFormed (trimSpace line) := by
      intro hp
      have hne : pieces 0x2C (trimSpace line) ≠ [] := by
        intro he
        rw [he] at hp
        simp [widths] at hp
      rcases pieces_cases hne with hs | ⟨body, hline, hs⟩
      · rw [wellFormed_iff, hs]
        exact hp
      · exact absurd ⟨body, hline, (wellFormed_iff body).mpr (hs ▸ hp)⟩ h
    refine ⟨hstrict, fun hn => Option.ne_none_iff_exists'.mp fun hnone => ?_⟩
    exact hn (hstrict ((parseCSV_none_iff packet line).mp hnone))

/-- A comma after the seventh field is accepted. -/
theorem parseCSV_trailing_comma :
    (parseCSV .zero "1,0,1,7,5,100,9,\n".toUTF8.toList).2 = none ∧
      ¬ WellFormed (trimSpace "1,0,1,7,5,100,9,\n".toUTF8.toList) := by
  refine ⟨by decide +kernel, fun h => ?_⟩
  have hcount : (trimSpace "1,0,1,7,5,100,9,\n".toUTF8.toList).count 0x2C = 7 := by decide +kernel
  exact absurd (hcount.symm.trans h.commas) (by decide)

end Sequitur.CSVScanner
