import Mathlib

namespace Sequitur.DecimalFields

section Pieces

variable {α : Type} [DecidableEq α] (sep : α)

/-- The pieces of a text between its separators. A separator at the very end
closes the piece before it and opens no other. -/
def pieces (s : List α) : List (List α) :=
  if (s.splitOn sep).getLast? = some [] then (s.splitOn sep).dropLast else s.splitOn sep

@[simp] theorem pieces_nil : pieces sep [] = [] := by
  simp [pieces]

variable {sep}

theorem pieces_single {xs : List α} (h : sep ∉ xs) (hne : xs ≠ []) : pieces sep xs = [xs] := by
  rw [pieces, List.splitOn_eq_singleton h, if_neg (by simpa using hne)]

theorem pieces_cons {xs : List α} (h : sep ∉ xs) (ys : List α) :
    pieces sep (xs ++ sep :: ys) = xs :: pieces sep ys := by
  have hne : ys.splitOn sep ≠ [] := List.splitOn_ne_nil sep ys
  have hlast : (xs :: ys.splitOn sep).getLast? = (ys.splitOn sep).getLast? := by
    rw [List.getLast?_cons, List.getLast?_eq_some_getLast hne, Option.getD_some]
  rw [pieces, pieces, List.splitOn_append_cons_self_of_not_mem h, hlast]
  split
  · rw [List.dropLast_cons_of_ne_nil hne]
  · rfl

theorem pieces_concat (body : List α) : pieces sep (body ++ [sep]) = body.splitOn sep := by
  have hs : (body ++ [sep]).splitOn sep = body.splitOn sep ++ [[]] := List.splitOn_append_cons_self body []
  rw [pieces, hs, if_pos List.getLast?_concat, List.dropLast_concat]

theorem pieces_intercalate {ps : List (List α)} (hsep : ∀ l ∈ ps, sep ∉ l) (hps : ps ≠ [])
    (hne : ∀ l ∈ ps, l ≠ []) : pieces sep ([sep].intercalate ps) = ps := by
  rw [pieces, List.splitOn_intercalate sep hsep hps, if_neg]
  intro hlast
  exact hne [] (List.mem_of_getLast? hlast) rfl

omit [DecidableEq α] in
theorem intercalate_concat {ps : List (List α)} (hne : ps ≠ []) (l : List α) :
    [sep].intercalate (ps ++ [l]) = [sep].intercalate ps ++ sep :: l := by
  induction ps with
  | nil => exact absurd rfl hne
  | cons p ps ih =>
      cases ps with
      | nil => simp
      | cons q ps =>
          have hq : [sep].intercalate (p :: q :: ps) = p ++ [sep] ++ [sep].intercalate (q :: ps) :=
            List.intercalate_cons_of_ne_nil (by simp)
          rw [List.cons_append, List.intercalate_cons_of_ne_nil (by simp), ih (by simp), hq, List.append_assoc,
            List.append_assoc, List.append_assoc]

theorem pieces_cases {s : List α} (hne : pieces sep s ≠ []) :
    s.splitOn sep = pieces sep s ∨ ∃ body, s = body ++ [sep] ∧ body.splitOn sep = pieces sep s := by
  by_cases hlast : (s.splitOn sep).getLast? = some []
  · right
    have hp : pieces sep s = (s.splitOn sep).dropLast := if_pos hlast
    obtain ⟨ps, hps⟩ := List.getLast?_eq_some_iff.mp hlast
    rw [hps, List.dropLast_concat] at hp
    have hs : s = [sep].intercalate ps ++ [sep] := by
      rw [← intercalate_concat (hp ▸ hne), ← hps, List.intercalate_splitOn]
    refine ⟨[sep].intercalate ps, hs, ?_⟩
    rw [← pieces_concat, ← hs]
  · exact .inl (if_neg hlast).symm

theorem length_splitOn (s : List α) : (s.splitOn sep).length = s.count sep + 1 := by
  induction s with
  | nil => rfl
  | cons c s ih =>
      rw [List.splitOn_cons_eq_if_modifyHead, List.count_cons]
      by_cases hc : c = sep
      · simp [hc, ih]
      · simp [hc, ih]

end Pieces

def Digit (c : UInt8) : Prop := 0x30 ≤ c ∧ c ≤ 0x39

instance : DecidablePred Digit := fun c => inferInstanceAs (Decidable (0x30 ≤ c ∧ c ≤ 0x39))

def valueFrom (n : Nat) (s : List UInt8) : Nat := s.foldl (fun n c => 10 * n + (c - 0x30).toNat) n

def value (s : List UInt8) : Nat := valueFrom 0 s

/-- A numeral of at least one digit whose value has no more than the given
number of bits. -/
structure Numeral (bits : Nat) (s : List UInt8) : Prop where
  nonempty : s ≠ []
  digits : ∀ c ∈ s, Digit c
  fits : value s < 2 ^ bits

instance (bits : Nat) (s : List UInt8) : Decidable (Numeral bits s) :=
  decidable_of_iff (s ≠ [] ∧ (∀ c ∈ s, Digit c) ∧ value s < 2 ^ bits)
    ⟨fun h => ⟨h.1, h.2.1, h.2.2⟩, fun h => ⟨h.nonempty, h.digits, h.fits⟩⟩

theorem le_valueFrom (n : Nat) (s : List UInt8) : n ≤ valueFrom n s := by
  induction s generalizing n with
  | nil => exact Nat.le_refl n
  | cons c s ih =>
      have h := ih (10 * n + (c - 0x30).toNat)
      have he : valueFrom n (c :: s) = valueFrom (10 * n + (c - 0x30).toNat) s := rfl
      omega

def numeral (zeros n : Nat) : List UInt8 :=
  (List.replicate zeros '0' ++ Nat.toDigits 10 n).map fun c => UInt8.ofNat c.toNat

theorem digit_of_isDigit {c : Char} (h : c.isDigit = true) :
    Digit (UInt8.ofNat c.toNat) ∧ (UInt8.ofNat c.toNat - 0x30).toNat = c.toNat - '0'.toNat := by
  obtain ⟨hlo, hhi⟩ := Char.isDigit_iff_toNat.mp h
  simp only [Char.reduceToNat] at hlo hhi ⊢
  have hsize : c.toNat < UInt8.size := Nat.lt_of_le_of_lt hhi (by decide)
  have hlow : (0x30 : UInt8) ≤ UInt8.ofNat c.toNat := by
    rw [UInt8.le_iff_toNat_le, UInt8.toNat_ofNat_of_lt' hsize]
    exact hlo
  have hhigh : UInt8.ofNat c.toNat ≤ 0x39 := by
    rw [UInt8.le_iff_toNat_le, UInt8.toNat_ofNat_of_lt' hsize]
    exact hhi
  refine ⟨⟨hlow, hhigh⟩, ?_⟩
  rw [UInt8.toNat_sub_of_le _ _ hlow, UInt8.toNat_ofNat_of_lt' hsize]
  rfl

theorem isDigit_of_mem {zeros n : Nat} {c : Char} (h : c ∈ List.replicate zeros '0' ++ Nat.toDigits 10 n) :
    c.isDigit = true := by
  rcases List.mem_append.mp h with h | h
  · rw [List.eq_of_mem_replicate h]
    rfl
  · exact Nat.isDigit_of_mem_toDigits (by decide) (by decide) h

theorem valueFrom_map {cs : List Char} (h : ∀ c ∈ cs, c.isDigit = true) (n : Nat) :
    valueFrom n (cs.map fun c => UInt8.ofNat c.toNat) = Nat.ofDigitChars 10 cs n := by
  induction cs generalizing n with
  | nil => rfl
  | cons c cs ih =>
      rw [Nat.ofDigitChars_cons, ← (digit_of_isDigit (h c List.mem_cons_self)).2,
        ← ih fun d hd => h d (List.mem_cons_of_mem _ hd)]
      rfl

@[simp] theorem value_numeral (zeros n : Nat) : value (numeral zeros n) = n := by
  rw [value, numeral, valueFrom_map fun c => isDigit_of_mem, Nat.ofDigitChars_append,
    Nat.ofDigitChars_replicate_zero, Nat.mul_zero, Nat.ofDigitChars_ten_toDigits]

theorem numeral_digits (zeros n : Nat) : ∀ c ∈ numeral zeros n, Digit c := by
  intro c hc
  obtain ⟨d, hd, rfl⟩ := List.mem_map.mp hc
  exact (digit_of_isDigit (isDigit_of_mem hd)).1

theorem numeral_ne_nil (zeros n : Nat) : numeral zeros n ≠ [] := by
  simp [numeral, Nat.toDigits_ne_nil]

theorem numeral_numeral {bits n : Nat} (zeros : Nat) (h : n < 2 ^ bits) : Numeral bits (numeral zeros n) :=
  ⟨numeral_ne_nil zeros n, numeral_digits zeros n, by rwa [value_numeral]⟩

end Sequitur.DecimalFields
