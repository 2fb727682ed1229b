import Sequitur.DecimalFields
import Sequitur.Framing

namespace Sequitur.FlatObjects

open DecimalFields Framing

section Bytes

def quote : UInt8 := 0x22

def comma : UInt8 := 0x2C

def point : UInt8 := 0x2E

def colon : UInt8 := 0x3A

def opening : UInt8 := 0x7B

def closing : UInt8 := 0x7D

end Bytes

/-- The values of a flat object; a decimal is `n / 10 ^ places`. -/
inductive Value
  | text (s : List UInt8)
  | integer (n : Nat)
  | decimal (places n : Nat)
  deriving DecidableEq

def padded (places n : Nat) : List UInt8 := numeral (places - (Nat.toDigits 10 n).length) n

def Value.render : Value → List UInt8
  | .text s => quote :: (s ++ [quote])
  | .integer n => numeral 0 n
  | .decimal places n => numeral 0 (n / 10 ^ places) ++ point :: padded places (n % 10 ^ places)

/-- Text that needs no escape and does not look like the end of a member. -/
def Plain (s : List UInt8) : Prop := ∀ c ∈ s, 0x20 ≤ c ∧ c < 0x80 ∧ c ≠ quote ∧ c ≠ comma ∧ c ≠ 0x5C

instance (s : List UInt8) : Decidable (Plain s) := inferInstanceAs (Decidable (∀ c ∈ s, _))

def Value.Valid : Value → Prop
  | .text s => Plain s
  | .integer _ => True
  | .decimal places _ => 0 < places

instance : (v : Value) → Decidable v.Valid
  | .text s => inferInstanceAs (Decidable (Plain s))
  | .integer _ => .isTrue trivial
  | .decimal places _ => inferInstanceAs (Decidable (0 < places))

def Whole (s : List UInt8) : Prop := s ≠ [] ∧ (∀ c ∈ s, Digit c) ∧ (s.head? = some 0x30 → s.length = 1)

instance (s : List UInt8) : Decidable (Whole s) := inferInstanceAs (Decidable (_ ∧ _ ∧ _))

def readValue (s : List UInt8) : Option Value :=
  if s.head? = some quote then
    if quote ∈ s.tail ∧ Plain (splitFirst quote s.tail).1 ∧ (splitFirst quote s.tail).2 = [] then
      some (.text (splitFirst quote s.tail).1)
    else none
  else if point ∈ s then
    if Whole (splitFirst point s).1 ∧ (splitFirst point s).2 ≠ [] ∧ ∀ c ∈ (splitFirst point s).2, Digit c then
      some (.decimal (splitFirst point s).2.length (value ((splitFirst point s).1 ++ (splitFirst point s).2)))
    else none
  else if Whole s then some (.integer (value s))
  else none

structure Member where
  key : List UInt8
  value : Value
  deriving DecidableEq

structure Member.Valid (m : Member) : Prop where
  key : Plain m.key
  value : m.value.Valid

def Member.render (m : Member) : List UInt8 := quote :: (m.key ++ quote :: colon :: m.value.render)

def readMember (s : List UInt8) : Option Member :=
  if s.head? = some quote ∧ Plain (splitFirst quote s.tail).1 ∧ (splitFirst quote s.tail).2.head? = some colon then
    (readValue (splitFirst quote s.tail).2.tail).map fun v => ⟨(splitFirst quote s.tail).1, v⟩
  else none

def render (ms : List Member) : List UInt8 :=
  opening :: ([comma].intercalate (ms.map Member.render) ++ [closing])

def read (s : List UInt8) : Option (List Member) :=
  if s.head? = some opening ∧ s.getLast? = some closing then (s.tail.dropLast.splitOn comma).mapM readMember
  else none

section Digits

theorem not_mem_of_digits {s : List UInt8} (h : ∀ c ∈ s, Digit c) {c : UInt8} (hc : ¬ Digit c) : c ∉ s :=
  fun hm => hc (h c hm)

theorem valueFrom_eq (n : Nat) (s : List UInt8) : valueFrom n s = n * 10 ^ s.length + value s := by
  induction s generalizing n with
  | nil => simp [valueFrom, value]
  | cons c s ih =>
      have hn : valueFrom n (c :: s) = valueFrom (10 * n + (c - 0x30).toNat) s := rfl
      have hz : value (c :: s) = valueFrom (10 * 0 + (c - 0x30).toNat) s := rfl
      rw [hn, hz, ih, ih (10 * 0 + _), List.length_cons, Nat.pow_succ]
      ring

theorem value_append (s t : List UInt8) : value (s ++ t) = value s * 10 ^ t.length + value t := by
  have hsplit : value (s ++ t) = valueFrom (value s) t := by
    rw [value, valueFrom, List.foldl_append]
    rfl
  rw [hsplit, valueFrom_eq]

theorem head_toDigits (n : Nat) : (Nat.toDigits 10 n).head? = some '0' → n = 0 := by
  induction n using Nat.strong_induction_on with
  | _ n ih =>
      intro h
      by_cases hn : n < 10
      · rw [Nat.toDigits_of_lt_base hn, List.head?_cons, Option.some.injEq] at h
        interval_cases n <;> revert h <;> decide
      · rw [Nat.toDigits_of_base_le (by decide) (by omega), List.head?_append_of_ne_nil _ Nat.toDigits_ne_nil] at h
        have hz := ih (n / 10) (by omega) h
        omega

theorem whole_numeral (n : Nat) : Whole (numeral 0 n) := by
  refine ⟨numeral_ne_nil 0 n, numeral_digits 0 n, fun h => ?_⟩
  rw [numeral, List.replicate_zero, List.nil_append] at h ⊢
  rw [List.head?_map, Option.map_eq_some_iff] at h
  obtain ⟨c, hc, hzero⟩ := h
  have hdigit : c.isDigit = true :=
    Nat.isDigit_of_mem_toDigits (by decide) (by decide) (List.mem_of_head? hc)
  have hchar : c = '0' := by
    have hval := (digit_of_isDigit hdigit).2
    rw [hzero] at hval
    obtain ⟨hlo, -⟩ := Char.isDigit_iff_toNat.mp hdigit
    exact Char.toNat_inj.mp (Nat.le_antisymm (Nat.sub_eq_zero_iff_le.mp hval.symm) hlo)
  rw [head_toDigits n (hchar ▸ hc), List.length_map]
  rfl

theorem length_padded {places n : Nat} (hp : 0 < places) (hn : n < 10 ^ places) :
    (padded places n).length = places := by
  have hle := (Nat.length_toDigits_le_iff (by decide) hp).mpr hn
  rw [padded, numeral, List.length_map, List.length_append, List.length_replicate]
  omega

end Digits

section RoundTrip

theorem quote_not_mem {s : List UInt8} (h : Plain s) : quote ∉ s := fun hm => (h quote hm).2.2.1 rfl

theorem comma_not_mem {s : List UInt8} (h : Plain s) : comma ∉ s := fun hm => (h comma hm).2.2.2.1 rfl

theorem readValue_render {v : Value} (h : v.Valid) : readValue v.render = some v := by
  cases v with
  | text s =>
      have hsplit : splitFirst quote (s ++ [quote]) = (s, []) := splitFirst_closed (quote_not_mem h) []
      simp only [Value.render, readValue, List.head?_cons, List.tail_cons, if_true, hsplit]
      rw [if_pos ⟨by simp, h, trivial⟩]
  | integer n =>
      have hdigits := numeral_digits 0 n
      have hquote : (numeral 0 n).head? ≠ some quote :=
        fun hq => not_mem_of_digits hdigits (by decide) (List.mem_of_head? hq)
      have hpoint : point ∉ numeral 0 n := not_mem_of_digits hdigits (by decide)
      rw [Value.render, readValue, if_neg hquote, if_neg hpoint, if_pos (whole_numeral n), value_numeral]
  | decimal places n =>
      have hwhole := whole_numeral (n / 10 ^ places)
      have hlength := length_padded h (Nat.mod_lt n (Nat.pow_pos (by decide : 0 < 10)))
      have hsplit : splitFirst point (numeral 0 (n / 10 ^ places) ++ point :: padded places (n % 10 ^ places)) =
          (numeral 0 (n / 10 ^ places), padded places (n % 10 ^ places)) :=
        splitFirst_closed (not_mem_of_digits hwhole.2.1 (by decide)) _
      have hquote : (numeral 0 (n / 10 ^ places) ++ point :: padded places (n % 10 ^ places)).head? ≠ some quote := by
        rw [List.head?_append_of_ne_nil _ hwhole.1]
        exact fun hq => not_mem_of_digits hwhole.2.1 (by decide) (List.mem_of_head? hq)
      have hfraction : padded places (n % 10 ^ places) ≠ [] := numeral_ne_nil _ _
      simp only [Value.render, readValue, if_neg hquote, hsplit]
      rw [if_pos (by simp), if_pos ⟨hwhole, hfraction, numeral_digits _ _⟩, value_append, hlength, value_numeral,
        padded, value_numeral, Nat.div_add_mod']

theorem readMember_render {m : Member} (h : m.Valid) : readMember m.render = some m := by
  have hsplit : splitFirst quote (m.key ++ quote :: colon :: m.value.render) = (m.key, colon :: m.value.render) :=
    splitFirst_closed (quote_not_mem h.key) _
  simp only [Member.render, readMember, List.head?_cons, List.tail_cons, hsplit, readValue_render h.value,
    Option.map_some]
  rw [if_pos ⟨trivial, h.key, trivial⟩]

theorem comma_not_mem_render {v : Value} (h : v.Valid) : comma ∉ v.render := by
  cases v with
  | text s =>
      simp only [Value.render, List.mem_cons, List.mem_append, List.not_mem_nil, or_false, not_or]
      exact ⟨by decide, comma_not_mem h, by decide⟩
  | integer n => exact not_mem_of_digits (numeral_digits 0 n) (by decide)
  | decimal places n =>
      simp only [Value.render, List.mem_append, List.mem_cons, not_or]
      exact ⟨not_mem_of_digits (numeral_digits _ _) (by decide), by decide,
        not_mem_of_digits (numeral_digits _ _) (by decide)⟩

theorem Member.comma_not_mem {m : Member} (h : m.Valid) : comma ∉ m.render := by
  simp only [Member.render, List.mem_cons, List.mem_append, not_or]
  exact ⟨by decide, FlatObjects.comma_not_mem h.key, by decide, by decide, comma_not_mem_render h.value⟩

theorem mapM_readMember {ms : List Member} (h : ∀ m ∈ ms, m.Valid) :
    (ms.map Member.render).mapM readMember = some ms := by
  induction ms with
  | nil => rfl
  | cons m ms ih =>
      rw [List.map_cons, List.mapM_cons, readMember_render (h m List.mem_cons_self),
        ih fun x hx => h x (List.mem_cons_of_mem _ hx)]
      rfl

theorem read_render {ms : List Member} (hne : ms ≠ []) (h : ∀ m ∈ ms, m.Valid) : read (render ms) = some ms := by
  have hlast : (render ms).getLast? = some closing := by simp [render, List.getLast?_cons]
  have hbody : (render ms).tail.dropLast = [comma].intercalate (ms.map Member.render) := by
    rw [render, List.tail_cons, List.dropLast_concat]
  have hcomma : ∀ l ∈ ms.map Member.render, comma ∉ l := by
    intro l hl
    obtain ⟨m, hm, rfl⟩ := List.mem_map.mp hl
    exact Member.comma_not_mem (h m hm)
  rw [read, if_pos ⟨rfl, hlast⟩, hbody, List.splitOn_intercalate _ hcomma (by simpa using hne), mapM_readMember h]

end RoundTrip

section Printable

theorem printable_of_digits {s : List UInt8} (h : ∀ c ∈ s, Digit c) : ∀ c ∈ s, 0x20 ≤ c :=
  fun c hc => UInt8.le_trans (by decide) (h c hc).1

theorem printable_value {v : Value} (h : v.Valid) : ∀ c ∈ v.render, 0x20 ≤ c := by
  intro c hc
  cases v with
  | text s =>
      simp only [Value.render, List.mem_cons, List.mem_append, List.not_mem_nil, or_false] at hc
      rcases hc with rfl | hc | rfl
      · decide
      · exact (h c hc).1
      · decide
  | integer n => exact printable_of_digits (numeral_digits 0 n) c hc
  | decimal places n =>
      rcases List.mem_append.mp hc with hc | hc
      · exact printable_of_digits (numeral_digits _ _) c hc
      · rcases List.mem_cons.mp hc with rfl | hc
        · decide
        · exact printable_of_digits (numeral_digits _ _) c hc

theorem printable_member {m : Member} (h : m.Valid) : ∀ c ∈ m.render, 0x20 ≤ c := by
  intro c hc
  simp only [Member.render, List.mem_cons, List.mem_append] at hc
  rcases hc with rfl | hc | rfl | rfl | hc
  · decide
  · exact (h.key c hc).1
  · decide
  · decide
  · exact printable_value h.value c hc

theorem mem_intercalate {c sep : UInt8} {ls : List (List UInt8)} (h : c ∈ [sep].intercalate ls) :
    c = sep ∨ ∃ l ∈ ls, c ∈ l := by
  induction ls with
  | nil => simp at h
  | cons l ls ih =>
      cases ls with
      | nil => exact .inr ⟨l, List.mem_cons_self, by simpa using h⟩
      | cons l' ls =>
          rw [List.intercalate_cons_cons, List.mem_append, List.mem_append, List.mem_singleton] at h
          rcases h with (h | h) | h
          · exact .inr ⟨l, List.mem_cons_self, h⟩
          · exact .inl h
          · obtain h | ⟨m, hm, hc⟩ := ih h
            · exact .inl h
            · exact .inr ⟨m, List.mem_cons_of_mem _ hm, hc⟩

theorem printable {ms : List Member} (h : ∀ m ∈ ms, m.Valid) : ∀ c ∈ render ms, 0x20 ≤ c := by
  intro c hc
  simp only [render, List.mem_cons, List.mem_append, List.not_mem_nil, or_false] at hc
  rcases hc with rfl | hc | rfl
  · decide
  · obtain rfl | ⟨l, hl, hc⟩ := mem_intercalate hc
    · decide
    · obtain ⟨m, hm, rfl⟩ := List.mem_map.mp hl
      exact printable_member (h m hm) c hc
  · decide

end Printable

end Sequitur.FlatObjects
