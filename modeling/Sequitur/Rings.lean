import Mathlib

namespace Sequitur.Rings

/-- A ring of slots in memory with its two cursors. The consumer owns the read
cursor and the producer the write cursor; neither is ever reduced, they wrap. -/
@[ext] structure Ring (T : Type) (w : Nat) where
  buf : Nat → T
  readIdx : BitVec w
  writeIdx : BitVec w

variable {T : Type} {w m : Nat}

def slot (m : Nat) (idx : BitVec w) : Nat := (idx &&& BitVec.ofNat w (2 ^ m - 1)).toNat

def cursor (base : BitVec w) (k : Nat) : BitVec w := base + BitVec.ofNat w k

theorem update_eq_of_imp {buf : Nat → T} {i j : Nat} {x : T} (h : j ≠ i → buf i = x) :
    Function.update buf j x i = x := by
  by_cases hj : j = i
  · rw [hj, Function.update_self]
  · rw [Function.update_of_ne (Ne.symm hj), h hj]

section Cursors

variable (base : BitVec w)

@[simp] theorem cursor_zero : cursor base 0 = base := by
  simp [cursor]

theorem cursor_add (j k : Nat) : cursor base j + BitVec.ofNat w k = cursor base (j + k) := by
  rw [cursor, cursor, BitVec.ofNat_add, BitVec.add_assoc]

theorem cursor_add_one (k : Nat) : cursor base k + 1 = cursor base (k + 1) :=
  cursor_add base k 1

theorem cursor_sub {j k : Nat} (h : j ≤ k) (hw : k - j < 2 ^ w) :
    (cursor base k - cursor base j).toNat = k - j := by
  obtain ⟨d, rfl⟩ := Nat.exists_eq_add_of_le h
  have hd : cursor base (j + d) - cursor base j = BitVec.ofNat w d := by
    rw [cursor, cursor, BitVec.ofNat_add, ← BitVec.add_assoc]
    exact BitVec.sub_eq_iff_eq_add.mpr (BitVec.add_comm ..)
  rw [Nat.add_sub_cancel_left] at hw ⊢
  rw [hd, BitVec.toNat_ofNat, Nat.mod_eq_of_lt hw]

theorem cursor_sub_toInt {j k : Nat} (hlo : -2 ^ w ≤ 2 * ((k : Int) - j)) (hhi : 2 * ((k : Int) - j) < 2 ^ w) :
    (cursor base k - cursor base j).toInt = (k : Int) - j := by
  have hd : (cursor base k - cursor base j).toInt = ((k : Int) - j).bmod (2 ^ w) := by
    simp only [cursor, BitVec.toInt_sub, BitVec.toInt_add, BitVec.toInt_ofNat', Int.bmod_sub_bmod,
      Int.sub_bmod_bmod, Int.add_bmod_bmod]
    congr 1
    omega
  rw [hd]
  apply Int.bmod_eq_of_le_mul_two <;> push_cast <;> omega

theorem cursor_eq_iff {j k : Nat} (h : j ≤ k) (hw : k - j < 2 ^ w) :
    cursor base j = cursor base k ↔ j = k := by
  refine ⟨fun he => ?_, fun he => he ▸ rfl⟩
  have hd := cursor_sub base h hw
  rw [he, BitVec.sub_self] at hd
  simp only [BitVec.toNat_zero] at hd
  omega

theorem slot_cursor (hm : m ≤ w) (k : Nat) : slot m (cursor base k) = (base.toNat + k) % 2 ^ m := by
  have hpow : 2 ^ m - 1 < 2 ^ w := by
    have := Nat.pow_le_pow_right (Nat.zero_lt_two) hm
    have := Nat.two_pow_pos m
    omega
  rw [slot, BitVec.toNat_and, BitVec.toNat_ofNat, Nat.mod_eq_of_lt hpow, Nat.and_two_pow_sub_one_eq_mod,
    cursor, BitVec.toNat_add, BitVec.toNat_ofNat, Nat.add_mod_mod, Nat.mod_mod_of_dvd _ (Nat.pow_dvd_pow 2 hm)]

theorem slot_cursor_ne (hm : m ≤ w) {j k : Nat} (h : j < k) (hk : k < j + 2 ^ m) :
    slot m (cursor base j) ≠ slot m (cursor base k) := by
  rw [slot_cursor base hm, slot_cursor base hm]
  intro he
  have hd : 2 ^ m ∣ (base.toNat + k) - (base.toNat + j) :=
    Nat.dvd_of_mod_eq_zero (Nat.sub_mod_eq_zero_of_mod_eq he.symm)
  have hle := Nat.le_of_dvd (by omega) hd
  omega

end Cursors

/-- `put` is everything that was published in the ring, and the consumer has
released the first `taken` of it; the rest is still in its slots. -/
structure Carries (m : Nat) (base : BitVec w) (r : Ring T w) (taken : Nat) (put : List T) : Prop where
  readIdx : r.readIdx = cursor base taken
  writeIdx : r.writeIdx = cursor base put.length
  order : taken ≤ put.length
  room : put.length ≤ taken + 2 ^ m
  held : ∀ k x, taken ≤ k → put[k]? = some x → r.buf (slot m (cursor base k)) = x

namespace Carries

variable {base : BitVec w} {r : Ring T w} {taken : Nat} {put : List T}

theorem init (m : Nat) (buf : Nat → T) (base : BitVec w) : Carries m base ⟨buf, base, base⟩ 0 [] :=
  ⟨(cursor_zero base).symm, (cursor_zero base).symm, Nat.le_refl _, Nat.zero_le _, by simp⟩

variable (h : Carries m base r taken put)

include h

theorem length_sub_lt (hm : m < w) : put.length - taken < 2 ^ w := by
  have hpow := Nat.pow_lt_pow_right Nat.one_lt_two hm
  have hroom := h.room
  have hpos := Nat.two_pow_pos m
  omega

theorem distance (hm : m < w) : (r.writeIdx - r.readIdx).toNat = put.length - taken := by
  rw [h.writeIdx, h.readIdx, cursor_sub base h.order (h.length_sub_lt hm)]

theorem empty_iff (hm : m < w) : r.readIdx = r.writeIdx ↔ taken = put.length := by
  rw [h.readIdx, h.writeIdx, cursor_eq_iff base h.order (h.length_sub_lt hm)]

theorem front (ht : taken < put.length) : put[taken]? = some (r.buf (slot m r.readIdx)) := by
  have hget : put[taken]? = some put[taken] := List.getElem?_eq_getElem ht
  rw [hget, h.readIdx, h.held taken _ (Nat.le_refl _) hget]

theorem release (ht : taken < put.length) : Carries m base { r with readIdx := r.readIdx + 1 } (taken + 1) put where
  readIdx := (congrArg (· + 1) h.readIdx).trans (cursor_add_one base taken)
  writeIdx := h.writeIdx
  order := ht
  room := by have := h.room; omega
  held := fun k x hk hx => h.held k x (by omega) hx

theorem fill (hm : m ≤ w) (hr : put.length < taken + 2 ^ m) (x : T) :
    Carries m base { r with buf := Function.update r.buf (slot m r.writeIdx) x } taken put where
  readIdx := h.readIdx
  writeIdx := h.writeIdx
  order := h.order
  room := h.room
  held := by
    intro k y hk hy
    have hlt : k < put.length := (List.getElem?_eq_some_iff.mp hy).1
    rw [h.writeIdx]
    exact (Function.update_of_ne (slot_cursor_ne base hm hlt (by omega)) ..).trans (h.held k y hk hy)

theorem publish (hr : put.length < taken + 2 ^ m) {x : T} (hx : r.buf (slot m r.writeIdx) = x) :
    Carries m base { r with writeIdx := r.writeIdx + 1 } taken (put ++ [x]) where
  readIdx := h.readIdx
  writeIdx := by
    rw [List.length_append, List.length_singleton, ← cursor_add_one, ← h.writeIdx]
  order := by have := h.order; simp only [List.length_append]; omega
  room := by simp only [List.length_append, List.length_singleton]; omega
  held := by
    intro k y hk hy
    rcases Nat.lt_or_ge k put.length with hlt | hge
    · exact h.held k y hk (by rwa [List.getElem?_append_left hlt] at hy)
    · have hlt := (List.getElem?_eq_some_iff.mp hy).1
      simp only [List.length_append, List.length_singleton] at hlt
      obtain rfl : k = put.length := by omega
      rw [List.getElem?_concat_length] at hy
      rw [← Option.some.inj hy, ← hx, h.writeIdx]

theorem push (hm : m < w) (hd : (r.writeIdx - r.readIdx).toNat ≠ 2 ^ m) (x : T) :
    Carries m base ⟨Function.update r.buf (slot m r.writeIdx) x, r.readIdx, r.writeIdx + 1⟩ taken (put ++ [x]) := by
  have hroom : put.length < taken + 2 ^ m := by
    rw [h.distance hm] at hd
    have hle := h.room
    have hpos := Nat.two_pow_pos m
    omega
  exact (h.fill (Nat.le_of_lt hm) hroom x).publish hroom (Function.update_self ..)

omit h in
theorem pop {got : List T} (h : Carries m base r got.length put) (hm : m < w) (hgot : got <+: put)
    (hne : r.readIdx ≠ r.writeIdx) :
    Carries m base ⟨r.buf, r.readIdx + 1, r.writeIdx⟩ (got ++ [r.buf (slot m r.readIdx)]).length put ∧
      got ++ [r.buf (slot m r.readIdx)] <+: put := by
  have hlt : got.length < put.length := Nat.lt_of_le_of_ne h.order (mt (h.empty_iff hm).mpr hne)
  have hx : put[got.length] = r.buf (slot m r.readIdx) := by
    have hfront := h.front hlt
    rw [List.getElem?_eq_getElem hlt] at hfront
    exact Option.some.inj hfront
  rw [List.length_append, List.length_singleton, ← hx]
  exact ⟨h.release hlt, List.concat_get_prefix hgot hlt⟩

end Carries

section Consumer

inductive Take (T : Type) (w : Nat)
  | idle
  | loaded (idx : BitVec w)
  | nonempty (idx : BitVec w)
  | copied (idx : BitVec w) (x : T)

/-- The next access of a consumer that loads the read cursor and the write
cursor, copies the item and stores the read cursor. The last component is the
result when the call has ended: an item, or none if the ring was empty. -/
def take (m : Nat) (r : Ring T w) : Take T w → Ring T w × Take T w × Option (Option T)
  | .idle => (r, .loaded r.readIdx, none)
  | .loaded idx => if idx = r.writeIdx then (r, .idle, some none) else (r, .nonempty idx, none)
  | .nonempty idx => (r, .copied idx (r.buf (slot m idx)), none)
  | .copied idx x => ({ r with readIdx := idx + 1 }, .idle, some (some x))

@[simp] theorem take_buf (r : Ring T w) (c : Take T w) : (take m r c).1.buf = r.buf := by
  cases c with
  | loaded idx => rw [take]; split <;> rfl
  | idle | nonempty idx | copied idx x => rfl

@[simp] theorem take_writeIdx (r : Ring T w) (c : Take T w) : (take m r c).1.writeIdx = r.writeIdx := by
  cases c with
  | loaded idx => rw [take]; split <;> rfl
  | idle | nonempty idx | copied idx x => rfl

def Take.rank : Take T w → Nat
  | .idle => 3
  | .loaded _ => 2
  | .nonempty _ => 1
  | .copied _ _ => 0

theorem take_rank (m : Nat) (r : Ring T w) (c : Take T w) :
    if (take m r c).2.2 = none then (take m r c).2.1.rank < c.rank else (take m r c).2.1 = .idle := by
  cases c with
  | idle => simp [take, Take.rank]
  | loaded idx => by_cases he : idx = r.writeIdx <;> simp [take, he, Take.rank]
  | nonempty idx => simp [take, Take.rank]
  | copied idx x => simp [take]

def received : Option (Option T) → List T
  | some (some x) => [x]
  | _ => []

def Take.Sound (readIdx : BitVec w) (taken : Nat) (put : List T) : Take T w → Prop
  | .idle => True
  | .loaded idx => idx = readIdx
  | .nonempty idx => idx = readIdx ∧ taken < put.length
  | .copied idx x => idx = readIdx ∧ put[taken]? = some x

theorem getElem?_append_of_some {l : List T} {k : Nat} {x : T} (h : l[k]? = some x) (l' : List T) :
    (l ++ l')[k]? = some x := by
  rw [List.getElem?_append_left (List.getElem?_eq_some_iff.mp h).1, h]

theorem Take.Sound.publish {readIdx : BitVec w} {taken : Nat} {put : List T} {c : Take T w}
    (h : c.Sound readIdx taken put) (x : T) : c.Sound readIdx taken (put ++ [x]) := by
  cases c with
  | idle => trivial
  | loaded idx => exact h
  | nonempty idx => exact ⟨h.1, Nat.lt_of_lt_of_le h.2 (by simp)⟩
  | copied idx y => exact ⟨h.1, getElem?_append_of_some h.2 _⟩

/-- A ring in the hands of one consumer, which has got the items `got` out of
the published items `put`. -/
structure Consumes (m : Nat) (base : BitVec w) (r : Ring T w) (c : Take T w) (put got : List T) : Prop where
  carries : Carries m base r got.length put
  ordered : got <+: put
  consumer : c.Sound r.readIdx got.length put

namespace Consumes

variable {base : BitVec w} {r : Ring T w} {c : Take T w} {put got : List T}

theorem init (m : Nat) (buf : Nat → T) (base : BitVec w) : Consumes m base ⟨buf, base, base⟩ .idle [] [] :=
  ⟨.init m buf base, List.prefix_rfl, trivial⟩

variable (h : Consumes m base r c put got)

include h

theorem take (hm : m < w) :
    Consumes m base (take m r c).1 (take m r c).2.1 put (got ++ received (take m r c).2.2) := by
  obtain ⟨hcar, hgot, hc⟩ := h
  cases c with
  | idle => exact ⟨by simpa [Rings.take, received] using hcar, by simpa [Rings.take, received] using hgot, rfl⟩
  | loaded idx =>
      obtain rfl : idx = r.readIdx := hc
      rw [Rings.take]
      split
      next => exact ⟨by simpa [received] using hcar, by simpa [received] using hgot, trivial⟩
      next hne =>
        have hlt := Nat.lt_of_le_of_ne hcar.order (mt (hcar.empty_iff hm).mpr hne)
        simp only [received, List.append_nil]
        exact ⟨hcar, hgot, rfl, hlt⟩
  | nonempty idx =>
      obtain ⟨rfl, hlt⟩ := hc
      simp only [Rings.take, received, List.append_nil]
      exact ⟨hcar, hgot, rfl, hcar.front hlt⟩
  | copied idx x =>
      obtain ⟨rfl, hx⟩ := hc
      obtain ⟨hlt, rfl⟩ := List.getElem?_eq_some_iff.mp hx
      refine ⟨?_, List.concat_get_prefix hgot hlt, trivial⟩
      simp only [Rings.take, received, List.length_append, List.length_singleton]
      exact hcar.release hlt

theorem fill (hm : m ≤ w) (hr : put.length < got.length + 2 ^ m) (x : T) :
    Consumes m base { r with buf := Function.update r.buf (slot m r.writeIdx) x } c put got :=
  ⟨h.carries.fill hm hr x, h.ordered, h.consumer⟩

theorem publish (hr : put.length < got.length + 2 ^ m) {x : T} (hx : r.buf (slot m r.writeIdx) = x) :
    Consumes m base { r with writeIdx := r.writeIdx + 1 } c (put ++ [x]) got :=
  ⟨h.carries.publish hr hx, h.ordered.trans (List.prefix_append _ _), h.consumer.publish x⟩

theorem take_ne_none (hm : m < w) (hlt : got.length < put.length) : (Rings.take m r c).2.2 ≠ some none := by
  cases c with
  | idle | nonempty | copied => simp [Rings.take]
  | loaded idx =>
      obtain rfl : idx = r.readIdx := h.consumer
      have hne : r.readIdx ≠ r.writeIdx := fun he => Nat.ne_of_lt hlt ((h.carries.empty_iff hm).mp he)
      simp [Rings.take, hne]

theorem take_cases (hm : m < w) :
    (Rings.take m r c).2.2 = none ∧ (Rings.take m r c).2.1.rank < c.rank ∨
      (Rings.take m r c).2.2 = some none ∧ (Rings.take m r c).2.1 = .idle ∧ got.length = put.length ∨
      ∃ x, (Rings.take m r c).2.2 = some (some x) ∧ (Rings.take m r c).2.1 = .idle ∧ got.length < put.length := by
  have hrank := take_rank m r c
  rcases hr : (Rings.take m r c).2.2 with - | - | x
  · rw [if_pos hr] at hrank
    exact .inl ⟨rfl, hrank⟩
  · rw [if_neg (by simp [hr])] at hrank
    refine .inr (.inl ⟨rfl, hrank, Nat.le_antisymm h.carries.order (Nat.not_lt.mp fun hlt => ?_)⟩)
    exact h.take_ne_none hm hlt hr
  · rw [if_neg (by simp [hr])] at hrank
    have horder := (h.take hm).carries.order
    rw [hr, received, List.length_append] at horder
    exact .inr (.inr ⟨x, rfl, hrank, horder⟩)

theorem take_progress (hm : m < w) (hlt : got.length < put.length) :
    (Rings.take m r c).2.2 = none ∧ (Rings.take m r c).2.1.rank < c.rank ∨
      ∃ x, (Rings.take m r c).2.2 = some (some x) ∧ (Rings.take m r c).2.1 = .idle := by
  rcases h.take_cases hm with hnext | ⟨-, -, hempty⟩ | ⟨x, hr, hidle, -⟩
  · exact .inl hnext
  · exact absurd hempty (Nat.ne_of_lt hlt)
  · exact .inr ⟨x, hr, hidle⟩

theorem eq_of_empty (hm : m < w) (he : r.readIdx = r.writeIdx) : got = put :=
  h.ordered.eq_of_length ((h.carries.empty_iff hm).mp he)

end Consumes

end Consumer

end Sequitur.Rings
