import Mathlib

namespace Sequitur.LinkedLists

variable {ι ν : Type} [DecidableEq ι] [DecidableEq ν]

/-- A family of doubly linked lists, one for each index, whose nodes share
one store of link fields. -/
@[ext] structure Links (ι ν : Type) where
  head : ι → Option ν
  tail : ι → Option ν
  next : ν → Option ν
  prev : ν → Option ν

/-- The nodes of a segment are linked in both directions, entered from
`before` and left towards `after`. -/
def Segment (next prev : ν → Option ν) : Option ν → List ν → Option ν → Prop
  | _, [], _ => True
  | before, x :: xs, after =>
      prev x = before ∧ next x = xs.head?.or after ∧ Segment next prev (some x) xs after

structure Holds (s : Links ι ν) (l : ι → List ν) : Prop where
  head : ∀ i, s.head i = (l i).head?
  tail : ∀ i, s.tail i = (l i).getLast?
  segment : ∀ i, Segment s.next s.prev none (l i) none
  nodup : ∀ i, (l i).Nodup
  apart : ∀ i j x, x ∈ l i → x ∈ l j → i = j

def pushBack (s : Links ι ν) (i : ι) (x : ν) : Links ι ν :=
  match s.head i with
  | none =>
      ⟨Function.update s.head i (some x), Function.update s.tail i (some x),
        Function.update s.next x none, Function.update s.prev x none⟩
  | some _ =>
      ⟨s.head, Function.update s.tail i (some x),
        Function.update (match s.tail i with
          | none => s.next
          | some y => Function.update s.next y (some x)) x none,
        Function.update s.prev x (s.tail i)⟩

/-- The forward link is redirected first, and the back link is then chosen
by reading the forward link again. -/
def unlink (s : Links ι ν) (i : ι) (x : ν) : Links ι ν :=
  let next := match s.prev x with
    | none => s.next
    | some y => Function.update s.next y (s.next x)
  { head := match s.prev x with
      | none => Function.update s.head i (s.next x)
      | some _ => s.head
    tail := match next x with
      | none => Function.update s.tail i (s.prev x)
      | some _ => s.tail
    next := next
    prev := match next x with
      | none => s.prev
      | some y => Function.update s.prev y (s.prev x) }

def walk (next : ν → Option ν) : Nat → Option ν → List ν
  | 0, _ => []
  | _ + 1, none => []
  | n + 1, some x => x :: walk next n (next x)

omit [DecidableEq ν] in
theorem walk_none (next : ν → Option ν) (n : Nat) : walk next n none = [] := by
  cases n <;> rfl

omit [DecidableEq ν] in
theorem walk_single {next : ν → Option ν} {n : Nat} {x : ν} (hx : next x = none) :
    walk next (n + 1) (some x) = [x] := by
  rw [walk, hx, walk_none]

omit [DecidableEq ν] in
theorem Segment.congr {next prev next' prev' : ν → Option ν} {before after : Option ν} {l : List ν}
    (h : Segment next prev before l after)
    (hn : ∀ x ∈ l, next' x = next x) (hp : ∀ x ∈ l, prev' x = prev x) :
    Segment next' prev' before l after := by
  induction l generalizing before with
  | nil => trivial
  | cons x xs ih =>
      obtain ⟨hx, hy, hs⟩ := h
      refine ⟨(hp x (by simp)).trans hx, (hn x (by simp)).trans hy, ih hs ?_ ?_⟩
      · exact fun z hz => hn z (List.mem_cons_of_mem _ hz)
      · exact fun z hz => hp z (List.mem_cons_of_mem _ hz)

omit [DecidableEq ν] in
theorem segment_append {next prev : ν → Option ν} {before after : Option ν} {l m : List ν} :
    Segment next prev before (l ++ m) after ↔
      Segment next prev before l (m.head?.or after) ∧
        Segment next prev (l.getLast?.or before) m after := by
  induction l generalizing before with
  | nil => simp [Segment]
  | cons x xs ih =>
      have hlast : (x :: xs).getLast?.or before = xs.getLast?.or (some x) := by
        cases xs with
        | nil => rfl
        | cons y ys =>
            rw [List.getLast?_cons_cons, List.getLast?_eq_some_getLast (List.cons_ne_nil y ys)]
            rfl
      rw [hlast, List.cons_append]
      simp only [Segment, ih, List.head?_append, Option.or_assoc, and_assoc]

theorem Segment.leave {next prev : ν → Option ν} {before after : Option ν} {l : List ν} {y : ν}
    (h : Segment next prev before (l ++ [y]) after) (hy : y ∉ l) (after' : Option ν) :
    Segment (Function.update next y after') prev before (l ++ [y]) after' := by
  obtain ⟨hl, hs⟩ := segment_append.mp h
  refine segment_append.mpr ⟨hl.congr ?_ (fun _ _ => rfl), hs.1, by simp, trivial⟩
  intro x hx
  have hne : x ≠ y := fun he => hy (he ▸ hx)
  exact Function.update_of_ne hne _ _

theorem Segment.enter {next prev : ν → Option ν} {before after : Option ν} {l : List ν} {y : ν}
    (h : Segment next prev before (y :: l) after) (hy : y ∉ l) (before' : Option ν) :
    Segment next (Function.update prev y before') before' (y :: l) after := by
  refine ⟨by simp, h.2.1, h.2.2.congr (fun _ _ => rfl) ?_⟩
  intro x hx
  have hne : x ≠ y := fun he => hy (he ▸ hx)
  exact Function.update_of_ne hne _ _

omit [DecidableEq ν] in
theorem Segment.next_eq {next prev : ν → Option ν} {before : Option ν} {l : List ν}
    (h : Segment next prev before l none) {i : Nat} {x : ν} (hx : l[i]? = some x) :
    next x = l[i + 1]? := by
  induction l generalizing before i with
  | nil => simp at hx
  | cons y ys ih =>
      cases i with
      | zero =>
          obtain rfl : y = x := by simpa using hx
          rw [h.2.1, Option.or_none, List.head?_eq_getElem?, List.getElem?_cons_succ]
      | succ i => exact ih h.2.2 hx

omit [DecidableEq ν] in
theorem Segment.prev_eq {next prev : ν → Option ν} {before after : Option ν} {l : List ν}
    (h : Segment next prev before l after) {i : Nat} {x : ν} (hx : l[i]? = some x) :
    prev x = match i with
      | 0 => before
      | i + 1 => l[i]? := by
  induction l generalizing before i with
  | nil => simp at hx
  | cons y ys ih =>
      cases i with
      | zero =>
          obtain rfl : y = x := by simpa using hx
          exact h.1
      | succ i =>
          rw [ih h.2.2 hx]
          cases i <;> rfl

omit [DecidableEq ν] in
theorem walk_segment {next prev : ν → Option ν} {before : Option ν} {l : List ν} (n : Nat)
    (h : Segment next prev before l none) : walk next n l.head? = l.take n := by
  induction l generalizing before n with
  | nil => cases n <;> rfl
  | cons x xs ih =>
      cases n with
      | zero => rfl
      | succ n =>
          obtain ⟨-, hx, hs⟩ := h
          have hnext : next x = xs.head? := by simpa using hx
          rw [List.head?_cons, walk, hnext, ih n hs, List.take_succ_cons]

omit [DecidableEq ι] [DecidableEq ν] in
theorem Holds.walk_take {s : Links ι ν} {l : ι → List ν} (h : Holds s l) (i : ι) (n : Nat) :
    walk s.next n (s.head i) = (l i).take n := by
  rw [h.head]
  exact walk_segment n (h.segment i)

omit [DecidableEq ι] [DecidableEq ν] in
theorem Holds.walk_eq {s : Links ι ν} {l : ι → List ν} (h : Holds s l) {i : ι} {n : Nat}
    (hn : (l i).length ≤ n) : walk s.next n (s.head i) = l i := by
  rw [h.walk_take, List.take_of_length_le hn]

omit [DecidableEq ι] [DecidableEq ν] in
theorem Holds.reached_iff {s : Links ι ν} {l : ι → List ν} (h : Holds s l) (i : ι) (x : ν) :
    (∃ n, x ∈ walk s.next n (s.head i)) ↔ x ∈ l i := by
  constructor
  · rintro ⟨n, hx⟩
    rw [h.walk_take] at hx
    exact List.mem_of_mem_take hx
  · intro hx
    exact ⟨(l i).length, by rwa [h.walk_eq (Nat.le_refl _)]⟩

omit [DecidableEq ι] [DecidableEq ν] in
theorem Holds.congr {s t : Links ι ν} {l : ι → List ν} (h : Holds s l)
    (hh : ∀ i, t.head i = s.head i) (ht : ∀ i, t.tail i = s.tail i)
    (hn : ∀ i, ∀ x ∈ l i, t.next x = s.next x) (hp : ∀ i, ∀ x ∈ l i, t.prev x = s.prev x) :
    Holds t l where
  head i := (hh i).trans (h.head i)
  tail i := (ht i).trans (h.tail i)
  segment i := (h.segment i).congr (hn i) (hp i)
  nodup := h.nodup
  apart := h.apart

omit [DecidableEq ν] in
theorem apart_update {l : ι → List ν} (ha : ∀ i j x, x ∈ l i → x ∈ l j → i = j) (i : ι) (m : List ν)
    (hm : ∀ x ∈ m, ∀ j, x ∈ l j → j = i) :
    ∀ j k x, x ∈ Function.update l i m j → x ∈ Function.update l i m k → j = k := by
  intro j k x hj hk
  by_cases hji : j = i
  · subst hji
    by_cases hkj : k = j
    · exact hkj.symm
    · rw [Function.update_self] at hj
      rw [Function.update_of_ne hkj] at hk
      exact (hm x hj k hk).symm
  · rw [Function.update_of_ne hji] at hj
    by_cases hki : k = i
    · subst hki
      rw [Function.update_self] at hk
      exact hm x hk j hj
    · rw [Function.update_of_ne hki] at hk
      exact ha j k x hj hk

omit [DecidableEq ν] in
/-- Replacing one list of the family: the new list is described in full, the
others only have to be left alone. -/
theorem Holds.replace {s t : Links ι ν} {l : ι → List ν} (h : Holds s l) (i : ι) (m : List ν)
    (hfrom : ∀ x ∈ m, ∀ j, x ∈ l j → j = i)
    (hhead : t.head i = m.head?) (htail : t.tail i = m.getLast?)
    (hsegment : Segment t.next t.prev none m none) (hnodup : m.Nodup)
    (hh : ∀ j, j ≠ i → t.head j = s.head j) (ht : ∀ j, j ≠ i → t.tail j = s.tail j)
    (hn : ∀ j, j ≠ i → ∀ x ∈ l j, t.next x = s.next x)
    (hp : ∀ j, j ≠ i → ∀ x ∈ l j, t.prev x = s.prev x) : Holds t (Function.update l i m) := by
  refine ⟨?_, ?_, ?_, ?_, apart_update h.apart i m hfrom⟩
  · intro j
    by_cases hj : j = i
    · subst hj; rw [Function.update_self, hhead]
    · rw [Function.update_of_ne hj, hh j hj, h.head]
  · intro j
    by_cases hj : j = i
    · subst hj; rw [Function.update_self, htail]
    · rw [Function.update_of_ne hj, ht j hj, h.tail]
  · intro j
    by_cases hj : j = i
    · subst hj; rw [Function.update_self]; exact hsegment
    · rw [Function.update_of_ne hj]; exact (h.segment j).congr (hn j hj) (hp j hj)
  · intro j
    by_cases hj : j = i
    · subst hj; rw [Function.update_self]; exact hnodup
    · rw [Function.update_of_ne hj]; exact h.nodup j

theorem pushBack_holds {s : Links ι ν} {l : ι → List ν} (h : Holds s l) (i : ι) (x : ν)
    (hx : ∀ j, x ∉ l j) : Holds (pushBack s i x) (Function.update l i (l i ++ [x])) := by
  have hnodup : (l i ++ [x]).Nodup := by
    rw [List.nodup_append]
    refine ⟨h.nodup i, List.nodup_singleton x, ?_⟩
    intro y hy z hz
    rw [List.mem_singleton.mp hz]
    exact fun he => hx i (he ▸ hy)
  have hfrom : ∀ y ∈ l i ++ [x], ∀ j, y ∈ l j → j = i := by
    intro y hy j hj
    rcases List.mem_append.mp hy with hy | hy
    · exact h.apart j i y hj hy
    · exact absurd (List.mem_singleton.mp hy ▸ hj) (hx j)
  have hne {j : ι} {y : ν} (hy : y ∈ l j) : y ≠ x := fun he => hx j (he ▸ hy)
  rcases List.eq_nil_or_concat' (l i) with hl | ⟨m, y, hl⟩
  · have hhead : s.head i = none := by rw [h.head, hl]; rfl
    have heq : pushBack s i x =
        ⟨Function.update s.head i (some x), Function.update s.tail i (some x),
          Function.update s.next x none, Function.update s.prev x none⟩ := by
      simp only [pushBack, hhead]
    rw [heq]
    apply h.replace i _ hfrom
    · simp [hl]
    · simp [hl]
    · simp [hl, Segment]
    · exact hnodup
    · exact fun j hj => Function.update_of_ne hj _ _
    · exact fun j hj => Function.update_of_ne hj _ _
    · exact fun j _ y hy => Function.update_of_ne (hne hy) _ _
    · exact fun j _ y hy => Function.update_of_ne (hne hy) _ _
  · have htail : s.tail i = some y := by rw [h.tail, hl]; simp
    obtain ⟨z, hhead⟩ : ∃ z, s.head i = some z := by
      rw [h.head, hl]; cases m <;> exact ⟨_, rfl⟩
    have hym : y ∈ l i := by rw [hl]; simp
    have hy : y ∉ m := by
      have hn := h.nodup i
      rw [hl, List.nodup_append] at hn
      exact fun hm => hn.2.2 y hm y (by simp) rfl
    have heq : pushBack s i x =
        ⟨s.head, Function.update s.tail i (some x),
          Function.update (Function.update s.next y (some x)) x none,
          Function.update s.prev x (some y)⟩ := by
      simp only [pushBack, hhead, htail]
    rw [heq]
    apply h.replace i _ hfrom
    · rw [List.head?_append_of_ne_nil _ (List.ne_nil_of_mem hym)]
      exact h.head i
    · simp
    · have hs := (hl ▸ h.segment i).leave hy (some x)
      rw [hl]
      refine segment_append.mpr ⟨?_, by simp, by simp, trivial⟩
      refine hs.congr ?_ ?_
      · exact fun w hw => Function.update_of_ne (hne (hl ▸ hw)) _ _
      · exact fun w hw => Function.update_of_ne (hne (hl ▸ hw)) _ _
    · exact hnodup
    · exact fun j _ => rfl
    · exact fun j hj => Function.update_of_ne hj _ _
    · intro j hj w hw
      have hwy : w ≠ y := fun he => hj (h.apart j i w hw (he ▸ hym))
      exact (Function.update_of_ne (hne hw) _ _).trans (Function.update_of_ne hwy _ _)
    · exact fun j _ w hw => Function.update_of_ne (hne hw) _ _

theorem unlink_eq {s : Links ι ν} {i : ι} {x : ν} {m n : List ν} (hx : x ∉ m)
    (hp : s.prev x = m.getLast?) (hn : s.next x = n.head?) :
    unlink s i x =
      ⟨match m.getLast? with
        | none => Function.update s.head i n.head?
        | some _ => s.head,
      match n.head? with
        | none => Function.update s.tail i m.getLast?
        | some _ => s.tail,
      match m.getLast? with
        | none => s.next
        | some y => Function.update s.next y n.head?,
      match n.head? with
        | none => s.prev
        | some y => Function.update s.prev y m.getLast?⟩ := by
  rcases List.eq_nil_or_concat' m with rfl | ⟨m, y, rfl⟩
  · simp only [unlink, hp, hn, List.getLast?_nil]
  · have hne : x ≠ y := fun he => hx (by simp [he])
    simp only [unlink, hp, hn, List.getLast?_concat, Function.update_of_ne hne]

theorem unlink_next {s : Links ι ν} {i : ι} {x : ν} {m n : List ν} (hx : x ∉ m)
    (hm : Segment s.next s.prev none m (some x)) (hmn : m.Nodup)
    (hp : s.prev x = m.getLast?) (hn : s.next x = n.head?) :
    Segment (unlink s i x).next s.prev none m n.head? ∧
      ∀ w, w ∉ m → (unlink s i x).next w = s.next w := by
  rw [unlink_eq hx hp hn]
  rcases List.eq_nil_or_concat' m with rfl | ⟨m, y, rfl⟩
  · exact ⟨trivial, fun w _ => rfl⟩
  · simp only [List.getLast?_concat]
    refine ⟨hm.leave ?_ n.head?, fun w hw => Function.update_of_ne ?_ _ _⟩
    · exact fun hy => (List.nodup_append.mp hmn).2.2 y hy y (by simp) rfl
    · exact fun he => hw (by simp [he])

theorem unlink_prev {s : Links ι ν} {i : ι} {x : ν} {m n : List ν} (hx : x ∉ m)
    (hs : Segment s.next s.prev (some x) n none) (hnn : n.Nodup)
    (hp : s.prev x = m.getLast?) (hn : s.next x = n.head?) :
    Segment s.next (unlink s i x).prev m.getLast? n none ∧
      ∀ w, w ∉ n → (unlink s i x).prev w = s.prev w := by
  rw [unlink_eq hx hp hn]
  cases n with
  | nil => exact ⟨trivial, fun w _ => rfl⟩
  | cons y n =>
      refine ⟨hs.enter (List.nodup_cons.mp hnn).1 m.getLast?, fun w hw => Function.update_of_ne ?_ _ _⟩
      exact fun he => hw (by simp [he])

theorem unlink_holds {s : Links ι ν} {l : ι → List ν} (h : Holds s l) {i : ι} {x : ν} {m n : List ν}
    (hl : l i = m ++ x :: n) : Holds (unlink s i x) (Function.update l i (m ++ n)) := by
  have hnodup := hl ▸ h.nodup i
  obtain ⟨hmn, hxn, hdis⟩ := List.nodup_append.mp hnodup
  have hxm : x ∉ m := fun hx => hdis x hx x (by simp) rfl
  obtain ⟨hx, hnn⟩ := List.nodup_cons.mp hxn
  obtain ⟨hm, hprev, hnext, hs⟩ := segment_append.mp (hl ▸ h.segment i)
  have hp : s.prev x = m.getLast? := by simpa using hprev
  have hn : s.next x = n.head? := by simpa using hnext
  obtain ⟨hsm, hfn⟩ := unlink_next (i := i) hxm (by simpa using hm) hmn hp hn
  obtain ⟨hsn, hfp⟩ := unlink_prev (i := i) hxm hs hnn hp hn
  have hmem {j : ι} (hj : j ≠ i) {w : ν} (hw : w ∈ l j) : w ∉ m ∧ w ∉ n := by
    constructor
    · exact fun hwm => hj (h.apart j i w hw (by simp [hl, hwm]))
    · exact fun hwn => hj (h.apart j i w hw (by simp [hl, hwn]))
  apply h.replace i
  · intro w hw j hj
    refine h.apart j i w hj ?_
    rw [hl, List.mem_append, List.mem_cons]
    rcases List.mem_append.mp hw with hw | hw
    · exact Or.inl hw
    · exact Or.inr (Or.inr hw)
  · rw [unlink_eq hxm hp hn]
    cases m with
    | nil => simp
    | cons y m => simp [List.getLast?_cons, h.head, hl]
  · rw [unlink_eq hxm hp hn]
    cases n with
    | nil => simp
    | cons y n => simp [h.tail, hl]
  · refine segment_append.mpr ⟨?_, ?_⟩
    · rw [Option.or_none]
      exact hsm.congr (fun _ _ => rfl) (fun w hw => hfp w fun hwn => hdis w hw w (by simp [hwn]) rfl)
    · rw [Option.or_none]
      exact hsn.congr (fun w hw => hfn w fun hwm => hdis w hwm w (by simp [hw]) rfl) (fun _ _ => rfl)
  · rw [List.nodup_append]
    exact ⟨hmn, hnn, fun y hy z hz => hdis y hy z (by simp [hz])⟩
  · intro j hj
    rw [unlink_eq hxm hp hn]
    cases m.getLast? <;> simp [Function.update_of_ne hj]
  · intro j hj
    rw [unlink_eq hxm hp hn]
    cases n.head? <;> simp [Function.update_of_ne hj]
  · exact fun j hj w hw => hfn w (hmem hj hw).1
  · exact fun j hj w hw => hfp w (hmem hj hw).2

end Sequitur.LinkedLists
