import Mathlib

namespace Sequitur.Runs

variable {S I : Type} (step : S → I → Option S)

/-- A finite run: the inputs are taken in order, and the run has no result
when one of its steps has none. -/
def run (s : S) (is : List I) : Option S := is.foldlM step s

/-- The predicate holds of every state of the run together with the input
that is taken there. -/
def Along (P : S → I → Prop) : S → List I → Prop
  | _, [] => True
  | s, i :: is => P s i ∧ ∀ s', step s i = some s' → Along P s' is

instance Along.decidable {P : S → I → Prop} [∀ s i, Decidable (P s i)] :
    (s : S) → (is : List I) → Decidable (Along step P s is)
  | _, [] => .isTrue trivial
  | s, i :: is =>
      have : ∀ t, Decidable (Along step P t is) := fun t => Along.decidable t is
      inferInstanceAs (Decidable (P s i ∧ ∀ t ∈ step s i, Along step P t is))

@[simp] theorem run_nil (s : S) : run step s [] = some s := rfl

theorem run_cons (s : S) (i : I) (is : List I) :
    run step s (i :: is) = (step s i).bind fun s' => run step s' is := rfl

theorem run_append (s : S) (is js : List I) :
    run step s (is ++ js) = (run step s is).bind fun s' => run step s' js := by
  simp [run, List.foldlM_append, Option.bind_eq_bind]

variable {step}

theorem run_cons_some {s s' : S} {i : I} {is : List I} (h : run step s (i :: is) = some s') :
    ∃ t, step s i = some t ∧ run step t is = some s' := by
  rw [run_cons] at h
  exact Option.bind_eq_some_iff.mp h

theorem run_trans {s t s' : S} {is js : List I} (h : run step s is = some t) (h' : run step t js = some s') :
    run step s (is ++ js) = some s' := by
  rw [run_append, h, Option.bind_some, h']

theorem run_single {s s' : S} {i : I} (h : step s i = some s') : run step s [i] = some s' := by
  rw [run_cons, h, Option.bind_some, run_nil]

theorem run_concat {s t s' : S} {is : List I} {i : I} (h : run step s is = some t)
    (hi : step t i = some s') : run step s (is ++ [i]) = some s' :=
  run_trans h (run_single hi)

theorem Along.of_forall {P : S → I → Prop} {s : S} {is : List I} (h : ∀ i ∈ is, ∀ s, P s i) :
    Along step P s is := by
  induction is generalizing s with
  | nil => trivial
  | cons i is ih =>
      exact ⟨h i (by simp) s, fun s' _ => ih fun j hj => h j (List.mem_cons_of_mem _ hj)⟩

theorem Along.imp {P Q : S → I → Prop} (h : ∀ s i, P s i → Q s i) {s : S} {is : List I} (hP : Along step P s is) :
    Along step Q s is := by
  induction is generalizing s with
  | nil => trivial
  | cons i is ih => exact ⟨h s i hP.1, fun s' hs => ih (hP.2 s' hs)⟩

theorem Along.and {P Q : S → I → Prop} {s : S} {is : List I} (hP : Along step P s is)
    (hQ : Along step Q s is) : Along step (fun s i => P s i ∧ Q s i) s is := by
  induction is generalizing s with
  | nil => trivial
  | cons i is ih => exact ⟨⟨hP.1, hQ.1⟩, fun s' hs => ih (hP.2 s' hs) (hQ.2 s' hs)⟩

theorem Along.append {P : S → I → Prop} {s : S} {is js : List I} (hP : Along step P s is)
    (hQ : ∀ t, run step s is = some t → Along step P t js) : Along step P s (is ++ js) := by
  induction is generalizing s with
  | nil => exact hQ s rfl
  | cons i is ih =>
      refine ⟨hP.1, fun s' hs => ih (hP.2 s' hs) fun t ht => hQ t ?_⟩
      rw [run_cons, hs, Option.bind_some, ht]

theorem Along.of_append {P : S → I → Prop} {s : S} {is js : List I} (h : Along step P s (is ++ js)) :
    Along step P s is ∧ ∀ t, run step s is = some t → Along step P t js := by
  induction is generalizing s with
  | nil => exact ⟨trivial, fun t ht => Option.some.inj ht ▸ h⟩
  | cons i is ih =>
      refine ⟨⟨h.1, fun s' hs => (ih (h.2 s' hs)).1⟩, fun t ht => ?_⟩
      obtain ⟨s', hs, ht⟩ := run_cons_some ht
      exact (ih (h.2 s' hs)).2 t ht

/-- An invariant that every admitted step can be taken from, and keeps, is
carried through the whole run, which therefore has a result. -/
theorem run_total {Inv : S → Prop} {P : S → I → Prop}
    (hstep : ∀ s i, Inv s → P s i → ∃ s', step s i = some s' ∧ Inv s')
    {s : S} {is : List I} (hs : Inv s) (hP : Along step P s is) :
    ∃ s', run step s is = some s' ∧ Inv s' := by
  induction is generalizing s with
  | nil => exact ⟨s, rfl, hs⟩
  | cons i is ih =>
      obtain ⟨t, ht, hi⟩ := hstep s i hs hP.1
      obtain ⟨s', hr, hs'⟩ := ih hi (hP.2 t ht)
      exact ⟨s', by rw [run_cons, ht, Option.bind_some, hr], hs'⟩

theorem Along.of_invariant {Inv : S → Prop} {P Q : S → I → Prop}
    (hstep : ∀ s i s', Inv s → P s i → step s i = some s' → Inv s')
    (himp : ∀ s i, Inv s → P s i → Q s i) {s : S} {is : List I} (hs : Inv s) (hP : Along step P s is) :
    Along step Q s is := by
  induction is generalizing s with
  | nil => trivial
  | cons i is ih => exact ⟨himp s i hs hP.1, fun s' h => ih (hstep s i s' hs hP.1 h) (hP.2 s' h)⟩

theorem run_preserves {Inv : S → Prop} {P : S → I → Prop}
    (hstep : ∀ s i s', Inv s → P s i → step s i = some s' → Inv s')
    {s s' : S} {is : List I} (hs : Inv s) (hP : Along step P s is)
    (hr : run step s is = some s') : Inv s' := by
  induction is generalizing s with
  | nil => exact Option.some.inj hr ▸ hs
  | cons i is ih =>
      obtain ⟨t, ht, hr⟩ := run_cons_some hr
      exact ih (hstep s i t hs hP.1 ht) (hP.2 t ht) hr

theorem run_invariant {Inv : S → Prop} (hstep : ∀ s i s', Inv s → step s i = some s' → Inv s')
    {s s' : S} {is : List I} (hs : Inv s) (hr : run step s is = some s') : Inv s' :=
  run_preserves (P := fun _ _ => True) (fun s i s' hi _ => hstep s i s' hi) hs (.of_forall fun _ _ _ => trivial) hr

theorem run_log {log : S → List I} (hstep : ∀ s i s', step s i = some s' → log s' = log s ++ [i])
    {s s' : S} {is : List I} (hr : run step s is = some s') : log s' = log s ++ is := by
  induction is generalizing s with
  | nil => rw [← Option.some.inj hr, List.append_nil]
  | cons i is ih =>
      obtain ⟨t, ht, hr⟩ := run_cons_some hr
      rw [ih hr, hstep s i t ht, List.append_assoc, List.singleton_append]

/-- A property that is never regained once lost holds at the end of a run
exactly if every step was taken under the condition that keeps it. -/
theorem run_good_iff {Inv Good : S → Prop} {P : S → I → Prop} {is : List I}
    (hgood : ∀ s, Inv s → Good s)
    (hstep : ∀ s, ∀ i ∈ is, Inv s → P s i → ∃ s', step s i = some s' ∧ Inv s')
    (hbad : ∀ s, ∀ i ∈ is, Inv s → ¬ P s i → ∀ s', step s i = some s' → ¬ Good s')
    (hlost : ∀ s i s', step s i = some s' → Good s' → Good s) {s : S} (hs : Inv s) :
    (∃ s', run step s is = some s' ∧ Good s') ↔ Along step P s is := by
  have hback : ∀ (t t' : S) (js : List I), run step t js = some t' → Good t' → Good t := by
    intro t t' js hr hg
    induction js generalizing t with
    | nil => exact Option.some.inj hr ▸ hg
    | cons j js ih =>
        obtain ⟨u, hu, hr⟩ := run_cons_some hr
        exact hlost t j u hu (ih u hr)
  induction is generalizing s with
  | nil => exact ⟨fun _ => trivial, fun _ => ⟨s, rfl, hgood s hs⟩⟩
  | cons i is ih =>
      have ih' := fun {t : S} (ht : Inv t) => ih (fun s j hj => hstep s j (List.mem_cons_of_mem _ hj))
        (fun s j hj => hbad s j (List.mem_cons_of_mem _ hj)) ht
      constructor
      · rintro ⟨s', hr, hg⟩
        obtain ⟨t, ht, hr⟩ := run_cons_some hr
        have hP : P s i := Classical.byContradiction fun hP =>
          hbad s i List.mem_cons_self hs hP t ht (hback t s' is hr hg)
        obtain ⟨t', ht', hi⟩ := hstep s i List.mem_cons_self hs hP
        obtain rfl : t = t' := Option.some.inj (ht.symm.trans ht')
        refine ⟨hP, fun u hu => ?_⟩
        obtain rfl : t = u := Option.some.inj (ht.symm.trans hu)
        exact (ih' hi).mp ⟨s', hr, hg⟩
      · rintro ⟨hP, hrest⟩
        obtain ⟨t, ht, hi⟩ := hstep s i List.mem_cons_self hs hP
        obtain ⟨s', hr, hg⟩ := (ih' hi).mpr (hrest t ht)
        exact ⟨s', by rw [run_cons, ht, Option.bind_some, hr], hg⟩

theorem good_iff_along {Inv Good : S → Prop} {Bad : S → I → Prop}
    (hinv : ∀ s i s', Inv s → step s i = some s' → Inv s')
    (hstep : ∀ s i s', Inv s → step s i = some s' → (Good s' ↔ Good s ∧ ¬ Bad s i)) {s s' : S} {is : List I}
    (hs : Inv s) (hr : run step s is = some s') :
    Good s' ↔ Good s ∧ Along step (fun s i => ¬ Bad s i) s is := by
  induction is generalizing s with
  | nil =>
      obtain rfl := Option.some.inj hr
      exact ⟨fun h => ⟨h, trivial⟩, fun h => h.1⟩
  | cons i is ih =>
      obtain ⟨t, ht, hr⟩ := run_cons_some hr
      rw [ih (hinv s i t hs ht) hr, hstep s i t hs ht, and_assoc]
      refine and_congr_right fun _ => and_congr_right fun _ => ⟨fun h u hu => ?_, fun h => h t ht⟩
      obtain rfl : t = u := Option.some.inj (ht.symm.trans hu)
      exact h

/-- A property holds in every state that a run passes through exactly if no
step was taken that loses it. -/
theorem always_iff_along {Inv Good : S → Prop} {Bad : S → I → Prop} {is : List I} (hgood : ∀ s, Inv s → Good s)
    (hstep : ∀ s, ∀ i ∈ is, ∀ s', Inv s → ¬ Bad s i → step s i = some s' → Inv s')
    (hbad : ∀ s, ∀ i ∈ is, ∀ s', Inv s → Bad s i → step s i = some s' → ¬ Good s') {s s' : S}
    (hs : Inv s) (hr : run step s is = some s') :
    (∀ before after t, is = before ++ after → run step s before = some t → Good t) ↔
      Along step (fun s i => ¬ Bad s i) s is := by
  induction is generalizing s with
  | nil =>
      refine ⟨fun _ => trivial, fun _ before after t he ht => ?_⟩
      obtain ⟨rfl, rfl⟩ := List.append_eq_nil_iff.mp he.symm
      exact Option.some.inj ht ▸ hgood s hs
  | cons i is ih =>
      obtain ⟨u, hu, hr⟩ := run_cons_some hr
      have ih' := fun hno => ih (fun s j hj => hstep s j (List.mem_cons_of_mem _ hj))
        (fun s j hj => hbad s j (List.mem_cons_of_mem _ hj)) (hstep s i List.mem_cons_self u hs hno hu) hr
      constructor
      · intro h
        have hno : ¬ Bad s i := fun hb =>
          hbad s i List.mem_cons_self u hs hb hu (h [i] is u rfl (run_single hu))
        refine ⟨hno, fun t ht => ?_⟩
        obtain rfl : u = t := Option.some.inj (hu.symm.trans ht)
        refine (ih' hno).mp fun before after t he ht => ?_
        refine h (i :: before) after t (by rw [he, List.cons_append]) ?_
        rw [run_cons, hu, Option.bind_some, ht]
      · rintro ⟨hno, hrest⟩ before after t he ht
        cases before with
        | nil => exact Option.some.inj ht ▸ hgood s hs
        | cons j before =>
            obtain ⟨rfl, htail⟩ := List.cons.inj he
            obtain ⟨v, hv, ht⟩ := run_cons_some ht
            obtain rfl : u = v := Option.some.inj (hu.symm.trans hv)
            exact (ih' hno).mpr (hrest u hu) before after t htail ht

theorem run_related {T J : Type} {step' : T → J → Option T} {Rel : S → T → Prop} {Q : I → J → Prop}
    (hstep : ∀ s t i j, Rel s t → Q i j → ∃ s' t', step s i = some s' ∧ step' t j = some t' ∧ Rel s' t')
    {is : List I} {js : List J} (h : List.Forall₂ Q is js) {s : S} {t : T} (hs : Rel s t) :
    ∃ s' t', run step s is = some s' ∧ run step' t js = some t' ∧ Rel s' t' := by
  induction h generalizing s t with
  | nil => exact ⟨s, t, rfl, rfl, hs⟩
  | @cons i j is js hij _ ih =>
      obtain ⟨s₁, t₁, hs₁, ht₁, hrel⟩ := hstep s t i j hs hij
      obtain ⟨s', t', hs', ht', hrel'⟩ := ih hrel
      refine ⟨s', t', ?_, ?_, hrel'⟩
      · rw [run_cons, hs₁]
        exact hs'
      · rw [run_cons, ht₁]
        exact ht'

/-- Progress: if some step can be taken from every state that is not yet done,
and a measure falls with it, then a run of such steps gets done. -/
theorem exists_run_done {α : Type} [LT α] [WellFoundedLT α] {Inv Done : S → Prop} {P : I → Prop} (μ : S → α)
    (hstep : ∀ s, Inv s → ¬ Done s → ∃ i s', P i ∧ step s i = some s' ∧ Inv s' ∧ μ s' < μ s) {s : S} (hs : Inv s) :
    ∃ is s', (∀ i ∈ is, P i) ∧ run step s is = some s' ∧ Inv s' ∧ Done s' := by
  generalize hx : μ s = x
  induction x using WellFoundedLT.induction generalizing s with
  | ind x ih =>
      by_cases hd : Done s
      · exact ⟨[], s, by simp, rfl, hs, hd⟩
      · obtain ⟨i, t, hi, hst, ht, hlt⟩ := hstep s hs hd
        obtain ⟨is, s', his, hr, hinv, hdone⟩ := ih (μ t) (hx ▸ hlt) ht rfl
        refine ⟨i :: is, s', List.forall_mem_cons.mpr ⟨hi, his⟩, ?_, hinv, hdone⟩
        rw [run_cons, hst]
        exact hr

end Sequitur.Runs
