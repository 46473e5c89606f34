/-
**Runs of transition systems, and loops that may raise an exception.**

A transition system is a relation `step s a t` between a state, a label and a next state; a *run*
is a finite sequence of labels that leads from one state to another.  A loop that may fail is a
`mapM` or a `forM` in the exception monad.  Nothing here depends on what the states and the labels
are.

Main definitions:

* `Run` — the finite runs of a transition system, the last step outermost;
* `Ends` — what holds when an execution returns, and what holds when it raises an exception;
* `zoom`, `Leaves`, `Upholds` — executions on a part of the state, what an execution leaves alone, and
  the properties of the state that it keeps;
* `Agree` — two executions return the same value or raise the same exception.

Main results:

* `Run.invariant` — **an invariant of every step holds along every run**;
* `Run.append`, `Run.split` — runs compose and decompose;
* `Run.unwind` — **a run, and the same run without the steps that a relation does not see**;
* `Run.of_foldlM`, `run_of_foldlM` — runs of a partial function can be evaluated;
* `mapM_eq_ok`, `forM_eq_ok_iff` — a loop in the exception monad succeeds exactly when every
  iteration does;
* `foldlM_ok`, `foldlM_total`, `forM_total` — **the rules for loops with a state**, with a property
  of the iterations done so far;
* `ends_bind`, `ends_forM` — **the rules for where an execution ends**;
* `exists_of_forM_error`, `forM_filter` — a loop, iteration by iteration;
* `Agree.bind`, `foldlM_agree`, `forM_agree` — the rules for two executions side by side.
-/

import Mathlib

set_option relaxedAutoImplicit false
set_option autoImplicit false

/-! ### Runs -/

section Runs

variable {σ α : Type} {step : σ → α → σ → Prop}

/-- **A finite run**: from a state, through a sequence of labelled steps, to a state. -/
inductive Run (step : σ → α → σ → Prop) : σ → List α → σ → Prop
  | nil (s : σ) : Run step s [] s
  | snoc {s t u : σ} {as : List α} {a : α} (h : Run step s as t) (ha : step t a u) :
      Run step s (as ++ [a]) u

/-- **An invariant of every step holds along every run.** -/
theorem Run.invariant {I : σ → Prop} (hstep : ∀ s a t, I s → step s a t → I t) {s t : σ}
    {as : List α} (h : Run step s as t) (hs : I s) : I t := by
  induction h with
  | nil => exact hs
  | snoc _ ha ih => exact hstep _ _ _ ih ha

theorem Run.mono {step' : σ → α → σ → Prop} (hstep : ∀ s a t, step s a t → step' s a t) {s t : σ}
    {as : List α} (h : Run step s as t) : Run step' s as t := by
  induction h with
  | nil => exact Run.nil _
  | snoc _ ha ih => exact Run.snoc ih (hstep _ _ _ ha)

theorem Run.append {s t u : σ} {as bs : List α} (h : Run step s as t) (h' : Run step t bs u) :
    Run step s (as ++ bs) u := by
  induction h' with
  | nil => simpa using h
  | snoc _ hb ih =>
      rw [← List.append_assoc]
      exact Run.snoc ih hb

/-- A single step is a run. -/
theorem Run.single {s t : σ} {a : α} (h : step s a t) : Run step s [a] t :=
  Run.snoc (Run.nil s) h

/-- The last step of a run. -/
theorem Run.snoc_inv {s u : σ} {as : List α} {a : α} (h : Run step s (as ++ [a]) u) :
    ∃ t, Run step s as t ∧ step t a u := by
  generalize hbs : as ++ [a] = bs at h
  cases h with
  | nil => simp at hbs
  | snoc h ha =>
      obtain ⟨rfl, hab⟩ := List.append_inj' hbs rfl
      obtain rfl : a = _ := by simpa using hab
      exact ⟨_, h, ha⟩

/-- A run through a concatenation passes through a state in the middle. -/
theorem Run.split {s u : σ} {as bs : List α} (h : Run step s (as ++ bs) u) :
    ∃ t, Run step s as t ∧ Run step t bs u := by
  induction bs using List.reverseRecOn generalizing u with
  | nil => exact ⟨u, by simpa using h, Run.nil u⟩
  | append_singleton bs b ih =>
      rw [← List.append_assoc] at h
      obtain ⟨v, hv, hb⟩ := h.snoc_inv
      obtain ⟨t, ht, htv⟩ := ih hv
      exact ⟨t, ht, Run.snoc htv hb⟩

/-- The first step of a run. -/
theorem Run.cons_inv {s u : σ} {as : List α} {a : α} (h : Run step s (a :: as) u) :
    ∃ t, step s a t ∧ Run step t as u := by
  rw [← List.singleton_append] at h
  obtain ⟨t, hfirst, hrest⟩ := h.split
  rw [← List.nil_append [a]] at hfirst
  obtain ⟨r, hnil, ha⟩ := hfirst.snoc_inv
  generalize hempty : ([] : List α) = bs at hnil
  cases hnil with
  | nil => exact ⟨t, ha, hrest⟩
  | snoc _ _ => exact absurd hempty (by simp)

/-- **Runs of a partial function can be evaluated.** -/
theorem Run.of_foldlM {f : σ → α → Option σ} {as : List α} {s t : σ} (h : as.foldlM f s = some t) :
    Run (fun s a t => f s a = some t) s as t := by
  induction as generalizing s with
  | nil =>
      obtain rfl : s = t := Option.some.inj h
      exact Run.nil s
  | cons a as ih =>
      rw [List.foldlM_cons] at h
      obtain ⟨u, hu, ht⟩ := Option.bind_eq_some_iff.1 h
      exact (Run.single hu).append (ih ht)

/-- **Unwinding**: when the labels that are kept do the same to related states, and the others nothing that
the relation sees, a run and what is kept of it end in related states. -/
theorem Run.unwind {step' : σ → α → σ → Prop} {R : σ → σ → Prop} {keep : α → Bool}
    (hkeep : ∀ s a t s', keep a = true → R s s' → step s a t → ∃ t', step' s' a t' ∧ R t t')
    (hskip : ∀ s a t s', keep a = false → R s s' → step s a t → R t s') {s t s' : σ} {as : List α}
    (h : Run step s as t) (hs : R s s') : ∃ t', Run step' s' (as.filter keep) t' ∧ R t t' := by
  induction h with
  | nil => exact ⟨s', .nil s', hs⟩
  | @snoc _ _ as a _ ha ih =>
      obtain ⟨t', hrun, ht⟩ := ih
      cases hk : keep a with
      | true =>
          obtain ⟨u', hstep, hu⟩ := hkeep _ a _ t' hk ht ha
          refine ⟨u', ?_, hu⟩
          rw [List.filter_append, List.filter_cons_of_pos hk]
          exact hrun.snoc hstep
      | false =>
          refine ⟨t', ?_, hskip _ a _ t' hk ht ha⟩
          rw [List.filter_append, List.filter_cons_of_neg (by simp [hk]), List.filter_nil, List.append_nil]
          exact hrun

/-- So can those whose steps all meet a condition. -/
theorem run_of_foldlM {f : σ → α → Option σ} {P : σ → α → Prop} [∀ s a, Decidable (P s a)]
    {as : List α} {s t : σ} (h : as.foldlM (fun s a => if P s a then f s a else none) s = some t) :
    Run (fun s a t => f s a = some t ∧ P s a) s as t := by
  refine (Run.of_foldlM h).mono fun s a t hstep => ?_
  split_ifs at hstep with hP
  exact ⟨hstep, hP⟩

end Runs

/-! ### Loops that may raise an exception -/

section Loops

variable {ε α β : Type}

/-- A loop that collects results succeeds when every iteration does. -/
theorem mapM_eq_ok {f : α → Except ε β} {g : α → β} {l : List α} (h : ∀ x ∈ l, f x = .ok (g x)) :
    l.mapM f = .ok (l.map g) := by
  induction l with
  | nil => rfl
  | cons x l ih =>
      rw [List.mapM_cons, h x (List.mem_cons_self ..),
        ih fun y hy => h y (List.mem_cons_of_mem _ hy)]
      rfl

/-- Every result that a loop has collected is that of one of its iterations. -/
theorem exists_of_mem_mapM {g : α → Except ε β} {l : List α} {r : List β}
    (h : l.mapM g = .ok r) {y : β} (hy : y ∈ r) : ∃ x ∈ l, g x = .ok y := by
  induction l generalizing r with
  | nil =>
      rw [List.mapM_nil] at h
      obtain rfl := Except.ok.inj h
      exact absurd hy List.not_mem_nil
  | cons x l ih =>
      rw [List.mapM_cons] at h
      cases hx : g x with
      | error ex =>
          rw [hx] at h
          cases h
      | ok z =>
          rw [hx] at h
          cases hl : l.mapM g with
          | error ex =>
              rw [hl] at h
              cases h
          | ok r' =>
              rw [hl] at h
              obtain rfl := Except.ok.inj h
              rcases List.mem_cons.1 hy with rfl | hy
              · exact ⟨x, List.mem_cons_self, hx⟩
              · obtain ⟨x', hx', hgx'⟩ := ih hl hy
                exact ⟨x', List.mem_cons_of_mem _ hx', hgx'⟩

/-- A loop without results succeeds exactly when every iteration does. -/
theorem forM_eq_ok_iff {f : α → Except ε PUnit} {l : List α} :
    l.forM f = .ok ⟨⟩ ↔ ∀ x ∈ l, f x = .ok ⟨⟩ := by
  induction l with
  | nil => simp [List.forM, pure, Except.pure]
  | cons x l ih =>
      have hcons : (x :: l).forM f = (do f x; l.forM f) := by simp [List.forM]
      rw [hcons, List.forall_mem_cons, ← ih]
      cases hx : f x with
      | error e => simp [bind, Except.bind]
      | ok u => simp [bind, Except.bind]

variable {σ : Type}

/-- **The rule for a stateful loop**: a property of the iterations done so far, of the accumulator
and of the state that every iteration extends holds after a loop that has not failed. -/
theorem foldlM_ok {f : β → α → EStateM ε σ β} {l : List α} (I : List α → β → σ → Prop)
    (hstep : ∀ ps x rest, l = ps ++ x :: rest → ∀ b s b' s', I ps b s → f b x s = .ok b' s' →
      I (ps ++ [x]) b' s') :
    ∀ rest ps b s b' s', l = ps ++ rest → I ps b s → rest.foldlM f b s = .ok b' s' → I l b' s' := by
  intro rest
  induction rest with
  | nil =>
      intro ps b s b' s' hl hI h
      rw [List.foldlM_nil] at h
      simp only [pure, EStateM.pure, EStateM.Result.ok.injEq] at h
      obtain ⟨rfl, rfl⟩ := h
      rw [hl, List.append_nil]
      exact hI
  | cons x rest ih =>
      intro ps b s b' s' hl hI h
      rw [List.foldlM_cons] at h
      simp only [bind, EStateM.bind] at h
      cases hx : f b x s with
      | error ex t => simp [hx] at h
      | ok b₁ s₁ =>
          rw [hx] at h
          exact ih (ps ++ [x]) b₁ s₁ b' s' (by simp [hl]) (hstep ps x rest hl b s b₁ s₁ hI hx) h

/-- **A stateful loop succeeds** when every iteration does and keeps the property. -/
theorem foldlM_total {f : β → α → EStateM ε σ β} {l : List α} (I : List α → β → σ → Prop)
    (hstep : ∀ ps x rest, l = ps ++ x :: rest → ∀ b s, I ps b s →
      ∃ b' s', f b x s = .ok b' s' ∧ I (ps ++ [x]) b' s') :
    ∀ rest ps b s, l = ps ++ rest → I ps b s →
      ∃ b' s', rest.foldlM f b s = .ok b' s' ∧ I l b' s' := by
  intro rest
  induction rest with
  | nil =>
      intro ps b s hl hI
      exact ⟨b, s, rfl, by rw [hl, List.append_nil]; exact hI⟩
  | cons x rest ih =>
      intro ps b s hl hI
      obtain ⟨b₁, s₁, hx, hI₁⟩ := hstep ps x rest hl b s hI
      obtain ⟨b', s', hrest, hI'⟩ := ih (ps ++ [x]) b₁ s₁ (by simp [hl]) hI₁
      refine ⟨b', s', ?_, hI'⟩
      rw [List.foldlM_cons]
      simp only [bind, EStateM.bind, hx]
      exact hrest

/-- The same for a loop without an accumulator. -/
theorem forM_total {f : α → EStateM ε σ PUnit} {l : List α} (I : List α → σ → Prop)
    (hstep : ∀ ps x rest, l = ps ++ x :: rest → ∀ s, I ps s →
      ∃ s', f x s = .ok ⟨⟩ s' ∧ I (ps ++ [x]) s') :
    ∀ rest ps s, l = ps ++ rest → I ps s → ∃ s', rest.forM f s = .ok ⟨⟩ s' ∧ I l s' := by
  intro rest
  induction rest with
  | nil =>
      intro ps s hl hI
      exact ⟨s, rfl, by rw [hl, List.append_nil]; exact hI⟩
  | cons x rest ih =>
      intro ps s hl hI
      obtain ⟨s₁, hx, hI₁⟩ := hstep ps x rest hl s hI
      obtain ⟨s', hrest, hI'⟩ := ih (ps ++ [x]) s₁ (by simp [hl]) hI₁
      refine ⟨s', ?_, hI'⟩
      have hcons : (x :: rest).forM f = (do f x; rest.forM f) := by simp [List.forM]
      rw [hcons]
      simp only [bind, EStateM.bind, hx]
      exact hrest

/-! ### Where an execution ends -/

/-- **Where an execution ends**: when it returns, in a state with `Q`; when it raises an exception, in
a state with `E`. -/
def Ends (x : EStateM ε σ α) (s : σ) (Q : α → σ → Prop) (E : σ → Prop) : Prop :=
  (∀ a t, x s = .ok a t → Q a t) ∧ ∀ ex t, x s = .error ex t → E t

section Ends

variable {x : EStateM ε σ α} {f : α → EStateM ε σ β} {s : σ} {Q Q' : α → σ → Prop}
  {P : β → σ → Prop} {E E' : σ → Prop}

theorem Ends.mono (h : Ends x s Q E) (hQ : ∀ a t, Q a t → Q' a t) (hE : ∀ t, E t → E' t) :
    Ends x s Q' E' :=
  ⟨fun a t ht => hQ a t (h.1 a t ht), fun ex t ht => hE t (h.2 ex t ht)⟩

/-- An execution about which nothing is known. -/
theorem ends_of_forall (hQ : ∀ a t, Q a t) (hE : ∀ t, E t) : Ends x s Q E :=
  ⟨fun a t _ => hQ a t, fun _ t _ => hE t⟩

theorem ends_of_ok {a : α} {t : σ} (h : x s = .ok a t) (hQ : Q a t) : Ends x s Q E := by
  constructor
  · intro a' t' h'
    obtain ⟨rfl, rfl⟩ := EStateM.Result.ok.inj (h.symm.trans h')
    exact hQ
  · intro ex t' h'
    simp [h] at h'

theorem ends_of_error {ex : ε} {t : σ} (h : x s = .error ex t) (hE : E t) : Ends x s Q E := by
  constructor
  · intro a t' h'
    simp [h] at h'
  · intro ex' t' h'
    obtain ⟨-, rfl⟩ := EStateM.Result.error.inj (h.symm.trans h')
    exact hE

/-- **The rule of sequences.** -/
theorem ends_bind : Ends (x >>= f) s P E ↔ Ends x s (fun a t => Ends (f a) t P E) E := by
  cases h : x s with
  | ok a t =>
      have hb : (x >>= f) s = f a t := by simp only [bind, EStateM.bind, h]
      constructor
      · intro hends
        exact ends_of_ok h ⟨fun b u hu => hends.1 b u (hb.trans hu),
          fun ex u hu => hends.2 ex u (hb.trans hu)⟩
      · intro hends
        obtain ⟨h1, h2⟩ := hends.1 a t h
        exact ⟨fun b u hu => h1 b u (hb.symm.trans hu), fun ex u hu => h2 ex u (hb.symm.trans hu)⟩
  | error ex t =>
      have hb : (x >>= f) s = .error ex t := by simp only [bind, EStateM.bind, h]
      exact ⟨fun hends => ends_of_error h (hends.2 ex t hb),
        fun hends => ends_of_error hb (hends.2 ex t h)⟩

theorem ends_pure {a : α} : Ends (pure a : EStateM ε σ α) s Q E ↔ Q a s :=
  ⟨fun h => h.1 a s rfl, fun h => ends_of_ok (x := (pure a : EStateM ε σ α)) rfl h⟩

theorem ends_throw {ex : ε} : Ends (throw ex : EStateM ε σ α) s Q E ↔ E s :=
  ⟨fun h => h.2 ex s rfl, fun h => ends_of_error (x := (throw ex : EStateM ε σ α)) rfl h⟩

theorem ends_get {Q : σ → σ → Prop} : Ends (get : EStateM ε σ σ) s Q E ↔ Q s s :=
  ⟨fun h => h.1 s s rfl, fun h => ends_of_ok (x := (get : EStateM ε σ σ)) rfl h⟩

theorem ends_set {Q : PUnit → σ → Prop} {t : σ} : Ends (set t : EStateM ε σ PUnit) s Q E ↔ Q ⟨⟩ t :=
  ⟨fun h => h.1 ⟨⟩ t rfl, fun h => ends_of_ok (x := (set t : EStateM ε σ PUnit)) rfl h⟩

theorem ends_modify {Q : PUnit → σ → Prop} {g : σ → σ} :
    Ends (modify g : EStateM ε σ PUnit) s Q E ↔ Q ⟨⟩ (g s) :=
  ⟨fun h => h.1 ⟨⟩ (g s) rfl, fun h => ends_of_ok (x := (modify g : EStateM ε σ PUnit)) rfl h⟩

theorem ends_ite_pos {p : Prop} [Decidable p] {y : EStateM ε σ α} (hp : p) (h : Ends x s Q E) :
    Ends (if p then x else y) s Q E := by
  rw [if_pos hp]
  exact h

theorem ends_ite_neg {p : Prop} [Decidable p] {y : EStateM ε σ α} (hp : ¬p) (h : Ends y s Q E) :
    Ends (if p then x else y) s Q E := by
  rw [if_neg hp]
  exact h

theorem ends_ite {p : Prop} [Decidable p] {y : EStateM ε σ α} (hx : p → Ends x s Q E)
    (hy : ¬p → Ends y s Q E) : Ends (if p then x else y) s Q E := by
  by_cases hp : p
  · exact ends_ite_pos hp (hx hp)
  · exact ends_ite_neg hp (hy hp)

/-- **The rule of loops**, with a property of the iterations done so far. -/
theorem ends_forM {f : α → EStateM ε σ PUnit} {l : List α} (I : List α → σ → Prop)
    (hstep : ∀ ps x rest, l = ps ++ x :: rest → ∀ s, I ps s →
      Ends (f x) s (fun _ => I (ps ++ [x])) E) :
    ∀ rest ps s, l = ps ++ rest → I ps s → Ends (rest.forM f) s (fun _ => I l) E := by
  intro rest
  induction rest with
  | nil =>
      intro ps s hl hI
      rw [List.append_nil] at hl
      exact ends_pure.2 (hl ▸ hI)
  | cons x rest ih =>
      intro ps s hl hI
      have hcons : (x :: rest).forM f = (do f x; rest.forM f) := by simp [List.forM]
      rw [hcons]
      refine ends_bind.2 ((hstep ps x rest hl s hI).mono ?_ fun _ h => h)
      intro _ t ht
      exact ih (ps ++ [x]) t (by simp [hl]) ht

/-- The same with one property for all iterations. -/
theorem ends_forM_const {f : α → EStateM ε σ PUnit} {l : List α} (I : σ → Prop)
    (hstep : ∀ x ∈ l, ∀ s, I s → Ends (f x) s (fun _ => I) E) (hI : I s) :
    Ends (l.forM f) s (fun _ => I) E := by
  refine ends_forM (fun _ => I) ?_ l [] s rfl hI
  rintro ps x rest rfl t ht
  exact hstep x (by simp) t ht

/-- An iteration that returns. -/
theorem forM_cons_ok {f : α → EStateM ε σ PUnit} {x : α} {l : List α} {t : σ} (h : f x s = .ok ⟨⟩ t) :
    (x :: l).forM f s = l.forM f t := by
  have hcons : (x :: l).forM f = (do f x; l.forM f) := by simp [List.forM]
  rw [hcons]
  simp only [bind, EStateM.bind, h]

/-- An iteration that raises an exception. -/
theorem forM_cons_error {f : α → EStateM ε σ PUnit} {x : α} {l : List α} {ex : ε} {t : σ}
    (h : f x s = .error ex t) : (x :: l).forM f s = .error ex t := by
  have hcons : (x :: l).forM f = (do f x; l.forM f) := by simp [List.forM]
  rw [hcons]
  simp only [bind, EStateM.bind, h]

/-- **Where a loop raises an exception.** -/
theorem exists_of_forM_error {f : α → EStateM ε σ PUnit} {l : List α} {ex : ε} {t : σ}
    (h : l.forM f s = .error ex t) :
    ∃ l₁ x l₂ u, l = l₁ ++ x :: l₂ ∧ l₁.forM f s = .ok ⟨⟩ u ∧ f x u = .error ex t := by
  induction l generalizing s with
  | nil =>
      have hok : ([] : List α).forM f s = .ok ⟨⟩ s := rfl
      simp [hok] at h
  | cons y l ih =>
      cases hy : f y s with
      | error ex' t' =>
          rw [forM_cons_error hy] at h
          exact ⟨[], y, l, s, rfl, rfl, hy.trans h⟩
      | ok r s' =>
          rw [forM_cons_ok hy] at h
          obtain ⟨l₁, x, l₂, u, rfl, hl₁, hx⟩ := ih h
          exact ⟨y :: l₁, x, l₂, u, rfl, (forM_cons_ok hy).trans hl₁, hx⟩

/-- **Iterations that do nothing** can be left out. -/
theorem forM_filter {f : α → EStateM ε σ PUnit} {p : α → Bool} {l : List α}
    (hp : ∀ x ∈ l, p x = false → f x = pure ⟨⟩) : (l.filter p).forM f = l.forM f := by
  induction l with
  | nil => rfl
  | cons x l ih =>
      have hl : (l.filter p).forM f = l.forM f := ih fun y hy => hp y (List.mem_cons_of_mem x hy)
      funext s
      cases hx : p x with
      | false =>
          have hskip : f x s = .ok ⟨⟩ s := by rw [hp x List.mem_cons_self hx]; rfl
          rw [List.filter_cons_of_neg (by simp [hx]), hl, forM_cons_ok hskip]
      | true =>
          rw [List.filter_cons_of_pos hx]
          cases hy : f x s with
          | ok r t => rw [forM_cons_ok hy, forM_cons_ok hy, hl]
          | error ex t => rw [forM_cons_error hy, forM_cons_error hy]

/-- The rule of loops with an accumulator. -/
theorem ends_foldlM_done {f : β → α → EStateM ε σ β} {l : List α} (I : List α → β → σ → Prop)
    (hstep : ∀ ps x rest, l = ps ++ x :: rest → ∀ b s, I ps b s →
      Ends (f b x) s (I (ps ++ [x])) E) :
    ∀ rest ps b s, l = ps ++ rest → I ps b s → Ends (rest.foldlM f b) s (I l) E := by
  intro rest
  induction rest with
  | nil =>
      intro ps b s hl hI
      rw [List.append_nil] at hl
      exact ends_pure.2 (hl ▸ hI)
  | cons x rest ih =>
      intro ps b s hl hI
      rw [List.foldlM_cons]
      refine ends_bind.2 ((hstep ps x rest hl b s hI).mono (fun b' t ht => ?_) fun _ h => h)
      exact ih (ps ++ [x]) b' t (by simp [hl]) ht

/-- The same with one property of accumulator and state for all iterations. -/
theorem ends_foldlM {f : β → α → EStateM ε σ β} (I : β → σ → Prop)
    (hstep : ∀ b x s, I b s → Ends (f b x) s I E) (l : List α) :
    ∀ b s, I b s → Ends (l.foldlM f b) s I E :=
  fun b s hI => ends_foldlM_done (fun _ => I) (fun _ x _ _ b s hI => hstep b x s hI) l [] b s rfl hI

/-- The same with one property of the state. -/
theorem ends_foldlM_const {f : β → α → EStateM ε σ β} {l : List α} (I : σ → Prop)
    (hstep : ∀ b x s, I s → Ends (f b x) s (fun _ => I) E) :
    ∀ b s, I s → Ends (l.foldlM f b) s (fun _ => I) E :=
  ends_foldlM (fun _ => I) hstep l

/-- An execution on a part of the state. -/
def zoom {τ : Type} (view : σ → τ) (put : σ → τ → σ) (x : EStateM ε τ α) : EStateM ε σ α := fun s =>
  match x (view s) with
  | .ok a t => .ok a (put s t)
  | .error ex t => .error ex (put s t)

theorem ends_zoom {τ : Type} {view : σ → τ} {put : σ → τ → σ} {x : EStateM ε τ α} :
    Ends (zoom view put x) s Q E ↔
      Ends x (view s) (fun a t => Q a (put s t)) fun t => E (put s t) := by
  cases h : x (view s) with
  | ok a t =>
      have hz : zoom view put x s = .ok a (put s t) := by simp only [zoom, h]
      exact ⟨fun hends => ends_of_ok h (hends.1 a _ hz), fun hends => ends_of_ok hz (hends.1 a t h)⟩
  | error ex t =>
      have hz : zoom view put x s = .error ex (put s t) := by simp only [zoom, h]
      exact ⟨fun hends => ends_of_error h (hends.2 ex _ hz),
        fun hends => ends_of_error hz (hends.2 ex t h)⟩

/-- **An execution leaves a quantity alone**, whether it returns or raises an exception. -/
def Leaves {γ : Type} (g : σ → γ) (x : EStateM ε σ α) : Prop :=
  ∀ s, Ends x s (fun _ t => g t = g s) fun t => g t = g s

theorem Leaves.pure {γ : Type} {g : σ → γ} {a : α} : Leaves g (pure a : EStateM ε σ α) :=
  fun _ => ends_pure.2 rfl

theorem Leaves.bind {γ : Type} {g : σ → γ} (hx : Leaves g x) (hf : ∀ a, Leaves g (f a)) :
    Leaves g (x >>= f) := by
  intro s
  refine ends_bind.2 ((hx s).mono ?_ fun _ h => h)
  intro a t ht
  exact (hf a t).mono (fun _ u hu => hu.trans ht) fun u hu => hu.trans ht

theorem Leaves.forM {γ : Type} {g : σ → γ} {f : α → EStateM ε σ PUnit} {l : List α}
    (hf : ∀ x ∈ l, Leaves g (f x)) : Leaves g (l.forM f) := by
  intro s
  refine ends_forM_const (fun t => g t = g s) ?_ rfl
  intro x hx t ht
  exact (hf x hx t).mono (fun _ u hu => hu.trans ht) fun u hu => hu.trans ht

/-- **An execution upholds a property of the state**, whether it returns or raises an exception. -/
def Upholds (P : σ → Prop) (x : EStateM ε σ α) : Prop :=
  ∀ s, P s → Ends x s (fun _ => P) P

section Upholds

variable {P : σ → Prop}

theorem Upholds.pure {a : α} : Upholds P (pure a : EStateM ε σ α) := fun _ h => ends_pure.2 h

theorem Upholds.throw {ex : ε} : Upholds P (throw ex : EStateM ε σ α) := fun _ h => ends_throw.2 h

theorem Upholds.get : Upholds P (get : EStateM ε σ σ) := fun _ h => ends_get.2 h

theorem Upholds.modify {g : σ → σ} (hg : ∀ s, P s → P (g s)) :
    Upholds P (modify g : EStateM ε σ PUnit) := fun s h => ends_modify.2 (hg s h)

theorem Upholds.bind (hx : Upholds P x) (hf : ∀ a, Upholds P (f a)) : Upholds P (x >>= f) :=
  fun s h => ends_bind.2 ((hx s h).mono (fun a t ht => hf a t ht) fun _ ht => ht)

theorem Upholds.ite {p : Prop} [Decidable p] {y : EStateM ε σ α} (hx : Upholds P x)
    (hy : Upholds P y) : Upholds P (if p then x else y) :=
  fun s h => ends_ite (fun _ => hx s h) fun _ => hy s h

theorem Upholds.forM {f : α → EStateM ε σ PUnit} {l : List α} (hf : ∀ x ∈ l, Upholds P (f x)) :
    Upholds P (l.forM f) := fun _ h => ends_forM_const P (fun x hx s hs => hf x hx s hs) h

/-- A property of a part of the state. -/
theorem Upholds.zoom {τ : Type} {view : σ → τ} {put : σ → τ → σ} {y : EStateM ε τ α}
    {P : τ → Prop} (hview : ∀ s t, view (put s t) = t) (hy : Upholds P y) :
    Upholds (fun s => P (view s)) (zoom view put y) := fun s h =>
  ends_zoom.2 ((hy _ h).mono (fun _ _ ht => by rwa [hview]) fun _ ht => by rwa [hview])

/-- A property of what is left alone. -/
theorem Leaves.upholds {γ : Type} {g : σ → γ} (hx : Leaves g x) (P : γ → Prop) :
    Upholds (fun s => P (g s)) x := fun s h =>
  (hx s).mono (fun _ _ ht => by rwa [ht]) fun _ ht => by rwa [ht]

end Upholds

end Ends

/-! ### Comparing two executions -/

/-- **Two executions agree**: both return the same value, in related states, or both raise the same
exception. -/
def Agree (R : σ → σ → Prop) : EStateM.Result ε σ α → EStateM.Result ε σ α → Prop
  | .ok a s, .ok b t => a = b ∧ R s t
  | .error e _, .error e' _ => e = e'
  | _, _ => False

theorem agree_iff {R : σ → σ → Prop} {x y : EStateM.Result ε σ α} :
    Agree R x y ↔ (∃ e s t, x = .error e s ∧ y = .error e t) ∨
      ∃ a s t, x = .ok a s ∧ y = .ok a t ∧ R s t := by
  constructor
  · intro h
    cases x with
    | ok a s =>
        cases y with
        | ok b t =>
            obtain ⟨rfl, hst⟩ := h
            exact Or.inr ⟨a, s, t, rfl, rfl, hst⟩
        | error e t => exact h.elim
    | error e s =>
        cases y with
        | ok b t => exact h.elim
        | error e' t =>
            obtain rfl : e = e' := h
            exact Or.inl ⟨e, s, t, rfl, rfl⟩
  · rintro (⟨e, s, t, rfl, rfl⟩ | ⟨a, s, t, rfl, rfl, hst⟩)
    · exact rfl
    · exact ⟨rfl, hst⟩

/-- Executions that agree go on to agree. -/
theorem Agree.bind {R R' : σ → σ → Prop} {x : EStateM ε σ α} {f : α → EStateM ε σ β} {s t : σ}
    (h : Agree R (x s) (x t)) (hf : ∀ a s t, R s t → Agree R' (f a s) (f a t)) :
    Agree R' ((x >>= f) s) ((x >>= f) t) := by
  simp only [Bind.bind, EStateM.bind]
  rcases agree_iff.1 h with ⟨e, s', t', hs, ht⟩ | ⟨a, s', t', hs, ht, hst⟩
  · rw [hs, ht]
    exact rfl
  · rw [hs, ht]
    exact hf a s' t' hst

/-- **The rule for two executions of a loop**, with a relation for the iterations done so far. -/
theorem foldlM_agree {f : β → α → EStateM ε σ β} {l : List α} (I : List α → σ → σ → Prop)
    (hstep : ∀ ps x rest, l = ps ++ x :: rest → ∀ b s t, I ps s t →
      Agree (I (ps ++ [x])) (f b x s) (f b x t)) :
    ∀ rest ps b s t, l = ps ++ rest → I ps s t →
      Agree (I l) (rest.foldlM f b s) (rest.foldlM f b t) := by
  intro rest
  induction rest with
  | nil =>
      intro ps b s t hl hI
      rw [hl, List.append_nil]
      exact ⟨rfl, hI⟩
  | cons x rest ih =>
      intro ps b s t hl hI
      rw [List.foldlM_cons]
      exact (hstep ps x rest hl b s t hI).bind fun b' s' t' hI' =>
        ih (ps ++ [x]) b' s' t' (by simp [hl]) hI'

/-- The same for a loop without an accumulator, and one relation for all iterations. -/
theorem forM_agree {f : α → EStateM ε σ PUnit} {l : List α} (R : σ → σ → Prop)
    (hstep : ∀ x ∈ l, ∀ s t, R s t → Agree R (f x s) (f x t)) :
    ∀ s t, R s t → Agree R (l.forM f s) (l.forM f t) := by
  induction l with
  | nil =>
      intro s t hR
      exact ⟨rfl, hR⟩
  | cons x l ih =>
      intro s t hR
      have hcons : (x :: l).forM f = (do f x; l.forM f) := by simp [List.forM]
      rw [hcons]
      exact (hstep x (List.mem_cons_self ..) s t hR).bind fun _ s' t' hR' =>
        ih (fun y hy => hstep y (List.mem_cons_of_mem _ hy)) s' t' hR'

end Loops
