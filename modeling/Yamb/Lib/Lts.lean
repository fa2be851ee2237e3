import Mathlib.Data.List.Basic
import Mathlib.Data.List.Forall2
import Mathlib.Data.List.Induction
import Mathlib.Data.List.Nodup
import Mathlib.Data.Nat.Init

/-!
# Labelled transition systems

Runs of a step relation with the trace of their events, over arbitrary states and events.

* `Run`, `Run.snoc_inv`, `Run.cons_inv`, `Run.trans`, `Run.split`: finite runs, the trace in the order
  of the steps;
* `Run.invariant`, `Run.trace_invariant`, `Run.invariant_while`: what every step preserves holds after
  every run;
* `Run.length_filter_le`: a run is no longer than a rank allows;
* `foldlM_eq_ok_iff`: a loop that can fail as a run of its body;
* `Run.mono`, `run_only_iff`, `run_only_congr`, `Run.only_of_forall`, `Run.restrict`: runs of a smaller
  or larger relation;
* `Remember`, `run_into_iff_remember`: runs that keep a record of the past;
* `Surely`, `run_surely_iff`, `Into`, `run_into_iff`: runs that keep a property, by a condition on their
  steps;
* `Run.last_entry`, `Run.into_of_no_entry`: how a run has got to where it is;
* `Run.simulate`, `Run.project`: forward simulation, and the runs of a part of a system;
* `Diverges`: a run without end; `not_diverges_of_length_le` and `diverges_of_progress` refute and
  establish it.
-/

set_option autoImplicit false

namespace Lts

variable {σ ε : Type}

/-- Runs from `s₀`: the trace of events and the state reached. -/
inductive Run (step : σ → ε → σ → Prop) (s₀ : σ) : List ε → σ → Prop
  | nil : Run step s₀ [] s₀
  | snoc {tr : List ε} {s s' : σ} {e : ε} (h : Run step s₀ tr s) (he : step s e s') :
      Run step s₀ (tr ++ [e]) s'

variable {step step' : σ → ε → σ → Prop} {s₀ s s' : σ} {tr tr' : List ε}

theorem Run.single {e : ε} (h : step s e s') : Run step s [e] s' := Run.snoc .nil h

theorem Run.nil_inv (h : Run step s₀ [] s) : s = s₀ := by
  generalize htr : ([] : List ε) = tr at h
  cases h with
  | nil => rfl
  | snoc => simp at htr

theorem Run.snoc_inv {e : ε} (h : Run step s₀ (tr ++ [e]) s) :
    ∃ s', Run step s₀ tr s' ∧ step s' e s := by
  generalize htr : tr ++ [e] = tr' at h
  cases h with
  | nil => simp at htr
  | snoc h he =>
    obtain ⟨rfl, heq⟩ := List.append_inj' htr rfl
    obtain rfl := List.singleton_inj.mp heq
    exact ⟨_, h, he⟩

theorem Run.trans (h : Run step s₀ tr s) (h' : Run step s tr' s') :
    Run step s₀ (tr ++ tr') s' := by
  induction h' with
  | nil => rwa [List.append_nil]
  | snoc _ he ih =>
    rw [← List.append_assoc]
    exact ih.snoc he

theorem Run.cons {e : ε} (he : step s₀ e s) (h : Run step s tr s') : Run step s₀ (e :: tr) s' :=
  (Run.single he).trans h

/-- A run stops before each of its events. -/
theorem Run.split {e : ε} (h : Run step s₀ (tr ++ e :: tr') s) :
    ∃ s₁ s₂, Run step s₀ tr s₁ ∧ step s₁ e s₂ ∧ Run step s₂ tr' s := by
  induction tr' using List.reverseRecOn generalizing s with
  | nil =>
    obtain ⟨s₁, hr, he⟩ := h.snoc_inv
    exact ⟨s₁, s, hr, he, .nil⟩
  | append_singleton tr' e' ih =>
    rw [← List.cons_append, ← List.append_assoc] at h
    obtain ⟨s₃, hr, he'⟩ := h.snoc_inv
    obtain ⟨s₁, s₂, hr₁, he, hr₂⟩ := ih hr
    exact ⟨s₁, s₂, hr₁, he, hr₂.snoc he'⟩

theorem Run.append_inv (h : Run step s₀ (tr ++ tr') s) :
    ∃ s₁, Run step s₀ tr s₁ ∧ Run step s₁ tr' s := by
  cases tr' with
  | nil =>
    rw [List.append_nil] at h
    exact ⟨s, h, .nil⟩
  | cons e tr' =>
    obtain ⟨s₁, s₂, h₁, he, h₂⟩ := h.split
    exact ⟨s₁, h₁, Run.cons he h₂⟩

theorem Run.cons_inv {e : ε} (h : Run step s₀ (e :: tr) s) :
    ∃ s', step s₀ e s' ∧ Run step s' tr s := by
  have h' : Run step s₀ ([] ++ e :: tr) s := h
  obtain ⟨s₁, s', hnil, he, hr⟩ := h'.split
  rw [hnil.nil_inv] at he
  exact ⟨s', he, hr⟩

/-- What every step preserves, together with the trace so far, holds after every run. -/
theorem Run.trace_invariant {I : List ε → σ → Prop} (h : Run step s₀ tr s) (h₀ : I [] s₀)
    (hstep : ∀ tr s e s', I tr s → step s e s' → I (tr ++ [e]) s') : I tr s := by
  induction h with
  | nil => exact h₀
  | snoc _ he ih => exact hstep _ _ _ _ ih he

/-- What every step preserves holds after every run. -/
theorem Run.invariant {I : σ → Prop} (h : Run step s₀ tr s) (h₀ : I s₀)
    (hstep : ∀ s e s', I s → step s e s' → I s') : I s :=
  h.trace_invariant (I := fun _ s => I s) h₀ fun _ s e s' hs he => hstep s e s' hs he

/-- What every step preserves as long as a condition lasts that no step brings back. -/
theorem Run.invariant_while {I C : σ → Prop} (h : Run step s₀ tr s) (hC : C s)
    (hback : ∀ s e s', step s e s' → C s' → C s) (h₀ : I s₀)
    (hstep : ∀ s e s', C s → C s' → I s → step s e s' → I s') : I s := by
  induction h with
  | nil => exact h₀
  | snoc _ he ih =>
    have hC' := hback _ _ _ he hC
    exact hstep _ _ _ hC' hC (ih hC') he

theorem Run.mono (h : Run step s₀ tr s) (himp : ∀ s e s', step s e s' → step' s e s') :
    Run step' s₀ tr s := by
  induction h with
  | nil => exact .nil
  | snoc _ he ih => exact ih.snoc (himp _ _ _ he)

/-- A loop that can fail comes to its end exactly in the runs of its body. -/
theorem foldlM_eq_ok_iff {F : Type} {f : σ → ε → Except F σ} :
    tr.foldlM f s₀ = .ok s ↔ Run (fun s e s' => f s e = .ok s') s₀ tr s := by
  induction tr generalizing s₀ with
  | nil =>
    constructor
    · intro h
      obtain rfl : s₀ = s := Except.ok.inj h
      exact .nil
    · intro h
      rw [h.nil_inv]
      rfl
  | cons e tr ih =>
    rw [List.foldlM_cons]
    constructor
    · intro h
      cases he : f s₀ e with
      | error F =>
        rw [he] at h
        cases h
      | ok s₁ =>
        rw [he] at h
        exact (ih.mp h).cons he
    · intro h
      obtain ⟨s₁, he, h⟩ := h.cons_inv
      rw [he]
      exact ih.mpr h

theorem eq_ok_of_mem_toOption {F : Type} {x : Except F σ} (h : s ∈ x.toOption) : x = .ok s := by
  cases x with
  | error => cases h
  | ok s' => exact congrArg Except.ok (Option.some.inj h)

/-- A run that ends in a state with `P`, from the loop that computes it. -/
theorem exists_run_of_any {F : Type} (f : σ → ε → Except F σ) (s₀ : σ) (tr : List ε)
    (P : σ → Prop) [DecidablePred P]
    (h : ((tr.foldlM f s₀).toOption.any fun s => decide (P s)) = true) :
    ∃ s, Run (fun s e s' => f s e = .ok s') s₀ tr s ∧ P s := by
  obtain ⟨s, hs, hP⟩ := (Option.any_eq_true _ _).mp h
  exact ⟨s, foldlM_eq_ok_iff.mp (eq_ok_of_mem_toOption hs), of_decide_eq_true hP⟩

/-- A loop that fails does so at one of its events. -/
theorem exists_of_foldlM_eq_error {F : Type} {f : σ → ε → Except F σ} {x : F}
    (h : tr.foldlM f s₀ = .error x) : ∃ t₁ e t₂ s₁, tr = t₁ ++ e :: t₂ ∧
      t₁.foldlM f s₀ = .ok s₁ ∧ f s₁ e = .error x := by
  induction tr generalizing s₀ with
  | nil => cases h
  | cons e tr ih =>
    rw [List.foldlM_cons] at h
    cases he : f s₀ e with
    | error y =>
      rw [he] at h
      obtain rfl : y = x := Except.error.inj h
      exact ⟨[], e, tr, s₀, rfl, rfl, he⟩
    | ok s₁ =>
      rw [he] at h
      obtain ⟨t₁, e', t₂, s₂, rfl, ht, he'⟩ := ih h
      exact ⟨e :: t₁, e', t₂, s₂, rfl, by rw [List.foldlM_cons, he]; exact ht, he'⟩

/-- The steps of `step` from states, and with events, that satisfy `P`. -/
def Only (step : σ → ε → σ → Prop) (P : σ → ε → Prop) (s : σ) (e : ε) (s' : σ) : Prop :=
  step s e s' ∧ P s e

theorem Run.of_only {P : σ → ε → Prop} (h : Run (Only step P) s₀ tr s) : Run step s₀ tr s :=
  h.mono fun _ _ _ hs => hs.1

/-- Conditions that an invariant makes the same, as long as the steps that meet them keep it. -/
theorem run_only_iff {I : σ → Prop} {P Q : σ → ε → Prop} (h₀ : I s₀)
    (hiff : ∀ s e, I s → (P s e ↔ Q s e))
    (hkeep : ∀ s e s', I s → step s e s' → P s e → I s') :
    Run (Only step P) s₀ tr s ↔ Run (Only step Q) s₀ tr s := by
  suffices H : ∀ {P Q : σ → ε → Prop}, (∀ s e, I s → P s e → Q s e) →
      (∀ s e s', I s → step s e s' → P s e → I s') →
      Run (Only step P) s₀ tr s → Run (Only step Q) s₀ tr s ∧ I s from
    ⟨fun h => (H (fun s e hs => (hiff s e hs).mp) hkeep h).1,
      fun h => (H (fun s e hs => (hiff s e hs).mpr)
        (fun s e s' hs he hQ => hkeep s e s' hs he ((hiff s e hs).mpr hQ)) h).1⟩
  intro P Q himp hkeep h
  induction h with
  | nil => exact ⟨.nil, h₀⟩
  | snoc _ he ih =>
    obtain ⟨hr, hs⟩ := ih
    exact ⟨hr.snoc ⟨he.1, himp _ _ hs he.2⟩, hkeep _ _ _ hs he.1 he.2⟩

/-- Conditions that an invariant makes the same. -/
theorem run_only_congr {I : σ → Prop} {P Q : σ → ε → Prop} (h₀ : I s₀)
    (hstep : ∀ s e s', I s → step s e s' → I s') (hiff : ∀ s e, I s → (P s e ↔ Q s e)) :
    Run (Only step P) s₀ tr s ↔ Run (Only step Q) s₀ tr s :=
  run_only_iff h₀ hiff fun s e s' hs he _ => hstep s e s' hs he

/-- A run all of whose steps satisfy `P`. -/
theorem Run.only_of_forall {P : σ → ε → Prop} (h : Run step s₀ tr s)
    (hP : ∀ t₁ e t₂ s₁ s₂, tr = t₁ ++ e :: t₂ → Run step s₀ t₁ s₁ → step s₁ e s₂ → P s₁ e) :
    Run (Only step P) s₀ tr s := by
  induction h with
  | nil => exact .nil
  | @snoc tr s s' e hr he ih =>
    refine (ih fun t₁ e' t₂ s₁ s₂ htr => ?_).snoc ⟨he, hP tr e [] s s' rfl hr he⟩
    exact hP t₁ e' (t₂ ++ [e]) s₁ s₂ (by simp [htr])

/-- A run all of whose steps satisfy `P`, as soon as every step that violates `P` makes the trace
bad and badness persists. -/
theorem Run.restrict {P : σ → ε → Prop} (Bad : List ε → Prop) (h : Run step s₀ tr s)
    (hgood : ¬ Bad tr) (hmono : ∀ tr e, Bad tr → Bad (tr ++ [e]))
    (hbad : ∀ tr s e s', Run step s₀ tr s → step s e s' → ¬ P s e → Bad (tr ++ [e])) :
    Run (Only step P) s₀ tr s := by
  induction h with
  | nil => exact .nil
  | @snoc tr s s' e hr he ih =>
    refine (ih fun hb => hgood (hmono _ _ hb)).snoc ⟨he, ?_⟩
    by_contra hP
    exact hgood (hbad _ _ _ _ hr he hP)

/-- The steps of `step`, with a record of the past that `f` keeps. -/
def Remember {η : Type} (step : σ → ε → σ → Prop) (f : σ → ε → η → η) (s : σ × η) (e : ε)
    (s' : σ × η) : Prop := step s.1 e s'.1 ∧ s'.2 = f s.1 e s.2

/-- Every run can be recorded. -/
theorem Run.remember {η : Type} (f : σ → ε → η → η) (x : η) (h : Run step s₀ tr s) :
    ∃ y, Run (Remember step f) (s₀, x) tr (s, y) := by
  induction h with
  | nil => exact ⟨x, .nil⟩
  | @snoc _ _ _ e _ he ih =>
    obtain ⟨y, hr⟩ := ih
    exact ⟨f _ e y, hr.snoc ⟨he, rfl⟩⟩

theorem Run.forget {η : Type} {f : σ → ε → η → η} {p q : σ × η}
    (h : Run (Remember step f) p tr q) : Run step p.1 tr q.1 := by
  induction h with
  | nil => exact .nil
  | snoc _ he ih => exact ih.snoc he.1

/-- The steps of `step` all of whose outcomes satisfy `P`. -/
def Surely (step : σ → ε → σ → Prop) (P : σ → Prop) (s : σ) (e : ε) (s' : σ) : Prop :=
  step s e s' ∧ ∀ t, step s e t → P t

/-- **A run keeps `P` if and only if every step meets `Q`**, as soon as the invariant `I` makes `Q`
the condition under which one step surely leads to `P`, and survives the steps that do. -/
theorem run_surely_iff {I P : σ → Prop} {Q : σ → ε → Prop} (h₀ : I s₀)
    (hiff : ∀ s e s', I s → step s e s' → ((∀ t, step s e t → P t) ↔ Q s e))
    (hpres : ∀ s e s', I s → step s e s' → Q s e → I s') :
    Run (Surely step P) s₀ tr s ↔ Run (Only step Q) s₀ tr s := by
  constructor
  · intro h
    suffices H : Run (Only step Q) s₀ tr s ∧ I s from H.1
    induction h with
    | nil => exact ⟨.nil, h₀⟩
    | snoc _ he ih =>
      have hQ := (hiff _ _ _ ih.2 he.1).mp he.2
      exact ⟨ih.1.snoc ⟨he.1, hQ⟩, hpres _ _ _ ih.2 he.1 hQ⟩
  · intro h
    suffices H : Run (Surely step P) s₀ tr s ∧ I s from H.1
    induction h with
    | nil => exact ⟨.nil, h₀⟩
    | snoc _ he ih =>
      exact ⟨ih.1.snoc ⟨he.1, (hiff _ _ _ ih.2 he.1).mpr he.2⟩, hpres _ _ _ ih.2 he.1 he.2⟩

/-- The steps of `step` whose outcome satisfies `P`. -/
def Into (step : σ → ε → σ → Prop) (P : σ → Prop) (s : σ) (e : ε) (s' : σ) : Prop :=
  step s e s' ∧ P s'

/-- **A run stays in `P` if and only if every step meets `Q`**, as long as a condition lasts that no
step brings back. -/
theorem run_into_iff {I C P : σ → Prop} {Q : σ → ε → Prop} (hC : C s)
    (hback : ∀ s e s', step s e s' → C s' → C s) (h₀ : I s₀)
    (hiff : ∀ s e s', C s' → I s → step s e s' → (P s' ↔ Q s e))
    (hpres : ∀ s e s', C s' → I s → step s e s' → Q s e → I s') :
    Run (Into step P) s₀ tr s ↔ Run (Only step Q) s₀ tr s := by
  constructor
  · intro h
    suffices H : Run (Only step Q) s₀ tr s ∧ I s from H.1
    induction h with
    | nil => exact ⟨.nil, h₀⟩
    | snoc _ he ih =>
      have ih := ih (hback _ _ _ he.1 hC)
      have hQ := (hiff _ _ _ hC ih.2 he.1).mp he.2
      exact ⟨ih.1.snoc ⟨he.1, hQ⟩, hpres _ _ _ hC ih.2 he.1 hQ⟩
  · intro h
    suffices H : Run (Into step P) s₀ tr s ∧ I s from H.1
    induction h with
    | nil => exact ⟨.nil, h₀⟩
    | snoc _ he ih =>
      have ih := ih (hback _ _ _ he.1 hC)
      exact ⟨ih.1.snoc ⟨he.1, (hiff _ _ _ hC ih.2 he.1).mpr he.2⟩, hpres _ _ _ hC ih.2 he.1 he.2⟩

/-- What a run stays in does not depend on the record that goes with it. -/
theorem run_into_iff_remember {η : Type} {P : σ → Prop} (f : σ → ε → η → η) (x : η) :
    Run (Into step P) s₀ tr s ↔
      ∃ y, Run (Into (Remember step f) fun s => P s.1) (s₀, x) tr (s, y) := by
  constructor
  · intro h
    obtain ⟨y, hr⟩ := h.remember f x
    exact ⟨y, hr.mono fun _ _ _ he => ⟨⟨he.1.1, he.2⟩, he.1.2⟩⟩
  · rintro ⟨y, hr⟩
    have hr : Run (Remember (Into step P) f) (s₀, x) tr (s, y) :=
      hr.mono fun _ _ _ he => ⟨⟨he.1.1, he.2⟩, he.1.2⟩
    exact hr.forget

/-- A run that is in `A` before each of its steps, and at the end, stays in `A`. -/
theorem Run.into_of_before {A : σ → Prop} {P : σ → ε → Prop} (h : Run (Only step P) s₀ tr s)
    (hP : ∀ s e, P s e → A s) (hs : A s) : Run (Into step A) s₀ tr s := by
  induction h with
  | nil => exact .nil
  | snoc _ he ih => exact (ih (hP _ _ he.2)).snoc ⟨he.1, hs⟩

/-- A run without an event that leads into `A` has been in `A` all along. -/
theorem Run.into_of_no_entry {A : σ → Prop} {E : ε → Prop} (h : Run step s₀ tr s) (hs : A s)
    (hentry : ∀ s e s', step s e s' → ¬ A s → A s' → E e) (hE : ∀ e ∈ tr, ¬ E e) :
    A s₀ ∧ Run (Into step A) s₀ tr s := by
  induction h with
  | nil => exact ⟨hs, .nil⟩
  | @snoc tr s s' e _ he ih =>
    have hA : A s := by
      by_contra hA
      exact hE e (by simp) (hentry s e s' he hA hs)
    obtain ⟨h₀, hr⟩ := ih hA fun e' he' => hE e' (List.mem_append_left _ he')
    exact ⟨h₀, hr.snoc ⟨he, hs⟩⟩

/-- A run that gets into `A` has a step that leads into it for the last time. -/
theorem Run.last_entry {A : σ → Prop} (h : Run step s₀ tr s) (h₀ : ¬ A s₀) (hs : A s) :
    ∃ t₁ e t₂ s₁ s₂, tr = t₁ ++ e :: t₂ ∧ Run step s₀ t₁ s₁ ∧ ¬ A s₁ ∧ step s₁ e s₂ ∧ A s₂ ∧
      Run (Into step A) s₂ t₂ s := by
  induction h with
  | nil => exact absurd hs h₀
  | @snoc tr s s' e hr he ih =>
    by_cases hA : A s
    · obtain ⟨t₁, e', t₂, s₁, s₂, rfl, hr₁, hA₁, he', hA₂, hr₂⟩ := ih hA
      exact ⟨t₁, e', t₂ ++ [e], s₁, s₂, by simp, hr₁, hA₁, he', hA₂, hr₂.snoc ⟨he, hs⟩⟩
    · exact ⟨tr, e, [], s, s', rfl, hr, hA, he, hs, .nil⟩

/-- A quantity that grows by one in the steps that violate `Q`, and in no other. -/
theorem Run.only_iff_measure {Q : σ → ε → Prop} [∀ s e, Decidable (Q s e)] {μ : σ → ℕ}
    (h : Run step s₀ tr s) (h₀ : μ s₀ = 0)
    (hstep : ∀ s e s', step s e s' → μ s' = μ s + if Q s e then 0 else 1) :
    μ s = 0 ↔ Run (Only step Q) s₀ tr s := by
  constructor
  · intro hμ
    induction h with
    | nil => exact .nil
    | snoc _ he ih =>
      have hs := hstep _ _ _ he
      split_ifs at hs with hQ
      · exact (ih (by omega)).snoc ⟨he, hQ⟩
      · omega
  · intro hq
    refine hq.invariant (I := fun s => μ s = 0) h₀ fun s e s' hs he => ?_
    rw [hstep s e s' he.1, if_pos he.2, hs]

/-- Steps of `Own` lower a quantity, those of `Raises` raise it by `k` at most, no other does. -/
theorem Run.length_filter_le (Own Raises : ε → Prop) [DecidablePred Own] [DecidablePred Raises]
    {I : σ → Prop} {μ : σ → ℕ} {k : ℕ} (h : Run step s₀ tr s) (h₀ : I s₀)
    (hI : ∀ s e s', I s → step s e s' → I s')
    (hown : ∀ s e s', I s → step s e s' → Own e → μ s' < μ s)
    (hraises : ∀ s e s', I s → step s e s' → ¬ Own e → μ s' ≤ μ s + if Raises e then k else 0) :
    (tr.filter (Own ·)).length + μ s ≤ μ s₀ + k * (tr.filter (Raises ·)).length := by
  suffices H : I s ∧ (tr.filter (Own ·)).length + μ s ≤
      μ s₀ + k * (tr.filter (Raises ·)).length from H.2
  refine h.trace_invariant (I := fun tr s => I s ∧ (tr.filter (Own ·)).length + μ s ≤
    μ s₀ + k * (tr.filter (Raises ·)).length) ⟨h₀, by simp⟩ ?_
  rintro tr s e s' ⟨hs, hle⟩ he
  refine ⟨hI s e s' hs he, ?_⟩
  have hfilter : ∀ (P : ε → Prop) [DecidablePred P], ((tr ++ [e]).filter (P ·)).length =
      (tr.filter (P ·)).length + if P e then 1 else 0 := by
    intro P _
    by_cases hP : P e <;> simp [hP]
  rw [hfilter, hfilter, Nat.mul_add]
  by_cases ho : Own e
  · have hlt := hown s e s' hs he ho
    rw [if_pos ho]
    omega
  · have hle' := hraises s e s' hs he ho
    rw [if_neg ho]
    split_ifs at hle' ⊢ <;> omega

/-- When the labels of a trace are distinct, a label belongs to one event. -/
theorem eq_of_nodup_filterMap {α β : Type} {f : α → Option β} {l : List α}
    (hnd : (l.filterMap f).Nodup) {a b : α} (ha : a ∈ l) (hb : b ∈ l) {x : β} (hfa : f a = some x)
    (hfb : f b = some x) : a = b := by
  by_contra hne
  obtain ⟨l₁, l₂, rfl⟩ := List.append_of_mem ha
  rw [List.filterMap_append, List.filterMap_cons_some hfa, List.nodup_middle, List.nodup_cons,
    ← List.filterMap_append] at hnd
  refine hnd.1 (List.mem_filterMap.mpr ⟨b, ?_, hfb⟩)
  simp only [List.mem_append, List.mem_cons] at hb ⊢
  rcases hb with hb | rfl | hb
  · exact .inl hb
  · exact absurd rfl hne
  · exact .inr hb

theorem forall₂_split {α β : Type} {R : α → β → Prop} {x : α} {l₂ : List α} :
    ∀ {l₁ : List α} {l' : List β}, List.Forall₂ R (l₁ ++ x :: l₂) l' →
      ∃ l₁' y l₂', l' = l₁' ++ y :: l₂' ∧ List.Forall₂ R l₁ l₁' ∧ R x y ∧ List.Forall₂ R l₂ l₂'
  | [], _, h => by
    cases h with
    | cons hx hl => exact ⟨[], _, _, rfl, .nil, hx, hl⟩
  | a :: l₁, _, h => by
    cases h with
    | cons ha hl =>
      obtain ⟨l₁', y, l₂', rfl, h₁, hx, h₂⟩ := forall₂_split hl
      exact ⟨_ :: l₁', y, l₂', rfl, .cons ha h₁, hx, h₂⟩

/-- **Forward simulation**: the runs of `step` are followed by runs of another relation along `R`,
with events related by `E`. -/
theorem Run.simulate {σ' ε' : Type} {step' : σ' → ε' → σ' → Prop} {R : σ → σ' → Prop}
    {E : ε → ε' → Prop} {a₀ : σ'} (h : Run step s₀ tr s) (h₀ : R s₀ a₀)
    (hsim : ∀ s e s' a, R s a → step s e s' → ∃ e' a', E e e' ∧ step' a e' a' ∧ R s' a') :
    ∃ tr' a, Run step' a₀ tr' a ∧ R s a ∧ List.Forall₂ E tr tr' := by
  induction h with
  | nil => exact ⟨[], a₀, .nil, h₀, .nil⟩
  | snoc _ he ih =>
    obtain ⟨tr', a, hr, hR, hE⟩ := ih
    obtain ⟨e', a', hee, hs, hR'⟩ := hsim _ _ _ _ hR he
    exact ⟨tr' ++ [e'], a', hr.snoc hs, hR', List.rel_append hE (.cons hee .nil)⟩

/-- A system of which `f` shows a part: its steps are steps of that part, or leave it alone. -/
theorem Run.project {σ' ε' : Type} {step' : σ' → ε' → σ' → Prop} {I : σ → Prop} (f : σ → σ')
    (g : ε → Option ε') (h : Run step s₀ tr s) (h₀ : I s₀)
    (hstep : ∀ s e s', I s → step s e s' → I s' ∧
      (∀ e', g e = some e' → step' (f s) e' (f s')) ∧ (g e = none → f s' = f s)) :
    I s ∧ Run step' (f s₀) (tr.filterMap g) (f s) := by
  induction h with
  | nil => exact ⟨h₀, .nil⟩
  | @snoc tr s s' e _ he ih =>
    obtain ⟨hs, hr⟩ := ih
    obtain ⟨hs', hsome, hnone⟩ := hstep s e s' hs he
    refine ⟨hs', ?_⟩
    rw [List.filterMap_append]
    cases hg : g e with
    | none =>
      rw [List.filterMap_cons_none hg, List.filterMap_nil, List.append_nil, hnone hg]
      exact hr
    | some e' =>
      rw [List.filterMap_cons_some hg, List.filterMap_nil]
      exact hr.snoc (hsome e' hg)

theorem exists_of_forall₂_left {α β : Type} {R : α → β → Prop} {l : List α} {l' : List β}
    (h : List.Forall₂ R l l') {x : α} (hx : x ∈ l) : ∃ y ∈ l', R x y := by
  obtain ⟨l₁, l₂, rfl⟩ := List.append_of_mem hx
  obtain ⟨l₁', y, l₂', rfl, -, hxy, -⟩ := forall₂_split h
  exact ⟨y, by simp, hxy⟩

theorem exists_of_forall₂_right {α β : Type} {R : α → β → Prop} {l : List α} {l' : List β}
    (h : List.Forall₂ R l l') {y : β} (hy : y ∈ l') : ∃ x ∈ l, R x y :=
  exists_of_forall₂_left (R := fun b a => R a b) h.flip hy

/-! ### Runs without end -/

/-- There is an infinite run from `s`. -/
def Diverges (step : σ → ε → σ → Prop) (s : σ) : Prop :=
  ∃ f : ℕ → σ, f 0 = s ∧ ∀ n, ∃ e, step (f n) e (f (n + 1))

theorem Diverges.exists_run (h : Diverges step s) (n : ℕ) :
    ∃ tr s', Run step s tr s' ∧ tr.length = n := by
  obtain ⟨f, rfl, hf⟩ := h
  suffices H : ∃ tr, Run step (f 0) tr (f n) ∧ tr.length = n from
    let ⟨tr, hr, hl⟩ := H
    ⟨tr, f n, hr, hl⟩
  induction n with
  | zero => exact ⟨[], .nil, rfl⟩
  | succ n ih =>
    obtain ⟨tr, hr, hl⟩ := ih
    obtain ⟨e, he⟩ := hf n
    exact ⟨tr ++ [e], hr.snoc he, by simp [hl]⟩

/-- When all runs from `s` are at most `B` steps long, none is infinite. -/
theorem not_diverges_of_length_le (B : ℕ) (h : ∀ tr s', Run step s tr s' → tr.length ≤ B) :
    ¬ Diverges step s := by
  intro hd
  obtain ⟨tr, s', hr, hl⟩ := hd.exists_run (B + 1)
  have := h tr s' hr
  omega

/-- A state predicate from which some step always leads back to it gives an infinite run. -/
theorem diverges_of_progress {I : σ → Prop} (hs : I s)
    (hstep : ∀ s, I s → ∃ e s', step s e s' ∧ I s') : Diverges step s := by
  choose e next hnext hI using hstep
  let f : ℕ → {s // I s} := fun n => Nat.rec ⟨s, hs⟩ (fun _ q => ⟨next q.1 q.2, hI q.1 q.2⟩) n
  exact ⟨fun n => (f n).1, rfl, fun n => ⟨e (f n).1 (f n).2, hnext (f n).1 (f n).2⟩⟩

end Lts
