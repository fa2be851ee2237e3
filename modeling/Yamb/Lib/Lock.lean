import Mathlib.Data.List.Basic

/-!
# A flag used as a lock

Tasks share some data and a flag. A task that finds the flag unset sets it and is inside; it works on
the data, moving from one position to the next, and unsets the flag when it leaves.

* `Step`: the steps, with the conditions under which tasks enter, work, leave and are given up;
* `Excl`, `Step.excl`: at most one task is inside;
* `Step.stuck`: a flag that is set while nobody is inside is never unset;
* `Guarded`, `Step.guarded`: reasoning as if each critical section ran alone, from what holds while
  nobody is inside and what holds at each position.
-/

set_option autoImplicit false

namespace Lock

variable {σ π : Type}

/-- `inside` lists the positions of the tasks in their critical sections. -/
structure State (σ π : Type) where
  data : σ
  flag : Bool
  inside : List π

/-- A task that is given up leaves the flag set. -/
inductive Step (E : π → Prop) (W : σ → π → σ → π → Prop) (L X : π → Prop) (s : State σ π) :
    State σ π → Prop
  | idle : Step E W L X s s
  | enter {p : π} {inside' : List π} (hflag : s.flag = false) (hp : E p)
      (h : inside'.Perm (p :: s.inside)) : Step E W L X s ⟨s.data, true, inside'⟩
  | work {p p' : π} {rest inside' : List π} {data' : σ} (h : s.inside.Perm (p :: rest))
      (hp : W s.data p data' p') (h' : inside'.Perm (p' :: rest)) :
      Step E W L X s ⟨data', s.flag, inside'⟩
  | leave {p : π} {rest : List π} (h : s.inside.Perm (p :: rest)) (hp : L p) :
      Step E W L X s ⟨s.data, false, rest⟩
  | giveUp {p : π} {rest : List π} (h : s.inside.Perm (p :: rest)) (hp : X p) :
      Step E W L X s ⟨s.data, s.flag, rest⟩

variable {E L X : π → Prop} {W : σ → π → σ → π → Prop} {s s' : State σ π}

/-- At most one task is inside, and none when the flag is unset. -/
def Excl (s : State σ π) : Prop := s.inside.length ≤ if s.flag then 1 else 0

theorem Excl.of_flag (h : Excl s) (hflag : s.flag = false) : s.inside = [] := by
  rw [Excl, if_neg (by simp [hflag])] at h
  exact List.length_eq_zero_iff.mp (Nat.le_zero.mp h)

theorem Excl.length_le_one (h : Excl s) : s.inside.length ≤ 1 := by
  refine Nat.le_trans h ?_
  split_ifs <;> omega

/-- The task that is inside is alone. -/
theorem Excl.rest_eq_nil (h : Excl s) {p : π} {rest : List π} (hp : s.inside.Perm (p :: rest)) :
    rest = [] := by
  have hle := h.length_le_one
  rw [hp.length_eq, List.length_cons] at hle
  exact List.length_eq_zero_iff.mp (by omega)

theorem Excl.eq_of_mem (h : Excl s) {p q : π} (hp : p ∈ s.inside) (hq : q ∈ s.inside) : q = p := by
  obtain ⟨l₁, l₂, hl⟩ := List.append_of_mem hp
  have hperm : s.inside.Perm (p :: (l₁ ++ l₂)) := hl ▸ List.perm_middle
  rw [hperm.mem_iff, h.rest_eq_nil hperm] at hq
  exact List.mem_singleton.mp hq

theorem Step.excl (h : Step E W L X s s') (hs : Excl s) : Excl s' := by
  cases h with
  | idle => exact hs
  | enter hflag hp h =>
    rw [hs.of_flag hflag] at h
    exact Nat.le_of_eq h.length_eq
  | work h hp h' =>
    have hl := h'.length_eq.trans h.length_eq.symm
    exact Nat.le_trans (Nat.le_of_eq hl) hs
  | leave h hp =>
    rw [hs.rest_eq_nil h]
    exact Nat.le_refl 0
  | giveUp h hp =>
    rw [hs.rest_eq_nil h]
    exact Nat.zero_le _

/-- Set with nobody inside, the flag stays so: nobody can enter, and nobody is left to unset it. -/
theorem Step.stuck (h : Step E W L X s s') (hflag : s.flag = true) (hnil : s.inside = []) :
    s' = s := by
  have hne {p : π} {rest : List π} (hp : s.inside.Perm (p :: rest)) : False := by
    rw [hnil] at hp
    exact absurd hp.nil_eq (List.cons_ne_nil _ _).symm
  cases h with
  | idle => rfl
  | enter hf => exact absurd (hf.symm.trans hflag) Bool.false_ne_true
  | work hp => exact (hne hp).elim
  | leave hp => exact (hne hp).elim
  | giveUp hp => exact (hne hp).elim

/-- `Rest` holds of the data while nobody is inside, `At` while the one task inside is at its
position. -/
inductive Guarded (Rest : σ → Prop) (At : σ → π → Prop) : State σ π → Prop
  | rest {data : σ} (h : Rest data) : Guarded Rest At ⟨data, false, []⟩
  | held {data : σ} {p : π} (h : At data p) : Guarded Rest At ⟨data, true, [p]⟩

variable {Rest Rest' : σ → Prop} {At At' : σ → π → Prop}

theorem Guarded.excl (h : Guarded Rest At s) : Excl s := by
  cases h with
  | rest => exact Nat.le_refl 0
  | held => exact Nat.le_refl 1

theorem Guarded.at_of_mem (h : Guarded Rest At s) {p : π} (hp : p ∈ s.inside) : At s.data p := by
  cases h with
  | rest => cases hp
  | held h =>
    obtain rfl := List.mem_singleton.mp hp
    exact h

theorem Guarded.rest_of_nil (h : Guarded Rest At s) (hnil : s.inside = []) :
    s.flag = false ∧ Rest s.data := by
  cases h with
  | rest h => exact ⟨rfl, h⟩
  | held => cases hnil

/-- What follows from `Rest` and from `At` at every position holds at all times. -/
theorem Guarded.data {P : σ → Prop} (h : Guarded Rest At s) (hrest : Rest s.data → P s.data)
    (hat : ∀ p ∈ s.inside, At s.data p → P s.data) : P s.data := by
  cases h with
  | rest h => exact hrest h
  | held h => exact hat _ (List.mem_singleton.mpr rfl) h

theorem Guarded.imp (h : Guarded Rest At s) (hrest : Rest s.data → Rest' s.data)
    (hat : ∀ p ∈ s.inside, At s.data p → At' s.data p) : Guarded Rest' At' s := by
  cases h with
  | rest h => exact .rest (hrest h)
  | held h => exact .held (hat _ (List.mem_singleton.mpr rfl) h)

/-- **Critical sections as if they ran alone.** Nobody is given up; what the step may assume of the
data is what held before it at that position. -/
theorem Step.guarded (h : Step E W L X s s') (hs : Guarded Rest At s) (hX : ∀ p, ¬ X p)
    (hrest : Rest s.data → Rest' s.data)
    (hat : s' = s → ∀ p ∈ s.inside, At s.data p → At' s.data p)
    (henter : ∀ p, s.inside = [] → E p → Rest s.data → At' s.data p)
    (hwork : ∀ p data' p', p ∈ s.inside → W s.data p data' p' → At s.data p → At' data' p')
    (hleave : ∀ p, p ∈ s.inside → L p → At s.data p → Rest' s.data) : Guarded Rest' At' s' := by
  cases h with
  | idle => exact hs.imp hrest (hat rfl)
  | enter hflag hp h =>
    cases hs with
    | rest hr =>
      obtain rfl := List.perm_singleton.mp h
      exact .held (henter _ rfl hp hr)
    | held => cases hflag
  | work h hp h' =>
    cases hs with
    | rest => exact absurd h.nil_eq (List.cons_ne_nil _ _).symm
    | held hp₀ =>
      obtain ⟨rfl, rfl⟩ := List.cons.inj (List.perm_singleton.mp h.symm)
      obtain rfl := List.perm_singleton.mp h'
      exact .held (hwork _ _ _ (List.mem_singleton.mpr rfl) hp hp₀)
  | leave h hp =>
    cases hs with
    | rest => exact absurd h.nil_eq (List.cons_ne_nil _ _).symm
    | held hp₀ =>
      obtain ⟨rfl, rfl⟩ := List.cons.inj (List.perm_singleton.mp h.symm)
      exact .rest (hleave _ (List.mem_singleton.mpr rfl) hp hp₀)
  | giveUp h hp => exact absurd hp (hX _)

end Lock
