import Mathlib.Data.List.Infix
import Mathlib.Data.Nat.Find

/-!
# Taking the first occurrence of a word out of a text

* `FirstAt`: a word occurs after a prefix of a text, and not earlier;
* `infix_cases`: where a word can be in a text with a separator;
* `removeFirst`: the text without the first occurrence;
* `Recovers`, **`removeFirst_append_iff`**: when a word that was appended is the one that comes out
  again.
-/

set_option autoImplicit false

namespace Words

variable {α : Type} {w x u p q : List α}

/-- `w` occurs in `x` between `p` and `q`, and nowhere earlier. -/
structure FirstAt (w x p q : List α) : Prop where
  eq : x = p ++ (w ++ q)
  le : ∀ p' q', x = p' ++ (w ++ q') → p.length ≤ p'.length

theorem exists_firstAt (h : w <:+: x) : ∃ p q, FirstAt w x p q := by
  classical
  have hex : ∃ n p q, x = p ++ (w ++ q) ∧ p.length = n := by
    obtain ⟨p, q, rfl⟩ := h
    exact ⟨_, p, q, List.append_assoc _ _ _, rfl⟩
  obtain ⟨p, q, hx, hp⟩ := Nat.find_spec hex
  refine ⟨p, q, hx, fun p' q' hx' => ?_⟩
  rw [hp]
  exact Nat.find_min' hex ⟨p', q', hx', rfl⟩

/-- An occurrence after `u` is not the first, or it is. -/
theorem FirstAt.prefix {q' : List α} (h : FirstAt w x p q) (hx : x = u ++ (w ++ q')) :
    ∃ b, u = p ++ b ∧ b ++ (w ++ q') = w ++ q := by
  have hp : p <+: x := ⟨w ++ q, h.eq.symm⟩
  obtain ⟨b, rfl⟩ := List.prefix_of_prefix_length_le hp ⟨w ++ q', hx.symm⟩ (h.le u q' hx)
  refine ⟨b, rfl, ?_⟩
  rw [h.eq, List.append_assoc] at hx
  exact (List.append_cancel_left hx).symm

/-- Where a word can be in a text with a separator: behind it, before it, or across it. -/
theorem infix_cases {c : α} {t : List α} (hx : u ++ c :: t = p ++ (w ++ q)) (hw : w ≠ []) :
    (∃ p', p = u ++ c :: p' ∧ t = p' ++ (w ++ q)) ∨ (∃ q', u = p ++ (w ++ q') ∧ q = q' ++ c :: t) ∨
      ∃ a b, u = p ++ a ∧ w = a ++ c :: b ∧ t = b ++ q := by
  rcases List.append_eq_append_iff.mp hx with ⟨a, rfl, ha⟩ | ⟨a, rfl, ha⟩
  · cases a with
    | nil =>
      obtain ⟨d, b, rfl⟩ := List.exists_cons_of_ne_nil hw
      obtain ⟨rfl, rfl⟩ := List.cons.inj ha
      exact .inr (.inr ⟨[], b, by simp, rfl, rfl⟩)
    | cons d p' =>
      obtain ⟨rfl, rfl⟩ := List.cons.inj ha
      exact .inl ⟨p', rfl, rfl⟩
  · rcases List.append_eq_append_iff.mp ha with ⟨b, rfl, rfl⟩ | ⟨b, rfl, hb⟩
    · exact .inr (.inl ⟨b, rfl, rfl⟩)
    · cases b with
      | nil => exact .inr (.inl ⟨[], by simp, hb.symm⟩)
      | cons d b =>
        obtain ⟨rfl, rfl⟩ := List.cons.inj hb
        exact .inr (.inr ⟨a, b, rfl, rfl, rfl⟩)

variable [DecidableEq α]

def removeFirst (w : List α) : List α → List α
  | [] => []
  | a :: x => if w <+: a :: x then (a :: x).drop w.length else a :: removeFirst w x

theorem removeFirst_eq_self (h : ¬ w <:+: x) : removeFirst w x = x := by
  induction x with
  | nil => rfl
  | cons a x ih =>
    rw [removeFirst, if_neg fun hp => h hp.isInfix]
    rw [ih fun hi => h (hi.trans (List.suffix_cons a x).isInfix)]

theorem FirstAt.removeFirst (h : FirstAt w x p q) : removeFirst w x = p ++ q := by
  induction x generalizing p with
  | nil =>
    obtain ⟨rfl, hwq⟩ := List.append_eq_nil_iff.mp h.eq.symm
    rw [(List.append_eq_nil_iff.mp hwq).2]
    rfl
  | cons a x ih =>
    cases p with
    | nil =>
      have hx : a :: x = w ++ q := h.eq
      rw [Words.removeFirst, if_pos ⟨q, hx.symm⟩, hx, List.drop_left]
      rfl
    | cons b p =>
      obtain ⟨rfl, hx⟩ := List.cons.inj h.eq
      have hn : ¬ w <+: a :: x := by
        rintro ⟨q', hq'⟩
        have := h.le [] q' hq'.symm
        simp at this
      rw [Words.removeFirst, if_neg hn]
      refine congrArg (a :: ·) (ih ⟨hx, fun p' q' hx' => ?_⟩)
      exact Nat.le_of_succ_le_succ (h.le (a :: p') q' (congrArg (a :: ·) hx'))

theorem length_removeFirst (h : w <:+: x) : (removeFirst w x).length + w.length = x.length := by
  obtain ⟨p, q, hf⟩ := exists_firstAt h
  rw [hf.removeFirst, hf.eq]
  simp only [List.length_append]
  omega

/-- Of the ends of `u` with which `w` overlaps when it is appended, the longest commutes with `w`. -/
def Recovers (u w : List α) : Prop :=
  ∃ a b, u = a ++ b ∧ b ++ w = w ++ b ∧ ∀ a' b', u = a' ++ b' → w <+: b' ++ w → a.length ≤ a'.length

/-- **What was appended comes out again.** -/
theorem removeFirst_append_iff : removeFirst w (u ++ w) = u ↔ Recovers u w := by
  have hself : u ++ w = u ++ (w ++ []) := by rw [List.append_nil]
  constructor
  · intro h
    obtain ⟨p, q, hf⟩ := exists_firstAt (List.suffix_append u w).isInfix
    obtain ⟨b, rfl, hb⟩ := hf.prefix hself
    rw [hf.removeFirst] at h
    obtain rfl := List.append_cancel_left h
    refine ⟨p, q, rfl, by rwa [List.append_nil] at hb, ?_⟩
    rintro a' b' hu ⟨t, ht⟩
    refine hf.le a' t ?_
    rw [hu, List.append_assoc, ht]
  · rintro ⟨a, b, rfl, hcomm, hmin⟩
    have hf : FirstAt w (a ++ b ++ w) a b := by
      refine ⟨by rw [List.append_assoc, hcomm], fun p' q' hx => ?_⟩
      by_contra hlt
      have hp : p' <+: a ++ b := by
        refine List.prefix_of_prefix_length_le ⟨w ++ q', hx.symm⟩ (List.prefix_append _ w) ?_
        rw [List.length_append]
        omega
      obtain ⟨b', hb'⟩ := hp
      refine hlt (hmin p' b' hb'.symm ⟨q', ?_⟩)
      rw [← hb', List.append_assoc] at hx
      exact (List.append_cancel_left hx).symm
    exact hf.removeFirst

end Words
