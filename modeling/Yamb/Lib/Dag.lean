import Mathlib.Data.Set.Card
import Mathlib.Logic.Relation

/-!
# Directed graphs without cycles

* `below`, `finite_below`, `below_lt`: the number of vertices that can be reached from a vertex drops
  along every edge;
* `Avoids`: a vertex is reached from `root` on a way that does not visit `n`;
* **`notMem_iff_avoids`**: a set that holds `n`, with a vertex other than `n` all its predecessors,
  and with all predecessors of a vertex other than `root` that vertex, is what `n` cuts off.
-/

set_option autoImplicit false

namespace Dag

open Relation

variable {α : Type} {R : α → α → Prop} {a b n root : α} {S D : Set α}

/-- How many vertices are reached from `a`, itself included. -/
noncomputable def below (R : α → α → Prop) (a : α) : ℕ := {b | ReflTransGen R a b}.ncard

theorem finite_below (hS : S.Finite) (hR : ∀ a b, R a b → b ∈ S) (a : α) :
    {b | ReflTransGen R a b}.Finite := by
  refine (hS.insert a).subset fun b hb => ?_
  rcases ReflTransGen.cases_tail hb with rfl | ⟨c, -, hcb⟩
  · exact Set.mem_insert b S
  · exact Set.mem_insert_of_mem a (hR c b hcb)

theorem below_lt (hS : S.Finite) (hR : ∀ a b, R a b → b ∈ S) (hac : ∀ a, ¬ TransGen R a a)
    (hab : R a b) : below R b < below R a := by
  refine Set.ncard_lt_ncard ⟨fun c hc => ?_, fun hsub => ?_⟩ (finite_below hS hR a)
  · exact ReflTransGen.head hab hc
  · have hba : ReflTransGen R b a := hsub ReflTransGen.refl
    exact hac a (TransGen.head' hab hba)

/-- `a` is reached from `root` without visiting `n`. -/
def Avoids (R : α → α → Prop) (n root a : α) : Prop :=
  root ≠ n ∧ ReflTransGen (fun a b => R a b ∧ b ≠ n) root a

theorem Avoids.ne (h : Avoids R n root a) : a ≠ n := by
  rcases ReflTransGen.cases_tail h.2 with rfl | ⟨b, -, hba⟩
  · exact h.1
  · exact hba.2

theorem Avoids.tail (h : Avoids R n root a) (hab : R a b) (hb : b ≠ n) : Avoids R n root b :=
  ⟨h.1, h.2.tail ⟨hab, hb⟩⟩

/-- What is reached without visiting `n` is outside every set with the predecessors of its members
other than `n`. -/
theorem Avoids.notMem (h : Avoids R n root a) (hroot : root ∉ D)
    (hin : ∀ m ∈ D, m ≠ n → ∀ r, R r m → r ∈ D) : a ∉ D := by
  obtain ⟨-, hway⟩ := h
  induction hway with
  | refl => exact hroot
  | tail _ hab ih => exact fun hb => ih (hin _ hb hab.2 _ hab.1)

/-- **The set that a vertex cuts off from the root.** -/
theorem notMem_iff_avoids (hS : S.Finite) (hR : ∀ a b, R a b → a ∈ S) (hac : ∀ a, ¬ TransGen R a a)
    (hn : n ∈ D) (hroot : root ∉ D) (hin : ∀ m ∈ D, m ≠ n → ∀ r, R r m → r ∈ D)
    (hout : ∀ a ∈ S, a ∉ D → a ≠ root → ∃ r, R r a ∧ r ∉ D) (ha : a ∈ S) :
    a ∉ D ↔ Avoids R n root a := by
  refine ⟨fun hnot => ?_, fun h => h.notMem hroot hin⟩
  -- upwards: the predecessors of a vertex are above fewer vertices than it is
  have hac' : ∀ a, ¬ TransGen (flip R) a a := fun a h => hac a (transGen_swap.mp h)
  have hflip : ∀ a b, flip R a b → b ∈ S := fun a b hab => hR b a hab
  induction hk : below (flip R) a using Nat.strong_induction_on generalizing a with
  | _ k ih =>
    by_cases hne : a = root
    · subst hne
      exact ⟨fun heq => hnot (heq ▸ hn), ReflTransGen.refl⟩
    · obtain ⟨r, hra, hr⟩ := hout a ha hnot hne
      have hlt : below (flip R) r < k := hk ▸ below_lt hS hflip hac' (a := a) (b := r) hra
      exact (ih _ hlt (hR r a hra) hr rfl).tail hra fun heq => hnot (heq ▸ hn)

end Dag
