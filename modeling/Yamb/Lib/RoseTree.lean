import Mathlib.Data.List.Basic
import Mathlib.Data.List.Perm.Basic

/-!
# Rose trees under paths

Finite trees whose children are ordered. A node is known by its path, the list of child indices
that leads to it from the root.

* `sub`, `get?`: the subtree and the value at a path;
* `values`: the values in preorder, `mem_values`;
* `Precedes`: the order in which a depth-first search meets the paths;
* `find?`, `find?_eq_some_iff`: a depth-first search finds the first path with its property;
* `push`, `erase`: a new last child, and a subtree less, with what they do to the values
  (`values_push`, `values_erase`) and to the paths (`get?_push_leaf`, `get?_erase`);
* `unerase`: where a path of a tree with a subtree less led before.
-/

set_option autoImplicit false

inductive RoseTree (α : Type) where
  | node (value : α) (children : List (RoseTree α))

namespace RoseTree

variable {α : Type}

/-- The child indices on the way from the root. -/
abbrev Path : Type := List ℕ

def value : RoseTree α → α
  | node a _ => a

def children : RoseTree α → List (RoseTree α)
  | node _ cs => cs

@[simp] theorem value_node (a : α) (cs : List (RoseTree α)) : (node a cs).value = a := rfl

@[simp] theorem children_node (a : α) (cs : List (RoseTree α)) : (node a cs).children = cs := rfl

theorem node_value_children (t : RoseTree α) : node t.value t.children = t := by
  cases t
  rfl

/-- Induction over a tree from its children. -/
@[elab_as_elim]
theorem ind {motive : RoseTree α → Prop}
    (node : ∀ a cs, (∀ c ∈ cs, motive c) → motive (node a cs)) : ∀ t, motive t
  | .node a cs => node a cs fun c _ => ind node c

/-! ### Subtrees -/

/-- The subtree at a path. -/
def sub : RoseTree α → Path → Option (RoseTree α)
  | t, [] => some t
  | t, i :: π => t.children[i]?.bind fun c => c.sub π

/-- The value at a path. -/
def get? (t : RoseTree α) (π : Path) : Option α := (t.sub π).map value

variable {t s : RoseTree α} {π ρ : Path} {a b : α} {i : ℕ}

@[simp] theorem sub_nil (t : RoseTree α) : t.sub [] = some t := by
  cases t
  rfl

theorem sub_cons (t : RoseTree α) (i : ℕ) (π : Path) :
    t.sub (i :: π) = t.children[i]?.bind fun c => c.sub π := rfl

theorem sub_cons_eq_some : t.sub (i :: π) = some s ↔
    ∃ c, t.children[i]? = some c ∧ c.sub π = some s := by
  rw [sub_cons, Option.bind_eq_some_iff]

theorem sub_append (t : RoseTree α) (π ρ : Path) :
    t.sub (π ++ ρ) = (t.sub π).bind fun s => s.sub ρ := by
  induction π generalizing t with
  | nil => rw [List.nil_append, sub_nil, Option.bind_some]
  | cons i π ih =>
    rw [List.cons_append, sub_cons, sub_cons]
    cases t.children[i]? with
    | none => rfl
    | some c => exact ih c

theorem sub_append_of_sub (h : t.sub π = some s) (ρ : Path) : t.sub (π ++ ρ) = s.sub ρ := by
  rw [sub_append, h, Option.bind_some]

theorem sub_singleton (t : RoseTree α) (i : ℕ) : t.sub [i] = t.children[i]? := by
  rw [sub_cons]
  cases t.children[i]? with
  | none => rfl
  | some c => exact sub_nil c

@[simp] theorem get?_nil (t : RoseTree α) : t.get? [] = some t.value := by
  rw [get?, sub_nil, Option.map_some]

theorem get?_eq_some : t.get? π = some a ↔ ∃ s, t.sub π = some s ∧ s.value = a :=
  Option.map_eq_some_iff

theorem get?_of_sub (h : t.sub π = some s) : t.get? π = some s.value := by
  rw [get?, h, Option.map_some]

theorem get?_cons_eq_some : t.get? (i :: π) = some a ↔
    ∃ c, t.children[i]? = some c ∧ c.get? π = some a := by
  simp only [get?_eq_some, sub_cons_eq_some]
  constructor
  · rintro ⟨s, ⟨c, hc, hs⟩, rfl⟩
    exact ⟨c, hc, s, hs, rfl⟩
  · rintro ⟨c, hc, s, hs, rfl⟩
    exact ⟨s, ⟨c, hc, hs⟩, rfl⟩

theorem get?_append_of_sub (h : t.sub π = some s) (ρ : Path) : t.get? (π ++ ρ) = s.get? ρ := by
  rw [get?, sub_append_of_sub h, get?]

theorem get?_append_eq_none (hs : t.sub π = some s) (hi : s.children.length ≤ i) :
    t.get? (π ++ [i]) = none := by
  rw [get?_append_of_sub hs, get?, sub_singleton, List.getElem?_eq_none hi]
  rfl

/-- The nodes on the way to a node. -/
theorem exists_sub_of_get?_append (h : t.get? (π ++ ρ) = some a) :
    ∃ s, t.sub π = some s ∧ s.get? ρ = some a := by
  obtain ⟨u, hu, rfl⟩ := get?_eq_some.mp h
  rw [sub_append, Option.bind_eq_some_iff] at hu
  obtain ⟨s, hs, hu⟩ := hu
  exact ⟨s, hs, get?_of_sub hu⟩

/-! ### The values -/

mutual

/-- The values in preorder. -/
def values : RoseTree α → List α
  | node a cs => a :: forestValues cs

def forestValues : List (RoseTree α) → List α
  | [] => []
  | c :: cs => values c ++ forestValues cs

end

theorem forestValues_eq (cs : List (RoseTree α)) : forestValues cs = cs.flatMap values := by
  induction cs with
  | nil => rfl
  | cons c cs ih => rw [forestValues, ih, List.flatMap_cons]

theorem values_node (a : α) (cs : List (RoseTree α)) :
    (node a cs).values = a :: cs.flatMap values := by
  rw [values, forestValues_eq]

theorem mem_values : a ∈ t.values ↔ ∃ π, t.get? π = some a := by
  induction t using ind generalizing a with
  | node b cs ih =>
    rw [values_node, List.mem_cons, List.mem_flatMap]
    constructor
    · rintro (rfl | ⟨c, hc, ha⟩)
      · exact ⟨[], get?_nil _⟩
      · obtain ⟨i, hi⟩ := List.mem_iff_getElem?.mp hc
        obtain ⟨π, hπ⟩ := (ih c hc).mp ha
        exact ⟨i :: π, get?_cons_eq_some.mpr ⟨c, hi, hπ⟩⟩
    · rintro ⟨_ | ⟨i, π⟩, h⟩
      · rw [get?_nil] at h
        exact .inl (Option.some.inj h).symm
      · obtain ⟨c, hc, h⟩ := get?_cons_eq_some.mp h
        have hc := List.mem_of_getElem? hc
        exact .inr ⟨c, hc, (ih c hc).mpr ⟨π, h⟩⟩

/-! ### Depth-first search -/

/-- The first path comes before the second in a depth-first search. -/
def Precedes : Path → Path → Prop
  | _, [] => False
  | [], _ :: _ => True
  | i :: π, j :: ρ => i < j ∨ i = j ∧ Precedes π ρ

@[simp] theorem not_precedes_nil (π : Path) : ¬ Precedes π [] := by
  cases π <;> exact id

@[simp] theorem nil_precedes_cons (i : ℕ) (π : Path) : Precedes [] (i :: π) := trivial

theorem cons_precedes_cons {i j : ℕ} :
    Precedes (i :: π) (j :: ρ) ↔ i < j ∨ i = j ∧ Precedes π ρ := Iff.rfl

theorem precedes_irrefl (π : Path) : ¬ Precedes π π := by
  induction π with
  | nil => exact id
  | cons i π ih =>
    rintro (h | ⟨-, h⟩)
    · exact Nat.lt_irrefl i h
    · exact ih h

theorem Precedes.asymm (h : Precedes π ρ) : ¬ Precedes ρ π := by
  induction π generalizing ρ with
  | nil => exact not_precedes_nil ρ
  | cons i π ih =>
    cases ρ with
    | nil => exact h.elim
    | cons j ρ =>
      rintro (h' | ⟨rfl, h'⟩)
      · rcases h with h | ⟨rfl, -⟩ <;> omega
      · rcases h with h | ⟨-, h⟩
        · exact Nat.lt_irrefl _ h
        · exact ih h h'

theorem precedes_append_left {σ : Path} (π : Path) :
    Precedes (π ++ ρ) (π ++ σ) ↔ Precedes ρ σ := by
  induction π with
  | nil => exact Iff.rfl
  | cons i π ih =>
    simp only [List.cons_append, cons_precedes_cons, Nat.lt_irrefl, true_and, false_or, ih]

theorem precedes_trichotomy (π ρ : Path) : Precedes π ρ ∨ π = ρ ∨ Precedes ρ π := by
  induction π generalizing ρ with
  | nil =>
    cases ρ with
    | nil => exact .inr (.inl rfl)
    | cons => exact .inl trivial
  | cons i π ih =>
    cases ρ with
    | nil => exact .inr (.inr trivial)
    | cons j ρ =>
      rcases Nat.lt_trichotomy i j with h | rfl | h
      · exact .inl (.inl h)
      · rcases ih ρ with h | rfl | h
        · exact .inl (.inr ⟨rfl, h⟩)
        · exact .inr (.inl rfl)
        · exact .inr (.inr (.inr ⟨rfl, h⟩))
      · exact .inr (.inr (.inl h))

mutual

/-- The path of the first node, in preorder, whose value satisfies `p`. -/
def find? (p : α → Bool) : RoseTree α → Option Path
  | node a cs => if p a then some [] else findForest? p cs

def findForest? (p : α → Bool) : List (RoseTree α) → Option Path
  | [] => none
  | c :: cs =>
    match find? p c with
    | some π => some (0 :: π)
    | none => (findForest? p cs).map (List.modifyHead (· + 1))

end

variable {p : α → Bool} {cs : List (RoseTree α)}

/-- `π` is the first path in the tree with a value that satisfies `p`. -/
structure First (p : α → Bool) (t : RoseTree α) (π : Path) : Prop where
  found : ∃ a, t.get? π = some a ∧ p a = true
  first : ∀ ρ b, t.get? ρ = some b → p b = true → ¬ Precedes ρ π

theorem First.unique (h : First p t π) (h' : First p t ρ) : π = ρ := by
  obtain ⟨a, ha, hpa⟩ := h.found
  obtain ⟨b, hb, hpb⟩ := h'.found
  rcases precedes_trichotomy π ρ with hlt | heq | hlt
  · exact absurd hlt (h'.first π a ha hpa)
  · exact heq
  · exact absurd hlt (h.first ρ b hb hpb)

theorem findForest?_spec (ih : ∀ c ∈ cs, (∀ π, find? p c = some π → First p c π) ∧
      (find? p c = none → ∀ ρ b, c.get? ρ = some b → ¬ p b = true)) :
    (∀ π, findForest? p cs = some π → ∃ i ρ c, π = i :: ρ ∧ cs[i]? = some c ∧ First p c ρ ∧
      ∀ j < i, ∀ d, cs[j]? = some d → ∀ ρ b, d.get? ρ = some b → ¬ p b = true) ∧
    (findForest? p cs = none → ∀ c ∈ cs, ∀ ρ b, c.get? ρ = some b → ¬ p b = true) := by
  induction cs with
  | nil => exact ⟨by simp [findForest?], by simp⟩
  | cons c cs ihcs =>
    obtain ⟨hsome, hnone⟩ := ih c List.mem_cons_self
    obtain ⟨hsome', hnone'⟩ := ihcs fun d hd => ih d (List.mem_cons_of_mem c hd)
    simp only [findForest?]
    cases hc : find? p c with
    | some π =>
      refine ⟨fun π' hπ' => ?_, by simp⟩
      obtain rfl := Option.some.inj hπ'
      exact ⟨0, π, c, rfl, rfl, hsome π hc, by simp⟩
    | none =>
      have hc := hnone hc
      constructor
      · intro π hπ
        obtain ⟨π', hπ', rfl⟩ := Option.map_eq_some_iff.mp hπ
        obtain ⟨i, ρ, d, rfl, hd, hf, hlt⟩ := hsome' π' hπ'
        refine ⟨i + 1, ρ, d, rfl, hd, hf, fun j hj e he => ?_⟩
        cases j with
        | zero =>
          obtain rfl := Option.some.inj he
          exact hc
        | succ j => exact hlt j (Nat.lt_of_succ_lt_succ hj) e he
      · intro hn
        have hn : findForest? p cs = none := Option.map_eq_none_iff.mp hn
        exact List.forall_mem_cons.mpr ⟨hc, hnone' hn⟩

theorem find?_spec (t : RoseTree α) : (∀ π, find? p t = some π → First p t π) ∧
    (find? p t = none → ∀ ρ b, t.get? ρ = some b → ¬ p b = true) := by
  induction t using ind with
  | node a cs ih =>
    obtain ⟨hsome, hnone⟩ := findForest?_spec ih
    simp only [find?]
    by_cases ha : p a = true
    · rw [if_pos ha]
      refine ⟨fun π hπ => ?_, by simp⟩
      obtain rfl := Option.some.inj hπ
      exact ⟨⟨a, get?_nil _, ha⟩, fun ρ _ _ _ => not_precedes_nil ρ⟩
    · rw [if_neg ha]
      constructor
      · intro π hπ
        obtain ⟨i, ρ, c, rfl, hc, hf, hlt⟩ := hsome π hπ
        obtain ⟨b, hb, hpb⟩ := hf.found
        refine ⟨⟨b, get?_cons_eq_some.mpr ⟨c, hc, hb⟩, hpb⟩, ?_⟩
        rintro (_ | ⟨j, ρ'⟩) b' hb' hpb'
        · rw [get?_nil] at hb'
          obtain rfl := Option.some.inj hb'
          exact absurd hpb' ha
        · obtain ⟨d, hd, hb'⟩ := get?_cons_eq_some.mp hb'
          rintro (hj | ⟨rfl, hρ⟩)
          · exact hlt j hj d hd ρ' b' hb' hpb'
          · obtain rfl := Option.some.inj (hc.symm.trans hd)
            exact hf.first ρ' b' hb' hpb' hρ
      · intro hn ρ b hb
        cases ρ with
        | nil =>
          rw [get?_nil] at hb
          obtain rfl := Option.some.inj hb
          exact ha
        | cons i ρ =>
          obtain ⟨c, hc, hb⟩ := get?_cons_eq_some.mp hb
          exact hnone hn c (List.mem_of_getElem? hc) ρ b hb

/-- **A depth-first search finds the first node** with its property. -/
theorem find?_eq_some_iff : t.find? p = some π ↔ First p t π := by
  constructor
  · exact (find?_spec t).1 π
  · intro h
    cases hf : t.find? p with
    | none =>
      obtain ⟨a, ha, hpa⟩ := h.found
      exact absurd hpa ((find?_spec t).2 hf π a ha)
    | some ρ => rw [((find?_spec t).1 ρ hf).unique h]

theorem find?_eq_none_iff : t.find? p = none ↔ ∀ ρ b, t.get? ρ = some b → ¬ p b = true := by
  refine ⟨(find?_spec t).2, fun h => ?_⟩
  cases hf : t.find? p with
  | none => rfl
  | some π =>
    obtain ⟨a, ha, hpa⟩ := ((find?_spec t).1 π hf).found
    exact absurd hpa (h π a ha)

theorem exists_find? (ha : t.get? π = some a) (hp : p a = true) : ∃ ρ, t.find? p = some ρ := by
  cases hf : t.find? p with
  | some ρ => exact ⟨ρ, rfl⟩
  | none => exact absurd hp (find?_eq_none_iff.mp hf π a ha)

/-! ### Changing the children of a node -/

/-- `f` applied to the children of the node at a path. -/
def onChildren (f : List (RoseTree α) → List (RoseTree α)) : RoseTree α → Path → RoseTree α
  | t, [] => node t.value (f t.children)
  | t, i :: π => node t.value (t.children.modify i fun c => c.onChildren f π)

variable {f : List (RoseTree α) → List (RoseTree α)}

theorem onChildren_nil (f : List (RoseTree α) → List (RoseTree α)) (t : RoseTree α) :
    t.onChildren f [] = node t.value (f t.children) := by
  cases t
  rfl

theorem onChildren_cons (f : List (RoseTree α) → List (RoseTree α)) (t : RoseTree α) (i : ℕ)
    (π : Path) : t.onChildren f (i :: π) =
      node t.value (t.children.modify i fun c => c.onChildren f π) := rfl

@[simp] theorem value_onChildren (f : List (RoseTree α) → List (RoseTree α)) (t : RoseTree α)
    (π : Path) : (t.onChildren f π).value = t.value := by
  cases π with
  | nil => rw [onChildren_nil, value_node]
  | cons => rfl

theorem perm_append_right_comm (l₁ l₂ l₃ : List α) : (l₁ ++ l₂ ++ l₃).Perm (l₁ ++ l₃ ++ l₂) := by
  rw [List.append_assoc, List.append_assoc]
  exact List.perm_append_comm.append_left l₁

theorem values_modify {l m : List α} {g : RoseTree α → RoseTree α} {c : RoseTree α}
    (hc : cs[i]? = some c) (hg : ((g c).values ++ l).Perm (c.values ++ m)) :
    ((cs.modify i g).flatMap values ++ l).Perm (cs.flatMap values ++ m) := by
  induction cs generalizing i with
  | nil => cases hc
  | cons d cs ih =>
    cases i with
    | zero =>
      obtain rfl := Option.some.inj hc
      rw [List.modify_zero_cons, List.flatMap_cons, List.flatMap_cons]
      exact (perm_append_right_comm _ _ l).trans
        ((hg.append_right _).trans (perm_append_right_comm _ m _))
    | succ i =>
      rw [List.modify_succ_cons, List.flatMap_cons, List.flatMap_cons, List.append_assoc,
        List.append_assoc]
      exact (ih hc).append_left _

/-- What the change does to the values, from what it does to those of the children. -/
theorem values_onChildren {l m : List α} (h : t.sub π = some s)
    (hf : ((f s.children).flatMap values ++ l).Perm (s.children.flatMap values ++ m)) :
    ((t.onChildren f π).values ++ l).Perm (t.values ++ m) := by
  induction π generalizing t with
  | nil =>
    rw [sub_nil] at h
    obtain rfl := Option.some.inj h
    cases t with
    | node a cs =>
      rw [onChildren_nil, values_node, values_node]
      exact hf.cons a
  | cons i π ih =>
    cases t with
    | node a cs =>
      obtain ⟨c, hc, h⟩ := sub_cons_eq_some.mp h
      rw [onChildren_cons, values_node, values_node]
      exact (values_modify hc (ih h)).cons a

theorem sub_onChildren_of_sub (h : t.sub π = some s) (ρ : Path) :
    (t.onChildren f π).sub (π ++ ρ) = (node s.value (f s.children)).sub ρ := by
  induction π generalizing t with
  | nil =>
    rw [sub_nil] at h
    obtain rfl := Option.some.inj h
    rw [onChildren_nil, List.nil_append]
  | cons i π ih =>
    obtain ⟨c, hc, h⟩ := sub_cons_eq_some.mp h
    rw [List.cons_append, onChildren_cons, sub_cons, children_node, List.getElem?_modify_eq, hc,
      Option.map_eq_map, Option.map_some, Option.bind_some]
    exact ih h

/-- Only what is below the node changes. -/
theorem get?_onChildren_of_not_below (hρ : ∀ j σ, ρ ≠ π ++ j :: σ) :
    (t.onChildren f π).get? ρ = t.get? ρ := by
  induction π generalizing t ρ with
  | nil =>
    cases ρ with
    | nil => rw [get?_nil, get?_nil, value_onChildren]
    | cons j σ => exact absurd rfl (hρ j σ)
  | cons i π ih =>
    cases ρ with
    | nil => rw [get?_nil, get?_nil, value_onChildren]
    | cons k ρ =>
      rw [onChildren_cons, get?, get?, sub_cons, sub_cons, children_node, List.getElem?_modify]
      split_ifs with hik
      · subst hik
        cases hc : t.children[i]? with
        | none => rfl
        | some c =>
          refine ih fun j σ h => hρ j σ ?_
          rw [h, List.cons_append]
      · cases t.children[k]? <;> rfl

/-! ### A new last child -/

/-- `c` becomes the last child of the node at a path. -/
def push (t c : RoseTree α) (π : Path) : RoseTree α := t.onChildren (fun cs => cs ++ [c]) π

theorem push_nil (t c : RoseTree α) : t.push c [] = node t.value (t.children ++ [c]) :=
  onChildren_nil _ t

theorem push_cons (t c : RoseTree α) (i : ℕ) (π : Path) :
    t.push c (i :: π) = node t.value (t.children.modify i fun d => d.push c π) := rfl

theorem values_push (h : t.sub π = some s) (c : RoseTree α) :
    (t.push c π).values.Perm (c.values ++ t.values) := by
  have hp := values_onChildren (f := fun cs => cs ++ [c]) (l := []) (m := c.values) h (by
    rw [List.append_nil, List.flatMap_append, List.flatMap_cons, List.flatMap_nil, List.append_nil])
  rw [List.append_nil] at hp
  exact hp.trans List.perm_append_comm

/-- A new leaf is the one new path. -/
theorem get?_push_leaf (h : t.sub π = some s) (a : α) (ρ : Path) :
    (t.push (node a []) π).get? ρ =
      if ρ = π ++ [s.children.length] then some a else t.get? ρ := by
  by_cases hρ : ∃ j σ, ρ = π ++ j :: σ
  · obtain ⟨j, σ, rfl⟩ := hρ
    rw [get?, push, sub_onChildren_of_sub h, get?, sub_append_of_sub h, sub_cons, sub_cons,
      children_node, List.getElem?_append]
    simp only [List.append_cancel_left_eq, List.cons.injEq]
    split_ifs with hj heq heq
    · omega
    · rfl
    · obtain ⟨rfl, rfl⟩ := heq
      rw [Nat.sub_self]
      rfl
    · rw [List.getElem?_eq_none (Nat.le_of_not_lt hj)]
      cases hn : j - s.children.length with
      | zero =>
        have hj : j = s.children.length := by omega
        cases σ with
        | nil => exact absurd ⟨hj, rfl⟩ heq
        | cons => rfl
      | succ => rfl
  · push Not at hρ
    rw [push, get?_onChildren_of_not_below hρ, if_neg (hρ _ [])]

/-! ### A subtree less -/

/-- The tree without the subtree at a path below the root. -/
def erase (t : RoseTree α) (π : Path) : RoseTree α :=
  match π.getLast? with
  | none => t
  | some i => t.onChildren (fun cs => cs.eraseIdx i) π.dropLast

theorem erase_append_singleton (t : RoseTree α) (π : Path) (i : ℕ) :
    t.erase (π ++ [i]) = t.onChildren (fun cs => cs.eraseIdx i) π := by
  rw [erase, List.getLast?_concat, List.dropLast_concat]

theorem values_erase (h : t.sub π = some s) (hπ : π ≠ []) :
    (s.values ++ (t.erase π).values).Perm t.values := by
  obtain ⟨π, i, rfl⟩ := π.eq_nil_or_concat'.resolve_left hπ
  obtain ⟨u, hu, -⟩ := exists_sub_of_get?_append (get?_of_sub h)
  rw [sub_append_of_sub hu, sub_singleton] at h
  rw [erase_append_singleton]
  have hp := values_onChildren (f := fun cs => cs.eraseIdx i) (l := s.values) (m := []) hu (by
    rw [List.append_nil]
    obtain ⟨hi, rfl⟩ := List.getElem?_eq_some_iff.mp h
    refine List.perm_append_comm.trans ?_
    rw [← List.flatMap_cons]
    exact (List.getElem_cons_eraseIdx_perm hi).flatMap_right values)
  rw [List.append_nil] at hp
  exact List.perm_append_comm.trans hp

theorem erase_singleton (t : RoseTree α) (i : ℕ) :
    t.erase [i] = node t.value (t.children.eraseIdx i) := by
  cases t
  rfl

theorem erase_cons_cons (t : RoseTree α) (i j : ℕ) (π : Path) :
    t.erase (i :: j :: π) = node t.value (t.children.modify i fun c => c.erase (j :: π)) := by
  unfold erase
  rw [List.getLast?_cons_cons, List.dropLast_cons_cons]
  cases h : (j :: π).getLast? with
  | none => simp at h
  | some k => rfl

theorem getElem?_modify_eq_some {l : List α} {g : α → α} {j : ℕ}
    (h : (l.modify i g)[j]? = some b) :
    ∃ a, l[j]? = some a ∧ (i = j ∧ b = g a ∨ i ≠ j ∧ b = a) := by
  rw [List.getElem?_modify] at h
  obtain ⟨a, ha, rfl⟩ := Option.map_eq_some_iff.mp h
  refine ⟨a, ha, ?_⟩
  split_ifs with hij
  · exact .inl ⟨hij, rfl⟩
  · exact .inr ⟨hij, rfl⟩

/-- Where a path of the tree without the subtree at `π` led before. -/
def unerase : Path → Path → Path
  | [], ρ => ρ
  | _ :: _, [] => []
  | [i], j :: ρ => (if j < i then j else j + 1) :: ρ
  | i :: k :: π, j :: ρ => if i = j then j :: unerase (k :: π) ρ else j :: ρ

theorem unerase_cons_nil (i : ℕ) (π : Path) : unerase (i :: π) [] = [] := by
  cases π <;> rfl

@[simp] theorem unerase_nil (π : Path) : unerase π [] = [] := by
  cases π with
  | nil => rfl
  | cons i π => exact unerase_cons_nil i π

theorem unerase_singleton (i j : ℕ) (ρ : Path) :
    unerase [i] (j :: ρ) = (if j < i then j else j + 1) :: ρ := rfl

theorem unerase_cons_cons (i k j : ℕ) (π ρ : Path) : unerase (i :: k :: π) (j :: ρ) =
    if i = j then j :: unerase (k :: π) ρ else j :: ρ := rfl

@[simp] theorem length_unerase (π ρ : Path) : (unerase π ρ).length = ρ.length := by
  induction π generalizing ρ with
  | nil => rfl
  | cons i π ih =>
    cases ρ with
    | nil => rw [unerase_cons_nil]
    | cons j ρ =>
      cases π with
      | nil => rfl
      | cons k π =>
        rw [unerase_cons_cons]
        split_ifs
        · rw [List.length_cons, List.length_cons, ih]
        · rfl

theorem get?_erase (t : RoseTree α) (π ρ : Path) (hπ : π ≠ []) :
    (t.erase π).get? ρ = t.get? (unerase π ρ) := by
  induction π generalizing t ρ with
  | nil => exact absurd rfl hπ
  | cons i π ih =>
    cases ρ with
    | nil =>
      rw [unerase_cons_nil, get?_nil, get?_nil]
      cases π with
      | nil => rw [erase_singleton, value_node]
      | cons k π => rw [erase_cons_cons, value_node]
    | cons j ρ =>
      cases π with
      | nil =>
        rw [erase_singleton, unerase_singleton, get?, get?, sub_cons, sub_cons, children_node,
          List.getElem?_eraseIdx]
        split_ifs <;> rfl
      | cons k π =>
        rw [erase_cons_cons, unerase_cons_cons, get?, sub_cons, children_node,
          List.getElem?_modify]
        by_cases hij : i = j
        · rw [if_pos hij, get?, sub_cons]
          cases t.children[j]? with
          | none => rfl
          | some c =>
            show ((if i = j then c.erase (k :: π) else c).sub ρ).map value = _
            rw [if_pos hij]
            exact ih c ρ (List.cons_ne_nil k π)
        · rw [if_neg hij, get?, sub_cons]
          cases t.children[j]? with
          | none => rfl
          | some c =>
            show ((if i = j then c.erase (k :: π) else c).sub ρ).map value = _
            rw [if_neg hij]
            rfl

theorem precedes_unerase {σ : Path} (h : Precedes ρ σ) : Precedes (unerase π ρ) (unerase π σ) := by
  induction π generalizing ρ σ with
  | nil => exact h
  | cons i π ih =>
    cases σ with
    | nil => exact absurd h (not_precedes_nil ρ)
    | cons k σ =>
      cases ρ with
      | nil =>
        obtain ⟨j, τ, hτ⟩ := List.exists_cons_of_length_eq_add_one (length_unerase (i :: π) (k :: σ))
        rw [unerase_cons_nil, hτ]
        exact nil_precedes_cons j τ
      | cons j ρ =>
        cases π with
        | nil =>
          rw [unerase_singleton, unerase_singleton]
          rcases h with h | ⟨rfl, h⟩
          · exact .inl (by split_ifs <;> omega)
          · exact .inr ⟨rfl, h⟩
        | cons l π =>
          rw [unerase_cons_cons, unerase_cons_cons]
          rcases h with h | ⟨rfl, h⟩
          · split_ifs <;> exact .inl h
          · split_ifs
            · exact .inr ⟨rfl, ih h⟩
            · exact .inr ⟨rfl, h⟩

theorem unerase_prefix (π ρ σ : Path) : unerase π ρ <+: unerase π (ρ ++ σ) := by
  induction π generalizing ρ with
  | nil => exact List.prefix_append ρ σ
  | cons i π ih =>
    cases ρ with
    | nil =>
      rw [unerase_cons_nil]
      exact List.nil_prefix
    | cons j ρ =>
      rw [List.cons_append]
      cases π with
      | nil =>
        rw [unerase_singleton, unerase_singleton]
        exact (List.prefix_cons_inj _).mpr (List.prefix_append ρ σ)
      | cons l π =>
        rw [unerase_cons_cons, unerase_cons_cons]
        split_ifs
        · exact (List.prefix_cons_inj _).mpr (ih ρ)
        · exact (List.prefix_cons_inj _).mpr (List.prefix_append ρ σ)

/-- The paths that are left are those that do not lead into the subtree. -/
theorem exists_unerase (hπ : π ≠ []) (hρ : ∀ σ, ρ ≠ π ++ σ) : ∃ ρ', unerase π ρ' = ρ := by
  induction π generalizing ρ with
  | nil => exact absurd rfl hπ
  | cons i π ih =>
    cases ρ with
    | nil => exact ⟨[], unerase_cons_nil i π⟩
    | cons j ρ =>
      cases π with
      | nil =>
        have hij : j ≠ i := by
          rintro rfl
          exact hρ ρ rfl
        refine ⟨(if j < i then j else j - 1) :: ρ, ?_⟩
        rw [unerase_singleton]
        congr 1
        split_ifs <;> omega
      | cons k π =>
        by_cases hij : i = j
        · subst hij
          obtain ⟨ρ', hρ'⟩ := ih (List.cons_ne_nil k π) (ρ := ρ) fun σ heq =>
            hρ σ (congrArg (i :: ·) heq)
          refine ⟨i :: ρ', ?_⟩
          rw [unerase_cons_cons, if_pos rfl, hρ']
        · refine ⟨j :: ρ, ?_⟩
          rw [unerase_cons_cons, if_neg hij]

theorem unerase_ne (hπ : π ≠ []) (ρ σ : Path) : unerase π ρ ≠ π ++ σ := by
  induction π generalizing ρ with
  | nil => exact absurd rfl hπ
  | cons i π ih =>
    cases ρ with
    | nil =>
      rw [unerase_cons_nil]
      exact (List.cons_ne_nil _ _).symm
    | cons j ρ =>
      cases π with
      | nil =>
        rw [unerase_singleton]
        intro h
        have h := (List.cons.inj h).1
        split_ifs at h <;> omega
      | cons k π =>
        rw [unerase_cons_cons]
        split_ifs with hij
        · exact fun h => ih (List.cons_ne_nil k π) ρ (List.cons.inj h).2
        · exact fun h => hij (List.cons.inj h).1.symm

theorem unerase_parent (π : Path) (k : ℕ) : unerase (π ++ [k]) π = π := by
  induction π with
  | nil => rfl
  | cons l π ih =>
    obtain ⟨m, σ, hσ⟩ := List.exists_cons_of_ne_nil (List.append_ne_nil_of_right_ne_nil π
      (List.cons_ne_nil k []))
    rw [hσ] at ih
    rw [List.cons_append, hσ, unerase_cons_cons, if_pos rfl, ih]

/-- One step on: past the subtree where its siblings are, else the same step. -/
theorem unerase_concat (π ρ : Path) (k i : ℕ) : unerase (π ++ [k]) (ρ ++ [i]) =
    if ρ = π then π ++ [if i < k then i else i + 1] else unerase (π ++ [k]) ρ ++ [i] := by
  induction π generalizing ρ with
  | nil =>
    cases ρ with
    | nil => rfl
    | cons j ρ =>
      rw [if_neg (List.cons_ne_nil j ρ)]
      rfl
  | cons l π ih =>
    cases ρ with
    | nil =>
      rw [if_neg (List.cons_ne_nil l π).symm, List.cons_append, unerase_cons_nil]
      obtain ⟨m, σ, hσ⟩ := List.exists_cons_of_ne_nil (List.append_ne_nil_of_right_ne_nil π
        (List.cons_ne_nil k []))
      rw [hσ, List.nil_append, unerase_cons_cons, unerase_nil]
      split_ifs <;> rfl
    | cons j ρ =>
      obtain ⟨m, σ, hσ⟩ := List.exists_cons_of_ne_nil (List.append_ne_nil_of_right_ne_nil π
        (List.cons_ne_nil k []))
      have ih := ih ρ
      rw [hσ] at ih
      rw [List.cons_append, List.cons_append, hσ, unerase_cons_cons, unerase_cons_cons, ih]
      by_cases hlj : l = j
      · subst hlj
        simp only [if_pos, List.cons.injEq, true_and]
        split_ifs <;> rfl
      · simp only [if_neg hlj, List.cons.injEq, Ne.symm hlj, false_and, if_false]
        rfl

/-- A node that is left has kept its depth. -/
theorem exists_get?_of_erase (h : (t.erase π).get? ρ = some b) :
    ∃ ρ', t.get? ρ' = some b ∧ ρ'.length = ρ.length := by
  cases π with
  | nil => exact ⟨ρ, h, rfl⟩
  | cons i π =>
    rw [get?_erase t _ ρ (List.cons_ne_nil i π)] at h
    exact ⟨_, h, length_unerase _ ρ⟩

/-- What is left is what was not below the path. -/
theorem mem_values_erase (hπ : π ≠ []) :
    b ∈ (t.erase π).values ↔ ∃ ρ, t.get? ρ = some b ∧ ∀ σ, ρ ≠ π ++ σ := by
  rw [mem_values]
  constructor
  · rintro ⟨ρ, hρ⟩
    rw [get?_erase t π ρ hπ] at hρ
    exact ⟨_, hρ, unerase_ne hπ ρ⟩
  · rintro ⟨ρ, hρ, hnot⟩
    obtain ⟨ρ', rfl⟩ := exists_unerase hπ hnot
    exact ⟨ρ', by rw [get?_erase t π ρ' hπ, hρ]⟩

end RoseTree
