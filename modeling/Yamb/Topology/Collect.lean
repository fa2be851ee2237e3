import Mathlib.Data.Set.Card
import Yamb.Topology.Chains

/-!
# The ids below a unit

`collectAllNodeIds` on the units that are allocated, whatever links they have.

* `collectAllNodeIds`: `NodeGraph.cpp`;
* `unitAt`, `Marked`: the ways down from a unit, in the order of a walk that goes on through the first
  unit of each id only;
* `Visited`, `exists_collect`: the ids that are listed when the walk is somewhere;
* `Lists`, `NothingHidden`: the ids below the unit, and the units that the walk does not go through;
* **`collectAllNodeIds_lists_iff`**: the list is complete when these hide no id;
* `collectAllNodeIds_lists_of_twins`: so it is when an id stands for the same children everywhere.
-/

set_option autoImplicit false

namespace Yamb

namespace UnitHeap

/-- `collectAllNodeIds`: the list of the ids found so far serves as the list of the units visited. -/
def collectAllNodeIds : ℕ → UnitHeap → List PeerId → Ptr → Except HeapFault (List PeerId)
  | 0, _, _, _ => .error .outOfFuel
  | fuel + 1, H, result, root => do
    let u ← H.read root
    u.childs.foldlM (fun result child => do
      let c ← H.read child
      if c.id ∈ result then return result
      else collectAllNodeIds fuel H (result ++ [c.id]) child) result

/-- Finitely many units, whose children are allocated. -/
structure IsGraph (H : UnitHeap) (root : Ptr) : Prop where
  finite : {p | H.cells p ≠ none}.Finite
  root_live : H.cells root ≠ none
  child_live : ∀ p q, q ∈ H.childs p → H.cells q ≠ none

/-! ### The ways down -/

/-- The unit that a way leads to, which counts the children of the units on it. -/
def unitAt (H : UnitHeap) : Ptr → List ℕ → Option Ptr
  | p, [] => some p
  | p, i :: π => (H.childs p)[i]?.bind fun c => unitAt H c π

/-- Ways to the first unit of an id, and the others. -/
inductive Mark
  | first
  | again
  deriving DecidableEq

/-- A way over first units leads to a first one when no earlier such way has led to its id. The ways
come in the order of the lists: a unit before what is below it, and that before the next child. -/
inductive Marked (H : UnitHeap) (root : Ptr) : Mark → List ℕ → Prop
  | first {σ : List ℕ} {i : ℕ} {p : Ptr} (hσ : σ ≠ [] → Marked H root .first σ)
      (hp : H.unitAt root (σ ++ [i]) = some p)
      (h : ∀ τ q, τ < σ ++ [i] → τ ≠ [] → H.unitAt root τ = some q → H.idOf q = H.idOf p →
        Marked H root .again τ) : Marked H root .first (σ ++ [i])
  | under {σ : List ℕ} {i : ℕ} (hσ : Marked H root .again σ) : Marked H root .again (σ ++ [i])
  | again {σ τ : List ℕ} {p q : Ptr} (hσ : Marked H root .first σ) (hlt : σ < τ)
      (hp : H.unitAt root σ = some p) (hq : H.unitAt root τ = some q)
      (hid : H.idOf q = H.idOf p) : Marked H root .again τ

/-- The walk goes through the unit at the way. -/
def GoesThrough (H : UnitHeap) (root : Ptr) (σ : List ℕ) : Prop := σ = [] ∨ H.Marked root .first σ

variable {H : UnitHeap} {root p q c : Ptr} {σ τ π : List ℕ} {i n fuel : ℕ} {x : PeerId}
  {result result' : List PeerId} {S T : Set (List ℕ)} {m : Mark}

theorem unitAt_append (p : Ptr) (σ τ : List ℕ) :
    H.unitAt p (σ ++ τ) = (H.unitAt p σ).bind fun q => H.unitAt q τ := by
  induction σ generalizing p with
  | nil => rfl
  | cons i σ ih =>
    rw [List.cons_append, unitAt, unitAt]
    cases (H.childs p)[i]? with
    | none => rfl
    | some c => exact ih c

theorem unitAt_concat (hσ : H.unitAt root σ = some p) (i : ℕ) :
    H.unitAt root (σ ++ [i]) = (H.childs p)[i]? := by
  rw [unitAt_append, hσ, Option.bind_some, unitAt]
  cases (H.childs p)[i]? <;> rfl

theorem exists_unitAt_of_concat (h : H.unitAt root (σ ++ [i]) = some c) :
    ∃ p, H.unitAt root σ = some p ∧ (H.childs p)[i]? = some c := by
  rw [unitAt_append, Option.bind_eq_some_iff] at h
  obtain ⟨p, hp, hc⟩ := h
  refine ⟨p, hp, ?_⟩
  rw [← unitAt_concat hp, unitAt_append, hp]
  exact hc

/-- What can be reached has a way to it. -/
theorem exists_unitAt_iff : (∃ π, π ≠ [] ∧ H.unitAt root π = some q) ↔
    Relation.TransGen H.Child root q := by
  constructor
  · rintro ⟨π, hne, hπ⟩
    induction π using List.reverseRecOn generalizing q with
    | nil => exact absurd rfl hne
    | append_singleton σ i ih =>
      obtain ⟨p, hp, hq⟩ := exists_unitAt_of_concat hπ
      have hchild : H.Child p q := List.mem_of_getElem? hq
      by_cases hσ : σ = []
      · subst hσ
        obtain rfl := Option.some.inj hp
        exact .single hchild
      · exact (ih hσ hp).tail hchild
  · intro h
    induction h with
    | single hq =>
      obtain ⟨i, hi⟩ := List.getElem?_of_mem hq
      exact ⟨[i], List.cons_ne_nil _ _, by rw [unitAt, hi]; rfl⟩
    | tail _ hq ih =>
      obtain ⟨σ, -, hσ⟩ := ih
      obtain ⟨i, hi⟩ := List.getElem?_of_mem hq
      exact ⟨σ ++ [i], by simp, by rw [unitAt_concat hσ, hi]⟩

/-! ### The order of the ways -/

theorem lt_concat_zero : τ < σ ++ [0] ↔ τ < σ ∨ τ = σ := by
  induction σ generalizing τ with
  | nil =>
    cases τ with
    | nil => simp
    | cons j τ =>
      rw [List.nil_append, List.cons_lt_cons_iff]
      simp
  | cons k σ ih =>
    cases τ with
    | nil => simp
    | cons j τ =>
      rw [List.cons_append, List.cons_lt_cons_iff, List.cons_lt_cons_iff, ih, List.cons.injEq]
      tauto

theorem lt_concat_succ : τ < σ ++ [i + 1] ↔ τ < σ ++ [i] ∨ σ ++ [i] <+: τ := by
  induction σ generalizing τ with
  | nil =>
    cases τ with
    | nil => simp
    | cons j τ =>
      simp only [List.nil_append, List.cons_lt_cons_iff, List.cons_prefix_cons, List.not_lt_nil,
        and_false, or_false, List.nil_prefix, and_true]
      omega
  | cons k σ ih =>
    cases τ with
    | nil => simp
    | cons j τ =>
      rw [List.cons_append, List.cons_append, List.cons_lt_cons_iff, List.cons_lt_cons_iff, ih,
        List.cons_prefix_cons]
      tauto

/-- The ways below `σ` come behind it, and in front of what is behind its children. -/
theorem lt_concat_length (hσ : H.unitAt root σ = some p) (hτ : H.unitAt root τ = some q) :
    τ < σ ++ [(H.childs p).length] ↔ τ < σ ∨ σ <+: τ := by
  have hlt : ∀ n, τ < σ ++ [n] ↔ τ < σ ∨ τ = σ ∨ ∃ j < n, σ ++ [j] <+: τ := by
    intro n
    induction n with
    | zero =>
      rw [lt_concat_zero]
      simp
    | succ n ih =>
      rw [lt_concat_succ, ih]
      simp only [Nat.lt_succ_iff_lt_or_eq, or_and_right, exists_or, exists_eq_left]
      rw [or_assoc, or_assoc]
  rw [hlt]
  refine or_congr_right ⟨?_, ?_⟩
  · rintro (rfl | ⟨j, -, hj⟩)
    · exact List.prefix_rfl
    · exact (List.prefix_append σ [j]).trans hj
  · rintro ⟨ρ, rfl⟩
    cases ρ with
    | nil => exact .inl (List.append_nil σ)
    | cons j ρ =>
      refine .inr ⟨j, ?_, ρ, by simp⟩
      by_contra hge
      rw [unitAt_append, hσ, Option.bind_some, unitAt, List.getElem?_eq_none (by omega)] at hτ
      cases hτ

/-! ### The marks -/

theorem Marked.first_inv (h : H.Marked root .first π) : ∃ σ i p, π = σ ++ [i] ∧
    H.GoesThrough root σ ∧ H.unitAt root π = some p ∧
      ∀ τ q, τ < π → τ ≠ [] → H.unitAt root τ = some q → H.idOf q = H.idOf p →
        H.Marked root .again τ := by
  cases h with
  | first hσ hp h => exact ⟨_, _, _, rfl, or_iff_not_imp_left.mpr hσ, hp, h⟩

theorem Marked.again_inv (h : H.Marked root .again π) :
    (∃ σ i, π = σ ++ [i] ∧ H.Marked root .again σ) ∨ ∃ σ p q, H.Marked root .first σ ∧ σ < π ∧
      H.unitAt root σ = some p ∧ H.unitAt root π = some q ∧ H.idOf q = H.idOf p := by
  cases h with
  | under hσ => exact .inl ⟨_, _, rfl, hσ⟩
  | again hσ hlt hp hq hid => exact .inr ⟨_, _, _, hσ, hlt, hp, hq, hid⟩

theorem Marked.ne_nil (h : H.Marked root m π) : π ≠ [] := by
  cases h with
  | first => simp
  | under => simp
  | again _ hlt =>
    rintro rfl
    exact List.not_lt_nil _ hlt

/-- No way has both marks. -/
theorem Marked.unique (h : H.Marked root m π) :
    match m with
    | .first => ¬ H.Marked root .again π
    | .again => ¬ H.Marked root .first π := by
  induction h with
  | @first σ i p hσ hp h ihσ ih =>
    intro hagain
    rcases hagain.again_inv with ⟨σ', j, heq, hσ'⟩ | ⟨σ', p', q', hσ', hlt, hp', hq', hid⟩
    · obtain ⟨rfl, -⟩ := List.append_inj' heq rfl
      exact ihσ hσ'.ne_nil hσ'
    · obtain rfl := Option.some.inj (hp.symm.trans hq')
      exact ih σ' p' hlt hσ'.ne_nil hp' hid.symm hσ'
  | @under σ i hσ ih =>
    intro hfirst
    obtain ⟨σ', j, p', heq, hthrough, -⟩ := hfirst.first_inv
    obtain ⟨rfl, -⟩ := List.append_inj' heq rfl
    rcases hthrough with rfl | hσ'
    · exact hσ.ne_nil rfl
    · exact ih hσ'
  | @again σ τ p q hσ hlt hp hq hid ih =>
    intro hfirst
    obtain ⟨-, -, p', -, -, hp', hall⟩ := hfirst.first_inv
    obtain rfl := Option.some.inj (hq.symm.trans hp')
    exact ih (hall σ p hlt hσ.ne_nil hp hid.symm)

theorem GoesThrough.not_again (h : H.GoesThrough root σ) : ¬ H.Marked root .again σ := by
  rcases h with rfl | h
  · exact fun hagain => hagain.ne_nil rfl
  · exact h.unique

/-- What is below a way that is not gone through is not gone through. -/
theorem Marked.again_of_prefix (h : H.Marked root .again σ) (hτ : σ <+: τ) :
    H.Marked root .again τ := by
  obtain ⟨ρ, rfl⟩ := hτ
  induction ρ using List.reverseRecOn with
  | nil => rwa [List.append_nil]
  | append_singleton ρ i ih =>
    rw [← List.append_assoc]
    exact .under ih

/-! ### The walk -/

/-- The walk has come over the ways `S`: it has marked them, and listed the ids of the first units. -/
structure Visited (H : UnitHeap) (root : Ptr) (S : Set (List ℕ)) (result : List PeerId) : Prop where
  listed : ∀ x, x ∈ result ↔ ∃ τ q, τ ∈ S ∧ H.Marked root .first τ ∧ H.unitAt root τ = some q ∧
    H.idOf q = x
  marked : ∀ τ q, τ ∈ S → τ ≠ [] → H.unitAt root τ = some q → ∃ m, H.Marked root m τ
  nodup : result.Nodup

theorem Visited.congr (h : H.Visited root S result)
    (hST : ∀ τ q, H.unitAt root τ = some q → (τ ∈ T ↔ τ ∈ S)) : H.Visited root T result where
  listed := fun x => by
    rw [h.listed]
    refine exists_congr fun τ => exists_congr fun q => ?_
    constructor
    · rintro ⟨hS, hm, hq, hid⟩
      exact ⟨(hST τ q hq).mpr hS, hm, hq, hid⟩
    · rintro ⟨hT, hm, hq, hid⟩
      exact ⟨(hST τ q hq).mp hT, hm, hq, hid⟩
  marked := fun τ q hτ hne hq => h.marked τ q ((hST τ q hq).mp hτ) hne hq
  nodup := h.nodup

/-- The walk passes over a child whose id is listed. -/
theorem Visited.pass (h : H.Visited root {τ | τ < σ ++ [i]} result)
    (hc : H.unitAt root (σ ++ [i]) = some c) (hin : H.idOf c ∈ result) :
    H.Visited root {τ | τ < σ ++ [i + 1]} result := by
  obtain ⟨τ₁, q₁, hτ₁, hfirst₁, hq₁, hid₁⟩ := (h.listed _).mp hin
  have hagain : H.Marked root .again (σ ++ [i]) := .again hfirst₁ hτ₁ hq₁ hc hid₁.symm
  constructor
  · intro x
    rw [h.listed]
    refine exists_congr fun τ => exists_congr fun q => and_congr_left fun hrest => ?_
    show τ < _ ↔ τ < _
    rw [lt_concat_succ]
    exact ⟨.inl, fun hτ => hτ.resolve_right fun hpre =>
      hrest.1.unique (hagain.again_of_prefix hpre)⟩
  · intro τ q hτ hne hq
    rcases lt_concat_succ.mp hτ with hlt | hpre
    · exact h.marked τ q hlt hne hq
    · exact ⟨.again, hagain.again_of_prefix hpre⟩
  · exact h.nodup

/-- The walk lists a child whose id is new. -/
theorem Visited.list (h : H.Visited root {τ | τ < σ ++ [i]} result)
    (hthrough : H.GoesThrough root σ) (hc : H.unitAt root (σ ++ [i]) = some c)
    (hout : H.idOf c ∉ result) : H.Marked root .first (σ ++ [i]) ∧
      H.Visited root {τ | τ < σ ++ [i] ++ [0]} (result ++ [H.idOf c]) := by
  have hfirst : H.Marked root .first (σ ++ [i]) := by
    refine .first (or_iff_not_imp_left.mp hthrough) hc fun τ q hlt hne hq hid => ?_
    obtain ⟨m, hm⟩ := h.marked τ q hlt hne hq
    cases m with
    | first => exact absurd ((h.listed _).mpr ⟨τ, q, hlt, hm, hq, hid⟩) hout
    | again => exact hm
  refine ⟨hfirst, ?_, ?_, ?_⟩
  · intro x
    rw [List.mem_append, h.listed, List.mem_singleton]
    constructor
    · rintro (⟨τ, q, hlt, hrest⟩ | rfl)
      · exact ⟨τ, q, lt_concat_zero.mpr (.inl hlt), hrest⟩
      · exact ⟨σ ++ [i], c, lt_concat_zero.mpr (.inr rfl), hfirst, hc, rfl⟩
    · rintro ⟨τ, q, hlt, hm, hq, hid⟩
      rcases lt_concat_zero.mp hlt with hlt | rfl
      · exact .inl ⟨τ, q, hlt, hm, hq, hid⟩
      · obtain rfl := Option.some.inj (hc.symm.trans hq)
        exact .inr hid.symm
  · intro τ q hτ hne hq
    rcases lt_concat_zero.mp hτ with hlt | rfl
    · exact h.marked τ q hlt hne hq
    · exact ⟨.first, hfirst⟩
  · refine h.nodup.append (List.nodup_singleton _) ?_
    exact List.disjoint_singleton.mpr hout

/-- How many ids are not listed yet. -/
noncomputable def missing (H : UnitHeap) (result : List PeerId) : ℕ :=
  ({x | ∃ p, H.cells p ≠ none ∧ H.idOf p = x} \ {x | x ∈ result}).ncard

theorem IsGraph.finite_ids (h : H.IsGraph root) : {x | ∃ p, H.cells p ≠ none ∧ H.idOf p = x}.Finite :=
  h.finite.image H.idOf

theorem IsGraph.missing_le (h : H.IsGraph root) (hsub : result ⊆ result') :
    H.missing result' ≤ H.missing result :=
  Set.ncard_le_ncard (Set.sdiff_subset_sdiff_right fun _ hx => hsub hx) (h.finite_ids.sdiff)

theorem IsGraph.missing_lt (h : H.IsGraph root) (hc : H.cells c ≠ none)
    (hout : H.idOf c ∉ result) : H.missing (result ++ [H.idOf c]) < H.missing result := by
  refine Set.ncard_lt_ncard ⟨?_, fun hsub => ?_⟩ h.finite_ids.sdiff
  · exact Set.sdiff_subset_sdiff_right fun _ hx => List.mem_append_left _ hx
  · have hin := hsub (a := H.idOf c) ⟨⟨c, hc, rfl⟩, hout⟩
    exact hin.2 (List.mem_append_right _ (List.mem_singleton_self _))

/-- **The walk below a unit.** -/
theorem IsGraph.exists_collect (h : H.IsGraph root) (hσ : H.unitAt root σ = some p)
    (hp : H.cells p ≠ none) (hthrough : H.GoesThrough root σ) (hfuel : H.missing result < fuel)
    (hv : H.Visited root {τ | τ < σ ++ [0]} result) :
    ∃ result', collectAllNodeIds fuel H result p = .ok result' ∧ result ⊆ result' ∧
      H.Visited root {τ | τ < σ ∨ σ <+: τ} result' := by
  induction fuel generalizing σ p result with
  | zero => exact absurd hfuel (Nat.not_lt_zero _)
  | succ fuel ih =>
    obtain ⟨u, hu⟩ := Option.ne_none_iff_exists'.mp hp
    have hchilds := childs_of_cells hu
    rw [collectAllNodeIds, read_of_cells hu]
    -- the loop, from the child at place `i` on
    have hloop : ∀ (cs : List Ptr) (i : ℕ) (result : List PeerId), u.childs.drop i = cs →
        H.missing result < fuel + 1 → H.Visited root {τ | τ < σ ++ [i]} result →
        ∃ result', cs.foldlM (fun result child => do
            let c ← H.read child
            if c.id ∈ result then return result
            else collectAllNodeIds fuel H (result ++ [c.id]) child) result = .ok result' ∧
          result ⊆ result' ∧ H.Visited root {τ | τ < σ ++ [i + cs.length]} result' := by
      intro cs
      induction cs with
      | nil => exact fun i result _ _ hv => ⟨result, rfl, List.Subset.refl _, hv⟩
      | cons c cs ihcs =>
        intro i result hdrop hfuel hv
        have hget : u.childs[i]? = some c := by
          rw [← Nat.add_zero i, ← List.getElem?_drop, hdrop]
          rfl
        have hdrop' : u.childs.drop (i + 1) = cs := by
          rw [← List.drop_drop, hdrop]
          rfl
        have hc : H.unitAt root (σ ++ [i]) = some c := by
          rw [unitAt_concat hσ, hchilds, hget]
        have hlive : H.cells c ≠ none := h.child_live p c (by
          rw [hchilds]
          exact List.mem_of_getElem? hget)
        obtain ⟨d, hd⟩ := Option.ne_none_iff_exists'.mp hlive
        have hid := idOf_of_cells hd
        rw [List.foldlM_cons, read_of_cells hd]
        rw [List.length_cons, Nat.add_comm cs.length, ← Nat.add_assoc]
        simp only [bind, Except.bind]
        by_cases hin : d.id ∈ result
        · rw [if_pos hin]
          exact ihcs (i + 1) result hdrop' hfuel (hv.pass hc (by rwa [hid]))
        · rw [if_neg hin]
          rw [← hid] at hin ⊢
          obtain ⟨hfirst, hv'⟩ := hv.list hthrough hc hin
          have hlt := h.missing_lt hlive hin
          obtain ⟨result₁, hcall, hsub, hv₁⟩ := ih hc hlive (.inr hfirst) (by omega) hv'
          have hle := h.missing_le hsub
          obtain ⟨result₂, hrest, hsub₂, hv₂⟩ := ihcs (i + 1) result₁ hdrop' (by omega)
            (hv₁.congr fun τ q _ => lt_concat_succ)
          refine ⟨result₂, ?_, ?_, hv₂⟩
          · rw [hcall]
            exact hrest
          · exact List.Subset.trans (List.subset_append_left _ _) (List.Subset.trans hsub hsub₂)
    obtain ⟨result', hcall, hsub, hv'⟩ := hloop u.childs 0 result rfl hfuel hv
    refine ⟨result', hcall, hsub, hv'.congr fun τ q hq => ?_⟩
    rw [Nat.zero_add, ← hchilds]
    exact (lt_concat_length hσ hq).symm

/-! ### The list -/

/-- The list has the ids of the units below the root, each once. -/
def Lists (H : UnitHeap) (root : Ptr) (result : List PeerId) : Prop :=
  result.Nodup ∧ ∀ x, x ∈ result ↔ ∃ p, Relation.TransGen H.Child root p ∧ H.idOf p = x

/-- A unit that the walk does not go through has only children whose ids the children of the units
have that it goes through. -/
def NothingHidden (H : UnitHeap) (root : Ptr) : Prop :=
  ∀ π p c, H.Marked root .again π → H.unitAt root π = some p → c ∈ H.childs p →
    ∃ σ q d, H.GoesThrough root σ ∧ H.unitAt root σ = some q ∧ d ∈ H.childs q ∧ H.idOf d = H.idOf c

theorem visited_start : H.Visited root {τ | τ < [] ++ [0]} [] where
  listed := fun x => by
    constructor
    · exact fun h => absurd h List.not_mem_nil
    · rintro ⟨τ, q, hlt, hm, -⟩
      rcases lt_concat_zero.mp hlt with hlt | rfl
      · exact absurd hlt (List.not_lt_nil τ)
      · exact absurd rfl hm.ne_nil
  marked := fun τ q hlt hne _ => by
    rcases lt_concat_zero.mp hlt with hlt | rfl
    · exact absurd hlt (List.not_lt_nil τ)
    · exact absurd rfl hne
  nodup := List.nodup_nil

/-- The children of what is gone through are listed. -/
theorem Visited.mem_of_goesThrough (hv : H.Visited root {τ | τ < [] ∨ [] <+: τ} result)
    (hσ : H.unitAt root σ = some p) (hthrough : H.GoesThrough root σ) (hc : c ∈ H.childs p) :
    H.idOf c ∈ result := by
  obtain ⟨i, hi⟩ := List.getElem?_of_mem hc
  rw [← unitAt_concat hσ] at hi
  obtain ⟨m, hm⟩ := hv.marked (σ ++ [i]) c (.inr List.nil_prefix) (by simp) hi
  rw [hv.listed]
  cases m with
  | first => exact ⟨_, _, .inr List.nil_prefix, hm, hi, rfl⟩
  | again =>
    rcases hm.again_inv with ⟨σ', j, heq, hσ'⟩ | ⟨τ, q, c', hτ, -, hq, hc', hid⟩
    · obtain ⟨rfl, -⟩ := List.append_inj' heq rfl
      exact absurd hσ' hthrough.not_again
    · obtain rfl := Option.some.inj (hi.symm.trans hc')
      exact ⟨τ, q, .inr List.nil_prefix, hτ, hq, hid.symm⟩

theorem Visited.lists_iff (hv : H.Visited root {τ | τ < [] ∨ [] <+: τ} result) :
    H.Lists root result ↔ H.NothingHidden root := by
  constructor
  · rintro ⟨-, hall⟩ π p c hπ hp hc
    have hbelow : Relation.TransGen H.Child root c :=
      (exists_unitAt_iff.mp ⟨π, hπ.ne_nil, hp⟩).tail hc
    obtain ⟨τ, d, -, hτ, hd, hid⟩ := (hv.listed _).mp ((hall _).mpr ⟨c, hbelow, rfl⟩)
    obtain ⟨σ, i, -, rfl, hthrough, -⟩ := hτ.first_inv
    obtain ⟨q, hq, hi⟩ := exists_unitAt_of_concat hd
    exact ⟨σ, q, d, hthrough, hq, List.mem_of_getElem? hi, hid⟩
  · intro hhidden
    refine ⟨hv.nodup, fun x => ⟨fun hx => ?_, ?_⟩⟩
    · obtain ⟨τ, q, -, hτ, hq, hid⟩ := (hv.listed x).mp hx
      exact ⟨q, exists_unitAt_iff.mp ⟨τ, hτ.ne_nil, hq⟩, hid⟩
    · rintro ⟨c, hbelow, rfl⟩
      obtain ⟨π, hne, hπ⟩ := exists_unitAt_iff.mpr hbelow
      obtain ⟨σ, i, rfl⟩ := List.eq_nil_or_concat' π |>.resolve_left hne
      obtain ⟨p, hp, hi⟩ := exists_unitAt_of_concat hπ
      have hc : c ∈ H.childs p := List.mem_of_getElem? hi
      by_cases hσ : σ = []
      · exact hv.mem_of_goesThrough hp (.inl hσ) hc
      · obtain ⟨m, hm⟩ := hv.marked σ p (.inr List.nil_prefix) hσ hp
        cases m with
        | first => exact hv.mem_of_goesThrough hp (.inr hm) hc
        | again =>
          obtain ⟨τ, q, d, hthrough, hq, hd, hid⟩ := hhidden σ p c hm hp hc
          rw [← hid]
          exact hv.mem_of_goesThrough hq hthrough hd

/-- **The list is complete** exactly when the units that the walk does not go through, since it has met
their id before, hide no id. -/
theorem collectAllNodeIds_lists_iff (h : H.IsGraph root) :
    ∃ N, ∀ fuel ≥ N, ∃ result, collectAllNodeIds fuel H [] root = .ok result ∧
      (H.Lists root result ↔ H.NothingHidden root) := by
  refine ⟨H.missing [] + 1, fun fuel hfuel => ?_⟩
  obtain ⟨result, hcall, -, hv⟩ := h.exists_collect rfl h.root_live (.inl rfl)
    (Nat.lt_of_succ_le hfuel) visited_start
  exact ⟨result, hcall, hv.lists_iff⟩

theorem IsDag.isGraph (h : H.IsDag root) : H.IsGraph root where
  finite := h.finite
  root_live := h.root_live
  child_live := fun _ _ => h.live_of_child

/-- A unit below another one and below the root, each with an id of its own. -/
theorem collectAllNodeIds_lists_iff_triangle : ∃ N, ∀ fuel ≥ N, ∃ result,
    collectAllNodeIds fuel triangle [] 0 = .ok result ∧
      (triangle.Lists 0 result ↔ triangle.NothingHidden 0) :=
  collectAllNodeIds_lists_iff triangle_isDag.isGraph

/-- A node that is known through two neighbours, with a child below the second. -/
def twins : UnitHeap where
  cells := fun p => match p with
    | 0 => some ⟨-1, "me", [], [1, 2]⟩
    | 1 => some ⟨0, "a", [0], []⟩
    | 2 => some ⟨0, "a", [0], [3]⟩
    | 3 => some ⟨1, "b", [2], []⟩
    | _ => none
  nextPtr := 4
  freed := []

theorem twins_isGraph : twins.IsGraph 0 where
  finite := by
    refine (Set.finite_lt_nat 4).subset fun p hp => ?_
    by_contra hge
    obtain ⟨k, rfl⟩ : ∃ k, p = k + 4 := ⟨p - 4, (Nat.sub_add_cancel (Nat.not_lt.mp hge)).symm⟩
    exact hp rfl
  root_live := by decide
  child_live := by
    intro p q hq
    rcases p with _ | _ | _ | _ | p
    · rcases List.mem_pair.mp hq with rfl | rfl <;> decide
    · exact absurd hq List.not_mem_nil
    · obtain rfl := List.mem_singleton.mp hq
      decide
    · exact absurd hq List.not_mem_nil
    · exact absurd hq List.not_mem_nil

/-- The child is not listed. -/
theorem not_lists_twins : ¬ ∀ H : UnitHeap, ∀ root, H.IsGraph root →
    ∃ N, ∀ fuel ≥ N, ∃ result, collectAllNodeIds fuel H [] root = .ok result ∧
      H.Lists root result := by
  intro h
  obtain ⟨N, hN⟩ := h twins 0 twins_isGraph
  obtain ⟨result, hcall, -, hall⟩ := hN (N + 2) (Nat.le_add_right N 2)
  have heq : collectAllNodeIds (N + 2) twins [] 0 = .ok ["a"] := rfl
  obtain rfl := Except.ok.inj (heq.symm.trans hcall)
  have hbelow : Relation.TransGen twins.Child 0 3 :=
    .tail (.single (show (2 : ℕ) ∈ [1, 2] by decide)) (show (3 : ℕ) ∈ [3] by decide)
  have hmem : "b" ∈ ["a"] := (hall "b").mpr ⟨3, hbelow, rfl⟩
  exact absurd hmem (by decide)

theorem IsGraph.live_of_below (h : H.IsGraph root) (hp : Relation.TransGen H.Child root p) :
    H.cells p ≠ none := by
  cases hp with
  | single hc => exact h.child_live root p hc
  | tail _ hc => exact h.child_live _ p hc

/-- Where units with one id have children with the same ids, the list is complete. -/
theorem collectAllNodeIds_lists_of_twins (h : H.IsGraph root)
    (htwins : ∀ p q, H.cells p ≠ none → H.cells q ≠ none → H.idOf p = H.idOf q →
      ∀ c ∈ H.childs p, ∃ d ∈ H.childs q, H.idOf d = H.idOf c) :
    ∃ N, ∀ fuel ≥ N, ∃ result, collectAllNodeIds fuel H [] root = .ok result ∧
      H.Lists root result := by
  refine ⟨H.missing [] + 1, fun fuel hfuel => ?_⟩
  obtain ⟨result, hcall, -, hv⟩ := h.exists_collect rfl h.root_live (.inl rfl)
    (Nat.lt_of_succ_le hfuel) visited_start
  refine ⟨result, hcall, hv.nodup, fun x => ⟨fun hx => ?_, ?_⟩⟩
  · obtain ⟨τ, q, -, hτ, hq, hid⟩ := (hv.listed x).mp hx
    exact ⟨q, exists_unitAt_iff.mp ⟨τ, hτ.ne_nil, hq⟩, hid⟩
  · rintro ⟨c, hbelow, rfl⟩
    induction hbelow with
    | single hc => exact hv.mem_of_goesThrough rfl (.inl rfl) hc
    | @tail b c hb hc ih =>
      obtain ⟨σ, q, -, hσ, hq, hid⟩ := (hv.listed _).mp ih
      have hlive := h.live_of_below (exists_unitAt_iff.mp ⟨σ, hσ.ne_nil, hq⟩)
      obtain ⟨d, hd, heq⟩ := htwins b q (h.live_of_below hb) hlive hid.symm c hc
      rw [← heq]
      exact hv.mem_of_goesThrough hq (.inr hσ) hd

end UnitHeap

end Yamb
