import Yamb.Topology.Deletion

/-!
# The chains of a unit

`fillChain` on the units that are allocated.

* `fillChain`, `fillMyChain`: the two overloads of `NodeGraph.cpp`;
* `Route`: the ways from a unit up to the root; `Enumerates`: chains that list each of them once;
* `chainsFrom`, `fillChain_eq`: the chains that are left, none longer than two;
* **`fillChain_enumerates_iff`**: they list the ways when none has more than two links.
-/

set_option autoImplicit false

namespace Yamb

namespace UnitHeap

/-! ### The two overloads -/

/-- A new chain starts with the id of `p`, and `fill` goes on with it. -/
def startChain (H : UnitHeap)
    (fill : Ptr → List (List PeerId) → ℕ → Except HeapFault (List (List PeerId)))
    (chains : List (List PeerId)) (p : Ptr) : Except HeapFault (List (List PeerId)) := do
  let c ← H.read p
  fill p (chains ++ [[c.id]]) chains.length

/-- `fillChain` with three arguments; `mychain` is the chain at that place of `chains`. It is not
followed further than to the first parent. -/
def fillMyChain : ℕ → UnitHeap → Ptr → List (List PeerId) → ℕ →
    Except HeapFault (List (List PeerId))
  | 0, _, _, _, _ => .error .outOfFuel
  | fuel + 1, H, root, chains, mychain => do
    let u ← H.read root
    match u.parents with
    | [] => return chains
    | p :: ps => do
      let c ← H.read p
      ps.foldlM (H.startChain (fillMyChain fuel H))
        (chains.modify mychain fun chain => chain ++ [c.id])

/-- `fillChain` with two arguments. -/
def fillChain (fuel : ℕ) (H : UnitHeap) (root : Ptr) (chains : List (List PeerId)) :
    Except HeapFault (List (List PeerId)) := do
  let curr ← H.read root
  curr.parents.foldlM (H.startChain (fillMyChain fuel H)) chains

/-! ### The ways to the root -/

def idOf (H : UnitHeap) (p : Ptr) : PeerId := ((H.cells p).map UnitCell.id).getD ""

/-- The parent of `f`, its parent, and so on up to the root. -/
inductive Route (H : UnitHeap) (root : Ptr) : Ptr → List Ptr → Prop
  | last {f : Ptr} (h : root ∈ H.parents f) : Route H root f [root]
  | cons {f p : Ptr} {π : List Ptr} (h : p ∈ H.parents f) (hπ : Route H root p π) :
      Route H root f (p :: π)

/-- The chains are the ids on the ways from `f` to the root, each way once. -/
def Enumerates (H : UnitHeap) (root f : Ptr) (chains : List (List PeerId)) : Prop :=
  ∃ routes : List (List Ptr), routes.Nodup ∧ (∀ π, π ∈ routes ↔ H.Route root f π) ∧
    chains.Perm (routes.map fun π => π.map H.idOf)

variable {H : UnitHeap} {root f p q r : Ptr} {π : List Ptr} {fuel : ℕ}
  {chains : List (List PeerId)} {c : UnitCell}

theorem idOf_of_cells (h : H.cells p = some c) : H.idOf p = c.id := by
  rw [idOf, h]
  rfl

theorem Route.ne_nil (h : H.Route root f π) : π ≠ [] := by
  cases h with
  | last => exact List.cons_ne_nil _ _
  | cons => exact List.cons_ne_nil _ _

theorem Route.head_mem (h : H.Route root f (p :: π)) : p ∈ H.parents f := by
  cases h with
  | last h => exact h
  | cons h _ => exact h

theorem IsDag.parent_live (h : H.IsDag root) (hr : r ∈ H.parents p) : H.cells r ≠ none :=
  live_of_mem_childs ((h.linked r p).mpr hr)

/-- Every unit has a way to the root. -/
theorem IsDag.exists_route (h : H.IsDag root) (hp : H.cells p ≠ none) (hne : p ≠ root) :
    ∃ π, H.Route root p π := by
  have hway := h.reachable p hp
  clear hp
  induction hway with
  | refl => exact absurd rfl hne
  | @tail b c _ hbc ih =>
    have hparent : b ∈ H.parents c := (h.linked b c).mp hbc
    by_cases hb : b = root
    · exact ⟨[root], .last (hb ▸ hparent)⟩
    · obtain ⟨π, hπ⟩ := ih hb
      exact ⟨b :: π, .cons hparent hπ⟩

/-! ### What is left in the chains -/

/-- The chain that starts with the id of `p`. -/
def firstChain (H : UnitHeap) (p : Ptr) : List PeerId := H.idOf p :: ((H.parents p).take 1).map H.idOf

/-- The chains that start with `p`, or with a unit above it that is not the first parent. -/
def chainsFrom (H : UnitHeap) : ℕ → Ptr → List (List PeerId)
  | 0, _ => []
  | fuel + 1, p => H.firstChain p :: ((H.parents p).drop 1).flatMap (chainsFrom H fuel)

theorem length_of_mem_chainsFrom {chain : List PeerId} (h : chain ∈ H.chainsFrom fuel p) :
    chain.length ≤ 2 := by
  induction fuel generalizing p with
  | zero => exact absurd h List.not_mem_nil
  | succ fuel ih =>
    rw [chainsFrom, List.mem_cons] at h
    rcases h with rfl | h
    · rw [firstChain, List.length_cons, List.length_map]
      exact Nat.succ_le_succ (List.length_take_le 1 _)
    · obtain ⟨q, -, hq⟩ := List.mem_flatMap.mp h
      exact ih hq

theorem foldlM_append {α β : Type} {f : List α → β → Except HeapFault (List α)} {g : β → List α}
    {xs : List β} (h : ∀ x ∈ xs, ∀ l, f l x = .ok (l ++ g x)) (l : List α) :
    xs.foldlM f l = .ok (l ++ xs.flatMap g) := by
  induction xs generalizing l with
  | nil =>
    rw [List.flatMap_nil, List.append_nil]
    rfl
  | cons x xs ih =>
    rw [List.foldlM_cons, h x List.mem_cons_self, List.flatMap_cons, ← List.append_assoc]
    exact ih (fun y hy => h y (List.mem_cons_of_mem x hy)) _

theorem modify_last {α : Type} (l : List α) (x : α) (g : α → α) :
    (l ++ [x]).modify l.length g = l ++ [g x] := by
  induction l with
  | nil => rfl
  | cons y l ih => exact congrArg (y :: ·) ih

/-- The number of units above a unit. -/
noncomputable def above (H : UnitHeap) (p : Ptr) : ℕ := Dag.below (fun p q => q ∈ H.parents p) p

theorem IsDag.above_lt (h : H.IsDag root) (hr : r ∈ H.parents p) : H.above r < H.above p := by
  refine Dag.below_lt h.finite (fun p q => h.parent_live) (fun p hp => h.acyclic p ?_) hr
  have hswap : Relation.TransGen (Function.swap H.Child) p p :=
    Relation.TransGen.mono (fun a b hab => (h.linked b a).mpr hab) p p hp
  exact Relation.transGen_swap.mp hswap

/-- **The recursion** adds the chains of the unit. -/
theorem IsDag.startChain_eq (h : H.IsDag root) (hp : H.cells p ≠ none) (hfuel : H.above p < fuel)
    (chains : List (List PeerId)) :
    H.startChain (fillMyChain fuel H) chains p = .ok (chains ++ H.chainsFrom fuel p) := by
  induction fuel generalizing p chains with
  | zero => exact absurd hfuel (Nat.not_lt_zero _)
  | succ fuel ih =>
    obtain ⟨c, hc⟩ := Option.ne_none_iff_exists'.mp hp
    have hparents := parents_of_cells hc
    rw [startChain, read_of_cells hc]
    show fillMyChain (fuel + 1) H p (chains ++ [[c.id]]) chains.length = _
    rw [fillMyChain, read_of_cells hc]
    simp only [bind, Except.bind, chainsFrom, firstChain, hparents, idOf_of_cells hc]
    cases hps : c.parents with
    | nil => rfl
    | cons q ps =>
      have hin : ∀ r ∈ q :: ps, r ∈ H.parents p := fun r hr => by rwa [hparents, hps]
      obtain ⟨d, hd⟩ := Option.ne_none_iff_exists'.mp (h.parent_live (hin q List.mem_cons_self))
      simp only [read_of_cells hd, modify_last]
      rw [foldlM_append (g := H.chainsFrom fuel) fun r hr chains => ?_]
      · simp [idOf_of_cells hd]
      · have hr' := hin r (List.mem_cons_of_mem q hr)
        exact ih (h.parent_live hr') (by have := h.above_lt hr'; omega) chains

/-- **What `fillChain` leaves.** -/
theorem IsDag.fillChain_eq (h : H.IsDag root) (hf : H.cells f ≠ none) (hfuel : H.above f ≤ fuel)
    (chains : List (List PeerId)) :
    fillChain fuel H f chains = .ok (chains ++ (H.parents f).flatMap (H.chainsFrom fuel)) := by
  obtain ⟨c, hc⟩ := Option.ne_none_iff_exists'.mp hf
  rw [fillChain, read_of_cells hc, parents_of_cells hc]
  refine foldlM_append (fun p hp chains => ?_) chains
  have hparent : p ∈ H.parents f := by rwa [parents_of_cells hc]
  exact h.startChain_eq (h.parent_live hparent) ((h.above_lt hparent).trans_le hfuel) chains

/-! ### Short ways -/

/-- Above a unit whose ways have one link there is only the root. -/
theorem IsDag.parents_eq_root (h : H.IsDag root) (hp : H.cells p ≠ none) (hne : p ≠ root)
    (hshort : ∀ π, H.Route root p π → π.length ≤ 1) : H.parents p = [root] := by
  have hall : ∀ q ∈ H.parents p, q = root := by
    intro q hq
    by_contra hqr
    obtain ⟨π, hπ⟩ := h.exists_route (h.parent_live hq) hqr
    have hlen := hshort _ (.cons hq hπ)
    rw [List.length_cons] at hlen
    exact hπ.ne_nil (List.eq_nil_of_length_eq_zero (by omega))
  obtain ⟨q, ps, hps⟩ := List.exists_cons_of_ne_nil (h.parents_ne_nil hp hne)
  have hnodup := h.parents_nodup p
  rw [hps] at hall hnodup ⊢
  obtain rfl := hall q List.mem_cons_self
  cases ps with
  | nil => rfl
  | cons r ps =>
    obtain rfl := hall r (List.mem_cons_of_mem q List.mem_cons_self)
    exact absurd List.mem_cons_self (List.nodup_cons.mp hnodup).1

/-- A way over a parent with at most two links. -/
def shortRoute (root p : Ptr) : List Ptr := if p = root then [root] else [p, root]

theorem IsDag.chainsFrom_short (h : H.IsDag root) (hp : p ∈ H.parents f)
    (hshort : ∀ π, H.Route root f π → π.length ≤ 2) (hfuel : fuel ≠ 0) :
    H.chainsFrom fuel p = [(shortRoute root p).map H.idOf] := by
  obtain ⟨k, rfl⟩ := Nat.exists_eq_succ_of_ne_zero hfuel
  rw [chainsFrom, firstChain, shortRoute]
  by_cases hne : p = root
  · rw [if_pos hne, hne, h.parents_root]
    rfl
  · have hparents : H.parents p = [root] :=
      h.parents_eq_root (h.parent_live hp) hne fun π hπ => by
        have hlen := hshort _ (.cons hp hπ)
        rw [List.length_cons] at hlen
        omega
    rw [if_neg hne, hparents]
    rfl

theorem IsDag.mem_shortRoutes_iff (h : H.IsDag root)
    (hshort : ∀ π, H.Route root f π → π.length ≤ 2) (π : List Ptr) :
    π ∈ (H.parents f).map (shortRoute root) ↔ H.Route root f π := by
  rw [List.mem_map]
  constructor
  · rintro ⟨p, hp, rfl⟩
    unfold shortRoute
    split_ifs with hne
    · exact .last (hne ▸ hp)
    · obtain ⟨ρ, hρ⟩ := h.exists_route (h.parent_live hp) hne
      have hparents : H.parents p = [root] :=
        h.parents_eq_root (h.parent_live hp) hne fun π hπ => by
          have hlen := hshort _ (.cons hp hπ)
          rw [List.length_cons] at hlen
          omega
      exact .cons hp (.last (by rw [hparents]; exact List.mem_singleton_self root))
  · intro hπ
    have hlen := hshort π hπ
    cases hπ with
    | last hroot => exact ⟨root, hroot, if_pos rfl⟩
    | @cons _ p ρ hp hρ =>
      refine ⟨p, hp, ?_⟩
      have hne : p ≠ root := by
        rintro rfl
        obtain ⟨q, ρ', rfl⟩ := List.exists_cons_of_ne_nil hρ.ne_nil
        have hq := hρ.head_mem
        rw [h.parents_root] at hq
        exact List.not_mem_nil hq
      rw [shortRoute, if_neg hne]
      cases hρ with
      | last _ => rfl
      | cons _ hσ =>
        simp only [List.length_cons] at hlen
        exact absurd (List.eq_nil_of_length_eq_zero (by omega)) hσ.ne_nil

theorem shortRoute_injective (root : Ptr) : Function.Injective (shortRoute root) := by
  intro p q h
  have hhead : ∀ p, (shortRoute root p).head? = some p := fun p => by
    unfold shortRoute
    split_ifs with hne
    · rw [hne]
      rfl
    · rfl
  exact Option.some.inj ((hhead p).symm.trans (h ▸ hhead q))

/-- **The chains list the ways to the root** exactly when no way has more than two links. -/
theorem fillChain_enumerates_iff (h : H.IsDag root) (hf : H.cells f ≠ none) :
    ∃ N, ∀ fuel ≥ N, ∃ chains, fillChain fuel H f [] = .ok chains ∧
      (H.Enumerates root f chains ↔ ∀ π, H.Route root f π → π.length ≤ 2) := by
  refine ⟨H.above f + 1, fun fuel hfuel => ⟨_, h.fillChain_eq hf (by omega) [], ?_⟩⟩
  rw [List.nil_append]
  constructor
  · rintro ⟨routes, -, hroutes, hperm⟩ π hπ
    have hmem : π.map H.idOf ∈ (H.parents f).flatMap (H.chainsFrom fuel) :=
      hperm.mem_iff.mpr (List.mem_map_of_mem ((hroutes π).mpr hπ))
    obtain ⟨p, -, hp⟩ := List.mem_flatMap.mp hmem
    have hlen := length_of_mem_chainsFrom hp
    rwa [List.length_map] at hlen
  · intro hshort
    refine ⟨(H.parents f).map (shortRoute root),
      (h.parents_nodup f).map (shortRoute_injective root), h.mem_shortRoutes_iff hshort, ?_⟩
    have heq : (H.parents f).flatMap (H.chainsFrom fuel) =
        ((H.parents f).map (shortRoute root)).map fun π => π.map H.idOf := by
      rw [List.map_map, List.map_eq_flatMap]
      exact congrArg List.flatten
        (List.map_congr_left fun p hp => h.chainsFrom_short hp hshort (by omega))
    rw [heq]

/-- The ways from the lower unit of the triangle. -/
theorem fillChain_enumerates_iff_triangle : ∃ N, ∀ fuel ≥ N, ∃ chains,
    fillChain fuel triangle 2 [] = .ok chains ∧ (triangle.Enumerates 0 2 chains ↔
      ∀ π, triangle.Route 0 2 π → π.length ≤ 2) :=
  fillChain_enumerates_iff triangle_isDag (by decide)

/-- Three units below each other. -/
def line : UnitHeap where
  cells := fun p => match p with
    | 0 => some ⟨-1, "me", [], [1]⟩
    | 1 => some ⟨0, "a", [0], [2]⟩
    | 2 => some ⟨1, "b", [1], [3]⟩
    | 3 => some ⟨2, "c", [2], []⟩
    | _ => none
  nextPtr := 4
  freed := []

theorem line_isDag : line.IsDag 0 := by
  have hchild : ∀ p q : ℕ, line.Child p q ↔ q = p + 1 ∧ p < 3 := by
    intro p q
    rcases p with _ | _ | _ | _ | p <;> simp [Child, childs, line]
  have hparent : ∀ p q : ℕ, p ∈ line.parents q ↔ q = p + 1 ∧ p < 3 := by
    intro p q
    rcases q with _ | _ | _ | _ | q <;> simp [parents, line] <;> omega
  have hlive : ∀ p : ℕ, line.cells p ≠ none ↔ p < 4 := by
    intro p
    rcases p with _ | _ | _ | _ | p <;> simp [line]
  have hlt : ∀ p q : ℕ, Relation.TransGen line.Child p q → p < q := by
    intro p q h
    induction h with
    | single hpq =>
      have hq := ((hchild _ _).mp hpq).1
      omega
    | tail _ hpq ih =>
      have hq := ((hchild _ _).mp hpq).1
      omega
  constructor
  · simp only [hlive]
    exact Set.finite_lt_nat 4
  · exact (hlive 0).mpr (by decide)
  · exact fun p q => (hchild p q).trans (hparent p q).symm
  · intro p
    rcases p with _ | _ | _ | _ | p <;> simp [childs, line]
  · intro q
    rcases q with _ | _ | _ | _ | q <;> simp [parents, line]
  · exact fun p hp => Nat.lt_irrefl p (hlt p p hp)
  · intro p hp
    have hp' := (hlive p).mp hp
    clear hp
    induction p with
    | zero => exact Relation.ReflTransGen.refl
    | succ p ih => exact (ih (by omega)).tail ((hchild p (p + 1)).mpr ⟨rfl, by omega⟩)

/-- The chain of the lowest unit ends before the root. -/
theorem not_enumerates_line : ¬ ∀ H : UnitHeap, ∀ root f, H.IsDag root → H.cells f ≠ none →
    ∃ N, ∀ fuel ≥ N, ∃ chains, fillChain fuel H f [] = .ok chains ∧
      H.Enumerates root f chains := by
  intro h
  obtain ⟨N, hN⟩ := h line 0 3 line_isDag (by decide)
  obtain ⟨chains, hchains, routes, -, hroutes, hperm⟩ := hN (N + 1) (Nat.le_succ N)
  have heq : fillChain (N + 1) line 3 [] = .ok [["b", "a"]] := rfl
  obtain rfl := Except.ok.inj (heq.symm.trans hchains)
  have hroute : line.Route 0 3 [2, 1, 0] :=
    .cons (by decide) (.cons (by decide) (.last (by decide)))
  have hmem : ["b", "a", "me"] ∈ [["b", "a"]] :=
    hperm.mem_iff.mpr (List.mem_map_of_mem ((hroutes _).mpr hroute))
  exact absurd hmem (by decide)

end UnitHeap

end Yamb
