import Mathlib.Logic.Function.Basic
import Mathlib.Tactic.Common
import Yamb.Node.Types

/-!
# Units in memory

The `NodeUnit`s of a graph, with the pointers between them.

* `UnitCell`, `UnitHeap`: the units that are allocated, and those that were freed;
* `read`, `write`, `delete`, `eraseParent`, `eraseChild`, `forEach`: what C++ does with a pointer,
  with the reads of freed units and the loops over changed vectors as faults;
* `deleteNodeFromGraph`: `NodeGraph.cpp`;
* `Trims`, `trims_eraseParent`, `Trims.trans`: what deletions do to the units that stay.
-/

set_option autoImplicit false

namespace Yamb

/-- A `NodeUnit`. -/
structure UnitCell where
  lvl : ℤ
  id : PeerId
  parents : List Ptr
  childs : List Ptr
  deriving DecidableEq

/-- The units by their addresses, the next address, and the addresses freed so far, in order. An
address is not used twice. -/
structure UnitHeap where
  cells : Ptr → Option UnitCell
  nextPtr : Ptr
  freed : List Ptr

/-- A pointer to no unit is followed, a vector changes under a loop, an assert fails, or the bound
on the depth of the recursion is reached. -/
inductive HeapFault
  | useAfterFree | invalidIterator | assertFailed | outOfFuel
  deriving DecidableEq

namespace UnitHeap

def read (H : UnitHeap) (p : Ptr) : Except HeapFault UnitCell :=
  match H.cells p with
  | none => .error .useAfterFree
  | some c => .ok c

def write (H : UnitHeap) (p : Ptr) (c : UnitCell) : UnitHeap :=
  { H with cells := Function.update H.cells p (some c) }

/-- The memory of a unit is given back. -/
def without (H : UnitHeap) (p : Ptr) : UnitHeap :=
  { H with cells := Function.update H.cells p none, freed := H.freed ++ [p] }

def delete (H : UnitHeap) (p : Ptr) : Except HeapFault UnitHeap := do
  let _ ← H.read p
  return H.without p

/-- `std::remove` and `erase` on the `Parents` of a child. -/
def eraseParent (H : UnitHeap) (child deleting : Ptr) : Except HeapFault UnitHeap := do
  let c ← H.read child
  return H.write child { c with parents := c.parents.filter fun r => r ≠ deleting }

/-- `std::remove` and `erase` on the `Childs` of a parent. -/
def eraseChild (H : UnitHeap) (parent deleting : Ptr) : Except HeapFault UnitHeap := do
  let c ← H.read parent
  return H.write parent { c with childs := c.childs.filter fun r => r ≠ deleting }

/-- A turn of a loop over a vector of `p`: the vector has to be there, and still be `l`. -/
def turn (vec : UnitCell → List Ptr) (p : Ptr) (l : List Ptr)
    (body : UnitHeap → Ptr → Except HeapFault UnitHeap) (H : UnitHeap) (x : Ptr) :
    Except HeapFault UnitHeap := do
  let c ← H.read p
  if vec c = l then body H x else throw .invalidIterator

/-- `for (const auto &x: p->vec)`. -/
def forEach (vec : UnitCell → List Ptr) (p : Ptr)
    (body : UnitHeap → Ptr → Except HeapFault UnitHeap) (H : UnitHeap) :
    Except HeapFault UnitHeap := do
  let c ← H.read p
  (vec c).foldlM (turn vec p (vec c) body) H

/-- The loop over the parents of a child that has none left does nothing. -/
def deleteNodeFromGraph : ℕ → UnitHeap → Option Ptr → Except HeapFault UnitHeap
  | _, H, none => .ok H
  | 0, _, some _ => .error .outOfFuel
  | fuel + 1, H, some deleting => do
    let H ← H.forEach UnitCell.childs deleting fun H child => do
      let H ← H.eraseParent child deleting
      let c ← H.read child
      if c.parents = [] then deleteNodeFromGraph fuel H (some child) else return H
    let H ← H.forEach UnitCell.parents deleting fun H parent => H.eraseChild parent deleting
    H.delete deleting

/-! ### The units of a heap -/

def parents (H : UnitHeap) (p : Ptr) : List Ptr := ((H.cells p).map UnitCell.parents).getD []

def childs (H : UnitHeap) (p : Ptr) : List Ptr := ((H.cells p).map UnitCell.childs).getD []

/-- The links from a unit to its children. -/
def Child (H : UnitHeap) (p q : Ptr) : Prop := q ∈ H.childs p

variable {H H' H'' : UnitHeap} {p q r : Ptr} {c : UnitCell} {D D' : List Ptr}

theorem parents_of_cells (h : H.cells p = some c) : H.parents p = c.parents := by
  rw [parents, h]
  rfl

theorem childs_of_cells (h : H.cells p = some c) : H.childs p = c.childs := by
  rw [childs, h]
  rfl

theorem live_of_mem_parents (h : r ∈ H.parents q) : H.cells q ≠ none := by
  intro hnone
  rw [parents, hnone] at h
  exact List.not_mem_nil h

theorem live_of_mem_childs (h : r ∈ H.childs q) : H.cells q ≠ none := by
  intro hnone
  rw [childs, hnone] at h
  exact List.not_mem_nil h

theorem read_of_cells (h : H.cells p = some c) : H.read p = .ok c := by
  rw [read, h]

theorem turn_of_cells {vec : UnitCell → List Ptr} {l : List Ptr} (h : H.cells p = some c)
    (hl : vec c = l) (body : UnitHeap → Ptr → Except HeapFault UnitHeap) (x : Ptr) :
    turn vec p l body H x = body H x := by
  rw [turn, read_of_cells h]
  exact if_pos hl

theorem forEach_of_cells (vec : UnitCell → List Ptr) (h : H.cells p = some c)
    (body : UnitHeap → Ptr → Except HeapFault UnitHeap) :
    H.forEach vec p body = (vec c).foldlM (turn vec p (vec c) body) H := by
  rw [forEach, read_of_cells h]
  rfl

theorem delete_of_cells (h : H.cells p = some c) : H.delete p = .ok (H.without p) := by
  rw [delete, read_of_cells h]
  rfl

/-! ### Units that lose parents -/

/-- The units `D` are gone, and the others have the parents left that `keep` names. -/
def Trims (H H' : UnitHeap) (D : List Ptr) (keep : Ptr → Ptr → Bool) : Prop :=
  ∀ q, H'.cells q = if q ∈ D then none
    else (H.cells q).map fun c => { c with parents := c.parents.filter (keep q) }

variable {keep keep' : Ptr → Ptr → Bool}

theorem trims_refl (H : UnitHeap) : Trims H H [] fun _ _ => true := by
  intro q
  rw [if_neg List.not_mem_nil]
  cases H.cells q with
  | none => rfl
  | some c => rw [Option.map_some, List.filter_true]

theorem Trims.live_iff (h : Trims H H' D keep) :
    H'.cells q ≠ none ↔ q ∉ D ∧ H.cells q ≠ none := by
  rw [h q]
  split_ifs with hq
  · exact iff_of_false (fun hn => hn rfl) fun hc => hc.1 hq
  · rw [ne_eq, Option.map_eq_none_iff, and_iff_right hq]

theorem Trims.parents_eq (h : Trims H H' D keep) (hq : q ∉ D) :
    H'.parents q = (H.parents q).filter (keep q) := by
  rw [parents, parents, h q, if_neg hq]
  cases H.cells q <;> rfl

theorem Trims.childs_eq (h : Trims H H' D keep) (hq : q ∉ D) : H'.childs q = H.childs q := by
  rw [childs, childs, h q, if_neg hq]
  cases H.cells q <;> rfl

theorem Trims.mem_parents_iff (h : Trims H H' D keep) :
    r ∈ H'.parents q ↔ q ∉ D ∧ r ∈ H.parents q ∧ keep q r = true := by
  by_cases hq : q ∈ D
  · refine iff_of_false (fun hr => live_of_mem_parents hr ?_) fun hc => hc.1 hq
    rw [h q, if_pos hq]
  · rw [h.parents_eq hq, List.mem_filter, and_iff_right hq]

theorem Trims.congr (h : Trims H H' D keep)
    (heq : ∀ q ∉ D, ∀ r ∈ H.parents q, keep q r = keep' q r) : Trims H H' D keep' := by
  intro q
  rw [h q]
  split_ifs with hq
  · rfl
  · cases hc : H.cells q with
    | none => rfl
    | some c =>
      have hfilter : c.parents.filter (keep q) = c.parents.filter (keep' q) :=
        List.filter_congr fun r hr => heq q hq r (by rwa [parents_of_cells hc])
      rw [Option.map_some, Option.map_some, hfilter]

theorem Trims.trans (h : Trims H H' D keep) (h' : Trims H' H'' D' keep') :
    Trims H H'' (D ++ D') fun q r => keep q r && keep' q r := by
  intro q
  rw [h' q, h q]
  by_cases hq : q ∈ D
  · rw [if_pos hq, if_pos (List.mem_append_left D' hq), Option.map_none, ite_self]
  · by_cases hq' : q ∈ D'
    · rw [if_pos hq', if_pos (List.mem_append_right D hq')]
    · rw [if_neg hq', if_neg hq, if_neg fun hmem => (List.mem_append.mp hmem).elim hq hq']
      cases H.cells q with
      | none => rfl
      | some c =>
        simp only [Option.map_some, List.filter_filter, Bool.and_comm]

/-- A child loses a parent. -/
theorem trims_eraseParent {child : Ptr} (h : H.cells child ≠ none) (deleting : Ptr) :
    ∃ H', H.eraseParent child deleting = .ok H' ∧
      Trims H H' [] (fun q r => !decide (q = child ∧ r = deleting)) ∧ H'.freed = H.freed ∧
      H'.nextPtr = H.nextPtr := by
  obtain ⟨c, hc⟩ := Option.ne_none_iff_exists'.mp h
  refine ⟨H.write child { c with parents := c.parents.filter fun r => r ≠ deleting },
    by rw [eraseParent, read_of_cells hc]; rfl, fun q => ?_, rfl, rfl⟩
  rw [if_neg List.not_mem_nil]
  by_cases hq : q = child
  · subst hq
    rw [hc, Option.map_some]
    refine (Function.update_self _ _ _).trans ?_
    simp
  · refine (Function.update_of_ne hq _ _).trans ?_
    cases H.cells q with
    | none => rfl
    | some c => simp [hq]

end UnitHeap

end Yamb
