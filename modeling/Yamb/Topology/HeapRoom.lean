import Yamb.Topology.Deletion
import Yamb.Topology.Model

/-!
# The graph of a room in memory

`OnNodesMapDiff` on the units that are allocated, with the pointers that it follows.

* `findInGraph`, `findInGraphWithParents`, `findInGraphByChain`: `NodeGraph.cpp`;
* `HeapRoom`, `createRoomUnit`, `onNodesMapDiff`: `RoomManager.cpp`;
* `IsTree`, `IsTree.isDag`: the units form a tree, and `Lvl` is the depth below the root;
* `IsTree.new`, `IsTree.delete`: so it is with a new unit, and without a deleted one;
* **`run_isTree`**: so it is after every sequence of differences, and no freed unit is used.
-/

set_option autoImplicit false

namespace Yamb

namespace UnitHeap

/-- The first pointer that a loop over `Childs` returns. -/
def firstOf (f : Ptr → Except HeapFault (Option Ptr)) : List Ptr → Except HeapFault (Option Ptr)
  | [] => .ok none
  | child :: childs => do
    match ← f child with
    | some result => return some result
    | none => firstOf f childs

def findInGraph : ℕ → UnitHeap → Ptr → PeerId → Except HeapFault (Option Ptr)
  | 0, _, _, _ => .error .outOfFuel
  | fuel + 1, H, root, searchId => do
    let u ← H.read root
    if u.id = searchId then return some root
    else firstOf (fun child => findInGraph fuel H child searchId) u.childs

/-- Each id is looked for below the unit found for the one before. -/
def findInTurn (fuel : ℕ) (H : UnitHeap) : Ptr → List PeerId → Except HeapFault (Option Ptr)
  | result, [] => .ok (some result)
  | result, searchId :: searchIds => do
    match ← findInGraph fuel H result searchId with
    | none => return none
    | some result => findInTurn fuel H result searchIds

def findInGraphWithParents (fuel : ℕ) (H : UnitHeap) (root : Ptr) (parentSearchIds : List PeerId)
    (searchId : PeerId) : Except HeapFault (Option Ptr) :=
  findInTurn fuel H root (parentSearchIds.reverse ++ [searchId])

/-- `std::find_if` over `Childs`. -/
def findChild (H : UnitHeap) (searchId : PeerId) (childs : List Ptr) :
    Except HeapFault (Option Ptr) :=
  firstOf (fun x => do
    let c ← H.read x
    return if c.id = searchId then some x else none) childs

/-- Each id is looked for among the children of the unit found for the one before, the id of the
root is passed over. -/
def followChain (H : UnitHeap) (root : Ptr) : Ptr → List PeerId → Except HeapFault (Option Ptr)
  | result, [] => .ok (some result)
  | result, searchId :: searchIds => do
    let r ← H.read root
    if r.id = searchId then followChain H root result searchIds
    else
      let u ← H.read result
      match ← findChild H searchId u.childs with
      | some result => followChain H root result searchIds
      | none => return none

def findInGraphByChain (H : UnitHeap) (root : Ptr) (searchIds : List PeerId) :
    Except HeapFault (Option Ptr) := followChain H root root searchIds.reverse

/-- `new NodeUnit`, linked with its parent in both directions. -/
def newNodeUnit (H : UnitHeap) (parent : Ptr) (lvl : ℤ) (id : PeerId) :
    Except HeapFault UnitHeap := do
  let p := H.nextPtr
  let H := { H with nextPtr := p + 1 }.write p ⟨lvl, id, [parent], []⟩
  let u ← H.read parent
  return H.write parent { u with childs := u.childs ++ [p] }

end UnitHeap

/-- The members of `RoomUnit` that hold units. -/
structure HeapRoom where
  nPeersInRoom : ℕ
  iamRoot : Ptr
  nodeUnitsGraphRoots : List Ptr
  heap : UnitHeap

namespace HeapRoom

def createRoomUnit (myId : PeerId) : HeapRoom where
  nPeersInRoom := 1
  iamRoot := 0
  nodeUnitsGraphRoots := []
  heap := ⟨fun p => if p = 0 then some ⟨-1, myId, [], []⟩ else none, 1, []⟩

/-- `mylvl - Lvl == 1`: the subtraction is unsigned. -/
def IsBelow (mylvl : ℕ) (lvl : ℤ) : Prop := (mylvl - lvl) % 2 ^ 32 = 1

instance (mylvl : ℕ) (lvl : ℤ) : Decidable (IsBelow mylvl lvl) := inferInstanceAs (Decidable (_ = _))

/-- The loop body of `OnNodesMapDiff` for connected units. -/
def connectUnit (mylvl : ℕ) (RU : HeapRoom) (mapDiffUnit : NodesMapDiffUnit) :
    Except HeapFault HeapRoom :=
  if mapDiffUnit.parentIds = [] then do
    let root ← RU.heap.read RU.iamRoot
    if ¬ IsBelow mylvl root.lvl then throw .assertFailed
    else if mylvl ≠ 0 then throw .assertFailed
    else
      let heap ← RU.heap.newNodeUnit RU.iamRoot mylvl mapDiffUnit.id
      return { RU with
        heap := heap
        nodeUnitsGraphRoots := RU.nodeUnitsGraphRoots ++ [RU.heap.nextPtr] }
  else do
    match ← RU.heap.findInGraphByChain RU.iamRoot mapDiffUnit.parentIds with
    | some foundNode =>
      let u ← RU.heap.read foundNode
      if ¬ IsBelow mylvl u.lvl then throw .assertFailed
      else
        let heap ← RU.heap.newNodeUnit foundNode mylvl mapDiffUnit.id
        return { RU with heap := heap }
    | none => throw .assertFailed

/-- The loop body of `OnNodesMapDiff` for disconnected units. -/
def disconnectUnit (fuel : ℕ) (RU : HeapRoom) (mapDiffUnit : NodesMapDiffUnit) :
    Except HeapFault HeapRoom := do
  let root ← RU.heap.findInGraphWithParents fuel RU.iamRoot mapDiffUnit.parentIds mapDiffUnit.id
  let heap ← RU.heap.deleteNodeFromGraph fuel root
  return { RU with
    heap := heap
    nodeUnitsGraphRoots :=
      if mapDiffUnit.parentIds = [] then RU.nodeUnitsGraphRoots.filter fun p => some p ≠ root
      else RU.nodeUnitsGraphRoots }

def connectLvl (RU : HeapRoom) (pair : ℤ × List NodesMapDiffUnit) : Except HeapFault HeapRoom :=
  pair.2.foldlM (connectUnit (clampLvl pair.1))
    { RU with nPeersInRoom := (RU.nPeersInRoom + pair.2.length) % 2 ^ 64 }

def disconnectLvl (fuel : ℕ) (RU : HeapRoom) (pair : ℤ × List NodesMapDiffUnit) :
    Except HeapFault HeapRoom :=
  pair.2.foldlM (disconnectUnit fuel)
    { RU with nPeersInRoom := ((RU.nPeersInRoom - pair.2.length : ℤ) % 2 ^ 64).toNat }

/-- `OnNodesMapDiff`, with a bound on the depth of the recursions. -/
def onNodesMapDiff (fuel : ℕ) (RU : HeapRoom) (diff : NodesMapDiff) : Except HeapFault HeapRoom := do
  let RU ← diff.connectedBylvls.foldlM connectLvl RU
  diff.disconnectedBylvls.foldlM (disconnectLvl fuel) RU

end HeapRoom

/-! ### Trees -/

namespace UnitHeap

/-- The units are those of a tree with the levels of a room: all but the root have one parent, on
the level above, in whose list they are; the children of a unit are allocated, each is listed once,
and has the unit for its parent. -/
structure IsTree (H : UnitHeap) (root : Ptr) (myId : PeerId) : Prop where
  root_cell : ∃ childs, H.cells root = some ⟨-1, myId, [], childs⟩
  parent : ∀ p c, H.cells p = some c → p ≠ root →
    ∃ r cr, c.parents = [r] ∧ H.cells r = some cr ∧ p ∈ cr.childs ∧ c.lvl = cr.lvl + 1
  childs : ∀ p c, H.cells p = some c →
    c.childs.Nodup ∧ ∀ q ∈ c.childs, ∃ cq, H.cells q = some cq ∧ cq.parents = [p]
  lvl : ∀ p c, H.cells p = some c → -1 ≤ c.lvl ∧ c.lvl ≤ maxLvl
  fresh : ∀ p, H.nextPtr ≤ p → H.cells p = none

variable {H H' : UnitHeap} {root p q r : Ptr} {myId x : PeerId} {c cq cr : UnitCell} {fuel : ℕ}
  {ids : List PeerId} {result : Option Ptr}

theorem IsTree.ne_root (h : H.IsTree root myId) (hp : H.cells p = some c) (hr : r ∈ c.parents) :
    p ≠ root := by
  rintro rfl
  obtain ⟨childs, hroot⟩ := h.root_cell
  obtain rfl := Option.some.inj (hroot.symm.trans hp)
  exact List.not_mem_nil hr

/-- A child is one level below. -/
theorem IsTree.lvl_child (h : H.IsTree root myId) (hp : H.cells p = some c) (hq : q ∈ c.childs) :
    ∃ cq, H.cells q = some cq ∧ cq.parents = [p] ∧ cq.lvl = c.lvl + 1 := by
  obtain ⟨cq, hcq, hpar⟩ := (h.childs p c hp).2 q hq
  have hne := h.ne_root (r := p) hcq (by rw [hpar]; exact List.mem_singleton_self p)
  obtain ⟨r, cr, hpar', hcr, -, hlvl⟩ := h.parent q cq hcq hne
  obtain rfl : p = r := List.head_eq_of_cons_eq (hpar.symm.trans hpar')
  obtain rfl := Option.some.inj (hp.symm.trans hcr)
  exact ⟨cq, hcq, hpar, hlvl⟩

theorem IsTree.linked (h : H.IsTree root myId) (p q : Ptr) :
    q ∈ H.childs p ↔ p ∈ H.parents q := by
  constructor
  · intro hq
    obtain ⟨c, hp⟩ := Option.ne_none_iff_exists'.mp (live_of_mem_childs hq)
    rw [childs_of_cells hp] at hq
    obtain ⟨cq, hcq, hpar⟩ := (h.childs p c hp).2 q hq
    rw [parents_of_cells hcq, hpar]
    exact List.mem_singleton_self p
  · intro hp
    obtain ⟨cq, hcq⟩ := Option.ne_none_iff_exists'.mp (live_of_mem_parents hp)
    rw [parents_of_cells hcq] at hp
    obtain ⟨r, cr, hpar, hcr, hq, -⟩ := h.parent q cq hcq (h.ne_root hcq hp)
    rw [hpar, List.mem_singleton] at hp
    rw [hp, childs_of_cells hcr]
    exact hq

/-- How far a unit is from the last level. -/
def depth (H : UnitHeap) (p : Ptr) : ℕ := (2 - ((H.cells p).map UnitCell.lvl).getD 3).toNat

theorem depth_of_cells (hp : H.cells p = some c) : H.depth p = (2 - c.lvl).toNat := by
  rw [depth, hp]
  rfl

theorem IsTree.depth_lt (h : H.IsTree root myId) (hq : q ∈ H.childs p) : H.depth q < H.depth p := by
  obtain ⟨c, hp⟩ := Option.ne_none_iff_exists'.mp (live_of_mem_childs hq)
  rw [childs_of_cells hp] at hq
  obtain ⟨cq, hcq, -, hlvl⟩ := h.lvl_child hp hq
  have hle := (h.lvl q cq hcq).2
  unfold maxLvl at hle
  rw [depth_of_cells hp, depth_of_cells hcq]
  omega

theorem IsTree.reachable (h : H.IsTree root myId) (hp : H.cells p = some c) :
    Relation.ReflTransGen H.Child root p := by
  induction hn : (c.lvl + 1).toNat using Nat.strong_induction_on generalizing p c with
  | _ n ih =>
    by_cases hne : p = root
    · rw [hne]
    · obtain ⟨r, cr, -, hcr, hmem, hlvl⟩ := h.parent p c hp hne
      have hlow := (h.lvl r cr hcr).1
      have hchild : H.Child r p := by
        rw [Child, childs_of_cells hcr]
        exact hmem
      exact (ih _ (by omega) hcr rfl).tail hchild

/-- **A tree is a graph without cycles** below its root. -/
theorem IsTree.isDag (h : H.IsTree root myId) : H.IsDag root where
  finite := by
    refine (Set.finite_lt_nat H.nextPtr).subset fun p hp => ?_
    by_contra hge
    exact hp (h.fresh p (Nat.le_of_not_lt hge))
  root_live := by
    obtain ⟨childs, hroot⟩ := h.root_cell
    rw [hroot]
    exact Option.some_ne_none _
  linked := h.linked
  childs_nodup := by
    intro p
    cases hp : H.cells p with
    | none =>
      rw [UnitHeap.childs, hp]
      exact List.nodup_nil
    | some c =>
      rw [childs_of_cells hp]
      exact (h.childs p c hp).1
  parents_nodup := by
    intro p
    cases hp : H.cells p with
    | none =>
      rw [parents, hp]
      exact List.nodup_nil
    | some c =>
      rw [parents_of_cells hp]
      by_cases hne : p = root
      · obtain ⟨childs, hroot⟩ := h.root_cell
        rw [hne] at hp
        obtain rfl := Option.some.inj (hroot.symm.trans hp)
        exact List.nodup_nil
      · obtain ⟨r, cr, hpar, -⟩ := h.parent p c hp hne
        rw [hpar]
        exact List.nodup_singleton r
  acyclic := by
    have hlt : ∀ p q, Relation.TransGen H.Child p q → H.depth q < H.depth p := by
      intro p q hpq
      induction hpq with
      | single hpq => exact h.depth_lt hpq
      | tail _ hpq ih => exact (h.depth_lt hpq).trans ih
    exact fun p hp => Nat.lt_irrefl _ (hlt p p hp)
  reachable := by
    intro p hp
    obtain ⟨c, hc⟩ := Option.ne_none_iff_exists'.mp hp
    exact h.reachable hc

/-! ### Searches -/

/-- A loop that returns comes from one of the children. -/
theorem exists_firstOf {f : Ptr → Except HeapFault (Option Ptr)} {P : Ptr → Prop} {l : List Ptr}
    (hf : ∀ y ∈ l, ∃ res, f y = .ok res ∧ ∀ z, res = some z → P z) :
    ∃ res, firstOf f l = .ok res ∧ ∀ z, res = some z → P z := by
  induction l with
  | nil => exact ⟨none, rfl, fun z hz => by cases hz⟩
  | cons y l ih =>
    obtain ⟨res, hres, hP⟩ := hf y List.mem_cons_self
    rw [firstOf, hres]
    cases res with
    | some z => exact ⟨some z, rfl, hP⟩
    | none => exact ih fun y hy => hf y (List.mem_cons_of_mem _ hy)

/-- **The search** comes to its end, and what it finds has the id. -/
theorem IsTree.exists_findInGraph (h : H.IsTree root myId) (hp : H.cells p = some c)
    (hfuel : H.depth p < fuel) (x : PeerId) : ∃ res, findInGraph fuel H p x = .ok res ∧
      ∀ z, res = some z → ∃ cz, H.cells z = some cz ∧ cz.id = x := by
  induction fuel generalizing p c with
  | zero => exact absurd hfuel (Nat.not_lt_zero _)
  | succ fuel ih =>
    rw [findInGraph, read_of_cells hp]
    show ∃ res, (if c.id = x then _ else _) = _ ∧ _
    split_ifs with hx
    · refine ⟨some p, rfl, fun z hz => ?_⟩
      obtain rfl := Option.some.inj hz
      exact ⟨c, hp, hx⟩
    · refine exists_firstOf fun y hy => ?_
      obtain ⟨cy, hcy, -⟩ := h.lvl_child hp hy
      have hlt := h.depth_lt (p := p) (q := y) (by rwa [childs_of_cells hp])
      exact ih hcy (by omega)

theorem IsTree.depth_le (h : H.IsTree root myId) (hp : H.cells p = some c) :
    H.depth p < maxLvl + 2 := by
  have hlow := (h.lvl p c hp).1
  rw [depth_of_cells hp]
  unfold maxLvl
  omega

theorem IsTree.exists_findInTurn (h : H.IsTree root myId) (hfuel : maxLvl + 2 ≤ fuel)
    (hp : H.cells p = some c) (ids : List PeerId) (x : PeerId) :
    ∃ res, findInTurn fuel H p (ids ++ [x]) = .ok res ∧
      ∀ z, res = some z → ∃ cz, H.cells z = some cz ∧ cz.id = x := by
  induction ids generalizing p c with
  | nil =>
    obtain ⟨res, hres, hfound⟩ := h.exists_findInGraph hp ((h.depth_le hp).trans_le hfuel) x
    refine ⟨res, ?_, hfound⟩
    rw [List.nil_append, findInTurn, hres]
    cases res <;> rfl
  | cons y ids ih =>
    obtain ⟨res, hres, hfound⟩ := h.exists_findInGraph hp ((h.depth_le hp).trans_le hfuel) y
    rw [List.cons_append, findInTurn, hres]
    cases res with
    | none => exact ⟨none, rfl, fun z hz => by cases hz⟩
    | some z =>
      obtain ⟨cz, hcz, -⟩ := hfound z rfl
      exact ih hcz

theorem IsTree.exists_followChain (h : H.IsTree root myId) (hp : H.cells p = some c)
    (ids : List PeerId) : ∃ res, followChain H root p ids = .ok res ∧
      ∀ z, res = some z → H.cells z ≠ none := by
  induction ids generalizing p c with
  | nil =>
    refine ⟨some p, rfl, fun z hz => ?_⟩
    obtain rfl := Option.some.inj hz
    rw [hp]
    exact Option.some_ne_none c
  | cons y ids ih =>
    obtain ⟨childs, hroot⟩ := h.root_cell
    rw [followChain, read_of_cells hroot]
    show ∃ res, (if myId = y then _ else _) = _ ∧ _
    split_ifs with hy
    · exact ih hp
    · rw [read_of_cells hp]
      have hfind : ∃ res, findChild H y c.childs = .ok res ∧
          ∀ z, res = some z → H.cells z ≠ none := by
        refine exists_firstOf fun w hw => ?_
        obtain ⟨cw, hcw, -⟩ := h.lvl_child hp hw
        rw [read_of_cells hcw]
        refine ⟨if cw.id = y then some w else none, rfl, fun z hz => ?_⟩
        split_ifs at hz
        obtain rfl := Option.some.inj hz
        rw [hcw]
        exact Option.some_ne_none cw
      obtain ⟨res, hres, hlive⟩ := hfind
      simp only [bind, Except.bind, hres]
      cases res with
      | none => exact ⟨none, rfl, fun z hz => by cases hz⟩
      | some z =>
        obtain ⟨cz, hcz⟩ := Option.ne_none_iff_exists'.mp (hlive z rfl)
        exact ih hcz

/-! ### A new unit -/

/-- A unit, with the next address in its list if it is the parent of the new unit. -/
def withChild (H : UnitHeap) (parent p : Ptr) (c : UnitCell) : UnitCell :=
  { c with childs := if p = parent then c.childs ++ [H.nextPtr] else c.childs }

theorem mem_withChild {parent : Ptr} (hq : q ∈ c.childs) : q ∈ (H.withChild parent p c).childs := by
  unfold withChild
  split_ifs
  · exact List.mem_append_left _ hq
  · exact hq

/-- The units after `new`: the unit `u` at the next address, and its parent with one more child. -/
structure Sprouts (H H' : UnitHeap) (parent : Ptr) (u : UnitCell) : Prop where
  next : H'.nextPtr = H.nextPtr + 1
  new : H'.cells H.nextPtr = some u
  cells : ∀ p, p ≠ H.nextPtr → H'.cells p = (H.cells p).map (H.withChild parent p)

theorem newNodeUnit_of_cells (hp : H.cells p = some c) (hfresh : p ≠ H.nextPtr) (lvl : ℤ)
    (id : PeerId) : ∃ H', H.newNodeUnit p lvl id = .ok H' ∧ Sprouts H H' p ⟨lvl, id, [p], []⟩ := by
  have hread : ({ H with nextPtr := H.nextPtr + 1 }.write H.nextPtr ⟨lvl, id, [p], []⟩).cells p =
      some c := (Function.update_of_ne hfresh _ _).trans hp
  refine ⟨({ H with nextPtr := H.nextPtr + 1 }.write H.nextPtr ⟨lvl, id, [p], []⟩).write p
    { c with childs := c.childs ++ [H.nextPtr] }, ?_, rfl, ?_, ?_⟩
  · unfold newNodeUnit
    simp only [read_of_cells hread]
    rfl
  · exact (Function.update_of_ne hfresh.symm _ _).trans (Function.update_self _ _ _)
  · intro q hq
    by_cases hqp : q = p
    · rw [hqp, hp, Option.map_some, withChild, if_pos rfl]
      exact Function.update_self _ _ _
    · have hsame : H.withChild p q = fun cq => cq := by
        funext cq
        rw [withChild, if_neg hqp]
      rw [hsame, Option.map_id_apply']
      exact (Function.update_of_ne hqp _ _).trans (Function.update_of_ne hq _ _)

section new

variable {parent : Ptr} {u : UnitCell}

theorem IsTree.ne_nextPtr (h : H.IsTree root myId) (hq : H.cells q = some cq) : q ≠ H.nextPtr := by
  rintro rfl
  exact Option.some_ne_none cq (hq.symm.trans (h.fresh _ le_rfl))

theorem Sprouts.stays (hs : Sprouts H H' parent u) (h : H.IsTree root myId)
    (hq : H.cells q = some cq) : H'.cells q = some (H.withChild parent q cq) := by
  rw [hs.cells q (h.ne_nextPtr hq), hq, Option.map_some]

/-- A unit is the new one, or was there. -/
theorem Sprouts.cases (hs : Sprouts H H' parent u) (hq : H'.cells q = some cq) :
    q = H.nextPtr ∧ cq = u ∨ ∃ c, H.cells q = some c ∧ cq = H.withChild parent q c := by
  by_cases hqn : q = H.nextPtr
  · rw [hqn, hs.new] at hq
    exact .inl ⟨hqn, (Option.some.inj hq).symm⟩
  · rw [hs.cells q hqn] at hq
    obtain ⟨c, hc, rfl⟩ := Option.map_eq_some_iff.mp hq
    exact .inr ⟨c, hc, rfl⟩

/-- The children of a unit that was there. -/
theorem Sprouts.childs (hs : Sprouts H H' parent u) (hu : u.parents = [parent])
    (h : H.IsTree root myId) (hp : H.cells p = some c) :
    (H.withChild parent p c).childs.Nodup ∧
      ∀ q ∈ (H.withChild parent p c).childs, ∃ cq, H'.cells q = some cq ∧ cq.parents = [p] := by
  obtain ⟨hnd, hall⟩ := h.childs p c hp
  have hkept : ∀ q ∈ c.childs, ∃ cq, H'.cells q = some cq ∧ cq.parents = [p] := by
    intro q hq
    obtain ⟨cq, hcq, hpar⟩ := hall q hq
    exact ⟨_, hs.stays h hcq, hpar⟩
  by_cases hpp : p = parent
  · rw [withChild, if_pos hpp]
    constructor
    · refine hnd.append (List.nodup_singleton _) (List.disjoint_singleton.mpr fun hin => ?_)
      obtain ⟨cq, hcq, -⟩ := hall _ hin
      exact h.ne_nextPtr hcq rfl
    · intro q hq
      rcases List.mem_append.mp hq with hq | hq
      · exact hkept q hq
      · rw [List.mem_singleton.mp hq]
        exact ⟨u, hs.new, by rw [hu, hpp]⟩
  · rw [withChild, if_neg hpp]
    exact ⟨hnd, hkept⟩

/-- **A new unit** on the level below its parent. -/
theorem IsTree.new (h : H.IsTree root myId) (hp : H.cells p = some c) {lvl : ℕ}
    (hlvl : (lvl : ℤ) = c.lvl + 1) (hmax : lvl ≤ maxLvl) (id : PeerId) :
    ∃ H', H.newNodeUnit p lvl id = .ok H' ∧ H'.IsTree root myId := by
  obtain ⟨H', hnew, hs⟩ := newNodeUnit_of_cells hp (h.ne_nextPtr hp) lvl id
  refine ⟨H', hnew, ?_, ?_, ?_, ?_, ?_⟩
  · obtain ⟨childs, hroot⟩ := h.root_cell
    exact ⟨_, hs.stays h hroot⟩
  · intro q cq hq hqr
    rcases hs.cases hq with ⟨rfl, rfl⟩ | ⟨cq, hcq, rfl⟩
    · refine ⟨p, _, rfl, hs.stays h hp, ?_, hlvl⟩
      rw [withChild, if_pos rfl]
      exact List.mem_append_right _ (List.mem_singleton_self _)
    · obtain ⟨r, cr, hpar, hcr, hmem, hlvl⟩ := h.parent q cq hcq hqr
      exact ⟨r, _, hpar, hs.stays h hcr, mem_withChild hmem, hlvl⟩
  · intro q cq hq
    rcases hs.cases hq with ⟨-, rfl⟩ | ⟨cq, hcq, rfl⟩
    · exact ⟨List.nodup_nil, fun x hx => absurd hx List.not_mem_nil⟩
    · exact hs.childs rfl h hcq
  · intro q cq hq
    rcases hs.cases hq with ⟨-, rfl⟩ | ⟨cq, hcq, rfl⟩
    · exact ⟨by show (-1 : ℤ) ≤ lvl; omega, Int.ofNat_le.mpr hmax⟩
    · exact h.lvl q cq hcq
  · intro q hq
    rw [hs.next] at hq
    rw [hs.cells q (Nat.ne_of_gt hq), h.fresh q (Nat.le_of_succ_le hq), Option.map_none]

end new

/-! ### Without a unit -/

/-- **A unit is deleted** with all that is below it. -/
theorem IsTree.delete (h : H.IsTree root myId) (hp : H.cells p ≠ none) (hne : p ≠ root)
    (hfuel : maxLvl + 2 ≤ fuel) :
    ∃ H', deleteNodeFromGraph fuel H (some p) = .ok H' ∧ H'.IsTree root myId := by
  obtain ⟨c, hc⟩ := Option.ne_none_iff_exists'.mp hp
  obtain ⟨H', L, hdel, hr⟩ := h.isDag.exists_removes hp H.depth (fun _ _ => h.depth_lt)
    ((h.depth_le hc).trans_le hfuel)
  have hcells := h.isDag.cells_removes hr
  have hback : ∀ q cq', H'.cells q = some cq' → q ∉ L ∧ ∃ cq, H.cells q = some cq ∧
      cq' = { cq with
        parents := cq.parents.filter fun r => decide (r ∉ L)
        childs := cq.childs.filter fun r => decide (r ∉ L) } := by
    intro q cq' hq
    rw [hcells q] at hq
    split_ifs at hq with hqL
    obtain ⟨cq, hcq, rfl⟩ := Option.map_eq_some_iff.mp hq
    exact ⟨hqL, cq, hcq, rfl⟩
  have hstay : ∀ q cq, H.cells q = some cq → q ∉ L → H'.cells q = some { cq with
      parents := cq.parents.filter fun r => decide (r ∉ L)
      childs := cq.childs.filter fun r => decide (r ∉ L) } := by
    intro q cq hq hqL
    rw [hcells q, if_neg hqL, hq, Option.map_some]
  have hroot : root ∉ L := fun hin => (hr.orphans root hin hne.symm).1 h.isDag.parents_root
  -- a unit that stays has a parent that stays
  have hkept : ∀ q cq r, H.cells q = some cq → q ∉ L → cq.parents = [r] →
      r ∉ L ∧ cq.parents.filter (fun r => decide (r ∉ L)) = [r] := by
    intro q cq r hq hqL hpar
    obtain ⟨r', hr', hrL⟩ := hr.kept q hqL (by rw [parents_of_cells hq, hpar]; exact List.cons_ne_nil r [])
    rw [parents_of_cells hq, hpar, List.mem_singleton] at hr'
    rw [hr'] at hrL
    refine ⟨hrL, ?_⟩
    rw [hpar, List.filter_singleton, decide_eq_true hrL]
    rfl
  refine ⟨H', hdel, ?_, ?_, ?_, ?_, ?_⟩
  · obtain ⟨childs, hcr⟩ := h.root_cell
    exact ⟨_, hstay root _ hcr hroot⟩
  · intro q cq' hq hqr
    obtain ⟨hqL, cq, hcq, rfl⟩ := hback q cq' hq
    obtain ⟨r, cr, hpar, hcr, hmem, hlvl⟩ := h.parent q cq hcq hqr
    obtain ⟨hrL, hfilter⟩ := hkept q cq r hcq hqL hpar
    exact ⟨r, _, hfilter, hstay r cr hcr hrL, List.mem_filter.mpr ⟨hmem, decide_eq_true hqL⟩, hlvl⟩
  · intro q cq' hq
    obtain ⟨hqL, cq, hcq, rfl⟩ := hback q cq' hq
    obtain ⟨hnd, hall⟩ := h.childs q cq hcq
    refine ⟨hnd.filter _, fun x hx => ?_⟩
    obtain ⟨hx, hxL⟩ := List.mem_filter.mp hx
    obtain ⟨cx, hcx, hpx⟩ := hall x hx
    have hxL := of_decide_eq_true hxL
    exact ⟨_, hstay x cx hcx hxL, (hkept x cx q hcx hxL hpx).2⟩
  · intro q cq' hq
    obtain ⟨-, cq, hcq, rfl⟩ := hback q cq' hq
    exact h.lvl q cq hcq
  · intro q hq
    rw [hr.next] at hq
    rw [hcells q, h.fresh q hq, Option.map_none, ite_self]

end UnitHeap

/-! ### Differences -/

namespace HeapRoom

variable {R R' : HeapRoom} {myId : PeerId} {fuel : ℕ} {diff : NodesMapDiff}

/-- The units of the room form a tree below `IamRoot`. -/
def IsTree (R : HeapRoom) (myId : PeerId) : Prop := R.heap.IsTree R.iamRoot myId

theorem create_cells {p : Ptr} {c : UnitCell} :
    (createRoomUnit myId).heap.cells p = some c ↔ p = 0 ∧ c = ⟨-1, myId, [], []⟩ := by
  show (if p = 0 then some _ else none) = some c ↔ _
  split_ifs with hp
  · rw [Option.some.injEq, and_iff_right hp, eq_comm]
  · exact iff_of_false (fun h => by cases h) fun h => hp h.1

theorem isTree_create (myId : PeerId) : (createRoomUnit myId).IsTree myId where
  root_cell := ⟨[], rfl⟩
  parent := fun p c hp hne => absurd (create_cells.mp hp).1 hne
  childs := by
    intro p c hp
    obtain ⟨-, rfl⟩ := create_cells.mp hp
    exact ⟨List.nodup_nil, fun q hq => absurd hq List.not_mem_nil⟩
  lvl := by
    intro p c hp
    obtain ⟨-, rfl⟩ := create_cells.mp hp
    exact ⟨le_rfl, show (-1 : ℤ) ≤ 2 by decide⟩
  fresh := fun p hp => if_neg (Nat.ne_of_gt hp)

/-- The room is a tree after a call, unless an assert has failed. -/
def Keeps (myId : PeerId) (e : Except HeapFault HeapRoom) : Prop :=
  e = .error .assertFailed ∨ ∃ R, e = .ok R ∧ R.IsTree myId

theorem keeps_foldlM {α : Type} {f : HeapRoom → α → Except HeapFault HeapRoom} {l : List α}
    (hf : ∀ x ∈ l, ∀ R, IsTree R myId → Keeps myId (f R x)) (h : R.IsTree myId) :
    Keeps myId (l.foldlM f R) := by
  induction l generalizing R with
  | nil => exact .inr ⟨R, rfl, h⟩
  | cons x l ih =>
    rw [List.foldlM_cons]
    rcases hf x List.mem_cons_self R h with herr | ⟨R₁, hok, h₁⟩
    · rw [herr]
      exact .inl rfl
    · rw [hok]
      exact ih (fun y hy => hf y (List.mem_cons_of_mem x hy)) h₁

theorem keeps_connectUnit (h : R.IsTree myId) {mylvl : ℕ} (hmax : mylvl ≤ maxLvl)
    (u : NodesMapDiffUnit) : Keeps myId (connectUnit mylvl R u) := by
  have hbelow {p : Ptr} {c : UnitCell} (hp : R.heap.cells p = some c) (hb : IsBelow mylvl c.lvl) :
      (mylvl : ℤ) = c.lvl + 1 := by
    obtain ⟨hlow, hhigh⟩ := h.lvl p c hp
    unfold IsBelow at hb
    unfold maxLvl at hmax hhigh
    omega
  unfold connectUnit
  by_cases hpids : u.parentIds = []
  · rw [if_pos hpids]
    obtain ⟨childs, hroot⟩ := h.root_cell
    rw [UnitHeap.read_of_cells hroot]
    simp only [bind, Except.bind, pure, Except.pure]
    by_cases hb : IsBelow mylvl (-1)
    · rw [if_neg (not_not.mpr hb)]
      by_cases hzero : mylvl ≠ 0
      · rw [if_pos hzero]
        exact .inl rfl
      · obtain ⟨H', hnew, htree⟩ := h.new hroot (hbelow hroot hb) hmax u.id
        rw [if_neg hzero, hnew]
        exact .inr ⟨_, rfl, htree⟩
    · rw [if_pos hb]
      exact .inl rfl
  · rw [if_neg hpids]
    obtain ⟨childs, hroot⟩ := h.root_cell
    obtain ⟨res, hres, hlive⟩ := h.exists_followChain hroot u.parentIds.reverse
    rw [UnitHeap.findInGraphByChain, hres]
    simp only [bind, Except.bind, pure, Except.pure]
    cases res with
    | none => exact .inl rfl
    | some p =>
      obtain ⟨c, hp⟩ := Option.ne_none_iff_exists'.mp (hlive p rfl)
      simp only [UnitHeap.read_of_cells hp]
      by_cases hb : IsBelow mylvl c.lvl
      · obtain ⟨H', hnew, htree⟩ := h.new hp (hbelow hp hb) hmax u.id
        rw [if_neg (not_not.mpr hb), hnew]
        exact .inr ⟨_, rfl, htree⟩
      · rw [if_pos hb]
        exact .inl rfl

/-- What has another id than the root is deleted below the root. -/
theorem keeps_disconnectUnit (hfuel : maxLvl + 2 ≤ fuel) (h : R.IsTree myId)
    (u : NodesMapDiffUnit) (hu : u.id ≠ myId) : Keeps myId (disconnectUnit fuel R u) := by
  obtain ⟨childs, hroot⟩ := h.root_cell
  obtain ⟨res, hres, hfound⟩ := h.exists_findInTurn hfuel hroot u.parentIds.reverse u.id
  have hdel : ∃ H', R.heap.deleteNodeFromGraph fuel res = .ok H' ∧ H'.IsTree R.iamRoot myId := by
    cases res with
    | none =>
      refine ⟨R.heap, ?_, h⟩
      rw [UnitHeap.deleteNodeFromGraph]
    | some p =>
      obtain ⟨c, hp, hid⟩ := hfound p rfl
      refine h.delete (by rw [hp]; exact Option.some_ne_none c) ?_ hfuel
      rintro rfl
      obtain rfl := Option.some.inj (hroot.symm.trans hp)
      exact hu hid.symm
  obtain ⟨H', hdel, htree⟩ := hdel
  have hok : disconnectUnit fuel R u = .ok { R with
      heap := H'
      nodeUnitsGraphRoots :=
        if u.parentIds = [] then R.nodeUnitsGraphRoots.filter fun p => some p ≠ res
        else R.nodeUnitsGraphRoots } := by
    rw [disconnectUnit, UnitHeap.findInGraphWithParents, hres]
    simp only [bind, Except.bind, hdel]
    rfl
  exact .inr ⟨_, hok, htree⟩

/-- No unit carries the id of the root. -/
def OtherIds (myId : PeerId) (diff : NodesMapDiff) : Prop :=
  ∀ pair ∈ diff.connectedBylvls ++ diff.disconnectedBylvls, ∀ u ∈ pair.2, u.id ≠ myId

theorem keeps_onNodesMapDiff (hfuel : maxLvl + 2 ≤ fuel) (h : R.IsTree myId)
    (hids : OtherIds myId diff) : Keeps myId (R.onNodesMapDiff fuel diff) := by
  unfold onNodesMapDiff
  have hconnect : Keeps myId (diff.connectedBylvls.foldlM connectLvl R) :=
    keeps_foldlM (fun pair _ R h => keeps_foldlM
      (fun u _ R h => keeps_connectUnit h (Nat.min_le_right _ _) u) h) h
  rcases hconnect with herr | ⟨R₁, hok, h₁⟩
  · rw [herr]
    exact .inl rfl
  · rw [hok]
    refine keeps_foldlM (fun pair hpair R h => keeps_foldlM (fun u hu R h => ?_) h) h₁
    exact keeps_disconnectUnit hfuel h u (hids pair (List.mem_append_right _ hpair) u hu)

/-- A call in which no unit carries the id of the root and no assert fails. -/
def DiffStep (fuel : ℕ) (myId : PeerId) (R : HeapRoom) (diff : NodesMapDiff) (R' : HeapRoom) :
    Prop := OtherIds myId diff ∧ R.onNodesMapDiff fuel diff = .ok R'

/-- **The room graph stays a levelled tree**, all whose units hang below `IamRoot`; and a further
call ends so again, or with a failed assert, but not at a freed unit. -/
theorem run_isTree (hfuel : maxLvl + 2 ≤ fuel) {ds : List NodesMapDiff}
    (h : Lts.Run (DiffStep fuel myId) (createRoomUnit myId) ds R) :
    R.IsTree myId ∧ R.heap.IsDag R.iamRoot ∧
      (∀ p, Relation.ReflTransGen R.heap.Child R.iamRoot p ↔ R.heap.cells p ≠ none) ∧
      ∀ diff, OtherIds myId diff → Keeps myId (R.onNodesMapDiff fuel diff) := by
  have htree : R.IsTree myId := by
    refine h.invariant (I := fun R => R.IsTree myId) (isTree_create myId) fun R diff R' hR he => ?_
    obtain ⟨hids, hcall⟩ := he
    rcases keeps_onNodesMapDiff hfuel hR hids with herr | ⟨R₁, hok, h₁⟩
    · rw [herr] at hcall
      cases hcall
    · obtain rfl : R₁ = R' := Except.ok.inj (hok.symm.trans hcall)
      exact h₁
  refine ⟨htree, htree.isDag, fun p => ⟨fun hp => ?_, htree.isDag.reachable p⟩, fun diff =>
    keeps_onNodesMapDiff hfuel htree⟩
  rcases Relation.ReflTransGen.cases_tail hp with rfl | ⟨r, -, hr⟩
  · exact htree.isDag.root_live
  · exact htree.isDag.live_of_child hr

/-- Two units are connected, one below the other, and the upper one is disconnected again. -/
theorem run_isTree_two : ∃ R, Lts.Run (DiffStep 4 "me") (createRoomUnit "me")
    [⟨[(0, [⟨"a", ["me"]⟩]), (1, [⟨"b", ["a", "me"]⟩])], [(0, [⟨"a", ["me"]⟩])]⟩] R ∧
    R.heap.freed = [2, 1] ∧ R.IsTree "me" := by
  let diff : NodesMapDiff :=
    ⟨[(0, [⟨"a", ["me"]⟩]), (1, [⟨"b", ["a", "me"]⟩])], [(0, [⟨"a", ["me"]⟩])]⟩
  have hfreed : (((createRoomUnit "me").onNodesMapDiff 4 diff).map fun R => R.heap.freed) =
      .ok [2, 1] := by decide +kernel
  cases hcall : (createRoomUnit "me").onNodesMapDiff 4 diff with
  | error F =>
    rw [hcall] at hfreed
    cases hfreed
  | ok R =>
    rw [hcall] at hfreed
    have hrun : Lts.Run (DiffStep 4 "me") (createRoomUnit "me") [diff] R :=
      .single ⟨by unfold OtherIds; decide, hcall⟩
    exact ⟨R, hrun, Except.ok.inj hfreed, (run_isTree (by decide) hrun).1⟩

end HeapRoom

end Yamb
