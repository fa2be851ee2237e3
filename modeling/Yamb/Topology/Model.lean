import Mathlib.Algebra.Group.Int.Defs
import Mathlib.Algebra.Group.Nat.Defs
import Mathlib.Logic.Function.Basic
import Yamb.Lib.RoseTree
import Yamb.Node.Types

/-!
# The topology of a room

What a node knows of the connections in a room, in two forms: the graph of `NodeUnit`s below
`IamRoot` and the arrays of `NodesMap`. Every `NodeUnit` gets one parent and keeps it, so the graph
is a tree, and a path in the tree stands for a `NodeUnit *`.

* `findInGraph`, `findInGraphWithParents`, `findInGraphByChain`, `findInGraphWithoutParents`,
  `fillChain`, `deleteNodeFromGraph`, `collectAllNodeIds`: `NodeGraph.cpp`;
* `addToLvl`, `eraseFromLvl`: `NodesMap_t.cpp`;
* `createRoomMap`, `onNodesMapDiff`, `onNodesMapDiffJson`, `createDiffConnectedBylvls`,
  `createDiffDisconnectedBylvls`: `RoomManager.cpp`;
* `updateNodeMap`: what an incoming map makes of a room, and the difference that is passed on.
-/

set_option autoImplicit false

namespace Yamb

open RoseTree

/-! ### Data -/

/-- A `NodeUnit`; its children and its parent are those of the tree. -/
structure NodeUnit where
  lvl : ℤ
  id : PeerId
  deriving DecidableEq

abbrev NodeGraph : Type := RoseTree NodeUnit

structure NodesMapDiffUnit where
  id : PeerId
  parentIds : List PeerId
  deriving DecidableEq

/-- `std::map<int, std::vector<std::shared_ptr<NodesMapDiffUnit>>>`, in the order of the keys. -/
abbrev UnitsByLvl : Type := List (ℤ × List NodesMapDiffUnit)

structure NodesMapDiff where
  connectedBylvls : UnitsByLvl
  disconnectedBylvls : UnitsByLvl
  deriving DecidableEq

/-- The members of an incoming object, each with its name as `std::atoi` reads it. -/
abbrev IncomingMap : Type := List (ℤ × List NodesMapDiffUnit)

/-- The arrays of `NodesMap_t::Data`, by the number their key is made of. -/
abbrev NodesMap : Type := ℕ → Option (List NodesMapDiffUnit)

/-- The members of `RoomUnit` that describe the topology. -/
structure RoomMap where
  nPeersInRoom : ℕ
  iamRoot : NodeGraph
  nodesMap : NodesMap

/-- A failed assert, an index out of bounds, `IamRoot` freed, memory exhausted. -/
inductive GraphFault
  | assertFailed | outOfBounds | rootFreed | badAlloc
  deriving DecidableEq

def maxLvl : ℕ := 2

/-- `lvl > MAX_LVL ? MAX_LVL : lvl`: the comparison makes the `int` unsigned. -/
def clampLvl (lvl : ℤ) : ℕ := min (lvl % 2 ^ 32).toNat maxLvl

/-! ### `NodeGraph.cpp` -/

/-- `unit->Lvl`. -/
def lvlAt (g : NodeGraph) (π : Path) : ℤ := ((g.get? π).map NodeUnit.lvl).getD 0

def findInGraph (root : NodeGraph) (searchId : PeerId) : Option Path :=
  root.find? fun u => u.id = searchId

/-- Each id is looked for below the unit found for the one before. -/
def findInTurn : NodeGraph → List PeerId → Option Path
  | _, [] => some []
  | root, searchId :: searchIds => do
    let π ← findInGraph root searchId
    let result ← root.sub π
    let ρ ← findInTurn result searchIds
    return π ++ ρ

def findInGraphWithParents (root : NodeGraph) (parentSearchIds : List PeerId) (searchId : PeerId) :
    Option Path := findInTurn root (parentSearchIds.reverse ++ [searchId])

/-- Each id is looked for among the children of the unit found for the one before, the id of the
root is passed over. -/
def followChain (rootId : PeerId) : NodeGraph → List PeerId → Option Path
  | _, [] => some []
  | result, searchId :: searchIds =>
    if rootId = searchId then followChain rootId result searchIds
    else do
      let i ← result.children.findIdx? fun x => x.value.id = searchId
      let child ← result.children[i]?
      let ρ ← followChain rootId child searchIds
      return i :: ρ

def findInGraphByChain (root : NodeGraph) (searchIds : List PeerId) : Option Path :=
  followChain root.value.id root searchIds.reverse

/-- `position - 1`: a `size_t`, and `0 - 1` wraps. -/
def sizePred (position : ℕ) : ℕ := if position = 0 then 2 ^ 64 - 1 else position - 1

mutual

def findInGraphWithoutParentsInternal (parentNotSearchIds : List PeerId) (searchId : PeerId) :
    NodeGraph → ℕ → Except GraphFault (Option Path)
  | .node u childs, position =>
    if u.id = searchId then .ok (some [])
    else findInChilds parentNotSearchIds searchId childs position

/-- The loop over the children. -/
def findInChilds (parentNotSearchIds : List PeerId) (searchId : PeerId) :
    List NodeGraph → ℕ → Except GraphFault (Option Path)
  | [], _ => .ok none
  | child :: childs, position =>
    match parentNotSearchIds[position]? with
    | none => .error .outOfBounds
    | some parentNotSearchId =>
      let rest := (findInChilds parentNotSearchIds searchId childs position).map
        (Option.map (List.modifyHead (· + 1)))
      if child.value.id = parentNotSearchId then rest
      else
        let newpos := sizePred position
        let found := if 0 < newpos then
            findInGraphWithoutParentsInternal parentNotSearchIds searchId child newpos
          else .ok (findInGraph child searchId)
        match found with
        | .error f => .error f
        | .ok (some π) => .ok (some (0 :: π))
        | .ok none => rest

end

def findInGraphWithoutParents (root : NodeGraph) (parentNotSearchIds : List PeerId)
    (searchId : PeerId) : Except GraphFault (Option Path) :=
  if parentNotSearchIds ≠ [] then
    findInGraphWithoutParentsInternal parentNotSearchIds searchId root
      (parentNotSearchIds.length - 1)
  else .ok (findInGraph root searchId)

/-- The one chain of a unit, which has one parent: the parent, and the parent of the parent if there
is one. `IamRoot` has no chain. -/
def fillChain (root : NodeGraph) (π : Path) : Option (List PeerId) :=
  match π.getLast? with
  | none => none
  | some _ => some (((parents root π).take 2).map NodeUnit.id)
where
  /-- From the parent up to the root. -/
  parents : NodeGraph → Path → List NodeUnit
    | _, [] => []
    | g, i :: π =>
      match g.children[i]? with
      | none => []
      | some c => parents c π ++ [g.value]

/-- The children of a deleted unit lose their only parent and are deleted with it. -/
def deleteNodeFromGraph (root : NodeGraph) : Option Path → Except GraphFault NodeGraph
  | none => .ok root
  | some [] => .error .rootFreed
  | some (i :: π) => .ok (root.erase (i :: π))

mutual

def collectAllNodeIds (result : List PeerId) : NodeGraph → List PeerId
  | .node _ childs => collectChilds result childs

def collectChilds (result : List PeerId) : List NodeGraph → List PeerId
  | [] => result
  | child :: childs =>
    if child.value.id ∈ result then collectChilds result childs
    else collectChilds (collectAllNodeIds (result ++ [child.value.id]) child) childs

end

/-! ### `NodesMap_t.cpp` -/

/-- A unit whose id is there already is not added; the longer `ParentIds` go to a copy. -/
def addUnit (arr : List NodesMapDiffUnit) (du : NodesMapDiffUnit) : List NodesMapDiffUnit :=
  if arr.any fun x => x.id = du.id then arr else arr ++ [du]

def addToLvl (nm : NodesMap) (lvl : ℕ) (nodesMapDiffUnits : List NodesMapDiffUnit) : NodesMap :=
  Function.update nm lvl (some (nodesMapDiffUnits.foldl addUnit ((nm lvl).getD [])))

/-- `substract_json_arrays` takes out what equals a unit of the group. -/
def eraseFromLvl (nm : NodesMap) (lvl : ℕ) (nodesMapDiffUnits : List NodesMapDiffUnit) : NodesMap :=
  match nm lvl with
  | none => nm
  | some arr => Function.update nm lvl (some (arr.filter fun x => x ∉ nodesMapDiffUnits))

/-! ### `RoomManager.cpp` -/

/-- `createRoomUnit`. -/
def createRoomMap (myId : PeerId) : RoomMap where
  nPeersInRoom := 1
  iamRoot := .node ⟨-1, myId⟩ []
  nodesMap := fun lvl => if lvl ≤ 1 then some [] else none

/-- `new NodeUnit`, which becomes the last child: there are fewer units than addresses. -/
def newNodeUnit (root : NodeGraph) (parent : Path) (u : NodeUnit) : Except GraphFault NodeGraph :=
  if root.values.length + 1 < 2 ^ 64 then .ok (root.push (.node u []) parent)
  else .error .badAlloc

/-- The loop body of `OnNodesMapDiff` for connected units. -/
def connectUnit (root : NodeGraph) (mylvl : ℕ) (mapDiffUnit : NodesMapDiffUnit) :
    Except GraphFault NodeGraph :=
  if mapDiffUnit.parentIds = [] then
    if mylvl - root.value.lvl ≠ 1 then .error .assertFailed
    else if mylvl ≠ 0 then .error .assertFailed
    else newNodeUnit root [] ⟨mylvl, mapDiffUnit.id⟩
  else
    match findInGraphByChain root mapDiffUnit.parentIds with
    | some foundNode =>
      if mylvl - lvlAt root foundNode ≠ 1 then .error .assertFailed
      else newNodeUnit root foundNode ⟨mylvl, mapDiffUnit.id⟩
    | none => .error .assertFailed

/-- The loop body of `OnNodesMapDiff` for disconnected units. -/
def disconnectUnit (root : NodeGraph) (mapDiffUnit : NodesMapDiffUnit) :
    Except GraphFault NodeGraph :=
  deleteNodeFromGraph root (findInGraphWithParents root mapDiffUnit.parentIds mapDiffUnit.id)

namespace RoomMap

def connectLvl (RU : RoomMap) (pair : ℤ × List NodesMapDiffUnit) : Except GraphFault RoomMap := do
  let root ← pair.2.foldlM (fun root u => connectUnit root (clampLvl pair.1) u) RU.iamRoot
  return { RU with
    nPeersInRoom := (RU.nPeersInRoom + pair.2.length) % 2 ^ 64
    iamRoot := root }

/-- The unsigned subtraction wraps. -/
def disconnectLvl (RU : RoomMap) (pair : ℤ × List NodesMapDiffUnit) :
    Except GraphFault RoomMap := do
  let root ← pair.2.foldlM disconnectUnit RU.iamRoot
  return { RU with
    nPeersInRoom := ((RU.nPeersInRoom - pair.2.length : ℤ) % 2 ^ 64).toNat
    iamRoot := root }

/-- `OnNodesMapDiff`. -/
def onNodesMapDiff (RU : RoomMap) (diff : NodesMapDiff) : Except GraphFault RoomMap := do
  let RU ← diff.connectedBylvls.foldlM connectLvl RU
  diff.disconnectedBylvls.foldlM disconnectLvl RU

/-- `OnNodesMapDiffJson`. -/
def onNodesMapDiffJson (RU : RoomMap) (diff : NodesMapDiff) : RoomMap :=
  let nm := diff.connectedBylvls.foldl (fun nm pair => addToLvl nm (clampLvl pair.1) pair.2)
    RU.nodesMap
  { RU with
    nodesMap := diff.disconnectedBylvls.foldl
      (fun nm pair => eraseFromLvl nm (clampLvl pair.1) pair.2) nm }

end RoomMap

/-- `map[lvl].push_back(unit)`. -/
def UnitsByLvl.push (m : UnitsByLvl) (lvl : ℤ) (u : NodesMapDiffUnit) : UnitsByLvl :=
  match m with
  | [] => [(lvl, [u])]
  | (k, us) :: m =>
    if lvl < k then (lvl, [u]) :: (k, us) :: m
    else if lvl = k then (k, us ++ [u]) :: m
    else (k, us) :: push m lvl u

namespace NodesMapDiff

/-- `createNodesMapDiff`. -/
def empty : NodesMapDiff := ⟨[], []⟩

def connect (diff : NodesMapDiff) (lvl : ℤ) (u : NodesMapDiffUnit) : NodesMapDiff :=
  { diff with connectedBylvls := UnitsByLvl.push diff.connectedBylvls lvl u }

def disconnect (diff : NodesMapDiff) (lvl : ℤ) (u : NodesMapDiffUnit) : NodesMapDiff :=
  { diff with disconnectedBylvls := UnitsByLvl.push diff.disconnectedBylvls lvl u }

end NodesMapDiff

/-- `createDiffConnectedBylvls` for a unit that is known at a deeper level: it is to be connected
where it is reported, and disconnected from where it is. -/
def moveUnit (root : NodeGraph) (mylvl : ℕ) (diff : NodesMapDiff) (unit : NodesMapDiffUnit)
    (foundNode : Path) : Except GraphFault NodesMapDiff :=
  match unit.parentIds.getLast? with
  | none => .error .outOfBounds
  | some back =>
    match findInGraph root back with
    | none => .error .assertFailed
    | some _ =>
      let pids := if unit.parentIds.length = maxLvl + 1 then unit.parentIds.tail else unit.parentIds
      let pids := pids ++ [root.value.id]
      if pids.length ≠ mylvl + 1 then .error .assertFailed
      else
        match fillChain root foundNode with
        | none => .error .assertFailed
        | some vv =>
          let chain := if vv.length = maxLvl + 1 then vv.reverse.dropLast else vv.reverse
          .ok ((diff.connect mylvl ⟨unit.id, pids⟩).disconnect (lvlAt root foundNode)
            ⟨unit.id, unit.id :: chain⟩)

/-- `createDiffConnectedBylvls` for a unit that is not known: it is to be connected to its last
reported parent. The last assert compares `ParentIds.size() - 1` with a truth value and asserts the
number that it selects. -/
def attachUnit (root : NodeGraph) (diff : NodesMapDiff) (unit : NodesMapDiffUnit) :
    Except GraphFault NodesMapDiff :=
  match unit.parentIds.getLast? with
  | none => .error .outOfBounds
  | some back =>
    match findInGraph root back with
    | none => .ok diff
    | some f =>
      match fillChain root f with
      | none => .error .assertFailed
      | some vv =>
        if vv.getLast? ≠ some root.value.id then .error .assertFailed
        else
          let pids := back :: (if vv.length = maxLvl + 1 then vv.dropLast else vv)
          let deep := if maxLvl < lvlAt root f + 1 then 1 else 0
          if (if pids.length - 1 = deep then (maxLvl : ℤ) else lvlAt root f + 1) = 0 then
            .error .assertFailed
          else .ok (diff.connect ((pids.length - 1 : ℕ) : ℤ) ⟨unit.id, pids⟩)

/-- The loop body of `createDiffConnectedBylvls`. -/
def diffConnected (root : NodeGraph) (mylvl : ℕ) (diff : NodesMapDiff) (unit : NodesMapDiffUnit) :
    Except GraphFault NodesMapDiff :=
  if unit.id = root.value.id then .ok diff
  else
    match findInGraph root unit.id with
    | some foundNode =>
      if lvlAt root foundNode ≤ mylvl then .ok diff else moveUnit root mylvl diff unit foundNode
    | none => attachUnit root diff unit

def createDiffConnectedBylvls (diff : NodesMapDiff) (RU : RoomMap)
    (incomingConnectedByLvls : IncomingMap) : Except GraphFault NodesMapDiff :=
  incomingConnectedByLvls.foldlM
    (fun diff itr => itr.2.foldlM (diffConnected RU.iamRoot (clampLvl (itr.1 + 1))) diff) diff

/-- `mylvl - foundNode->Lvl == 0 ? mylvl : foundNode->Lvl`. -/
def resultLvl (mylvl : ℕ) (lvl : ℤ) : ℤ := if mylvl - lvl = 0 then mylvl else lvl

/-- The loop body of `createDiffDisconnectedBylvls`. -/
def diffDisconnected (root : NodeGraph) (mylvl : ℕ) (diff : NodesMapDiff) (unit : NodesMapDiffUnit) :
    Except GraphFault NodesMapDiff :=
  if unit.id = root.value.id then .ok diff
  else
    match findInGraphWithParents root unit.parentIds unit.id with
    | some foundNode => .ok (diff.disconnect (resultLvl mylvl (lvlAt root foundNode))
        ⟨unit.id, unit.parentIds ++ [root.value.id]⟩)
    | none => do
      match ← findInGraphWithoutParents root unit.parentIds unit.id with
      | none => return diff
      | some foundNode =>
        match fillChain root foundNode with
        | none => return diff
        | some vv => return diff.disconnect (resultLvl mylvl (lvlAt root foundNode)) ⟨unit.id, vv⟩

def createDiffDisconnectedBylvls (diff : NodesMapDiff) (RU : RoomMap)
    (incomingDisconnectedByLvls : IncomingMap) : Except GraphFault NodesMapDiff :=
  incomingDisconnectedByLvls.foldlM
    (fun diff itr => itr.2.foldlM (diffDisconnected RU.iamRoot (clampLvl (itr.1 + 1))) diff) diff

/-- The difference that `onClosed` and `onFailure` make of a peer. -/
def lostPeer (RU : RoomMap) (peerid : PeerId) : NodesMapDiff :=
  ⟨[], [(0, [⟨peerid, [RU.iamRoot.value.id]⟩])]⟩

/-! ### An incoming map -/

/-- A missing or null member is passed over. -/
def createDiff (RU : RoomMap) (connected disconnected : Option IncomingMap) :
    Except GraphFault NodesMapDiff := do
  let diff ← match connected with
    | none => pure .empty
    | some incoming => createDiffConnectedBylvls .empty RU incoming
  match disconnected with
  | none => pure diff
  | some incoming => createDiffDisconnectedBylvls diff RU incoming

/-- `updateNodeMap`: the room, and the difference that `sendNodeMap` broadcasts, if there is one. -/
def updateNodeMap (RU : RoomMap) (connected disconnected : Option IncomingMap) :
    Except GraphFault (RoomMap × Option NodesMapDiff) := do
  let diff ← createDiff RU connected disconnected
  if diff = .empty then return (RU, none)
  else
    let RU ← RU.onNodesMapDiff diff
    let RU := RU.onNodesMapDiffJson diff
    if ∀ pair ∈ diff.connectedBylvls, ∀ u ∈ pair.2, u.parentIds ≠ [] then return (RU, some diff)
    else throw .assertFailed

end Yamb
