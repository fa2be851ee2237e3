import Yamb.Lib.Lts
import Yamb.Topology.Model

/-!
# Differences, one unit at a time

`OnNodesMapDiff` and `OnNodesMapDiffJson` work through the same units in the same order, one on the
graph and on the number of peers, the other on the arrays.

* `Entry`, `NodesMapDiff.entries`: the units of a difference, in the order in which they are applied;
* `Along`: what an entry does to the graph, with a record of what is kept beside it;
* `onNodesMapDiff_eq`, `stored_onNodesMapDiffJson`, `run_of_applyDiff`: a difference as the run of
  its entries;
* `InTurn`, `run_along_of_inTurn`: a condition on each entry when its turn comes.
-/

set_option autoImplicit false

namespace Yamb

open RoseTree

/-- A unit of a difference, with its key. -/
inductive Entry
  | connect (lvl : ℤ) (u : NodesMapDiffUnit)
  | disconnect (lvl : ℤ) (u : NodesMapDiffUnit)
  deriving DecidableEq

def UnitsByLvl.entries (entry : ℤ → NodesMapDiffUnit → Entry) (m : UnitsByLvl) : List Entry :=
  m.flatMap fun pair => pair.2.map (entry pair.1)

def NodesMapDiff.entries (diff : NodesMapDiff) : List Entry :=
  UnitsByLvl.entries .connect diff.connectedBylvls ++
    UnitsByLvl.entries .disconnect diff.disconnectedBylvls

namespace Entry

def onGraph (g : NodeGraph) : Entry → Except GraphFault NodeGraph
  | .connect lvl u => connectUnit g (clampLvl lvl) u
  | .disconnect _ u => disconnectUnit g u

/-- What an entry does to the arrays. -/
def store (stored : ℕ → List NodesMapDiffUnit) : Entry → ℕ → List NodesMapDiffUnit
  | .connect lvl u => Function.update stored (clampLvl lvl) (addUnit (stored (clampLvl lvl)) u)
  | .disconnect lvl u =>
    Function.update stored (clampLvl lvl) ((stored (clampLvl lvl)).filter fun x => x ≠ u)

end Entry

/-- A step on the graph, with a record that the entry changes by `f`. -/
def Along {η : Type} (f : η → Entry → η) (s : NodeGraph × η) (e : Entry) (s' : NodeGraph × η) :
    Prop := e.onGraph s.1 = .ok s'.1 ∧ s'.2 = f s.2 e

variable {η : Type} {f : η → Entry → η} {g g' : NodeGraph} {x : η} {es : List Entry}

theorem run_along_iff {s : NodeGraph × η} : Lts.Run (Along f) (g, x) es s ↔
    es.foldlM Entry.onGraph g = .ok s.1 ∧ s.2 = es.foldl f x := by
  induction es generalizing g x with
  | nil =>
    constructor
    · intro h
      rw [h.nil_inv]
      exact ⟨rfl, rfl⟩
    · rintro ⟨hg, hx⟩
      obtain rfl : g = s.1 := Except.ok.inj hg
      obtain rfl : s.2 = x := hx
      exact .nil
  | cons e es ih =>
    rw [List.foldlM_cons, List.foldl_cons]
    constructor
    · intro h
      obtain ⟨s₁, ⟨he, hx⟩, h⟩ := h.cons_inv
      rw [he, ← hx]
      exact ih.mp h
    · rintro ⟨hg, hx⟩
      cases he : e.onGraph g with
      | error F =>
        rw [he] at hg
        cases hg
      | ok g₁ =>
        rw [he] at hg
        exact Lts.Run.cons (s := (g₁, f x e)) ⟨he, rfl⟩ (ih.mpr ⟨hg, hx⟩)

/-! ### A difference as a run -/

namespace RoomMap

/-- The array under a key, if there is one. -/
def stored (RU : RoomMap) (lvl : ℕ) : List NodesMapDiffUnit := (RU.nodesMap lvl).getD []

/-- A loop over the keys whose body works through the units of a key. -/
theorem foldlM_lvls {entry : ℤ → NodesMapDiffUnit → Entry} (count : ℕ → ℕ → ℕ)
    {body : RoomMap → ℤ × List NodesMapDiffUnit → Except GraphFault RoomMap}
    (hbody : ∀ RU pair, body RU pair =
      ((pair.2.map (entry pair.1)).foldlM Entry.onGraph RU.iamRoot).map fun g =>
        { RU with nPeersInRoom := count RU.nPeersInRoom pair.2.length, iamRoot := g })
    (m : UnitsByLvl) (RU : RoomMap) : m.foldlM body RU =
      ((UnitsByLvl.entries entry m).foldlM Entry.onGraph RU.iamRoot).map fun g => { RU with
        nPeersInRoom := m.foldl (fun n pair => count n pair.2.length) RU.nPeersInRoom
        iamRoot := g } := by
  induction m generalizing RU with
  | nil => rfl
  | cons pair m ih =>
    rw [List.foldlM_cons, UnitsByLvl.entries, List.flatMap_cons, List.foldlM_append, hbody]
    cases (pair.2.map (entry pair.1)).foldlM Entry.onGraph RU.iamRoot with
    | error F => rfl
    | ok g => exact ih _

theorem connectLvl_eq (RU : RoomMap) (pair : ℤ × List NodesMapDiffUnit) : connectLvl RU pair =
    ((pair.2.map (Entry.connect pair.1)).foldlM Entry.onGraph RU.iamRoot).map fun g => { RU with
      nPeersInRoom := (RU.nPeersInRoom + pair.2.length) % 2 ^ 64, iamRoot := g } := by
  rw [List.foldlM_map, connectLvl]
  simp only [Entry.onGraph]
  cases pair.2.foldlM (fun root u => connectUnit root (clampLvl pair.1) u) RU.iamRoot <;> rfl

theorem disconnectLvl_eq (RU : RoomMap) (pair : ℤ × List NodesMapDiffUnit) :
    disconnectLvl RU pair =
      ((pair.2.map (Entry.disconnect pair.1)).foldlM Entry.onGraph RU.iamRoot).map fun g =>
        { RU with
          nPeersInRoom := ((RU.nPeersInRoom - pair.2.length : ℤ) % 2 ^ 64).toNat, iamRoot := g } := by
  rw [List.foldlM_map, disconnectLvl]
  simp only [Entry.onGraph]
  cases pair.2.foldlM disconnectUnit RU.iamRoot <;> rfl

/-- The number of peers after a difference. -/
def countPeers (n : ℕ) (diff : NodesMapDiff) : ℕ :=
  diff.disconnectedBylvls.foldl (fun n pair => ((n - pair.2.length : ℤ) % 2 ^ 64).toNat)
    (diff.connectedBylvls.foldl (fun n pair => (n + pair.2.length) % 2 ^ 64) n)

/-- **`OnNodesMapDiff` as a run of the entries** over the graph, and a count beside it. -/
theorem onNodesMapDiff_eq (RU : RoomMap) (diff : NodesMapDiff) : RU.onNodesMapDiff diff =
    (diff.entries.foldlM Entry.onGraph RU.iamRoot).map fun g => { RU with
      nPeersInRoom := countPeers RU.nPeersInRoom diff
      iamRoot := g } := by
  rw [onNodesMapDiff, foldlM_lvls (fun n k => (n + k) % 2 ^ 64) connectLvl_eq,
    NodesMapDiff.entries, List.foldlM_append]
  cases (UnitsByLvl.entries .connect diff.connectedBylvls).foldlM Entry.onGraph RU.iamRoot with
  | error F => rfl
  | ok g =>
    exact foldlM_lvls (fun n k => ((n - k : ℤ) % 2 ^ 64).toNat) disconnectLvl_eq _ _

theorem onNodesMapDiff_eq_ok {RU RU' : RoomMap} {diff : NodesMapDiff} :
    RU.onNodesMapDiff diff = .ok RU' ↔
      diff.entries.foldlM Entry.onGraph RU.iamRoot = .ok RU'.iamRoot ∧
        RU'.nPeersInRoom = countPeers RU.nPeersInRoom diff ∧ RU'.nodesMap = RU.nodesMap := by
  rw [onNodesMapDiff_eq]
  cases diff.entries.foldlM Entry.onGraph RU.iamRoot with
  | error F => simp [Except.map]
  | ok g =>
    constructor
    · intro h
      obtain rfl := Except.ok.inj h
      exact ⟨rfl, rfl, rfl⟩
    · rintro ⟨hg, hn, hm⟩
      obtain rfl : g = RU'.iamRoot := Except.ok.inj hg
      rw [← hn, ← hm]
      rfl

theorem stored_addToLvl (nm : NodesMap) (lvl : ℕ) (us : List NodesMapDiffUnit) (l : ℕ) :
    (addToLvl nm lvl us l).getD [] =
      Function.update (fun l => (nm l).getD []) lvl (us.foldl addUnit ((nm lvl).getD [])) l := by
  by_cases h : l = lvl
  · rw [h, addToLvl, Function.update_self, Function.update_self, Option.getD_some]
  · rw [addToLvl, Function.update_of_ne h, Function.update_of_ne h]

theorem stored_eraseFromLvl (nm : NodesMap) (lvl : ℕ) (us : List NodesMapDiffUnit) (l : ℕ) :
    (eraseFromLvl nm lvl us l).getD [] =
      Function.update (fun l => (nm l).getD []) lvl
        (((nm lvl).getD []).filter fun x => x ∉ us) l := by
  unfold eraseFromLvl
  by_cases h : l = lvl
  · rw [h, Function.update_self]
    cases hnm : nm lvl with
    | none => simp [hnm]
    | some arr => simp
  · rw [Function.update_of_ne h]
    cases hnm : nm lvl with
    | none => rfl
    | some arr => simp [h]

theorem foldl_update (k : List NodesMapDiffUnit → NodesMapDiffUnit → List NodesMapDiffUnit)
    (us : List NodesMapDiffUnit) (lvl : ℕ) (st : ℕ → List NodesMapDiffUnit) :
    us.foldl (fun st u => Function.update st lvl (k (st lvl) u)) st =
      Function.update st lvl (us.foldl k (st lvl)) := by
  induction us generalizing st with
  | nil => exact (Function.update_eq_self lvl st).symm
  | cons u us ih =>
    rw [List.foldl_cons, ih, Function.update_self, Function.update_idem, List.foldl_cons]

theorem filter_notMem_eq_foldl (us arr : List NodesMapDiffUnit) :
    (arr.filter fun x => x ∉ us) = us.foldl (fun arr u => arr.filter fun x => x ≠ u) arr := by
  induction us generalizing arr with
  | nil => simp
  | cons u us ih =>
    rw [List.foldl_cons, ← ih, List.filter_filter]
    congr 1
    funext x
    by_cases hx : x = u <;> simp [hx]

/-- A loop over the keys that changes one array with the units of its key. -/
theorem foldl_lvls (entry : ℤ → NodesMapDiffUnit → Entry)
    (k : List NodesMapDiffUnit → NodesMapDiffUnit → List NodesMapDiffUnit)
    (body : NodesMap → ℤ × List NodesMapDiffUnit → NodesMap)
    (hentry : ∀ st lvl u, Entry.store st (entry lvl u) =
      Function.update st (clampLvl lvl) (k (st (clampLvl lvl)) u))
    (hbody : ∀ nm pair, (fun l => (body nm pair l).getD []) =
      Function.update (fun l => (nm l).getD []) (clampLvl pair.1)
        (pair.2.foldl k ((nm (clampLvl pair.1)).getD []))) (m : UnitsByLvl) (nm : NodesMap) :
    (fun l => (m.foldl body nm l).getD []) =
      (UnitsByLvl.entries entry m).foldl Entry.store fun l => (nm l).getD [] := by
  induction m generalizing nm with
  | nil => rfl
  | cons pair m ih =>
    rw [List.foldl_cons, ih, UnitsByLvl.entries, UnitsByLvl.entries, List.flatMap_cons,
      List.foldl_append, hbody, List.foldl_map]
    simp only [hentry]
    rw [foldl_update]

/-- **`OnNodesMapDiffJson` as a run of the entries** over the arrays. -/
theorem stored_onNodesMapDiffJson (RU : RoomMap) (diff : NodesMapDiff) :
    (RU.onNodesMapDiffJson diff).stored = diff.entries.foldl Entry.store RU.stored := by
  have hconnect := foldl_lvls .connect addUnit
    (fun nm pair => addToLvl nm (clampLvl pair.1) pair.2) (fun _ _ _ => rfl)
    (fun nm pair => funext fun l => stored_addToLvl nm _ _ l) diff.connectedBylvls RU.nodesMap
  have hdisconnect := foldl_lvls .disconnect
    (fun arr u => arr.filter fun x => x ≠ u)
    (fun nm pair => eraseFromLvl nm (clampLvl pair.1) pair.2) (fun _ _ _ => rfl)
    (fun nm pair => funext fun l => by
      rw [stored_eraseFromLvl, filter_notMem_eq_foldl]) diff.disconnectedBylvls
    (diff.connectedBylvls.foldl (fun nm pair => addToLvl nm (clampLvl pair.1) pair.2) RU.nodesMap)
  rw [NodesMapDiff.entries, List.foldl_append]
  rw [hconnect] at hdisconnect
  exact hdisconnect

/-- `OnNodesMapDiff`, then `OnNodesMapDiffJson`. -/
def applyDiff (RU : RoomMap) (diff : NodesMapDiff) : Except GraphFault RoomMap := do
  let RU ← RU.onNodesMapDiff diff
  return RU.onNodesMapDiffJson diff

/-- The graph with the arrays. -/
def views (RU : RoomMap) : NodeGraph × (ℕ → List NodesMapDiffUnit) := (RU.iamRoot, RU.stored)

theorem applyDiff_eq_ok {RU RU' : RoomMap} {diff : NodesMapDiff} : RU.applyDiff diff = .ok RU' ↔
    ∃ RU₁, RU.onNodesMapDiff diff = .ok RU₁ ∧ RU' = RU₁.onNodesMapDiffJson diff := by
  unfold applyDiff
  cases RU.onNodesMapDiff diff with
  | error F =>
    refine iff_of_false (fun h => ?_) (fun h => ?_)
    · cases h
    · obtain ⟨RU₁, h, -⟩ := h
      cases h
  | ok RU₁ =>
    constructor
    · intro h
      exact ⟨RU₁, rfl, (Except.ok.inj h).symm⟩
    · rintro ⟨RU₂, h, rfl⟩
      obtain rfl := Except.ok.inj h
      rfl

theorem run_of_applyDiff {RU RU' : RoomMap} {diff : NodesMapDiff} (h : RU.applyDiff diff = .ok RU') :
    Lts.Run (Along Entry.store) RU.views diff.entries RU'.views := by
  obtain ⟨RU₁, h₁, rfl⟩ := applyDiff_eq_ok.mp h
  obtain ⟨hg, -, hm⟩ := onNodesMapDiff_eq_ok.mp h₁
  have hst : RU₁.stored = RU.stored := funext fun l => by rw [stored, hm, stored]
  exact run_along_iff.mpr ⟨hg, (stored_onNodesMapDiffJson RU₁ diff).trans (by rw [hst])⟩

end RoomMap

/-! ### Entries in their turn -/

/-- Each entry meets a condition on the graph and the record it finds when its turn comes. -/
def InTurn (f : η → Entry → η) (Q : NodeGraph × η → Entry → Prop) (s : NodeGraph × η)
    (es : List Entry) : Prop :=
  ∀ t₁ e t₂ s₁, es = t₁ ++ e :: t₂ → Lts.Run (Along f) s t₁ s₁ → Q s₁ e

variable {Q : NodeGraph × η → Entry → Prop} {s s' : NodeGraph × η}

theorem run_along_of_inTurn (h : Lts.Run (Along f) s es s') (hQ : InTurn f Q s es) :
    Lts.Run (Lts.Only (Along f) Q) s es s' :=
  h.only_of_forall fun t₁ e t₂ s₁ _ hes hr _ => hQ t₁ e t₂ s₁ hes hr

/-- Where a difference fails, an entry does in its turn. -/
theorem InTurn.exists_of_error {F : GraphFault} (hQ : InTurn f Q (g, x) es)
    (h : es.foldlM Entry.onGraph g = .error F) :
    ∃ e g₁ y, Q (g₁, y) e ∧ e.onGraph g₁ = .error F := by
  obtain ⟨t₁, e, t₂, g₁, rfl, ht, he⟩ := Lts.exists_of_foldlM_eq_error h
  exact ⟨e, g₁, t₁.foldl f x, hQ t₁ e t₂ _ rfl (run_along_iff.mpr ⟨ht, rfl⟩), he⟩

theorem inTurn_singleton {e : Entry} : InTurn f Q s [e] ↔ Q s e := by
  constructor
  · exact fun h => h [] e [] s rfl .nil
  · intro h t₁ e' t₂ s₁ hes hr
    obtain ⟨rfl, hes⟩ | ⟨t, rfl, hes⟩ := List.cons_eq_append_iff.mp hes
    · obtain ⟨rfl, -⟩ := List.cons.inj hes
      rwa [hr.nil_inv]
    · simp at hes

end Yamb
