import Yamb.Lib.Pruning
import Yamb.Topology.Disconnect
import Yamb.Topology.HeapRoom

/-!
# The room in memory and the room

The units that are allocated are those of the tree: what `OnNodesMapDiff` does with pointers is what
it does with paths.

* `ptrAt`, `Holds`: the tree that hangs below a unit in memory;
* `Holds.findInGraph`, `Holds.findInTurn`, `Holds.followChain`: the searches agree;
* `Holds.new`, `Holds.erase`: so do a new unit and a deleted one;
* `Sim`, **`onNodesMapDiff_follows`**, **`run_simulates`**: so does every sequence of differences.
-/

set_option autoImplicit false

namespace Yamb

open RoseTree

/-- What the tree keeps of a unit. -/
def UnitCell.unit (c : UnitCell) : NodeUnit := ⟨c.lvl, c.id⟩

namespace UnitHeap

/-- The unit at a path below `p`. -/
def ptrAt (H : UnitHeap) (p : Ptr) : Path → Option Ptr
  | [] => some p
  | i :: π => (H.childs p)[i]?.bind fun q => ptrAt H q π

/-- The units below `p` are those of the tree. -/
def Holds (H : UnitHeap) (p : Ptr) (t : NodeGraph) : Prop :=
  ∀ π, t.get? π = (H.ptrAt p π).bind fun q => (H.cells q).map UnitCell.unit

variable {H H' : UnitHeap} {root p q r : Ptr} {myId x : PeerId} {c : UnitCell} {fuel lvl : ℕ}
  {t g s : NodeGraph} {π ρ κ : Path} {ids : List PeerId} {i : ℕ} {L : List Ptr}

/-! ### Paths in memory -/

theorem ptrAt_cons (H : UnitHeap) (p : Ptr) (i : ℕ) (π : Path) :
    H.ptrAt p (i :: π) = (H.childs p)[i]?.bind fun q => H.ptrAt q π := rfl

theorem ptrAt_append (H : UnitHeap) (p : Ptr) (π ρ : Path) :
    H.ptrAt p (π ++ ρ) = (H.ptrAt p π).bind fun q => H.ptrAt q ρ := by
  induction π generalizing p with
  | nil => rfl
  | cons i π ih =>
    rw [List.cons_append, ptrAt_cons, ptrAt_cons]
    cases (H.childs p)[i]? with
    | none => rfl
    | some q => exact ih q

theorem ptrAt_concat (H : UnitHeap) (p : Ptr) (π : Path) (i : ℕ) :
    H.ptrAt p (π ++ [i]) = (H.ptrAt p π).bind fun q => (H.childs q)[i]? := by
  rw [ptrAt_append]
  refine congrArg _ (funext fun q => ?_)
  rw [ptrAt_cons]
  cases (H.childs q)[i]? <;> rfl

/-- The unit above. -/
theorem ptrAt_concat_eq_some : H.ptrAt p (π ++ [i]) = some q ↔
    ∃ r, H.ptrAt p π = some r ∧ (H.childs r)[i]? = some q := by
  rw [ptrAt_concat, Option.bind_eq_some_iff]

theorem IsTree.parents_of_child (h : H.IsTree root myId) (hq : q ∈ H.childs r) :
    H.parents q = [r] := by
  obtain ⟨c, hr⟩ := Option.ne_none_iff_exists'.mp (live_of_mem_childs hq)
  rw [childs_of_cells hr] at hq
  obtain ⟨cq, hcq, hpar⟩ := (h.childs r c hr).2 q hq
  rw [parents_of_cells hcq, hpar]

/-- The root is at no other path. -/
theorem IsTree.ptrAt_ne_root (h : H.IsTree root myId) : H.ptrAt root (π ++ [i]) ≠ some root := by
  intro hroot
  obtain ⟨r, -, hr⟩ := ptrAt_concat_eq_some.mp hroot
  have hpar := h.parents_of_child (List.mem_of_getElem? hr)
  rw [h.isDag.parents_root] at hpar
  cases hpar

/-- **A unit is at one path.** -/
theorem IsTree.ptrAt_injective (h : H.IsTree root myId) (hπ : H.ptrAt root π = some q)
    (hρ : H.ptrAt root ρ = some q) : π = ρ := by
  induction π using List.reverseRecOn generalizing ρ q with
  | nil =>
    obtain rfl := Option.some.inj hπ
    rcases ρ.eq_nil_or_concat' with rfl | ⟨ρ, j, rfl⟩
    · rfl
    · exact absurd hρ h.ptrAt_ne_root
  | append_singleton π i ih =>
    rcases ρ.eq_nil_or_concat' with rfl | ⟨ρ, j, rfl⟩
    · obtain rfl := Option.some.inj hρ
      exact absurd hπ h.ptrAt_ne_root
    · obtain ⟨r, hr, hi⟩ := ptrAt_concat_eq_some.mp hπ
      obtain ⟨r', hr', hj⟩ := ptrAt_concat_eq_some.mp hρ
      have hpar := (h.parents_of_child (List.mem_of_getElem? hi)).symm.trans
        (h.parents_of_child (List.mem_of_getElem? hj))
      obtain rfl := (List.cons.inj hpar).1
      obtain ⟨hlt, heq⟩ := List.getElem?_eq_some_iff.mp hi
      rw [ih hr hr', (h.isDag.childs_nodup r).getElem_inj_iff.mp
        (heq.trans (List.getElem?_eq_some_iff.mp hj).2.symm)]

theorem IsTree.live_ptrAt (h : H.IsTree root myId) (hp : H.cells p ≠ none)
    (hq : H.ptrAt p π = some q) : H.cells q ≠ none := by
  rcases π.eq_nil_or_concat' with rfl | ⟨π, i, rfl⟩
  · obtain rfl := Option.some.inj hq
    exact hp
  · obtain ⟨r, -, hr⟩ := ptrAt_concat_eq_some.mp hq
    exact h.isDag.live_of_child (List.mem_of_getElem? hr)

/-! ### The tree in memory -/

theorem Holds.cell (ht : H.Holds p t) (hp : H.cells p = some c) : t.value = c.unit := by
  have hroot := ht []
  rw [get?_nil, ptrAt, Option.bind_some, hp] at hroot
  exact Option.some.inj hroot

/-- The subtree at a path is that below the unit at the path. -/
theorem Holds.sub (ht : H.Holds p t) (hs : t.sub π = some s) :
    ∃ q, H.ptrAt p π = some q ∧ H.Holds q s := by
  have hget := ht π
  rw [get?_of_sub hs] at hget
  obtain ⟨q, hq, -⟩ := Option.bind_eq_some_iff.mp hget.symm
  refine ⟨q, hq, fun ρ => ?_⟩
  rw [← get?_append_of_sub hs, ht (π ++ ρ), ptrAt_append, hq, Option.bind_some]

theorem Holds.child (ht : H.Holds p t) (hs : t.children[i]? = some s) :
    ∃ q, (H.childs p)[i]? = some q ∧ H.Holds q s := by
  rw [← sub_singleton] at hs
  obtain ⟨q, hq, hqs⟩ := ht.sub hs
  obtain ⟨r, hr, hq⟩ := ptrAt_concat_eq_some.mp ((List.nil_append [i]).symm ▸ hq)
  obtain rfl := Option.some.inj hr
  exact ⟨q, hq, hqs⟩

theorem Holds.length_eq (ht : H.Holds p t) (h : H.IsTree root myId) :
    (H.childs p).length = t.children.length := by
  refine Nat.le_antisymm ?_ ?_
  · by_contra hlt
    rw [Nat.not_le] at hlt
    have hget := ht [t.children.length]
    rw [ptrAt_cons, List.getElem?_eq_getElem hlt] at hget
    obtain ⟨c, hc⟩ := Option.ne_none_iff_exists'.mp
      (h.isDag.live_of_child (List.getElem_mem hlt))
    simp only [ptrAt, Option.bind_some, hc, Option.map_some] at hget
    obtain ⟨s, hs, -⟩ := get?_cons_eq_some.mp hget
    rw [List.getElem?_eq_none (Nat.le_refl _)] at hs
    cases hs
  · by_contra hlt
    rw [Nat.not_le] at hlt
    obtain ⟨q, hq, -⟩ := ht.child (List.getElem?_eq_getElem hlt)
    rw [List.getElem?_eq_none (Nat.le_refl _)] at hq
    cases hq

theorem Holds.children (ht : H.Holds p t) (h : H.IsTree root myId) :
    List.Forall₂ H.Holds (H.childs p) t.children := by
  refine List.forall₂_iff_get.mpr ⟨ht.length_eq h, fun i hi hi' => ?_⟩
  obtain ⟨q, hq, hqs⟩ := ht.child (List.getElem?_eq_getElem hi')
  obtain ⟨_, rfl⟩ := List.getElem?_eq_some_iff.mp hq
  exact hqs

/-! ### Searches -/

/-- A loop over the children against a search of a forest. -/
theorem firstOf_forest {f : Ptr → Except HeapFault (Option Ptr)} {u : NodeUnit → Bool}
    {ps : List Ptr} {ts : List NodeGraph} (hps : List.Forall₂ H.Holds ps ts)
    (hf : ∀ q ∈ ps, ∀ s, H.Holds q s → f q = .ok ((s.find? u).bind (H.ptrAt q))) :
    findForest? u ts = none ∧ firstOf f ps = .ok none ∨ ∃ i ρ q z,
      findForest? u ts = some (i :: ρ) ∧ ps[i]? = some q ∧ H.ptrAt q ρ = some z ∧
        firstOf f ps = .ok (some z) := by
  induction hps with
  | nil => exact .inl ⟨rfl, rfl⟩
  | @cons q s ps ts hq _ ih =>
    have hfq := hf q List.mem_cons_self s hq
    rw [findForest?, firstOf, hfq]
    cases hs : s.find? u with
    | some ρ =>
      obtain ⟨a, ha, -⟩ := (find?_eq_some_iff.mp hs).found
      obtain ⟨d, hd, -⟩ := get?_eq_some.mp ha
      obtain ⟨z, hz, -⟩ := hq.sub hd
      rw [Option.bind_some, hz]
      exact .inr ⟨0, ρ, q, z, rfl, rfl, hz, rfl⟩
    | none =>
      rcases ih fun q hq => hf q (List.mem_cons_of_mem _ hq) with
        ⟨hnone, hok⟩ | ⟨i, ρ, r, z, hsome, hr, hz, hok⟩
      · exact .inl ⟨by rw [hnone]; rfl, hok⟩
      · exact .inr ⟨i + 1, ρ, r, z, by rw [hsome]; rfl, hr, hz, hok⟩

/-- **The search in memory** is the search of the tree. -/
theorem Holds.findInGraph (ht : H.Holds p t) (h : H.IsTree root myId) (hp : H.cells p = some c)
    (hfuel : H.depth p < fuel) (x : PeerId) :
    UnitHeap.findInGraph fuel H p x = .ok ((Yamb.findInGraph t x).bind (H.ptrAt p)) := by
  induction fuel generalizing p c t with
  | zero => exact absurd hfuel (Nat.not_lt_zero _)
  | succ fuel ih =>
    rw [UnitHeap.findInGraph, read_of_cells hp]
    show (if c.id = x then _ else _) = _
    have hid : t.value.id = c.id := congrArg NodeUnit.id (ht.cell hp)
    obtain ⟨v, ts⟩ := t
    rw [value_node] at hid
    unfold Yamb.findInGraph find?
    rw [← hid]
    by_cases hx : v.id = x
    · rw [if_pos hx, if_pos (decide_eq_true hx)]
      rfl
    · rw [if_neg hx, if_neg (mt of_decide_eq_true hx), ← childs_of_cells hp]
      have hf : ∀ q ∈ H.childs p, ∀ s, H.Holds q s → UnitHeap.findInGraph fuel H q x =
          .ok ((s.find? fun u => u.id = x).bind (H.ptrAt q)) := by
        intro q hq s hqs
        obtain ⟨cq, hcq⟩ := Option.ne_none_iff_exists'.mp (h.isDag.live_of_child hq)
        have hlt := h.depth_lt hq
        exact ih hqs hcq (by omega)
      rcases firstOf_forest (ht.children h) hf with
        ⟨hnone, hok⟩ | ⟨i, ρ, q, z, hsome, hq, hz, hok⟩
      · rw [children_node] at hnone
        rw [hok, hnone]
        rfl
      · rw [children_node] at hsome
        rw [hok, hsome, Option.bind_some, ptrAt_cons, hq, Option.bind_some, hz]

theorem Holds.findInTurn (ht : H.Holds p t) (h : H.IsTree root myId) (hp : H.cells p ≠ none)
    (hfuel : maxLvl + 2 ≤ fuel) (ids : List PeerId) :
    UnitHeap.findInTurn fuel H p ids = .ok ((Yamb.findInTurn t ids).bind (H.ptrAt p)) := by
  induction ids generalizing p t with
  | nil => rfl
  | cons x ids ih =>
    obtain ⟨c, hc⟩ := Option.ne_none_iff_exists'.mp hp
    rw [UnitHeap.findInTurn, Yamb.findInTurn,
      ht.findInGraph h hc ((h.depth_le hc).trans_le hfuel)]
    cases hπ : Yamb.findInGraph t x with
    | none => rfl
    | some π =>
      obtain ⟨s, hs, -⟩ := exists_sub_of_findInGraph hπ
      obtain ⟨q, hq, hqs⟩ := ht.sub hs
      simp only [bind, Except.bind, Option.bind_some, hq, hs, pure]
      rw [ih hqs (h.live_ptrAt hp hq)]
      cases Yamb.findInTurn s ids with
      | none => rfl
      | some ρ => simp only [Option.bind_some, ptrAt_append, hq]

theorem findChild_forest {ps : List Ptr} {ts : List NodeGraph}
    (hps : List.Forall₂ H.Holds ps ts) (hlive : ∀ q ∈ ps, H.cells q ≠ none) (x : PeerId) :
    findChild H x ps = .ok ((ts.findIdx? fun d => d.value.id = x).bind fun i => ps[i]?) := by
  induction hps with
  | nil => rfl
  | @cons q s ps ts hq _ ih =>
    obtain ⟨c, hc⟩ := Option.ne_none_iff_exists'.mp (hlive q List.mem_cons_self)
    have ih := ih fun q hq => hlive q (List.mem_cons_of_mem _ hq)
    have hid : s.value.id = c.id := congrArg NodeUnit.id (hq.cell hc)
    unfold findChild at ih ⊢
    rw [firstOf, read_of_cells hc, List.findIdx?_cons, hid]
    simp only [bind, Except.bind, pure, Except.pure, decide_eq_true_eq] at ih ⊢
    by_cases hx : c.id = x
    · rw [if_pos hx, if_pos hx]
      rfl
    · rw [if_neg hx, if_neg hx]
      refine ih.trans ?_
      cases ts.findIdx? fun d => decide (d.value.id = x) <;> rfl

theorem Holds.followChain (ht : H.Holds p t) (h : H.IsTree root myId) (hp : H.cells p ≠ none)
    (ids : List PeerId) :
    UnitHeap.followChain H root p ids = .ok ((Yamb.followChain myId t ids).bind (H.ptrAt p)) := by
  induction ids generalizing p t with
  | nil => rfl
  | cons x ids ih =>
    obtain ⟨childs, hroot⟩ := h.root_cell
    rw [UnitHeap.followChain, Yamb.followChain, read_of_cells hroot]
    show (if myId = x then _ else _) = _
    by_cases hx : myId = x
    · rw [if_pos hx, if_pos hx]
      exact ih ht hp
    · rw [if_neg hx, if_neg hx]
      obtain ⟨c, hc⟩ := Option.ne_none_iff_exists'.mp hp
      have hchild := findChild_forest (ht.children h)
        (fun q hq => h.isDag.live_of_child hq) x
      rw [childs_of_cells hc] at hchild
      rw [read_of_cells hc]
      simp only [bind, Except.bind, hchild]
      cases hi : t.children.findIdx? fun d => decide (d.value.id = x) with
      | none => rfl
      | some i =>
        obtain ⟨hlt, -⟩ := List.findIdx?_eq_some_iff_getElem.mp hi
        have hs := List.getElem?_eq_getElem hlt
        obtain ⟨q, hq, hqs⟩ := ht.child hs
        rw [childs_of_cells hc] at hq
        have hlive := h.isDag.live_of_child
          (show q ∈ H.childs p by rw [childs_of_cells hc]; exact List.mem_of_getElem? hq)
        simp only [Option.bind_some, hq, hs, pure]
        rw [ih hqs hlive]
        cases Yamb.followChain myId t.children[i] ids with
        | none => rfl
        | some ρ => simp only [Option.bind_some, ptrAt_cons, childs_of_cells hc, hq]

/-! ### A new unit -/

theorem Sprouts.childs_eq {parent : Ptr} {u : UnitCell} (hs : Sprouts H H' parent u)
    (h : H.IsTree root myId) (hq : H.cells q ≠ none) :
    H'.childs q = if q = parent then H.childs q ++ [H.nextPtr] else H.childs q := by
  obtain ⟨c, hc⟩ := Option.ne_none_iff_exists'.mp hq
  rw [childs_of_cells (hs.stays h hc), childs_of_cells hc]
  rfl

/-- The paths in memory are those that there were, and the one of the new unit. -/
theorem Sprouts.ptrAt_eq (hs : Sprouts H H' q ⟨lvl, x, [q], []⟩) (h : H.IsTree root myId)
    (hq : H.ptrAt root π = some q) (ρ : Path) : H'.ptrAt root ρ =
      if ρ = π ++ [(H.childs q).length] then some H.nextPtr else H.ptrAt root ρ := by
  have hroot := h.isDag.root_live
  induction ρ using List.reverseRecOn with
  | nil => rw [if_neg (List.append_ne_nil_of_right_ne_nil π (List.cons_ne_nil _ [])).symm]; rfl
  | append_singleton ρ i ih =>
    rw [ptrAt_concat, ptrAt_concat, ih]
    by_cases hρ : ρ = π ++ [(H.childs q).length]
    · -- the new unit has no children, and was not there
      have hnew : H'.childs H.nextPtr = [] := childs_of_cells hs.new
      have hnone : H.ptrAt root ρ = none := by
        rw [hρ, ptrAt_concat, hq, Option.bind_some, List.getElem?_eq_none (Nat.le_refl _)]
      rw [if_pos hρ, Option.bind_some, hnew, hnone, if_neg]
      · rfl
      · intro heq
        have hlen := congrArg List.length heq
        have hlen' := congrArg List.length hρ
        simp only [List.length_append, List.length_singleton] at hlen hlen'
        omega
    · rw [if_neg hρ]
      cases hr : H.ptrAt root ρ with
      | none =>
        rw [Option.bind_none, Option.bind_none, if_neg]
        intro heq
        rw [List.append_inj_left' heq rfl, hq] at hr
        cases hr
      | some r =>
        rw [Option.bind_some, Option.bind_some, hs.childs_eq h (h.live_ptrAt hroot hr)]
        by_cases hrq : r = q
        · subst hrq
          obtain rfl := h.ptrAt_injective hr hq
          rw [if_pos rfl]
          by_cases hi : i = (H.childs r).length
          · rw [if_pos (by rw [hi]), hi, List.getElem?_concat_length]
          · rw [if_neg fun heq => hi (List.cons.inj (List.append_cancel_left heq)).1,
              List.getElem?_append]
            split_ifs with hlt
            · rfl
            · rw [List.getElem?_eq_none (by simp only [List.length_singleton]; omega),
                List.getElem?_eq_none (by omega)]
        · rw [if_neg hrq, if_neg]
          intro heq
          rw [List.append_inj_left' heq rfl, hq] at hr
          exact hrq (Option.some.inj hr).symm

/-- **A new unit** in memory is a new leaf of the tree. -/
theorem Holds.new (hg : H.Holds root g) (h : H.IsTree root myId) (hq : H.ptrAt root π = some q)
    (hs : g.sub π = some s) (hnew : Sprouts H H' q ⟨lvl, x, [q], []⟩) :
    H'.Holds root (g.push (.node ⟨lvl, x⟩ []) π) := by
  obtain ⟨q', hq', hqs⟩ := hg.sub hs
  obtain rfl := Option.some.inj (hq.symm.trans hq')
  intro ρ
  rw [get?_push_leaf hs, hnew.ptrAt_eq h hq, hqs.length_eq h]
  split_ifs with hρ
  · rw [Option.bind_some, hnew.new]
    rfl
  · rw [hg ρ]
    cases hr : H.ptrAt root ρ with
    | none => rfl
    | some r =>
      obtain ⟨c, hc⟩ := Option.ne_none_iff_exists'.mp (h.live_ptrAt h.isDag.root_live hr)
      rw [Option.bind_some, Option.bind_some, hnew.stays h hc, hc]
      rfl

/-! ### Without a unit -/

section delete

variable {rank : Ptr → ℕ} (h : H.IsTree root myId) (hκ : H.ptrAt root κ = some q) (hne : κ ≠ [])
  (hr : Removes rank H H' q L)

include h hκ hne hr

/-- The deleted units are those below the path. -/
theorem Removes.mem_iff (hρ : H.ptrAt root ρ = some r) : r ∈ L ↔ κ <+: ρ := by
  have hroot : q ≠ root := by
    rintro rfl
    exact hne (h.ptrAt_injective hκ rfl)
  induction ρ using List.reverseRecOn generalizing r with
  | nil =>
    obtain rfl := Option.some.inj hρ
    refine iff_of_false (fun hin => ?_) fun hpre => hne (List.prefix_nil.mp hpre)
    exact (hr.orphans root hin hroot.symm).1 h.isDag.parents_root
  | append_singleton ρ i ih =>
    obtain ⟨m, hm, hi⟩ := ptrAt_concat_eq_some.mp hρ
    have hpar := h.parents_of_child (List.mem_of_getElem? hi)
    have ih : m ∈ L ↔ κ <+: ρ := ih hm
    rw [List.prefix_concat_iff, ← ih]
    by_cases hrq : r = q
    · rw [hrq]
      exact iff_of_true hr.self (.inl (h.ptrAt_injective hκ (hrq ▸ hρ)))
    · have hκρ : κ ≠ ρ ++ [i] := by
        rintro rfl
        exact hrq (Option.some.inj (hρ.symm.trans hκ))
      rw [or_iff_right hκρ]
      constructor
      · intro hin
        refine (hr.orphans r hin hrq).2 m ?_
        rw [hpar]
        exact List.mem_singleton_self m
      · intro hin
        by_contra hout
        obtain ⟨m', hm', hkept⟩ := hr.kept r hout (by rw [hpar]; exact List.cons_ne_nil m [])
        rw [hpar, List.mem_singleton] at hm'
        exact hkept (hm' ▸ hin)

theorem Removes.childs_eq (hρ : H.ptrAt root ρ = some r) (hpre : ¬ κ <+: ρ) :
    H'.childs r = (H.childs r).filter fun m => decide (m ∉ L) := by
  obtain ⟨c, hc⟩ := Option.ne_none_iff_exists'.mp (h.live_ptrAt h.isDag.root_live hρ)
  have hL := mt (Removes.mem_iff h hκ hne hr hρ).mp hpre
  rw [childs_of_cells hc]
  refine childs_of_cells (c := { c with
    parents := c.parents.filter fun m => decide (m ∉ L)
    childs := c.childs.filter fun m => decide (m ∉ L) }) ?_
  rw [h.isDag.cells_removes hr, if_neg hL, hc]
  rfl

/-- The paths in memory are those of the tree without the subtree. -/
theorem Removes.ptrAt_eq (ρ : Path) : H'.ptrAt root ρ = H.ptrAt root (unerase κ ρ) := by
  induction ρ using List.reverseRecOn with
  | nil =>
    rw [unerase_nil]
    rfl
  | append_singleton ρ i ih =>
    rw [ptrAt_concat, ih]
    cases hm : H.ptrAt root (unerase κ ρ) with
    | none =>
      obtain ⟨σ, hσ⟩ := unerase_prefix κ ρ [i]
      rw [← hσ, ptrAt_append, hm]
      rfl
    | some m =>
      have hpre : ¬ κ <+: unerase κ ρ := fun ⟨σ, hσ⟩ => unerase_ne hne ρ σ hσ.symm
      rw [Option.bind_some, Removes.childs_eq h hκ hne hr hm hpre]
      -- the children of the unit are at the paths one step on
      have hmem (j : ℕ) (z : Ptr) (hz : (H.childs m)[j]? = some z) :
          z ∈ L ↔ κ = unerase κ ρ ++ [j] := by
        rw [Removes.mem_iff h hκ hne hr (ptrAt_concat_eq_some.mpr ⟨m, hm, hz⟩),
          List.prefix_concat_iff, or_iff_left hpre]
      obtain ⟨κ, k, rfl⟩ := κ.eq_nil_or_concat'.resolve_left hne
      rw [unerase_concat]
      by_cases hρ : ρ = κ
      · subst hρ
        rw [unerase_parent] at hm hmem
        rw [if_pos rfl, filter_eq_eraseIdx (j := k) fun j z hz => ?_, List.getElem?_eraseIdx,
          ptrAt_concat, hm, Option.bind_some]
        · split_ifs <;> rfl
        · rw [decide_eq_false_iff_not, not_not, hmem j z hz, List.append_right_inj,
            List.cons.injEq, and_iff_left rfl, eq_comm]
      · have hall : (H.childs m).filter (fun z => decide (z ∉ L)) = H.childs m := by
          refine List.filter_eq_self.mpr fun z hz => decide_eq_true fun hin => hρ ?_
          obtain ⟨j, hj⟩ := List.mem_iff_getElem?.mp hz
          have hparent := List.append_inj_left' ((hmem j z hj).mp hin) rfl
          exact (lifts_unerase _).injective (hparent.symm.trans (unerase_parent κ k).symm)
        rw [if_neg hρ, hall, ptrAt_concat, hm, Option.bind_some]

/-- **A deleted unit** in memory is a subtree less. -/
theorem Holds.erase (hg : H.Holds root g) : H'.Holds root (g.erase κ) := by
  intro ρ
  rw [get?_erase g κ ρ hne, Removes.ptrAt_eq h hκ hne hr, hg]
  cases hm : H.ptrAt root (unerase κ ρ) with
  | none => rfl
  | some m =>
    have hpre : ¬ κ <+: unerase κ ρ := fun ⟨σ, hσ⟩ => unerase_ne hne ρ σ hσ.symm
    have hL := mt (Removes.mem_iff h hκ hne hr hm).mp hpre
    rw [Option.bind_some, Option.bind_some, h.isDag.cells_removes hr, if_neg hL]
    cases H.cells m <;> rfl

end delete

end UnitHeap

/-! ### Rooms -/

namespace HeapRoom

variable {α β : Type} {rel : HeapRoom → α → Prop} {rel' : HeapRoom → β → Prop} {R R' : HeapRoom}
  {RU RU' : RoomMap} {g s : NodeGraph} {π : Path} {myId : PeerId} {q : Ptr} {n lvl fuel : ℕ}
  {m : Except HeapFault HeapRoom}

/-- The room in memory has this many peers, and the units of the tree. -/
structure Shows (myId : PeerId) (n : ℕ) (R : HeapRoom) (g : NodeGraph) : Prop where
  count : R.nPeersInRoom = n
  tree : R.IsTree myId
  holds : R.heap.Holds R.iamRoot g

/-- The room in memory is the room. -/
def Sim (myId : PeerId) (R : HeapRoom) (RU : RoomMap) : Prop :=
  Shows myId RU.nPeersInRoom R RU.iamRoot

/-- What happens in memory where this comes of the tree: the same, unless `IamRoot` were freed or
memory exhausted. -/
def Follows (rel : HeapRoom → α → Prop) (m : Except HeapFault HeapRoom) :
    Except GraphFault α → Prop
  | .ok a => ∃ R, m = .ok R ∧ rel R a
  | .error .assertFailed => m = .error .assertFailed
  | .error _ => True

theorem Follows.bind {x : Except GraphFault α} {f : HeapRoom → Except HeapFault HeapRoom}
    {k : α → Except GraphFault β} (h : Follows rel m x)
    (hk : ∀ R a, rel R a → Follows rel' (f R) (k a)) : Follows rel' (m >>= f) (x >>= k) := by
  cases x with
  | ok a =>
    obtain ⟨R, rfl, hrel⟩ := h
    exact hk R a hrel
  | error F =>
    cases F with
    | assertFailed =>
      obtain rfl : m = .error .assertFailed := h
      rfl
    | outOfBounds | rootFreed | badAlloc => trivial

theorem follows_foldlM {ε : Type} {f : HeapRoom → ε → Except HeapFault HeapRoom}
    {f' : α → ε → Except GraphFault α} {l : List ε} {a : α}
    (hf : ∀ x ∈ l, ∀ R a, rel R a → Follows rel (f R x) (f' a x)) (hR : rel R a) :
    Follows rel (l.foldlM f R) (l.foldlM f' a) := by
  induction l generalizing R a with
  | nil => exact ⟨R, rfl, hR⟩
  | cons x l ih =>
    rw [List.foldlM_cons, List.foldlM_cons]
    exact (hf x List.mem_cons_self R a hR).bind fun R a hR =>
      ih (fun y hy => hf y (List.mem_cons_of_mem x hy)) hR

theorem Follows.return {x : Except GraphFault α} {k : α → β} (h : Follows rel m x)
    (hk : ∀ R a, rel R a → rel' R (k a)) : Follows rel' m (do let a ← x; return k a) := by
  cases x with
  | ok a =>
    obtain ⟨R, hR, hrel⟩ := h
    exact ⟨R, hR, hk R a hrel⟩
  | error F =>
    cases F with
    | assertFailed => exact h
    | outOfBounds | rootFreed | badAlloc => trivial

/-- In a room the unsigned subtraction does not wrap. -/
theorem isBelow_iff (h : R.IsTree myId) {c : UnitCell} (hq : R.heap.cells q = some c)
    (hmax : lvl ≤ maxLvl) : IsBelow lvl c.lvl ↔ (lvl : ℤ) = c.lvl + 1 := by
  obtain ⟨hlow, hhigh⟩ := h.lvl q c hq
  unfold IsBelow
  unfold maxLvl at hmax hhigh
  omega

theorem follows_new (hR : Shows myId n R g) (hq : R.heap.ptrAt R.iamRoot π = some q)
    (hs : g.sub π = some s) (hlvl : (lvl : ℤ) = s.value.lvl + 1) (hmax : lvl ≤ maxLvl) (x : PeerId)
    (roots : List Ptr) :
    Follows (Shows myId n) ((R.heap.newNodeUnit q lvl x).map fun heap =>
      { R with heap := heap, nodeUnitsGraphRoots := roots }) (newNodeUnit g π ⟨lvl, x⟩) := by
  unfold newNodeUnit
  split_ifs with hlen
  · obtain ⟨q', hq', hqs⟩ := hR.holds.sub hs
    obtain rfl := Option.some.inj (hq.symm.trans hq')
    obtain ⟨c, hc⟩ := Option.ne_none_iff_exists'.mp
      (hR.tree.live_ptrAt hR.tree.isDag.root_live hq)
    rw [hqs.cell hc] at hlvl
    obtain ⟨H', hnew, hsprouts⟩ :=
      UnitHeap.newNodeUnit_of_cells hc (hR.tree.ne_nextPtr hc) lvl x
    obtain ⟨H'', hnew', htree⟩ := hR.tree.new hc hlvl hmax x
    obtain rfl : H' = H'' := Except.ok.inj (hnew.symm.trans hnew')
    rw [hnew]
    exact ⟨_, rfl, hR.count, htree, hR.holds.new hR.tree hq hs hsprouts⟩
  · trivial

theorem follows_connectUnit (hmax : lvl ≤ maxLvl) (u : NodesMapDiffUnit)
    (hR : Shows myId n R g) :
    Follows (Shows myId n) (connectUnit lvl R u) (Yamb.connectUnit g lvl u) := by
  obtain ⟨childs, hroot⟩ := hR.tree.root_cell
  have hvalue : g.value = ⟨-1, myId⟩ := hR.holds.cell hroot
  unfold connectUnit Yamb.connectUnit
  by_cases hpids : u.parentIds = []
  · have hbelow : IsBelow lvl (-1) ↔ (lvl : ℤ) = -1 + 1 := isBelow_iff hR.tree hroot hmax
    rw [if_pos hpids, if_pos hpids, hvalue, UnitHeap.read_of_cells hroot]
    simp only [bind, Except.bind, pure, Except.pure]
    by_cases hb : IsBelow lvl (-1)
    · have hlvl := hbelow.mp hb
      rw [if_neg (not_not.mpr hb), if_neg (show ¬ (lvl : ℤ) - -1 ≠ 1 by omega)]
      by_cases hzero : lvl ≠ 0
      · rw [if_pos hzero, if_pos hzero]
        rfl
      · rw [if_neg hzero, if_neg hzero]
        exact follows_new hR rfl (sub_nil g) (by rw [hvalue]; exact hlvl) hmax u.id _
    · rw [if_pos hb, if_pos (show (lvl : ℤ) - -1 ≠ 1 from fun heq => hb (hbelow.mpr (by omega)))]
      rfl
  · rw [if_neg hpids, if_neg hpids, UnitHeap.findInGraphByChain, findInGraphByChain, hvalue,
      hR.holds.followChain hR.tree hR.tree.isDag.root_live]
    cases hπ : followChain myId g u.parentIds.reverse with
    | none => rfl
    | some π =>
      obtain ⟨s, hs⟩ := exists_sub_of_followChain hπ
      obtain ⟨q, hq, hqs⟩ := hR.holds.sub hs
      obtain ⟨c, hc⟩ := Option.ne_none_iff_exists'.mp
        (hR.tree.live_ptrAt hR.tree.isDag.root_live hq)
      have hlvl : lvlAt g π = c.lvl := by
        rw [lvlAt_of_get? (get?_of_sub hs), hqs.cell hc]
        rfl
      have hbelow := isBelow_iff hR.tree hc hmax
      simp only [bind, Except.bind, Option.bind_some, hq, UnitHeap.read_of_cells hc, hlvl]
      by_cases hb : IsBelow lvl c.lvl
      · have hlvl := hbelow.mp hb
        rw [if_neg (not_not.mpr hb), if_neg (show ¬ (lvl : ℤ) - c.lvl ≠ 1 by omega)]
        exact follows_new hR hq hs (by rw [hqs.cell hc]; exact hlvl) hmax u.id _
      · rw [if_pos hb,
          if_pos (show (lvl : ℤ) - c.lvl ≠ 1 from fun heq => hb (hbelow.mpr (by omega)))]
        rfl

theorem follows_disconnectUnit (hfuel : maxLvl + 2 ≤ fuel) (u : NodesMapDiffUnit)
    (hR : Shows myId n R g) :
    Follows (Shows myId n) (disconnectUnit fuel R u) (Yamb.disconnectUnit g u) := by
  have hlive := hR.tree.isDag.root_live
  unfold disconnectUnit Yamb.disconnectUnit
  rw [UnitHeap.findInGraphWithParents, findInGraphWithParents,
    hR.holds.findInTurn hR.tree hlive hfuel]
  simp only [bind, Except.bind]
  cases hπ : findInTurn g (u.parentIds.reverse ++ [u.id]) with
  | none =>
    rw [Option.bind_none, UnitHeap.deleteNodeFromGraph]
    exact ⟨_, rfl, hR.count, hR.tree, hR.holds⟩
  | some π =>
    cases π with
    | nil => trivial
    | cons i π =>
      obtain ⟨s, hs, -⟩ := findInTurn_append_singleton hπ
      obtain ⟨q, hq, -⟩ := hR.holds.sub hs
      have hq' := hR.tree.live_ptrAt hlive hq
      have hne : q ≠ R.iamRoot := by
        rintro rfl
        cases hR.tree.ptrAt_injective (ρ := []) hq rfl
      obtain ⟨c, hc⟩ := Option.ne_none_iff_exists'.mp hq'
      obtain ⟨H', hdel, htree⟩ := hR.tree.delete hq' hne hfuel
      obtain ⟨H'', L, hdel', hr⟩ := hR.tree.isDag.exists_removes hq' R.heap.depth
        (fun _ _ => hR.tree.depth_lt) ((hR.tree.depth_le hc).trans_le hfuel)
      obtain rfl : H' = H'' := Except.ok.inj (hdel.symm.trans hdel')
      rw [Option.bind_some, hq, hdel]
      exact ⟨_, rfl, hR.count, htree,
        hR.holds.erase hR.tree hq (List.cons_ne_nil i π) hr⟩

theorem sim_create (myId : PeerId) : Sim myId (createRoomUnit myId) (createRoomMap myId) where
  count := rfl
  tree := isTree_create myId
  holds := by
    intro π
    cases π with
    | nil => rfl
    | cons i π => rfl

/-- **`OnNodesMapDiff` in memory follows `OnNodesMapDiff` on the tree.** -/
theorem onNodesMapDiff_follows (hfuel : maxLvl + 2 ≤ fuel) (hR : Sim myId R RU)
    (diff : NodesMapDiff) :
    Follows (Sim myId) (R.onNodesMapDiff fuel diff) (RU.onNodesMapDiff diff) := by
  have hconnect : Follows (Sim myId) (diff.connectedBylvls.foldlM connectLvl R)
      (diff.connectedBylvls.foldlM RoomMap.connectLvl RU) := by
    refine follows_foldlM (fun pair _ R RU h => ?_) hR
    refine Follows.return (follows_foldlM (fun u _ R g h =>
      follows_connectUnit (Nat.min_le_right _ _) u h) ⟨?_, h.tree, h.holds⟩) fun R g h => h
    exact congrArg (fun n => (n + pair.2.length) % 2 ^ 64) h.count
  have hdisconnect (R : HeapRoom) (RU : RoomMap) (h : Sim myId R RU) : Follows (Sim myId)
      (diff.disconnectedBylvls.foldlM (disconnectLvl fuel) R)
      (diff.disconnectedBylvls.foldlM RoomMap.disconnectLvl RU) := by
    refine follows_foldlM (fun pair _ R RU h => ?_) h
    refine Follows.return (follows_foldlM (fun u _ R g h =>
      follows_disconnectUnit hfuel u h) ⟨?_, h.tree, h.holds⟩) fun R g h => h
    exact congrArg (fun n : ℕ => ((n - pair.2.length : ℤ) % 2 ^ 64).toNat) h.count
  unfold onNodesMapDiff RoomMap.onNodesMapDiff
  exact hconnect.bind hdisconnect

/-- **The room in memory is the room**, after every sequence of differences. -/
theorem run_simulates (hfuel : maxLvl + 2 ≤ fuel) {ds : List NodesMapDiff}
    (h : Lts.Run GraphStep (createRoomMap myId) ds RU) : ∃ R,
      Lts.Run (fun R diff R' => R.onNodesMapDiff fuel diff = .ok R') (createRoomUnit myId) ds R ∧
        Sim myId R RU := by
  obtain ⟨ds', R, hrun, hR, hds⟩ : ∃ ds' R,
      Lts.Run (fun R diff R' => R.onNodesMapDiff fuel diff = .ok R') (createRoomUnit myId) ds' R ∧
        Sim myId R RU ∧ List.Forall₂ Eq ds ds' := by
    refine h.simulate (R := fun RU R => Sim myId R RU) (sim_create myId) fun RU diff RU' R hR he => ?_
    have hfollows := onNodesMapDiff_follows hfuel hR diff
    rw [show RU.onNodesMapDiff diff = .ok RU' from he] at hfollows
    obtain ⟨R', hR', hsim⟩ := hfollows
    exact ⟨diff, R', rfl, hR', hsim⟩
  rw [List.forall₂_eq_eq_eq] at hds
  rw [hds]
  exact ⟨R, hrun, hR⟩

end HeapRoom

end Yamb
