import Yamb.Lib.Dag
import Yamb.Lib.Lts
import Yamb.Topology.Heap

/-!
# Deleting a unit and what hangs on it

* `Ready`: the links below a unit, in the middle of the recursion, when those above it are cut;
* `Cut`: the loop over the children of a unit, after some of them; `Cut.visit`: one turn;
* `Frees`, `deletes`: what the recursion does to a unit that has lost its parents;
* `IsDag`: units that all hang below a root, without cycles;
* **`deleteNodeFromGraph_frees`**: of these, deleting a unit frees what is reached through it only.
-/

set_option autoImplicit false

namespace Yamb

namespace UnitHeap

variable {H H' H₁ : UnitHeap} {p q r m child : Ptr} {D xs ys : List Ptr} {rank : Ptr → ℕ} {fuel k : ℕ}

/-- The links of the units up to a rank are there in both directions, and lead to lower ranks. -/
structure Ready (rank : Ptr → ℕ) (H : UnitHeap) (k : ℕ) : Prop where
  linked : ∀ p q, H.cells p ≠ none → rank p ≤ k → (q ∈ H.childs p ↔ p ∈ H.parents q)
  nodup : ∀ p, (H.childs p).Nodup
  drops : ∀ p q, q ∈ H.childs p → rank q < rank p

/-- The recursion has deleted `p` and the units `D`, of which `p` is one. -/
structure Frees (rank : Ptr → ℕ) (H H' : UnitHeap) (p : Ptr) (D : List Ptr) : Prop where
  trims : Trims H H' D fun _ r => decide (r ∉ D)
  freed : H'.freed = H.freed ++ D
  next : H'.nextPtr = H.nextPtr
  nodup : D.Nodup
  self : p ∈ D
  live : ∀ m ∈ D, H.cells m ≠ none
  rank_le : ∀ m ∈ D, rank m ≤ rank p
  orphans : ∀ m ∈ D, m ≠ p → H.parents m ≠ [] ∧ ∀ r ∈ H.parents m, r ∈ D
  kept : ∀ q ∉ D, H.parents q ≠ [] → H'.parents q ≠ []

/-- The loop of `p` has gone through its children `xs`, and units `D` were deleted with them. -/
structure Cut (rank : Ptr → ℕ) (H H' : UnitHeap) (p : Ptr) (xs D : List Ptr) : Prop where
  trims : Trims H H' D fun q r => decide (r ∉ D ∧ ¬ (r = p ∧ q ∈ xs))
  freed : H'.freed = H.freed ++ D
  next : H'.nextPtr = H.nextPtr
  nodup : D.Nodup
  live : ∀ m ∈ D, H.cells m ≠ none
  rank_lt : ∀ m ∈ D, rank m < rank p
  orphans : ∀ m ∈ D, H.parents m ≠ [] ∧ ∀ r ∈ H.parents m, r ∈ D ∨ r = p ∧ m ∈ xs
  kept : ∀ q ∉ D, H.parents q ≠ [] → H'.parents q ≠ []

theorem cut_nil (rank : Ptr → ℕ) (H : UnitHeap) (p : Ptr) : Cut rank H H p [] [] where
  trims := (trims_refl H).congr fun q _ r _ => by simp
  freed := (List.append_nil _).symm
  next := rfl
  nodup := List.nodup_nil
  live := fun _ hm => absurd hm List.not_mem_nil
  rank_lt := fun _ hm => absurd hm List.not_mem_nil
  orphans := fun _ hm => absurd hm List.not_mem_nil
  kept := fun _ _ h => h

theorem Cut.mem_parents_iff (h : Cut rank H H' p xs D) :
    r ∈ H'.parents q ↔ q ∉ D ∧ r ∈ H.parents q ∧ r ∉ D ∧ ¬ (r = p ∧ q ∈ xs) := by
  rw [h.trims.mem_parents_iff, decide_eq_true_iff]

theorem Cut.notMem_self (h : Cut rank H H' p xs D) : p ∉ D :=
  fun hp => Nat.lt_irrefl _ (h.rank_lt p hp)

/-- A child that the loop has not come to is still there. -/
theorem Cut.notMem_child (h : Cut rank H H' p xs D) (hr : p ∈ H.parents child) (hx : child ∉ xs) :
    child ∉ D := by
  intro hc
  rcases (h.orphans child hc).2 p hr with hp | ⟨-, hmem⟩
  · exact h.notMem_self hp
  · exact hx hmem

/-- The loop takes `p` away from a child. -/
theorem Cut.trims_erase (h : Cut rank H H' p xs D)
    (htrims : Trims H' H₁ [] fun q r => !decide (q = child ∧ r = p)) :
    Trims H H₁ D fun q r => decide (r ∉ D ∧ ¬ (r = p ∧ q ∈ xs ++ [child])) := by
  have htrans := h.trims.trans htrims
  rw [List.append_nil] at htrans
  refine htrans.congr fun q _ r _ => ?_
  rw [Bool.eq_iff_iff]
  simp only [Bool.and_eq_true, decide_eq_true_eq, Bool.not_eq_true', decide_eq_false_iff_not,
    List.mem_append, List.mem_singleton]
  tauto

theorem Cut.orphans_erase (h : Cut rank H H' p xs D) (hm : m ∈ D) (child : Ptr) :
    H.parents m ≠ [] ∧ ∀ r ∈ H.parents m, r ∈ D ∨ r = p ∧ m ∈ xs ++ [child] := by
  obtain ⟨hne, hall⟩ := h.orphans m hm
  exact ⟨hne, fun r hr => (hall r hr).imp_right fun hc => ⟨hc.1, List.mem_append_left _ hc.2⟩⟩

/-- The child keeps another parent. -/
theorem Cut.erase (h : Cut rank H H' p xs D)
    (htrims : Trims H' H₁ [] fun q r => !decide (q = child ∧ r = p))
    (hfreed : H₁.freed = H'.freed) (hnext : H₁.nextPtr = H'.nextPtr)
    (hkept : H₁.parents child ≠ []) : Cut rank H H₁ p (xs ++ [child]) D where
  trims := h.trims_erase htrims
  freed := hfreed.trans h.freed
  next := hnext.trans h.next
  nodup := h.nodup
  live := h.live
  rank_lt := h.rank_lt
  orphans := fun _ hm => h.orphans_erase hm child
  kept := by
    intro q hq hne
    by_cases hqc : q = child
    · rw [hqc]
      exact hkept
    · have heq : H₁.parents q = H'.parents q := by
        rw [htrims.parents_eq List.not_mem_nil]
        simp [hqc]
      rw [heq]
      exact h.kept q hq hne

/-- The units below a child are as they were at the start of the loop. -/
theorem Ready.of_trims (hready : Ready rank H (rank p))
    (htrims : Trims H H' D fun q r => decide (r ∉ D ∧ ¬ (r = p ∧ q ∈ xs)))
    (horphans : ∀ m ∈ D, ∀ r ∈ H.parents m, r ∈ D ∨ r = p ∧ m ∈ xs) (hk : k < rank p) :
    Ready rank H' k where
  linked := by
    intro r q hr hrank
    obtain ⟨hrD, hlive⟩ := htrims.live_iff.mp hr
    have hne : r ≠ p := by
      rintro rfl
      omega
    rw [htrims.childs_eq hrD, hready.linked r q hlive (by omega), htrims.mem_parents_iff,
      decide_eq_true_iff]
    refine ⟨fun hmem => ⟨fun hq => ?_, hmem, hrD, fun hc => hne hc.1⟩, fun hc => hc.2.1⟩
    rcases horphans q hq r hmem with hr' | ⟨heq, -⟩
    · exact hrD hr'
    · exact hne heq
  nodup := by
    intro q
    by_cases hq : q ∈ D
    · have hnone : H'.childs q = [] := by
        rw [childs, htrims q, if_pos hq]
        rfl
      rw [hnone]
      exact List.nodup_nil
    · rw [htrims.childs_eq hq]
      exact hready.nodup q
  drops := by
    intro r q hq
    have hr := (htrims.live_iff.mp (live_of_mem_childs hq)).1
    rw [htrims.childs_eq hr] at hq
    exact hready.drops r q hq

/-- The child has lost its last parent, and the recursion deletes it. -/
theorem Cut.delete {D' : List Ptr} {H₂ : UnitHeap} (h : Cut rank H H' p xs D)
    (hr : p ∈ H.parents child) (hrank : rank child < rank p)
    (htrims : Trims H' H₁ [] fun q r => !decide (q = child ∧ r = p))
    (hfreed : H₁.freed = H'.freed) (hnext : H₁.nextPtr = H'.nextPtr)
    (hempty : H₁.parents child = []) (hf : Frees rank H₁ H₂ child D') :
    Cut rank H H₂ p (xs ++ [child]) (D ++ D') := by
  have hlive₁ : ∀ q, H₁.cells q ≠ none ↔ q ∉ D ∧ H.cells q ≠ none := fun q => by
    rw [htrims.live_iff, and_iff_right List.not_mem_nil, h.trims.live_iff]
  have hmem₁ : ∀ q r, r ∈ H₁.parents q ↔
      (q ∉ D ∧ r ∈ H.parents q ∧ r ∉ D ∧ ¬ (r = p ∧ q ∈ xs)) ∧ ¬ (q = child ∧ r = p) := fun q r => by
    rw [htrims.mem_parents_iff, and_iff_right List.not_mem_nil, h.mem_parents_iff,
      Bool.not_eq_true', decide_eq_false_iff_not]
  constructor
  · refine ((h.trims_erase htrims).trans hf.trims).congr fun q _ r _ => ?_
    rw [Bool.eq_iff_iff]
    simp only [Bool.and_eq_true, decide_eq_true_eq, List.mem_append]
    tauto
  · rw [hf.freed, hfreed, h.freed, List.append_assoc]
  · rw [hf.next, hnext, h.next]
  · refine h.nodup.append hf.nodup fun m hm hm' => ?_
    exact ((hlive₁ m).mp (hf.live m hm')).1 hm
  · intro m hm
    rcases List.mem_append.mp hm with hm | hm
    · exact h.live m hm
    · exact ((hlive₁ m).mp (hf.live m hm)).2
  · intro m hm
    rcases List.mem_append.mp hm with hm | hm
    · exact h.rank_lt m hm
    · exact (hf.rank_le m hm).trans_lt hrank
  · intro m hm
    simp only [List.mem_append, List.mem_singleton]
    rcases List.mem_append.mp hm with hm | hm
    · obtain ⟨hne, hall⟩ := h.orphans m hm
      refine ⟨hne, fun r hr => ?_⟩
      exact (hall r hr).imp .inl fun hc => ⟨hc.1, .inl hc.2⟩
    · have hmD := ((hlive₁ m).mp (hf.live m hm)).1
      by_cases hmc : m = child
      · -- what the child had for parents is deleted, or `p`
        subst hmc
        refine ⟨List.ne_nil_of_mem hr, fun r hr' => ?_⟩
        have hout : r ∉ H₁.parents m := by
          rw [hempty]
          exact List.not_mem_nil
        rw [hmem₁] at hout
        tauto
      · obtain ⟨hne, hall⟩ := hf.orphans m hm hmc
        obtain ⟨r, hr⟩ := List.exists_mem_of_ne_nil _ hne
        refine ⟨List.ne_nil_of_mem ((hmem₁ m r).mp hr).1.2.1, fun r hr' => ?_⟩
        by_cases hin : r ∈ H₁.parents m
        · exact .inl (.inr (hall r hin))
        · rw [hmem₁] at hin
          tauto
  · intro q hq hne
    obtain ⟨hqD, hqD'⟩ := not_or.mp fun hor => hq (List.mem_append.mpr hor)
    have hqc : q ≠ child := fun heq => hqD' (heq ▸ hf.self)
    refine hf.kept q hqD' ?_
    have heq : H₁.parents q = H'.parents q := by
      rw [htrims.parents_eq List.not_mem_nil]
      simp [hqc]
    rw [heq]
    exact h.kept q hqD hne

/-! ### The recursion -/

/-- The body of the loop over the children. -/
def childBody (fuel : ℕ) (deleting : Ptr) (H : UnitHeap) (child : Ptr) :
    Except HeapFault UnitHeap := do
  let H ← H.eraseParent child deleting
  let c ← H.read child
  if c.parents = [] then deleteNodeFromGraph fuel H (some child) else return H

/-- Units up to a rank whose parents are all gone are deleted as `Frees` says. -/
def Deletes (rank : Ptr → ℕ) (fuel : ℕ) : Prop :=
  ∀ H p, Ready rank H (rank p) → H.cells p ≠ none → H.parents p = [] → rank p < fuel →
    ∃ H' D, deleteNodeFromGraph fuel H (some p) = .ok H' ∧ Frees rank H H' p D

/-- **One turn** of the loop over the children. -/
theorem Cut.visit (hrec : Deletes rank fuel) (hready : Ready rank H (rank p))
    (hp : H.cells p ≠ none) (hfuel : rank p < fuel + 1) (h : Cut rank H H' p xs D)
    (hc : child ∈ H.childs p) (hx : child ∉ xs) :
    ∃ H₂ D₂, childBody fuel p H' child = .ok H₂ ∧ Cut rank H H₂ p (xs ++ [child]) D₂ := by
  have hr : p ∈ H.parents child := (hready.linked p child hp le_rfl).mp hc
  have hrank := hready.drops p child hc
  have hcD := h.notMem_child hr hx
  have hlive : H'.cells child ≠ none := h.trims.live_iff.mpr ⟨hcD, live_of_mem_parents hr⟩
  obtain ⟨H₁, herase, htrims, hfreed, hnext⟩ := trims_eraseParent hlive p
  have hlive₁ : H₁.cells child ≠ none := htrims.live_iff.mpr ⟨List.not_mem_nil, hlive⟩
  obtain ⟨c, hcell⟩ := Option.ne_none_iff_exists'.mp hlive₁
  have hbody : childBody fuel p H' child =
      if c.parents = [] then deleteNodeFromGraph fuel H₁ (some child) else .ok H₁ := by
    rw [childBody, herase]
    show (do let c ← H₁.read child; _) = _
    rw [read_of_cells hcell]
    rfl
  rw [hbody, ← parents_of_cells hcell]
  split_ifs with hempty
  · have hready₁ : Ready rank H₁ (rank child) :=
      hready.of_trims (h.trims_erase htrims) (fun m hm => (h.orphans_erase hm child).2) hrank
    obtain ⟨H₂, D', hdel, hf⟩ := hrec H₁ child hready₁ hlive₁ hempty (by omega)
    exact ⟨H₂, D ++ D', hdel, h.delete hr hrank htrims hfreed hnext hempty hf⟩
  · exact ⟨H₁, D, rfl, h.erase htrims hfreed hnext hempty⟩

/-- The loop over the rest of the children. -/
theorem Cut.loop (hrec : Deletes rank fuel) (hready : Ready rank H (rank p)) {c : UnitCell}
    (hp : H.cells p = some c) (hfuel : rank p < fuel + 1) (ys : List Ptr)
    (h : Cut rank H H' p xs D) (hxy : xs ++ ys = c.childs) :
    ∃ H₂ D₂, ys.foldlM (turn UnitCell.childs p c.childs (childBody fuel p)) H' = .ok H₂ ∧
      Cut rank H H₂ p (xs ++ ys) D₂ := by
  have hlive : H.cells p ≠ none := by
    rw [hp]
    exact Option.some_ne_none c
  induction ys generalizing xs D H' with
  | nil =>
    rw [List.append_nil]
    exact ⟨H', D, rfl, h⟩
  | cons child ys ih =>
    have hc : child ∈ H.childs p := by
      rw [childs_of_cells hp, ← hxy]
      exact List.mem_append_right xs List.mem_cons_self
    have hx : child ∉ xs := by
      have hnd := hready.nodup p
      rw [childs_of_cells hp, ← hxy, List.nodup_middle, List.nodup_cons] at hnd
      exact fun hmem => hnd.1 (List.mem_append_left ys hmem)
    obtain ⟨H₁, D₁, hbody, h₁⟩ := h.visit hrec hready hlive hfuel hc hx
    obtain ⟨H₂, D₂, hloop, h₂⟩ := ih h₁ (by rw [List.append_assoc]; exact hxy)
    have hcell := h.trims p
    rw [if_neg h.notMem_self, hp, Option.map_some] at hcell
    refine ⟨H₂, D₂, ?_, by rwa [List.append_assoc] at h₂⟩
    rw [List.foldlM_cons, turn_of_cells hcell rfl, hbody]
    exact hloop

/-- **The loop over the children** of a unit. -/
theorem exists_cut (hrec : Deletes rank fuel) (hready : Ready rank H (rank p)) {c : UnitCell}
    (hp : H.cells p = some c) (hfuel : rank p < fuel + 1) :
    ∃ H₂ D, H.forEach UnitCell.childs p (childBody fuel p) = .ok H₂ ∧
      Cut rank H H₂ p c.childs D := by
  rw [forEach_of_cells UnitCell.childs hp]
  exact (cut_nil rank H p).loop hrec hready hp hfuel c.childs rfl

/-- **The loop over the parents** takes `p` away from each of them. -/
theorem exists_eraseChilds {c : UnitCell} (hp : H.cells p = some c) (ps : List Ptr)
    (hlive : ∀ r ∈ ps, H.cells r ≠ none ∧ r ≠ p) :
    ∃ H', ps.foldlM (turn UnitCell.parents p c.parents fun H parent => H.eraseChild parent p) H =
        .ok H' ∧
      (∀ q, H'.cells q = (H.cells q).map fun c =>
        if q ∈ ps then { c with childs := c.childs.filter fun r => decide (r ≠ p) } else c) ∧
      H'.freed = H.freed ∧ H'.nextPtr = H.nextPtr := by
  induction ps generalizing H with
  | nil =>
    refine ⟨H, rfl, fun q => ?_, rfl, rfl⟩
    simp
  | cons r ps ih =>
    obtain ⟨hr, hne⟩ := hlive r List.mem_cons_self
    obtain ⟨cr, hcr⟩ := Option.ne_none_iff_exists'.mp hr
    have herase : H.eraseChild r p =
        .ok (H.write r { cr with childs := cr.childs.filter fun r => decide (r ≠ p) }) := by
      rw [eraseChild, read_of_cells hcr]
      rfl
    have hcells (q : Ptr) : (H.write r { cr with
        childs := cr.childs.filter fun r => decide (r ≠ p) }).cells q = (H.cells q).map fun c =>
          if q = r then { c with childs := c.childs.filter fun r => decide (r ≠ p) } else c := by
      by_cases hq : q = r
      · subst hq
        rw [hcr]
        refine (Function.update_self _ _ _).trans ?_
        simp
      · refine (Function.update_of_ne hq _ _).trans ?_
        simp [hq]
    obtain ⟨H', hloop, hcells', hfreed, hnext⟩ := ih (H := H.write r { cr with
        childs := cr.childs.filter fun r => decide (r ≠ p) })
      (by rw [hcells, hp, Option.map_some, if_neg (Ne.symm hne)]) fun x hx => by
        obtain ⟨hxl, hxp⟩ := hlive x (List.mem_cons_of_mem r hx)
        refine ⟨?_, hxp⟩
        rw [hcells, ne_eq, Option.map_eq_none_iff]
        exact hxl
    refine ⟨H', ?_, fun q => ?_, hfreed, hnext⟩
    · rw [List.foldlM_cons, turn_of_cells hp rfl, herase]
      exact hloop
    · rw [hcells', hcells, Option.map_map]
      cases H.cells q with
      | none => rfl
      | some c =>
        simp only [Option.map_some, Function.comp_apply, List.mem_cons]
        by_cases hqr : q = r <;> by_cases hqp : q ∈ ps <;> simp [hqr, hqp, List.filter_filter]

/-- The units `D` are deleted, `p` among them: the others lose these parents, and the parents of `p`
lose this child. -/
structure Removes (rank : Ptr → ℕ) (H H' : UnitHeap) (p : Ptr) (D : List Ptr) : Prop where
  cells : ∀ q, H'.cells q = if q ∈ D then none else (H.cells q).map fun c => { c with
    parents := c.parents.filter fun r => decide (r ∉ D)
    childs := if q ∈ H.parents p then c.childs.filter fun r => decide (r ≠ p) else c.childs }
  freed : H'.freed = H.freed ++ D
  next : H'.nextPtr = H.nextPtr
  nodup : D.Nodup
  self : p ∈ D
  live : ∀ m ∈ D, H.cells m ≠ none
  rank_le : ∀ m ∈ D, rank m ≤ rank p
  orphans : ∀ m ∈ D, m ≠ p → H.parents m ≠ [] ∧ ∀ r ∈ H.parents m, r ∈ D
  kept : ∀ q ∉ D, H.parents q ≠ [] → ∃ r ∈ H.parents q, r ∉ D

theorem Removes.frees (h : Removes rank H H' p D) (hempty : H.parents p = []) :
    Frees rank H H' p D := by
  have htrims : Trims H H' D fun _ r => decide (r ∉ D) := by
    intro q
    rw [h.cells q]
    simp only [hempty, List.not_mem_nil, if_false]
  refine ⟨htrims, h.freed, h.next, h.nodup, h.self, h.live, h.rank_le, h.orphans, fun q hq hne => ?_⟩
  obtain ⟨r, hr, hrD⟩ := h.kept q hq hne
  exact List.ne_nil_of_mem (htrims.mem_parents_iff.mpr ⟨hq, hr, decide_eq_true hrD⟩)

/-- After the loops: the units that were cut off, the parents of `p`, and `p` itself. -/
theorem Cut.removes {c : UnitCell} {H₂ H₃ : UnitHeap} (hready : Ready rank H (rank p))
    (hp : H.cells p = some c) (h : Cut rank H H₂ p c.childs D)
    (hcells : ∀ q, H₃.cells q = (H₂.cells q).map fun c' =>
      if q ∈ c.parents then { c' with childs := c'.childs.filter fun r => decide (r ≠ p) } else c')
    (hfreed : H₃.freed = H₂.freed) (hnext : H₃.nextPtr = H₂.nextPtr) :
    Removes rank H (H₃.without p) p (D ++ [p]) := by
  have hlive : H.cells p ≠ none := by
    rw [hp]
    exact Option.some_ne_none c
  have hlinked : ∀ q, p ∈ H.parents q → q ∈ c.childs := fun q hq => by
    rw [← childs_of_cells hp]
    exact (hready.linked p q hlive le_rfl).mpr hq
  have hmem : ∀ x, x ∈ D ++ [p] ↔ x ∈ D ∨ x = p := fun x => by
    rw [List.mem_append, List.mem_singleton]
  have hself : p ∉ D := h.notMem_self
  constructor
  · intro q
    show Function.update H₃.cells p none q = _
    by_cases hq : q = p
    · rw [hq, Function.update_self, if_pos ((hmem p).mpr (.inr rfl))]
    · rw [Function.update_of_ne hq, hcells q, h.trims q]
      by_cases hqD : q ∈ D
      · rw [if_pos hqD, if_pos ((hmem q).mpr (.inl hqD)), Option.map_none]
      · rw [if_neg hqD, if_neg fun hin => ((hmem q).mp hin).elim hqD hq, parents_of_cells hp]
        cases hcq : H.cells q with
        | none => rfl
        | some cq =>
          have hfilter : cq.parents.filter (fun r => decide (r ∉ D ∧ ¬ (r = p ∧ q ∈ c.childs))) =
              cq.parents.filter fun r => decide (r ∉ D ++ [p]) := by
            refine List.filter_congr fun r hr => decide_eq_decide.mpr ?_
            rw [hmem, not_or]
            refine and_congr_right fun _ => not_congr ⟨fun hc => hc.1, fun hc => ⟨hc, ?_⟩⟩
            refine hlinked q ?_
            rw [parents_of_cells hcq, ← hc]
            exact hr
          simp only [Option.map_some, hfilter]
          split_ifs <;> rfl
  · show H₃.freed ++ [p] = _
    rw [hfreed, h.freed, List.append_assoc]
  · exact hnext.trans h.next
  · exact h.nodup.append (List.nodup_singleton p) (List.disjoint_singleton.mpr hself)
  · exact (hmem p).mpr (.inr rfl)
  · intro m hm
    rcases (hmem m).mp hm with hm | rfl
    · exact h.live m hm
    · exact hlive
  · intro m hm
    rcases (hmem m).mp hm with hm | rfl
    · exact (h.rank_lt m hm).le
    · exact le_rfl
  · intro m hm hne
    obtain ⟨hpar, hall⟩ := h.orphans m (((hmem m).mp hm).resolve_right hne)
    refine ⟨hpar, fun r hr => (hmem r).mpr ((hall r hr).imp_right fun hc => hc.1)⟩
  · intro q hq hne
    obtain ⟨hqD, hqp⟩ := not_or.mp fun hor => hq ((hmem q).mpr hor)
    obtain ⟨r, hr⟩ := List.exists_mem_of_ne_nil _ (h.kept q hqD hne)
    obtain ⟨-, hr, hrD, hcut⟩ := h.mem_parents_iff.mp hr
    refine ⟨r, hr, fun hin => ?_⟩
    rcases (hmem r).mp hin with hin | rfl
    · exact hrD hin
    · exact hcut ⟨rfl, hlinked q hr⟩

/-- **Deleting a unit** whose parents, if it has any, are above it. -/
theorem exists_removes (hrec : Deletes rank fuel) (hready : Ready rank H (rank p))
    (hlive : H.cells p ≠ none)
    (hpar : ∀ r ∈ H.parents p, H.cells r ≠ none ∧ rank p < rank r) (hfuel : rank p < fuel + 1) :
    ∃ H' D, deleteNodeFromGraph (fuel + 1) H (some p) = .ok H' ∧ Removes rank H H' p D := by
  obtain ⟨c, hp⟩ := Option.ne_none_iff_exists'.mp hlive
  rw [parents_of_cells hp] at hpar
  obtain ⟨H₂, D, hloop, h⟩ := exists_cut hrec hready hp hfuel
  have habove : ∀ r ∈ c.parents, r ∉ D ∧ r ≠ p := by
    intro r hr
    have hrank := (hpar r hr).2
    refine ⟨fun hD => ?_, ?_⟩
    · have := h.rank_lt r hD
      omega
    · rintro rfl
      omega
  have hp₂ : H₂.cells p = some c := by
    have hfilter : c.parents.filter (fun r => decide (r ∉ D ∧ ¬ (r = p ∧ p ∈ c.childs))) =
        c.parents := List.filter_eq_self.mpr fun r hr =>
      decide_eq_true ⟨(habove r hr).1, fun hc => (habove r hr).2 hc.1⟩
    rw [h.trims p, if_neg h.notMem_self, hp, Option.map_some, hfilter]
  obtain ⟨H₃, hloop', hcells, hfreed, hnext⟩ := exists_eraseChilds hp₂ c.parents fun r hr =>
    ⟨h.trims.live_iff.mpr ⟨(habove r hr).1, (hpar r hr).1⟩, (habove r hr).2⟩
  have hp₃ : H₃.cells p = some c := by
    rw [hcells, hp₂, Option.map_some, if_neg fun hin => (habove p hin).2 rfl]
  refine ⟨H₃.without p, D ++ [p], ?_, h.removes hready hp hcells hfreed hnext⟩
  rw [deleteNodeFromGraph]
  show (do let H ← H.forEach UnitCell.childs p (childBody fuel p); _) = _
  rw [hloop]
  show (do let H ← H₂.forEach UnitCell.parents p _; _) = _
  rw [forEach_of_cells UnitCell.parents hp₂, hloop']
  exact delete_of_cells hp₃

/-- **The recursion**, for every depth. -/
theorem deletes (rank : Ptr → ℕ) (fuel : ℕ) : Deletes rank fuel := by
  induction fuel with
  | zero => exact fun H p _ _ _ hlt => absurd hlt (Nat.not_lt_zero _)
  | succ fuel hrec =>
    intro H p hready hlive hempty hfuel
    obtain ⟨H', D, hdel, h⟩ := exists_removes hrec hready hlive (by simp [hempty]) hfuel
    exact ⟨H', D, hdel, h.frees hempty⟩

/-! ### Graphs without cycles -/

/-- The units hang below `root`: finitely many, without cycles, with links in both directions that
are listed once. -/
structure IsDag (H : UnitHeap) (root : Ptr) : Prop where
  finite : {p | H.cells p ≠ none}.Finite
  root_live : H.cells root ≠ none
  linked : ∀ p q, q ∈ H.childs p ↔ p ∈ H.parents q
  childs_nodup : ∀ p, (H.childs p).Nodup
  parents_nodup : ∀ p, (H.parents p).Nodup
  acyclic : ∀ p, ¬ Relation.TransGen H.Child p p
  reachable : ∀ p, H.cells p ≠ none → Relation.ReflTransGen H.Child root p

variable {root n : Ptr} {L : List Ptr}

theorem IsDag.live_of_child (h : H.IsDag root) (hpq : H.Child p q) : H.cells q ≠ none :=
  live_of_mem_parents ((h.linked p q).mp hpq)

theorem IsDag.below_lt (h : H.IsDag root) (hpq : q ∈ H.childs p) :
    Dag.below H.Child q < Dag.below H.Child p :=
  Dag.below_lt h.finite (fun _ _ => h.live_of_child) h.acyclic hpq

theorem IsDag.parents_root (h : H.IsDag root) : H.parents root = [] := by
  by_contra hne
  obtain ⟨r, hr⟩ := List.exists_mem_of_ne_nil _ hne
  have hchild : H.Child r root := (h.linked r root).mpr hr
  exact h.acyclic root (Relation.TransGen.tail' (h.reachable r (live_of_mem_childs hchild)) hchild)

theorem IsDag.parents_ne_nil (h : H.IsDag root) (hp : H.cells p ≠ none) (hne : p ≠ root) :
    H.parents p ≠ [] := by
  rcases Relation.ReflTransGen.cases_tail (h.reachable p hp) with rfl | ⟨r, -, hr⟩
  · exact absurd rfl hne
  · exact List.ne_nil_of_mem ((h.linked r p).mp hr)

/-- The deleted units are those that `n` cuts off. -/
theorem IsDag.mem_removes_iff (h : H.IsDag root) (hne : n ≠ root) {rank : Ptr → ℕ}
    (hr : Removes rank H H' n L) (p : Ptr) :
    p ∈ L ↔ H.cells p ≠ none ∧ (p = n ∨ ¬ Dag.Avoids H.Child n root p) := by
  have hroot : root ∉ L := fun hin => (hr.orphans root hin (Ne.symm hne)).1 h.parents_root
  have hiff (hp : H.cells p ≠ none) : p ∉ L ↔ Dag.Avoids H.Child n root p := by
    refine Dag.notMem_iff_avoids (D := {m | m ∈ L}) h.finite (fun a b hab => live_of_mem_childs hab)
      h.acyclic hr.self hroot (fun m hm hmn r hrm => ?_) (fun a ha haL har => ?_) hp
    · exact (hr.orphans m hm hmn).2 r ((h.linked r m).mp hrm)
    · obtain ⟨r, hra, hrL⟩ := hr.kept a haL (h.parents_ne_nil ha har)
      exact ⟨r, (h.linked r a).mpr hra, hrL⟩
  constructor
  · intro hin
    have hp := hr.live p hin
    exact ⟨hp, .inr fun hav => (hiff hp).mpr hav hin⟩
  · rintro ⟨hp, hcut⟩
    by_contra hout
    have hav := (hiff hp).mp hout
    exact hcut.elim hav.ne fun hno => hno hav

/-- The lists of a unit that stays lose what is deleted, and nothing else. -/
theorem IsDag.cells_removes (h : H.IsDag root) {rank : Ptr → ℕ} (hr : Removes rank H H' n L)
    (p : Ptr) : H'.cells p = if p ∈ L then none else (H.cells p).map fun c => { c with
      parents := c.parents.filter fun r => decide (r ∉ L)
      childs := c.childs.filter fun r => decide (r ∉ L) } := by
  rw [hr.cells p]
  by_cases hp : p ∈ L
  · rw [if_pos hp, if_pos hp]
  rw [if_neg hp, if_neg hp]
  cases hc : H.cells p with
  | none => rfl
  | some c =>
    have hchilds : ∀ m ∈ c.childs, m ∈ L ↔ m = n := by
      intro m hm
      refine ⟨fun hin => ?_, fun heq => heq ▸ hr.self⟩
      by_contra hmn
      rw [← childs_of_cells hc, h.linked] at hm
      exact hp ((hr.orphans m hin hmn).2 p hm)
    have hfilter : (if p ∈ H.parents n then c.childs.filter fun r => decide (r ≠ n) else c.childs) =
        c.childs.filter fun r => decide (r ∉ L) := by
      split_ifs with hpar
      · refine List.filter_congr fun m hm => decide_eq_decide.mpr ?_
        rw [hchilds m hm]
      · refine (List.filter_eq_self.mpr fun m hm => decide_eq_true ?_).symm
        rw [hchilds m hm]
        rintro rfl
        rw [← childs_of_cells hc, h.linked] at hm
        exact hpar hm
    rw [Option.map_some, Option.map_some, hfilter]

/-- Deleting with a rank that drops along every link, and with that many calls. -/
theorem IsDag.exists_removes (h : H.IsDag root) (hn : H.cells n ≠ none) (rank : Ptr → ℕ)
    (hrank : ∀ p q, q ∈ H.childs p → rank q < rank p) (hfuel : rank n < fuel) :
    ∃ H' L, deleteNodeFromGraph fuel H (some n) = .ok H' ∧ Removes rank H H' n L := by
  cases fuel with
  | zero => exact absurd hfuel (Nat.not_lt_zero _)
  | succ fuel =>
    refine UnitHeap.exists_removes (deletes rank fuel)
      ⟨fun p q _ _ => h.linked p q, h.childs_nodup, hrank⟩ hn (fun r hr => ?_) hfuel
    have hchild := (h.linked r n).mpr hr
    exact ⟨live_of_mem_childs hchild, hrank r n hchild⟩

theorem foldlM_mono {f g : UnitHeap → Ptr → Except HeapFault UnitHeap}
    (hfg : ∀ H x H', f H x = .ok H' → g H x = .ok H') {l : List Ptr} (h : l.foldlM f H = .ok H') :
    l.foldlM g H = .ok H' := by
  rw [Lts.foldlM_eq_ok_iff] at h ⊢
  exact h.mono hfg

theorem forEach_mono {vec : UnitCell → List Ptr} {f g : UnitHeap → Ptr → Except HeapFault UnitHeap}
    (hfg : ∀ H x H', f H x = .ok H' → g H x = .ok H') (h : H.forEach vec p f = .ok H') :
    H.forEach vec p g = .ok H' := by
  cases hc : H.cells p with
  | none =>
    rw [forEach, read, hc] at h
    cases h
  | some c =>
    rw [forEach_of_cells vec hc] at h ⊢
    refine foldlM_mono (fun H x H' hx => ?_) h
    unfold turn at hx ⊢
    cases hr : H.read p with
    | error F =>
      rw [hr] at hx
      cases hx
    | ok c' =>
      rw [hr] at hx
      simp only [bind, Except.bind] at hx ⊢
      split_ifs at hx ⊢ with hvec
      · exact hfg H x H' hx

/-- A larger bound on the depth changes nothing. -/
theorem deleteNodeFromGraph_mono {fuel' : ℕ} (hle : fuel ≤ fuel') {p : Option Ptr}
    (h : deleteNodeFromGraph fuel H p = .ok H') : deleteNodeFromGraph fuel' H p = .ok H' := by
  induction fuel generalizing H H' p fuel' with
  | zero =>
    cases p with
    | none => rwa [deleteNodeFromGraph] at h ⊢
    | some p => cases h
  | succ fuel ih =>
    cases p with
    | none => rwa [deleteNodeFromGraph] at h ⊢
    | some p =>
      obtain ⟨fuel', rfl⟩ : ∃ k, fuel' = k + 1 := ⟨fuel' - 1, by omega⟩
      rw [deleteNodeFromGraph] at h ⊢
      change (do let H ← H.forEach UnitCell.childs p (childBody fuel p); _) = _ at h
      show (do let H ← H.forEach UnitCell.childs p (childBody fuel' p); _) = _
      cases hloop : H.forEach UnitCell.childs p (childBody fuel p) with
      | error F =>
        rw [hloop] at h
        cases h
      | ok H₂ =>
        rw [hloop] at h
        have hloop' : H.forEach UnitCell.childs p (childBody fuel' p) = .ok H₂ := by
          refine forEach_mono (fun H x H' hx => ?_) hloop
          unfold childBody at hx ⊢
          cases herase : H.eraseParent x p with
          | error F =>
            rw [herase] at hx
            cases hx
          | ok H₁ =>
            rw [herase] at hx
            simp only [bind, Except.bind] at hx ⊢
            cases hr : H₁.read x with
            | error F =>
              rw [hr] at hx
              cases hx
            | ok c =>
              rw [hr] at hx
              dsimp only at hx ⊢
              split_ifs at hx ⊢ with hempty
              · exact ih (Nat.le_of_succ_le_succ hle) hx
              · exact hx
        rw [hloop']
        exact h

/-- **Deleting a unit frees exactly what becomes unreachable**: with enough depth the call comes to
its end without following a freed pointer; it frees the units that cannot be reached from the root
without passing through the unit, each once; the lists of the others lose the freed units and keep
their order. -/
theorem deleteNodeFromGraph_frees (h : H.IsDag root) (hn : H.cells n ≠ none) (hne : n ≠ root) :
    ∃ H' L, (∃ N, ∀ fuel ≥ N, deleteNodeFromGraph fuel H (some n) = .ok H') ∧
      H'.freed = H.freed ++ L ∧ L.Nodup ∧
      (∀ p, p ∈ L ↔ H.cells p ≠ none ∧ (p = n ∨ ¬ Dag.Avoids H.Child n root p)) ∧
      ∀ p, H'.cells p = if p ∈ L then none else (H.cells p).map fun c => { c with
        parents := c.parents.filter fun r => decide (r ∉ L)
        childs := c.childs.filter fun r => decide (r ∉ L) } := by
  obtain ⟨H', L, hdel, hr⟩ := h.exists_removes hn (Dag.below H.Child) (fun _ _ => h.below_lt)
    (Nat.lt_succ_self _)
  exact ⟨H', L, ⟨_, fun fuel hle => deleteNodeFromGraph_mono hle hdel⟩, hr.freed, hr.nodup,
    h.mem_removes_iff hne hr, h.cells_removes hr⟩

/-- Two units and the root above both. -/
def triangle : UnitHeap where
  cells := fun p => match p with
    | 0 => some ⟨-1, "me", [], [1, 2]⟩
    | 1 => some ⟨0, "a", [0], [2]⟩
    | 2 => some ⟨1, "b", [0, 1], []⟩
    | _ => none
  nextPtr := 3
  freed := []

theorem triangle_isDag : triangle.IsDag 0 := by
  have hchild : ∀ p q : ℕ, triangle.Child p q ↔ p = 0 ∧ (q = 1 ∨ q = 2) ∨ p = 1 ∧ q = 2 := by
    intro p q
    rcases p with _ | _ | _ | p <;> simp [Child, childs, triangle]
  have hparent : ∀ p q : ℕ, p ∈ triangle.parents q ↔ p = 0 ∧ (q = 1 ∨ q = 2) ∨ p = 1 ∧ q = 2 := by
    intro p q
    rcases q with _ | _ | _ | q <;> simp [parents, triangle]
  have hlive : ∀ p : ℕ, triangle.cells p ≠ none ↔ p < 3 := by
    intro p
    rcases p with _ | _ | _ | p <;> simp [triangle]
  have hlt : ∀ p q : ℕ, Relation.TransGen triangle.Child p q → p < q := by
    intro p q h
    induction h with
    | single hpq =>
      rcases (hchild _ _).mp hpq with ⟨rfl, rfl | rfl⟩ | ⟨rfl, rfl⟩ <;> decide
    | tail _ hpq ih =>
      refine ih.trans ?_
      rcases (hchild _ _).mp hpq with ⟨rfl, rfl | rfl⟩ | ⟨rfl, rfl⟩ <;> decide
  constructor
  · simp only [hlive]
    exact Set.finite_lt_nat 3
  · exact (hlive 0).mpr (by decide)
  · exact fun p q => (hchild p q).trans (hparent p q).symm
  · intro p
    rcases p with _ | _ | _ | p <;> simp [childs, triangle]
  · intro q
    rcases q with _ | _ | _ | q <;> simp [parents, triangle]
  · exact fun p hp => Nat.lt_irrefl p (hlt p p hp)
  · intro p hp
    rcases p with _ | _ | _ | p
    · exact Relation.ReflTransGen.refl
    · exact Relation.ReflTransGen.single ((hchild 0 1).mpr (by decide))
    · exact Relation.ReflTransGen.single ((hchild 0 2).mpr (by decide))
    · exact absurd rfl hp

/-- The unit below the deleted one has another parent, and stays. -/
theorem deleteNodeFromGraph_frees_triangle : ∃ H' L,
    (∃ N, ∀ fuel ≥ N, deleteNodeFromGraph fuel triangle (some 1) = .ok H') ∧
      H'.freed = triangle.freed ++ L ∧ L.Nodup ∧
      (∀ p, p ∈ L ↔ triangle.cells p ≠ none ∧ (p = 1 ∨ ¬ Dag.Avoids triangle.Child 1 0 p)) ∧
      ∀ p, H'.cells p = if p ∈ L then none else (triangle.cells p).map fun c => { c with
        parents := c.parents.filter fun r => decide (r ∉ L)
        childs := c.childs.filter fun r => decide (r ∉ L) } :=
  deleteNodeFromGraph_frees triangle_isDag (by decide) (by decide)

end UnitHeap

end Yamb
