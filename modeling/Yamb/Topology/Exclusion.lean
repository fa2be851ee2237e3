import Yamb.Lib.Op
import Yamb.Topology.Collect
import Yamb.Topology.HeapRoom

/-!
# Searches that pass units by

`findInGraphWithoutParents` on the units that are allocated, whatever ways lead to them.

* `findInGraphWithoutParentsInternal`, `findInGraphWithoutParents`: `NodeGraph.cpp`;
* `Way`, `Allowed`, `Finds`: the ways down from a unit, and what a search over some of them returns;
* `IsAcyclic.exists_findInGraph`, `IsAcyclic.exists_internal`: what the searches find;
* `Excludes`, **`findInGraphWithoutParents_excludes_iff`**: the search stays in range, and finds what
  it should, unless it has one id to pass by and there is a unit to go on with.
-/

set_option autoImplicit false

namespace Yamb

namespace UnitHeap

/-! ### The searches -/

inductive SearchFault
  | inMemory (F : HeapFault)
  | outOfBounds
  deriving DecidableEq

/-- A search notes each position from which it goes back by one. -/
abbrev Search (α : Type) : Type := Op (List ℕ) SearchFault α

/-- What looks at the units alone. -/
def inMemory {α : Type} (x : Except HeapFault α) : Search α := Op.lift (x.mapError .inMemory)

def look (H : UnitHeap) (p : Ptr) : Search UnitCell := inMemory (H.read p)

/-- The loop over the children, which ends with the first result. -/
def firstFound (search : Ptr → Search (Option Ptr)) : List Ptr → Search (Option Ptr)
  | [] => pure none
  | child :: childs => do
    match ← search child with
    | some result => pure (some result)
    | none => firstFound search childs

/-- `position - 1`. -/
def stepBack (position : ℕ) : Search ℕ := do
  Op.modify (· ++ [position])
  pure (sizePred position)

/-- The body of the loop: a child with the id at the position is passed by. -/
def searchChild (H : UnitHeap) (parentNotSearchIds : List PeerId) (position : ℕ)
    (internal : Ptr → ℕ → Search (Option Ptr)) (plain : Ptr → Search (Option Ptr)) (child : Ptr) :
    Search (Option Ptr) := do
  let c ← H.look child
  match parentNotSearchIds[position]? with
  | none => Op.throw .outOfBounds
  | some parentNotSearchId =>
    if c.id = parentNotSearchId then pure none
    else do
      let newpos ← stepBack position
      if 0 < newpos then internal child newpos else plain child

def findInGraphWithoutParentsInternal :
    ℕ → UnitHeap → Ptr → List PeerId → PeerId → ℕ → Search (Option Ptr)
  | 0, _, _, _, _, _ => Op.throw (.inMemory .outOfFuel)
  | fuel + 1, H, root, parentNotSearchIds, searchId, position => do
    let u ← H.look root
    if u.id = searchId then pure (some root)
    else
      firstFound (H.searchChild parentNotSearchIds position
        (fun child newpos =>
          findInGraphWithoutParentsInternal fuel H child parentNotSearchIds searchId newpos)
        (fun child => inMemory (findInGraph fuel H child searchId))) u.childs

def findInGraphWithoutParents (fuel : ℕ) (H : UnitHeap) (root : Ptr)
    (parentNotSearchIds : List PeerId) (searchId : PeerId) : Search (Option Ptr) :=
  if parentNotSearchIds ≠ [] then
    findInGraphWithoutParentsInternal fuel H root parentNotSearchIds searchId
      (parentNotSearchIds.length - 1)
  else inMemory (findInGraph fuel H root searchId)

/-! ### What they are to find -/

/-- Finitely many units without cycles. -/
structure IsAcyclic (H : UnitHeap) (root : Ptr) : Prop extends H.IsGraph root where
  acyclic : ∀ p, ¬ Relation.TransGen H.Child p p

/-- The units on a way down, without the one it starts from. -/
inductive Way (H : UnitHeap) : Ptr → List Ptr → Ptr → Prop
  | nil (p : Ptr) : Way H p [] p
  | cons {p c q : Ptr} {π : List Ptr} (hc : c ∈ H.childs p) (hπ : Way H c π q) : Way H p (c :: π) q

/-- The first `n` units of the way do not have the ids that stand at `n`, `n - 1` and so on to `1`. -/
def Allowed (H : UnitHeap) (ids : List PeerId) (n : ℕ) (π : List Ptr) : Prop :=
  ∀ i p y, i < n → π[i]? = some p → ids[n - i]? = some y → H.idOf p ≠ y

/-- The result is a unit with the id at the end of a way that is to be looked at, or there is none. -/
structure Finds (H : UnitHeap) (ok : List Ptr → Prop) (p : Ptr) (x : PeerId) (r : Option Ptr) :
    Prop where
  sound : ∀ q, r = some q → H.idOf q = x ∧ ∃ π, H.Way p π q ∧ ok π
  complete : r = none → ∀ π q, H.Way p π q → ok π → H.idOf q ≠ x

/-- No position is gone back from at the start. -/
def Positive (positions : List ℕ) : Prop := ∀ k ∈ positions, 0 < k

variable {H : UnitHeap} {root p q c : Ptr} {π : List Ptr} {x y : PeerId} {ids : List PeerId}
  {n fuel : ℕ} {ok : List Ptr → Prop} {r : Option Ptr} {s s' : List ℕ} {cell : UnitCell}

theorem look_of_cells (h : H.cells p = some cell) : H.look p s = (.ok cell, s) := by
  rw [look, read_of_cells h]
  rfl

theorem IsAcyclic.below_lt (h : H.IsAcyclic root) (hc : c ∈ H.childs p) :
    Dag.below H.Child c < Dag.below H.Child p :=
  Dag.below_lt h.finite (fun p q => h.child_live p q) h.acyclic hc

theorem allowed_zero (H : UnitHeap) (ids : List PeerId) (π : List Ptr) : H.Allowed ids 0 π :=
  fun _ _ _ hi => absurd hi (Nat.not_lt_zero _)

theorem allowed_nil (H : UnitHeap) (ids : List PeerId) (n : ℕ) : H.Allowed ids n [] :=
  fun _ _ _ _ hp => by cases hp

theorem allowed_cons_iff (hy : ids[n + 1]? = some y) :
    H.Allowed ids (n + 1) (c :: π) ↔ H.idOf c ≠ y ∧ H.Allowed ids n π := by
  constructor
  · refine fun h => ⟨h 0 c y (Nat.succ_pos n) rfl hy, fun i p z hi hp hz => ?_⟩
    exact h (i + 1) p z (Nat.succ_lt_succ hi) hp (by rwa [Nat.add_sub_add_right])
  · rintro ⟨hc, h⟩ i p z hi hp hz
    cases i with
    | zero =>
      obtain rfl := Option.some.inj hp
      obtain rfl := Option.some.inj (hy.symm.trans hz)
      exact hc
    | succ i =>
      rw [Nat.add_sub_add_right] at hz
      exact h i p z (Nat.lt_of_succ_lt_succ hi) hp hz

theorem finds_self (hok : ok []) (hid : H.idOf p = x) : H.Finds ok p x (some p) where
  sound := by
    intro q hq
    obtain rfl := Option.some.inj hq
    exact ⟨hid, [], .nil p, hok⟩
  complete := fun h => by cases h

/-- What the loop over the children returns. -/
def FindsBelow (H : UnitHeap) (ok : List Ptr → Prop) (childs : List Ptr) (x : PeerId)
    (r : Option Ptr) : Prop :=
  (∃ c ∈ childs, r ≠ none ∧ H.Finds (fun π => ok (c :: π)) c x r) ∨
    r = none ∧ ∀ c ∈ childs, H.Finds (fun π => ok (c :: π)) c x none

theorem FindsBelow.finds (h : H.FindsBelow ok (H.childs p) x r) (hid : H.idOf p ≠ x) :
    H.Finds ok p x r := by
  rcases h with ⟨c, hc, hne, h⟩ | ⟨rfl, h⟩
  · refine ⟨fun q hq => ?_, fun hnone => absurd hnone hne⟩
    obtain ⟨hq, π, hπ, hok⟩ := h.sound q hq
    exact ⟨hq, c :: π, .cons hc hπ, hok⟩
  · refine ⟨fun q hq => absurd hq (Option.some_ne_none q).symm, fun _ π q hπ hok => ?_⟩
    cases hπ with
    | nil => exact hid
    | cons hc hπ => exact (h _ hc).complete rfl _ q hπ hok

theorem exists_findsBelow {search : Ptr → Search (Option Ptr)} {childs : List Ptr}
    (h : ∀ c ∈ childs, ∀ s, Positive s → ∃ r s', search c s = (.ok r, s') ∧ Positive s' ∧
      H.Finds (fun π => ok (c :: π)) c x r) (hs : Positive s) :
    ∃ r s', firstFound search childs s = (.ok r, s') ∧ Positive s' ∧ H.FindsBelow ok childs x r := by
  induction childs generalizing s with
  | nil => exact ⟨none, s, rfl, hs, .inr ⟨rfl, fun _ hc => absurd hc List.not_mem_nil⟩⟩
  | cons c childs ih =>
    obtain ⟨r, s₁, hr, hs₁, hfinds⟩ := h c List.mem_cons_self s hs
    rw [firstFound, Op.bind_of_ok hr]
    cases r with
    | some q =>
      exact ⟨some q, s₁, rfl, hs₁, .inl ⟨c, List.mem_cons_self, Option.some_ne_none q, hfinds⟩⟩
    | none =>
      obtain ⟨r, s₂, hr, hs₂, hbelow⟩ := ih (fun c hc => h c (List.mem_cons_of_mem _ hc)) hs₁
      refine ⟨r, s₂, hr, hs₂, ?_⟩
      rcases hbelow with ⟨d, hd, hne, hd'⟩ | ⟨rfl, hall⟩
      · exact .inl ⟨d, List.mem_cons_of_mem _ hd, hne, hd'⟩
      · refine .inr ⟨rfl, fun d hd => ?_⟩
        rcases List.mem_cons.mp hd with rfl | hd
        · exact hfinds
        · exact hall d hd

/-- The loop over the children of a unit that is not the one that is looked for. -/
theorem exists_firstFound {search : Ptr → Search (Option Ptr)} (hid : H.idOf p ≠ x)
    (h : ∀ c ∈ H.childs p, ∀ s, Positive s → ∃ r s', search c s = (.ok r, s') ∧ Positive s' ∧
      H.Finds (fun π => ok (c :: π)) c x r) (hs : Positive s) :
    ∃ r s', firstFound search (H.childs p) s = (.ok r, s') ∧ Positive s' ∧ H.Finds ok p x r := by
  obtain ⟨r, s', hr, hs', hbelow⟩ := exists_findsBelow h hs
  exact ⟨r, s', hr, hs', hbelow.finds hid⟩

section SearchChild

variable {internal : Ptr → ℕ → Search (Option Ptr)} {plain : Ptr → Search (Option Ptr)}

theorem searchChild_of_eq (hc : H.cells c ≠ none) (hy : ids[n]? = some y) (hid : H.idOf c = y) :
    H.searchChild ids n internal plain c s = (.ok none, s) := by
  obtain ⟨cell, hcell⟩ := Option.ne_none_iff_exists'.mp hc
  rw [searchChild, Op.bind_of_ok (look_of_cells hcell), hy, ← idOf_of_cells hcell]
  simp only [if_pos hid, Op.pure_apply]

theorem searchChild_of_ne (hc : H.cells c ≠ none) (hy : ids[n]? = some y) (hid : H.idOf c ≠ y) :
    H.searchChild ids n internal plain c s =
      (if 0 < sizePred n then internal c (sizePred n) else plain c) (s ++ [n]) := by
  obtain ⟨cell, hcell⟩ := Option.ne_none_iff_exists'.mp hc
  rw [searchChild, Op.bind_of_ok (look_of_cells hcell), hy, ← idOf_of_cells hcell]
  simp only [if_neg hid]
  rfl

theorem sizePred_succ (n : ℕ) : sizePred (n + 1) = n := if_neg (Nat.succ_ne_zero n)

theorem Finds.congr {ok' : List Ptr → Prop} (h : H.Finds ok p x r) (hok : ∀ π, ok' π ↔ ok π) :
    H.Finds ok' p x r := by
  rwa [funext fun π => propext (hok π)]

/-- A child that is not passed by is searched from the position before. -/
theorem exists_searchChild (hc : H.cells c ≠ none) (hn : n + 1 < ids.length) (hs : Positive s)
    (hinternal : 0 < n → ∀ s, Positive s → ∃ r s', internal c n s = (.ok r, s') ∧ Positive s' ∧
      H.Finds (H.Allowed ids n) c x r)
    (hplain : ∀ s, Positive s → ∃ r s', plain c s = (.ok r, s') ∧ Positive s' ∧
      H.Finds (fun _ => True) c x r) :
    ∃ r s', H.searchChild ids (n + 1) internal plain c s = (.ok r, s') ∧ Positive s' ∧
      H.Finds (fun π => H.Allowed ids (n + 1) (c :: π)) c x r := by
  obtain ⟨y, hy⟩ : ∃ y, ids[n + 1]? = some y := ⟨_, List.getElem?_eq_getElem hn⟩
  by_cases hid : H.idOf c = y
  · refine ⟨none, s, searchChild_of_eq hc hy hid, hs, fun q hq => ?_, fun _ π q _ hok => ?_⟩
    · cases hq
    · exact absurd hid ((allowed_cons_iff hy).mp hok).1
  · have hallowed (π : List Ptr) : H.Allowed ids (n + 1) (c :: π) ↔ H.Allowed ids n π :=
      (allowed_cons_iff hy).trans (and_iff_right hid)
    have hs₁ : Positive (s ++ [n + 1]) := by
      intro k hk
      rcases List.mem_append.mp hk with hk | hk
      · exact hs k hk
      · rw [List.mem_singleton.mp hk]
        exact Nat.succ_pos n
    rw [searchChild_of_ne hc hy hid, sizePred_succ]
    by_cases hpos : 0 < n
    · rw [if_pos hpos]
      obtain ⟨r, s', hr, hs', hfinds⟩ := hinternal hpos _ hs₁
      exact ⟨r, s', hr, hs', hfinds.congr hallowed⟩
    · obtain rfl : n = 0 := Nat.eq_zero_of_not_pos hpos
      rw [if_neg hpos]
      obtain ⟨r, s', hr, hs', hfinds⟩ := hplain _ hs₁
      exact ⟨r, s', hr, hs', hfinds.congr fun π => (hallowed π).trans
        (iff_true_intro (allowed_zero H ids π))⟩

end SearchChild

/-! ### The search over all ways -/

theorem inMemory_bind {α β : Type} (x : Except HeapFault α) (f : α → Except HeapFault β) :
    inMemory (x >>= f) = inMemory x >>= fun a => inMemory (f a) := by
  cases x <;> rfl

theorem inMemory_firstOf (f : Ptr → Except HeapFault (Option Ptr)) (childs : List Ptr) :
    inMemory (firstOf f childs) = firstFound (fun c => inMemory (f c)) childs := by
  induction childs with
  | nil => rfl
  | cons c childs ih =>
    rw [firstOf, firstFound, inMemory_bind]
    congr 1
    funext r
    cases r with
    | none => exact ih
    | some q => rfl

theorem inMemory_findInGraph (fuel : ℕ) (H : UnitHeap) (p : Ptr) (x : PeerId) :
    inMemory (findInGraph (fuel + 1) H p x) = H.look p >>= fun u =>
      if u.id = x then pure (some p)
      else firstFound (fun c => inMemory (findInGraph fuel H c x)) u.childs := by
  rw [findInGraph, inMemory_bind]
  congr 1
  funext u
  rw [← inMemory_firstOf]
  split_ifs <;> rfl

theorem IsAcyclic.exists_findInGraph (h : H.IsAcyclic root) (hp : H.cells p ≠ none)
    (hfuel : Dag.below H.Child p < fuel) (hs : Positive s) :
    ∃ r s', inMemory (findInGraph fuel H p x) s = (.ok r, s') ∧ Positive s' ∧
      H.Finds (fun _ => True) p x r := by
  induction fuel generalizing p s with
  | zero => exact absurd hfuel (Nat.not_lt_zero _)
  | succ fuel ih =>
    obtain ⟨cell, hcell⟩ := Option.ne_none_iff_exists'.mp hp
    rw [inMemory_findInGraph, Op.bind_of_ok (look_of_cells hcell), ← idOf_of_cells hcell,
      ← childs_of_cells hcell]
    by_cases hid : H.idOf p = x
    · rw [if_pos hid]
      exact ⟨some p, s, rfl, hs, finds_self trivial hid⟩
    · rw [if_neg hid]
      refine exists_firstFound hid (fun c hc s hs => ih (h.child_live p c hc) ?_ hs) hs
      exact Nat.lt_of_lt_of_le (h.below_lt hc) (Nat.le_of_lt_succ hfuel)

/-- From a position in the list that is not the first, the search stays in range. -/
theorem IsAcyclic.exists_internal (h : H.IsAcyclic root) (hp : H.cells p ≠ none)
    (hfuel : Dag.below H.Child p < fuel) (hn : n + 1 < ids.length) (hs : Positive s) :
    ∃ r s', findInGraphWithoutParentsInternal fuel H p ids x (n + 1) s = (.ok r, s') ∧
      Positive s' ∧ H.Finds (H.Allowed ids (n + 1)) p x r := by
  induction fuel generalizing p n s with
  | zero => exact absurd hfuel (Nat.not_lt_zero _)
  | succ fuel ih =>
    obtain ⟨cell, hcell⟩ := Option.ne_none_iff_exists'.mp hp
    rw [findInGraphWithoutParentsInternal, Op.bind_of_ok (look_of_cells hcell),
      ← idOf_of_cells hcell, ← childs_of_cells hcell]
    by_cases hid : H.idOf p = x
    · rw [if_pos hid]
      exact ⟨some p, s, rfl, hs, finds_self (allowed_nil H ids _) hid⟩
    · rw [if_neg hid]
      refine exists_firstFound hid (fun c hc s hs => ?_) hs
      have hlive := h.child_live p c hc
      have hlt := Nat.lt_of_lt_of_le (h.below_lt hc) (Nat.le_of_lt_succ hfuel)
      refine exists_searchChild hlive hn hs (fun hpos s hs => ?_) fun s hs =>
        h.exists_findInGraph hlive hlt hs
      obtain ⟨m, rfl⟩ := Nat.exists_eq_add_of_lt hpos
      rw [Nat.zero_add] at hn ⊢
      exact ih hlive hlt (Nat.lt_of_succ_lt hn) hs

/-! ### The search with one id to pass by -/

/-- What a search has noted stays noted. -/
abbrev Notes {α : Type} (search : Search α) : Prop := Op.Moves (· <+: ·) search

theorem notes_inMemory {α : Type} (x : Except HeapFault α) : Notes (inMemory x) :=
  Op.moves_lift List.prefix_refl _

theorem Notes.bind {α β : Type} {search : Search α} {f : α → Search β} (h : Notes search)
    (hf : ∀ a, Notes (f a)) : Notes (search >>= f) := Op.Moves.bind h List.IsPrefix.trans hf

theorem notes_firstFound {search : Ptr → Search (Option Ptr)} (h : ∀ c, Notes (search c))
    (childs : List Ptr) : Notes (firstFound search childs) := by
  induction childs with
  | nil => exact Op.moves_pure List.prefix_refl _
  | cons c childs ih =>
    refine (h c).bind fun r => ?_
    cases r with
    | none => exact ih
    | some q => exact Op.moves_pure List.prefix_refl _

theorem notes_searchChild {internal : Ptr → ℕ → Search (Option Ptr)}
    {plain : Ptr → Search (Option Ptr)} (hinternal : ∀ c n, Notes (internal c n))
    (hplain : ∀ c, Notes (plain c)) (n : ℕ) (c : Ptr) :
    Notes (H.searchChild ids n internal plain c) := by
  refine (notes_inMemory _).bind fun u => ?_
  cases ids[n]? with
  | none => exact Op.moves_throw List.prefix_refl _
  | some y =>
    dsimp only
    split_ifs
    · exact Op.moves_pure List.prefix_refl _
    · refine Notes.bind (fun s => List.prefix_append s [n]) fun newpos => ?_
      split_ifs
      · exact hinternal c newpos
      · exact hplain c

theorem notes_internal (fuel : ℕ) (H : UnitHeap) (p : Ptr) (ids : List PeerId) (x : PeerId) (n : ℕ) :
    Notes (findInGraphWithoutParentsInternal fuel H p ids x n) := by
  induction fuel generalizing p n with
  | zero => exact Op.moves_throw List.prefix_refl _
  | succ fuel ih =>
    refine (notes_inMemory _).bind fun u => ?_
    split_ifs
    · exact Op.moves_pure List.prefix_refl _
    · exact notes_firstFound (notes_searchChild (fun c n => ih c n)
        (fun c => notes_inMemory _) n) _

section OneId

variable {internal : Ptr → ℕ → Search (Option Ptr)} {plain : Ptr → Search (Option Ptr)}
  {childs : List Ptr}

/-- A child that is not passed by makes the search go back from the start. -/
theorem zero_mem_of_firstFound (hinternal : ∀ c n, Notes (internal c n))
    (hplain : ∀ c, Notes (plain c)) (hlive : ∀ c ∈ childs, H.cells c ≠ none)
    (hc : ∃ c ∈ childs, H.idOf c ≠ y) (s : List ℕ) :
    0 ∈ (firstFound (H.searchChild [y] 0 internal plain) childs s).2 := by
  have hy : [y][0]? = some y := rfl
  induction childs with
  | nil =>
    obtain ⟨c, hc, -⟩ := hc
    exact absurd hc List.not_mem_nil
  | cons c childs ih =>
    by_cases hid : H.idOf c = y
    · rw [firstFound, Op.bind_of_ok (searchChild_of_eq (hlive c List.mem_cons_self) hy hid)]
      refine ih (fun d hd => hlive d (List.mem_cons_of_mem _ hd)) ?_
      obtain ⟨d, hd, hne⟩ := hc
      rcases List.mem_cons.mp hd with rfl | hd
      · exact absurd hid hne
      · exact ⟨d, hd, hne⟩
    · have hchild : 0 ∈ (H.searchChild [y] 0 internal plain c s).2 := by
        rw [searchChild_of_ne (hlive c List.mem_cons_self) hy hid]
        have hnotes : Notes (if 0 < sizePred 0 then internal c (sizePred 0) else plain c) := by
          split_ifs
          · exact hinternal c _
          · exact hplain c
        exact (hnotes (s ++ [0])).subset (List.mem_append_right s List.mem_cons_self)
      rw [firstFound]
      rcases h : H.searchChild [y] 0 internal plain c s with ⟨e | r, s'⟩
      · rw [h] at hchild
        rw [Op.bind_of_error h]
        exact hchild
      · rw [h] at hchild
        rw [Op.bind_of_ok h]
        cases r with
        | some q => exact hchild
        | none =>
          exact (notes_firstFound (notes_searchChild hinternal hplain 0) childs s').subset hchild

/-- Where all children are passed by, nothing is found. -/
theorem firstFound_of_forall_eq (hlive : ∀ c ∈ childs, H.cells c ≠ none)
    (hid : ∀ c ∈ childs, H.idOf c = y) (s : List ℕ) :
    firstFound (H.searchChild [y] 0 internal plain) childs s = (.ok none, s) := by
  induction childs with
  | nil => rfl
  | cons c childs ih =>
    rw [firstFound, Op.bind_of_ok (searchChild_of_eq (hlive c List.mem_cons_self) rfl
      (hid c List.mem_cons_self))]
    exact ih (fun d hd => hlive d (List.mem_cons_of_mem _ hd))
      (fun d hd => hid d (List.mem_cons_of_mem _ hd))

end OneId

/-! ### The search -/

/-- The search stays within the list, never goes back from its start, and finds a unit on a way that
is not passed by if there is one, and no other unit. -/
structure Excludes (H : UnitHeap) (root : Ptr) (ids : List PeerId) (x : PeerId)
    (r : Except SearchFault (Option Ptr) × List ℕ) : Prop where
  inRange : r.1 ≠ .error .outOfBounds
  positive : Positive r.2
  sound : ∀ q, r.1 = .ok (some q) →
    H.idOf q = x ∧ ∃ π, H.Way root π q ∧ H.Allowed ids (ids.length - 1) π
  complete : ∀ π q, H.Way root π q → H.Allowed ids (ids.length - 1) π → H.idOf q = x →
    ∃ q', r.1 = .ok (some q')

theorem Finds.excludes (h : H.Finds (H.Allowed ids (ids.length - 1)) root x r) (hs : Positive s) :
    H.Excludes root ids x (.ok r, s) where
  inRange := fun hr => by cases hr
  positive := hs
  sound := fun q hq => h.sound q (Except.ok.inj hq)
  complete := by
    intro π q hπ hok hid
    cases r with
    | none => exact absurd hid (h.complete rfl π q hπ hok)
    | some q' => exact ⟨q', rfl⟩

theorem positive_nil : Positive [] := fun _ hk => absurd hk List.not_mem_nil

/-- With one id to pass by. -/
theorem IsAcyclic.internal_excludes_iff (h : H.IsAcyclic root) (fuel : ℕ) :
    H.Excludes root [y] x (findInGraphWithoutParentsInternal (fuel + 1) H root [y] x 0 []) ↔
      H.idOf root = x ∨
        (∀ c ∈ H.childs root, [y] = [H.idOf c]) ∧ ∀ π q, H.Way root π q → H.idOf q ≠ x := by
  obtain ⟨cell, hcell⟩ := Option.ne_none_iff_exists'.mp h.root_live
  have hlive := fun c hc => h.child_live root c hc
  rw [findInGraphWithoutParentsInternal, Op.bind_of_ok (look_of_cells hcell),
    ← idOf_of_cells hcell, ← childs_of_cells hcell]
  by_cases hid : H.idOf root = x
  · rw [if_pos hid]
    exact iff_of_true ((finds_self (allowed_nil H [y] 0) hid).excludes positive_nil) (.inl hid)
  rw [if_neg hid, or_iff_right hid]
  by_cases hall : ∀ c ∈ H.childs root, H.idOf c = y
  · rw [firstFound_of_forall_eq hlive hall]
    constructor
    · refine fun hex => ⟨fun c hc => by rw [hall c hc], fun π q hπ hq => ?_⟩
      obtain ⟨q', hq'⟩ := hex.complete π q hπ (allowed_zero H [y] π) hq
      cases hq'
    · rintro ⟨-, hnone⟩
      refine Finds.excludes ⟨fun q hq => ?_, fun _ π q hπ _ => hnone π q hπ⟩ positive_nil
      cases hq
  · refine iff_of_false (fun hex => ?_) fun hex => ?_
    · have hzero := zero_mem_of_firstFound (y := y) (fun c n => notes_internal fuel H c [y] x n)
        (fun c => notes_inMemory (findInGraph fuel H c x)) hlive
        (by simpa only [not_forall, exists_prop] using hall) []
      exact Nat.lt_irrefl 0 (hex.positive 0 hzero)
    · exact hall fun c hc => (List.cons.inj (hex.1 c hc)).1.symm

/-- **The search does what it should exactly when** the list has two ids or more, or the root is the
unit that is looked for, or all its children have the one id and the unit is not there at all. -/
theorem findInGraphWithoutParents_excludes_iff (h : H.IsAcyclic root) (hids : ids ≠ [])
    (x : PeerId) : ∃ N, ∀ fuel ≥ N,
      (H.Excludes root ids x (findInGraphWithoutParents fuel H root ids x []) ↔
        2 ≤ ids.length ∨ H.idOf root = x ∨
          (∀ c ∈ H.childs root, ids = [H.idOf c]) ∧ ∀ π q, H.Way root π q → H.idOf q ≠ x) := by
  refine ⟨Dag.below H.Child root + 1, fun fuel hfuel => ?_⟩
  obtain ⟨fuel, rfl⟩ : ∃ f, fuel = f + 1 := ⟨fuel - 1, by omega⟩
  rw [findInGraphWithoutParents, if_pos hids]
  by_cases hlen : 2 ≤ ids.length
  · refine iff_of_true ?_ (.inl hlen)
    obtain ⟨r, s', hr, hs', hfinds⟩ := h.exists_internal (x := x) h.root_live hfuel
      (show ids.length - 2 + 1 < ids.length by omega) positive_nil
    have hpos : ids.length - 2 + 1 = ids.length - 1 := by omega
    rw [hpos] at hr hfinds
    rw [hr]
    exact hfinds.excludes hs'
  · obtain ⟨y, rfl⟩ : ∃ y, ids = [y] := by
      have hpos := List.length_pos_iff.mpr hids
      exact List.length_eq_one_iff.mp (by omega)
    exact (h.internal_excludes_iff fuel).trans (or_iff_right hlen).symm

theorem IsDag.isAcyclic (h : H.IsDag root) : H.IsAcyclic root where
  toIsGraph := h.isGraph
  acyclic := h.acyclic

/-- Two ids to pass by. -/
theorem findInGraphWithoutParents_excludes_triangle : ∃ N, ∀ fuel ≥ N,
    triangle.Excludes 0 ["b", "a"] "b" (findInGraphWithoutParents fuel triangle 0 ["b", "a"] "b" []) := by
  obtain ⟨N, hN⟩ := findInGraphWithoutParents_excludes_iff triangle_isDag.isAcyclic
    (List.cons_ne_nil "b" ["a"]) "b"
  exact ⟨N, fun fuel hfuel => (hN fuel hfuel).mpr (.inl (Nat.le_refl 2))⟩

/-- With one id to pass by, the search goes on with the last position that there is, and looks there in
the list. -/
theorem not_excludes_triangle : ¬ ∀ H : UnitHeap, ∀ root ids x, H.IsAcyclic root → ids ≠ [] →
    ∃ N, ∀ fuel ≥ N, H.Excludes root ids x (findInGraphWithoutParents fuel H root ids x []) := by
  intro h
  obtain ⟨N, hN⟩ := h triangle 0 ["s"] "x" triangle_isDag.isAcyclic (List.cons_ne_nil _ _)
  have hrun : findInGraphWithoutParents (N + 2) triangle 0 ["s"] "x" [] =
      (.error .outOfBounds, [0]) := rfl
  have hex := hN (N + 2) (Nat.le_add_right N 2)
  rw [hrun] at hex
  exact hex.inRange rfl

end UnitHeap

end Yamb
