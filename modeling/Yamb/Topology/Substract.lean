import Yamb.Topology.Model

/-!
# Arrays without the elements of others

Two loops over iterators that erase from the array they walk over.

* `outerLoop`, `innerLoop`: the loops, which are the same for vectors and for JSON arrays;
* `substractVector`: `RoomManager.cpp`, `substractJsonArrays`: `NodesMap_t.cpp`;
* `innerLoop_append`: what the inner loop does with the element it starts from;
* **`substract_eq_filter`**: what does not occur in the second array is left;
* `substractJsonArrays_eq`: `eraseFromLvl` by these loops.
-/

set_option autoImplicit false

namespace Yamb

/-- An iterator at the end is followed, or goes on. -/
inductive IteratorFault
  | endDereferenced | endIncremented
  deriving DecidableEq

variable {α : Type} [BEq α]

mutual

/-- `while (it != a.end())`. -/
def outerLoop (b a : List α) (it it2 : ℕ) : Except IteratorFault (List α) :=
  if it ≠ a.length then innerLoop b a it it2 else .ok a
termination_by (a.length - it, if it = a.length then 0 else b.length - it2 + 1)
decreasing_by
  have h : it ≠ a.length := ‹_›
  exact Prod.Lex.right _ (by rw [if_neg h, if_neg h]; exact Nat.lt_succ_self _)

/-- `while (it2 != b.end() && it != a.end())`, and what follows it. -/
def innerLoop (b a : List α) (it it2 : ℕ) : Except IteratorFault (List α) :=
  if h : it2 ≠ b.length ∧ it ≠ a.length then
    if h' : it < a.length ∧ it2 < b.length then
      if a[it] == b[it2] then innerLoop b (a.eraseIdx it) it 0 else innerLoop b a it (it2 + 1)
    else .error .endDereferenced
  else if hit : it ≠ a.length then
    if hlt : it < a.length then outerLoop b a (it + 1) 0 else .error .endIncremented
  else outerLoop b a it 0
termination_by (a.length - it, if it = a.length then 1 else b.length - it2)
decreasing_by
  · exact Prod.Lex.left _ _ (by rw [List.length_eraseIdx_of_lt h'.1]; omega)
  · exact Prod.Lex.right _ (by rw [if_neg h.2, if_neg h.2]; omega)
  · exact Prod.Lex.left _ _ (by omega)
  · have hit := not_not.mp hit
    exact Prod.Lex.right _ (by rw [if_pos hit, if_pos hit]; exact Nat.zero_lt_one)

end

/-- `substract_vector`. -/
def substractVector (a b : List α) : Except IteratorFault (List α) := outerLoop b a 0 0

/-- `substract_json_arrays`. -/
def substractJsonArrays (a b : List α) : Except IteratorFault (List α) := outerLoop b a 0 0

/-! ### The loops -/

theorem innerLoop_end (b a : List α) (it2 : ℕ) : innerLoop b a a.length it2 = .ok a := by
  rw [innerLoop, dif_neg (fun h => h.2 rfl), dif_neg (not_not.mpr rfl), outerLoop,
    if_neg (not_not.mpr rfl)]

theorem outerLoop_end (b a : List α) (it2 : ℕ) : outerLoop b a a.length it2 = .ok a := by
  rw [outerLoop, if_neg (not_not.mpr rfl)]

omit [BEq α] in
theorem length_lt_append_cons (l m : List α) (x : α) : l.length < (l ++ x :: m).length := by
  rw [List.length_append, List.length_cons]
  omega

/-- The inner loop erases its element, or leaves it and goes on to the next one. -/
theorem innerLoop_append (seen rest l m : List α) (x : α) :
    innerLoop (seen ++ rest) (l ++ x :: m) l.length seen.length =
      if rest.any (x == ·) then innerLoop (seen ++ rest) (l ++ m) l.length 0
      else outerLoop (seen ++ rest) (l ++ x :: m) (l.length + 1) 0 := by
  have hlt := length_lt_append_cons l m x
  induction rest generalizing seen with
  | nil =>
    rw [List.append_nil, innerLoop, dif_neg (fun h => h.1 rfl), dif_pos hlt.ne, dif_pos hlt]
    rfl
  | cons y rest ih =>
    have hlt2 := length_lt_append_cons seen rest y
    rw [innerLoop, dif_pos ⟨hlt2.ne, hlt.ne⟩, dif_pos ⟨hlt, hlt2⟩]
    have hx : (l ++ x :: m)[l.length] = x := by simp
    have hy : (seen ++ y :: rest)[seen.length] = y := by simp
    rw [hx, hy]
    by_cases hxy : (x == y) = true
    · rw [if_pos hxy, if_pos (by simp [hxy]), List.eraseIdx_append_of_length_le (Nat.le_refl _),
        Nat.sub_self, List.eraseIdx_cons_zero]
    · have ih := ih (seen ++ [y])
      rw [List.length_append, List.length_singleton, List.append_assoc, List.singleton_append] at ih
      rw [if_neg hxy, ih]
      simp [hxy]

/-- **From an element on**, what does not occur in `b` is left. -/
theorem loops_eq_filter (b l m : List α) :
    outerLoop b (l ++ m) l.length 0 = .ok (l ++ m.filter fun x => !b.contains x) ∧
      innerLoop b (l ++ m) l.length 0 = .ok (l ++ m.filter fun x => !b.contains x) := by
  induction m generalizing l with
  | nil =>
    rw [List.filter_nil, List.append_nil]
    exact ⟨outerLoop_end b l 0, innerLoop_end b l 0⟩
  | cons x m ih =>
    have hinner : innerLoop b (l ++ x :: m) l.length 0 =
        .ok (l ++ (x :: m).filter fun x => !b.contains x) := by
      have hstep := innerLoop_append [] b l m x
      rw [List.nil_append, List.length_nil, ← List.contains_eq_any_beq] at hstep
      rw [hstep]
      by_cases hx : b.contains x = true
      · rw [if_pos hx, (ih l).2, List.filter_cons_of_neg (by simp [hx])]
      · have ih := (ih (l ++ [x])).1
        rw [List.length_append, List.length_singleton, List.append_assoc, List.append_assoc,
          List.singleton_append, List.singleton_append] at ih
        rw [if_neg hx, ih, List.filter_cons_of_pos (by simp [hx])]
    refine ⟨?_, hinner⟩
    rw [outerLoop, if_pos (length_lt_append_cons l m x).ne]
    exact hinner

/-- **Both come to an end without following an iterator at the end, and leave what does not occur in
`b`**, in the order and as often as it was there. -/
theorem substract_eq_filter (a b : List α) :
    substractVector a b = .ok (a.filter fun x => !b.contains x) ∧
      substractJsonArrays a b = .ok (a.filter fun x => !b.contains x) :=
  ⟨(loops_eq_filter b [] a).1, (loops_eq_filter b [] a).1⟩

/-- `eraseFromLvl` puts what is left in the place of the array. -/
theorem substractJsonArrays_eq {nm : NodesMap} {lvl : ℕ} {arr : List NodesMapDiffUnit}
    (h : nm lvl = some arr) (us : List NodesMapDiffUnit) :
    substractJsonArrays arr us = .ok ((eraseFromLvl nm lvl us lvl).getD []) := by
  have hloop : substractJsonArrays arr us = .ok (arr.filter fun x => !us.contains x) :=
    (loops_eq_filter us [] arr).1
  rw [hloop, eraseFromLvl, h]
  simp

end Yamb
