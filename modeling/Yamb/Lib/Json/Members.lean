import Mathlib.Data.List.Nodup
import Yamb.Lib.Json.Basic

/-!
# The members of an object

* `Members`: the members, with `get`, `put`, `putAll` and `erase`;
* `Only`: there is a member of a name, and all members of the name have the same value;
* `only_put`, `Only.put`, `Only.putAll`, `Only.erase`: what the operations do to that;
* `Only.get_eq`: it is the value that is read.
-/

set_option autoImplicit false

namespace Json

/-- The members of an object. -/
abbrev Members (σ ν : Type) : Type := List (σ × Json σ ν)

namespace Members

variable {σ ν : Type} [DecidableEq σ] {ms base source : Members σ ν} {k k' : σ} {v v' : Json σ ν}
  {m : σ × Json σ ν}

def get (ms : Members σ ν) (k : σ) : Option (Json σ ν) := find k (.obj ms)

/-- A member that is there keeps its place. -/
def put (ms : Members σ ν) (k : σ) (v : Json σ ν) : Members σ ν :=
  if ∃ m ∈ ms, m.1 = k then ms.map fun m => if m.1 = k then (k, v) else m else ms ++ [(k, v)]

/-- One member after the other. -/
def putAll (base source : Members σ ν) : Members σ ν := source.foldl (fun base m => base.put m.1 m.2) base

def erase (ms : Members σ ν) (k : σ) : Members σ ν := ms.filter fun m => m.1 ≠ k

/-- `v` is the value of every member of the name `k`, and there is one. -/
def Only (ms : Members σ ν) (k : σ) (v : Json σ ν) : Prop :=
  (∃ m ∈ ms, m.1 = k) ∧ ∀ m ∈ ms, m.1 = k → m.2 = v

theorem Only.get_eq (h : Only ms k v) : ms.get k = some v := by
  obtain ⟨⟨m, hm, hk⟩, hall⟩ := h
  obtain ⟨m', hfind⟩ := Option.isSome_iff_exists.mp
    (List.find?_isSome (p := fun m => decide (m.1 = k)) |>.mpr ⟨m, hm, by simpa using hk⟩)
  have hk' : m'.1 = k := by simpa using List.find?_some hfind
  rw [get, find, hfind, Option.map_some, hall m' (List.mem_of_find?_eq_some hfind) hk']

/-- Where all names are different, what is read is the only value. -/
theorem only_of_get (hnodup : (ms.map Prod.fst).Nodup) (h : ms.get k = some v) : Only ms k v := by
  obtain ⟨m, hfind, rfl⟩ := Option.map_eq_some_iff.mp h
  have hk : m.1 = k := by simpa using List.find?_some hfind
  have hm := List.mem_of_find?_eq_some hfind
  refine ⟨⟨m, hm, hk⟩, fun m' hm' hk' => ?_⟩
  exact congrArg Prod.snd (List.inj_on_of_nodup_map hnodup hm' hm (hk'.trans hk.symm))

theorem mem_put : m ∈ ms.put k v ↔ (m ∈ ms ∧ m.1 ≠ k) ∨ m = (k, v) := by
  unfold put
  split_ifs with h
  · rw [List.mem_map]
    constructor
    · rintro ⟨m', hm', rfl⟩
      by_cases hk : m'.1 = k
      · exact .inr (if_pos hk)
      · rw [if_neg hk]
        exact .inl ⟨hm', hk⟩
    · rintro (⟨hm, hk⟩ | rfl)
      · exact ⟨m, hm, if_neg hk⟩
      · obtain ⟨m', hm', hk⟩ := h
        exact ⟨m', hm', if_pos hk⟩
  · rw [List.mem_append, List.mem_singleton]
    exact or_congr_left ⟨fun hm => ⟨hm, fun hk => h ⟨m, hm, hk⟩⟩, And.left⟩

theorem only_put (ms : Members σ ν) (k : σ) (v : Json σ ν) : Only (ms.put k v) k v := by
  refine ⟨⟨(k, v), mem_put.mpr (.inr rfl), rfl⟩, fun m hm hk => ?_⟩
  rcases mem_put.mp hm with ⟨-, hk'⟩ | rfl
  · exact absurd hk hk'
  · rfl

theorem Only.put (h : Only ms k v) (hk : k ≠ k') (v' : Json σ ν) : Only (ms.put k' v') k v := by
  obtain ⟨⟨m, hm, rfl⟩, hall⟩ := h
  refine ⟨⟨m, mem_put.mpr (.inl ⟨hm, hk⟩), rfl⟩, fun m' hm' hk' => ?_⟩
  rcases mem_put.mp hm' with ⟨hm', -⟩ | rfl
  · exact hall m' hm' hk'
  · exact absurd hk'.symm hk

theorem get_put_self (ms : Members σ ν) (k : σ) (v : Json σ ν) : (ms.put k v).get k = some v :=
  (only_put ms k v).get_eq

theorem get_put_of_ne (ms : Members σ ν) (v : Json σ ν) (hk : k ≠ k') :
    (ms.put k v).get k' = ms.get k' := by
  have hget : ∀ ms : Members σ ν, ms.get k' = (ms.find? fun m => m.1 = k').map Prod.snd :=
    fun _ => rfl
  rw [hget, hget]
  unfold put
  split_ifs with h
  · have hname : (fun m : σ × Json σ ν => decide (m.1 = k')) ∘
        (fun m => if m.1 = k then (k, v) else m) = fun m => decide (m.1 = k') := by
      funext m
      by_cases hm : m.1 = k
      · rw [Function.comp_apply, if_pos hm, hm]
      · rw [Function.comp_apply, if_neg hm]
    rw [List.find?_map, hname, Option.map_map]
    refine Option.map_congr fun m hm => ?_
    have hmk : m.1 = k' := by simpa using List.find?_some hm
    rw [Function.comp_apply, if_neg fun h => hk (h.symm.trans hmk)]
  · rw [List.find?_append, List.find?_singleton, decide_eq_false hk]
    simp

theorem mem_putAll (hm : m ∈ base.putAll source) :
    (m ∈ base ∧ ∀ m' ∈ source, m'.1 ≠ m.1) ∨ m ∈ source := by
  induction source generalizing base with
  | nil => exact .inl ⟨hm, fun _ h => (List.not_mem_nil h).elim⟩
  | cons a source ih =>
    rcases ih hm with ⟨hput, hnone⟩ | hsource
    · rcases mem_put.mp hput with ⟨hbase, ha⟩ | rfl
      · exact .inl ⟨hbase, List.forall_mem_cons.mpr ⟨ha.symm, hnone⟩⟩
      · exact .inr List.mem_cons_self
    · exact .inr (List.mem_cons_of_mem _ hsource)

theorem exists_mem_putAll (h : (∃ m ∈ base, m.1 = k) ∨ ∃ m ∈ source, m.1 = k) :
    ∃ m ∈ base.putAll source, m.1 = k := by
  induction source generalizing base with
  | nil => exact h.resolve_right fun ⟨_, hm, _⟩ => List.not_mem_nil hm
  | cons a source ih =>
    apply ih
    by_cases ha : a.1 = k
    · exact .inl ⟨_, mem_put.mpr (.inr rfl), ha⟩
    · rcases h with ⟨m, hm, hk⟩ | ⟨m, hm, hk⟩
      · exact .inl ⟨m, mem_put.mpr (.inl ⟨hm, fun h => ha (h.symm.trans hk)⟩), hk⟩
      · rcases List.mem_cons.mp hm with rfl | hm
        · exact absurd hk ha
        · exact .inr ⟨m, hm, hk⟩

/-- The members that are put last win. -/
theorem Only.putAll (h : Only source k v) (base : Members σ ν) : Only (base.putAll source) k v := by
  obtain ⟨⟨a, ha, hk⟩, hall⟩ := h
  refine ⟨exists_mem_putAll (.inr ⟨a, ha, hk⟩), fun m hm hmk => ?_⟩
  rcases mem_putAll hm with ⟨-, hnone⟩ | hm
  · exact absurd (hk.trans hmk.symm) (hnone a ha)
  · exact hall m hm hmk

theorem Only.putAll_of_not_mem (h : Only base k v) (hk : ∀ m ∈ source, m.1 ≠ k) :
    Only (base.putAll source) k v := by
  refine ⟨exists_mem_putAll (.inl h.1), fun m hm hmk => ?_⟩
  rcases mem_putAll hm with ⟨hm, -⟩ | hm
  · exact h.2 m hm hmk
  · exact absurd hmk (hk m hm)

theorem Only.erase (h : Only ms k v) (hk : k ≠ k') : Only (ms.erase k') k v := by
  obtain ⟨⟨m, hm, rfl⟩, hall⟩ := h
  refine ⟨⟨m, List.mem_filter.mpr ⟨hm, by simpa using hk⟩, rfl⟩, fun m' hm' hk' => ?_⟩
  exact hall m' (List.mem_filter.mp hm').1 hk'

/-- There is no member of a name. -/
theorem get_eq_none : ms.get k = none ↔ ∀ m ∈ ms, m.1 ≠ k := by
  rw [get, find, Option.map_eq_none_iff, List.find?_eq_none]
  simp only [decide_eq_true_eq, ne_eq]

end Members

end Json
