import Mathlib.Data.Finset.Card
import Mathlib.Data.Finset.Image
import Mathlib.Data.Nat.ModEq
import Mathlib.Tactic.Common

/-!
# Histories of a bounded window with a blind slot

A window of `c` slots records a sequence of values cyclically and can be asked whether it holds a
value; slot `0` is never looked at. A history is the list of everything recorded so far, so the
entry at position `j` sits in slot `j % c` as long as fewer than `c` entries came after it.

* `Visible c L x`: the window finds `x` after the history `L`;
* `Admits c old ps`: the entries `ps` were recorded after `old`, each while it was not visible;
* `Admits.length_le`: entries drawn from fewer than `c` values are recorded at most once each, and
  at most one of them a second time;
* `residue_eq_zero`: what was recorded and is not visible sits in slot `0`.
-/

set_option autoImplicit false

namespace BlindWindow

variable {α : Type} {c : ℕ} {old ps L : List α} {x : α}

/-- `x` is among the last `c` entries of `L`, in a slot other than slot `0`. -/
def Visible (c : ℕ) (L : List α) (x : α) : Prop :=
  ∃ j, ∃ hj : j < L.length, L.length ≤ j + c ∧ j % c ≠ 0 ∧ L[j] = x

theorem Visible.mem (h : Visible c L x) : x ∈ L := by
  obtain ⟨j, hj, -, -, rfl⟩ := h
  exact List.getElem_mem hj

/-- Each entry of `ps` was invisible when it was recorded after `old` and the entries before it. -/
def Admits (c : ℕ) (old ps : List α) : Prop :=
  ∀ k, ∀ hk : k < ps.length, ¬ Visible c (old ++ ps.take k) ps[k]

theorem Admits.nil : Admits c old [] := fun _ hk => absurd hk (Nat.not_lt_zero _)

theorem Admits.snoc (h : Admits c old ps) (hx : ¬ Visible c (old ++ ps) x) :
    Admits c old (ps ++ [x]) := by
  intro k hk
  rw [List.length_append, List.length_singleton] at hk
  rcases Nat.lt_or_ge k ps.length with hlt | hge
  · rw [List.take_append_of_le_length hlt.le, List.getElem_append_left hlt]
    exact h k hlt
  · obtain rfl : k = ps.length := by omega
    simpa using hx

/-- Within `c` entries, a value outside slot `0` is not recorded again. -/
theorem Admits.ne (h : Admits c old ps) {i j : ℕ} (hij : i < j) (hj : j < ps.length)
    (hc : j ≤ i + c) (hi : (old.length + i) % c ≠ 0) : ps[i] ≠ ps[j] := by
  intro heq
  refine h j hj ⟨old.length + i, ?_, ?_, hi, ?_⟩
  · simp only [List.length_append, List.length_take]
    omega
  · simp only [List.length_append, List.length_take]
    omega
  · rw [List.getElem_append_right (by omega)]
    simpa using heq

/-- The positions below `K` of the entries that are not in slot `0`. -/
def sighted (c a K : ℕ) : Finset ℕ := (Finset.range K).filter fun k => (a + k) % c ≠ 0

theorem le_card_sighted {a K : ℕ} (hK : K ≤ c) : K ≤ (sighted c a K).card + 1 := by
  have hsplit : (sighted c a K).card +
      ((Finset.range K).filter fun k => ¬ (a + k) % c ≠ 0).card = K := by
    rw [sighted, Finset.card_filter_add_card_filter_not, Finset.card_range]
  have hone : ((Finset.range K).filter fun k => ¬ (a + k) % c ≠ 0).card ≤ 1 := by
    rw [Finset.card_le_one]
    intro i hi j hj
    simp only [ne_eq, not_not, Finset.mem_filter, Finset.mem_range] at hi hj
    have hmod : (a + i) % c = (a + j) % c := hi.2.trans hj.2.symm
    have : i % c = j % c := Nat.ModEq.add_left_cancel' a hmod
    rwa [Nat.mod_eq_of_lt (by omega), Nat.mod_eq_of_lt (by omega)] at this
  omega

theorem Admits.card_sighted_le (h : Admits c old ps) {D : Finset α} (hD : ∀ x ∈ ps, x ∈ D)
    {K : ℕ} (hK : K ≤ c) (hKp : K ≤ ps.length) [DecidableEq α] :
    (sighted c old.length K).image (fun k => ps[k]?) ⊆ D.image some ∧
      ((sighted c old.length K).image fun k => ps[k]?).card = (sighted c old.length K).card := by
  constructor
  · intro y hy
    obtain ⟨k, hk, rfl⟩ := Finset.mem_image.mp hy
    have hlt : k < ps.length := by
      have := Finset.mem_range.mp (Finset.mem_filter.mp hk).1
      omega
    rw [List.getElem?_eq_getElem hlt]
    exact Finset.mem_image_of_mem _ (hD _ (List.getElem_mem hlt))
  · refine Finset.card_image_of_injOn fun i hi j hj heq => ?_
    obtain ⟨hiK, hi₀⟩ := Finset.mem_filter.mp hi
    obtain ⟨hjK, hj₀⟩ := Finset.mem_filter.mp hj
    rw [Finset.mem_range] at hiK hjK
    have hil : i < ps.length := by omega
    have hjl : j < ps.length := by omega
    simp only [List.getElem?_eq_getElem hil, List.getElem?_eq_getElem hjl,
      Option.some.injEq] at heq
    rcases lt_trichotomy i j with hlt | rfl | hlt
    · exact absurd heq (h.ne hlt hjl (by omega) hi₀)
    · rfl
    · exact absurd heq.symm (h.ne hlt hil (by omega) hj₀)

/-- **Few values are recorded few times.** -/
theorem Admits.length_le [DecidableEq α] (h : Admits c old ps) {D : Finset α}
    (hD : ∀ x ∈ ps, x ∈ D) (hcard : D.card < c) : ps.length ≤ D.card + 1 := by
  have hsome : (D.image some).card = D.card :=
    Finset.card_image_of_injective _ (Option.some_injective α)
  rcases Nat.lt_or_ge c ps.length with hlt | hge
  · -- the first `c` entries already show every value, so the next one would have been found
    exfalso
    obtain ⟨hsub, hcd⟩ := h.card_sighted_le hD le_rfl hlt.le
    have hle := le_card_sighted (c := c) (a := old.length) le_rfl
    have himg := Finset.eq_of_subset_of_card_le hsub (by omega)
    have hmem : some ps[c] ∈ D.image some :=
      Finset.mem_image_of_mem _ (hD _ (List.getElem_mem hlt))
    rw [← himg] at hmem
    obtain ⟨k, hk, heq⟩ := Finset.mem_image.mp hmem
    obtain ⟨hkc, hk₀⟩ := Finset.mem_filter.mp hk
    rw [Finset.mem_range] at hkc
    rw [List.getElem?_eq_getElem (by omega), Option.some.injEq] at heq
    exact h.ne hkc hlt (by omega) hk₀ heq
  · obtain ⟨hsub, hcd⟩ := h.card_sighted_le hD hge le_rfl
    have hle := le_card_sighted (c := c) (a := old.length) hge
    have := Finset.card_le_card hsub
    omega

/-- While the recorded entries all fit, an invisible one sits in slot `0`. -/
theorem residue_eq_zero (hlen : ps.length ≤ c) {k : ℕ} (hk : k < ps.length)
    (hx : ¬ Visible c (old ++ ps) ps[k]) : (old.length + k) % c = 0 := by
  by_contra hne
  refine hx ⟨old.length + k, ?_, ?_, hne, ?_⟩
  · simp only [List.length_append]
    omega
  · simp only [List.length_append]
    omega
  · rw [List.getElem_append_right (by omega)]
    simp

end BlindWindow
