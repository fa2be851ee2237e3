import Yamb.CircularBuffer.Model
import Yamb.Lib.BlindWindow

/-!
# A hash window and the puts that filled it

* `Holds w L`: `w` is what a new buffer becomes after the puts `L`; `Holds.new`, `Holds.put`;
* **`Holds.isExists_iff`**: the duplicate check answers exactly `BlindWindow.Visible`: it finds a
  value among the last `maxSize` puts unless that put went to slot `0`;
* `Holds.onlyInSlotZero`: what was put lately and is not found sits in slot `0`.
-/

set_option autoImplicit false

namespace Yamb

namespace CircularBuffer

variable {T : Type} {N : ℕ}

/-- `w` is the buffer after the puts `L` into a new one. -/
structure Holds (w : CircularBuffer T N) (L : List T) : Prop where
  head_eq : w.head = L.length % w.maxSize
  full_iff : w.full = true ↔ w.maxSize ≤ L.length
  tail_eq : w.full = false → w.tail = 0
  slot : ∀ j, ∀ hj : j < L.length, L.length ≤ j + w.maxSize → w.buf (j % w.maxSize) = L[j]

theorem Holds.new (junk : ℕ → T) (size : ℕ) (h₀ : 0 < size) (hN : size ≤ N) :
    Holds (CircularBuffer.new junk size h₀ hN : CircularBuffer T N) [] where
  head_eq := by simp [CircularBuffer.new]
  full_iff := by simp [CircularBuffer.new, h₀.ne']
  tail_eq := fun _ => rfl
  slot := fun j hj => absurd hj (Nat.not_lt_zero j)

theorem mod_ne_of_lt {c i j : ℕ} (hij : i < j) (hjc : j < i + c) : i % c ≠ j % c := by
  intro h
  have hdvd := (Nat.modEq_iff_dvd' hij.le).mp h
  exact absurd (Nat.le_of_dvd (by omega) hdvd) (by omega)

theorem succ_mod_eq_zero_iff {c n : ℕ} (hc : n + 1 ≤ c) : (n + 1) % c = 0 ↔ n + 1 = c := by
  constructor
  · intro h
    by_contra hne
    rw [Nat.mod_eq_of_lt (by omega)] at h
    omega
  · rintro rfl
    exact Nat.mod_self _

theorem Holds.put {w : CircularBuffer T N} {L : List T} (h : Holds w L) (x : T) :
    Holds (w.put x) (L ++ [x]) := by
  have hhead : (w.head + 1) % w.maxSize = (L.length + 1) % w.maxSize := by
    rw [h.head_eq, Nat.mod_add_mod]
  have hfull : (w.put x).full = true ↔ w.maxSize ≤ L.length + 1 := by
    show decide ((w.head + 1) % w.maxSize = w.putTail) = true ↔ _
    rw [decide_eq_true_iff, putTail]
    by_cases hf : w.full = true
    · rw [if_pos hf, w.full_imp hf]
      have := h.full_iff.mp hf
      exact iff_of_true rfl (by omega)
    · have hlt : L.length < w.maxSize := by
        by_contra hge
        exact hf (h.full_iff.mpr (by omega))
      rw [if_neg hf, h.tail_eq (by simpa using hf), hhead, succ_mod_eq_zero_iff hlt]
      omega
  refine ⟨?_, ?_, ?_, ?_⟩
  · simpa using hhead
  · simpa using hfull
  · intro hf
    have hf' : w.full ≠ true := by
      intro ht
      have : (w.put x).full = true := hfull.mpr (by have := h.full_iff.mp ht; omega)
      rw [hf] at this
      exact Bool.noConfusion this
    show w.putTail = 0
    rw [putTail, if_neg hf']
    exact h.tail_eq (by simpa using hf')
  · intro j hj hlate
    change Function.update w.buf w.head x (j % w.maxSize) = _
    rw [List.length_append, List.length_singleton] at hj
    rw [put_maxSize, List.length_append, List.length_singleton] at hlate
    rcases Nat.lt_or_ge j L.length with hlt | hge
    · rw [List.getElem_append_left hlt, h.head_eq, Function.update_of_ne, h.slot j hlt (by omega)]
      exact mod_ne_of_lt hlt (by omega)
    · obtain rfl : j = L.length := by omega
      rw [← h.head_eq, Function.update_self]
      simp

theorem Holds.size_eq {w : CircularBuffer T N} {L : List T} (h : Holds w L) :
    w.size = min L.length w.maxSize := by
  unfold size
  by_cases hf : w.full = true
  · rw [if_pos hf, min_eq_right (h.full_iff.mp hf)]
  · have hlt : L.length < w.maxSize := by
      by_contra hge
      exact hf (h.full_iff.mpr (by omega))
    rw [if_neg hf, h.tail_eq (by simpa using hf), if_pos (Nat.zero_le _), h.head_eq,
      Nat.mod_eq_of_lt hlt, min_eq_left hlt.le, Nat.sub_zero]

/-- The last put that went to slot `i`. -/
theorem exists_last_put {c n i : ℕ} (hi : i < min n c) :
    ∃ j, j < n ∧ n ≤ j + c ∧ j % c = i := by
  have hin : i < n := lt_of_lt_of_le hi (min_le_left _ _)
  have hic : i < c := lt_of_lt_of_le hi (min_le_right _ _)
  have hdm := Nat.div_add_mod (n - 1 - i) c
  have hlt := Nat.mod_lt (n - 1 - i) (Nat.zero_lt_of_lt hic)
  refine ⟨i + c * ((n - 1 - i) / c), by omega, by omega, ?_⟩
  rw [Nat.add_mul_mod_self_left, Nat.mod_eq_of_lt hic]

/-- **The duplicate check** finds a value exactly when it is among the last `maxSize` puts, in a
slot other than slot `0`. -/
theorem Holds.isExists_iff [DecidableEq T] {w : CircularBuffer T N} {L : List T} (h : Holds w L)
    (x : T) : w.isExists x = true ↔ BlindWindow.Visible w.maxSize L x := by
  rw [CircularBuffer.isExists_iff, h.size_eq]
  constructor
  · rintro ⟨i, hi, his, hb⟩
    obtain ⟨j, hj, hlate, hji⟩ := exists_last_put his
    refine ⟨j, hj, hlate, by omega, ?_⟩
    rw [← h.slot j hj hlate, hji, hb]
  · rintro ⟨j, hj, hlate, hj₀, rfl⟩
    refine ⟨j % w.maxSize, by omega, lt_min ?_ (Nat.mod_lt _ w.maxSize_pos), h.slot j hj hlate⟩
    exact lt_of_le_of_lt (Nat.mod_le _ _) hj

theorem Holds.not_isExists_iff [DecidableEq T] {w : CircularBuffer T N} {L : List T}
    (h : Holds w L) (x : T) :
    w.isExists x = false ↔ ¬ BlindWindow.Visible w.maxSize L x := by
  rw [← h.isExists_iff, Bool.not_eq_true]

/-- A value that slot `0` holds was put. -/
theorem Holds.mem_of_onlyInSlotZero [DecidableEq T] {w : CircularBuffer T N} {L : List T}
    (h : Holds w L) {x : T} (hx : w.OnlyInSlotZero x) : x ∈ L := by
  obtain ⟨hsize, hbuf, -⟩ := hx
  rw [h.size_eq] at hsize
  obtain ⟨j, hj, hlate, hj₀⟩ := exists_last_put hsize
  rw [← hbuf, ← hj₀, h.slot j hj hlate]
  exact List.getElem_mem hj

/-- **A lost value sits in slot `0`**: what is among the last `maxSize` puts and is not found. -/
theorem Holds.onlyInSlotZero [DecidableEq T] {w : CircularBuffer T N} {old ps : List T}
    (h : Holds w (old ++ ps)) (hlen : ps.length ≤ w.maxSize) {x : T} (hx : x ∈ ps)
    (hlost : w.isExists x = false) : w.OnlyInSlotZero x := by
  obtain ⟨k, hk, rfl⟩ := List.getElem_of_mem hx
  have hres := BlindWindow.residue_eq_zero hlen hk ((h.not_isExists_iff _).mp hlost)
  have hslot := h.slot (old.length + k) (by simp; omega) (by simp; omega)
  refine ⟨?_, ?_, hlost⟩
  · rw [h.size_eq]
    have := w.maxSize_pos
    simp only [List.length_append, lt_min_iff]
    omega
  · rw [hres] at hslot
    rw [hslot, List.getElem_append_right (by omega)]
    simp

end CircularBuffer

end Yamb
