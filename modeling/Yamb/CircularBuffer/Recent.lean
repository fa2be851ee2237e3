import Mathlib.Data.Int.DivMod
import Yamb.CircularBuffer.History

/-!
# The slots the duplicate check reads

`isExists` counts down in an `int` from the number of entries.

* `scanReads`, `existsReads`: the check with the slots it reads and with the reads that leave the
  array; `existsReads_eq`: below `2 ^ 31` entries it is `isExists`;
* `AtSlot`: a value is among the last puts, in a given slot; `mem_recent_iff`;
* `Exact`: the check answers whether the value is among the last puts and reads their slots only;
* **`puts_exact_iff`**: after which puts, and for which values, it does.
-/

set_option autoImplicit false

namespace Yamb

namespace CircularBuffer

variable {T : Type} {N : ℕ}

inductive ScanFault
  /-- A slot below the array is read. -/
  | belowArray
  deriving DecidableEq

/-- The loop `for (int i = k; --i;)`, from `k` on: the answer and the slots read. -/
def scanReads [DecidableEq T] (buf : ℕ → T) (item : T) : ℕ → Except ScanFault (Bool × List ℕ)
  | 0 => .error .belowArray -- the counter becomes `-1`, which does not end the loop
  | i + 1 =>
    if i = 0 then .ok (false, [])
    else if buf i = item then .ok (true, [i])
    else (scanReads buf item i).map fun r => (r.1, i :: r.2)

/-- `isExists`, with the conversion of the `size_t` to the counter's `int`. -/
def existsReads [DecidableEq T] (w : CircularBuffer T N) (item : T) :
    Except ScanFault (Bool × List ℕ) :=
  if w.size = 0 then .ok (false, [])
  else match Int.bmod w.size (2 ^ 32) with
    | .ofNat k => scanReads w.buf item k
    | .negSucc _ => .error .belowArray

theorem scanReads_eq [DecidableEq T] (buf : ℕ → T) (item : T) {k : ℕ} (hk : 0 < k) :
    ∃ reads, scanReads buf item k = .ok (scan buf item k, reads) ∧
      ∀ i ∈ reads, 1 ≤ i ∧ i < k := by
  induction k with
  | zero => exact absurd hk (Nat.lt_irrefl 0)
  | succ k ih =>
    simp only [scanReads, scan]
    split_ifs with h₀ h₁
    · exact ⟨[], rfl, fun i hi => absurd hi List.not_mem_nil⟩
    · refine ⟨[k], rfl, fun i hi => ?_⟩
      rw [List.mem_singleton] at hi
      omega
    · obtain ⟨reads, hr, hlt⟩ := ih (by omega)
      refine ⟨k :: reads, by rw [hr]; rfl, fun i hi => ?_⟩
      rcases List.mem_cons.mp hi with rfl | hi
      · omega
      · have := hlt i hi
        omega

theorem existsReads_of_pos [DecidableEq T] (w : CircularBuffer T N) (item : T)
    (hk : 0 < Int.bmod w.size (2 ^ 32)) : ∃ reads,
      w.existsReads item = .ok (scan w.buf item (Int.bmod w.size (2 ^ 32)).toNat, reads) ∧
      ∀ i ∈ reads, 1 ≤ i ∧ i < (Int.bmod w.size (2 ^ 32)).toNat := by
  have hne : w.size ≠ 0 := by
    intro h
    rw [h] at hk
    exact absurd hk (by decide)
  unfold existsReads
  rw [if_neg hne]
  cases hb : Int.bmod w.size (2 ^ 32) with
  | ofNat k =>
    rw [hb] at hk
    exact scanReads_eq w.buf item (Int.natCast_pos.mp hk)
  | negSucc k =>
    rw [hb] at hk
    exact absurd hk (by simp)

theorem existsReads_of_nonpos [DecidableEq T] (w : CircularBuffer T N) (item : T)
    (hne : w.size ≠ 0) (hk : ¬ 0 < Int.bmod w.size (2 ^ 32)) :
    w.existsReads item = .error .belowArray := by
  unfold existsReads
  rw [if_neg hne]
  cases hb : Int.bmod w.size (2 ^ 32) with
  | ofNat k =>
    rw [hb] at hk
    obtain rfl : k = 0 := by
      by_contra h
      exact hk (Int.natCast_pos.mpr (Nat.pos_of_ne_zero h))
    rfl
  | negSucc k => rfl

/-- The counter is the number of entries, up to multiples of `2 ^ 32`. -/
theorem toNat_bmod_le (n : ℕ) : (Int.bmod n (2 ^ 32)).toNat ≤ n := by
  rw [Int.bmod_def]
  split_ifs <;> omega

theorem bmod_eq_of_lt {n : ℕ} (hn : n < 2 ^ 31) : Int.bmod n (2 ^ 32) = n := by
  rw [Int.bmod_def]
  split_ifs <;> omega

/-- **Below `2 ^ 31` entries** the conversion changes nothing. -/
theorem existsReads_eq [DecidableEq T] (w : CircularBuffer T N) (item : T)
    (hsize : w.size < 2 ^ 31) : ∃ reads, w.existsReads item = .ok (w.isExists item, reads) := by
  by_cases hne : w.size = 0
  · refine ⟨[], ?_⟩
    rw [existsReads, isExists, if_pos hne, if_pos hne]
  · have hb := bmod_eq_of_lt hsize
    obtain ⟨reads, hr, -⟩ := w.existsReads_of_pos item (by rw [hb]; omega)
    refine ⟨reads, ?_⟩
    rw [hr, hb, Int.toNat_natCast, isExists, if_neg hne]

/-! ### The puts behind the slots -/

/-- `x` is among the last `c` puts, in slot `i`. -/
def AtSlot (c : ℕ) (L : List T) (x : T) (i : ℕ) : Prop :=
  ∃ j, ∃ hj : j < L.length, L.length ≤ j + c ∧ j % c = i ∧ L[j] = x

/-- The last `c` puts, all of them when there were fewer. -/
def recent (c : ℕ) (L : List T) : List T := L.drop (L.length - c)

theorem length_recent (c : ℕ) (L : List T) : (recent c L).length = min L.length c := by
  rw [recent, List.length_drop]
  omega

theorem mem_recent_iff {c : ℕ} {L : List T} {x : T} :
    x ∈ recent c L ↔ ∃ i, AtSlot c L x i := by
  rw [recent, List.mem_drop_iff_getElem]
  constructor
  · rintro ⟨j, hj, hx⟩
    exact ⟨_, L.length - c + j, by omega, by omega, rfl, hx⟩
  · rintro ⟨i, j, hj, hlate, -, hx⟩
    refine ⟨j - (L.length - c), by omega, ?_⟩
    have hj' : L.length - c + (j - (L.length - c)) = j := by omega
    simpa only [hj'] using hx

variable {w : CircularBuffer T N} {L : List T} {x : T}

theorem Holds.foldl_put (ps : List T) {w : CircularBuffer T N} {L : List T} (h : Holds w L) :
    Holds (ps.foldl CircularBuffer.put w) (L ++ ps) ∧
      (ps.foldl CircularBuffer.put w).maxSize = w.maxSize := by
  induction ps generalizing w L with
  | nil =>
    rw [List.append_nil]
    exact ⟨h, rfl⟩
  | cons p ps ih =>
    obtain ⟨hh, hm⟩ := ih (h.put p)
    rw [List.append_assoc] at hh
    exact ⟨hh, hm.trans (put_maxSize w p)⟩

/-- The loop from `k` finds a value exactly when it was put lately in a slot from `1` to `k - 1`. -/
theorem Holds.scan_iff [DecidableEq T] (h : Holds w L) {k : ℕ} (hk : k ≤ w.size) (x : T) :
    scan w.buf x k = true ↔ ∃ i, AtSlot w.maxSize L x i ∧ 1 ≤ i ∧ i < k := by
  rw [h.size_eq] at hk
  rw [CircularBuffer.scan_iff]
  constructor
  · rintro ⟨i, hi, hik, hb⟩
    obtain ⟨j, hj, hlate, hji⟩ := exists_last_put (lt_of_lt_of_le hik hk)
    exact ⟨i, ⟨j, hj, hlate, hji, by rw [← h.slot j hj hlate, hji, hb]⟩, hi, hik⟩
  · rintro ⟨i, ⟨j, hj, hlate, hji, hx⟩, hi, hik⟩
    exact ⟨i, hi, hik, by rw [← hji, h.slot j hj hlate, hx]⟩

/-- The check ends without leaving the array, tells whether `x` is among the last puts, and reads
slots that hold such puts only. -/
def Exact [DecidableEq T] (w : CircularBuffer T N) (L : List T) (x : T) : Prop :=
  ∃ b reads, w.existsReads x = .ok (b, reads) ∧ (b = true ↔ x ∈ recent w.maxSize L) ∧
    ∀ i ∈ reads, AtSlot w.maxSize L (w.buf i) i

theorem Holds.exact_iff [DecidableEq T] (h : Holds w L) (x : T) :
    Exact w L x ↔ w.size = 0 ∨ 0 < Int.bmod w.size (2 ^ 32) ∧
      (x ∈ recent w.maxSize L →
        ∃ i, AtSlot w.maxSize L x i ∧ 1 ≤ i ∧ (i : ℤ) < Int.bmod w.size (2 ^ 32)) := by
  by_cases hne : w.size = 0
  · refine iff_of_true ⟨false, [], ?_, ?_, fun i hi => absurd hi List.not_mem_nil⟩ (.inl hne)
    · rw [existsReads, if_pos hne]
    · have hlen := length_recent w.maxSize L
      rw [← h.size_eq, hne, List.length_eq_zero_iff] at hlen
      simp [hlen]
  rw [or_iff_right hne]
  by_cases hk : 0 < Int.bmod w.size (2 ^ 32)
  · obtain ⟨reads, hr, hlt⟩ := w.existsReads_of_pos x hk
    have hle := toNat_bmod_le w.size
    have hscan := h.scan_iff hle x
    have hcast : ∀ i : ℕ, i < (Int.bmod w.size (2 ^ 32)).toNat ↔
        (i : ℤ) < Int.bmod w.size (2 ^ 32) := fun i => Int.lt_toNat
    simp only [hcast] at hscan hlt
    rw [and_iff_right hk]
    constructor
    · rintro ⟨b, reads', he, hb, -⟩ hx
      obtain ⟨rfl, -⟩ := Prod.mk.inj (Except.ok.inj (hr.symm.trans he))
      exact hscan.mp (hb.mpr hx)
    · intro hfound
      refine ⟨_, reads, hr, hscan.trans ⟨?_, hfound⟩, fun i hi => ?_⟩
      · rintro ⟨i, hi, -⟩
        exact mem_recent_iff.mpr ⟨i, hi⟩
      · have hi' : i < min L.length w.maxSize := by
          rw [← h.size_eq]
          have := (hlt i hi).2
          omega
        obtain ⟨j, hj, hlate, hji⟩ := exists_last_put hi'
        exact ⟨j, hj, hlate, hji, by rw [← hji, h.slot j hj hlate]⟩
  · -- the counter starts at or below zero
    refine iff_of_false ?_ fun hc => hk hc.1
    rintro ⟨b, reads, he, -⟩
    rw [w.existsReads_of_nonpos x hne hk] at he
    cases he

/-- **The duplicate window is exact** while it is empty, or as long as its number of entries is
positive as an `int` and the value, when it is among them, has an entry in a slot other than slot
`0` that the counter covers. -/
theorem puts_exact_iff [DecidableEq T] (junk : ℕ → T) {c : ℕ} (h₀ : 0 < c) (hN : c ≤ N)
    (L : List T) (x : T) :
    Exact (L.foldl put (CircularBuffer.new junk c h₀ hN : CircularBuffer T N)) L x ↔
      L = [] ∨ 0 < Int.bmod (min L.length c : ℕ) (2 ^ 32) ∧
        (x ∈ recent c L →
          ∃ i, AtSlot c L x i ∧ 1 ≤ i ∧ (i : ℤ) < Int.bmod (min L.length c : ℕ) (2 ^ 32)) := by
  obtain ⟨h, hm⟩ := (Holds.new (N := N) junk c h₀ hN).foldl_put L
  rw [List.nil_append] at h
  rw [h.exact_iff x, h.size_eq, hm]
  refine or_congr_left ?_
  show min L.length c = 0 ↔ _
  rw [← List.length_eq_zero_iff]
  omega

/-- Two slots, three puts: the last one went to slot `0`, the one before it is found. -/
theorem puts_exact_iff_three :
    Exact ([1, 2, 3].foldl put
      (CircularBuffer.new (fun _ => 0) 2 (by decide) (by decide) : CircularBuffer ℕ 2)) [1, 2, 3] 2 :=
  (puts_exact_iff (fun _ => 0) (by decide) (by decide) [1, 2, 3] 2).mpr
    (.inr ⟨by decide, fun _ => ⟨1, ⟨1, by decide, by decide, by decide, rfl⟩, by decide, by decide⟩⟩)

/-- The first value put is not found. -/
theorem not_exact_first :
    ¬ Exact ([5].foldl put
      (CircularBuffer.new (fun _ => 0) 2 (by decide) (by decide) : CircularBuffer ℕ 2)) [5] 5 := by
  rintro ⟨b, reads, he, hb, -⟩
  have hfalse : b = false := congrArg Prod.fst (Except.ok.inj he).symm
  rw [hfalse] at hb
  exact Bool.false_ne_true (hb.mpr (by decide))

end CircularBuffer

end Yamb
