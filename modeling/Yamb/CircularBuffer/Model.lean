import Mathlib.Data.List.Basic
import Mathlib.Logic.Function.Basic
import Mathlib.Tactic.Common

/-!
# `CircularBuffer<T, N>`

The ring buffer of `CircularBuffer.h`. Every node keeps one for the hashes of the user messages it
has seen in a room and one for those of the system messages; both have 500 slots and are only ever
written with `put` and read with `isExists`.

* `CircularBuffer`: the members, with the bounds on the two positions;
* `new`, `put`, `isExists`, `get`, `reset`, `isEmpty`, `size`: the methods;
* `scan_iff`, `isExists_iff`: what the duplicate check looks at.
-/

set_option autoImplicit false

namespace Yamb

/-- `CircularBuffer<T, N>`: the slots are read at positions below `maxSize` only. -/
structure CircularBuffer (T : Type) (N : ℕ) where
  buf : ℕ → T
  head : ℕ
  tail : ℕ
  maxSize : ℕ
  full : Bool
  maxSize_le : maxSize ≤ N
  head_lt : head < maxSize
  tail_lt : tail < maxSize
  full_imp : full = true → head = tail

namespace CircularBuffer

variable {T : Type} {N : ℕ}

/-- The constructor; `buf_` is not initialised, so its first contents are arbitrary. -/
def new (junk : ℕ → T) (size : ℕ) (h₀ : 0 < size) (hN : size ≤ N) : CircularBuffer T N where
  buf := junk
  head := 0
  tail := 0
  maxSize := size
  full := false
  maxSize_le := hN
  head_lt := h₀
  tail_lt := h₀
  full_imp := fun _ => rfl

theorem maxSize_pos (w : CircularBuffer T N) : 0 < w.maxSize := Nat.zero_lt_of_lt w.head_lt

/-- The read position after a `put`: a full buffer gives up its oldest entry. -/
def putTail (w : CircularBuffer T N) : ℕ := if w.full then (w.tail + 1) % w.maxSize else w.tail

def put (w : CircularBuffer T N) (item : T) : CircularBuffer T N where
  buf := Function.update w.buf w.head item
  head := (w.head + 1) % w.maxSize
  tail := w.putTail
  maxSize := w.maxSize
  full := decide ((w.head + 1) % w.maxSize = w.putTail)
  maxSize_le := w.maxSize_le
  head_lt := Nat.mod_lt _ w.maxSize_pos
  tail_lt := by
    unfold putTail
    split_ifs
    · exact Nat.mod_lt _ w.maxSize_pos
    · exact w.tail_lt
  full_imp := fun h => of_decide_eq_true h

def size (w : CircularBuffer T N) : ℕ :=
  if w.full then w.maxSize
  else if w.tail ≤ w.head then w.head - w.tail
  else w.maxSize + w.head - w.tail

def isEmpty (w : CircularBuffer T N) : Bool := !w.full && decide (w.head = w.tail)

/-- The loop `for (int i = sizebuff; --i;)`: the counter is decremented before the test, so the
slots read are `sizebuff - 1, …, 1`. -/
def scan [DecidableEq T] (buf : ℕ → T) (item : T) : ℕ → Bool
  | 0 => false -- not entered: the caller returns on an empty buffer
  | i + 1 => if i = 0 then false else if buf i = item then true else scan buf item i

def isExists [DecidableEq T] (w : CircularBuffer T N) (item : T) : Bool :=
  if w.size = 0 then false else scan w.buf item w.size

def get [Inhabited T] (w : CircularBuffer T N) : T × CircularBuffer T N :=
  if w.isEmpty then (default, w)
  else (w.buf w.tail, { w with
    full := false
    tail := (w.tail + 1) % w.maxSize
    tail_lt := Nat.mod_lt _ w.maxSize_pos
    full_imp := fun h => Bool.noConfusion h })

def reset (w : CircularBuffer T N) : CircularBuffer T N := { w with
  head := w.tail
  full := false
  head_lt := w.tail_lt
  full_imp := fun h => Bool.noConfusion h }

@[simp] theorem put_maxSize (w : CircularBuffer T N) (x : T) : (w.put x).maxSize = w.maxSize := rfl

@[simp] theorem put_head (w : CircularBuffer T N) (x : T) :
    (w.put x).head = (w.head + 1) % w.maxSize := rfl

theorem scan_iff [DecidableEq T] (buf : ℕ → T) (item : T) (n : ℕ) :
    scan buf item n = true ↔ ∃ i, 1 ≤ i ∧ i < n ∧ buf i = item := by
  induction n with
  | zero => simp [scan]
  | succ n ih =>
    simp only [scan]
    split_ifs with h₀ h₁
    · simp only [false_iff, not_exists, not_and]
      intro i hi hn
      omega
    · simp only [true_iff]
      exact ⟨n, by omega, by omega, h₁⟩
    · rw [ih]
      constructor
      · rintro ⟨i, hi, hn, hb⟩
        exact ⟨i, hi, by omega, hb⟩
      · rintro ⟨i, hi, hn, hb⟩
        have hne : i ≠ n := by
          rintro rfl
          exact h₁ hb
        exact ⟨i, hi, by omega, hb⟩

/-- The duplicate check reads the slots from `1` on; slot `0` is never compared. -/
theorem isExists_iff [DecidableEq T] (w : CircularBuffer T N) (item : T) :
    w.isExists item = true ↔ ∃ i, 1 ≤ i ∧ i < w.size ∧ w.buf i = item := by
  unfold isExists
  split_ifs with h
  · simp only [false_iff, not_exists, not_and]
    intro i hi hs
    omega
  · exact scan_iff _ _ _

/-- The window holds `item` in slot `0` and nowhere else among its entries. -/
def OnlyInSlotZero [DecidableEq T] (w : CircularBuffer T N) (item : T) : Prop :=
  0 < w.size ∧ w.buf 0 = item ∧ w.isExists item = false

instance [DecidableEq T] (w : CircularBuffer T N) (item : T) : Decidable (w.OnlyInSlotZero item) :=
  inferInstanceAs (Decidable (_ ∧ _ ∧ _))

end CircularBuffer

end Yamb
