import Mathlib.Data.List.Basic
import Mathlib.Data.List.Infix
import Mathlib.Tactic

/-!
# Frames in a stream of bytes

* `toBE`, `ofBE`: a number in network byte order, and **`ofBE_toBE`**;
* `xorMask`: bytes under a repeated mask, and `xorMask_xorMask`;
* `Reads`: a decoder reads frame after frame from the front of a stream;
* **`reads_flatMap`**: it reads what an encoder has written, whatever follows.
-/

set_option autoImplicit false

namespace Framing

/-! ## Numbers in network byte order -/

/-- The low `n` bytes of `v`, the most significant first. -/
def toBE : ℕ → ℕ → List UInt8
  | 0, _ => []
  | n + 1, v => toBE n (v / 256) ++ [UInt8.ofNat v]

/-- The number that bytes in network order stand for. -/
def ofBE (bs : List UInt8) : ℕ := bs.foldl (fun v b => 256 * v + b.toNat) 0

@[simp] theorem length_toBE (n v : ℕ) : (toBE n v).length = n := by
  induction n generalizing v with
  | zero => rfl
  | succ n ih => simp [toBE, ih]

theorem ofBE_concat (bs : List UInt8) (b : UInt8) : ofBE (bs ++ [b]) = 256 * ofBE bs + b.toNat := by
  simp [ofBE]

theorem ofBE_toBE (n v : ℕ) : ofBE (toBE n v) = v % 256 ^ n := by
  induction n generalizing v with
  | zero => simp [toBE, ofBE, Nat.mod_one]
  | succ n ih =>
    have hb : (UInt8.ofNat v).toNat = v % 256 := by simp
    calc ofBE (toBE (n + 1) v) = 256 * (v / 256 % 256 ^ n) + v % 256 := by
          rw [toBE, ofBE_concat, ih, hb]
      _ = v % 256 ^ (n + 1) := by
          rw [Nat.pow_succ', Nat.mod_mul, Nat.add_comm]

/-! ## Masks -/

/-- The bytes of `data`, each combined with the byte of the mask at its place modulo four. -/
def xorMask (mask data : List UInt8) : List UInt8 :=
  data.mapIdx fun i b => b ^^^ mask.getD (i % 4) 0

variable {mask data : List UInt8}

@[simp] theorem length_xorMask : (xorMask mask data).length = data.length := by
  simp [xorMask]

@[simp] theorem xorMask_nil : xorMask [] data = data := by
  apply List.ext_getElem
  · simp
  · intro i h₁ h₂
    simp [xorMask]

theorem xorMask_xorMask : xorMask mask (xorMask mask data) = data := by
  apply List.ext_getElem
  · simp
  · intro i h₁ h₂
    simp only [xorMask, List.getElem_mapIdx]
    rw [UInt8.xor_assoc, UInt8.xor_self, UInt8.xor_zero]

theorem take_xorMask (n : ℕ) : (xorMask mask data).take n = xorMask mask (data.take n) := by
  apply List.ext_getElem
  · simp
  · intro i h₁ h₂
    simp [xorMask]

/-! ## Frame after frame -/

section Reads

variable {α β : Type} {dec : List β → Option (α × List β)} {x y z : List β} {a : α} {as bs : List α}

/-- The decoder takes the frames `as` off the front of a stream and leaves the rest. -/
inductive Reads (dec : List β → Option (α × List β)) : List β → List α → List β → Prop
  | nil (x : List β) : Reads dec x [] x
  | cons {x y z : List β} {a : α} {as : List α} (h : dec x = some (a, y)) (t : Reads dec y as z) :
      Reads dec x (a :: as) z

theorem Reads.append (h : Reads dec x as y) (h' : Reads dec y bs z) : Reads dec x (as ++ bs) z := by
  induction h with
  | nil => exact h'
  | cons hd _ ih => exact .cons hd (ih h')

/-- **What was written is read back**, in front of any rest. -/
theorem reads_flatMap {γ : Type} {enc : γ → List β} {val : γ → α} (cs : List γ) (z : List β)
    (h : ∀ c ∈ cs, ∀ z, dec (enc c ++ z) = some (val c, z)) :
    Reads dec (cs.flatMap enc ++ z) (cs.map val) z := by
  induction cs with
  | nil => exact .nil z
  | cons c cs ih =>
    rw [List.flatMap_cons, List.append_assoc]
    exact .cons (h c List.mem_cons_self _) (ih fun b hb => h b (List.mem_cons_of_mem _ hb))

/-- A decoder that always consumes reads until it has read everything or can read no more. -/
theorem exists_reads (hdec : ∀ x a y, dec x = some (a, y) → y.length < x.length) (x : List β) :
    ∃ as z, Reads dec x as z ∧ (z = [] ∨ dec z = none) := by
  induction hn : x.length using Nat.strong_induction_on generalizing x with
  | _ n ih =>
    cases hx : dec x with
    | none => exact ⟨[], x, .nil x, .inr hx⟩
    | some ay =>
      obtain ⟨as, z, has, hz⟩ := ih _ (hn ▸ hdec x ay.1 ay.2 hx) ay.2 rfl
      exact ⟨ay.1 :: as, z, .cons hx has, hz⟩

/-- Every frame read is smaller than the stream it was read from. -/
theorem Reads.size_lt (size : α → ℕ)
    (hdec : ∀ x a y, dec x = some (a, y) → size a + y.length < x.length) (h : Reads dec x as z) :
    ∀ a ∈ as, size a < x.length := by
  induction h with
  | nil => simp
  | cons hd _ ih =>
    have hlt := hdec _ _ _ hd
    intro a ha
    rcases List.mem_cons.mp ha with rfl | ha
    · omega
    · have := ih a ha
      omega

end Reads

end Framing
