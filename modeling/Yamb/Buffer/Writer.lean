import Mathlib.Data.List.GetD
import Yamb.Buffer.Bounds

/-!
# The writer of a buffer

`BitWriter` over the memory in which its buffer lies, with the places that are written.

* `BitWriter`: the memory, the limit, the position, and the places written so far;
* `put`, `update`, `skip`, `seek`: the calls, with the arithmetic of a `size_t`;
* `Field`, `Kind`: what is put and updated, and what is read;
* `WriterMeets`, **`run_writerInBounds_iff`**: the runs that stay in bounds;
* `Edit`, **`run_reads`**: what was put, with the updates since, is what a reader gets.
-/

set_option autoImplicit false

namespace Yamb.Buffer

open Framing

/-- A block of memory. -/
structure Block where
  bytes : List UInt8
  length_lt : bytes.length < 2 ^ 63

/-- `BitWriter`. `bytes` is the memory from `_bytes` on; `written` are the places that were
written. -/
structure BitWriter where
  bytes : ℕ → UInt8
  limit : ℕ
  limit_lt : limit < 2 ^ 63
  order : ByteOrder
  position : ℕ
  written : List ℕ

abbrev Writing (α : Type) : Type := Op BitWriter String α

/-- The bytes of a number in memory. -/
def ByteOrder.bytes : ByteOrder → ℕ → ℕ → List UInt8
  | .network, len, val => toBE len val
  | .host, len, val => (toBE len val).reverse

theorem ByteOrder.length_bytes (order : ByteOrder) (len val : ℕ) :
    (order.bytes len val).length = len := by
  cases order with
  | network => exact length_toBE len val
  | host => exact List.length_reverse.trans (length_toBE len val)

/-- A number of at most eight bytes. -/
def ByteOrder.block (order : ByteOrder) (len : Fin 9) (val : ℕ) : Block :=
  ⟨order.bytes len val, by
    have := order.length_bytes len val
    omega⟩

/-- The last three of four bytes in network order, and the first three else. -/
def ByteOrder.block24 (order : ByteOrder) (val : ℕ) : Block :=
  ⟨(order.bytes 4 val).extract (if order = .network then 1 else 0) (if order = .network then 4 else 3),
    by
    have := order.length_bytes 4 val
    rw [List.extract_eq_take_drop, List.length_take]
    split_ifs <;> omega⟩

/-- The memory after a `memcpy` to the place `i`. -/
def memcpy (m : ℕ → UInt8) (i : ℕ) (val : List UInt8) : ℕ → UInt8 := fun j =>
  if i ≤ j then val.getD (j - i) (m j) else m j

namespace BitWriter

/-! ### The cursor -/

/-- `init`. -/
def new (bytes : ℕ → UInt8) (limit : ℕ) (h : limit < 2 ^ 63) (order : ByteOrder) : BitWriter :=
  ⟨bytes, limit, h, order, 0, []⟩

def available (w : BitWriter) : ℕ := (w.limit + 2 ^ 64 - w.position) % 2 ^ 64

/-- `_position + val`. -/
def index (w : BitWriter) (val : ℕ) : ℕ := (w.position + val) % 2 ^ 64

/-- `memcpy(_bytes + i, val, len)`. -/
def store (i : ℕ) (val : List UInt8) : Writing Unit := .modify fun w =>
  { w with bytes := memcpy w.bytes i val, written := w.written ++ List.range' i val.length }

/-- `_position += val`. -/
def advance (val : ℕ) : Writing Unit := .modify fun w => { w with position := w.index val }

/-- `skip` compares the position that it leads to with the limit. -/
def skip (val : ℕ) : Writing Unit := fun w =>
  if w.index val > w.limit then (.error "index out of range", w) else advance val w

def seek (val : ℕ) : Writing Unit := fun w =>
  if val > w.limit then (.error "index out of range", w) else (.ok (), { w with position := val })

/-! ### Write functions -/

/-- `put` of characters or of a string. -/
def put (val : Block) : Writing Unit := fun w =>
  if w.index val.bytes.length > w.limit then (.error "insufficient buffer capacity", w)
  else (do
    store w.position val.bytes
    advance val.bytes.length : Writing Unit) w

/-- The `put` of a number of `len` bytes. -/
def putNumber (len : Fin 9) (val : ℕ) : Writing Unit := do
  let order ← .gets order
  put (order.block len val)

def putU8 (val : UInt8) : Writing Unit := putNumber 1 val.toNat

def putU16 (val : UInt16) : Writing Unit := putNumber 2 val.toNat

def putU24 (val : UInt32) : Writing Unit := do
  let order ← .gets order
  put (order.block24 val.toNat)

def putU32 (val : UInt32) : Writing Unit := putNumber 4 val.toNat

def putU64 (val : UInt64) : Writing Unit := putNumber 8 val.toNat

/-! ### Update functions -/

/-- `update` compares the end of the bytes with the number of bytes that are left, not with the
limit. -/
def update (val : Block) (pos : UInt64) : Writing Bool := fun w =>
  if (pos.toNat + val.bytes.length) % 2 ^ 64 > w.available then (.ok false, w)
  else (do
    store pos.toNat val.bytes
    pure true : Writing Bool) w

/-- The `update` of a number of `len` bytes. -/
def updateNumber (len : Fin 9) (val : ℕ) (pos : UInt64) : Writing Bool := do
  let order ← .gets order
  update (order.block len val) pos

def updateU8 (val : UInt8) (pos : UInt64) : Writing Bool := updateNumber 1 val.toNat pos

def updateU16 (val : UInt16) (pos : UInt64) : Writing Bool := updateNumber 2 val.toNat pos

def updateU24 (val : UInt32) (pos : UInt64) : Writing Bool := do
  let order ← .gets order
  update (order.block24 val.toNat) pos

def updateU32 (val : UInt32) (pos : UInt64) : Writing Bool := updateNumber 4 val.toNat pos

def updateU64 (val : UInt64) (pos : UInt64) : Writing Bool := updateNumber 8 val.toNat pos

end BitWriter

/-! ### Fields -/

/-- What is put and updated. -/
inductive Field
  | u8 (val : UInt8)
  | u16 (val : UInt16)
  | u24 (val : UInt32)
  | u32 (val : UInt32)
  | u64 (val : UInt64)
  | chars (val : Block)

def Field.put : Field → Writing Unit
  | .u8 val => BitWriter.putU8 val
  | .u16 val => BitWriter.putU16 val
  | .u24 val => BitWriter.putU24 val
  | .u32 val => BitWriter.putU32 val
  | .u64 val => BitWriter.putU64 val
  | .chars val => BitWriter.put val

def Field.update : Field → UInt64 → Writing Bool
  | .u8 val, pos => BitWriter.updateU8 val pos
  | .u16 val, pos => BitWriter.updateU16 val pos
  | .u24 val, pos => BitWriter.updateU24 val pos
  | .u32 val, pos => BitWriter.updateU32 val pos
  | .u64 val, pos => BitWriter.updateU64 val pos
  | .chars val, pos => BitWriter.update val pos

/-- What is read: a number or characters. -/
inductive Kind
  | u8
  | u16
  | u24
  | u32
  | u64
  | chars (len : ℕ)

def Kind.get : Kind → Reading (ℕ ⊕ List UInt8)
  | .u8 => do pure (.inl (← BitReader.getU8))
  | .u16 => do pure (.inl (← BitReader.getU16))
  | .u24 => do pure (.inl (← BitReader.getU24))
  | .u32 => do pure (.inl (← BitReader.getU32))
  | .u64 => do pure (.inl (← BitReader.getU64))
  | .chars len => do pure (.inr (← BitReader.get len))

def Kind.getAll : List Kind → Reading (List (ℕ ⊕ List UInt8))
  | [] => pure []
  | k :: ks => do
    let val ← k.get
    let vals ← Kind.getAll ks
    pure (val :: vals)

def Field.kind : Field → Kind
  | .u8 _ => .u8
  | .u16 _ => .u16
  | .u24 _ => .u24
  | .u32 _ => .u32
  | .u64 _ => .u64
  | .chars val => .chars val.bytes.length

/-- What a reader gets. Of the four bytes of a `u24` three are written. -/
def Field.value : Field → ℕ ⊕ List UInt8
  | .u8 val => .inl val.toNat
  | .u16 val => .inl val.toNat
  | .u24 val => .inl (val.toNat % 2 ^ 24)
  | .u32 val => .inl val.toNat
  | .u64 val => .inl val.toNat
  | .chars val => .inr val.bytes

def Field.size : Field → ℕ
  | .u8 _ => 1
  | .u16 _ => 2
  | .u24 _ => 3
  | .u32 _ => 4
  | .u64 _ => 8
  | .chars val => val.bytes.length

/-- The bytes that are written. -/
def Field.block (order : ByteOrder) : Field → Block
  | .u8 val => order.block 1 val.toNat
  | .u16 val => order.block 2 val.toNat
  | .u24 val => order.block24 val.toNat
  | .u32 val => order.block 4 val.toNat
  | .u64 val => order.block 8 val.toNat
  | .chars val => val

variable {w w' w₀ : BitWriter} {f g : Field} {fs : List Field} {order : ByteOrder} {m : ℕ → UInt8}
  {i k : ℕ} {a b : List UInt8} {val : Block} {pos : UInt64}

theorem Field.put_eq (f : Field) (w : BitWriter) :
    f.put w = BitWriter.put (f.block w.order) w := by
  cases f with
  | u8 val => rfl
  | u16 val => rfl
  | u24 val => rfl
  | u32 val => rfl
  | u64 val => rfl
  | chars val => rfl

theorem Field.update_eq (f : Field) (pos : UInt64) (w : BitWriter) :
    f.update pos w = BitWriter.update (f.block w.order) pos w := by
  cases f with
  | u8 val => rfl
  | u16 val => rfl
  | u24 val => rfl
  | u32 val => rfl
  | u64 val => rfl
  | chars val => rfl

/-! ### Three bytes of four -/

theorem drop_toBE (len val : ℕ) : (toBE (len + 1) val).drop 1 = toBE len val := by
  induction len generalizing val with
  | zero => rfl
  | succ len ih =>
    rw [toBE, List.drop_append_of_le_length (by rw [length_toBE]; omega), ih, toBE]

theorem bytes_block24 (order : ByteOrder) (val : ℕ) :
    (order.block24 val).bytes = order.bytes 3 val := by
  have hlen : (toBE 3 val).length = 3 := length_toBE 3 val
  cases order with
  | network =>
    show (((toBE 4 val).drop 1).take 3) = toBE 3 val
    rw [drop_toBE, List.take_of_length_le hlen.le]
  | host =>
    show (((toBE 4 val).reverse.drop 0).take 3) = (toBE 3 val).reverse
    rw [List.drop_zero, List.take_reverse, length_toBE, drop_toBE]

theorem ByteOrder.number_bytes (order : ByteOrder) (len val : ℕ) :
    order.number (order.bytes len val) = val % 256 ^ len := by
  cases order with
  | network => exact ofBE_toBE len val
  | host =>
    show ofBE (toBE len val).reverse.reverse = _
    rw [List.reverse_reverse, ofBE_toBE]

theorem Field.length_block (order : ByteOrder) (f : Field) :
    (f.block order).bytes.length = f.size := by
  cases f with
  | u8 val => exact order.length_bytes 1 _
  | u16 val => exact order.length_bytes 2 _
  | u24 val => exact (congrArg List.length (bytes_block24 order _)).trans (order.length_bytes 3 _)
  | u32 val => exact order.length_bytes 4 _
  | u64 val => exact order.length_bytes 8 _
  | chars val => rfl

/-! ### Memory -/

theorem memcpy_of_lt {j : ℕ} (m : ℕ → UInt8) (a : List UInt8) (h : j < i) : memcpy m i a j = m j := by
  rw [memcpy, if_neg (by omega)]

theorem memcpy_of_ge {j : ℕ} (m : ℕ → UInt8) (a : List UInt8) (h : i + a.length ≤ j) :
    memcpy m i a j = m j := by
  rw [memcpy, if_pos (by omega), List.getD_eq_default _ _ (by omega)]

theorem memcpy_add (m : ℕ → UInt8) (a : List UInt8) (i : ℕ) (h : k < a.length) :
    memcpy m i a (i + k) = a[k] := by
  rw [memcpy, if_pos (by omega), Nat.add_sub_cancel_left, List.getD_eq_getElem _ _ h]

/-- Two memories that agree before, in and behind a block. -/
theorem memory_ext {n : ℕ} {m m' : ℕ → UInt8} (hlt : ∀ j < i, m j = m' j)
    (hmem : ∀ k < n, m (i + k) = m' (i + k)) (hge : ∀ j ≥ i + n, m j = m' j) : m = m' := by
  funext j
  by_cases hj : j < i
  · exact hlt j hj
  · by_cases hj' : i + n ≤ j
    · exact hge j hj'
    · have := hmem (j - i) (by omega)
      rwa [Nat.add_sub_cancel' (by omega)] at this

theorem memcpy_append (m : ℕ → UInt8) (i : ℕ) (a b : List UInt8) :
    memcpy m i (a ++ b) = memcpy (memcpy m i a) (i + a.length) b := by
  apply memory_ext (i := i) (n := a.length)
  · intro j hj
    rw [memcpy_of_lt _ _ hj, memcpy_of_lt _ _ (by omega), memcpy_of_lt _ _ hj]
  · intro k hk
    rw [memcpy_add _ _ _ (by rw [List.length_append]; omega), memcpy_of_lt _ _ (by omega),
      memcpy_add _ _ _ hk, List.getElem_append_left hk]
  · intro j hj
    by_cases hb : i + a.length + b.length ≤ j
    · rw [memcpy_of_ge _ _ (by rw [List.length_append]; omega), memcpy_of_ge _ _ hb,
        memcpy_of_ge _ _ hj]
    · obtain ⟨k, rfl⟩ : ∃ k, j = i + a.length + k := ⟨j - (i + a.length), by omega⟩
      have hk : k < b.length := by omega
      rw [memcpy_add _ _ _ hk, Nat.add_assoc, memcpy_add _ _ _ (by rw [List.length_append]; omega),
        List.getElem_append_right (by omega)]
      simp only [Nat.add_sub_cancel_left]

/-- Writing a block once more. -/
theorem memcpy_memcpy (m : ℕ → UInt8) (i : ℕ) (h : a.length = b.length) :
    memcpy (memcpy m i a) i b = memcpy m i b := by
  apply memory_ext (i := i) (n := b.length)
  · intro j hj
    rw [memcpy_of_lt _ _ hj, memcpy_of_lt _ _ hj, memcpy_of_lt _ _ hj]
  · intro k hk
    rw [memcpy_add _ _ _ hk, memcpy_add _ _ _ hk]
  · intro j hj
    rw [memcpy_of_ge _ _ hj, memcpy_of_ge _ _ (by omega), memcpy_of_ge _ _ hj]

/-- Blocks that do not overlap are written in either order. -/
theorem memcpy_comm (m : ℕ → UInt8) (h : i + a.length ≤ k) :
    memcpy (memcpy m k b) i a = memcpy (memcpy m i a) k b := by
  apply memory_ext (i := i) (n := a.length)
  · intro j hj
    rw [memcpy_of_lt _ _ hj, memcpy_of_lt _ _ (by omega), memcpy_of_lt _ _ (by omega),
      memcpy_of_lt _ _ hj]
  · intro l hl
    rw [memcpy_add _ _ _ hl, memcpy_of_lt _ _ (by omega), memcpy_add _ _ _ hl]
  · intro j hj
    rw [memcpy_of_ge _ _ hj]
    by_cases hk : k ≤ j
    · rw [memcpy, memcpy, memcpy_of_ge _ _ hj]
    · rw [memcpy_of_lt _ _ (by omega), memcpy_of_lt _ _ (by omega), memcpy_of_ge _ _ hj]

/-- A block inside of another one is replaced. -/
theorem memcpy_replace (m : ℕ → UInt8) (i : ℕ) (c d : List UInt8) (h : a.length = b.length) :
    memcpy (memcpy m i (c ++ a ++ d)) (i + c.length) b = memcpy m i (c ++ b ++ d) := by
  rw [memcpy_append, memcpy_append, memcpy_append m i (c ++ b), memcpy_append m i c b,
    List.length_append, List.length_append, memcpy_comm _ (by omega), memcpy_memcpy _ _ h, h]

theorem map_memcpy (m : ℕ → UInt8) (i : ℕ) (a : List UInt8) :
    (List.range' i a.length).map (memcpy m i a) = a := by
  apply List.ext_getElem
  · rw [List.length_map, List.length_range']
  · intro k hk hk'
    rw [List.getElem_map, List.getElem_range', Nat.one_mul, memcpy_add _ _ _ hk']

/-! ### The calls -/

namespace BitWriter

/-- A block was written to `i`, and the writer moved on. -/
def wrote (w : BitWriter) (i : ℕ) (val : List UInt8) (n : ℕ) : BitWriter :=
  { w with
    bytes := memcpy w.bytes i val
    written := w.written ++ List.range' i val.length
    position := w.position + n }

theorem available_eq (h : w.position ≤ w.limit) : w.available = w.limit - w.position := by
  have hlt := w.limit_lt
  rw [available]
  omega

theorem put_eq (h : w.position ≤ w.limit) (val : Block) :
    put val w = if val.bytes.length ≤ w.limit - w.position
      then (.ok (), w.wrote w.position val.bytes val.bytes.length)
      else (.error "insufficient buffer capacity", w) := by
  have hlt := w.limit_lt
  have hval := val.length_lt
  have hindex : w.index val.bytes.length = w.position + val.bytes.length := by
    rw [index]
    omega
  rw [put, hindex]
  split_ifs with hgt hle
  · omega
  · rfl
  · show (Except.ok (), { w.wrote w.position val.bytes 0 with
      position := w.index val.bytes.length }) = _
    rw [hindex]
    rfl
  · omega

theorem update_of_gt (h : w.position ≤ w.limit)
    (hgt : w.limit - w.position < (pos.toNat + val.bytes.length) % 2 ^ 64) :
    update val pos w = (.ok false, w) := by
  rw [update, available_eq h, if_pos hgt]

theorem update_of_le (h : w.position ≤ w.limit)
    (hle : (pos.toNat + val.bytes.length) % 2 ^ 64 ≤ w.limit - w.position) :
    update val pos w = (.ok true, w.wrote pos.toNat val.bytes 0) := by
  rw [update, available_eq h, if_neg (by omega)]
  rfl

end BitWriter

/-! ### Bounds -/

/-- The calls of a writer. -/
inductive WriterCall
  | skip (val : ℕ)
  | seek (val : ℕ)
  | put (f : Field)
  | update (f : Field) (pos : UInt64)

/-- A call, but for what it returns. -/
def WriterCall.run : WriterCall → Writing Unit
  | .skip val => BitWriter.skip val
  | .seek val => BitWriter.seek val
  | .put f => f.put
  | .update f pos => do let _ ← f.update pos

/-- The call keeps the position within the buffer, writes to bytes of the buffer only, and where it
throws it changes nothing. -/
def WriterInBounds (w : BitWriter) (c : WriterCall) : Prop :=
  (c.run w).2.position ≤ w.limit ∧ (∀ i ∈ (c.run w).2.written, i < w.limit) ∧
    ∀ e, (c.run w).1 = .error e → (c.run w).2 = w

/-- The end of what is updated fits a `size_t`, or what is left of it is still refused. -/
def WriterMeets (w : BitWriter) : WriterCall → Prop
  | .update f pos => pos.toNat + f.size < 2 ^ 64 ∨ w.limit - w.position < pos.toNat + f.size - 2 ^ 64
  | _ => True

/-- What holds of a writer as long as its calls stay in bounds. -/
structure WriterWithin (w : BitWriter) : Prop where
  position : w.position ≤ w.limit
  written : ∀ i ∈ w.written, i < w.limit

theorem mem_written_wrote {n j : ℕ} :
    j ∈ (w.wrote i a n).written ↔ j ∈ w.written ∨ i ≤ j ∧ j < i + a.length := by
  show j ∈ w.written ++ List.range' i a.length ↔ _
  rw [List.mem_append, List.mem_range'_1]

/-- A call moves the writer within its buffer, or writes there, or does not meet its condition. -/
theorem writerInBounds_iff (h : WriterWithin w) (c : WriterCall) :
    WriterInBounds w c ↔ WriterMeets w c := by
  have hlt := w.limit_lt
  have hposition := h.position
  cases c with
  | skip val =>
    refine iff_of_true ?_ trivial
    rw [WriterInBounds, WriterCall.run, BitWriter.skip]
    split_ifs with hgt
    · exact ⟨h.position, h.written, fun _ _ => rfl⟩
    · exact ⟨Nat.le_of_not_lt hgt, h.written, fun _ he => by cases he⟩
  | seek val =>
    refine iff_of_true ?_ trivial
    rw [WriterInBounds, WriterCall.run, BitWriter.seek]
    split_ifs with hgt
    · exact ⟨h.position, h.written, fun _ _ => rfl⟩
    · exact ⟨Nat.le_of_not_lt hgt, h.written, fun _ he => by cases he⟩
  | put f =>
    refine iff_of_true ?_ trivial
    have hlen := f.length_block w.order
    rw [WriterInBounds, WriterCall.run, f.put_eq, BitWriter.put_eq h.position]
    split_ifs with hle
    · refine ⟨?_, fun j hj => ?_, fun _ he => by cases he⟩
      · show w.position + _ ≤ w.limit
        omega
      · rcases mem_written_wrote.mp hj with hj | hj
        · exact h.written j hj
        · omega
    · exact ⟨h.position, h.written, fun _ _ => rfl⟩
  | update f pos =>
    have hpos := pos.toNat_lt
    have hlen := f.length_block w.order
    have hblock := (f.block w.order).length_lt
    rw [WriterInBounds, WriterMeets, WriterCall.run]
    by_cases hgt : w.limit - w.position < (pos.toNat + f.size) % 2 ^ 64
    · have hrun := (f.update_eq pos w).trans (BitWriter.update_of_gt h.position (hlen ▸ hgt))
      rw [Op.bind_of_ok hrun]
      refine iff_of_true ⟨h.position, h.written, fun _ he => by cases he⟩ ?_
      omega
    · have hrun := (f.update_eq pos w).trans
        (BitWriter.update_of_le h.position (hlen ▸ Nat.le_of_not_lt hgt))
      rw [Op.bind_of_ok hrun]
      constructor
      · intro hin
        by_contra hmeets
        have hlast := hin.2.1 (pos.toNat + f.size - 1)
          (mem_written_wrote.mpr (.inr (by omega)))
        omega
      · intro hmeets
        refine ⟨h.position, fun j hj => ?_, fun _ he => by cases he⟩
        rcases mem_written_wrote.mp hj with hj | hj
        · exact h.written j hj
        · omega

theorem limit_run (h : w.position ≤ w.limit) (c : WriterCall) : (c.run w).2.limit = w.limit := by
  cases c with
  | skip val =>
    rw [WriterCall.run, BitWriter.skip]
    split_ifs <;> rfl
  | seek val =>
    rw [WriterCall.run, BitWriter.seek]
    split_ifs <;> rfl
  | put f =>
    rw [WriterCall.run, f.put_eq, BitWriter.put_eq h]
    split_ifs <;> rfl
  | update f pos =>
    rw [WriterCall.run]
    by_cases hgt : w.limit - w.position < (pos.toNat + (f.block w.order).bytes.length) % 2 ^ 64
    · rw [Op.bind_of_ok ((f.update_eq pos w).trans (BitWriter.update_of_gt h hgt))]
      rfl
    · rw [Op.bind_of_ok ((f.update_eq pos w).trans
        (BitWriter.update_of_le h (Nat.le_of_not_lt hgt)))]
      rfl

theorem WriterInBounds.within {c : WriterCall} (h : WriterWithin w) (hc : WriterInBounds w c) :
    WriterWithin (c.run w).2 := by
  have hlimit := limit_run h.position c
  exact ⟨hlimit ▸ hc.1, fun i hi => hlimit ▸ hc.2.1 i hi⟩

/-- A call of the writer, after which the caller goes on whether it has thrown or not. -/
def WriterStep (w : BitWriter) (c : WriterCall) (w' : BitWriter) : Prop := (c.run w).2 = w'

/-- **All calls of a run stay in bounds** exactly when the end of no update overflows to a position
that is accepted. -/
theorem run_writerInBounds_iff (bytes : ℕ → UInt8) (limit : ℕ) (h : limit < 2 ^ 63)
    (order : ByteOrder) (tr : List WriterCall) (w : BitWriter) :
    Lts.Run (Lts.Only WriterStep WriterInBounds) (BitWriter.new bytes limit h order) tr w ↔
      Lts.Run (Lts.Only WriterStep WriterMeets) (BitWriter.new bytes limit h order) tr w :=
  Lts.run_only_iff (I := WriterWithin) ⟨Nat.zero_le _, fun _ hi => (List.not_mem_nil hi).elim⟩
    (fun _ c hw => writerInBounds_iff hw c) fun _ _ _ hw hstep hc => hstep ▸ hc.within hw

/-- A number is put, its first half updated, and a second number does not fit; an update whose end
overflows writes in front of the buffer. -/
theorem run_writerInBounds_overflow : ∃ pos : UInt64,
    (∃ w, Lts.Run (Lts.Only WriterStep WriterInBounds)
        (BitWriter.new (fun _ => 0) 7 (by decide) .network)
        [.put (.u32 5), .update (.u16 1) 0, .put (.u32 6)] w ∧ w.position = 4 ∧ w.bytes 1 = 1) ∧
    ∀ w, ¬ Lts.Run (Lts.Only WriterStep WriterInBounds)
      (BitWriter.new (fun _ => 0) 7 (by decide) .network) [.update (.u16 0) pos] w := by
  refine ⟨0xffffffffffffffff, ⟨_, (run_writerInBounds_iff (fun _ => 0) 7 (by decide) .network _ _).mpr
    (.cons ⟨rfl, trivial⟩ (.cons ⟨rfl, .inl ?_⟩ (.single ⟨rfl, trivial⟩))), ?_, ?_⟩, fun w hrun => ?_⟩
  · decide
  · decide
  · decide
  · obtain ⟨w', ⟨-, hmeets⟩, -⟩ := ((run_writerInBounds_iff (fun _ => 0) 7 (by decide) .network
      [.update (.u16 0) 0xffffffffffffffff] w).mp hrun).cons_inv
    rcases hmeets with hlt | hlt
    · exact absurd hlt (by decide)
    · exact absurd hlt (by decide)

/-! ### Fields that are read back -/

/-- The bytes of a list of fields. -/
def fieldsBytes (order : ByteOrder) (fs : List Field) : List UInt8 :=
  fs.flatMap fun f => (f.block order).bytes

def sizes (fs : List Field) : ℕ := (fs.map Field.size).sum

theorem length_fieldsBytes (order : ByteOrder) (fs : List Field) :
    (fieldsBytes order fs).length = sizes fs := by
  rw [fieldsBytes, List.length_flatMap, sizes]
  simp only [Field.length_block]

theorem sizes_append (fs gs : List Field) : sizes (fs ++ gs) = sizes fs + sizes gs := by
  rw [sizes, List.map_append, List.sum_append, sizes, sizes]

theorem sizes_cons (f : Field) (fs : List Field) : sizes (f :: fs) = f.size + sizes fs := rfl

/-- A number that stands in front of the rest. -/
theorem BitReader.getNumber_gives_append {r : BitReader} {t : List UInt8} (hpos : r.position ≤ r.limit)
    (ha : a.length = k) (hr : r.rest = a ++ t) : Gives (getNumber k) r (r.order.number a) k := by
  have hget := getNumber_gives (l := k) hpos (by rw [hr, List.length_append]; omega)
  rwa [hr, List.take_left' ha] at hget

open BitReader in
/-- A reader in front of a field gets it. -/
theorem Kind.get_gives {r : BitReader} {t : List UInt8} (hpos : r.position ≤ r.limit) (f : Field)
    (hr : r.rest = (f.block r.order).bytes ++ t) :
    Gives f.kind.get r f.value f.size := by
  have hnumber : ∀ l v, r.rest = r.order.bytes l v ++ t → Gives (getNumber l) r (v % 256 ^ l) l := by
    intro l v hl
    have h := getNumber_gives_append hpos (r.order.length_bytes l v) hl
    rwa [r.order.number_bytes] at h
  have hwhole : ∀ l v, v < 256 ^ l → r.rest = r.order.bytes l v ++ t → Gives (getNumber l) r v l :=
    fun l v hv hl => by
      have h := hnumber l v hl
      rwa [Nat.mod_eq_of_lt hv] at h
  have hinl : ∀ {x : Reading ℕ} {v n : ℕ}, Gives x r v n →
      Gives (do pure (.inl (← x)) : Reading (ℕ ⊕ List UInt8)) r (.inl v) n := fun hx =>
    hx.bind (fun _ => .of_pure _ _) (Nat.add_zero _).symm
  cases f with
  | u8 val => exact hinl (hwhole 1 val.toNat val.toNat_lt hr)
  | u16 val => exact hinl (hwhole 2 val.toNat val.toNat_lt hr)
  | u24 val =>
    exact hinl (hnumber 3 val.toNat (hr.trans (by rw [Field.block, bytes_block24])))
  | u32 val => exact hinl (hwhole 4 val.toNat val.toNat_lt hr)
  | u64 val => exact hinl (hwhole 8 val.toNat val.toNat_lt hr)
  | chars val =>
    exact (get_gives_append hpos rfl hr).bind (fun _ => .of_pure _ _) (Nat.add_zero _).symm

open BitReader in
/-- A reader in front of some fields gets them all. -/
theorem Kind.getAll_gives {r : BitReader} {t : List UInt8} (hpos : r.position ≤ r.limit)
    (fs : List Field) (hr : r.rest = fieldsBytes r.order fs ++ t) :
    Gives (Kind.getAll (fs.map Field.kind)) r (fs.map Field.value) (sizes fs) := by
  induction fs generalizing r with
  | nil => exact .of_pure r []
  | cons f fs ih =>
    have hr' : r.rest = (f.block r.order).bytes ++ (fieldsBytes r.order fs ++ t) := by
      rw [hr, fieldsBytes, List.flatMap_cons, List.append_assoc]
      rfl
    have hlen := f.length_block r.order
    refine (Kind.get_gives hpos f hr').bind (m := sizes fs) (fun T => ?_) (sizes_cons f fs)
    refine Gives.bind (m := 0) (ih (r := r.moved f.size T)
      (position_moved_append hpos hlen hr' T) ?_) (fun U => .of_pure _ _) (Nat.add_zero _).symm
    exact rest_moved_append hlen hr' T

/-- A call that puts a field, or updates one with a field of its size; with the fields that were put
since the writer stood at `start`. -/
inductive Edit (start : ℕ) : BitWriter × List Field → WriterCall → BitWriter × List Field → Prop
  | put {w w' : BitWriter} {fs : List Field} {f : Field} (h : f.put w = (.ok (), w')) :
      Edit start (w, fs) (.put f) (w', fs ++ [f])
  | full {w w' : BitWriter} {fs : List Field} {f : Field} {e : String}
      (h : f.put w = (.error e, w')) : Edit start (w, fs) (.put f) (w', fs)
  | update {w w' : BitWriter} {fs gs : List Field} {f g : Field} {pos : UInt64}
      (hpos : pos.toNat = start + sizes fs) (hsize : f.size = g.size)
      (h : f.update pos w = (.ok true, w')) :
      Edit start (w, fs ++ g :: gs) (.update f pos) (w', fs ++ f :: gs)
  | refused {w w' : BitWriter} {fs : List Field} {f : Field} {pos : UInt64}
      (h : f.update pos w = (.ok false, w')) : Edit start (w, fs) (.update f pos) (w', fs)

/-- The fields stand behind one another in memory, and nothing else has changed. -/
structure HoldsFields (w₀ w : BitWriter) (fs : List Field) : Prop where
  position : w.position = w₀.position + sizes fs
  limit : w.limit = w₀.limit
  order : w.order = w₀.order
  position_le : w.position ≤ w.limit
  bytes : w.bytes = memcpy w₀.bytes w₀.position (fieldsBytes w₀.order fs)

theorem HoldsFields.new (h : w.position ≤ w.limit) : HoldsFields w w [] :=
  ⟨rfl, rfl, rfl, h, funext fun j => by
    rw [memcpy]
    split_ifs <;> rfl⟩

/-- A `put` succeeds exactly when there is room for the field. -/
theorem HoldsFields.put_eq (h : HoldsFields w₀ w fs) (f : Field) :
    f.put w = if sizes fs + f.size ≤ w₀.limit - w₀.position
      then (.ok (), w.wrote w.position (f.block w.order).bytes f.size)
      else (.error "insufficient buffer capacity", w) := by
  have hposition := h.position
  have hlimit := h.limit
  have hle := h.position_le
  rw [f.put_eq, BitWriter.put_eq hle, f.length_block]
  exact if_congr (by omega) rfl rfl

/-- An `update` succeeds exactly when as many bytes as stand in front of its end are still left. -/
theorem HoldsFields.update_eq {gs : List Field} (h : HoldsFields w₀ w (fs ++ g :: gs))
    (hpos : pos.toNat = w₀.position + sizes fs) (hsize : f.size = g.size) :
    f.update pos w = if pos.toNat + f.size ≤ w₀.limit - (w₀.position + sizes (fs ++ g :: gs))
      then (.ok true, w.wrote pos.toNat (f.block w.order).bytes 0)
      else (.ok false, w) := by
  have hposition := h.position
  have hlimit := h.limit
  have hle := h.position_le
  have hlt := w.limit_lt
  have hsizes : sizes (fs ++ g :: gs) = sizes fs + (g.size + sizes gs) := sizes_append _ _
  have hmod : (pos.toNat + (f.block w.order).bytes.length) % 2 ^ 64 = pos.toNat + f.size := by
    rw [f.length_block]
    omega
  rw [f.update_eq, ← hposition, ← hlimit]
  split_ifs with hroom
  · exact BitWriter.update_of_le hle (hmod ▸ hroom)
  · exact BitWriter.update_of_gt hle (hmod ▸ Nat.lt_of_not_le hroom)

theorem Edit.holds {c : WriterCall} {gs : List Field} (hw : HoldsFields w₀ w fs)
    (h : Edit w₀.position (w, fs) c (w', gs)) : HoldsFields w₀ w' gs := by
  have hposition := hw.position
  cases h with
  | @put _ _ _ f h =>
    rw [hw.put_eq] at h
    split_ifs at h with hroom
    · obtain rfl : _ = w' := (Prod.mk.inj h).2
      have hbytes : fieldsBytes w₀.order (fs ++ [f]) =
          fieldsBytes w₀.order fs ++ (f.block w₀.order).bytes := by
        rw [fieldsBytes, List.flatMap_append, List.flatMap_singleton]
        rfl
      refine ⟨?_, hw.limit, hw.order, ?_, ?_⟩
      · rw [sizes_append, ← Nat.add_assoc, ← hposition]
        rfl
      · have hlimit := hw.limit
        have hle := hw.position_le
        show w.position + f.size ≤ w.limit
        omega
      · rw [hbytes, memcpy_append, ← hw.bytes, length_fieldsBytes, ← hposition, ← hw.order]
        rfl
    · cases (Prod.mk.inj h).1
  | full h =>
    rw [hw.put_eq] at h
    split_ifs at h with hroom
    · cases (Prod.mk.inj h).1
    · exact (Prod.mk.inj h).2 ▸ hw
  | @update _ _ fs gs f g pos hpos hsize h =>
    rw [hw.update_eq hpos hsize] at h
    split_ifs at h with hroom
    · obtain rfl : _ = w' := (Prod.mk.inj h).2
      have hbytes : ∀ f', fieldsBytes w₀.order (fs ++ f' :: gs) =
          fieldsBytes w₀.order fs ++ (f'.block w₀.order).bytes ++ fieldsBytes w₀.order gs := by
        intro f'
        rw [fieldsBytes, List.flatMap_append, List.flatMap_cons, ← List.append_assoc]
        rfl
      have hsizes : sizes (fs ++ f :: gs) = sizes (fs ++ g :: gs) := by
        rw [sizes_append, sizes_append, sizes_cons, sizes_cons, hsize]
      refine ⟨by rw [hsizes]; exact hposition, hw.limit, hw.order, hw.position_le, ?_⟩
      have hlen : (g.block w₀.order).bytes.length = (f.block w₀.order).bytes.length := by
        rw [Field.length_block, Field.length_block, hsize]
      show memcpy w.bytes pos.toNat (f.block w.order).bytes = _
      rw [hw.bytes, hbytes, hpos, ← length_fieldsBytes w₀.order fs, hw.order,
        memcpy_replace _ _ _ _ hlen, hbytes]
    · cases (Prod.mk.inj h).1
  | refused h =>
    rename_i f pos
    rcases Nat.lt_or_ge (w.limit - w.position)
      ((pos.toNat + (f.block w.order).bytes.length) % 2 ^ 64) with hgt | hle
    · rw [f.update_eq, BitWriter.update_of_gt hw.position_le hgt] at h
      exact (Prod.mk.inj h).2 ▸ hw
    · rw [f.update_eq, BitWriter.update_of_le hw.position_le hle] at h
      cases (Prod.mk.inj h).1

theorem run_holds {tr : List WriterCall} (hw : w.position ≤ w.limit)
    (h : Lts.Run (Edit w.position) (w, []) tr (w', fs)) : HoldsFields w w' fs :=
  h.invariant (I := fun s => HoldsFields w s.1 s.2) (.new hw) fun _ _ _ hs hstep => hstep.holds hs

/-- A reader that starts where the fields do has them in front of it. -/
theorem HoldsFields.rest_eq (h : HoldsFields w₀ w fs) {r : BitReader} (hbytes : r.bytes = w.bytes)
    (hpos : r.position = w₀.position) (hlimit : w₀.position + sizes fs ≤ r.limit) :
    r.rest = fieldsBytes w₀.order fs ++ r.rest.drop (sizes fs) := by
  have hlen := r.length_rest
  have htake := BitReader.take_rest (r := r) (l := sizes fs) (by omega)
  have hmap := map_memcpy w₀.bytes w₀.position (fieldsBytes w₀.order fs)
  rw [length_fieldsBytes] at hmap
  rw [hbytes, h.bytes, hpos, hmap] at htake
  rw [← htake, List.take_append_drop]

/-- **What was put, with the updates since, is what a reader gets**, over every sequence of puts
and of updates of fields by fields of their size. Nothing else in memory changes. A `put` succeeds as
long as there is room, and an `update` as long as its end is no further from the start of the memory
than the limit is from the position. -/
theorem run_reads {tr : List WriterCall} (hw : w.position ≤ w.limit)
    (h : Lts.Run (Edit w.position) (w, []) tr (w', fs)) :
    (∀ r : BitReader, r.bytes = w'.bytes → r.order = w.order → r.position = w.position →
      w.position + sizes fs ≤ r.limit →
        BitReader.Gives (Kind.getAll (fs.map Field.kind)) r (fs.map Field.value) (sizes fs)) ∧
    (∀ i, i < w.position ∨ w.position + sizes fs ≤ i → w'.bytes i = w.bytes i) ∧
    (∀ f : Field, (f.put w').1 = .ok () ↔ sizes fs + f.size ≤ w.limit - w.position) ∧
    ∀ (f g : Field) (fs₁ fs₂ : List Field) (pos : UInt64), fs = fs₁ ++ g :: fs₂ → f.size = g.size →
      pos.toNat = w.position + sizes fs₁ →
        ((f.update pos w').1 = .ok true ↔
          pos.toNat + f.size ≤ w.limit - (w.position + sizes fs)) := by
  have hholds := run_holds hw h
  refine ⟨fun r hbytes horder hpos hlimit => ?_, fun i hi => ?_, fun f => ?_, ?_⟩
  · refine Kind.getAll_gives (by omega) fs (t := r.rest.drop (sizes fs)) ?_
    rw [horder]
    exact hholds.rest_eq hbytes hpos hlimit
  · rw [hholds.bytes]
    rcases hi with hi | hi
    · exact memcpy_of_lt _ _ hi
    · exact memcpy_of_ge _ _ (by rwa [length_fieldsBytes])
  · rw [hholds.put_eq]
    split_ifs with hroom
    · exact iff_of_true rfl hroom
    · exact iff_of_false (fun he => by cases he) hroom
  · intro f g fs₁ fs₂ pos hfs hsize hpos
    subst hfs
    rw [hholds.update_eq hpos hsize]
    split_ifs with hroom
    · exact iff_of_true rfl hroom
    · exact iff_of_false (fun he => by cases he) hroom

/-- A length that is put first and set at the end. -/
theorem run_reads_length : ∃ w w' : BitWriter, ∃ r : BitReader, ∃ T,
    Lts.Run (Edit w.position) (w, [])
      [.put (.u16 0), .put (.u8 7), .update (.u16 300) 0] (w', [.u16 300, .u8 7]) ∧
    Kind.getAll [.u16, .u8] r = (.ok [.inl 300, .inl 7], r.moved 3 T) := by
  let w := BitWriter.new (fun _ => 0) 8 (by norm_num) .network
  let w₁ := w.wrote 0 [0, 0] 2
  let w₂ := w₁.wrote 2 [7] 1
  let w₃ := w₂.wrote 0 [1, 44] 0
  have h₁ : Edit 0 (w, []) (.put (.u16 0)) (w₁, [.u16 0]) := .put rfl
  have h₂ : Edit 0 (w₁, [.u16 0]) (.put (.u8 7)) (w₂, [.u16 0, .u8 7]) := .put rfl
  have hupdate : (Field.u16 300).update 0 w₂ = (.ok true, w₃) := by
    rw [Field.update_eq, BitWriter.update_of_le (by decide) (by decide)]
    rfl
  have hpos : (0 : UInt64).toNat = 0 + sizes [] := by decide
  have h₃ : Edit 0 (w₂, [.u16 0, .u8 7]) (.update (.u16 300) 0) (w₃, [.u16 300, .u8 7]) :=
    .update (g := .u16 0) hpos (Eq.refl 2) hupdate
  have hrun : Lts.Run (Edit w.position) (w, [])
      [.put (.u16 0), .put (.u8 7), .update (.u16 300) 0] (w₃, [.u16 300, .u8 7]) :=
    ((Lts.Run.nil.snoc h₁).snoc h₂).snoc h₃
  obtain ⟨T, -, hread⟩ := (run_reads (by decide) hrun).1
    (BitReader.new w₃.bytes 3 (by norm_num) .network) rfl rfl rfl (by decide)
  exact ⟨w, w₃, _, T, hrun, hread⟩

end Yamb.Buffer
