import Yamb.Lib.Json.Text

/-!
# JSON texts of strings

Strings are written as their UTF-8 bytes and read from them.

* `bytes`, `ofBytes`: a string as its bytes and back; **`ofBytes_bytes`**, `utf8_bytes`;
* `escape_encode`: the characters that need no escape;
* `map`, `decode`: the strings of a value as bytes and back; **`decode_map`**;
* `read`, **`read_of_bytes`**: a text whose bytes are those of a value is read as that value.
-/

set_option autoImplicit false

namespace Json

/-! ### Strings -/

/-- The UTF-8 bytes of a string. -/
def bytes (s : String) : List UInt8 := s.toByteArray.data.toList

def ofBytes (bs : List UInt8) : Option String := String.fromUTF8? bs.toByteArray

theorem bytes_eq_flatMap (s : String) : bytes s = s.toList.flatMap String.utf8EncodeChar := by
  rw [bytes, ← String.utf8Encode_toList, List.utf8Encode, List.toList_data_toByteArray]

theorem bytes_append (s t : String) : bytes (s ++ t) = bytes s ++ bytes t := by
  rw [bytes, String.toByteArray_append, ByteArray.data_append, Array.toList_append, bytes, bytes]

/-- **A string is read back from its bytes.** -/
theorem ofBytes_bytes (s : String) : ofBytes (bytes s) = some s := by
  have hs : (bytes s).toByteArray = s.toByteArray := by
    rw [ByteArray.ext_iff, List.data_toByteArray, bytes, Array.toArray_toList]
  rw [ofBytes, hs, String.fromUTF8?, dif_pos s.isValidUTF8]
  rfl

/-- A character is no surrogate. -/
theorem toNat_valid (c : Char) : c.toNat < 0x110000 ∧ ¬ (0xd800 ≤ c.toNat ∧ c.toNat ≤ 0xdfff) := by
  have h := c.valid
  simp only [UInt32.isValidChar, Nat.isValidChar] at h
  simp only [Char.toNat]
  omega

theorem utf8EncodeChar_eq (c : Char) : String.utf8EncodeChar c = encode c.toNat := by
  have hc := (toNat_valid c).1
  unfold String.utf8EncodeChar encode
  simp only [Char.toNat] at hc ⊢
  split_ifs
  all_goals first | rfl | omega | skip
  · rw [Nat.mod_eq_of_lt (by omega : c.val.toNat / 64 < 0x20), Nat.add_comm, Nat.add_comm _ 0x80]
  · rw [Nat.mod_eq_of_lt (by omega : c.val.toNat / 4096 < 0x10), Nat.add_comm,
      Nat.add_comm _ 0x80, Nat.add_comm (c.val.toNat % 64)]
  · rw [Nat.mod_eq_of_lt (by omega : c.val.toNat / 262144 < 0x08), Nat.add_comm,
      Nat.add_comm _ 0x80, Nat.add_comm (c.val.toNat / 64 % 64), Nat.add_comm (c.val.toNat % 64)]

theorem utf8_bytes (s : String) : utf8 [] (bytes s) = true := by
  rw [bytes_eq_flatMap]
  induction s.toList with
  | nil => rfl
  | cons c cs ih =>
    rw [List.flatMap_cons, utf8EncodeChar_eq, utf8_encode (toNat_valid c).1 (toNat_valid c).2]
    exact ih

/-! ### Escapes -/

/-- A character from U+0080 on is written as it is. -/
theorem escape_encode {n : ℕ} (hn : 0x80 ≤ n) (hlt : n < 0x110000) :
    escape (encode n) = encode n := by
  have hle : ∀ k m : ℕ, 0x80 ≤ k → k + m < 256 → (0x80 : UInt8) ≤ UInt8.ofNat (k + m) := by
    intro k m hk hlt
    simp only [UInt8.le_iff_toNat_le, UInt8.toNat_ofNat']
    show 128 ≤ (k + m) % 256
    omega
  have hbyte : ∀ b ∈ encode n, 0x80 ≤ b := by
    intro b hb
    unfold encode at hb
    split_ifs at hb with h₁ h₂ h₃
    · omega
    all_goals simp only [List.mem_cons, List.not_mem_nil, or_false] at hb
    · rcases hb with rfl | rfl <;> exact hle _ _ (by decide) (by omega)
    · rcases hb with rfl | rfl | rfl <;> exact hle _ _ (by decide) (by omega)
    · rcases hb with rfl | rfl | rfl | rfl <;> exact hle _ _ (by decide) (by omega)
  exact escape_of_plain fun b hb => ⟨ne_of_le (hbyte b hb) (by decide),
    ne_of_le (hbyte b hb) (by decide), not_lt_of_le (hbyte b hb)⟩

/-! ### Values -/

section

variable {σ τ ν ν' : Type} (f : σ → τ) (g : ν → ν')

mutual

/-- The strings and the numbers of a value mapped. -/
def map : Json σ ν → Json τ ν'
  | .null => .null
  | .bool b => .bool b
  | .num n => .num (g n)
  | .str s => .str (f s)
  | .arr items => .arr (mapItems items)
  | .obj members => .obj (mapMembers members)

def mapItems : List (Json σ ν) → List (Json τ ν')
  | [] => []
  | v :: vs => map v :: mapItems vs

def mapMembers : List (σ × Json σ ν) → List (τ × Json τ ν')
  | [] => []
  | (k, v) :: ms => (f k, map v) :: mapMembers ms

end

theorem mapItems_eq (vs : List (Json σ ν)) : mapItems f g vs = vs.map (map f g) := by
  induction vs with
  | nil => rfl
  | cons v vs ih => rw [mapItems, ih, List.map_cons]

theorem mapMembers_eq (ms : List (σ × Json σ ν)) :
    mapMembers f g ms = ms.map fun m => (f m.1, map f g m.2) := by
  induction ms with
  | nil => rfl
  | cons m ms ih => rw [mapMembers, ih, List.map_cons]

mutual

/-- The strings of a value read from their bytes. -/
def decode : Json (List UInt8) ν → Option (Json String ν')
  | .null => some .null
  | .bool b => some (.bool b)
  | .num n => some (.num (g n))
  | .str s => (ofBytes s).map .str
  | .arr items => (decodeItems items).map .arr
  | .obj members => (decodeMembers members).map .obj

def decodeItems : List (Json (List UInt8) ν) → Option (List (Json String ν'))
  | [] => some []
  | v :: vs => do
    let v ← decode v
    let vs ← decodeItems vs
    return v :: vs

def decodeMembers : List (List UInt8 × Json (List UInt8) ν) → Option (List (String × Json String ν'))
  | [] => some []
  | (k, v) :: ms => do
    let k ← ofBytes k
    let v ← decode v
    let ms ← decodeMembers ms
    return (k, v) :: ms

end

mutual

theorem decode_map : ∀ v : Json String ν, decode g (map bytes id v) = some (map id g v)
  | .null => rfl
  | .bool _ => rfl
  | .num _ => rfl
  | .str s => congrArg (Option.map Json.str) (ofBytes_bytes s)
  | .arr items => congrArg (Option.map Json.arr) (decodeItems_map items)
  | .obj members => congrArg (Option.map Json.obj) (decodeMembers_map members)

theorem decodeItems_map : ∀ vs : List (Json String ν),
    decodeItems g (mapItems bytes id vs) = some (mapItems id g vs)
  | [] => rfl
  | v :: vs => by
    rw [mapItems, decodeItems, decode_map v, decodeItems_map vs]
    rfl

theorem decodeMembers_map : ∀ ms : List (String × Json String ν),
    decodeMembers g (mapMembers bytes id ms) = some (mapMembers id g ms)
  | [] => rfl
  | (k, v) :: ms => by
    rw [mapMembers, decodeMembers, ofBytes_bytes, decode_map v, decodeMembers_map ms]
    rfl

end

end

/-! ### Texts -/

/-- Reads a text. -/
def read {ν ν' : Type} (fmt : NumberFormat ν) (g : ν → ν') (s : String) : Option (Json String ν') :=
  parse fmt (bytes s) >>= decode g

/-- **What was written is read.** -/
theorem read_of_bytes {ν ν' : Type} {fmt : NumberFormat ν} (g : ν → ν') {v : Json String ν}
    (hv : WellFormed (map bytes id v)) {s : String} (hs : bytes s = dump fmt (map bytes id v)) :
    read fmt g s = some (map id g v) := by
  rw [read, hs, parse_dump fmt hv]
  exact decode_map g v

end Json
