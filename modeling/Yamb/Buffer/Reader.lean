import Yamb.Lib.Framing
import Yamb.Lib.Op
import Yamb.SocketIo.Packet

/-!
# The reader of a buffer

`BitReader` over the memory in which its buffer lies, with the places that are accessed.

* `BitReader`: the memory, the limit, the position, and the accesses made so far;
* `skip`, `seek`, `get`, `peek`: the cursor, with the arithmetic of a `size_t`;
* `skipToChar`, `readNextWord`, `readNextNumber`, `readLine`: reading text;
* `Call`: the calls of a reader.
-/

set_option autoImplicit false

namespace Yamb.Buffer

open Framing

inductive ByteOrder
  | network
  | host
  deriving DecidableEq

/-- `BitReader`. `bytes` is the memory from `_bytes` on, behind the buffer too; `accessed` are the
places that were read or written. -/
structure BitReader where
  bytes : ℕ → UInt8
  limit : ℕ
  limit_lt : limit < 2 ^ 63
  order : ByteOrder
  position : ℕ
  accessed : List ℕ

/-- The number that bytes in memory stand for. The host is little-endian. -/
def ByteOrder.number : ByteOrder → List UInt8 → ℕ
  | .network, bs => ofBE bs
  | .host, bs => ofBE bs.reverse

abbrev Reading (α : Type) : Type := Op BitReader String α

namespace BitReader

/-! ### The cursor -/

/-- `init`. -/
def new (bytes : ℕ → UInt8) (limit : ℕ) (h : limit < 2 ^ 63) (order : ByteOrder) : BitReader :=
  ⟨bytes, limit, h, order, 0, []⟩

def available (r : BitReader) : ℕ := (r.limit + 2 ^ 64 - r.position) % 2 ^ 64

/-- `_position + len`. -/
def index (r : BitReader) (len : ℕ) : ℕ := (r.position + len) % 2 ^ 64

/-- The bytes from a place on. -/
def load (i len : ℕ) : Reading (List UInt8) := fun r =>
  (.ok ((List.range' i len).map r.bytes), { r with accessed := r.accessed ++ List.range' i len })

/-- `_position += len`. -/
def advance (len : ℕ) : Reading Unit := .modify fun r => { r with position := r.index len }

/-- `_position -= len`. -/
def retreat (len : ℕ) : Reading Unit :=
  .modify fun r => { r with position := (r.position + 2 ^ 64 - len) % 2 ^ 64 }

def seek (val : ℕ) : Reading Unit := fun r =>
  if val > r.limit then (.error "index out of range", r)
  else (.ok (), { r with position := val })

/-- `skip` compares the step, not the position it leads to, with the limit. -/
def skip (val : ℕ) : Reading Unit := fun r =>
  if val > r.limit then (.error "index out of range", r) else advance val r

/-- `get` of characters or of a string. -/
def get (len : ℕ) : Reading (List UInt8) := fun r =>
  if len > r.available then (.error "index out of range", r)
  else (do
    let val ← load r.position len
    advance len
    pure val : Reading (List UInt8)) r

/-- The `get` of a number of `len` bytes. -/
def getNumber (len : ℕ) : Reading ℕ := do
  let v ← get len
  let order ← .gets order
  pure (order.number v)

def getU8 : Reading ℕ := getNumber 1

def getU16 : Reading ℕ := getNumber 2

/-- Three bytes, with a zero in front of them in network order, behind them else. -/
def getU24 : Reading ℕ := getNumber 3

def getU32 : Reading ℕ := getNumber 4

def getU64 : Reading ℕ := getNumber 8

def peek : Reading UInt8 := fun r =>
  if r.limit > r.position then (do
    let v ← load r.position 1
    pure (v.getD 0 0) : Reading UInt8) r
  else (.ok 0, r)

/-- The `peek` of a number: it is read, and the position is put back. -/
def peekNumber (len : ℕ) (getNumber : Reading ℕ) : Reading ℕ :=
  .tryCatch
    (do
      let v ← getNumber
      retreat len
      pure v)
    fun _ => pure 0

def peekU8 : Reading ℕ := peekNumber 1 getU8

def peekU16 : Reading ℕ := peekNumber 2 getU16

def peekU24 : Reading ℕ := peekNumber 3 getU24

def peekU32 : Reading ℕ := peekNumber 4 getU32

def peekU64 : Reading ℕ := peekNumber 8 getU64

/-! ### Text -/

/-- The loop that goes on while `_limit > _position + len` and the byte there satisfies `p`, on the
number of bytes that are left in front of the limit. -/
def scanLoop (p : UInt8 → Bool) : ℕ → ℕ → Reading ℕ
  | 0, len => pure len
  | left + 1, len => do
    let i ← .gets fun r => r.index len
    let b ← load i 1
    if p (b.getD 0 0) then scanLoop p left (len + 1) else pure len

def scan (p : UInt8 → Bool) (len : ℕ) : Reading ℕ := fun r =>
  scanLoop p (r.limit - r.index len) len r

/-- `if (_limit > _position + len) _position += len; else _position = _limit;` -/
def move (len : ℕ) : Reading Unit := .modify fun r =>
  if r.limit > r.index len then { r with position := r.index len }
  else { r with position := r.limit }

/-- `std::string(_bytes + _position, len)`. -/
def loadHere (len : ℕ) : Reading (List UInt8) := fun r => load r.position len r

def skipToChar (c : UInt8) : Reading ℕ := do
  let len ← scan (· ≠ c) 0
  move len
  pure len

def skipWhitespace : Reading ℕ := do
  let len ← scan (· = 0x20) 0
  move len
  pure len

def skipToNextLine : Reading ℕ := do
  let len ← scan (· ≠ 0x0a) 0
  let len := len + 1
  move len
  pure len

/-- No blank, tab or end of a line. -/
def inWord (b : UInt8) : Bool := b ≠ 0x20 && b ≠ 0x09 && b ≠ 0x0a && b ≠ 0x0d

def skipNextWord : Reading ℕ := do
  let len ← skipWhitespace
  let len ← scan inWord len
  move len
  pure len

/-- The bytes that are appended to `val`, and the length. -/
def readToNext (c : UInt8) : Reading (List UInt8 × ℕ) := do
  let len ← scan (· ≠ c) 0
  let val ← loadHere len
  move len
  pure (val, len)

/-- The blanks that were skipped are counted once more from the position behind them. -/
def readNextWord : Reading (List UInt8 × ℕ) := do
  let len ← skipWhitespace
  let len ← scan inWord len
  let val ← loadHere len
  move len
  pure (val, len)

/-- The number, or the old value, and the length. -/
def readNextNumber (val : ℕ) : Reading (ℕ × ℕ) := do
  let len ← skipWhitespace
  let len ← scan Decimal.isDigit len
  let val ← if len = 0 then pure val else do
    let s ← loadHere len
    pure (SocketIo.strtoi s)
  move len
  pure (val, len)

def readLine : Reading (List UInt8 × ℕ) := do
  let len ← scan (· ≠ 0x0a) 0
  let val ← loadHere len
  let len := len + 1
  move len
  pure (val, len)

end BitReader

/-! ### Calls -/

/-- The calls of a reader. -/
inductive Call
  | seek (val : ℕ)
  | skip (val : ℕ)
  | get (len : ℕ)
  | getU8
  | getU16
  | getU24
  | getU32
  | getU64
  | peek
  | peekU8
  | peekU16
  | peekU24
  | peekU32
  | peekU64
  | skipToChar (c : UInt8)
  | skipWhitespace
  | skipToNextLine
  | skipNextWord
  | readToNext (c : UInt8)
  | readNextWord
  | readNextNumber (val : ℕ)
  | readLine
  deriving DecidableEq

/-- A call, but for what it returns. -/
def Call.run : Call → Reading Unit
  | .seek val => BitReader.seek val
  | .skip val => BitReader.skip val
  | .get len => do let _ ← BitReader.get len
  | .getU8 => do let _ ← BitReader.getU8
  | .getU16 => do let _ ← BitReader.getU16
  | .getU24 => do let _ ← BitReader.getU24
  | .getU32 => do let _ ← BitReader.getU32
  | .getU64 => do let _ ← BitReader.getU64
  | .peek => do let _ ← BitReader.peek
  | .peekU8 => do let _ ← BitReader.peekU8
  | .peekU16 => do let _ ← BitReader.peekU16
  | .peekU24 => do let _ ← BitReader.peekU24
  | .peekU32 => do let _ ← BitReader.peekU32
  | .peekU64 => do let _ ← BitReader.peekU64
  | .skipToChar c => do let _ ← BitReader.skipToChar c
  | .skipWhitespace => do let _ ← BitReader.skipWhitespace
  | .skipToNextLine => do let _ ← BitReader.skipToNextLine
  | .skipNextWord => do let _ ← BitReader.skipNextWord
  | .readToNext c => do let _ ← BitReader.readToNext c
  | .readNextWord => do let _ ← BitReader.readNextWord
  | .readNextNumber val => do let _ ← BitReader.readNextNumber val
  | .readLine => do let _ ← BitReader.readLine

end Yamb.Buffer
