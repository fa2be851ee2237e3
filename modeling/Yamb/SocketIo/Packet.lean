import Yamb.Lib.Json.Text

/-!
# Socket.IO packets

* `Packet`, `print`: the text of a packet; the name of the event and the message are pasted into it;
* `readNextNumber`, `read`: a packet from its text;
* `eventPacket`, `roomPacket`: the packets of the client;
* `RoundTrips`: what `print` writes is recovered by `read` on a new packet.
-/

set_option autoImplicit false

namespace Yamb.SocketIo

open Json (NumberFormat quote)

/-- `Packet`. A frame and a type are numbers, as the enumerations are. -/
structure Packet where
  frame : ℤ := 4
  type : ℤ := 2
  id : ℤ := -1
  nsp : List UInt8 := [0x2f]
  event : List UInt8 := []
  message : List UInt8 := []
  ack : Bool := false
  size : ℕ := 0

/-! ## Writing -/

/-- The bytes of `"message"`. -/
def messageName : List UInt8 := [0x6d, 0x65, 0x73, 0x73, 0x61, 0x67, 0x65]

/-- `Packet::print`. -/
def Packet.print (p : Packet) : List UInt8 :=
  Decimal.decimalInt p.frame ++ Decimal.decimalInt p.type ++ Decimal.decimalInt p.id ++
    if p.type = 2 then
      0x5b :: quote :: ((if p.event = [] then messageName else p.event) ++
        quote :: 0x2c :: (p.message ++ [0x5d]))
    else []

/-! ## Reading -/

/-- `atoi` of a string of one character. -/
def atoi (b : UInt8) : ℤ := if Decimal.isDigit b then Decimal.digitValue b else 0

def isSpace (b : UInt8) : Bool := b = 0x20 || (0x09 ≤ b && b ≤ 0x0d)

/-- `strtoi<uint32_t>`: a number with a sign, or zero when there is none or it is too large. -/
def strtoi (s : List UInt8) : ℕ :=
  let s := s.dropWhile isSpace
  let negative := s.head? = some 0x2d
  let digits := (if negative ∨ s.head? = some 0x2b then s.drop 1 else s).takeWhile Decimal.isDigit
  let n := Decimal.ofDecimal digits
  if digits = [] ∨ 2 ^ 32 ≤ n then 0 else if negative then (2 ^ 32 - n) % 2 ^ 32 else n

/-- The `int` whose memory holds an `unsigned`. -/
def toInt32 (n : ℕ) : ℤ := if n < 2 ^ 31 then n else n - 2 ^ 32

/-- `BitReader::readNextNumber`, on what is left to read: the number, or the old value, and what is
left then. -/
def readNextNumber (val : ℤ) (rest : List UInt8) : ℤ × List UInt8 :=
  let len := (rest.takeWhile (· = 0x20)).length
  let rest := rest.drop len
  -- the blanks that were skipped are skipped once more in front of the digits
  let len := len + ((rest.drop len).takeWhile Decimal.isDigit).length
  (if len = 0 then val else toInt32 (strtoi (rest.take len)), rest.drop len)

inductive ReadFault
  | assertion
  | outOfRange
  deriving DecidableEq

variable {ν : Type} (fmt : NumberFormat ν)

/-- The part of `Packet::read` that takes the event and the message out of the JSON text, given the
old event: an array, an object, anything else, or no JSON. -/
def readJson (event temp : List UInt8) : Except ReadFault (List UInt8 × List UInt8) :=
  match Json.parse fmt temp with
  | some (.arr []) => .ok (messageName, Json.dump fmt .null)
  | some (.arr [v]) => .ok (messageName, Json.dump fmt v)
  | some (.arr (.str e :: v :: _)) => .ok (e, Json.dump fmt v)
  | some (.arr (_ :: _ :: _)) => .error .assertion
  | some (.obj ms) => .ok (event, Json.dump fmt (.obj ms))
  | _ => .ok (event, [])

/-- `Packet::read`. The event of the packet is not reset. -/
def Packet.read (p : Packet) (buf : List UInt8) : Except ReadFault Packet :=
  match buf with
  | [] => .error .assertion
  | f :: rest => do
    let frame := atoi f
    let (type, rest) ← if frame = 4 then
        match rest with
        | [] => throw .outOfRange
        | t :: rest => pure (atoi t, rest)
      else pure (-1, rest)
    let (nsp, rest) :=
      if rest.head? = some 0x2f then
        ([0x2f] ++ rest.takeWhile (· ≠ 0x2c), rest.dropWhile (· ≠ 0x2c))
      else ([0x2f], rest)
    let (id, temp) := readNextNumber (-1) rest
    let (event, message) ← if temp = [] then pure (p.event, []) else readJson fmt p.event temp
    pure { p with frame, type, id, nsp, event, message, size := buf.length }

/-- `Packet::json`; nothing where it throws. -/
def Packet.json (p : Packet) : Option (Json (List UInt8) ν) :=
  if p.message = [] then some .null else Json.parse fmt p.message

/-! ## The packets of the client -/

/-- The packet of an event with a JSON message. -/
def eventPacket (id : ℤ) (event : List UInt8) (message : Json (List UInt8) ν) (ack : Bool) : Packet :=
  { id, event, message := Json.dump fmt message, ack }

/-- The bytes of `"join"` and of `"leave"`. -/
def joinName : List UInt8 := [0x6a, 0x6f, 0x69, 0x6e]

def leaveName : List UInt8 := [0x6c, 0x65, 0x61, 0x76, 0x65]

/-- The packets that `joinRoom` and `leaveRoom` send: the room is pasted between quotation marks. -/
def roomPacket (id : ℤ) (event room : List UInt8) : Packet :=
  { id, event, message := quote :: (room ++ [quote]) }

/-- A new packet that reads what the packet prints consumes all of it and recovers the frame, the
type, the id, the event and the JSON value. -/
def RoundTrips (p : Packet) (message : Json (List UInt8) ν) : Prop :=
  ∃ q, Packet.read fmt {} p.print = .ok q ∧ q.size = p.print.length ∧ q.frame = p.frame ∧
    q.type = p.type ∧ q.id = p.id ∧ q.event = p.event ∧ q.json fmt = some message

end Yamb.SocketIo
