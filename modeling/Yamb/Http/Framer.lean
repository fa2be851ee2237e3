import Yamb.Lib.Framing
import Mathlib.Tactic

/-!
# The WebSocket framer

* `BitReader`, `BitWriter`: the cursors over a buffer in network order;
* `writeFrame`: a header of two to fourteen bytes and the payload, masked on the client side;
* `readFrame`: reads a window ahead, takes the header out of it and goes back behind the payload;
* `send`: the frame that the adapter hands to its socket.
-/

set_option autoImplicit false

namespace Yamb.WebSocket

open Framing

/-! ## Cursors -/

/-- `BitReader`, in network order. -/
structure BitReader where
  bytes : List UInt8
  position : ℕ

/-- `BitWriter`, in network order: the bytes put so far, and the capacity of the buffer. -/
structure BitWriter where
  bytes : List UInt8
  limit : ℕ

namespace BitReader

variable (r : BitReader)

def limit : ℕ := r.bytes.length

def available : ℕ := r.limit - r.position

/-- What lies between the position and the limit. -/
def rest : List UInt8 := r.bytes.drop r.position

def get (len : ℕ) : Except String (List UInt8 × BitReader) :=
  if len > r.available then .error "index out of range"
  else .ok (r.rest.take len, { r with position := r.position + len })

/-- `skip` compares the step, not the position it leads to, with the limit. -/
def skip (val : ℕ) : Except String BitReader :=
  if val > r.limit then .error "index out of range"
  else .ok { r with position := r.position + val }

def seek (val : ℕ) : Except String BitReader :=
  if val > r.limit then .error "index out of range" else .ok { r with position := val }

end BitReader

/-- `put`; `putU8`, `putU16` and `putU64` put the bytes of a number. -/
def BitWriter.put (w : BitWriter) (val : List UInt8) : Except String BitWriter :=
  if w.bytes.length + val.length > w.limit then .error "insufficient buffer capacity"
  else .ok { w with bytes := w.bytes ++ val }

/-! ## The framer -/

/-- `ws::Mode`. -/
inductive Mode
  | clientSide
  | serverSide
  deriving DecidableEq

/-- `ws::SendFlags`. -/
inductive SendFlags
  | text
  | binary

def SendFlags.toU8 : SendFlags → UInt8
  | .text => 0x81
  | .binary => 0x82

def FRAME_FLAG_MASK : UInt8 := 0x80

def MAX_HEADER_LENGTH : ℕ := 14

/-- The four bytes of a value of `_rnd.next()`. -/
abbrev Mask : Type := { m : List UInt8 // m.length = 4 }

/-- The bytes of `lenByte` before the length is put into it. -/
def maskFlag : Mode → UInt8
  | .clientSide => 0 ||| FRAME_FLAG_MASK
  | .serverSide => 0

/-- The loop that masks the payload. Its counter `i` is an `unsigned`, so it goes back to zero at
`2 ^ 32`; the writer throws when its room is used up. -/
def putMasked (data mask : List UInt8) : ℕ → ℕ → List UInt8 → Except String (List UInt8)
  | 0, i, out => if i < data.length then .error "insufficient buffer capacity" else .ok out
  | room + 1, i, out =>
    if i < data.length then
      putMasked data mask room ((i + 1) % 2 ^ 32)
        (out ++ [data.getD i 0 ^^^ mask.getD (i % 4) 0])
    else .ok out

/-- The part of `writeFrame` that puts the length. -/
def writeLength (lenByte : UInt8) (len : ℕ) (frame : BitWriter) : Except String BitWriter :=
  if len < 126 then frame.put [lenByte ||| UInt8.ofNat len]
  else if len < 65536 then do
    let frame ← frame.put [lenByte ||| 126]
    frame.put (toBE 2 (len % 2 ^ 16))
  else do
    let frame ← frame.put [lenByte ||| 127]
    -- `static_cast<uint16_t>(len)` also for the eight byte length
    frame.put (toBE 8 (len % 2 ^ 16))

/-- The part of `writeFrame` that puts the mask and the payload. -/
def writePayload (mode : Mode) (data mask : List UInt8) (frame : BitWriter) :
    Except String BitWriter :=
  match mode with
  | .clientSide => do
    let frame ← frame.put mask
    let bytes ← putMasked data mask (frame.limit - frame.bytes.length) 0 frame.bytes
    pure { frame with bytes }
  | .serverSide => frame.put data

/-- `WebSocketFramer::writeFrame`; a framer masks when it is on the client side. -/
def writeFrame (mode : Mode) (data : List UInt8) (flags : SendFlags) (mask : Mask)
    (frame : BitWriter) : Except String BitWriter := do
  let frame ← frame.put [flags.toU8]
  let frame ← writeLength (maskFlag mode) data.length frame
  writePayload mode data mask.val frame

/-- The payload of a frame is unmasked where it lies in the buffer. -/
def unmask (bytes mask : List UInt8) (start len : ℕ) : List UInt8 :=
  bytes.take start ++ xorMask mask ((bytes.drop start).take len) ++ bytes.drop (start + len)

def insufficientBuffer {α : Type} (l : ℕ) : Except String α :=
  .error ("WebSocket error: Insufficient buffer for payload size " ++ toString l)

/-- The part of `readFrame` that fills the header behind its first two bytes. -/
def readWindow (lengthByte : UInt8) (frame : BitReader) : Except String (List UInt8 × BitReader) :=
  let maskOffset := if lengthByte &&& FRAME_FLAG_MASK ≠ 0 then 4 else 0
  let lengthByte := (lengthByte &&& 0x7f).toNat
  if lengthByte + 2 + maskOffset < MAX_HEADER_LENGTH then frame.get (lengthByte + maskOffset)
  else frame.get (MAX_HEADER_LENGTH - 2)

/-- The part of `readFrame` that reads the length of the payload and where the length ends. -/
def readLength (limit : ℕ) (lengthByte : UInt8) (headerReader : BitReader) :
    Except String (ℕ × ℕ × BitReader) :=
  if lengthByte &&& 0x7f = 127 then do
    let (l, headerReader) ← headerReader.get 8
    if ofBE l > limit then insufficientBuffer (ofBE l) else pure (ofBE l, 2 + 8, headerReader)
  else if lengthByte &&& 0x7f = 126 then do
    let (l, headerReader) ← headerReader.get 2
    if ofBE l > limit then insufficientBuffer (ofBE l) else pure (ofBE l, 2 + 2, headerReader)
  else
    let l := (lengthByte &&& 0x7f).toNat
    if l > limit then insufficientBuffer l else pure (l, 2, headerReader)

/-- The part of `readFrame` that reads the mask, no byte where the frame is not masked. -/
def readMask (lengthByte : UInt8) (payloadOffset : ℕ) (headerReader : BitReader) :
    Except String (List UInt8 × ℕ) :=
  if lengthByte &&& FRAME_FLAG_MASK ≠ 0 then do
    let (mask, _) ← headerReader.get 4
    pure (mask, payloadOffset + 4)
  else pure ([], payloadOffset)

/-- `WebSocketFramer::readFrame`: the payload, and the reader behind the frame. The part of
`header` that is not filled from the frame is never looked at. -/
def readFrame (frame : BitReader) : Except String (List UInt8 × BitReader) := do
  let limit := frame.limit
  let offset := frame.position
  let (start, frame) ← frame.get 2
  let (window, frame) ← readWindow (start.getD 1 0) frame
  let frame ← frame.skip 2
  let header := start ++ window
  let headerReader : BitReader :=
    ⟨header ++ List.replicate (MAX_HEADER_LENGTH - header.length) 0, 0⟩
  let (_, headerReader) ← headerReader.get 1
  let (lengthByte, headerReader) ← headerReader.get 1
  let lengthByte := lengthByte.getD 0 0
  let (payloadLength, payloadOffset, headerReader) ← readLength limit lengthByte headerReader
  let (mask, payloadOffset) ← readMask lengthByte payloadOffset headerReader
  if payloadLength > limit then throw "WebSocket error: Incomplete frame received"
  let frame := { frame with bytes := unmask frame.bytes mask (offset + payloadOffset) payloadLength }
  let payload := (frame.bytes.drop (offset + payloadOffset)).take payloadLength
  let frame ← frame.seek (offset + payloadOffset + payloadLength)
  pure (payload, frame)

/-! ## What is sent -/

/-- What is handed to the framer: the payload, the flags, and the mask that is drawn for it. -/
structure Frame where
  payload : List UInt8
  flags : SendFlags
  mask : Mask

/-- The part of `WebSocketAdapter::send` that makes the frame. -/
def send (mode : Mode) (f : Frame) : Except String (List UInt8) := do
  let writer : BitWriter := ⟨[], f.payload.length + MAX_HEADER_LENGTH⟩
  let writer ← writeFrame mode f.payload f.flags f.mask writer
  pure writer.bytes

end Yamb.WebSocket
