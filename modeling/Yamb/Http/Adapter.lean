import Yamb.Http.ReadFrame

/-!
# The adapter splits a buffer

* `onSocketRecv`: frames are read until the buffer is empty or a frame is broken;
* **`recvLoop_reads`**: what is emitted are the payloads that `parse` finds, without the empty ones.
-/

set_option autoImplicit false

namespace Yamb.WebSocket

open Framing

/-! ## The adapter -/

/-- What `onSocketRecv` leaves behind: the payloads emitted, the error set on the socket, and the
two numbers its last assertion compares. -/
structure Recv where
  emitted : List (List UInt8)
  error : Option String
  offset : ℕ
  total : ℕ

/-- The loop of `WebSocketAdapter::onSocketRecv`; `offset` is the position of the reader. -/
def recvLoop (total : ℕ) (reader : BitReader) (emitted : List (List UInt8)) : Recv :=
  if reader.position < total then
    match _h : readFrame reader with
    | .error exc => ⟨emitted, some exc, reader.position, total⟩
    | .ok (payload, reader') =>
      -- empty frames are dropped
      recvLoop total reader' (if payload = [] then emitted else emitted ++ [payload])
  else ⟨emitted, none, reader.position, total⟩
termination_by total - reader.position
decreasing_by
  have := readFrame_position_lt _h
  omega

/-- `WebSocketAdapter::onSocketRecv` after the handshake. -/
def onSocketRecv (buffer : List UInt8) : Recv :=
  let reader : BitReader := ⟨buffer, 0⟩
  recvLoop reader.available reader []

theorem recvLoop_ok {total : ℕ} {r r' : BitReader} {p : List UInt8} (em : List (List UInt8))
    (hr : r.position < total) (h : readFrame r = .ok (p, r')) :
    recvLoop total r em = recvLoop total r' (if p = [] then em else em ++ [p]) := by
  rw [recvLoop, if_pos hr]
  split
  · rename_i e he
    rw [h] at he
    cases he
  · rename_i q r'' he
    rw [h] at he
    cases he
    rfl

theorem recvLoop_error {total : ℕ} {r : BitReader} {e : String} (em : List (List UInt8))
    (hr : r.position < total) (h : readFrame r = .error e) :
    recvLoop total r em = ⟨em, some e, r.position, total⟩ := by
  rw [recvLoop, if_pos hr]
  split
  · rename_i e' he
    rw [h] at he
    cases he
    rfl
  · rename_i q r'' he
    rw [h] at he
    cases he

/-- The payloads that are emitted. -/
def nonEmpty (ps : List (List UInt8)) : List (List UInt8) := ps.filter fun p => p ≠ []

theorem nonEmpty_cons (p : List UInt8) (ps em : List (List UInt8)) :
    em ++ nonEmpty (p :: ps) = (if p = [] then em else em ++ [p]) ++ nonEmpty ps := by
  unfold nonEmpty
  by_cases hp : p = []
  · simp [hp]
  · simp [hp]

/-- **The loop reads frame after frame** and emits the payloads that are not empty. It ends at the
end of the buffer or sets an error. -/
theorem recvLoop_reads {x z : List UInt8} {ps : List (List UInt8)} (h : Reads parse x ps z)
    (hz : z = [] ∨ parse z = none) {r : BitReader} (hr : r.rest = x)
    (hlen : r.position + x.length = r.limit) (em : List (List UInt8)) :
    ∃ error offset, recvLoop r.limit r em = ⟨em ++ nonEmpty ps, error, offset, r.limit⟩ ∧
      (z = [] → error = none ∧ offset = r.limit) ∧ (z ≠ [] → error ≠ none) := by
  induction h generalizing r em with
  | nil x =>
    cases x with
    | nil =>
      refine ⟨none, r.limit, ?_, fun _ => ⟨rfl, rfl⟩, fun hx => absurd rfl hx⟩
      have hpos : r.position = r.limit := hlen
      rw [recvLoop, if_neg (by omega), hpos, nonEmpty, List.filter_nil, List.append_nil]
    | cons b x =>
      obtain ⟨e, he⟩ := readFrame_of_parse_none
        (hr.symm ▸ hz.resolve_left (List.cons_ne_nil b x) : parse r.rest = none)
      refine ⟨some e, r.position, ?_, fun hx => absurd hx (List.cons_ne_nil b x), fun _ => by simp⟩
      rw [recvLoop_error em (by rw [List.length_cons] at hlen; omega) he, nonEmpty, List.filter_nil,
        List.append_nil]
  | @cons x y z p ps hx _ ih =>
    obtain ⟨r', hread, hrest, hlimit, hend⟩ := readFrame_of_parse (hr ▸ hx : parse r.rest = some (p, y))
    have hlt := parse_length hx
    obtain ⟨e, off, hrun, hdone, herr⟩ := ih hz hrest (hend.trans hlimit.symm)
      (if p = [] then em else em ++ [p])
    rw [hlimit] at hrun hdone
    refine ⟨e, off, ?_, hdone, herr⟩
    rw [recvLoop_ok em (by omega) hread, hrun, nonEmpty_cons]

end Yamb.WebSocket
