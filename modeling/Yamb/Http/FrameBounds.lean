import Yamb.Buffer.Bounds
import Yamb.Http.ReadFrame

/-!
# The bytes that a frame is read from

`WebSocketFramer::readFrame` on a reader of its buffer, where it unmasks the payload in place.

* `readHeader`, `unmaskLoop`, `readFrameAt`: the calls that read a frame;
* `readHeader_eq`, `readFrameAt_eq`: what `readFrameAt` does when its window is there;
* `bytes_unmaskLoop`, `mem_accessed_unmaskLoop`: what unmasking changes and accesses;
* `StaysIn`, `Fits`, **`readFrameAt_staysIn_iff`**: when reading a frame stays in the buffer;
* **`readFrame_contents`**: on the bytes of the buffer it does what `readFrame` does.
-/

set_option autoImplicit false

namespace Yamb.WebSocket

open Framing
open Buffer (Reading)
open Buffer.BitReader (Gives)

/-! ## Reading a buffer -/

/-- The part of `readFrame` that fills the header behind its first two bytes. -/
def readWindowAt (lengthByte : UInt8) : Reading (List UInt8) :=
  let maskOffset := if lengthByte &&& FRAME_FLAG_MASK ≠ 0 then 4 else 0
  let lengthByte := (lengthByte &&& 0x7f).toNat
  if lengthByte + 2 + maskOffset < MAX_HEADER_LENGTH then
    Buffer.BitReader.get (lengthByte + maskOffset)
  else Buffer.BitReader.get (MAX_HEADER_LENGTH - 2)

/-- The part of `readFrame` that reads the header: the length of the payload, where it starts, and the
mask. -/
def readHeader (limit : ℕ) (header : List UInt8) : Except String (ℕ × ℕ × List UInt8) := do
  let headerReader : BitReader :=
    ⟨header ++ List.replicate (MAX_HEADER_LENGTH - header.length) 0, 0⟩
  let (_, headerReader) ← headerReader.get 1
  let (lengthByte, headerReader) ← headerReader.get 1
  let lengthByte := lengthByte.getD 0 0
  let (payloadLength, payloadOffset, headerReader) ← readLength limit lengthByte headerReader
  let (mask, payloadOffset) ← readMask lengthByte payloadOffset headerReader
  if payloadLength > limit then throw "WebSocket error: Incomplete frame received"
  pure (payloadLength, payloadOffset, mask)

/-- `for (i = 0; i < payloadLength; i++) p[i] ^= mask[i % 4]`. -/
def unmaskLoop (mask : List UInt8) (p : ℕ) : ℕ → Buffer.BitReader → Buffer.BitReader
  | 0, r => r
  | i + 1, r =>
    let r := unmaskLoop mask p i r
    { r with
      bytes := Function.update r.bytes (p + i) (r.bytes (p + i) ^^^ mask.getD (i % 4) 0)
      accessed := r.accessed ++ [p + i] }

/-- The part of `readFrame` that unmasks the payload. -/
def unmaskPayload (lengthByte : UInt8) (mask : List UInt8) (p payloadLength : ℕ)
    (r : Buffer.BitReader) : Buffer.BitReader :=
  if lengthByte &&& FRAME_FLAG_MASK ≠ 0 then unmaskLoop mask p payloadLength r else r

/-- The part of `readFrame` behind the header. -/
def readPayload (lengthByte : UInt8) (payload payloadLength : ℕ) (mask : List UInt8) :
    Reading (ℕ × ℕ) := do
  .modify (unmaskPayload lengthByte mask payload payloadLength)
  Buffer.BitReader.seek ((payload + payloadLength) % 2 ^ 64)
  pure (payload, payloadLength)

/-- `WebSocketFramer::readFrame`: where the payload starts, and its length. -/
def readFrameAt : Reading (ℕ × ℕ) := do
  let limit ← .gets Buffer.BitReader.limit
  let offset ← .gets Buffer.BitReader.position
  let start ← Buffer.BitReader.get 2
  let window ← readWindowAt (start.getD 1 0)
  Buffer.BitReader.skip 2
  let h ← .lift (readHeader limit (start ++ window))
  readPayload (start.getD 1 0) (offset + h.2.1) h.1 h.2.2

/-! ## The header -/

/-- The length of the payload, and the mask, in a header whose window is there. -/
theorem readHeader_eq {f b : UInt8} {t : List UInt8} (limit : ℕ) (hw : window b ≤ t.length) :
    readHeader limit ([f, b] ++ t.take (window b)) =
      if payloadLength b t > limit then insufficientBuffer (payloadLength b t)
      else .ok (payloadLength b t, 2 + headerLength b,
        (t.drop (lengthBytes b)).take (maskLength b)) := by
  obtain ⟨v, hv⟩ : ∃ v, v = List.replicate (MAX_HEADER_LENGTH - ([f, b] ++ t.take (window b)).length)
    (0 : UInt8) := ⟨_, rfl⟩
  have hheader : [f, b] ++ t.take (window b) ++ v = f :: b :: (t.take (window b) ++ v) := rfl
  simp only [readHeader, bind, Except.bind, ← hv, hheader, get_flags, get_lengthByte,
    List.getD_cons_zero, readLength_window limit hw]
  by_cases hL : payloadLength b t > limit
  · rw [if_pos hL, if_pos hL]
    rfl
  · rw [if_neg hL, if_neg hL]
    simp only [readMask_window (2 + lengthBytes b) hw]
    rw [if_neg hL, Nat.add_assoc 2, ← headerLength]
    rfl

/-! ## The frame -/

variable {r : Buffer.BitReader} {f b : UInt8} {t : List UInt8}

theorem readWindowAt_eq (b : UInt8) : readWindowAt b = Buffer.BitReader.get (window b) := by
  show (if sevenBits b + 2 + maskLength b < 14 then Buffer.BitReader.get (sevenBits b + maskLength b)
    else Buffer.BitReader.get 12) = Buffer.BitReader.get (min (sevenBits b + maskLength b) 12)
  split_ifs with h
  · rw [Nat.min_eq_left (by omega)]
  · rw [Nat.min_eq_right (by omega)]

/-- What `readFrameAt` does when its window is there. -/
theorem readFrameAt_eq (hpos : r.position ≤ r.limit) (hr : r.rest = f :: b :: t)
    (hw : window b ≤ t.length) : ∃ r₁ T, r.Inside T ∧ r₁.accessed = r.accessed ++ T ∧
      r₁.bytes = r.bytes ∧ r₁.limit = r.limit ∧
      readFrameAt r = if payloadLength b t > r.limit then (insufficientBuffer (payloadLength b t), r₁)
        else readPayload b (r.position + (2 + headerLength b)) (payloadLength b t)
          ((t.drop (lengthBytes b)).take (maskLength b)) r₁ := by
  have hstart : r.rest = [f, b] ++ t := hr
  obtain ⟨T, hT, hget⟩ := Buffer.BitReader.get_gives_append (l := 2) hpos rfl hstart
  have hrest : (r.moved 2 T).rest = t := Buffer.BitReader.rest_moved_append rfl hstart T
  have hpos' : (r.moved 2 T).position ≤ (r.moved 2 T).limit :=
    Buffer.BitReader.position_moved_append hpos rfl hstart T
  obtain ⟨U, hU, hwindow⟩ := Buffer.BitReader.get_gives (l := window b) hpos' (hrest.symm ▸ hw)
  rw [hrest, ← readWindowAt_eq] at hwindow
  obtain ⟨r₁, hr₁⟩ : ∃ r₁, r₁ = { ((r.moved 2 T).moved (window b) U) with
    position := ((r.moved 2 T).moved (window b) U).index 2 } := ⟨_, rfl⟩
  have hskip : Buffer.BitReader.skip 2 ((r.moved 2 T).moved (window b) U) = (.ok (), r₁) := by
    have htwo : r.position + 2 ≤ r.limit := hpos'
    have hlimit : ¬ 2 > ((r.moved 2 T).moved (window b) U).limit := by
      show ¬ 2 > r.limit
      omega
    rw [Buffer.BitReader.skip, if_neg hlimit, hr₁]
    rfl
  have hheader := readHeader_eq (f := f) r.limit hw
  refine ⟨r₁, T ++ U, hT.append hU, ?_, by rw [hr₁]; rfl, by rw [hr₁]; rfl, ?_⟩
  · rw [hr₁, Buffer.BitReader.moved_moved]
    rfl
  · rw [readFrameAt, Op.gets_bind_apply, Op.gets_bind_apply, Op.bind_of_ok hget,
      List.getD_cons_succ, List.getD_cons_zero, Op.bind_of_ok hwindow, Op.bind_of_ok hskip]
    by_cases hL : payloadLength b t > r.limit
    · rw [if_pos hL] at hheader ⊢
      have hlift : Op.lift (readHeader r.limit ([f, b] ++ t.take (window b))) r₁ =
          (insufficientBuffer (payloadLength b t), r₁) := by rw [Op.lift, hheader]
      rw [insufficientBuffer] at hlift ⊢
      rw [Op.bind_of_error hlift]
    · rw [if_neg hL] at hheader ⊢
      have hlift : Op.lift (readHeader r.limit ([f, b] ++ t.take (window b))) r₁ =
          (.ok (payloadLength b t, 2 + headerLength b,
            (t.drop (lengthBytes b)).take (maskLength b)), r₁) := by rw [Op.lift, hheader]
      rw [Op.bind_of_ok hlift]

/-! ## Unmasking -/

section Unmask

variable {mask : List UInt8} {p n : ℕ}

theorem limit_unmaskLoop (r : Buffer.BitReader) : (unmaskLoop mask p n r).limit = r.limit := by
  induction n with
  | zero => rfl
  | succ n ih => exact ih

theorem mem_accessed_unmaskLoop (r : Buffer.BitReader) (a : ℕ) :
    a ∈ (unmaskLoop mask p n r).accessed ↔ a ∈ r.accessed ∨ p ≤ a ∧ a < p + n := by
  induction n with
  | zero =>
    rw [unmaskLoop]
    exact ⟨.inl, fun h => h.resolve_right (by omega)⟩
  | succ n ih =>
    rw [unmaskLoop, List.mem_append, ih, List.mem_singleton, or_assoc]
    exact or_congr_right (by omega)

/-- Every byte of the payload is combined with its byte of the mask once. -/
theorem bytes_unmaskLoop (r : Buffer.BitReader) (a : ℕ) : (unmaskLoop mask p n r).bytes a =
    if p ≤ a ∧ a < p + n then r.bytes a ^^^ mask.getD ((a - p) % 4) 0 else r.bytes a := by
  induction n with
  | zero => rw [unmaskLoop, if_neg (by omega)]
  | succ n ih =>
    show Function.update (unmaskLoop mask p n r).bytes (p + n)
      ((unmaskLoop mask p n r).bytes (p + n) ^^^ mask.getD (n % 4) 0) a = _
    by_cases ha : a = p + n
    · subst ha
      rw [Function.update_self, ih, if_neg (by omega), if_pos (by omega), Nat.add_sub_cancel_left]
    · rw [Function.update_of_ne ha, ih]
      split_ifs <;> first | rfl | omega

end Unmask

theorem limit_unmaskPayload (mask : List UInt8) (p n : ℕ) (r : Buffer.BitReader) :
    (unmaskPayload b mask p n r).limit = r.limit := by
  unfold unmaskPayload
  split_ifs
  · exact limit_unmaskLoop r
  · rfl

theorem readPayload_eq (mask : List UInt8) {p n : ℕ} (h : p + n < 2 ^ 64) (r : Buffer.BitReader) :
    readPayload b p n mask r =
      if p + n > r.limit then (.error "index out of range", unmaskPayload b mask p n r)
      else (.ok (p, n), { unmaskPayload b mask p n r with position := p + n }) := by
  have hlimit := limit_unmaskPayload (b := b) mask p n r
  rw [readPayload, Op.modify_bind_apply, Nat.mod_eq_of_lt h]
  by_cases hover : p + n > r.limit
  · have hseek : Buffer.BitReader.seek (p + n) (unmaskPayload b mask p n r) =
        (.error "index out of range", unmaskPayload b mask p n r) := by
      rw [Buffer.BitReader.seek, if_pos (hlimit.symm ▸ hover)]
    rw [if_pos hover, Op.bind_of_error hseek]
  · have hseek : Buffer.BitReader.seek (p + n) (unmaskPayload b mask p n r) =
        (.ok (), { unmaskPayload b mask p n r with position := p + n }) := by
      rw [Buffer.BitReader.seek, if_neg (hlimit.symm ▸ hover)]
    rw [if_neg hover, Op.bind_of_ok hseek]
    rfl

/-! ## Bounds -/

/-- What comes out of `readFrameAt` is a payload behind the start, within the limit and with the reader
at its end, or the bytes of the buffer are unchanged; bytes of the buffer only are accessed. -/
def StaysIn (r : Buffer.BitReader) (out : Except String (ℕ × ℕ) × Buffer.BitReader) : Prop :=
  (match out.1 with
    | .ok (payload, payloadLength) => r.position ≤ payload ∧ payload + payloadLength ≤ r.limit ∧
        out.2.position = payload + payloadLength
    | .error _ => ∀ a < r.limit, out.2.bytes a = r.bytes a) ∧
  ∀ a ∈ out.2.accessed, a < r.limit

/-- A masked frame whose header is there, and whose payload is not longer than the buffer, lies in the
buffer as a whole. -/
def Fits (limit : ℕ) : List UInt8 → Prop
  | _ :: b :: t => b &&& FRAME_FLAG_MASK ≠ 0 → window b ≤ t.length → payloadLength b t ≤ limit →
      headerLength b + payloadLength b t ≤ t.length
  | _ => True

theorem staysIn_error {e : String} {r₁ : Buffer.BitReader} (h : Buffer.Within r) {T : List ℕ}
    (hT : r.Inside T) (hbytes : r₁.bytes = r.bytes) (hacc : r₁.accessed = r.accessed ++ T) :
    StaysIn r (.error e, r₁) := by
  refine ⟨fun a _ => by rw [hbytes], ?_⟩
  show ∀ a ∈ r₁.accessed, a < r.limit
  rw [hacc]
  exact h.accessed.append hT

theorem readFrameAt_of_short (hpos : r.position ≤ r.limit) (hr : r.rest.length < 2) :
    readFrameAt r = (.error "index out of range", r) := by
  rw [readFrameAt, Op.gets_bind_apply, Op.gets_bind_apply,
    Op.bind_of_error (Buffer.BitReader.get_eq_error hpos hr)]

/-- What `readFrameAt` does when its window is not there. -/
theorem readFrameAt_of_noWindow (hpos : r.position ≤ r.limit) (hr : r.rest = f :: b :: t)
    (hw : t.length < window b) : ∃ T, r.Inside T ∧
      readFrameAt r = (.error "index out of range", r.moved 2 T) := by
  have hstart : r.rest = [f, b] ++ t := hr
  obtain ⟨T, hT, hget⟩ := Buffer.BitReader.get_gives_append (l := 2) hpos rfl hstart
  have hrest : (r.moved 2 T).rest = t := Buffer.BitReader.rest_moved_append rfl hstart T
  have hpos' : (r.moved 2 T).position ≤ (r.moved 2 T).limit :=
    Buffer.BitReader.position_moved_append hpos rfl hstart T
  have hwindow := Buffer.BitReader.get_eq_error hpos' (hrest.symm ▸ hw)
  rw [← readWindowAt_eq] at hwindow
  refine ⟨T, hT, ?_⟩
  rw [readFrameAt, Op.gets_bind_apply, Op.gets_bind_apply, Op.bind_of_ok hget,
    List.getD_cons_succ, List.getD_cons_zero, Op.bind_of_error hwindow]

/-- Unmasking within the limit accesses bytes of the buffer only. -/
theorem accessed_unmaskPayload {mask : List UInt8} {p n : ℕ} {r₁ : Buffer.BitReader}
    (hacc : ∀ a ∈ r₁.accessed, a < r.limit) (h : p + n ≤ r.limit) :
    ∀ a ∈ (unmaskPayload b mask p n r₁).accessed, a < r.limit := by
  intro a ha
  unfold unmaskPayload at ha
  split_ifs at ha
  · rcases (mem_accessed_unmaskLoop r₁ a).mp ha with ha | ha
    · exact hacc a ha
    · omega
  · exact hacc a ha

/-- What is left to decide when the header is there. -/
theorem staysIn_payload_iff {mask : List UInt8} {p n : ℕ} {r₁ : Buffer.BitReader}
    (hacc : ∀ a ∈ r₁.accessed, a < r.limit) (hbytes : r₁.bytes = r.bytes) (hp : r.position ≤ p)
    (hlimit : p ≤ r.limit) :
    StaysIn r (if p + n > r.limit then (.error "index out of range", unmaskPayload b mask p n r₁)
      else (.ok (p, n), { unmaskPayload b mask p n r₁ with position := p + n })) ↔
    (b &&& FRAME_FLAG_MASK ≠ 0 → p + n ≤ r.limit) := by
  by_cases hover : p + n > r.limit
  · rw [if_pos hover]
    by_cases hmask : b &&& FRAME_FLAG_MASK ≠ 0
    · rw [unmaskPayload, if_pos hmask]
      refine iff_of_false (fun hin => ?_) fun hle => absurd (hle hmask) (by omega)
      -- the last byte of the payload lies behind the limit
      have hlast := hin.2 (p + n - 1) ((mem_accessed_unmaskLoop r₁ _).mpr (.inr (by omega)))
      omega
    · rw [unmaskPayload, if_neg hmask]
      exact iff_of_true ⟨fun a _ => by rw [hbytes], hacc⟩ fun h => absurd h hmask
  · rw [if_neg hover]
    exact iff_of_true ⟨⟨hp, by omega, rfl⟩, accessed_unmaskPayload hacc (by omega)⟩
      fun _ => Nat.le_of_not_lt hover

/-- **Reading a frame stays in the buffer** exactly when it is not a masked frame that lies in the
buffer up to its header and not as a whole. -/
theorem readFrameAt_staysIn_iff (h : Buffer.Within r) :
    StaysIn r (readFrameAt r) ↔ Fits r.limit r.rest := by
  have hpos := h.position
  have hlimit := r.limit_lt
  have hlen := r.length_rest
  match hr : r.rest with
  | [] =>
    rw [readFrameAt_of_short hpos (by rw [hr]; decide)]
    exact iff_of_true ⟨fun _ _ => rfl, h.accessed⟩ trivial
  | [_] =>
    rw [readFrameAt_of_short hpos (by rw [hr, List.length_singleton]; decide)]
    exact iff_of_true ⟨fun _ _ => rfl, h.accessed⟩ trivial
  | f :: b :: t =>
    have hhw := headerLength_le_window b
    rw [hr, List.length_cons, List.length_cons] at hlen
    by_cases hw : window b ≤ t.length
    · obtain ⟨r₁, T, hT, hacc, hbytes, hlim, hrun⟩ := readFrameAt_eq hpos hr hw
      rw [hrun]
      by_cases hL : payloadLength b t > r.limit
      · rw [if_pos hL]
        exact iff_of_true (staysIn_error h hT hbytes hacc) fun _ _ hle => absurd hL (by omega)
      · rw [if_neg hL, readPayload_eq _ (by omega), hlim,
          staysIn_payload_iff (hacc ▸ h.accessed.append hT) hbytes (by omega) (by omega)]
        constructor
        · intro hfit hmask _ _
          have := hfit hmask
          omega
        · intro hfit hmask
          have := hfit hmask hw (by omega)
          omega
    · obtain ⟨T, hT, hrun⟩ := readFrameAt_of_noWindow hpos hr (by omega)
      rw [hrun]
      exact iff_of_true (staysIn_error h hT rfl rfl) fun _ hle => absurd hle hw

/-- A reader of a buffer, from a position on. -/
def readerAt (bytes : ℕ → UInt8) (limit : ℕ) (h : limit < 2 ^ 63) (order : Buffer.ByteOrder)
    (start : ℕ) : Buffer.BitReader := ⟨bytes, limit, h, order, start, []⟩

/-- **Reading a frame of a buffer** stays in the buffer exactly when the frame fits. -/
theorem readFrameAt_readerAt_iff (bytes : ℕ → UInt8) (limit : ℕ) (h : limit < 2 ^ 63)
    (order : Buffer.ByteOrder) (start : ℕ) (hstart : start ≤ limit) :
    StaysIn (readerAt bytes limit h order start) (readFrameAt (readerAt bytes limit h order start)) ↔
      Fits limit ((List.range' start (limit - start)).map bytes) :=
  readFrameAt_staysIn_iff ⟨hstart, fun _ ha => (List.not_mem_nil ha).elim⟩

/-- A masked frame of one byte, behind another byte. -/
theorem readFrameAt_readerAt_iff_masked :
    1 ≤ 8 ∧ (StaysIn
        (readerAt (fun i => [0, 0x81, 0x81, 1, 2, 3, 4, 0x69].getD i 0) 8 (by decide) .network 1)
        (readFrameAt
          (readerAt (fun i => [0, 0x81, 0x81, 1, 2, 3, 4, 0x69].getD i 0) 8 (by decide) .network 1)) ↔
      Fits 8 [0x81, 0x81, 1, 2, 3, 4, 0x69]) :=
  ⟨by decide, readFrameAt_readerAt_iff _ 8 (by decide) .network 1 (by decide)⟩

/-- A masked frame of ten bytes, in a buffer that ends two bytes before the frame. -/
theorem not_staysIn_truncated : ¬ ∀ (bytes : ℕ → UInt8) (limit : ℕ) (h : limit < 2 ^ 63)
    (order : Buffer.ByteOrder) (start : ℕ), start ≤ limit →
      StaysIn (readerAt bytes limit h order start)
        (readFrameAt (readerAt bytes limit h order start)) := by
  intro h
  have hin := h (fun i => [0x81, 0x8a].getD i 0) 14 (by decide) .network 0 (by decide)
  exact absurd (hin.2 14 (by decide)) (by decide)

/-! ## The bytes of the buffer -/

/-- The bytes of the buffer, at the position of the reader. -/
def contents (r : Buffer.BitReader) : BitReader := ⟨(List.range r.limit).map r.bytes, r.position⟩

theorem rest_contents (r : Buffer.BitReader) : (contents r).rest = r.rest := by
  show ((List.range r.limit).map r.bytes).drop r.position = _
  rw [← List.map_drop, List.range_eq_range', List.drop_range', Nat.mul_one, Nat.zero_add]
  rfl

theorem limit_contents (r : Buffer.BitReader) : (contents r).limit = r.limit := by
  show ((List.range r.limit).map r.bytes).length = r.limit
  rw [List.length_map, List.length_range]

theorem bytes_unmaskPayload {mask : List UInt8} {p n : ℕ}
    (hmask : b &&& FRAME_FLAG_MASK = 0 → mask = []) (r : Buffer.BitReader) (a : ℕ) :
    (unmaskPayload b mask p n r).bytes a =
      if p ≤ a ∧ a < p + n then r.bytes a ^^^ mask.getD ((a - p) % 4) 0 else r.bytes a := by
  unfold unmaskPayload
  split_ifs with hb hin hin
  · rw [bytes_unmaskLoop, if_pos hin]
  · rw [bytes_unmaskLoop, if_neg hin]
  · rw [hmask (not_not.mp hb), List.getD_nil, UInt8.xor_zero]
  · rfl

theorem getElem_unmask {bytes mask : List UInt8} {p n i : ℕ} (h : p + n ≤ bytes.length)
    (hi : i < (unmask bytes mask p n).length) (hi' : i < bytes.length) :
    (unmask bytes mask p n)[i] =
      if p ≤ i ∧ i < p + n then bytes[i] ^^^ mask.getD ((i - p) % 4) 0 else bytes[i] := by
  simp only [unmask, xorMask, List.getElem_append, List.length_append, List.length_take,
    List.length_mapIdx, List.length_drop, List.getElem_take, List.getElem_mapIdx, List.getElem_drop]
  have hp : min p bytes.length = p := Nat.min_eq_left (by omega)
  have hn : min n (bytes.length - p) = n := Nat.min_eq_left (by omega)
  simp only [hp, hn]
  by_cases h₁ : i < p
  · rw [dif_pos (by omega), dif_pos h₁, if_neg (by omega)]
  by_cases h₂ : i < p + n
  · have hi : p + (i - p) = i := by omega
    rw [dif_pos h₂, dif_neg h₁, if_pos (by omega)]
    simp only [hi]
  · have hi : p + n + (i - (p + n)) = i := by omega
    rw [dif_neg h₂, if_neg (by omega)]
    simp only [hi]

theorem bytes_contents_unmaskPayload {mask : List UInt8} {p n : ℕ}
    (hmask : b &&& FRAME_FLAG_MASK = 0 → mask = []) (h : p + n ≤ r.limit) :
    (contents (unmaskPayload b mask p n r)).bytes = unmask (contents r).bytes mask p n := by
  have hlen : (contents r).bytes.length = r.limit := limit_contents r
  have hlen' : (contents (unmaskPayload b mask p n r)).bytes.length = r.limit :=
    (limit_contents _).trans (limit_unmaskPayload mask p n r)
  apply List.ext_getElem
  · rw [length_unmask, hlen, hlen']
  · intro i h₁ h₂
    rw [getElem_unmask (hlen.symm ▸ h) h₂ (by omega)]
    simp only [contents, List.getElem_map, List.getElem_range, bytes_unmaskPayload hmask]

theorem mask_eq_nil (hb : b &&& FRAME_FLAG_MASK = 0) (t : List UInt8) :
    (t.drop (lengthBytes b)).take (maskLength b) = [] := by
  rw [maskLength, if_neg (not_not.mpr hb), List.take_zero]

theorem toOption_readFrame_of_parse_none (h : parse r.rest = none) :
    (readFrame (contents r)).toOption = none := by
  obtain ⟨e, he⟩ := readFrame_of_parse_none (r := contents r) (by rw [rest_contents]; exact h)
  rw [he]
  rfl

/-- **`readFrameAt` does to the bytes of its buffer what `readFrame` does**, when it returns. -/
theorem readFrame_contents (h : r.position ≤ r.limit) : (readFrame (contents r)).toOption =
    (readFrameAt r).1.toOption.map fun frame =>
      (((contents (readFrameAt r).2).bytes.drop frame.1).take frame.2,
        contents (readFrameAt r).2) := by
  have hlimit := r.limit_lt
  have hlen := r.length_rest
  have hrest := rest_contents r
  match hr : r.rest with
  | [] =>
    rw [readFrameAt_of_short h (by rw [hr]; decide),
      toOption_readFrame_of_parse_none (by rw [hr]; rfl)]
    rfl
  | [_] =>
    rw [readFrameAt_of_short h (by rw [hr, List.length_singleton]; decide),
      toOption_readFrame_of_parse_none (by rw [hr]; rfl)]
    rfl
  | f :: b :: t =>
    have hhw := headerLength_le_window b
    rw [hr, List.length_cons, List.length_cons] at hlen
    by_cases hw : window b ≤ t.length
    · obtain ⟨r₁, T, -, -, hbytes, hlim, hrun⟩ := readFrameAt_eq h hr hw
      have hpos : (contents r).position = r.position := rfl
      rw [readFrame_eq (hrest.trans hr) hw, hrun, limit_contents, hpos]
      by_cases hL : payloadLength b t > r.limit
      · rw [if_pos hL, if_pos hL]
        rfl
      · rw [if_neg hL, if_neg hL, readPayload_eq _ (by omega), hlim]
        by_cases hover : r.position + (2 + headerLength b) + payloadLength b t > r.limit
        · rw [if_pos hover, if_pos hover]
          rfl
        · have hunmask := bytes_contents_unmaskPayload (r := r₁) (b := b) (n := payloadLength b t)
            (p := r.position + (2 + headerLength b)) (fun hb => mask_eq_nil hb t)
            (by rw [hlim]; exact Nat.le_of_not_lt hover)
          have hcontents : (contents r₁).bytes = (contents r).bytes := by
            show (List.range r₁.limit).map r₁.bytes = (List.range r.limit).map r.bytes
            rw [hlim, hbytes]
          rw [hcontents] at hunmask
          rw [if_neg hover, if_neg hover, ← hunmask]
          rfl
    · obtain ⟨T, -, hrun⟩ := readFrameAt_of_noWindow h hr (by omega)
      rw [hrun, toOption_readFrame_of_parse_none]
      · rfl
      · rw [hr, parse, if_neg fun hc => hw hc.1]

end Yamb.WebSocket
