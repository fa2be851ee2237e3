import Yamb.Http.Adapter

/-!
# Frames come out of the adapter as they went in

* `encode`: the frame that the writer makes (`send_eq`);
* **`parse_encode`**: it is read with the length that its header declares, which is the true one
  below `65536` bytes;
* `RoundTrips`, **`roundTrips_prefix_iff`**: when what is sent is what is emitted.
-/

set_option autoImplicit false

namespace Yamb.WebSocket

open Framing

/-! ## What the writer makes -/

/-- The seven bits of the length byte that the writer puts. -/
def lengthCode (len : ℕ) : ℕ := if len < 126 then len else if len < 65536 then 126 else 127

/-- The extended length that the writer puts. -/
def extension (len : ℕ) : List UInt8 :=
  if len < 126 then [] else if len < 65536 then toBE 2 (len % 2 ^ 16) else toBE 8 (len % 2 ^ 16)

def maskBytes : Mode → Mask → List UInt8
  | .clientSide, mask => mask.val
  | .serverSide, _ => []

/-- The frame that the writer makes. -/
def encode (mode : Mode) (f : Frame) : List UInt8 :=
  f.flags.toU8 :: (maskFlag mode ||| UInt8.ofNat (lengthCode f.payload.length)) ::
    (extension f.payload.length ++
      (maskBytes mode f.mask ++ xorMask (maskBytes mode f.mask) f.payload))

theorem BitWriter.put_of_le {w : BitWriter} {val : List UInt8}
    (h : w.bytes.length + val.length ≤ w.limit) : w.put val = .ok ⟨w.bytes ++ val, w.limit⟩ :=
  if_neg (by omega)

theorem putMasked_eq {data mask : List UInt8} (hlen : data.length < 2 ^ 32) (room i : ℕ)
    (out : List UInt8) (hi : i ≤ data.length) (hroom : data.length ≤ i + room) :
    putMasked data mask room i out = .ok (out ++ (xorMask mask data).drop i) := by
  induction room generalizing i out with
  | zero =>
    obtain rfl : i = data.length := by omega
    rw [putMasked, if_neg (lt_irrefl _), List.drop_eq_nil_of_le (by simp), List.append_nil]
  | succ room ih =>
    by_cases hlt : i < data.length
    · rw [putMasked, if_pos hlt, Nat.mod_eq_of_lt (by omega), ih _ _ hlt (by omega),
        List.append_assoc]
      have hi' : i < (xorMask mask data).length := by simpa using hlt
      have hget : (xorMask mask data)[i] =
          data.getD i 0 ^^^ mask.getD (i % 4) 0 := by
        simp [xorMask, hlt]
      rw [List.drop_eq_getElem_cons hi', hget]
      rfl
    · rw [putMasked, if_neg hlt, List.drop_eq_nil_of_le (by simpa using hlt), List.append_nil]

/-- From `2 ^ 32` bytes on the counter never reaches the length, and the writer runs out of room. -/
theorem putMasked_error {data mask : List UInt8} (hlen : 2 ^ 32 ≤ data.length) (room i : ℕ)
    (out : List UInt8) (hi : i < 2 ^ 32) :
    putMasked data mask room i out = .error "insufficient buffer capacity" := by
  induction room generalizing i out with
  | zero => exact if_pos (by omega)
  | succ room ih =>
    rw [putMasked, if_pos (by omega)]
    exact ih _ _ (Nat.mod_lt _ (by decide))

theorem length_extension_le (len : ℕ) : (extension len).length ≤ 8 := by
  unfold extension
  split_ifs <;> simp

theorem writeLength_eq (lenByte : UInt8) (len : ℕ) (frame : BitWriter)
    (h : frame.bytes.length + 9 ≤ frame.limit) :
    writeLength lenByte len frame =
      .ok ⟨frame.bytes ++ (lenByte ||| UInt8.ofNat (lengthCode len)) :: extension len,
        frame.limit⟩ := by
  have hput : ∀ b : UInt8, frame.put [b] = .ok ⟨frame.bytes ++ [b], frame.limit⟩ := fun b =>
    BitWriter.put_of_le (by rw [List.length_singleton]; omega)
  have hlong : ∀ (b : UInt8) (k n : ℕ), k ≤ 8 →
      (do let frame ← frame.put [b]; frame.put (toBE k n) : Except String BitWriter) =
        .ok ⟨frame.bytes ++ b :: toBE k n, frame.limit⟩ := by
    intro b k n hk
    have hroom : (frame.bytes ++ [b]).length + (toBE k n).length ≤ frame.limit := by
      rw [List.length_append, List.length_singleton, length_toBE]
      omega
    have hnext := BitWriter.put_of_le (w := ⟨frame.bytes ++ [b], frame.limit⟩) hroom
    rw [List.append_assoc] at hnext
    rw [hput]
    exact hnext
  unfold writeLength lengthCode extension
  split_ifs
  · exact hput _
  · exact hlong (lenByte ||| 126) 2 _ (by decide)
  · exact hlong (lenByte ||| 127) 8 _ (le_refl _)

theorem writePayload_eq {mode : Mode} {data : List UInt8} {mask : Mask} {frame : BitWriter}
    (h : frame.bytes.length + 4 + data.length ≤ frame.limit)
    (hlen : mode = .clientSide → data.length < 2 ^ 32) :
    writePayload mode data mask.val frame =
      .ok ⟨frame.bytes ++ (maskBytes mode mask ++ xorMask (maskBytes mode mask) data),
        frame.limit⟩ := by
  have h4 := mask.property
  cases mode with
  | clientSide =>
    rw [writePayload, BitWriter.put_of_le (by omega)]
    simp only [bind, Except.bind]
    rw [putMasked_eq (hlen rfl) _ 0 _ (Nat.zero_le _) (by rw [List.length_append]; omega),
      List.drop_zero, List.append_assoc]
    rfl
  | serverSide =>
    rw [writePayload, BitWriter.put_of_le (by omega), maskBytes, xorMask_nil]
    rfl

/-- The first bytes of a frame, in front of the mask. -/
def head (mode : Mode) (f : Frame) : List UInt8 :=
  f.flags.toU8 :: (maskFlag mode ||| UInt8.ofNat (lengthCode f.payload.length)) ::
    extension f.payload.length

theorem length_head_le (mode : Mode) (f : Frame) : (head mode f).length ≤ 10 := by
  have := length_extension_le f.payload.length
  rw [head, List.length_cons, List.length_cons]
  omega

theorem send_head (mode : Mode) (f : Frame) :
    send mode f = writePayload mode f.payload f.mask.val
      ⟨head mode f, f.payload.length + MAX_HEADER_LENGTH⟩ >>= fun w => pure w.bytes := by
  have hput : BitWriter.put ⟨[], f.payload.length + MAX_HEADER_LENGTH⟩ [f.flags.toU8] =
      .ok ⟨[f.flags.toU8], f.payload.length + MAX_HEADER_LENGTH⟩ :=
    BitWriter.put_of_le (by unfold MAX_HEADER_LENGTH; simp)
  have hlength := writeLength_eq (maskFlag mode) f.payload.length
    ⟨[f.flags.toU8], f.payload.length + MAX_HEADER_LENGTH⟩
    (by unfold MAX_HEADER_LENGTH; simp only [List.length_singleton]; omega)
  simp only [send, writeFrame, hput, hlength, bind, Except.bind]
  rfl

/-- The writer makes the frame. -/
theorem send_eq {mode : Mode} {f : Frame} (h : mode = .clientSide → f.payload.length < 2 ^ 32) :
    send mode f = .ok (encode mode f) := by
  have hhead := length_head_le mode f
  rw [send_head, writePayload_eq (by unfold MAX_HEADER_LENGTH; simp only; omega) h]
  simp only [bind, Except.bind, pure, Except.pure, encode, head, List.cons_append]

/-- A masked frame of `2 ^ 32` bytes or more is not made. -/
theorem send_error {f : Frame} (h : 2 ^ 32 ≤ f.payload.length) :
    send .clientSide f = .error "insufficient buffer capacity" := by
  have hhead := length_head_le .clientSide f
  have h4 := f.mask.property
  rw [send_head, writePayload, BitWriter.put_of_le (by unfold MAX_HEADER_LENGTH; simp only; omega)]
  simp only [bind, Except.bind]
  rw [putMasked_error h _ 0 _ (by decide)]

/-! ## Reading what was written -/

/-- The length that the frame declares. -/
def declared (len : ℕ) : ℕ := if len < 65536 then len else len % 65536

theorem lengthCode_lt (len : ℕ) : lengthCode len < 128 := by
  unfold lengthCode
  split_ifs <;> omega

theorem and_maskFlag (mode : Mode) {n : ℕ} (hn : n < 128) :
    (maskFlag mode ||| UInt8.ofNat n) &&& 0x7f = UInt8.ofNat n := by
  cases mode
  · exact (by decide : ∀ n < 128, (maskFlag .clientSide ||| UInt8.ofNat n) &&& 0x7f = UInt8.ofNat n)
      n hn
  · exact (by decide : ∀ n < 128, (maskFlag .serverSide ||| UInt8.ofNat n) &&& 0x7f = UInt8.ofNat n)
      n hn

theorem maskLength_eq (mode : Mode) (mask : Mask) {n : ℕ} (hn : n < 128) :
    maskLength (maskFlag mode ||| UInt8.ofNat n) = (maskBytes mode mask).length := by
  cases mode
  · rw [maskBytes, mask.property]
    exact (by decide : ∀ n < 128, maskLength (maskFlag .clientSide ||| UInt8.ofNat n) = 4) n hn
  · exact (by decide : ∀ n < 128, maskLength (maskFlag .serverSide ||| UInt8.ofNat n) = 0) n hn

theorem toNat_ofNat {n : ℕ} (hn : n < 128) : (UInt8.ofNat n).toNat = n := by
  rw [UInt8.toNat_ofNat', Nat.mod_eq_of_lt (by omega)]

theorem ofNat_ne {n k : ℕ} (hn : n < 126) (hk : 126 ≤ k ∧ k < 128) :
    UInt8.ofNat n ≠ UInt8.ofNat k := by
  intro h
  have hnat := congrArg UInt8.toNat h
  rw [toNat_ofNat (by omega), toNat_ofNat hk.2] at hnat
  omega

theorem lengthBytes_eq (mode : Mode) (len : ℕ) :
    lengthBytes (maskFlag mode ||| UInt8.ofNat (lengthCode len)) = (extension len).length := by
  rw [lengthBytes, and_maskFlag mode (lengthCode_lt len)]
  unfold lengthCode extension
  by_cases h₁ : len < 126
  · have h127 : UInt8.ofNat len ≠ 127 := ofNat_ne h₁ (k := 127) (by decide)
    have h126 : UInt8.ofNat len ≠ 126 := ofNat_ne h₁ (k := 126) (by decide)
    rw [if_pos h₁, if_pos h₁, if_neg h127, if_neg h126]
    rfl
  by_cases h₂ : len < 65536
  · rw [if_neg h₁, if_pos h₂, if_neg h₁, if_pos h₂, length_toBE]
    rfl
  · rw [if_neg h₁, if_neg h₂, if_neg h₁, if_neg h₂, length_toBE]
    rfl

/-- The reader finds the length that the frame declares: the true one below `65536`, and only its
low sixteen bits from there on. -/
theorem payloadLength_eq (mode : Mode) (len : ℕ) (t : List UInt8) :
    payloadLength (maskFlag mode ||| UInt8.ofNat (lengthCode len)) (extension len ++ t) =
      declared len := by
  rw [payloadLength, lengthBytes_eq, List.take_left]
  unfold extension declared
  by_cases h₁ : len < 126
  · rw [if_pos h₁, if_pos (List.length_nil), if_pos (by omega), sevenBits,
      and_maskFlag mode (lengthCode_lt len), toNat_ofNat (lengthCode_lt len), lengthCode,
      if_pos h₁]
  by_cases h₂ : len < 65536
  · rw [if_neg h₁, if_pos h₂, if_neg (by simp), if_pos h₂, ofBE_toBE]
    omega
  · rw [if_neg h₁, if_neg h₂, if_neg (by simp), if_neg h₂, ofBE_toBE]
    omega

theorem declared_le (len : ℕ) : declared len ≤ len := by
  unfold declared
  split_ifs
  · exact le_refl _
  · exact Nat.mod_le _ _

/-- What is read ahead is there. -/
theorem window_le_length (mode : Mode) (f : Frame) (z : List UInt8) :
    window (maskFlag mode ||| UInt8.ofNat (lengthCode f.payload.length)) ≤
      (extension f.payload.length ++ (maskBytes mode f.mask ++
        (xorMask (maskBytes mode f.mask) f.payload ++ z))).length := by
  have hcode := lengthCode_lt f.payload.length
  rw [window, sevenBits, and_maskFlag mode hcode, maskLength_eq mode f.mask hcode,
    toNat_ofNat hcode]
  simp only [List.length_append, length_xorMask]
  unfold lengthCode
  split_ifs <;> omega

/-- **The first frame of a stream** is read with the length that it declares. -/
theorem parse_encode (mode : Mode) (f : Frame) (z : List UInt8) :
    parse (encode mode f ++ z) = some (f.payload.take (declared f.payload.length),
      (xorMask (maskBytes mode f.mask) f.payload).drop (declared f.payload.length) ++ z) := by
  have hle := declared_le f.payload.length
  have hlb := lengthBytes_eq mode f.payload.length
  have hml := maskLength_eq mode f.mask (lengthCode_lt f.payload.length)
  have hshape : encode mode f ++ z =
      f.flags.toU8 :: (maskFlag mode ||| UInt8.ofNat (lengthCode f.payload.length)) ::
        (extension f.payload.length ++ (maskBytes mode f.mask ++
          (xorMask (maskBytes mode f.mask) f.payload ++ z))) := by
    simp only [encode, List.cons_append, List.append_assoc]
  have hhead : ∀ n, (extension f.payload.length ++ (maskBytes mode f.mask ++
      (xorMask (maskBytes mode f.mask) f.payload ++ z))).drop
        (headerLength (maskFlag mode ||| UInt8.ofNat (lengthCode f.payload.length)) + n) =
      (xorMask (maskBytes mode f.mask) f.payload ++ z).drop n := by
    intro n
    rw [headerLength, hlb, hml, Nat.add_assoc, ← List.drop_drop, List.drop_left, ← List.drop_drop,
      List.drop_left]
  rw [hshape, parse, payloadLength_eq, if_pos, hlb, hml, List.drop_left, List.take_left, hhead,
    ← Nat.add_zero (headerLength _), hhead, List.drop_zero]
  · rw [List.take_append_of_le_length (by rw [length_xorMask]; exact hle),
      List.drop_append_of_le_length (by rw [length_xorMask]; exact hle), take_xorMask,
      xorMask_xorMask]
  · refine ⟨window_le_length mode f z, ?_⟩
    rw [headerLength, hlb, hml]
    simp only [List.length_append, length_xorMask]
    omega

theorem parse_encode_short {mode : Mode} {f : Frame} (hf : f.payload.length < 65536)
    (z : List UInt8) : parse (encode mode f ++ z) = some (f.payload, z) := by
  rw [parse_encode, declared, if_pos hf, List.take_length,
    List.drop_eq_nil_of_le (by rw [length_xorMask]), List.nil_append]

/-! ## The round trip -/

/-- **What is sent comes out again**: the frames are made, and the buffer that joins them yields
the payloads that are not empty, without an error and to its end. -/
def RoundTrips (mode : Mode) (fs : List Frame) : Prop :=
  ∃ frames, fs.mapM (send mode) = .ok frames ∧
    onSocketRecv frames.flatten =
      ⟨nonEmpty (fs.map Frame.payload), none, frames.flatten.length, frames.flatten.length⟩

theorem mapM_send {mode : Mode} {fs : List Frame} {frames : List (List UInt8)}
    (h : fs.mapM (send mode) = .ok frames) : frames = fs.map (encode mode) := by
  induction fs generalizing frames with
  | nil => exact (Except.ok.inj h).symm
  | cons f fs ih =>
    rw [List.mapM_cons] at h
    have hsend : send mode f = .ok (encode mode f) := by
      by_cases hf : mode = .clientSide → f.payload.length < 2 ^ 32
      · exact send_eq hf
      · obtain ⟨rfl, hlong⟩ := Classical.not_imp.mp hf
        rw [send_error (not_lt.mp hlong)] at h
        cases h
    rw [hsend] at h
    cases hfs : fs.mapM (send mode) with
    | error e => rw [hfs] at h; cases h
    | ok gs =>
      rw [hfs] at h
      rw [List.map_cons, ← ih hfs]
      exact (Except.ok.inj h).symm

theorem mapM_send_short {mode : Mode} {fs : List Frame}
    (h : ∀ f ∈ fs, f.payload.length < 65536) :
    fs.mapM (send mode) = .ok (fs.map (encode mode)) := by
  induction fs with
  | nil => rfl
  | cons f fs ih =>
    have hf := h f List.mem_cons_self
    rw [List.mapM_cons, send_eq (fun _ => by omega), ih fun g hg => h g (List.mem_cons_of_mem _ hg)]
    rfl

/-- What the adapter emits is what is read from the buffer. -/
theorem onSocketRecv_reads {x z : List UInt8} {ps : List (List UInt8)} (h : Reads parse x ps z)
    (hz : z = [] ∨ parse z = none) :
    ∃ error offset, onSocketRecv x = ⟨nonEmpty ps, error, offset, x.length⟩ ∧
      (z = [] → error = none ∧ offset = x.length) ∧ (z ≠ [] → error ≠ none) := by
  have := recvLoop_reads h hz (r := ⟨x, 0⟩) rfl (Nat.zero_add _) []
  rwa [List.nil_append] at this

/-- The frames whose payloads are shorter than `65536` bytes come out again. -/
theorem roundTrips_of_short {mode : Mode} {fs : List Frame}
    (h : ∀ f ∈ fs, f.payload.length < 65536) : RoundTrips mode fs := by
  have hreads : Reads parse (fs.map (encode mode)).flatten (fs.map Frame.payload) [] := by
    rw [← List.flatMap_def, ← List.append_nil (fs.flatMap (encode mode))]
    exact reads_flatMap fs [] fun f hf => parse_encode_short (h f hf)
  obtain ⟨e, off, hrecv, hdone, -⟩ := onSocketRecv_reads hreads (.inl rfl)
  obtain ⟨rfl, rfl⟩ := hdone rfl
  exact ⟨_, mapM_send_short h, hrecv⟩

/-- The first frame that is too long spoils the buffer, when its declared length is not zero or
when it is the last. -/
theorem not_roundTrips_of_long {mode : Mode} {gs hs : List Frame} {f : Frame}
    (hgs : ∀ g ∈ gs, g.payload.length < 65536) (hf : 65536 ≤ f.payload.length)
    (hlast : f.payload.length % 65536 ≠ 0 ∨ hs = []) : ¬ RoundTrips mode (gs ++ f :: hs) := by
  rintro ⟨frames, hframes, hrecv⟩
  obtain rfl := mapM_send hframes
  obtain ⟨d, hd⟩ : ∃ d, d = declared f.payload.length := ⟨_, rfl⟩
  have hd' : d = f.payload.length % 65536 := by rw [hd, declared, if_neg (by omega)]
  have hlt : d < f.payload.length := by omega
  have hp : f.payload ≠ [] := by rintro h; rw [h] at hf; simp at hf
  -- the frames before, the frame that is cut, and whatever is found in the bytes that follow
  obtain ⟨y, hy⟩ : ∃ y, y = (xorMask (maskBytes mode f.mask) f.payload).drop d ++
    hs.flatMap (encode mode) := ⟨_, rfl⟩
  obtain ⟨qs, z, hqs, hz⟩ := exists_reads (fun x p y h => by
    have := parse_length h; omega : ∀ x p y, parse x = some (p, y) → y.length < x.length) y
  have hcut : parse (encode mode f ++ hs.flatMap (encode mode)) = some (f.payload.take d, y) := by
    rw [parse_encode, ← hd, hy]
  have hreads : Reads parse ((gs ++ f :: hs).map (encode mode)).flatten
      (gs.map Frame.payload ++ f.payload.take d :: qs) z := by
    rw [← List.flatMap_def, List.flatMap_append, List.flatMap_cons]
    exact (reads_flatMap gs _ fun g hg => parse_encode_short (hgs g hg)).append (.cons hcut hqs)
  obtain ⟨e, off, hemit, -⟩ := onSocketRecv_reads hreads hz
  have heq : nonEmpty (f.payload.take d :: qs) =
      f.payload :: nonEmpty (hs.map Frame.payload) := by
    have := congrArg Recv.emitted (hemit.symm.trans hrecv)
    simp only [nonEmpty, List.map_append, List.filter_append, List.map_cons] at this
    rw [nonEmpty, List.append_cancel_left this, List.filter_cons, if_pos (by simpa using hp)]
    rfl
  have hmem : f.payload ∈ f.payload.take d :: qs :=
    List.mem_of_mem_filter (heq ▸ List.mem_cons_self : f.payload ∈ nonEmpty _)
  have htake : f.payload.take d ≠ f.payload := fun h => by
    have := congrArg List.length h
    rw [List.length_take] at this
    omega
  rcases hlast with hne | rfl
  · have hcons : f.payload.take d ≠ [] := by
      intro h
      have := congrArg List.length h
      rw [List.length_take, List.length_nil] at this
      omega
    rw [nonEmpty, List.filter_cons, if_pos (by simpa using hcons)] at heq
    exact htake (List.cons.inj heq).1
  · rcases List.mem_cons.mp hmem with h | h
    · exact htake h.symm
    · have hsize := hqs.size_lt List.length
        (fun x p y h => by have := parse_length h; omega) _ h
      rw [hy, List.flatMap_nil, List.append_nil, List.length_drop, length_xorMask] at hsize
      omega

theorem exists_first_long {fs : List Frame} (h : ¬ ∀ f ∈ fs, f.payload.length < 65536) :
    ∃ gs f hs, fs = gs ++ f :: hs ∧ (∀ g ∈ gs, g.payload.length < 65536) ∧
      65536 ≤ f.payload.length := by
  induction fs with
  | nil => exact absurd (fun f hf => absurd hf List.not_mem_nil) h
  | cons f fs ih =>
    by_cases hf : f.payload.length < 65536
    · obtain ⟨gs, f', hs, rfl, hgs, hf'⟩ := ih fun hfs => h (List.forall_mem_cons.mpr ⟨hf, hfs⟩)
      exact ⟨f :: gs, f', hs, rfl, List.forall_mem_cons.mpr ⟨hf, hgs⟩, hf'⟩
    · exact ⟨[], f, fs, rfl, fun g hg => absurd hg List.not_mem_nil, not_lt.mp hf⟩

/-- **The round trip of a stream of frames.** Every beginning of a stream comes out of the adapter
again exactly when no payload has `65536` bytes or more; and the stream as a whole does not when
the first payload that long is the last, or its length is no multiple of `65536`. -/
theorem roundTrips_prefix_iff (mode : Mode) (fs : List Frame) :
    ((∀ gs, gs <+: fs → RoundTrips mode gs) ↔ ∀ f ∈ fs, f.payload.length < 65536) ∧
      ∀ gs f hs, fs = gs ++ f :: hs → (∀ g ∈ gs, g.payload.length < 65536) →
        65536 ≤ f.payload.length → (f.payload.length % 65536 ≠ 0 ∨ hs = []) →
          ¬ RoundTrips mode fs := by
  refine ⟨⟨fun h => ?_, fun h gs hgs => ?_⟩, ?_⟩
  · by_contra hlong
    obtain ⟨gs, f, hs, rfl, hgs, hf⟩ := exists_first_long hlong
    exact not_roundTrips_of_long hgs hf (.inr rfl) (h (gs ++ [f]) ⟨hs, by simp⟩)
  · exact roundTrips_of_short fun f hf => h f (hgs.subset hf)
  · rintro gs f hs rfl hgs hf hlast
    exact not_roundTrips_of_long hgs hf hlast

/-- A payload of `65536` zero bytes is not emitted. -/
theorem not_roundTrips_65536 :
    ¬ RoundTrips .serverSide [⟨List.replicate 65536 0, .binary, ⟨[0, 0, 0, 0], rfl⟩⟩] :=
  @not_roundTrips_of_long _ [] [] _ (fun _ h => absurd h List.not_mem_nil)
    (by rw [List.length_replicate]) (.inr rfl)

end Yamb.WebSocket
