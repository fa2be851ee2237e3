import Yamb.Http.Framer

/-!
# The reader takes the first frame of a stream

* `parse`: the first frame of a stream of bytes, and what follows it;
* **`readFrame_of_parse`**, `readFrame_of_parse_none`: `readFrame` reads what `parse` finds, and
  fails where it finds nothing;
* `readFrame_position_lt`: the reader moves forward.
-/

set_option autoImplicit false

namespace Yamb.WebSocket

open Framing

/-! ## What a frame is -/

/-- The length that seven bits of the length byte hold. -/
def sevenBits (b : UInt8) : ℕ := (b &&& 0x7f).toNat

/-- The number of bytes of the mask. -/
def maskLength (b : UInt8) : ℕ := if b &&& FRAME_FLAG_MASK ≠ 0 then 4 else 0

/-- The number of bytes of an extended length. -/
def lengthBytes (b : UInt8) : ℕ :=
  if b &&& 0x7f = 127 then 8 else if b &&& 0x7f = 126 then 2 else 0

/-- The number of bytes that are read ahead after the first two. -/
def window (b : UInt8) : ℕ := min (sevenBits b + maskLength b) 12

/-- The length of the payload, from the length byte and what follows it. -/
def payloadLength (b : UInt8) (t : List UInt8) : ℕ :=
  if lengthBytes b = 0 then sevenBits b else ofBE (t.take (lengthBytes b))

/-- The bytes in front of the payload, after the first two. -/
def headerLength (b : UInt8) : ℕ := lengthBytes b + maskLength b

/-- The first frame of a stream of bytes: its payload, and what follows. -/
def parse : List UInt8 → Option (List UInt8 × List UInt8)
  | _ :: b :: t =>
    if window b ≤ t.length ∧ headerLength b + payloadLength b t ≤ t.length then
      some (xorMask ((t.drop (lengthBytes b)).take (maskLength b))
          ((t.drop (headerLength b)).take (payloadLength b t)),
        t.drop (headerLength b + payloadLength b t))
    else none
  | _ => none

theorem maskLength_le (b : UInt8) : maskLength b ≤ 4 := by
  unfold maskLength
  split_ifs <;> omega

/-- What is read ahead covers the extended length and the mask. -/
theorem headerLength_le_window (b : UInt8) : headerLength b ≤ window b := by
  have h4 := maskLength_le b
  unfold headerLength window lengthBytes
  split_ifs with h₁ h₂
  · have : sevenBits b = 127 := by rw [sevenBits, h₁]; rfl
    omega
  · have : sevenBits b = 126 := by rw [sevenBits, h₂]; rfl
    omega
  · omega

theorem window_le (b : UInt8) : window b ≤ 12 := Nat.min_le_right _ _

/-! ## The reader reads the first frame -/

namespace BitReader

variable {r : BitReader} {len : ℕ}

theorem length_rest : r.rest.length = r.available := by
  simp [rest, available, limit]

theorem get_of_le (h : len ≤ r.rest.length) :
    r.get len = .ok (r.rest.take len, { r with position := r.position + len }) := by
  rw [get, if_neg (by rw [← length_rest]; omega)]

theorem get_of_lt (h : r.rest.length < len) : r.get len = .error "index out of range" := by
  rw [get, if_pos (by rw [← length_rest]; omega)]

end BitReader

theorem readWindow_eq (b : UInt8) (r : BitReader) : readWindow b r = r.get (window b) := by
  show (if sevenBits b + 2 + maskLength b < 14 then r.get (sevenBits b + maskLength b)
    else r.get 12) = r.get (min (sevenBits b + maskLength b) 12)
  split_ifs with h
  · rw [Nat.min_eq_left (by omega)]
  · rw [Nat.min_eq_right (by omega)]

theorem readLength_eq (limit : ℕ) {f b : UInt8} {u : List UInt8} (hu : lengthBytes b ≤ u.length) :
    readLength limit b ⟨f :: b :: u, 2⟩ =
      if payloadLength b u > limit then insufficientBuffer (payloadLength b u)
      else .ok (payloadLength b u, 2 + lengthBytes b, ⟨f :: b :: u, 2 + lengthBytes b⟩) := by
  have hget : ∀ k, k ≤ u.length → BitReader.get ⟨f :: b :: u, 2⟩ k =
      .ok (u.take k, ⟨f :: b :: u, 2 + k⟩) := fun k hk => BitReader.get_of_le hk
  unfold readLength
  by_cases h₁ : b &&& 0x7f = 127
  · have hk : lengthBytes b = 8 := if_pos h₁
    rw [if_pos h₁, hget 8 (hk ▸ hu), payloadLength, hk]
    rfl
  by_cases h₂ : b &&& 0x7f = 126
  · have hk : lengthBytes b = 2 := by rw [lengthBytes, if_neg h₁, if_pos h₂]
    rw [if_neg h₁, if_pos h₂, hget 2 (hk ▸ hu), payloadLength, hk]
    rfl
  · have hk : lengthBytes b = 0 := by rw [lengthBytes, if_neg h₁, if_neg h₂]
    rw [if_neg h₁, if_neg h₂, payloadLength, hk]
    rfl

theorem readMask_eq {f b : UInt8} {u : List UInt8} {k : ℕ} (po : ℕ) (hu : k + maskLength b ≤ u.length) :
    readMask b po ⟨f :: b :: u, 2 + k⟩ =
      .ok ((u.drop k).take (maskLength b), po + maskLength b) := by
  have hrest : (BitReader.mk (f :: b :: u) (2 + k)).rest = u.drop k := by
    rw [BitReader.rest, Nat.add_comm]
    rfl
  unfold readMask
  by_cases h : b &&& FRAME_FLAG_MASK ≠ 0
  · have hm : maskLength b = 4 := if_pos h
    rw [if_pos h, BitReader.get_of_le (by rw [hrest, List.length_drop]; omega), hrest, hm]
    rfl
  · have hm : maskLength b = 0 := if_neg h
    rw [if_neg h, hm, List.take_zero]
    rfl

@[simp] theorem length_unmask (bytes mask : List UInt8) (start len : ℕ) :
    (unmask bytes mask start len).length = bytes.length := by
  simp only [unmask, List.length_append, List.length_take, length_xorMask, List.length_drop]
  omega

theorem drop_unmask {bytes mask : List UInt8} {start len : ℕ} (h : start + len ≤ bytes.length) :
    (unmask bytes mask start len).drop start =
      xorMask mask ((bytes.drop start).take len) ++ bytes.drop (start + len) := by
  rw [unmask, List.append_assoc, List.drop_left' (by rw [List.length_take]; omega)]

theorem drop_unmask_end {bytes mask : List UInt8} {start len : ℕ}
    (h : start + len ≤ bytes.length) :
    (unmask bytes mask start len).drop (start + len) = bytes.drop (start + len) := by
  rw [unmask, List.drop_left']
  rw [List.length_append, List.length_take, length_xorMask, List.length_take, List.length_drop]
  omega

/-- The bytes that are read ahead hold the length. -/
theorem payloadLength_take {b : UInt8} {w : ℕ} (hw : lengthBytes b ≤ w) (t v : List UInt8)
    (ht : w ≤ t.length) : payloadLength b (t.take w ++ v) = payloadLength b t := by
  unfold payloadLength
  rw [List.take_append_of_le_length (by rw [List.length_take]; omega), List.take_take,
    Nat.min_eq_left hw]

/-- The bytes that are read ahead hold the mask. -/
theorem mask_take {b : UInt8} {w : ℕ} (hw : headerLength b ≤ w) (t v : List UInt8)
    (ht : w ≤ t.length) :
    ((t.take w ++ v).drop (lengthBytes b)).take (maskLength b) =
      (t.drop (lengthBytes b)).take (maskLength b) := by
  unfold headerLength at hw
  rw [List.drop_append_of_le_length (by rw [List.length_take]; omega),
    List.take_append_of_le_length (by rw [List.length_drop, List.length_take]; omega),
    List.drop_take, List.take_take, Nat.min_eq_left (by omega)]

/-- The length in a header whose window is there, filled up with bytes nobody reads. -/
theorem readLength_window (limit : ℕ) {f b : UInt8} {t : List UInt8} (hw : window b ≤ t.length)
    (v : List UInt8) :
    readLength limit b ⟨f :: b :: (t.take (window b) ++ v), 2⟩ =
      if payloadLength b t > limit then insufficientBuffer (payloadLength b t)
      else .ok (payloadLength b t, 2 + lengthBytes b,
        ⟨f :: b :: (t.take (window b) ++ v), 2 + lengthBytes b⟩) := by
  have hl : lengthBytes b ≤ window b := (Nat.le_add_right _ _).trans (headerLength_le_window b)
  have hu : lengthBytes b ≤ (t.take (window b) ++ v).length := by
    rw [List.length_append, List.length_take]
    omega
  rw [readLength_eq limit hu, payloadLength_take hl t v hw]

/-- The mask in such a header. -/
theorem readMask_window (po : ℕ) {f b : UInt8} {t : List UInt8} (hw : window b ≤ t.length)
    (v : List UInt8) :
    readMask b po ⟨f :: b :: (t.take (window b) ++ v), 2 + lengthBytes b⟩ =
      .ok ((t.drop (lengthBytes b)).take (maskLength b), po + maskLength b) := by
  have hh := headerLength_le_window b
  have hu : headerLength b ≤ (t.take (window b) ++ v).length := by
    rw [List.length_append, List.length_take]
    omega
  rw [readMask_eq po hu, mask_take hh t v hw]

theorem get_flags (f b : UInt8) (u : List UInt8) :
    BitReader.get ⟨f :: b :: u, 0⟩ 1 = .ok ([f], ⟨f :: b :: u, 1⟩) :=
  BitReader.get_of_le (Nat.le_add_left 1 _)

theorem get_lengthByte (f b : UInt8) (u : List UInt8) :
    BitReader.get ⟨f :: b :: u, 1⟩ 1 = .ok ([b], ⟨f :: b :: u, 2⟩) :=
  BitReader.get_of_le (Nat.le_add_left 1 _)

/-- What `readFrame` does when its window is there. -/
theorem readFrame_eq {r : BitReader} {f b : UInt8} {t : List UInt8} (h : r.rest = f :: b :: t)
    (hw : window b ≤ t.length) :
    readFrame r =
      if payloadLength b t > r.limit then insufficientBuffer (payloadLength b t)
      else if r.position + (2 + headerLength b) + payloadLength b t > r.limit then
        .error "index out of range"
      else
        let bytes := unmask r.bytes ((t.drop (lengthBytes b)).take (maskLength b))
          (r.position + (2 + headerLength b)) (payloadLength b t)
        .ok ((bytes.drop (r.position + (2 + headerLength b))).take (payloadLength b t),
          ⟨bytes, r.position + (2 + headerLength b) + payloadLength b t⟩) := by
  have hw12 := window_le b
  have hlen : t.length + 2 = r.available := by rw [← BitReader.length_rest, h]; rfl
  have hget : r.get 2 = .ok ([f, b], ⟨r.bytes, r.position + 2⟩) := by
    rw [BitReader.get_of_le (by rw [BitReader.length_rest]; omega), h]
    rfl
  have hrest : (BitReader.mk r.bytes (r.position + 2)).rest = t := by
    rw [BitReader.rest, ← List.drop_drop]
    exact congrArg (List.drop 2) h
  have hwindow : readWindow b ⟨r.bytes, r.position + 2⟩ =
      .ok (t.take (window b), ⟨r.bytes, r.position + 2 + window b⟩) := by
    rw [readWindow_eq, BitReader.get_of_le (by rw [hrest]; exact hw), hrest]
  have hskip : BitReader.skip ⟨r.bytes, r.position + 2 + window b⟩ 2 =
      .ok ⟨r.bytes, r.position + 2 + window b + 2⟩ := by
    rw [BitReader.skip, if_neg]
    unfold BitReader.available at hlen
    show ¬ 2 > r.limit
    omega
  -- the header is the two bytes and the window, filled up with bytes nobody reads
  obtain ⟨v, hv⟩ : ∃ v, v = List.replicate (MAX_HEADER_LENGTH - ([f, b] ++ t.take (window b)).length)
    (0 : UInt8) := ⟨_, rfl⟩
  have hheader : [f, b] ++ t.take (window b) ++ v = f :: b :: (t.take (window b) ++ v) := rfl
  simp only [readFrame, hget, bind, Except.bind, List.getD_cons_succ, List.getD_cons_zero, hwindow,
    hskip, ← hv, hheader, get_flags, get_lengthByte, readLength_window r.limit hw]
  by_cases hL : payloadLength b t > r.limit
  · rw [if_pos hL, if_pos hL]
    rfl
  rw [if_neg hL, if_neg hL]
  simp only [readMask_window (2 + lengthBytes b) hw]
  rw [if_neg hL, Nat.add_assoc 2, ← headerLength]
  unfold BitReader.seek BitReader.limit
  rw [length_unmask]
  split_ifs
  · rfl
  · rfl

theorem drop_of_rest {r : BitReader} {f b : UInt8} {t : List UInt8} (h : r.rest = f :: b :: t)
    (n : ℕ) : r.bytes.drop (r.position + (2 + n)) = t.drop n := by
  have hr : r.bytes.drop r.position = f :: b :: t := h
  rw [← List.drop_drop, hr, Nat.add_comm]
  rfl

theorem position_of_rest {r : BitReader} {f b : UInt8} {t : List UInt8} (h : r.rest = f :: b :: t) :
    r.position + (2 + t.length) = r.limit := by
  have hlen : (f :: b :: t).length = r.limit - r.position := by
    rw [← h, BitReader.length_rest]
    rfl
  simp only [List.length_cons] at hlen
  omega

/-- Reading succeeds on what starts with a frame, and moves behind it. -/
theorem readFrame_of_parse {r : BitReader} {p z : List UInt8} (h : parse r.rest = some (p, z)) :
    ∃ r', readFrame r = .ok (p, r') ∧ r'.rest = z ∧ r'.limit = r.limit ∧
      r'.position + z.length = r.limit := by
  match hr : r.rest, h with
  | f :: b :: t, h =>
    have hend := position_of_rest hr
    simp only [parse] at h
    split_ifs at h with hc
    obtain ⟨hw, hfit⟩ := hc
    simp only [Option.some.injEq, Prod.mk.injEq] at h
    obtain ⟨rfl, rfl⟩ := h
    have hin : r.position + (2 + headerLength b) + payloadLength b t ≤ r.bytes.length := by
      unfold BitReader.limit at hend
      omega
    have heq := readFrame_eq hr hw
    rw [if_neg (by omega), if_neg (by unfold BitReader.limit; omega)] at heq
    refine ⟨⟨unmask r.bytes ((t.drop (lengthBytes b)).take (maskLength b))
      (r.position + (2 + headerLength b)) (payloadLength b t),
      r.position + (2 + headerLength b) + payloadLength b t⟩, heq.trans ?_, ?_, ?_, ?_⟩
    · show Except.ok (((unmask _ _ _ _).drop _).take _, _) = _
      rw [drop_unmask hin, drop_of_rest hr,
        List.take_left' (by rw [length_xorMask, List.length_take, List.length_drop]; omega)]
    · show (unmask _ _ _ _).drop _ = _
      rw [drop_unmask_end hin, ← drop_of_rest hr]
      congr 1
      omega
    · exact length_unmask _ _ _ _
    · rw [List.length_drop]
      show r.position + (2 + headerLength b) + payloadLength b t + _ = r.limit
      omega

theorem readFrame_of_parse_none {r : BitReader} (h : parse r.rest = none) :
    ∃ e, readFrame r = .error e := by
  match hr : r.rest, h with
  | [], _ =>
    have hget : r.get 2 = .error "index out of range" := BitReader.get_of_lt (by rw [hr]; decide)
    exact ⟨_, by rw [readFrame, hget]; rfl⟩
  | [_], _ =>
    have hget : r.get 2 = .error "index out of range" :=
      BitReader.get_of_lt (by rw [hr, List.length_singleton]; decide)
    exact ⟨_, by rw [readFrame, hget]; rfl⟩
  | f :: b :: t, h =>
    have hend := position_of_rest hr
    simp only [parse] at h
    by_cases hw : window b ≤ t.length
    · have hfit : ¬ headerLength b + payloadLength b t ≤ t.length := fun hfit => by
        rw [if_pos ⟨hw, hfit⟩] at h
        cases h
      rw [readFrame_eq hr hw]
      split_ifs with h₁ h₂
      · exact ⟨_, rfl⟩
      · exact ⟨_, rfl⟩
      · omega
    · have hget : r.get 2 = .ok ([f, b], ⟨r.bytes, r.position + 2⟩) := by
        rw [BitReader.get_of_le (by rw [hr]; exact Nat.le_add_left 2 _), hr]
        rfl
      have hrest : (BitReader.mk r.bytes (r.position + 2)).rest = t := drop_of_rest hr 0
      have hwindow : readWindow b ⟨r.bytes, r.position + 2⟩ = .error "index out of range" := by
        rw [readWindow_eq, BitReader.get_of_lt (by rw [hrest]; omega)]
      refine ⟨"index out of range", ?_⟩
      simp only [readFrame, hget, bind, Except.bind, List.getD_cons_succ, List.getD_cons_zero,
        hwindow]

theorem parse_length {x p z : List UInt8} (h : parse x = some (p, z)) :
    p.length + z.length + 2 ≤ x.length := by
  match x, h with
  | f :: b :: t, h =>
    simp only [parse] at h
    split_ifs at h with hc
    simp only [Option.some.injEq, Prod.mk.injEq] at h
    obtain ⟨rfl, rfl⟩ := h
    rw [length_xorMask, List.length_take, List.length_drop, List.length_drop, List.length_cons,
      List.length_cons]
    omega

theorem readFrame_position_lt {r r' : BitReader} {p : List UInt8}
    (h : readFrame r = .ok (p, r')) : r.position < r'.position := by
  cases hp : parse r.rest with
  | none =>
    obtain ⟨e, he⟩ := readFrame_of_parse_none hp
    rw [he] at h
    cases h
  | some pz =>
    obtain ⟨r'', hr, -, -, hend⟩ := readFrame_of_parse hp
    obtain rfl : r'' = r' := congrArg Prod.snd (Except.ok.inj (hr.symm.trans h))
    have hlt := parse_length hp
    rw [BitReader.length_rest] at hlt
    unfold BitReader.available at hlt
    omega

end Yamb.WebSocket
