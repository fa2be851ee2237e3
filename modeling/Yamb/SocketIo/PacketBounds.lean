import Yamb.Buffer.Bounds
import Yamb.Lib.Json.Number

/-!
# The bytes that a packet is read from

`Packet::read` on a reader of its buffer.

* `readHeader`, `readMessage`, `Packet.readFrom`, `Packet.readBuffer`: the calls that read a packet;
* `readHeader_gives`: what is read in front of the id lies in the buffer;
* `BlanksFit`, **`readBuffer_accesses_iff`**: when reading a packet stays in the buffer;
* **`readBuffer_eq`**: it gives then what `Packet.read` finds in the bytes of the buffer;
* **`run_inBounds_and_readBuffer_iff`**: the calls of a reader, and the reading of a packet.
-/

set_option autoImplicit false

namespace Yamb.SocketIo

open Buffer
open Buffer.BitReader (Gives)
open Json (NumberFormat)

variable {ν : Type} (fmt : NumberFormat ν) {α : Type}

/-! ### Reading a buffer -/

/-- A call of the reader that throws `std::out_of_range`. -/
def outOfRange (x : Reading α) : Op BitReader ReadFault α := x.mapError fun _ => .outOfRange

/-- The part of `Packet::read` in front of the id: the frame, the type and the namespace. -/
def readHeader : Op BitReader ReadFault (ℤ × ℤ × List UInt8) := do
  let frame ← outOfRange (BitReader.get 1)
  let frame := atoi (frame.getD 0 0)
  let type ← if frame = 4 then do
      let type ← outOfRange (BitReader.get 1)
      pure (atoi (type.getD 0 0))
    else pure (-1)
  let c ← outOfRange BitReader.peek
  let nsp ← if c = 0x2f then do
      let (val, _) ← outOfRange (BitReader.readToNext 0x2c)
      pure ([0x2f] ++ val)
    else pure [0x2f]
  pure (frame, type, nsp)

/-- The part of `Packet::read` behind the id: the event and the message. -/
def readMessage (event : List UInt8) : Op BitReader ReadFault (List UInt8 × List UInt8) := do
  let available ← .gets BitReader.available
  if available = 0 then pure (event, []) else do
    let temp ← outOfRange (BitReader.get available)
    .lift (readJson fmt event temp)

/-- The `unsigned` whose memory holds the `int` -1. -/
def noId : ℕ := 2 ^ 32 - 1

/-- `Packet::read` on a reader of the buffer. The id is an `int` that is read as an `unsigned`. -/
def Packet.readFrom (p : Packet) : Op BitReader ReadFault Packet := do
  let h ← readHeader
  let id ← outOfRange (BitReader.readNextNumber noId)
  let json ← readMessage fmt p.event
  let size ← .gets BitReader.position
  pure { p with
    frame := h.1
    type := h.2.1
    id := toInt32 id.1
    nsp := h.2.2
    event := json.1
    message := json.2
    size := size }

/-- `Packet::read`. -/
def Packet.readBuffer (p : Packet) (bytes : ℕ → UInt8) (limit : ℕ) (h : limit < 2 ^ 63) :
    Except ReadFault Packet × BitReader :=
  if limit = 0 then (.error .assertion, BitReader.new bytes limit h .network)
  else p.readFrom fmt (BitReader.new bytes limit h .network)

/-! ### The bytes in front of the id -/

/-- The frame, the type and the namespace in the bytes of a buffer, and what is left behind them. -/
def header : List UInt8 → Option ((ℤ × ℤ × List UInt8) × List UInt8)
  | [] => none
  | f :: rest =>
    if atoi f = 4 then rest.head?.map fun t => nspOf (atoi f) (atoi t) rest.tail
    else some (nspOf (atoi f) (-1) rest)
where
  /-- The namespace. -/
  nspOf (frame type : ℤ) (rest : List UInt8) : (ℤ × ℤ × List UInt8) × List UInt8 :=
    if rest.head? = some 0x2f then
      ((frame, type, [0x2f] ++ rest.takeWhile (· ≠ 0x2c)), rest.dropWhile (· ≠ 0x2c))
    else ((frame, type, [0x2f]), rest)

variable {r : BitReader} {h : ℤ × ℤ × List UInt8} {rest : List UInt8}

theorem outOfRange_gives {x : Reading α} {a : α} {n : ℕ} (h : Gives x r a n) :
    Gives (outOfRange x) r a n := h.mapError _

theorem headD_eq_iff (l : List UInt8) : l.headD 0 = 0x2f ↔ l.head? = some 0x2f := by
  cases l with
  | nil => decide
  | cons b t => simp

/-- The part of `readHeader` that reads the namespace. -/
theorem readNsp_gives (hpos : r.position ≤ r.limit) (frame type : ℤ) :
    ∃ n, r.position + n ≤ r.limit ∧ r.rest.drop n = (header.nspOf frame type r.rest).2 ∧
      Gives (do
        let c ← outOfRange BitReader.peek
        let nsp ← if c = 0x2f then do
            let (val, _) ← outOfRange (BitReader.readToNext 0x2c)
            pure ([0x2f] ++ val)
          else pure [0x2f]
        pure (frame, type, nsp) : Op BitReader ReadFault (ℤ × ℤ × List UInt8)) r
        (header.nspOf frame type r.rest).1 n := by
  have hpeek := outOfRange_gives (BitReader.peek_gives hpos)
  by_cases hnsp : r.rest.head? = some 0x2f
  · have hcount := r.count_le (· ≠ 0x2c)
    rw [header.nspOf, if_pos hnsp]
    refine ⟨r.count (· ≠ 0x2c), by omega, BitReader.drop_count _ r, ?_⟩
    refine hpeek.bind (fun T => ?_) (Nat.zero_add _).symm
    have hread := outOfRange_gives (BitReader.readToNext_gives (r := r.moved 0 T) hpos 0x2c)
    rw [BitReader.rest_moved_zero, BitReader.count_moved_zero] at hread
    rw [if_pos ((headD_eq_iff _).mpr hnsp)]
    refine hread.bind (m := 0) (fun U => ?_) (Nat.add_zero _).symm
    exact (Gives.of_pure _ _).bind (m := 0) (fun U => Gives.of_pure _ _) rfl
  · rw [header.nspOf, if_neg hnsp]
    refine ⟨0, hpos, List.drop_zero, ?_⟩
    refine hpeek.bind (m := 0) (fun T => ?_) rfl
    rw [if_neg (mt (headD_eq_iff _).mp hnsp)]
    exact (Gives.of_pure _ _).bind (m := 0) (fun U => Gives.of_pure _ _) rfl

theorem readHeader_gives (hpos : r.position ≤ r.limit) (hh : header r.rest = some (h, rest)) :
    ∃ n, r.position + n ≤ r.limit ∧ r.rest.drop n = rest ∧ Gives readHeader r h n := by
  match hbuf : r.rest, hh with
  | f :: t, hh =>
    have hstart : r.rest = [f] ++ t := hbuf
    obtain ⟨T, hT, hget⟩ := outOfRange_gives (BitReader.get_gives_append (l := 1) hpos rfl hstart)
    have hrest : (r.moved 1 T).rest = t := BitReader.rest_moved_append rfl hstart T
    have hpos₁ : (r.moved 1 T).position ≤ (r.moved 1 T).limit :=
      BitReader.position_moved_append hpos rfl hstart T
    by_cases hf : atoi f = 4
    · match t, hrest, hh with
      | [], _, hh =>
        rw [header, if_pos hf] at hh
        cases hh
      | b :: t, hrest, hh =>
        rw [header, if_pos hf, List.head?_cons, Option.map_some, Option.some_inj, List.tail_cons] at hh
        have hstart' : r.rest = [f, b] ++ t := hbuf
        obtain ⟨U, hU, hget'⟩ := outOfRange_gives
          (BitReader.get_gives_append (l := 1) (u := [b]) hpos₁ rfl hrest)
        rw [BitReader.moved_moved] at hget'
        have hrest' : (r.moved 2 (T ++ U)).rest = t := BitReader.rest_moved_append rfl hstart' _
        have hpos₂ : (r.moved 2 (T ++ U)).position ≤ (r.moved 2 (T ++ U)).limit :=
          BitReader.position_moved_append hpos rfl hstart' _
        obtain ⟨n, hn, hdrop, V, hV, hnsp⟩ := readNsp_gives hpos₂ (atoi f) (atoi b)
        rw [hrest', hh] at hdrop hnsp
        refine ⟨2 + n, by rw [← Nat.add_assoc]; exact hn, ?_, (T ++ U) ++ V,
          (hT.append hU).append hV, ?_⟩
        · rw [Nat.add_comm, List.drop_succ_cons, List.drop_succ_cons]
          exact hdrop
        · rw [readHeader, Op.bind_of_ok hget, List.getD_cons_zero, if_pos hf,
            Op.bind_of_ok hget', ← BitReader.moved_moved r 2 n (T ++ U) V]
          exact hnsp
    · rw [header, if_neg hf, Option.some_inj] at hh
      obtain ⟨n, hn, hdrop, U, hU, hnsp⟩ := readNsp_gives hpos₁ (atoi f) (-1)
      rw [hrest, hh] at hdrop hnsp
      refine ⟨1 + n, by rw [← Nat.add_assoc]; exact hn, ?_, T ++ U, hT.append hU, ?_⟩
      · rw [Nat.add_comm, List.drop_succ_cons]
        exact hdrop
      · rw [readHeader, Op.bind_of_ok hget, List.getD_cons_zero, if_neg hf, ← BitReader.moved_moved]
        exact hnsp

theorem readHeader_error (hpos : r.position ≤ r.limit) (hne : r.rest ≠ [])
    (hh : header r.rest = none) :
    ∃ T, r.Inside T ∧ readHeader r = (.error .outOfRange, r.moved 1 T) := by
  match hbuf : r.rest, hne, hh with
  | f :: t, _, hh =>
    have hstart : r.rest = [f] ++ t := hbuf
    obtain ⟨T, hT, hget⟩ := outOfRange_gives (BitReader.get_gives_append (l := 1) hpos rfl hstart)
    have hrest : (r.moved 1 T).rest = t := BitReader.rest_moved_append rfl hstart T
    have hpos₁ : (r.moved 1 T).position ≤ (r.moved 1 T).limit :=
      BitReader.position_moved_append hpos rfl hstart T
    by_cases hf : atoi f = 4
    · rw [header, if_pos hf, Option.map_eq_none_iff, List.head?_eq_none_iff] at hh
      have herror : outOfRange (BitReader.get 1) (r.moved 1 T) =
          (.error .outOfRange, r.moved 1 T) :=
        Op.mapError_of_error (BitReader.get_eq_error hpos₁ (by rw [hrest, hh]; exact Nat.one_pos))
      refine ⟨T, hT, ?_⟩
      rw [readHeader, Op.bind_of_ok hget, List.getD_cons_zero, if_pos hf, Op.bind_of_error herror]
    · rw [header, if_neg hf] at hh
      cases hh

/-- The packet that `Packet.read` makes of a header and of the bytes that are left behind it. -/
def Packet.ofHeader (p : Packet) (h : ℤ × ℤ × List UInt8) (rest : List UInt8) (size : ℕ) :
    Except ReadFault Packet :=
  (if (readNextNumber (-1) rest).2 = [] then pure (p.event, [])
    else readJson fmt p.event (readNextNumber (-1) rest).2).map fun m =>
      { p with
        frame := h.1
        type := h.2.1
        id := (readNextNumber (-1) rest).1
        nsp := h.2.2
        event := m.1
        message := m.2
        size := size }

theorem read_of_header {p : Packet} {buf : List UInt8} (hh : header buf = some (h, rest)) :
    p.read fmt buf = p.ofHeader fmt h rest buf.length := by
  match buf, hh with
  | f :: t, hh =>
    unfold Packet.read Packet.ofHeader
    dsimp only
    by_cases hf : atoi f = 4
    · match t, hh with
      | [], hh =>
        rw [header, if_pos hf] at hh
        cases hh
      | b :: t, hh =>
        rw [header, if_pos hf, List.head?_cons, Option.map_some, Option.some_inj, List.tail_cons,
          header.nspOf] at hh
        rw [if_pos hf]
        split_ifs at hh with hslash <;> obtain ⟨rfl, rfl⟩ := Prod.mk.inj hh <;>
          simp only [hslash, if_true, if_false, pure_bind] <;> split_ifs <;> rfl
    · rw [header, if_neg hf, Option.some_inj, header.nspOf] at hh
      rw [if_neg hf]
      split_ifs at hh with hslash <;> obtain ⟨rfl, rfl⟩ := Prod.mk.inj hh <;>
        simp only [hslash, if_true, if_false, pure_bind] <;> split_ifs <;> rfl

/-! ### The id and the message -/

/-- `readNextNumber` on what is left to read counts what the reader counts. -/
theorem readNextNumber_rest (r : BitReader) (val : ℤ) : readNextNumber val r.rest =
    (if r.countNext Decimal.isDigit = 0 then val else toInt32 (strtoi
        ((r.rest.drop r.blanks).take (r.countNext Decimal.isDigit))),
      r.rest.drop (r.blanks + r.countNext Decimal.isDigit)) := by
  have hcount : r.countNext Decimal.isDigit = r.blanks +
      (((r.rest.drop r.blanks).drop r.blanks).takeWhile Decimal.isDigit).length := by
    rw [List.drop_drop, ← Nat.two_mul]
    rfl
  rw [hcount, ← List.drop_drop]
  rfl

/-- The number that is read is the one in what is left to read, when the blanks in front of it fit. -/
theorem number_eq (hfit : r.position + 2 * r.blanks ≤ r.limit) (val : ℕ) :
    toInt32 (if r.countNext Decimal.isDigit = 0 then val else strtoi
      ((List.range' (r.position + r.blanks) (r.countNext Decimal.isDigit)).map r.bytes)) =
      (readNextNumber (toInt32 val) r.rest).1 := by
  have htake := BitReader.take_rest (r := r.moved r.blanks []) (l := r.countNext Decimal.isDigit)
    (by
      rw [BitReader.rest_moved, List.length_drop]
      exact BitReader.countNext_le_of_fit _ hfit)
  rw [BitReader.rest_moved] at htake
  rw [readNextNumber_rest, htake, apply_ite toInt32]
  rfl

/-- The bytes behind the id are all read. -/
theorem readMessage_eq (hpos : r.position ≤ r.limit) (event : List UInt8) :
    ∃ T, r.Inside T ∧ readMessage fmt event r =
      (if r.rest = [] then .ok (event, []) else readJson fmt event r.rest,
        r.moved r.rest.length T) := by
  have havail := BitReader.available_eq hpos
  unfold readMessage
  rw [Op.gets_bind_apply, havail]
  by_cases hnil : r.rest = []
  · refine ⟨[], fun _ ha => (List.not_mem_nil ha).elim, ?_⟩
    rw [if_pos hnil, hnil, if_pos List.length_nil, List.length_nil, BitReader.moved_zero]
    rfl
  · obtain ⟨T, hT, hget⟩ := outOfRange_gives (BitReader.get_gives hpos (Nat.le_refl r.rest.length))
    refine ⟨T, hT, ?_⟩
    rw [if_neg hnil, if_neg (mt List.length_eq_zero_iff.mp hnil), Op.bind_of_ok hget,
      List.take_length]
    rfl

/-! ### The whole packet -/

/-- The blanks in front of the id are not more than the bytes behind them. -/
def BlanksFit (buf : List UInt8) : Prop :=
  ∀ h rest, header buf = some (h, rest) →
    2 * (rest.takeWhile (· = 0x20)).length ≤ rest.length

/-- What `readFrom` makes of what its calls read. -/
theorem readFrom_eq {p : Packet} {id : ℕ × ℕ} {r₁ r₂ r₃ : BitReader}
    (hheader : readHeader r = (.ok h, r₁))
    (hnumber : outOfRange (BitReader.readNextNumber noId) r₁ = (.ok id, r₂))
    (hmessage : readMessage fmt p.event r₂ =
      (if rest = [] then .ok (p.event, []) else readJson fmt p.event rest, r₃)) :
    p.readFrom fmt r =
      ((if rest = [] then .ok (p.event, []) else readJson fmt p.event rest).map fun json => { p with
          frame := h.1
          type := h.2.1
          id := toInt32 id.1
          nsp := h.2.2
          event := json.1
          message := json.2
          size := r₃.position }, r₃) := by
  rw [Packet.readFrom, Op.bind_of_ok hheader, Op.bind_of_ok hnumber]
  rcases hres : (if rest = [] then Except.ok (p.event, []) else
    readJson fmt p.event rest) with e | json
  · rw [hres] at hmessage
    rw [Op.bind_of_error hmessage]
    rfl
  · rw [hres] at hmessage
    rw [Op.bind_of_ok hmessage]
    rfl

/-- What `readFrom` does when it comes to the id. -/
theorem readFrom_of_header (hpos : r.position ≤ r.limit) (p : Packet)
    (hh : header r.rest = some (h, rest)) : ∃ A,
      (r.Inside A ↔ 2 * (rest.takeWhile (· = 0x20)).length ≤ rest.length) ∧
      (p.readFrom fmt r).2 = r.moved r.rest.length A ∧
      (r.Inside A → (p.readFrom fmt r).1 = p.ofHeader fmt h rest r.limit) := by
  obtain ⟨n, hn, hdrop, T, hT, hheader⟩ := readHeader_gives hpos hh
  have hlen := r.length_rest
  have hrest : (r.moved n T).rest = rest := by rw [BitReader.rest_moved, hdrop]
  have hlen' := (r.moved n T).length_rest
  have hblanks := (r.moved n T).blanks_le
  have hposition : (r.moved n T).position = r.position + n := rfl
  have hlimit : (r.moved n T).limit = r.limit := rfl
  obtain ⟨A, hnumber, hA⟩ := BitReader.readNextNumber_eq (r := r.moved n T) hn noId
  have hfits : (r.moved n T).position + 2 * (r.moved n T).blanks ≤ (r.moved n T).limit ↔
      2 * (rest.takeWhile (· = 0x20)).length ≤ rest.length := by
    have hcount : (r.moved n T).blanks = (rest.takeWhile (· = 0x20)).length := by
      rw [← hrest]
      rfl
    rw [← hcount, ← hrest]
    omega
  obtain ⟨m, hm⟩ : ∃ m, m = (r.moved n T).blanks +
      min ((r.moved n T).countNext Decimal.isDigit) (rest.length - (r.moved n T).blanks) := ⟨_, rfl⟩
  rw [hrest, ← hm] at hnumber
  rw [BitReader.moved_moved] at hnumber
  rw [hrest] at hlen'
  have hpos₂ : (r.moved (n + m) (T ++ A)).position ≤ (r.moved (n + m) (T ++ A)).limit := by
    show r.position + (n + m) ≤ r.limit
    omega
  obtain ⟨U, hU, hmessage⟩ := readMessage_eq fmt hpos₂ p.event
  have hrest₂ : (r.moved (n + m) (T ++ A)).rest = rest.drop m := by
    rw [BitReader.rest_moved, ← List.drop_drop, hdrop]
  have hend : n + m + (rest.drop m).length = r.rest.length := by
    rw [List.length_drop]
    omega
  rw [hrest₂, BitReader.moved_moved, hend] at hmessage
  obtain ⟨id, hid⟩ : ∃ id, id = if (r.moved n T).countNext Decimal.isDigit = 0 then noId
      else strtoi ((List.range' ((r.moved n T).position + (r.moved n T).blanks)
        ((r.moved n T).countNext Decimal.isDigit)).map (r.moved n T).bytes) := ⟨_, rfl⟩
  rw [← hid] at hnumber
  have hnumber' : outOfRange (BitReader.readNextNumber noId) (r.moved n T) =
      (.ok (id, (r.moved n T).countNext Decimal.isDigit), r.moved (n + m) (T ++ A)) :=
    Op.mapError_of_ok hnumber
  have hrun := readFrom_eq fmt hheader hnumber' hmessage
  refine ⟨T ++ A ++ U, ?_, congrArg Prod.snd hrun, ?_⟩
  · rw [← hfits, ← hA]
    constructor
    · exact fun h a ha => h a (List.mem_append_left _ (List.mem_append_right _ ha))
    · exact fun h => (hT.append h).append hU
  · intro hinside
    have hfit := hA.mp fun a ha =>
      hinside a (List.mem_append_left _ (List.mem_append_right _ ha))
    have hfst := number_eq hfit noId
    have hsnd := congrArg Prod.snd (readNextNumber_rest (r.moved n T) (-1))
    rw [← hid, hrest] at hfst
    rw [hrest] at hsnd
    have hnext := BitReader.countNext_le_of_fit Decimal.isDigit hfit
    rw [hrest] at hnext
    rw [Nat.min_eq_left hnext] at hm
    have hsize : (r.moved r.rest.length (T ++ A ++ U)).position = r.limit := by
      show r.position + r.rest.length = r.limit
      omega
    rw [hrun, Packet.ofHeader, hsnd, ← hm, hsize, hfst]
    rfl

theorem read_of_header_none {p : Packet} {buf : List UInt8} (hne : buf ≠ [])
    (hh : header buf = none) : p.read fmt buf = .error .outOfRange := by
  match buf, hne, hh with
  | f :: t, _, hh =>
    by_cases hf : atoi f = 4
    · rw [header, if_pos hf, Option.map_eq_none_iff, List.head?_eq_none_iff] at hh
      rw [hh]
      unfold Packet.read
      dsimp only
      rw [if_pos hf]
      rfl
    · rw [header, if_neg hf] at hh
      cases hh

variable (bytes : ℕ → UInt8) (limit : ℕ) (hlimit : limit < 2 ^ 63)

theorem rest_new : (BitReader.new bytes limit hlimit .network).rest = (List.range limit).map bytes := by
  rw [List.range_eq_range']
  rfl

theorem readBuffer_cases (p : Packet) : ∃ A,
    ((BitReader.new bytes limit hlimit .network).Inside A ↔ BlanksFit ((List.range limit).map bytes)) ∧
    (p.readBuffer fmt bytes limit hlimit).2.accessed = A ∧
    (BlanksFit ((List.range limit).map bytes) →
      (p.readBuffer fmt bytes limit hlimit).1 = p.read fmt ((List.range limit).map bytes)) := by
  have hrest := rest_new bytes limit hlimit
  unfold Packet.readBuffer
  by_cases hzero : limit = 0
  · subst hzero
    refine ⟨[], ?_, rfl, fun _ => rfl⟩
    exact iff_of_true (fun _ ha => (List.not_mem_nil ha).elim) fun h rest hh => by cases hh
  · rw [if_neg hzero, ← hrest]
    have hne : (BitReader.new bytes limit hlimit .network).rest ≠ [] := by
      rw [hrest]
      simpa using hzero
    cases hh : header (BitReader.new bytes limit hlimit .network).rest with
    | none =>
      obtain ⟨T, hT, hheader⟩ := readHeader_error (Nat.zero_le _) hne hh
      have hrun : p.readFrom fmt (BitReader.new bytes limit hlimit .network) =
          (.error .outOfRange, (BitReader.new bytes limit hlimit .network).moved 1 T) := by
        rw [Packet.readFrom, Op.bind_of_error hheader]
      rw [hrun]
      refine ⟨T, iff_of_true hT fun h rest hsome => ?_, rfl,
        fun _ => (read_of_header_none fmt hne hh).symm⟩
      rw [hh] at hsome
      cases hsome
    | some hr =>
      obtain ⟨h, rest⟩ := hr
      obtain ⟨A, hA, hsnd, hfst⟩ := readFrom_of_header fmt (Nat.zero_le _) p hh
      have hfits : BlanksFit (BitReader.new bytes limit hlimit .network).rest ↔
          2 * (rest.takeWhile (· = 0x20)).length ≤ rest.length := by
        constructor
        · exact fun hfit => hfit h rest hh
        · intro hle h' rest' hsome
          rw [hh] at hsome
          cases hsome
          exact hle
      refine ⟨A, hA.trans hfits.symm, ?_, fun hfit => ?_⟩
      · rw [hsnd]
        rfl
      · rw [hfst (hA.mpr (hfits.mp hfit)), read_of_header fmt hh, BitReader.length_rest]
        rfl

/-- **A packet is what `Packet.read` finds in the bytes of its buffer**, when the blanks in front of
the id fit. -/
theorem readBuffer_eq (p : Packet) (h : BlanksFit ((List.range limit).map bytes)) :
    (p.readBuffer fmt bytes limit hlimit).1 = p.read fmt ((List.range limit).map bytes) := by
  obtain ⟨A, -, -, heq⟩ := readBuffer_cases fmt bytes limit hlimit p
  exact heq h

theorem readBuffer_accesses_iff (p : Packet) :
    (∀ a ∈ (p.readBuffer fmt bytes limit hlimit).2.accessed, a < limit) ↔
      BlanksFit ((List.range limit).map bytes) := by
  obtain ⟨A, hA, haccessed, -⟩ := readBuffer_cases fmt bytes limit hlimit p
  rw [haccessed]
  exact hA

/-- **The calls of a reader, and `Packet::read`, stay in bounds**: exactly when each call meets its
condition, and when the blanks in front of the id of the packet fit. -/
theorem run_inBounds_and_readBuffer_iff (bytes : ℕ → UInt8) (limit : ℕ) (h : limit < 2 ^ 63) :
    (∀ (order : ByteOrder) (tr : List Buffer.Call) (r : BitReader),
      Lts.Run (Lts.Only Buffer.CallStep Buffer.InBounds) (BitReader.new bytes limit h order) tr r ↔
        Lts.Run (Lts.Only Buffer.CallStep Buffer.Meets) (BitReader.new bytes limit h order) tr r) ∧
    ∀ (ν : Type) (fmt : NumberFormat ν) (p : Packet),
      (∀ a ∈ (p.readBuffer fmt bytes limit h).2.accessed, a < limit) ↔
        BlanksFit ((List.range limit).map bytes) :=
  ⟨fun order => run_inBounds_iff bytes limit h order,
    fun _ fmt p => readBuffer_accesses_iff fmt bytes limit h p⟩

/-- The bytes of `"42 7"`: three calls, the last of which throws, and the packet. -/
theorem run_inBounds_and_readBuffer_iff_number : ∃ bytes : ℕ → UInt8,
    bytes = (fun i => [0x34, 0x32, 0x20, 0x37].getD i 0) ∧
    (∃ r : BitReader, Lts.Run (Lts.Only Buffer.CallStep Buffer.InBounds)
        (BitReader.new bytes 4 (by decide) .network) [.getU16, .readNextNumber 0, .getU8] r ∧
      r.position = 4) ∧
    (({} : Packet).readBuffer Json.intFormat bytes 4 (by decide)).2.accessed.all (· < 4) = true := by
  obtain ⟨hcalls, hread⟩ := run_inBounds_and_readBuffer_iff
    (fun i => [0x34, 0x32, 0x20, 0x37].getD i 0) 4 (by decide)
  refine ⟨_, rfl, ⟨_, (hcalls .network _ _).mpr (.cons ⟨rfl, trivial⟩ (.cons ⟨rfl, ?_⟩
    (.single ⟨rfl, trivial⟩))), ?_⟩, ?_⟩
  · -- one blank, and one byte behind it
    show 2 + 2 * _ ≤ 4
    decide
  · decide
  · have hinside := (hread ℤ Json.intFormat {}).mpr fun h rest hh => by
      cases hh
      decide
    exact List.all_eq_true.mpr fun a ha => decide_eq_true (hinside a ha)

/-- A `skip` from the third of four bytes, and the bytes of `"42   "`. -/
theorem not_inBounds_skip_and_blanks :
    (¬ ∀ (bytes : ℕ → UInt8) (limit : ℕ) (h : limit < 2 ^ 63) (order : ByteOrder) (tr : List Buffer.Call)
      (r : BitReader), Lts.Run Buffer.CallStep (BitReader.new bytes limit h order) tr r →
        ∀ c, Buffer.InBounds r c) ∧
    ¬ ∀ (ν : Type) (fmt : NumberFormat ν) (bytes : ℕ → UInt8) (limit : ℕ) (h : limit < 2 ^ 63)
      (p : Packet), 0 < limit → ∀ a ∈ (p.readBuffer fmt bytes limit h).2.accessed, a < limit := by
  constructor
  · intro h
    have hseek : Buffer.CallStep (BitReader.new (fun _ => 0) 4 (by decide) .network) (.seek 3)
        { BitReader.new (fun _ => 0) 4 (by decide) .network with position := 3 } := rfl
    have hskip := h _ _ _ _ _ _ (Lts.Run.single hseek) (.skip 2)
    exact absurd hskip.1 (by decide)
  · intro h
    have hread := h ℤ Json.intFormat (fun i => [0x34, 0x32, 0x20, 0x20, 0x20].getD i 0) 5 (by decide) {}
      (by decide) 5
    exact absurd (hread (by decide)) (by decide)

end Yamb.SocketIo
