import Yamb.Buffer.Reader
import Yamb.Lib.Lts

/-!
# What a reader accesses

* `Gives`: a call that returns, moves the position, and accesses bytes of the buffer only;
* `get_gives`, `scan_gives`, `move_gives`: so do the pieces of the calls;
* `readNextWord_eq`, `readNextNumber_eq`: what the two calls access that skip blanks first;
* `InBounds`, `Meets`, **`inBounds_iff`**: the calls that stay in bounds, from a position in the buffer;
* **`run_inBounds_iff`**: the runs that stay in bounds.
-/

set_option autoImplicit false

namespace Yamb.Buffer

namespace BitReader

variable {ε ε' α β : Type} {r : BitReader} {l n m : ℕ} {T U : List ℕ} {p : UInt8 → Bool}

/-- What lies between the position and the limit. -/
def rest (r : BitReader) : List UInt8 :=
  (List.range' r.position (r.limit - r.position)).map r.bytes

/-- The reader moved on, after more accesses. -/
def moved (r : BitReader) (n : ℕ) (T : List ℕ) : BitReader :=
  { r with position := r.position + n, accessed := r.accessed ++ T }

/-- All places in `T` are bytes of the buffer. -/
def Inside (r : BitReader) (T : List ℕ) : Prop := ∀ a ∈ T, a < r.limit

/-- The call returns `a` and moves on by `n`, and accesses bytes of the buffer only. -/
def Gives (x : Op BitReader ε α) (r : BitReader) (a : α) (n : ℕ) : Prop :=
  ∃ T, r.Inside T ∧ x r = (.ok a, r.moved n T)

/-! ### Moving -/

theorem length_rest (r : BitReader) : r.rest.length = r.limit - r.position := by
  rw [rest, List.length_map, List.length_range']

theorem moved_zero (r : BitReader) : r.moved 0 [] = r := by
  rw [moved, List.append_nil]
  rfl

theorem moved_moved (r : BitReader) (n m : ℕ) (T U : List ℕ) :
    (r.moved n T).moved m U = r.moved (n + m) (T ++ U) := by
  rw [moved, moved, moved]
  simp only [List.append_assoc, Nat.add_assoc]

theorem rest_moved (r : BitReader) (n : ℕ) (T : List ℕ) : (r.moved n T).rest = r.rest.drop n := by
  rw [rest, rest, ← List.map_drop, List.drop_range', Nat.mul_one, Nat.sub_sub]
  rfl

theorem take_rest (h : l ≤ r.rest.length) :
    r.rest.take l = (List.range' r.position l).map r.bytes := by
  rw [length_rest] at h
  rw [rest, ← List.map_take, List.take_range'_of_length_ge h]

theorem inside_range' {i : ℕ} : r.Inside (List.range' i n) ↔ n = 0 ∨ i + n ≤ r.limit := by
  unfold Inside
  constructor
  · intro h
    by_cases hn : n = 0
    · exact .inl hn
    · have := h (i + n - 1) (List.mem_range'_1.mpr (by omega))
      omega
  · intro h a ha
    have := List.mem_range'_1.mp ha
    omega

theorem Inside.append (h : r.Inside T) (h' : r.Inside U) : r.Inside (T ++ U) := fun a ha =>
  (List.mem_append.mp ha).elim (h a) (h' a)

theorem available_eq (h : r.position ≤ r.limit) : r.available = r.rest.length := by
  have hlt := r.limit_lt
  rw [length_rest, available]
  omega

theorem index_eq (h : r.position ≤ r.limit) (hlen : l ≤ r.limit + 1) :
    r.index l = r.position + l := by
  have hlt := r.limit_lt
  rw [index]
  omega

/-! ### The pieces of the calls -/

theorem Gives.of_pure (r : BitReader) (a : α) : Gives (pure a : Op BitReader ε α) r a 0 :=
  ⟨[], fun _ h => (List.not_mem_nil h).elim, by rw [moved_zero]; rfl⟩

theorem Gives.bind {x : Op BitReader ε α} {f : α → Op BitReader ε β} {a : α} {b : β} {k : ℕ}
    (hx : Gives x r a n) (hf : ∀ T, Gives (f a) (r.moved n T) b m) (hk : k = n + m) :
    Gives (x >>= f) r b k := by
  obtain ⟨T, hT, hx⟩ := hx
  obtain ⟨U, hU, hf⟩ := hf T
  exact ⟨T ++ U, hT.append hU, by rw [Op.bind_of_ok hx, hf, moved_moved, hk]⟩

theorem Gives.mapError {x : Op BitReader ε α} {a : α} (h : Gives x r a n) (g : ε → ε') :
    Gives (x.mapError g) r a n := by
  obtain ⟨T, hT, h⟩ := h
  exact ⟨T, hT, Op.mapError_of_ok h⟩

theorem load_gives (h : l ≤ r.rest.length) :
    Gives (load r.position l) r (r.rest.take l) 0 := by
  refine ⟨List.range' r.position l, inside_range'.mpr ?_, ?_⟩
  · rw [length_rest] at h
    omega
  · rw [take_rest h]
    rfl

theorem advance_gives (hpos : r.position ≤ r.limit) (h : l ≤ r.limit) :
    Gives (advance l) r () l := by
  refine ⟨[], fun _ h => (List.not_mem_nil h).elim, ?_⟩
  rw [moved, List.append_nil, ← index_eq hpos (by omega)]
  rfl

/-- The place that is moved to, and the end of the buffer when it lies behind that. -/
theorem move_gives (hpos : r.position ≤ r.limit) (h : l ≤ r.limit + 1) :
    Gives (move l) r () (min l r.rest.length) := by
  refine ⟨[], fun _ h => (List.not_mem_nil h).elim, ?_⟩
  rw [moved, List.append_nil, length_rest]
  show (Except.ok (), if r.limit > r.index l then { r with position := r.index l }
    else { r with position := r.limit }) = _
  rw [index_eq hpos h]
  split_ifs with hlt
  · rw [Nat.min_eq_left (by omega)]
  · rw [Nat.min_eq_right (by omega), Nat.add_sub_cancel' hpos]

theorem get_gives (hpos : r.position ≤ r.limit) (h : l ≤ r.rest.length) :
    Gives (get l) r (r.rest.take l) l := by
  have hlen := r.length_rest
  obtain ⟨T, hT, hload⟩ := load_gives h
  obtain ⟨U, hU, hadvance⟩ := advance_gives (r := r.moved 0 T) (l := l) hpos (by
    show l ≤ r.limit
    omega)
  refine ⟨T ++ U, hT.append hU, ?_⟩
  rw [get, if_neg (by rw [available_eq hpos]; omega), Op.bind_of_ok hload, Op.bind_of_ok hadvance,
    moved_moved, Nat.zero_add]
  rfl

/-- Reading what stands in front of the rest. -/
theorem get_gives_append {u t : List UInt8} (hpos : r.position ≤ r.limit) (hu : u.length = l)
    (hr : r.rest = u ++ t) : Gives (get l) r u l := by
  have hget := get_gives hpos (l := l) (by rw [hr, List.length_append]; omega)
  rwa [hr, List.take_left' hu] at hget

theorem rest_moved_append {u t : List UInt8} (hu : u.length = n) (hr : r.rest = u ++ t)
    (T : List ℕ) : (r.moved n T).rest = t := by
  rw [rest_moved, hr, List.drop_left' hu]

theorem position_moved_append {u t : List UInt8} (hpos : r.position ≤ r.limit)
    (hu : u.length = n) (hr : r.rest = u ++ t) (T : List ℕ) :
    (r.moved n T).position ≤ (r.moved n T).limit := by
  have hlen := r.length_rest
  rw [hr, List.length_append] at hlen
  show r.position + n ≤ r.limit
  omega

theorem get_eq_error (hpos : r.position ≤ r.limit) (h : r.rest.length < l) :
    get l r = (.error "index out of range", r) := by
  rw [get, if_pos (by rw [available_eq hpos]; omega)]

theorem getNumber_gives (hpos : r.position ≤ r.limit) (h : l ≤ r.rest.length) :
    Gives (getNumber l) r (r.order.number (r.rest.take l)) l := by
  obtain ⟨T, hT, hget⟩ := get_gives hpos h
  refine ⟨T, hT, ?_⟩
  rw [getNumber, Op.bind_of_ok hget]
  rfl

theorem getNumber_eq_error (hpos : r.position ≤ r.limit) (h : r.rest.length < l) :
    getNumber l r = (.error "index out of range", r) := by
  rw [getNumber, Op.bind_of_error (get_eq_error hpos h)]

/-- The byte at the position, or zero where there is none. -/
theorem peek_gives (hpos : r.position ≤ r.limit) : Gives peek r (r.rest.headD 0) 0 := by
  have hlen := r.length_rest
  by_cases hlt : r.limit > r.position
  · obtain ⟨T, hT, hload⟩ := load_gives (r := r) (l := 1) (by omega)
    refine ⟨T, hT, ?_⟩
    rw [peek, if_pos hlt, Op.bind_of_ok hload, Op.pure_apply]
    cases r.rest with
    | nil => rfl
    | cons b t => rfl
  · refine ⟨[], fun _ h => (List.not_mem_nil h).elim, ?_⟩
    rw [peek, if_neg hlt, List.eq_nil_of_length_eq_zero (l := r.rest) (by omega), moved_zero]
    rfl

/-- A `peek` of a number gives the number or zero, and does not move. -/
theorem peekNumber_gives (hpos : r.position ≤ r.limit) (l : ℕ) :
    ∃ v, Gives (peekNumber l (getNumber l)) r v 0 := by
  by_cases h : l ≤ r.rest.length
  · obtain ⟨T, hT, hget⟩ := getNumber_gives hpos h
    have hlen := r.length_rest
    have hlt := r.limit_lt
    have hback : retreat l (r.moved l T) = (.ok (), r.moved 0 T) := by
      show (Except.ok (), { r.moved l T with
        position := (r.position + l + 2 ^ 64 - l) % 2 ^ 64 }) = _
      have hposition : (r.position + l + 2 ^ 64 - l) % 2 ^ 64 = r.position + 0 := by omega
      rw [hposition]
      rfl
    refine ⟨r.order.number (r.rest.take l), T, hT, ?_⟩
    rw [peekNumber, Op.tryCatch_of_ok]
    rw [Op.bind_of_ok hget, Op.bind_of_ok hback, Op.pure_apply]
  · refine ⟨0, [], fun _ h => (List.not_mem_nil h).elim, ?_⟩
    have herror : (do
        let v ← getNumber l
        retreat l
        pure v : Reading ℕ) r = (.error "index out of range", r) := by
      rw [Op.bind_of_error (getNumber_eq_error hpos (by omega))]
    rw [peekNumber, Op.tryCatch_of_error herror, moved_zero, Op.pure_apply]

/-! ### Scanning -/

theorem drop_rest (h : l < r.rest.length) :
    r.rest.drop l = r.bytes (r.position + l) :: r.rest.drop (l + 1) := by
  rw [length_rest] at h
  rw [rest, ← List.map_drop, ← List.map_drop, List.drop_range', List.drop_range', Nat.mul_one,
    Nat.mul_one, ← Nat.add_assoc]
  obtain ⟨n, hn⟩ : ∃ n, r.limit - r.position - l = n + 1 := ⟨r.limit - r.position - l - 1, by omega⟩
  have hn' : r.limit - r.position - (l + 1) = n := by omega
  rw [hn, hn', List.range'_succ, List.map_cons]

theorem scanLoop_gives (hpos : r.position ≤ r.limit) (left l : ℕ)
    (h : r.rest.length = left + l) :
    Gives (scanLoop p left l) r (l + ((r.rest.drop l).takeWhile p).length) 0 := by
  have hlen := r.length_rest
  induction left generalizing r l with
  | zero =>
    rw [List.drop_eq_nil_of_le (by omega)]
    exact .of_pure r l
  | succ left ih =>
    have hindex := index_eq (l := l) hpos (by omega)
    have hload : load (r.position + l) 1 r =
        (.ok [r.bytes (r.position + l)], r.moved 0 [r.position + l]) := rfl
    have hinside : r.Inside [r.position + l] := inside_range' (n := 1) |>.mpr (.inr (by omega))
    rw [drop_rest (by omega), scanLoop, List.takeWhile_cons]
    by_cases hp : p (r.bytes (r.position + l)) = true
    · have hrest : (r.moved 0 [r.position + l]).rest = r.rest := rest_moved r 0 _
      obtain ⟨T, hT, hloop⟩ := ih (r := r.moved 0 [r.position + l]) hpos (l + 1)
        (by rw [hrest]; omega) (by rw [hrest]; exact hlen)
      refine ⟨[r.position + l] ++ T, hinside.append hT, ?_⟩
      rw [Op.gets_bind_apply, hindex, Op.bind_of_ok hload, if_pos hp, List.getD_cons_zero, if_pos hp,
        hloop, moved_moved, hrest, List.length_cons]
      congr 2
      omega
    · refine ⟨[r.position + l], hinside, ?_⟩
      rw [Op.gets_bind_apply, hindex, Op.bind_of_ok hload, if_neg hp, List.getD_cons_zero, if_neg hp]
      rfl

/-- A loop that starts behind the end of the buffer looks at no byte. -/
theorem scan_gives (hpos : r.position ≤ r.limit) (h : l ≤ r.limit) :
    Gives (scan p l) r (l + ((r.rest.drop l).takeWhile p).length) 0 := by
  have hlen := r.length_rest
  unfold Gives scan
  rw [index_eq hpos (by omega)]
  by_cases hle : l ≤ r.rest.length
  · exact scanLoop_gives hpos _ l (by omega)
  · rw [List.drop_eq_nil_of_le (by omega), Nat.sub_eq_zero_of_le (by omega)]
    exact Gives.of_pure r l

theorem length_takeWhile_le (l : List UInt8) : (l.takeWhile p).length ≤ l.length :=
  (List.takeWhile_sublist p).length_le

/-- The number of bytes from the position on that satisfy `p`. -/
def count (p : UInt8 → Bool) (r : BitReader) : ℕ := (r.rest.takeWhile p).length

theorem count_le (p : UInt8 → Bool) (r : BitReader) : r.count p ≤ r.limit - r.position := by
  rw [← length_rest]
  exact length_takeWhile_le _

theorem take_count (p : UInt8 → Bool) (r : BitReader) :
    r.rest.take (r.count p) = r.rest.takeWhile p :=
  (List.prefix_iff_eq_take.mp (List.takeWhile_prefix p)).symm

theorem drop_count (p : UInt8 → Bool) (r : BitReader) :
    r.rest.drop (r.count p) = r.rest.dropWhile p := by
  have h := List.takeWhile_append_dropWhile (p := p) (l := r.rest)
  conv_lhs => rw [← h]
  exact List.drop_left

theorem rest_moved_zero (r : BitReader) (T : List ℕ) : (r.moved 0 T).rest = r.rest := by
  rw [rest_moved, List.drop_zero]

theorem count_moved_zero (p : UInt8 → Bool) (r : BitReader) (T : List ℕ) :
    (r.moved 0 T).count p = r.count p := by
  rw [count, rest_moved_zero, count]

/-- The loop from the position on. -/
theorem scan_zero_gives (p : UInt8 → Bool) (hpos : r.position ≤ r.limit) :
    Gives (scan p 0) r (r.count p) 0 := by
  have h := scan_gives (p := p) (l := 0) hpos (Nat.zero_le _)
  rwa [List.drop_zero, Nat.zero_add] at h

/-- The last two lines of the calls that skip, behind `n` bytes. -/
theorem move_pure_gives (hpos : r.position ≤ r.limit) (h : l ≤ r.limit + 1) (n : ℕ) (T : List ℕ)
    (hn : n ≤ r.rest.length) (a : α) :
    Gives (do
      move l
      pure a : Reading α) (r.moved n T) a (min l (r.rest.length - n)) := by
  have hlen := r.length_rest
  have hmove := move_gives (r := r.moved n T) (l := l) (by show r.position + n ≤ r.limit; omega) h
  rw [rest_moved, List.length_drop] at hmove
  exact hmove.bind (fun U => .of_pure _ a) (Nat.add_zero _).symm

theorem skipToChar_gives (hpos : r.position ≤ r.limit) (c : UInt8) :
    Gives (skipToChar c) r (r.count (· ≠ c)) (r.count (· ≠ c)) := by
  have hcount := r.count_le (· ≠ c)
  have hlen := r.length_rest
  exact (scan_zero_gives (· ≠ c) hpos).bind
    (fun T => move_pure_gives hpos (by omega) 0 T (Nat.zero_le _) _) (by omega)

/-- The blanks at the position. -/
def blanks (r : BitReader) : ℕ := r.count (· = 0x20)

theorem blanks_le (r : BitReader) : r.blanks ≤ r.limit - r.position := r.count_le _

theorem skipWhitespace_gives (hpos : r.position ≤ r.limit) :
    Gives skipWhitespace r r.blanks r.blanks := by
  have hblanks := r.blanks_le
  have hlen := r.length_rest
  have hscan : Gives (scan (· = 0x20) 0) r r.blanks 0 := scan_zero_gives _ hpos
  exact hscan.bind
    (fun T => move_pure_gives hpos (by omega) 0 T (Nat.zero_le _) _) (by omega)

theorem skipToNextLine_gives (hpos : r.position ≤ r.limit) :
    Gives skipToNextLine r (r.count (· ≠ 0x0a) + 1) (min (r.count (· ≠ 0x0a) + 1) r.rest.length) := by
  have hcount := r.count_le (· ≠ 0x0a)
  have hlen := r.length_rest
  exact (scan_zero_gives (· ≠ 0x0a) hpos).bind
    (fun T => move_pure_gives hpos (by omega) 0 T (Nat.zero_le _) _) (by omega)

/-- The bytes that are counted after blanks: the blanks, and what satisfies `p` from as many bytes
behind them on. -/
def countNext (p : UInt8 → Bool) (r : BitReader) : ℕ :=
  r.blanks + ((r.rest.drop (2 * r.blanks)).takeWhile p).length

theorem countNext_le (p : UInt8 → Bool) (r : BitReader) : r.countNext p ≤ r.limit - r.position := by
  have hblanks := r.blanks_le
  have hlen := length_takeWhile_le (p := p) (r.rest.drop (2 * r.blanks))
  have hlen' := r.length_rest
  rw [List.length_drop] at hlen
  unfold countNext
  omega

theorem skipBlanks_gives (p : UInt8 → Bool) (hpos : r.position ≤ r.limit) :
    Gives (skipWhitespace >>= scan p) r (r.countNext p) (r.blanks) := by
  have hblanks := r.blanks_le
  refine (skipWhitespace_gives hpos).bind (m := 0) (fun T => ?_) rfl
  have hscan := scan_gives (p := p) (r := r.moved (r.blanks) T) (l := r.blanks)
    (by show r.position + _ ≤ r.limit; omega) (by show _ ≤ r.limit; omega)
  rw [rest_moved, List.drop_drop, ← Nat.two_mul] at hscan
  exact hscan

theorem skipNextWord_gives (hpos : r.position ≤ r.limit) :
    ∃ n ≤ r.rest.length, Gives skipNextWord r (r.countNext inWord) n := by
  have hblanks := r.blanks_le
  have hlen := r.length_rest
  refine ⟨_, ?_, (Op.bind_bind _ _ _ : _) ▸ (skipBlanks_gives inWord hpos).bind
    (fun T => move_pure_gives hpos (by have := r.countNext_le inWord; omega) _ T (by omega) _) rfl⟩
  omega

/-! ### Reading text -/

/-- The last three lines of the calls that read. -/
theorem read_move_gives {T : List ℕ} {e : ℕ} {f : List UInt8 → α} (hpos : r.position ≤ r.limit)
    (hlen : l ≤ r.rest.length) (hextra : e ≤ 1) :
    Gives (do
      let val ← loadHere l
      move (l + e)
      pure (f val) : Reading α) (r.moved 0 T) (f (r.rest.take l))
      (min (l + e) r.rest.length) := by
  have hrest := r.length_rest
  have hload : Gives (loadHere l) (r.moved 0 T) (r.rest.take l) 0 := by
    have h := load_gives (r := r.moved 0 T) (l := l) (by rw [rest_moved]; exact hlen)
    rwa [rest_moved, List.drop_zero] at h
  refine hload.bind (fun U => ?_) (Nat.zero_add _).symm
  rw [moved_moved]
  exact move_pure_gives hpos (by omega) 0 _ (Nat.zero_le _) _

theorem readToNext_gives (hpos : r.position ≤ r.limit) (c : UInt8) :
    Gives (readToNext c) r (r.rest.takeWhile (· ≠ c), r.count (· ≠ c)) (r.count (· ≠ c)) := by
  have hcount := r.count_le (· ≠ c)
  have hlen := r.length_rest
  rw [← take_count]
  exact (scan_zero_gives (· ≠ c) hpos).bind
    (fun T => read_move_gives (e := 0) (f := fun val => (val, r.count (· ≠ c))) hpos (by omega)
      (by omega)) (by omega)

theorem readLine_gives (hpos : r.position ≤ r.limit) :
    Gives readLine r (r.rest.takeWhile (· ≠ 0x0a), r.count (· ≠ 0x0a) + 1)
      (min (r.count (· ≠ 0x0a) + 1) r.rest.length) := by
  have hcount := r.count_le (· ≠ 0x0a)
  have hlen := r.length_rest
  rw [← take_count]
  exact (scan_zero_gives (· ≠ 0x0a) hpos).bind
    (fun T => read_move_gives (e := 1) (f := fun val => (val, r.count (· ≠ 0x0a) + 1)) hpos
      (by omega) (by omega)) (by omega)

/-- What is counted after blanks is read from the position behind the blanks on: it reaches over the
limit when there are more blanks than bytes behind them. -/
theorem inside_countNext (p : UInt8 → Bool) (hpos : r.position ≤ r.limit) :
    r.Inside (List.range' (r.position + r.blanks) (r.countNext p)) ↔
      r.position + 2 * r.blanks ≤ r.limit := by
  have hlen := length_takeWhile_le (p := p) (r.rest.drop (2 * r.blanks))
  have hlen' := r.length_rest
  rw [List.length_drop] at hlen
  rw [inside_range']
  unfold countNext
  omega

theorem countNext_le_of_fit (p : UInt8 → Bool) (hfit : r.position + 2 * r.blanks ≤ r.limit) :
    r.countNext p ≤ r.rest.length - r.blanks := by
  have hlen := length_takeWhile_le (p := p) (r.rest.drop (2 * r.blanks))
  have hlen' := r.length_rest
  rw [List.length_drop] at hlen
  unfold countNext
  omega

/-- Reading from behind the blanks on, and a move. -/
theorem read_behind_eq (hpos : r.position ≤ r.limit) {T : List ℕ} (hT : r.Inside T)
    (p : UInt8 → Bool) (f : List UInt8 → α) :
    ∃ A, (do
      let val ← loadHere (r.countNext p)
      move (r.countNext p)
      pure (f val) : Reading α) (r.moved (r.blanks) T) =
        (.ok (f ((List.range' (r.position + r.blanks) (r.countNext p)).map r.bytes)),
          r.moved (r.blanks + min (r.countNext p) (r.rest.length - r.blanks)) A) ∧
      (r.Inside A ↔ r.position + 2 * r.blanks ≤ r.limit) := by
  have hblanks := r.blanks_le
  have hnext := r.countNext_le p
  have hrest := r.length_rest
  have hload : loadHere (r.countNext p) (r.moved (r.blanks) T) =
      (.ok ((List.range' (r.position + r.blanks) (r.countNext p)).map r.bytes),
        (r.moved (r.blanks) T).moved 0
          (List.range' (r.position + r.blanks) (r.countNext p))) := rfl
  rw [moved_moved] at hload
  obtain ⟨U, hU, hmove⟩ := move_pure_gives (l := r.countNext p) hpos (by omega)
    (r.blanks + 0)
    (T ++ List.range' (r.position + r.blanks) (r.countNext p)) (by omega)
    (f ((List.range' (r.position + r.blanks) (r.countNext p)).map r.bytes))
  refine ⟨_, by rw [Op.bind_of_ok hload, hmove, moved_moved, Nat.add_zero], ?_⟩
  rw [← inside_countNext p hpos]
  constructor
  · exact fun h a ha => h a (List.mem_append_left _ (List.mem_append_right _ ha))
  · exact fun h => (hT.append h).append hU

theorem readNextWord_eq (hpos : r.position ≤ r.limit) : ∃ A,
    readNextWord r =
      (.ok ((List.range' (r.position + r.blanks) (r.countNext inWord)).map r.bytes,
        r.countNext inWord),
      r.moved (r.blanks + min (r.countNext inWord) (r.rest.length - r.blanks)) A) ∧
    (r.Inside A ↔ r.position + 2 * r.blanks ≤ r.limit) := by
  obtain ⟨T, hT, hskip⟩ := skipBlanks_gives inWord hpos
  obtain ⟨A, hread, hA⟩ := read_behind_eq hpos hT inWord fun val => (val, r.countNext inWord)
  refine ⟨A, ?_, hA⟩
  rw [readNextWord, ← Op.bind_bind, Op.bind_of_ok hskip]
  exact hread

theorem readNextNumber_eq (hpos : r.position ≤ r.limit) (val : ℕ) : ∃ A,
    readNextNumber val r =
      (.ok (if r.countNext Decimal.isDigit = 0 then val else SocketIo.strtoi
          ((List.range' (r.position + r.blanks) (r.countNext Decimal.isDigit)).map r.bytes),
        r.countNext Decimal.isDigit),
      r.moved (r.blanks +
        min (r.countNext Decimal.isDigit) (r.rest.length - r.blanks)) A) ∧
    (r.Inside A ↔ r.position + 2 * r.blanks ≤ r.limit) := by
  have hblanks := r.blanks_le
  have hrest := r.length_rest
  obtain ⟨T, hT, hskip⟩ := skipBlanks_gives Decimal.isDigit hpos
  by_cases hzero : r.countNext Decimal.isDigit = 0
  · have hnone : r.blanks = 0 := by
      unfold countNext at hzero
      omega
    obtain ⟨U, hU, hmove⟩ := move_pure_gives (l := r.countNext Decimal.isDigit) hpos (by omega)
      r.blanks T (by omega) (val, r.countNext Decimal.isDigit)
    refine ⟨T ++ U, ?_, iff_of_true (hT.append hU) (by omega)⟩
    rw [readNextNumber, ← Op.bind_bind, Op.bind_of_ok hskip, if_pos hzero, if_pos hzero,
      ← moved_moved]
    exact hmove
  · obtain ⟨A, hread, hA⟩ := read_behind_eq hpos hT Decimal.isDigit fun s =>
      (SocketIo.strtoi s, r.countNext Decimal.isDigit)
    refine ⟨A, ?_, hA⟩
    rw [readNextNumber, ← Op.bind_bind, Op.bind_of_ok hskip, if_neg hzero, if_neg hzero]
    exact hread

end BitReader

/-! ### Bounds -/

open BitReader

/-- The call keeps the position within the buffer, accesses bytes of the buffer only, and where it
throws it leaves the position as it was. -/
def InBounds (r : BitReader) (c : Call) : Prop :=
  (c.run r).2.position ≤ r.limit ∧ (∀ a ∈ (c.run r).2.accessed, a < r.limit) ∧
    ∀ e, (c.run r).1 = .error e → (c.run r).2.position = r.position

/-- A `skip` that does not throw ends in the buffer; a word or a number stands behind at most as many
blanks as there are bytes behind these. -/
def Meets (r : BitReader) : Call → Prop
  | .skip val => r.limit < val ∨ r.position + val ≤ r.limit
  | .readNextWord => r.position + 2 * r.blanks ≤ r.limit
  | .readNextNumber _ => r.position + 2 * r.blanks ≤ r.limit
  | _ => True

/-- What holds of a reader as long as its calls stay in bounds. -/
structure Within (r : BitReader) : Prop where
  position : r.position ≤ r.limit
  accessed : r.Inside r.accessed

variable {α : Type} {r : BitReader} {c : Call} {x : Reading α} {a : α} {n : ℕ}

/-- A call throws and changes nothing, or it moves on; it moves past the limit, or accesses bytes there,
exactly when it does not meet its condition. -/
def Reaches (r : BitReader) (x : Reading Unit) (meets : Prop) : Prop :=
  (∃ e, x r = (.error e, r) ∧ meets) ∨ ∃ position A,
    x r = (.ok (), { r with position := position, accessed := r.accessed ++ A }) ∧
      (position ≤ r.limit ∧ r.Inside A ↔ meets)

theorem BitReader.Gives.reaches (h : Gives x r a n) (hn : r.position + n ≤ r.limit) :
    Reaches r (do let _ ← x) True := by
  obtain ⟨A, hA, h⟩ := h
  exact .inr ⟨r.position + n, A, Op.bind_of_ok h, iff_of_true ⟨hn, hA⟩ trivial⟩

theorem Reaches.of_error {e : String} (h : x r = (.error e, r)) : Reaches r (do let _ ← x) True :=
  .inl ⟨e, Op.bind_of_error h, trivial⟩

theorem getNumber_reaches (hpos : r.position ≤ r.limit) (l : ℕ) :
    Reaches r (do let _ ← getNumber l) True := by
  have hrest := r.length_rest
  by_cases h : l ≤ r.rest.length
  · exact (getNumber_gives hpos h).reaches (by omega)
  · exact .of_error (getNumber_eq_error hpos (by omega))

theorem peekNumber_reaches (hpos : r.position ≤ r.limit) (l : ℕ) :
    Reaches r (do let _ ← peekNumber l (getNumber l)) True := by
  obtain ⟨v, h⟩ := peekNumber_gives hpos l
  exact h.reaches hpos

theorem run_reaches (hpos : r.position ≤ r.limit) (c : Call) : Reaches r c.run (Meets r c) := by
  have hrest := r.length_rest
  cases c with
  | seek val =>
    rw [Call.run]
    by_cases h : val > r.limit
    · exact .inl ⟨_, by rw [seek, if_pos h], trivial⟩
    · refine .inr ⟨val, [], by rw [seek, if_neg h, List.append_nil], ?_⟩
      exact iff_of_true ⟨Nat.le_of_not_lt h, fun _ ha => (List.not_mem_nil ha).elim⟩ trivial
  | skip val =>
    rw [Call.run, Meets]
    by_cases h : val > r.limit
    · exact .inl ⟨_, by rw [skip, if_pos h], .inl h⟩
    · obtain ⟨A, hA, hadvance⟩ := advance_gives hpos (Nat.le_of_not_lt h)
      refine .inr ⟨r.position + val, A, by rw [skip, if_neg h, hadvance]; rfl, ?_⟩
      rw [and_iff_left hA]
      exact ⟨.inr, fun hor => hor.resolve_left h⟩
  | get l =>
    rw [Call.run]
    by_cases h : l ≤ r.rest.length
    · exact (get_gives hpos h).reaches (by omega)
    · exact .of_error (get_eq_error hpos (by omega))
  | getU8 =>
    rw [Call.run, getU8]
    exact getNumber_reaches hpos 1
  | getU16 =>
    rw [Call.run, getU16]
    exact getNumber_reaches hpos 2
  | getU24 =>
    rw [Call.run, getU24]
    exact getNumber_reaches hpos 3
  | getU32 =>
    rw [Call.run, getU32]
    exact getNumber_reaches hpos 4
  | getU64 =>
    rw [Call.run, getU64]
    exact getNumber_reaches hpos 8
  | peek =>
    rw [Call.run]
    exact (peek_gives hpos).reaches hpos
  | peekU8 =>
    rw [Call.run, peekU8, getU8]
    exact peekNumber_reaches hpos 1
  | peekU16 =>
    rw [Call.run, peekU16, getU16]
    exact peekNumber_reaches hpos 2
  | peekU24 =>
    rw [Call.run, peekU24, getU24]
    exact peekNumber_reaches hpos 3
  | peekU32 =>
    rw [Call.run, peekU32, getU32]
    exact peekNumber_reaches hpos 4
  | peekU64 =>
    rw [Call.run, peekU64, getU64]
    exact peekNumber_reaches hpos 8
  | skipToChar c =>
    rw [Call.run]
    have hcount := r.count_le (· ≠ c)
    exact (skipToChar_gives hpos c).reaches (by omega)
  | skipWhitespace =>
    rw [Call.run]
    have hblanks := r.blanks_le
    exact (skipWhitespace_gives hpos).reaches (by omega)
  | skipToNextLine =>
    rw [Call.run]
    exact (skipToNextLine_gives hpos).reaches (by omega)
  | skipNextWord =>
    rw [Call.run]
    obtain ⟨n, hn, h⟩ := skipNextWord_gives hpos
    exact h.reaches (by omega)
  | readToNext c =>
    rw [Call.run]
    have hcount := r.count_le (· ≠ c)
    exact (readToNext_gives hpos c).reaches (by omega)
  | readNextWord =>
    rw [Call.run]
    obtain ⟨A, h, hA⟩ := readNextWord_eq hpos
    have hblanks := r.blanks_le
    exact .inr ⟨_, A, Op.bind_of_ok h, (and_iff_right (by omega)).trans hA⟩
  | readNextNumber val =>
    rw [Call.run]
    obtain ⟨A, h, hA⟩ := readNextNumber_eq hpos val
    have hblanks := r.blanks_le
    exact .inr ⟨_, A, Op.bind_of_ok h, (and_iff_right (by omega)).trans hA⟩
  | readLine =>
    rw [Call.run]
    exact (readLine_gives hpos).reaches (by omega)

/-- **A call stays in bounds exactly when it meets its condition.** -/
theorem inBounds_iff (h : Within r) (c : Call) : InBounds r c ↔ Meets r c := by
  unfold InBounds
  rcases run_reaches h.position c with ⟨e, hrun, hmeets⟩ | ⟨position, A, hrun, hmeets⟩
  · rw [hrun]
    exact iff_of_true ⟨h.position, h.accessed, fun _ _ => rfl⟩ hmeets
  · rw [hrun, ← hmeets]
    refine and_congr_right fun _ => ?_
    constructor
    · exact fun ha a hmem => ha.1 a (List.mem_append_right _ hmem)
    · exact fun hA => ⟨h.accessed.append hA, fun e he => by cases he⟩

theorem InBounds.within (h : Within r) (hc : InBounds r c) : Within (c.run r).2 := by
  have hlimit : (c.run r).2.limit = r.limit := by
    rcases run_reaches h.position c with ⟨e, hrun, -⟩ | ⟨position, A, hrun, -⟩
    · rw [hrun]
    · rw [hrun]
  exact ⟨hlimit ▸ hc.1, fun a ha => hlimit ▸ hc.2.1 a ha⟩

/-- A call of the reader, after which the caller goes on whether it has thrown or not. -/
def CallStep (r : BitReader) (c : Call) (r' : BitReader) : Prop := (c.run r).2 = r'

theorem new_within (bytes : ℕ → UInt8) (limit : ℕ) (h : limit < 2 ^ 63) (order : ByteOrder) :
    Within (new bytes limit h order) :=
  ⟨Nat.zero_le _, fun _ ha => (List.not_mem_nil ha).elim⟩

/-- **All calls of a run stay in bounds** exactly when each meets its condition. -/
theorem run_inBounds_iff (bytes : ℕ → UInt8) (limit : ℕ) (h : limit < 2 ^ 63) (order : ByteOrder)
    (tr : List Call) (r : BitReader) :
    Lts.Run (Lts.Only CallStep InBounds) (new bytes limit h order) tr r ↔
      Lts.Run (Lts.Only CallStep Meets) (new bytes limit h order) tr r :=
  Lts.run_only_iff (I := Within) (new_within bytes limit h order) (fun _ c hr => inBounds_iff hr c)
    fun _ _ _ hr hstep hc => hstep ▸ hc.within hr

end Yamb.Buffer
