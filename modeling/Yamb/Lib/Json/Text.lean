import Yamb.Lib.Decimal
import Yamb.Lib.Json.Basic
import Yamb.Lib.Json.String

/-!
# JSON text

* `NumberFormat`: how numbers are written and read;
* `dump`: the text of a value without blanks;
* `parse`: the parser, with blanks between the tokens;
* `WellFormed`: the values that an object library builds, with sorted keys and strings in UTF-8;
* **`parse_dump`**: a well-formed value is read back;
* **`calm_dump`**: no backslash stands before the first quotation mark of a text.
-/

set_option autoImplicit false

namespace Json

/-- What may stand behind a number in a text that was written. -/
def Delimited (rest : List UInt8) : Prop := ∀ b ∈ rest.head?, b = 0x2c ∨ b = 0x5d ∨ b = 0x7d

def isNumberStart (b : UInt8) : Bool := b = 0x2d || Decimal.isDigit b

/-- How numbers are written and read. -/
structure NumberFormat (ν : Type) where
  dump : ν → List UInt8
  scan : List UInt8 → Option (ν × List UInt8)
  dump_head : ∀ n, ∃ b s, dump n = b :: s ∧ isNumberStart b = true
  noBackslash : ∀ n, backslash ∉ dump n
  scan_dump : ∀ n rest, Delimited rest → scan (dump n ++ rest) = some (n, rest)

variable {ν : Type} (fmt : NumberFormat ν)

/-! ## Writing -/

def dumpString (s : List UInt8) : List UInt8 := quote :: (escape s ++ [quote])

mutual

/-- `dump`, without indentation. -/
def dump : Json (List UInt8) ν → List UInt8
  | .null => [0x6e, 0x75, 0x6c, 0x6c]
  | .bool true => [0x74, 0x72, 0x75, 0x65]
  | .bool false => [0x66, 0x61, 0x6c, 0x73, 0x65]
  | .num n => fmt.dump n
  | .str s => dumpString s
  | .arr items => 0x5b :: (dumpItems items ++ [0x5d])
  | .obj members => 0x7b :: (dumpMembers members ++ [0x7d])

def dumpItems : List (Json (List UInt8) ν) → List UInt8
  | [] => []
  | [v] => dump v
  | v :: w :: vs => dump v ++ 0x2c :: dumpItems (w :: vs)

def dumpMembers : List (List UInt8 × Json (List UInt8) ν) → List UInt8
  | [] => []
  | [(k, v)] => dumpString k ++ 0x3a :: dump v
  | (k, v) :: m :: ms => dumpString k ++ 0x3a :: (dump v ++ 0x2c :: dumpMembers (m :: ms))

end

/-! ## Reading -/

def isWs (b : UInt8) : Bool := b = 0x20 || b = 0x09 || b = 0x0a || b = 0x0d

def skipWs (bs : List UInt8) : List UInt8 := bs.dropWhile isWs

/-- Reads the rest of a literal name. -/
def literal (word : List UInt8) (v : Json (List UInt8) ν) (bs : List UInt8) :
    Option (Json (List UInt8) ν × List UInt8) :=
  if word <+: bs then some (v, bs.drop word.length) else none

/-- Objects keep their members in the order of the keys, the last value of a key. -/
def insertMember (k : List UInt8) (v : Json (List UInt8) ν) :
    List (List UInt8 × Json (List UInt8) ν) → List (List UInt8 × Json (List UInt8) ν)
  | [] => [(k, v)]
  | m :: ms =>
    if k = m.1 then (k, v) :: ms
    else if k < m.1 then (k, v) :: m :: ms
    else m :: insertMember k v ms

mutual

/-- `parse_internal`: a value and what follows it. Every call consumes a byte or goes from a value
to its first part, so twice the length of the text is enough fuel. -/
def value : ℕ → List UInt8 → Option (Json (List UInt8) ν × List UInt8)
  | 0, _ => none
  | fuel + 1, bs =>
    match skipWs bs with
    | [] => none
    | b :: s =>
      if b = 0x7b then
        match skipWs s with
        | 0x7d :: t => some (.obj [], t)
        | t => (members fuel [] t).map fun r => (.obj r.1, r.2)
      else if b = 0x5b then
        match skipWs s with
        | 0x5d :: t => some (.arr [], t)
        | t => (items fuel t).map fun r => (.arr r.1, r.2)
      else if b = quote then (scanString [] s).map fun r => (.str r.1, r.2)
      else if b = 0x6e then literal [0x75, 0x6c, 0x6c] .null s
      else if b = 0x74 then literal [0x72, 0x75, 0x65] (.bool true) s
      else if b = 0x66 then literal [0x61, 0x6c, 0x73, 0x65] (.bool false) s
      else if isNumberStart b then (fmt.scan (b :: s)).map fun r => (.num r.1, r.2)
      else none

/-- The values of an array, behind its bracket. -/
def items : ℕ → List UInt8 → Option (List (Json (List UInt8) ν) × List UInt8)
  | 0, _ => none
  | fuel + 1, bs =>
    match value fuel bs with
    | none => none
    | some (v, s) =>
      match skipWs s with
      | 0x2c :: t => (items fuel t).map fun r => (v :: r.1, r.2)
      | 0x5d :: t => some ([v], t)
      | _ => none

/-- The members of an object, behind its brace, put into those read before. -/
def members : ℕ → List (List UInt8 × Json (List UInt8) ν) → List UInt8 →
    Option (List (List UInt8 × Json (List UInt8) ν) × List UInt8)
  | 0, _, _ => none
  | fuel + 1, ms, bs =>
    match skipWs bs with
    | 0x22 :: s =>
      match scanString [] s with
      | none => none
      | some (k, s) =>
        match skipWs s with
        | 0x3a :: s =>
          match value fuel s with
          | none => none
          | some (v, s) =>
            match skipWs s with
            | 0x2c :: t => members fuel (insertMember k v ms) t
            | 0x7d :: t => some (insertMember k v ms, t)
            | _ => none
        | _ => none
    | _ => none

end

/-- `parse`: one value and the end of the text, which a zero byte stands for as well. -/
def parse (bs : List UInt8) : Option (Json (List UInt8) ν) :=
  match value fmt (2 * bs.length) bs with
  | none => none
  | some (v, rest) =>
    match skipWs rest with
    | [] => some v
    | b :: _ => if b = 0 then some v else none

/-! ## Well-formed values -/

/-- The values of an object library: sorted keys, and strings in UTF-8. -/
inductive WellFormed : Json (List UInt8) ν → Prop
  | null : WellFormed .null
  | bool (b : Bool) : WellFormed (.bool b)
  | num (n : ν) : WellFormed (.num n)
  | str {s : List UInt8} (h : utf8 [] s = true) : WellFormed (.str s)
  | arr {vs : List (Json (List UInt8) ν)} (h : ∀ v ∈ vs, WellFormed v) : WellFormed (.arr vs)
  | obj {ms : List (List UInt8 × Json (List UInt8) ν)}
      (keys : ms.Pairwise fun m m' => m.1 < m'.1) (utf : ∀ m ∈ ms, utf8 [] m.1 = true)
      (h : ∀ m ∈ ms, WellFormed m.2) : WellFormed (.obj ms)

/-! ## One step of the parser -/

variable {fmt} {b : UInt8} {s t rest : List UInt8} {fuel : ℕ}

theorem skipWs_cons (h : isWs b = false) : skipWs (b :: s) = b :: s :=
  List.dropWhile_cons_of_neg (by simp [h])

theorem isWs_of_isNumberStart (h : isNumberStart b = true) : isWs b = false := by
  by_contra hws
  rw [Bool.not_eq_false] at hws
  simp only [isWs, Bool.or_eq_true, decide_eq_true_eq, or_assoc] at hws
  rcases hws with rfl | rfl | rfl | rfl <;> exact absurd h (by decide)

theorem value_quote :
    value fmt (fuel + 1) (quote :: s) = (scanString [] s).map fun r => (.str r.1, r.2) := by
  rw [value, skipWs_cons (by decide)]
  simp only [if_neg (by decide : quote ≠ 0x7b), if_neg (by decide : quote ≠ 0x5b), if_true]

theorem value_word {word : List UInt8} {v : Json (List UInt8) ν}
    (h : (b = 0x6e ∧ word = [0x75, 0x6c, 0x6c] ∧ v = .null) ∨
      (b = 0x74 ∧ word = [0x72, 0x75, 0x65] ∧ v = .bool true) ∨
      (b = 0x66 ∧ word = [0x61, 0x6c, 0x73, 0x65] ∧ v = .bool false)) :
    value fmt (fuel + 1) (b :: (word ++ rest)) = some (v, rest) := by
  have hlit : ∀ (w : List UInt8) (v : Json (List UInt8) ν),
      literal w v (w ++ rest) = some (v, rest) := by
    intro w v
    rw [literal, if_pos (List.prefix_append w rest), List.drop_left]
  rcases h with ⟨rfl, rfl, rfl⟩ | ⟨rfl, rfl, rfl⟩ | ⟨rfl, rfl, rfl⟩
  · exact hlit [0x75, 0x6c, 0x6c] .null
  · exact hlit [0x72, 0x75, 0x65] (.bool true)
  · exact hlit [0x61, 0x6c, 0x73, 0x65] (.bool false)

theorem value_number (h : isNumberStart b = true) :
    value fmt (fuel + 1) (b :: s) = (fmt.scan (b :: s)).map fun r => (.num r.1, r.2) := by
  have hne : ∀ c : UInt8, isNumberStart c = false → b ≠ c := by
    rintro c hc rfl
    rw [h] at hc
    cases hc
  rw [value, skipWs_cons (isWs_of_isNumberStart h)]
  simp only [if_neg (hne 0x7b (by decide)), if_neg (hne 0x5b (by decide)),
    if_neg (hne quote (by decide)), if_neg (hne 0x6e (by decide)), if_neg (hne 0x74 (by decide)),
    if_neg (hne 0x66 (by decide)), if_pos h]

theorem value_emptyArr : value fmt (fuel + 1) (0x5b :: 0x5d :: t) = some (.arr [], t) := rfl

theorem value_emptyObj : value fmt (fuel + 1) (0x7b :: 0x7d :: t) = some (.obj [], t) := rfl

theorem value_arr (hb : isWs b = false) (hne : b ≠ 0x5d) :
    value fmt (fuel + 1) (0x5b :: b :: s) =
      (items fmt fuel (b :: s)).map fun r => (.arr r.1, r.2) := by
  rw [value, skipWs_cons (by decide)]
  simp only [if_neg (by decide : (0x5b : UInt8) ≠ 0x7b), if_true]
  rw [skipWs_cons hb]
  split
  · rename_i heq
    exact absurd (List.cons.inj heq).1 hne
  · rfl

theorem value_obj : value fmt (fuel + 1) (0x7b :: quote :: s) =
    (members fmt fuel [] (quote :: s)).map fun r => (.obj r.1, r.2) := rfl

theorem items_last {v : Json (List UInt8) ν} (h : value fmt fuel s = some (v, 0x5d :: t)) :
    items fmt (fuel + 1) s = some ([v], t) := by
  rw [items, h]
  rfl

theorem items_next {v : Json (List UInt8) ν} (h : value fmt fuel s = some (v, 0x2c :: t)) :
    items fmt (fuel + 1) s = (items fmt fuel t).map fun r => (v :: r.1, r.2) := by
  rw [items, h]
  rfl

/-- What the values of an array start with, and how they go on. -/
theorem items_cases {vs : List (Json (List UInt8) ν)} (h : items fmt (fuel + 1) s = some (vs, rest)) :
    ∃ v s', value fmt fuel s = some (v, s') ∧
      ((∃ t ws, skipWs s' = 0x2c :: t ∧ items fmt fuel t = some (ws, rest) ∧ vs = v :: ws) ∨
        (skipWs s' = 0x5d :: rest ∧ vs = [v])) := by
  rw [items] at h
  cases hv : value fmt fuel s with
  | none =>
    rw [hv] at h
    cases h
  | some vs' =>
    obtain ⟨v, s'⟩ := vs'
    simp only [hv] at h
    refine ⟨v, s', rfl, ?_⟩
    split at h
    · rename_i t ht
      obtain ⟨⟨ws, r⟩, hws, heq⟩ := Option.map_eq_some_iff.mp h
      cases heq
      exact .inl ⟨t, ws, ht, hws, rfl⟩
    · rename_i t ht
      cases h
      exact .inr ⟨ht, rfl⟩
    · cases h

theorem value_of_parse {v : Json (List UInt8) ν} (h : parse fmt s = some v) :
    ∃ rest, value fmt (2 * s.length) s = some (v, rest) := by
  unfold parse at h
  cases hv : value fmt (2 * s.length) s with
  | none =>
    rw [hv] at h
    cases h
  | some r =>
    obtain ⟨w, rest⟩ := r
    simp only [hv] at h
    refine ⟨rest, ?_⟩
    split at h
    · cases h
      rfl
    · split_ifs at h
      cases h
      rfl

theorem members_last {ms : List (List UInt8 × Json (List UInt8) ν)} {k : List UInt8}
    {v : Json (List UInt8) ν} (hk : scanString [] s = some (k, 0x3a :: t))
    (hv : value fmt fuel t = some (v, 0x7d :: rest)) :
    members fmt (fuel + 1) ms (quote :: s) = some (insertMember k v ms, rest) := by
  rw [members, skipWs_cons (by decide)]
  simp only [quote, hk]
  rw [skipWs_cons (by decide)]
  simp only [hv]
  rw [skipWs_cons (by decide)]
  rfl

theorem members_next {ms : List (List UInt8 × Json (List UInt8) ν)} {k : List UInt8}
    {v : Json (List UInt8) ν} (hk : scanString [] s = some (k, 0x3a :: t))
    (hv : value fmt fuel t = some (v, 0x2c :: rest)) :
    members fmt (fuel + 1) ms (quote :: s) = members fmt fuel (insertMember k v ms) rest := by
  rw [members, skipWs_cons (by decide)]
  simp only [quote, hk]
  rw [skipWs_cons (by decide)]
  simp only [hv]
  rw [skipWs_cons (by decide)]
  rfl

/-! ## Reading what was written -/

theorem insertMember_append {k : List UInt8} {v : Json (List UInt8) ν}
    {ms : List (List UInt8 × Json (List UInt8) ν)} (h : ∀ m ∈ ms, m.1 < k) :
    insertMember k v ms = ms ++ [(k, v)] := by
  induction ms with
  | nil => rfl
  | cons m ms ih =>
    have hm := h m List.mem_cons_self
    rw [insertMember, if_neg, if_neg (List.lt_asymm hm), ih fun m hm => h m (List.mem_cons_of_mem _ hm)]
    · rfl
    · rintro rfl
      exact List.lt_irrefl _ hm

theorem scanString_dumpString {s : List UInt8} (hs : utf8 [] s = true) (rest : List UInt8) :
    ∃ t, dumpString s ++ rest = quote :: t ∧ scanString [] t = some (s, rest) := by
  refine ⟨escape s ++ quote :: rest, by simp [dumpString], ?_⟩
  exact scanString_escape continues_nil hs rest

variable (fmt)

/-- A text does not start with a blank or a closing bracket. -/
theorem dump_head (v : Json (List UInt8) ν) :
    ∃ b s, dump fmt v = b :: s ∧ isWs b = false ∧ b ≠ 0x5d := by
  match v with
  | .null => exact ⟨_, _, rfl, by decide, by decide⟩
  | .bool true => exact ⟨_, _, rfl, by decide, by decide⟩
  | .bool false => exact ⟨_, _, rfl, by decide, by decide⟩
  | .num n =>
    obtain ⟨b, s, hd, hb⟩ := fmt.dump_head n
    refine ⟨b, s, hd, isWs_of_isNumberStart hb, ?_⟩
    rintro rfl
    exact absurd hb (by decide)
  | .str s => exact ⟨_, _, rfl, by decide, by decide⟩
  | .arr vs => exact ⟨_, _, rfl, by decide, by decide⟩
  | .obj ms => exact ⟨_, _, rfl, by decide, by decide⟩

theorem dump_pos (v : Json (List UInt8) ν) : 0 < (dump fmt v).length := by
  obtain ⟨b, s, h, -⟩ := dump_head fmt v
  rw [h]
  exact Nat.succ_pos _

theorem dumpItems_head (v : Json (List UInt8) ν) (vs : List (Json (List UInt8) ν)) :
    ∃ b s, dumpItems fmt (v :: vs) = b :: s ∧ isWs b = false ∧ b ≠ 0x5d := by
  obtain ⟨b, s, hd, hb⟩ := dump_head fmt v
  cases vs with
  | nil => exact ⟨b, s, hd, hb⟩
  | cons w ws => exact ⟨b, s ++ 0x2c :: dumpItems fmt (w :: ws), by rw [dumpItems, hd]; rfl, hb⟩

theorem dumpMembers_head (m : List UInt8 × Json (List UInt8) ν)
    (ms : List (List UInt8 × Json (List UInt8) ν)) :
    ∃ s, dumpMembers fmt (m :: ms) = quote :: s := by
  obtain ⟨k, v⟩ := m
  cases ms with
  | nil => exact ⟨escape k ++ [quote] ++ 0x3a :: dump fmt v, rfl⟩
  | cons m ms =>
    exact ⟨escape k ++ [quote] ++ 0x3a :: (dump fmt v ++ 0x2c :: dumpMembers fmt (m :: ms)), rfl⟩

/-- What the parser does with a text that was written, with the given fuel. -/
structure ReadsBack (fuel : ℕ) : Prop where
  value : ∀ (v : Json (List UInt8) ν) rest, WellFormed v → Delimited rest →
    2 * (dump fmt v).length ≤ fuel → Json.value fmt fuel (dump fmt v ++ rest) = some (v, rest)
  items : ∀ (vs : List (Json (List UInt8) ν)) rest, vs ≠ [] → (∀ v ∈ vs, WellFormed v) →
    2 * (dumpItems fmt vs).length + 1 ≤ fuel →
      Json.items fmt fuel (dumpItems fmt vs ++ 0x5d :: rest) = some (vs, rest)
  members : ∀ (ms acc : List (List UInt8 × Json (List UInt8) ν)) rest, ms ≠ [] →
    ((acc ++ ms).Pairwise fun m m' => m.1 < m'.1) → (∀ m ∈ ms, utf8 [] m.1 = true) →
      (∀ m ∈ ms, WellFormed m.2) → 2 * (dumpMembers fmt ms).length + 1 ≤ fuel →
        Json.members fmt fuel acc (dumpMembers fmt ms ++ 0x7d :: rest) = some (acc ++ ms, rest)

theorem delimited_cons {b : UInt8} {rest : List UInt8} (h : b = 0x2c ∨ b = 0x5d ∨ b = 0x7d) :
    Delimited (b :: rest) := by
  intro c hc
  cases hc
  exact h

/-- A value, from what it is made of. -/
theorem value_dump {fuel : ℕ} (ih : ReadsBack fmt fuel) (v : Json (List UInt8) ν)
    (rest : List UInt8) (hv : WellFormed v) (hrest : Delimited rest)
    (hfuel : 2 * (dump fmt v).length ≤ fuel + 1) :
    value fmt (fuel + 1) (dump fmt v ++ rest) = some (v, rest) := by
  cases hv with
  | null => exact value_word (.inl ⟨rfl, rfl, rfl⟩)
  | bool b =>
    cases b with
    | true => exact value_word (.inr (.inl ⟨rfl, rfl, rfl⟩))
    | false => exact value_word (.inr (.inr ⟨rfl, rfl, rfl⟩))
  | num n =>
    obtain ⟨b, s, hd, hb⟩ := fmt.dump_head n
    have hscan := fmt.scan_dump n rest hrest
    rw [hd, List.cons_append] at hscan
    rw [dump, hd, List.cons_append, value_number hb, hscan]
    rfl
  | str h =>
    obtain ⟨t, ht, hscan⟩ := scanString_dumpString h rest
    rw [dump, ht, value_quote, hscan]
    rfl
  | @arr vs h =>
    cases vs with
    | nil => exact value_emptyArr
    | cons w ws =>
      obtain ⟨b, s, hd, hb, hne⟩ := dumpItems_head fmt w ws
      have hlen : (dump fmt (.arr (w :: ws))).length = (dumpItems fmt (w :: ws)).length + 2 := by
        simp [dump]
      have hitems := ih.items (w :: ws) rest (List.cons_ne_nil w ws) h (by omega)
      rw [hd, List.cons_append] at hitems
      rw [dump, List.cons_append, List.append_assoc, List.singleton_append, hd, List.cons_append,
        value_arr hb hne, hitems]
      rfl
  | @obj ms keys utf h =>
    cases ms with
    | nil => exact value_emptyObj
    | cons m ms =>
      obtain ⟨s, hd⟩ := dumpMembers_head fmt m ms
      have hlen : (dump fmt (.obj (m :: ms))).length = (dumpMembers fmt (m :: ms)).length + 2 := by
        simp [dump]
      have hmembers := ih.members (m :: ms) [] rest (List.cons_ne_nil m ms) keys utf h (by omega)
      rw [hd, List.cons_append] at hmembers
      rw [dump, List.cons_append, List.append_assoc, List.singleton_append, hd, List.cons_append,
        value_obj, hmembers]
      rfl

/-- The values of an array, from the first one. -/
theorem items_dumpItems {fuel : ℕ} (ih : ReadsBack fmt fuel) (v : Json (List UInt8) ν)
    (vs : List (Json (List UInt8) ν)) (rest : List UInt8) (h : ∀ w ∈ v :: vs, WellFormed w)
    (hfuel : 2 * (dumpItems fmt (v :: vs)).length ≤ fuel) :
    items fmt (fuel + 1) (dumpItems fmt (v :: vs) ++ 0x5d :: rest) = some (v :: vs, rest) := by
  have hv := h v List.mem_cons_self
  cases vs with
  | nil => exact items_last (ih.value v _ hv (delimited_cons (by simp)) hfuel)
  | cons w ws =>
    have hlen : (dumpItems fmt (v :: w :: ws)).length =
        (dump fmt v).length + (dumpItems fmt (w :: ws)).length + 1 := by
      rw [dumpItems, List.length_append, List.length_cons]
      omega
    have hpos := dump_pos fmt v
    have hws := ih.items (w :: ws) rest (List.cons_ne_nil w ws)
      (fun u hu => h u (List.mem_cons_of_mem _ hu)) (by omega)
    rw [dumpItems, List.append_assoc, List.cons_append,
      items_next (ih.value v _ hv (delimited_cons (by simp)) (by omega)), hws]
    rfl

/-- The members of an object, from the first one: its key is larger than those before. -/
theorem members_dumpMembers {fuel : ℕ} (ih : ReadsBack fmt fuel)
    (m : List UInt8 × Json (List UInt8) ν) (ms acc : List (List UInt8 × Json (List UInt8) ν))
    (rest : List UInt8) (keys : (acc ++ m :: ms).Pairwise fun m m' => m.1 < m'.1)
    (utf : ∀ m' ∈ m :: ms, utf8 [] m'.1 = true) (h : ∀ m' ∈ m :: ms, WellFormed m'.2)
    (hfuel : 2 * (dumpMembers fmt (m :: ms)).length ≤ fuel) :
    members fmt (fuel + 1) acc (dumpMembers fmt (m :: ms) ++ 0x7d :: rest) =
      some (acc ++ m :: ms, rest) := by
  obtain ⟨k, v⟩ := m
  have hv : WellFormed v := h (k, v) List.mem_cons_self
  have hk : utf8 [] k = true := utf (k, v) List.mem_cons_self
  have hacc : insertMember k v acc = acc ++ [(k, v)] :=
    insertMember_append fun m hm => (List.pairwise_append.mp keys).2.2 m hm (k, v) List.mem_cons_self
  cases ms with
  | nil =>
    obtain ⟨t, ht, hscan⟩ := scanString_dumpString hk (0x3a :: (dump fmt v ++ 0x7d :: rest))
    have hlen : (dumpMembers fmt [(k, v)]).length =
        (dumpString k).length + (dump fmt v).length + 1 := by
      rw [dumpMembers, List.length_append, List.length_cons]
      omega
    rw [dumpMembers, List.append_assoc, List.cons_append, ht,
      members_last hscan (ih.value v _ hv (delimited_cons (by simp)) (by omega)), hacc]
  | cons m ms =>
    obtain ⟨t, ht, hscan⟩ := scanString_dumpString hk
      (0x3a :: (dump fmt v ++ 0x2c :: (dumpMembers fmt (m :: ms) ++ 0x7d :: rest)))
    have hlen : (dumpMembers fmt ((k, v) :: m :: ms)).length =
        (dumpString k).length + (dump fmt v).length + (dumpMembers fmt (m :: ms)).length + 2 := by
      rw [dumpMembers, List.length_append, List.length_cons, List.length_append, List.length_cons]
      omega
    have hassoc : acc ++ (k, v) :: m :: ms = acc ++ [(k, v)] ++ m :: ms := by simp
    have hms := ih.members (m :: ms) (acc ++ [(k, v)]) rest (List.cons_ne_nil m ms) (hassoc ▸ keys)
      (fun m' hm => utf m' (List.mem_cons_of_mem _ hm))
      (fun m' hm => h m' (List.mem_cons_of_mem _ hm)) (by omega)
    rw [dumpMembers, List.append_assoc, List.cons_append, List.append_assoc, List.cons_append, ht,
      members_next hscan (ih.value v _ hv (delimited_cons (by simp)) (by omega)), hacc, hms, hassoc]

theorem readsBack (fuel : ℕ) : ReadsBack fmt fuel := by
  induction fuel with
  | zero =>
    refine ⟨fun v _ _ _ hfuel => ?_, fun vs _ _ _ hfuel => ?_, fun ms _ _ _ _ _ _ hfuel => ?_⟩
    · have := dump_pos fmt v
      omega
    · omega
    · omega
  | succ fuel ih =>
    refine ⟨value_dump fmt ih, ?_, ?_⟩
    · intro vs rest hne h hfuel
      obtain ⟨v, vs, rfl⟩ := List.exists_cons_of_ne_nil hne
      exact items_dumpItems fmt ih v vs rest h (by omega)
    · intro ms acc rest hne keys utf h hfuel
      obtain ⟨m, ms, rfl⟩ := List.exists_cons_of_ne_nil hne
      exact members_dumpMembers fmt ih m ms acc rest keys utf h (by omega)

/-- **A well-formed value is read back.** -/
theorem parse_dump {v : Json (List UInt8) ν} (hv : WellFormed v) :
    parse fmt (dump fmt v) = some v := by
  have hread := (readsBack fmt (2 * (dump fmt v).length)).value v [] hv (fun b hb => by cases hb)
    (le_refl _)
  rw [List.append_nil] at hread
  rw [parse, hread]
  rfl

/-! ## Before the first quotation mark -/

/-- No backslash stands before the first quotation mark. -/
def Calm (bs : List UInt8) : Prop := backslash ∉ bs.takeWhile (· ≠ quote)

theorem calm_cons {b : UInt8} {bs : List UInt8} (hb : b ≠ backslash) (h : Calm bs) :
    Calm (b :: bs) := by
  unfold Calm
  by_cases hq : b = quote
  · rw [List.takeWhile_cons_of_neg (by simp [hq])]
    exact List.not_mem_nil
  · rw [List.takeWhile_cons_of_pos (by simpa using hq), List.mem_cons, not_or]
    exact ⟨hb.symm, h⟩

theorem calm_quote {bs : List UInt8} : Calm (quote :: bs) := by
  unfold Calm
  rw [List.takeWhile_cons_of_neg (by simp)]
  exact List.not_mem_nil

theorem Calm.append {bs cs : List UInt8} (hb : Calm bs) (hc : Calm cs) : Calm (bs ++ cs) := by
  induction bs with
  | nil => exact hc
  | cons b bs ih =>
    by_cases hq : b = quote
    · exact hq ▸ calm_quote
    · unfold Calm at hb
      rw [List.takeWhile_cons_of_pos (by simpa using hq), List.mem_cons, not_or] at hb
      exact calm_cons (Ne.symm hb.1) (ih hb.2)

theorem calm_nil : Calm [] := List.not_mem_nil

theorem calm_of_notMem {bs : List UInt8} (h : backslash ∉ bs) : Calm bs :=
  fun hm => h (List.takeWhile_subset _ hm)

mutual

/-- **A text is calm.** -/
theorem calm_dump : ∀ v : Json (List UInt8) ν, Calm (dump fmt v)
  | .null => calm_of_notMem (by rw [dump]; decide)
  | .bool true => calm_of_notMem (by rw [dump]; decide)
  | .bool false => calm_of_notMem (by rw [dump]; decide)
  | .num n => calm_of_notMem (fmt.noBackslash n)
  | .str _ => calm_quote
  | .arr vs => calm_cons (by decide) ((calm_dumpItems vs).append (calm_of_notMem (by decide)))
  | .obj ms => calm_cons (by decide) ((calm_dumpMembers ms).append (calm_of_notMem (by decide)))

theorem calm_dumpItems : ∀ vs : List (Json (List UInt8) ν), Calm (dumpItems fmt vs)
  | [] => calm_nil
  | [v] => calm_dump v
  | v :: w :: vs => (calm_dump v).append (calm_cons (by decide) (calm_dumpItems (w :: vs)))

theorem calm_dumpMembers : ∀ ms : List (List UInt8 × Json (List UInt8) ν),
    Calm (dumpMembers fmt ms)
  | [] => calm_nil
  | [_] => calm_quote
  | _ :: _ :: _ => calm_quote

end

end Json
