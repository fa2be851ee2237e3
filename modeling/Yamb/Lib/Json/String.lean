import Mathlib.Data.List.Basic
import Mathlib.Tactic

/-!
# JSON string literals as bytes

* `escape`: the text of a string between its quotation marks;
* `scanString`: reads a literal behind its first quotation mark, with its escapes, and takes only
  well-formed UTF-8;
* **`scanString_escape`**: it reads back what was written;
* `Plain`, **`plain_of_scanString`**: a text that is pasted between quotation marks without
  escapes is read back only when it needs none.
-/

set_option autoImplicit false

namespace Json

/-! ## UTF-8 -/

/-- The ranges of the bytes that follow the first byte of a character. -/
def utf8Tail (b : UInt8) : Option (List (UInt8 × UInt8)) :=
  if b ≤ 0x7f then some []
  else if b ≤ 0xc1 then none
  else if b ≤ 0xdf then some [(0x80, 0xbf)]
  else if b = 0xe0 then some [(0xa0, 0xbf), (0x80, 0xbf)]
  else if b = 0xed then some [(0x80, 0x9f), (0x80, 0xbf)]
  else if b ≤ 0xef then some [(0x80, 0xbf), (0x80, 0xbf)]
  else if b = 0xf0 then some [(0x90, 0xbf), (0x80, 0xbf), (0x80, 0xbf)]
  else if b ≤ 0xf3 then some [(0x80, 0xbf), (0x80, 0xbf), (0x80, 0xbf)]
  else if b = 0xf4 then some [(0x80, 0x8f), (0x80, 0xbf), (0x80, 0xbf)]
  else none

/-- Well-formed UTF-8, when the bytes of the given ranges are still to come. -/
def utf8 : List (UInt8 × UInt8) → List UInt8 → Bool
  | [], [] => true
  | _ :: _, [] => false
  | r :: rs, b :: s => r.1 ≤ b && b ≤ r.2 && utf8 rs s
  | [], b :: s =>
    match utf8Tail b with
    | none => false
    | some rs => utf8 rs s

/-! ## Writing -/

def quote : UInt8 := 0x22

def backslash : UInt8 := 0x5c

/-- The digit of a number below sixteen. -/
def hexify (n : ℕ) : UInt8 := if n < 10 then UInt8.ofNat (48 + n) else UInt8.ofNat (87 + n)

/-- `dump_escaped` for one byte. -/
def escapeByte (b : UInt8) : List UInt8 :=
  if b = quote then [backslash, quote]
  else if b = backslash then [backslash, backslash]
  else if b = 0x08 then [backslash, 0x62]
  else if b = 0x0c then [backslash, 0x66]
  else if b = 0x0a then [backslash, 0x6e]
  else if b = 0x0d then [backslash, 0x72]
  else if b = 0x09 then [backslash, 0x74]
  else if b < 0x20 then
    [backslash, 0x75, 0x30, 0x30, hexify (b.toNat / 16), hexify (b.toNat % 16)]
  else [b]

/-- `dump_escaped`. -/
def escape (s : List UInt8) : List UInt8 := s.flatMap escapeByte

/-! ## Reading -/

def hexValue (b : UInt8) : Option ℕ :=
  if 0x30 ≤ b ∧ b ≤ 0x39 then some (b.toNat - 48)
  else if 0x41 ≤ b ∧ b ≤ 0x46 then some (b.toNat - 55)
  else if 0x61 ≤ b ∧ b ≤ 0x66 then some (b.toNat - 87)
  else none

/-- The number of four hexadecimal digits. -/
def hex4 (a b c d : UInt8) : Option ℕ := do
  let a ← hexValue a
  let b ← hexValue b
  let c ← hexValue c
  let d ← hexValue d
  pure (((a * 16 + b) * 16 + c) * 16 + d)

/-- The bytes of a code point. -/
def encode (codepoint : ℕ) : List UInt8 :=
  if codepoint < 0x80 then [UInt8.ofNat codepoint]
  else if codepoint ≤ 0x7ff then
    [UInt8.ofNat (0xc0 + codepoint / 64), UInt8.ofNat (0x80 + codepoint % 64)]
  else if codepoint ≤ 0xffff then
    [UInt8.ofNat (0xe0 + codepoint / 4096), UInt8.ofNat (0x80 + codepoint / 64 % 64),
      UInt8.ofNat (0x80 + codepoint % 64)]
  else
    [UInt8.ofNat (0xf0 + codepoint / 262144), UInt8.ofNat (0x80 + codepoint / 4096 % 64),
      UInt8.ofNat (0x80 + codepoint / 64 % 64), UInt8.ofNat (0x80 + codepoint % 64)]

/-- What a backslash and a letter stand for. -/
def simpleEscape (e : UInt8) : Option UInt8 :=
  if e = quote then some quote
  else if e = backslash then some backslash
  else if e = 0x2f then some 0x2f
  else if e = 0x62 then some 0x08
  else if e = 0x66 then some 0x0c
  else if e = 0x6e then some 0x0a
  else if e = 0x72 then some 0x0d
  else if e = 0x74 then some 0x09
  else none

/-- Puts bytes in front of a string that was read. -/
def push (bs : List UInt8) (r : Option (List UInt8 × List UInt8)) :
    Option (List UInt8 × List UInt8) :=
  r.map fun p => (bs ++ p.1, p.2)

/-- Reads a string up to its quotation mark: the string, and what follows. The first argument is
what is still missing of a character. -/
def scanString : List (UInt8 × UInt8) → List UInt8 → Option (List UInt8 × List UInt8)
  | [], [] => none
  | _ :: _, [] => none
  | r :: rs, b :: s => if r.1 ≤ b ∧ b ≤ r.2 then push [b] (scanString rs s) else none
  | [], b :: s =>
    if b = quote then some ([], s)
    else if b = backslash then
      match s with
      | 0x75 :: h₁ :: h₂ :: h₃ :: h₄ :: t =>
        match hex4 h₁ h₂ h₃ h₄ with
        | none => none
        | some codepoint =>
          if 0xd800 ≤ codepoint ∧ codepoint ≤ 0xdbff then
            -- a high surrogate wants a low one
            match t with
            | 0x5c :: 0x75 :: l₁ :: l₂ :: l₃ :: l₄ :: u =>
              match hex4 l₁ l₂ l₃ l₄ with
              | none => none
              | some codepoint2 =>
                if 0xdc00 ≤ codepoint2 ∧ codepoint2 ≤ 0xdfff then
                  push (encode (0x10000 + (codepoint - 0xd800) * 0x400 + (codepoint2 - 0xdc00)))
                    (scanString [] u)
                else none
            | _ => none
          else if 0xdc00 ≤ codepoint ∧ codepoint ≤ 0xdfff then none
          else push (encode codepoint) (scanString [] t)
      | e :: t =>
        match simpleEscape e with
        | none => none
        | some c => push [c] (scanString [] t)
      | [] => none
    else if b < 0x20 then none
    else
      match utf8Tail b with
      | none => none
      | some rs => push [b] (scanString rs s)

@[simp] theorem isSome_push (bs : List UInt8) (r : Option (List UInt8 × List UInt8)) :
    (push bs r).isSome = r.isSome :=
  Option.isSome_map

/-- The bytes that continue a character are no ASCII. -/
def Continues (rs : List (UInt8 × UInt8)) : Prop := ∀ r ∈ rs, 0x80 ≤ r.1

theorem continues_nil : Continues [] := fun _ h => absurd h List.not_mem_nil

theorem continues_utf8Tail {b : UInt8} {rs : List (UInt8 × UInt8)} (h : utf8Tail b = some rs) :
    Continues rs := by
  have hall : ∀ t : List (UInt8 × UInt8), (t.all fun r => 0x80 ≤ r.1) = true → Continues t :=
    fun t ht r hr => of_decide_eq_true (List.all_eq_true.mp ht r hr)
  unfold utf8Tail at h
  split_ifs at h <;> cases h <;> exact hall _ (by decide)

section scan

variable {rs : List (UInt8 × UInt8)} {r : UInt8 × UInt8} {b : UInt8} {s t more : List UInt8}

theorem scanString_cons (h : r.1 ≤ b ∧ b ≤ r.2) :
    scanString (r :: rs) (b :: s) = push [b] (scanString rs s) := by
  rw [scanString.eq_def]
  exact if_pos h

theorem scanString_not_cons (h : ¬ (r.1 ≤ b ∧ b ≤ r.2)) :
    scanString (r :: rs) (b :: s) = none := by
  rw [scanString.eq_def]
  exact if_neg h

theorem scanString_quote : scanString [] (quote :: s) = some ([], s) := by
  rw [scanString.eq_def]
  exact if_pos rfl

/-- A byte that starts a character. -/
theorem scanString_char (hq : b ≠ quote) (hb : b ≠ backslash) (hc : ¬ b < 0x20)
    (h : utf8Tail b = some rs) : scanString [] (b :: s) = push [b] (scanString rs s) := by
  rw [scanString.eq_def]
  simp only [if_neg hq, if_neg hb, if_neg hc, h]

theorem scanString_low (hq : b ≠ quote) (hb : b ≠ backslash) (hc : b < 0x20) :
    scanString [] (b :: s) = none := by
  rw [scanString.eq_def]
  simp only [if_neg hq, if_neg hb, if_pos hc]

theorem scanString_bad (hq : b ≠ quote) (hb : b ≠ backslash) (hc : ¬ b < 0x20)
    (h : utf8Tail b = none) : scanString [] (b :: s) = none := by
  rw [scanString.eq_def]
  simp only [if_neg hq, if_neg hb, if_neg hc, h]

theorem scanString_simple {e c : UInt8} (he : e ≠ 0x75) (h : simpleEscape e = some c) :
    scanString [] (backslash :: e :: s) = push [c] (scanString [] s) := by
  rw [scanString.eq_def]
  simp only [if_neg (by decide : backslash ≠ quote), if_true]
  split
  · rename_i heq
    cases heq
    exact absurd rfl he
  · rename_i heq
    cases heq
    rw [h]
  · rename_i heq
    cases heq

theorem scanString_control {n : ℕ} (hn : n < 32) :
    scanString [] (backslash :: 0x75 :: 0x30 :: 0x30 :: hexify (n / 16) :: hexify (n % 16) :: s) =
      push [UInt8.ofNat n] (scanString [] s) := by
  have hhex : hex4 0x30 0x30 (hexify (n / 16)) (hexify (n % 16)) = some n :=
    (by decide : ∀ n < 32, hex4 0x30 0x30 (hexify (n / 16)) (hexify (n % 16)) = some n) n hn
  rw [scanString.eq_def]
  simp only [if_neg (by decide : backslash ≠ quote), if_true, hhex]
  rw [if_neg (by omega), if_neg (by omega), encode, if_pos (by omega)]

/-- **One byte as it is written.** -/
theorem scanString_escapeByte (hb : b ≤ 0x7f) :
    scanString [] (escapeByte b ++ s) = push [b] (scanString [] s) := by
  unfold escapeByte
  split_ifs with h₁ h₂ h₃ h₄ h₅ h₆ h₇ h₈
  · subst h₁
    exact scanString_simple (by decide) rfl
  · subst h₂
    exact scanString_simple (by decide) rfl
  · exact h₃ ▸ scanString_simple (by decide) rfl
  · exact h₄ ▸ scanString_simple (by decide) rfl
  · exact h₅ ▸ scanString_simple (by decide) rfl
  · exact h₆ ▸ scanString_simple (by decide) rfl
  · exact h₇ ▸ scanString_simple (by decide) rfl
  · have hn : b.toNat < 32 := h₈
    have := scanString_control (s := s) hn
    rwa [UInt8.ofNat_toNat] at this
  · exact scanString_char h₁ h₂ h₈ (if_pos hb)

theorem ne_of_le (hb : 0x80 ≤ b) {c : UInt8} (hc : c.toNat < 128) : b ≠ c := by
  rintro rfl
  have : 128 ≤ b.toNat := hb
  omega

theorem not_lt_of_le (hb : 0x80 ≤ b) : ¬ b < 0x20 := fun h => by
  have : 128 ≤ b.toNat := hb
  have : b.toNat < 32 := h
  omega

theorem escapeByte_of_le (hb : 0x80 ≤ b) : escapeByte b = [b] := by
  have hne : ∀ c : UInt8, c.toNat < 128 → b ≠ c := fun c => ne_of_le hb
  rw [escapeByte, if_neg (hne _ (by decide)), if_neg (hne _ (by decide)), if_neg (hne _ (by decide)),
    if_neg (hne _ (by decide)), if_neg (hne _ (by decide)), if_neg (hne _ (by decide)),
    if_neg (hne _ (by decide)), if_neg (not_lt_of_le hb)]

/-- **A string that was written is read back.** -/
theorem scanString_escape (hrs : Continues rs) (hs : utf8 rs s = true) (more : List UInt8) :
    scanString rs (escape s ++ quote :: more) = some (s, more) := by
  induction s generalizing rs with
  | nil =>
    cases rs with
    | nil => exact scanString_quote
    | cons r rs => cases hs
  | cons b s ih =>
    rw [escape, List.flatMap_cons, List.append_assoc]
    cases rs with
    | nil =>
      rw [utf8] at hs
      cases hb : utf8Tail b with
      | none => simp [hb] at hs
      | some rs =>
        simp only [hb] at hs
        by_cases hle : b ≤ 0x7f
        · obtain rfl : [] = rs := Option.some.inj ((if_pos hle).symm.trans hb)
          rw [scanString_escapeByte hle]
          exact congrArg (push [b]) (ih hrs hs)
        · have h80 : 0x80 ≤ b := by
            have : ¬ b.toNat ≤ 127 := hle
            show 128 ≤ b.toNat
            omega
          have hb' := escapeByte_of_le h80
          rw [hb', List.singleton_append, scanString_char (ne_of_le h80 (by decide))
            (ne_of_le h80 (by decide)) (not_lt_of_le h80) hb]
          exact congrArg (push [b]) (ih (continues_utf8Tail hb) hs)
    | cons r rs =>
      simp only [utf8, Bool.and_eq_true, decide_eq_true_eq] at hs
      have h80 : 0x80 ≤ b := UInt8.le_trans (hrs r List.mem_cons_self) hs.1.1
      rw [escapeByte_of_le h80, List.singleton_append, scanString_cons hs.1]
      exact congrArg (push [b]) (ih (fun r hr => hrs r (List.mem_cons_of_mem _ hr)) hs.2)

end scan

/-! ## Texts without escapes -/

/-- A text that a literal holds as it is. -/
structure Plain (s : List UInt8) : Prop where
  utf8 : utf8 [] s = true
  notSpecial : ∀ b ∈ s, b ≠ quote ∧ b ≠ backslash ∧ ¬ b < 0x20

theorem plain_of_all {s : List UInt8} (h : utf8 [] s = true)
    (hs : (s.all fun b => b ≠ quote ∧ b ≠ backslash ∧ ¬ b < 0x20) = true) : Plain s :=
  ⟨h, fun b hb => of_decide_eq_true (List.all_eq_true.mp hs b hb)⟩

theorem escape_of_plain {s : List UInt8} (h : ∀ b ∈ s, b ≠ quote ∧ b ≠ backslash ∧ ¬ b < 0x20) :
    escape s = s := by
  induction s with
  | nil => rfl
  | cons b s ih =>
    obtain ⟨hq, hb, hc⟩ := h b List.mem_cons_self
    have hne : ∀ c : UInt8, c < 0x20 → b ≠ c := fun c hlt heq => hc (heq ▸ hlt)
    rw [escape, List.flatMap_cons, escapeByte, if_neg hq, if_neg hb, if_neg (hne _ (by decide)),
      if_neg (hne _ (by decide)), if_neg (hne _ (by decide)), if_neg (hne _ (by decide)),
      if_neg (hne _ (by decide)), if_neg hc]
    exact congrArg (b :: ·) (ih fun c hm => h c (List.mem_cons_of_mem _ hm))

/-- A plain text is read as it is. -/
theorem Plain.scanString {s : List UInt8} (h : Plain s) (more : List UInt8) :
    scanString [] (s ++ quote :: more) = some (s, more) := by
  have := scanString_escape continues_nil h.utf8 more
  rwa [escape_of_plain h.notSpecial] at this

/-- A text without quotation mark and backslash that is read has no control character, and is
well formed. -/
theorem utf8_of_scanString {rs : List (UInt8 × UInt8)} {s more : List UInt8} (hrs : Continues rs)
    (hs : ∀ b ∈ s, b ≠ quote ∧ b ≠ backslash)
    (h : (Json.scanString rs (s ++ quote :: more)).isSome = true) :
    Json.utf8 rs s = true ∧ ∀ b ∈ s, ¬ b < 0x20 := by
  induction s generalizing rs with
  | nil =>
    cases rs with
    | nil => exact ⟨rfl, fun b hb => absurd hb List.not_mem_nil⟩
    | cons r rs =>
      have hr : ¬ (r.1 ≤ quote ∧ quote ≤ r.2) := fun hin =>
        absurd (UInt8.le_trans (hrs r List.mem_cons_self) hin.1) (by decide)
      rw [List.nil_append, scanString_not_cons hr] at h
      cases h
  | cons b s ih =>
    have hs' : ∀ c ∈ s, c ≠ quote ∧ c ≠ backslash := fun c hc => hs c (List.mem_cons_of_mem _ hc)
    rw [List.cons_append] at h
    cases rs with
    | nil =>
      obtain ⟨hq, hb⟩ := hs b List.mem_cons_self
      by_cases hc : b < 0x20
      · rw [scanString_low hq hb hc] at h
        cases h
      cases hu : utf8Tail b with
      | none =>
        rw [scanString_bad hq hb hc hu] at h
        cases h
      | some rs =>
        rw [scanString_char hq hb hc hu, isSome_push] at h
        obtain ⟨hutf, hctl⟩ := ih (continues_utf8Tail hu) hs' h
        exact ⟨by simp only [Json.utf8, hu, hutf], List.forall_mem_cons.mpr ⟨hc, hctl⟩⟩
    | cons r rs =>
      by_cases hr : r.1 ≤ b ∧ b ≤ r.2
      · rw [scanString_cons hr, isSome_push] at h
        obtain ⟨hutf, hctl⟩ := ih (fun r hr => hrs r (List.mem_cons_of_mem _ hr)) hs' h
        refine ⟨by simp [Json.utf8, hr.1, hr.2, hutf], List.forall_mem_cons.mpr ⟨?_, hctl⟩⟩
        exact not_lt_of_le (UInt8.le_trans (hrs r List.mem_cons_self) hr.1)
      · rw [scanString_not_cons hr] at h
        cases h

/-! ## What a literal is made of -/

/-- The text of a literal and the string it stands for, byte by byte: a byte that stands for
itself, or an escape, which is longer than what it stands for. -/
inductive Body : List UInt8 → List UInt8 → Prop
  | nil : Body [] []
  | plain {b : UInt8} {x d : List UInt8} (hq : b ≠ quote) (hb : b ≠ backslash) (h : Body x d) :
      Body (b :: x) (b :: d)
  | escape {e : UInt8} {w v x d : List UInt8} (hlen : v.length < w.length + 2) (hw : quote ∉ w)
      (he : e = quote → w = [] ∧ v = [quote]) (h : Body x d) :
      Body (backslash :: e :: (w ++ x)) (v ++ d)

theorem length_encode_le (n : ℕ) : (encode n).length ≤ 4 := by
  unfold encode
  split_ifs <;> simp

theorem push_eq_some {bs d rest : List UInt8} {o : Option (List UInt8 × List UInt8)}
    (h : push bs o = some (d, rest)) : ∃ d', o = some (d', rest) ∧ d = bs ++ d' := by
  obtain ⟨p, rfl, hp⟩ := Option.map_eq_some_iff.mp h
  cases hp
  exact ⟨p.1, rfl, rfl⟩

theorem quote_notMem_hex4 {a b c d : UInt8} {n : ℕ} (h : hex4 a b c d = some n) :
    quote ∉ [a, b, c, d] := by
  have hquote : hexValue quote = none := rfl
  simp only [hex4, Option.bind_eq_bind, Option.bind_eq_some_iff] at h
  obtain ⟨x, hx, y, hy, z, hz, w, hw, -⟩ := h
  have hne : ∀ {e : UInt8} {m : ℕ}, hexValue e = some m → quote ≠ e := by
    rintro e m he rfl
    rw [hquote] at he
    cases he
  simp [hne hx, hne hy, hne hz, hne hw]

theorem quote_of_simpleEscape {c : UInt8} (h : simpleEscape quote = some c) : [c] = [quote] :=
  congrArg (fun c => [c]) (Option.some.inj h).symm

/-- What is read is the body of a literal and what follows it. -/
theorem body_of_scanString {rs : List (UInt8 × UInt8)} {x d rest : List UInt8} (hrs : Continues rs)
    (h : Json.scanString rs x = some (d, rest)) :
    ∃ body, x = body ++ quote :: rest ∧ Body body d := by
  fun_induction Json.scanString rs x generalizing d with
  | case1 | case2 | case4 | case6 | case7 | case9 | case10 | case11 | case13 | case15 | case16
  | case17 => cases h
  | case3 r rs b s hr ih =>
    -- a byte that continues a character
    obtain ⟨d', hd, rfl⟩ := push_eq_some h
    obtain ⟨body, rfl, hbody⟩ := ih (fun r hr => hrs r (List.mem_cons_of_mem _ hr)) hd
    have h80 := UInt8.le_trans (hrs r List.mem_cons_self) hr.1
    exact ⟨b :: body, rfl, .plain (ne_of_le h80 (by decide)) (ne_of_le h80 (by decide)) hbody⟩
  | case5 s =>
    cases h
    exact ⟨[], rfl, .nil⟩
  | case8 h₁ h₂ h₃ h₄ cp hhex hhigh l₁ l₂ l₃ l₄ u cp2 hhex2 hlow hq ih =>
    -- a surrogate pair
    obtain ⟨v, hv⟩ : ∃ v, v = encode (0x10000 + (cp - 0xd800) * 0x400 + (cp2 - 0xdc00)) := ⟨_, rfl⟩
    rw [← hv] at h
    obtain ⟨d', hd, rfl⟩ := push_eq_some h
    obtain ⟨body, rfl, hbody⟩ := ih hrs hd
    refine ⟨backslash :: 0x75 :: ([h₁, h₂, h₃, h₄, 0x5c, 0x75, l₁, l₂, l₃, l₄] ++ body), rfl,
      .escape ?_ ?_ ?_ hbody⟩
    · exact lt_of_le_of_lt (hv ▸ length_encode_le _) (by simp)
    · have := quote_notMem_hex4 hhex
      have := quote_notMem_hex4 hhex2
      simp_all [quote]
    · intro he
      cases he
  | case12 h₁ h₂ h₃ h₄ t cp hhex hhigh hlow hq ih =>
    obtain ⟨d', hd, rfl⟩ := push_eq_some h
    obtain ⟨body, rfl, hbody⟩ := ih hrs hd
    refine ⟨backslash :: 0x75 :: ([h₁, h₂, h₃, h₄] ++ body), rfl,
      .escape ?_ (quote_notMem_hex4 hhex) ?_ hbody⟩
    · exact lt_of_le_of_lt (length_encode_le _) (by simp)
    · intro he
      cases he
  | case14 e t hu c hc hq ih =>
    obtain ⟨d', hd, rfl⟩ := push_eq_some h
    obtain ⟨body, rfl, hbody⟩ := ih hrs hd
    refine ⟨backslash :: e :: ([] ++ body), rfl, .escape (by simp) List.not_mem_nil ?_ hbody⟩
    rintro rfl
    exact ⟨rfl, quote_of_simpleEscape hc⟩
  | case18 b s hq hb hc rs hu ih =>
    obtain ⟨d', hd, rfl⟩ := push_eq_some h
    obtain ⟨body, rfl, hbody⟩ := ih (continues_utf8Tail hu) hd
    exact ⟨b :: body, rfl, .plain hq hb hbody⟩

/-! ## What is read is well formed -/

theorem utf8_ascii {b : UInt8} {s : List UInt8} (hb : b ≤ 0x7f) :
    Json.utf8 [] (b :: s) = Json.utf8 [] s := by
  rw [Json.utf8, utf8Tail, if_pos hb]

theorem utf8_cons {r : UInt8 × UInt8} {rs : List (UInt8 × UInt8)} {b : UInt8} {s : List UInt8}
    (h : r.1 ≤ b ∧ b ≤ r.2) : Json.utf8 (r :: rs) (b :: s) = Json.utf8 rs s := by
  rw [Json.utf8, decide_eq_true h.1, decide_eq_true h.2]
  rfl

/-- A byte that continues a character. -/
theorem tail_mem (lo hi : ℕ) {k : ℕ} (hlo : lo ≤ k) (hhi : k ≤ hi) (h : hi < 64) :
    UInt8.ofNat (0x80 + lo) ≤ UInt8.ofNat (0x80 + k) ∧
      UInt8.ofNat (0x80 + k) ≤ UInt8.ofNat (0x80 + hi) := by
  simp only [UInt8.le_iff_toNat_le, UInt8.toNat_ofNat']
  omega

theorem utf8Tail_two {m : ℕ} (h : 2 ≤ m ∧ m < 32) :
    utf8Tail (UInt8.ofNat (0xc0 + m)) = some [(0x80, 0xbf)] :=
  (by decide : ∀ m < 32, 2 ≤ m → utf8Tail (UInt8.ofNat (0xc0 + m)) = some [(0x80, 0xbf)]) m h.2 h.1

theorem utf8Tail_three {m : ℕ} (h : m < 16) : utf8Tail (UInt8.ofNat (0xe0 + m)) =
    some [(if m = 0 then 0xa0 else 0x80, if m = 13 then 0x9f else 0xbf), (0x80, 0xbf)] :=
  (by decide : ∀ m < 16, utf8Tail (UInt8.ofNat (0xe0 + m)) =
    some [(if m = 0 then 0xa0 else 0x80, if m = 13 then 0x9f else 0xbf), (0x80, 0xbf)]) m h

theorem utf8Tail_four {m : ℕ} (h : m < 5) : utf8Tail (UInt8.ofNat (0xf0 + m)) =
    some [(if m = 0 then 0x90 else 0x80, if m = 4 then 0x8f else 0xbf), (0x80, 0xbf),
      (0x80, 0xbf)] :=
  (by decide : ∀ m < 5, utf8Tail (UInt8.ofNat (0xf0 + m)) =
    some [(if m = 0 then 0x90 else 0x80, if m = 4 then 0x8f else 0xbf), (0x80, 0xbf),
      (0x80, 0xbf)]) m h

/-- The code points that are no surrogates are encoded in UTF-8. -/
theorem utf8_encode {n : ℕ} (hn : n < 0x110000) (hs : ¬ (0xd800 ≤ n ∧ n ≤ 0xdfff)) (s : List UInt8) :
    Json.utf8 [] (encode n ++ s) = Json.utf8 [] s := by
  have htail : ∀ k : ℕ, k < 64 →
      (0x80 : UInt8) ≤ UInt8.ofNat (0x80 + k) ∧ UInt8.ofNat (0x80 + k) ≤ (0xbf : UInt8) :=
    fun k hk => tail_mem 0 63 (Nat.zero_le k) (by omega) (by decide)
  unfold encode
  split_ifs with h₁ h₂ h₃
  · have hle : UInt8.ofNat n ≤ 0x7f := by
      simp only [UInt8.le_iff_toNat_le, UInt8.toNat_ofNat']
      show n % 256 ≤ 127
      omega
    exact utf8_ascii hle
  · simp only [List.cons_append, List.nil_append]
    rw [Json.utf8, utf8Tail_two (by omega)]
    exact utf8_cons (htail _ (by omega))
  · simp only [List.cons_append, List.nil_append]
    rw [Json.utf8, utf8Tail_three (by omega)]
    simp only
    rw [utf8_cons, utf8_cons (htail _ (by omega))]
    -- overlong forms and surrogates are cut off
    have hlo : (if n / 4096 = 0 then (0xa0 : UInt8) else 0x80) ≤
        UInt8.ofNat (0x80 + n / 64 % 64) := by
      split_ifs
      · exact (tail_mem 32 63 (by omega) (by omega) (by decide)).1
      · exact (htail _ (by omega)).1
    have hhi : UInt8.ofNat (0x80 + n / 64 % 64) ≤
        (if n / 4096 = 13 then (0x9f : UInt8) else 0xbf) := by
      split_ifs
      · exact (tail_mem 0 31 (by omega) (by omega) (by decide)).2
      · exact (htail _ (by omega)).2
    exact ⟨hlo, hhi⟩
  · simp only [List.cons_append, List.nil_append]
    rw [Json.utf8, utf8Tail_four (by omega)]
    simp only
    rw [utf8_cons, utf8_cons (htail _ (by omega)), utf8_cons (htail _ (by omega))]
    have hlo : (if n / 262144 = 0 then (0x90 : UInt8) else 0x80) ≤
        UInt8.ofNat (0x80 + n / 4096 % 64) := by
      split_ifs
      · exact (tail_mem 16 63 (by omega) (by omega) (by decide)).1
      · exact (htail _ (by omega)).1
    have hhi : UInt8.ofNat (0x80 + n / 4096 % 64) ≤
        (if n / 262144 = 4 then (0x8f : UInt8) else 0xbf) := by
      split_ifs
      · exact (tail_mem 0 15 (by omega) (by omega) (by decide)).2
      · exact (htail _ (by omega)).2
    exact ⟨hlo, hhi⟩

theorem simpleEscape_le {e c : UInt8} (h : simpleEscape e = some c) : c ≤ 0x7f := by
  unfold simpleEscape at h
  split_ifs at h <;> cases h <;> decide

theorem hex4_lt {a b c d : UInt8} {n : ℕ} (h : hex4 a b c d = some n) : n < 0x10000 := by
  have hlt : ∀ {e : UInt8} {m : ℕ}, hexValue e = some m → m < 16 := by
    intro e m he
    unfold hexValue at he
    split_ifs at he with h₁ h₂ h₃
    · obtain ⟨-, h⟩ := h₁
      have : e.toNat ≤ 57 := h
      cases he
      omega
    · obtain ⟨-, h⟩ := h₂
      have : e.toNat ≤ 70 := h
      cases he
      omega
    · obtain ⟨-, h⟩ := h₃
      have : e.toNat ≤ 102 := h
      cases he
      omega
  simp only [hex4, Option.bind_eq_bind, Option.bind_eq_some_iff] at h
  obtain ⟨x, hx, y, hy, z, hz, w, hw, h⟩ := h
  have hx := hlt hx
  have hy := hlt hy
  have hz := hlt hz
  have hw := hlt hw
  cases h
  omega

/-- **What is read is well formed.** -/
theorem utf8_scanString {rs : List (UInt8 × UInt8)} {x d rest : List UInt8}
    (h : Json.scanString rs x = some (d, rest)) : Json.utf8 rs d = true := by
  fun_induction Json.scanString rs x generalizing d with
  | case1 | case2 | case4 | case6 | case7 | case9 | case10 | case11 | case13 | case15 | case16
  | case17 => cases h
  | case3 r rs b s hr ih =>
    obtain ⟨d', hd, rfl⟩ := push_eq_some h
    exact (utf8_cons hr).trans (ih hd)
  | case5 s =>
    cases h
    rfl
  | case8 h₁ h₂ h₃ h₄ cp hhex hhigh l₁ l₂ l₃ l₄ u cp2 hhex2 hlow hq ih =>
    obtain ⟨n, hn⟩ : ∃ n, n = 0x10000 + (cp - 0xd800) * 0x400 + (cp2 - 0xdc00) := ⟨_, rfl⟩
    rw [← hn] at h
    obtain ⟨d', hd, rfl⟩ := push_eq_some h
    rw [utf8_encode (by omega) (by omega)]
    exact ih hd
  | case12 h₁ h₂ h₃ h₄ t cp hhex hhigh hlow hq ih =>
    obtain ⟨d', hd, rfl⟩ := push_eq_some h
    have := hex4_lt hhex
    rw [utf8_encode (by omega) (by omega)]
    exact ih hd
  | case14 e t hu c hc hq ih =>
    obtain ⟨d', hd, rfl⟩ := push_eq_some h
    exact (utf8_ascii (simpleEscape_le hc)).trans (ih hd)
  | case18 b s hq hb hc rs hu ih =>
    obtain ⟨d', hd, rfl⟩ := push_eq_some h
    rw [List.singleton_append, Json.utf8, hu]
    exact ih hd

theorem Body.length_le {x d : List UInt8} (h : Body x d) : d.length ≤ x.length := by
  induction h with
  | nil => exact le_refl _
  | plain _ _ _ ih => exact Nat.succ_le_succ ih
  | escape hlen _ _ _ ih =>
    simp only [List.length_append, List.length_cons]
    omega

/-- A literal that is as long as its string holds it as it is. -/
theorem Body.eq_of_length {x d : List UInt8} (h : Body x d) (hlen : d.length = x.length) :
    d = x ∧ ∀ b ∈ x, b ≠ quote ∧ b ≠ backslash := by
  induction h with
  | nil => exact ⟨rfl, fun b hb => absurd hb List.not_mem_nil⟩
  | plain hq hb _ ih =>
    obtain ⟨rfl, hx⟩ := ih (Nat.succ.inj hlen)
    exact ⟨rfl, List.forall_mem_cons.mpr ⟨⟨hq, hb⟩, hx⟩⟩
  | escape hl _ _ hbody _ =>
    have := hbody.length_le
    simp only [List.length_append, List.length_cons] at hlen
    omega

/-- Without a backslash there is no escape. -/
theorem Body.eq_of_notMem {x d : List UInt8} (h : Body x d) (hx : backslash ∉ x) : d = x := by
  induction h with
  | nil => rfl
  | plain _ _ _ ih => rw [ih fun hm => hx (List.mem_cons_of_mem _ hm)]
  | escape => exact absurd List.mem_cons_self hx

/-- A quotation mark in a literal stands behind a backslash, and the literal can be cut there. -/
theorem Body.cut_quote {x y d : List UInt8} (h : Body (x ++ quote :: y) d) :
    ∃ x' d' d'', x = x' ++ [backslash] ∧ Body x' d' ∧ Body y d'' ∧ d = d' ++ quote :: d'' := by
  obtain ⟨z, hz⟩ : ∃ z, z = x ++ quote :: y := ⟨_, rfl⟩
  rw [← hz] at h
  induction h generalizing x with
  | nil => simp at hz
  | @plain b z d hq hb hbody ih =>
    cases x with
    | nil => exact absurd (List.cons.inj hz).1 hq
    | cons c x =>
      obtain ⟨rfl, hz'⟩ := List.cons.inj hz
      obtain ⟨x', d', d'', rfl, hx', hy, rfl⟩ := ih hz'
      exact ⟨b :: x', b :: d', d'', rfl, .plain hq hb hx', hy, rfl⟩
  | @escape e w v z d hlen hw he hbody ih =>
    match x, hz with
    | [], hz => exact absurd (List.cons.inj hz).1 (by decide)
    | [c], hz =>
      simp only [List.cons_append, List.nil_append, List.cons.injEq] at hz
      obtain ⟨rfl, rfl, rfl⟩ := hz
      obtain ⟨rfl, rfl⟩ := he rfl
      exact ⟨[], [], _, rfl, .nil, hbody, rfl⟩
    | c :: c' :: x, hz =>
      simp only [List.cons_append, List.cons.injEq] at hz
      obtain ⟨rfl, rfl, hz⟩ := hz
      -- the rest of the escape has no quotation mark
      rcases List.append_eq_append_iff.mp hz with ⟨a, rfl, ha⟩ | ⟨a, rfl, ha⟩
      · obtain ⟨x', d', d'', rfl, hx', hy, rfl⟩ := ih ha
        exact ⟨backslash :: e :: (w ++ x'), v ++ d', d'', by simp, .escape hlen hw he hx', hy,
          by simp⟩
      · cases a with
        | nil =>
          obtain ⟨x', d', d'', hx, hx', hy, rfl⟩ := ih (x := []) ha.symm
          exact absurd hx (by simp)
        | cons q a =>
          obtain ⟨rfl, -⟩ := List.cons.inj ha
          exact absurd (List.mem_append_right x List.mem_cons_self) hw

/-- When no backslash comes before the next quotation mark, a literal that ends at a quotation mark
has no backslash. -/
theorem Body.backslash_notMem {y d rest : List UInt8} (h : Body y d)
    (hmore : backslash ∉ (y ++ quote :: rest).takeWhile (· ≠ quote)) : backslash ∉ y := by
  have htake : ∀ {y₁ y₂ : List UInt8}, quote ∉ y₁ →
      (y₁ ++ quote :: y₂).takeWhile (· ≠ quote) = y₁ := by
    intro y₁ y₂ hq
    rw [List.takeWhile_append_of_pos fun b hb => by simpa using fun hbq : b = quote => hq (hbq ▸ hb),
      List.takeWhile_cons_of_neg (by simp), List.append_nil]
  by_cases hq : quote ∈ y
  · obtain ⟨y₁, y₂, rfl, hq₁⟩ := List.eq_append_cons_of_mem hq
    obtain ⟨x', d', d'', rfl, -⟩ := h.cut_quote
    rw [List.append_assoc, List.cons_append, htake hq₁] at hmore
    exact absurd (List.mem_append_right x' (List.mem_singleton.mpr rfl)) hmore
  · rwa [htake hq] at hmore

/-- **A pasted text that is read back is plain**, when no backslash comes before the next quotation
mark. -/
theorem plain_of_scanString {s more rest : List UInt8}
    (hmore : backslash ∉ more.takeWhile (· ≠ quote))
    (h : Json.scanString [] (s ++ quote :: more) = some (s, rest)) : Plain s := by
  obtain ⟨body, hbody, hs⟩ := body_of_scanString continues_nil h
  have hends : body = s → Plain s := by
    -- the literal ends where it was meant to
    rintro rfl
    have hplain := (hs.eq_of_length rfl).2
    have hsome : (Json.scanString [] (body ++ quote :: more)).isSome = true := by rw [h]; rfl
    obtain ⟨hutf, hctl⟩ := utf8_of_scanString continues_nil hplain hsome
    exact ⟨hutf, fun b hb => ⟨(hplain b hb).1, (hplain b hb).2, hctl b hb⟩⟩
  rcases List.append_eq_append_iff.mp hbody with ⟨a, hbs, ha⟩ | ⟨a, hsb, -⟩
  · cases a with
    | nil => exact hends (hbs.trans (List.append_nil s))
    | cons q y =>
      -- its quotation mark is escaped, and the string would end with something else
      obtain ⟨rfl, rfl⟩ := List.cons.inj ha
      rw [hbs] at hs
      obtain ⟨x', d', d'', hx, -, hy, hd⟩ := hs.cut_quote
      have hyb := hy.backslash_notMem hmore
      rw [hy.eq_of_notMem hyb] at hd
      have hlast : (quote :: y).getLast? = some backslash := by
        have := congrArg List.getLast? (hx.symm.trans hd)
        rw [List.getLast?_append, List.getLast?_append] at this
        simpa using this.symm
      rcases List.mem_cons.mp (List.mem_of_getLast? hlast) with hq | hm
      · exact absurd hq (by decide)
      · exact absurd hm hyb
  · -- it ends too early
    have hle := hs.length_le
    cases a with
    | nil => exact hends (by rw [hsb, List.append_nil])
    | cons q y =>
      rw [hsb, List.length_append, List.length_cons] at hle
      omega

end Json
