import Yamb.Incoming.Typed
import Yamb.Lib.Json.Number
import Yamb.Lib.Json.Unicode
import Mathlib.Data.String.Basic

/-!
# The texts of maps

A difference is sent as the text of a JSON object, inside of the member `data`, and the receiver
parses that text again.

* `readJson`: a parser of texts;
* `Writes`, `writes_diff`, `writes_announce`: what `dump` writes, in bytes;
* `UnitsByLvl.named`, `atoi_toString`: the names of the levels;
* **`readJson_dump`**, **`readJson_announce`**: the texts of a difference and of an announce are
  read as their JSON;
* **`processWebRTCMessage_updateMap`**: the receiver of a difference applies what was sent.
-/

set_option autoImplicit false

namespace Yamb

open Json (bytes)

namespace Incoming

/-- A parser of JSON texts, for integers. -/
def readJson (text : String) : Option JsonValue := Json.read Json.intFormat JsonNumber.int text

/-! ### Strings -/

theorem bytes_toString (c : Char) : bytes c.toString = String.utf8EncodeChar c := by
  rw [Json.bytes_eq_flatMap, Char.toString_eq_singleton, String.toList_singleton,
    List.flatMap_singleton]

theorem bytes_escape_ascii {n : ℕ} (hn : n < 128) :
    bytes (jsonString.escape (Char.ofNat n)) = Json.escape [UInt8.ofNat n] :=
  (by decide : ∀ n < 128, bytes (jsonString.escape (Char.ofNat n)) = Json.escape [UInt8.ofNat n]) n hn

/-- No character that is escaped. -/
theorem escape_of_le {c : Char} (hc : ¬ c.toNat < 128) : jsonString.escape c = c.toString := by
  have hne : ∀ d : Char, d.toNat < 128 → c ≠ d := by
    rintro d hd rfl
    exact hc hd
  rw [jsonString.escape, if_neg (hne _ (by decide)), if_neg (hne _ (by decide)),
    if_neg (hne _ (by decide)), if_neg (hne _ (by decide)), if_neg (hne _ (by decide)),
    if_neg (hne _ (by decide)), if_neg (hne _ (by decide)), if_neg (by omega)]

theorem bytes_escape (c : Char) :
    bytes (jsonString.escape c) = Json.escape (String.utf8EncodeChar c) := by
  rw [Json.utf8EncodeChar_eq]
  by_cases hc : c.toNat < 128
  · rw [← Char.ofNat_toNat c, bytes_escape_ascii hc, Json.encode, Char.ofNat_toNat, if_pos hc]
  · rw [escape_of_le hc, bytes_toString, Json.utf8EncodeChar_eq,
      Json.escape_encode (by omega) (Json.toNat_valid c).1]

theorem bytes_jsonString (s : String) : bytes (jsonString s) = Json.dumpString (bytes s) := by
  have hjoin : ∀ cs : List Char, bytes (String.join (cs.map jsonString.escape)) =
      Json.escape (cs.flatMap String.utf8EncodeChar) := by
    intro cs
    induction cs with
    | nil => rfl
    | cons c cs ih =>
      rw [List.map_cons, String.join_cons, Json.bytes_append, bytes_escape, ih, List.flatMap_cons,
        Json.escape, Json.escape, Json.escape, List.flatMap_append]
  rw [jsonString, Json.bytes_append, Json.bytes_append, hjoin, ← Json.bytes_eq_flatMap]
  rfl

/-! ### Units and levels -/

/-- The JSON of a unit, with numbers of any kind. -/
def unitJson {ν : Type} (u : NodesMapDiffUnit) : Json String ν :=
  .obj [("Id", .str u.id), ("ParentIds", .arr (u.parentIds.map .str))]

def levelsJson {ν : Type} (lvls : NamedLvls) : Json String ν :=
  .obj (lvls.map fun e => (e.1, .arr (e.2.map unitJson)))

/-- The text of a value. -/
def Writes (text : String) (v : Json String ℤ) : Prop :=
  bytes text = Json.dump Json.intFormat (v.map bytes id)

theorem writes_string (s : String) : Writes (jsonString s) (.str s) := bytes_jsonString s

theorem bytes_intercalate {α : Type} {f : α → String} {g : α → Json String ℤ}
    (h : ∀ a, Writes (f a) (g a)) (l : List α) : bytes (",".intercalate (l.map f)) =
      Json.dumpItems Json.intFormat ((l.map g).map (Json.map bytes id)) := by
  induction l with
  | nil => rfl
  | cons a l ih =>
    cases l with
    | nil =>
      rw [List.map_singleton, String.intercalate_singleton]
      exact h a
    | cons b l =>
      rw [List.map_cons, List.map_cons, String.intercalate_cons_cons, ← List.map_cons,
        Json.bytes_append, Json.bytes_append, ih, h a]
      simp only [List.map_cons, Json.dumpItems, List.append_assoc]
      rfl

theorem writes_array {α : Type} {f : α → String} {g : α → Json String ℤ}
    (h : ∀ a, Writes (f a) (g a)) (l : List α) :
    Writes (jsonArray (l.map f)) (.arr (l.map g)) := by
  rw [Writes, jsonArray, Json.bytes_append, Json.bytes_append, bytes_intercalate h, Json.map,
    Json.mapItems_eq, Json.dump]
  rfl

theorem bytes_members {α : Type} {k f : α → String} {g : α → Json String ℤ}
    (h : ∀ a, Writes (f a) (g a)) (l : List α) :
    bytes (",".intercalate (l.map fun a => jsonString (k a) ++ ":" ++ f a)) =
      Json.dumpMembers Json.intFormat (l.map fun a => (bytes (k a), (g a).map bytes id)) := by
  have hone : ∀ a, bytes (jsonString (k a) ++ ":" ++ f a) =
      Json.dumpString (bytes (k a)) ++ 0x3a :: Json.dump Json.intFormat ((g a).map bytes id) := by
    intro a
    rw [Json.bytes_append, Json.bytes_append, bytes_jsonString, h a, List.append_assoc]
    rfl
  induction l with
  | nil => rfl
  | cons a l ih =>
    cases l with
    | nil =>
      rw [List.map_singleton, String.intercalate_singleton]
      exact hone a
    | cons b l =>
      rw [List.map_cons] at ih
      rw [List.map_cons, List.map_cons, String.intercalate_cons_cons, Json.bytes_append,
        Json.bytes_append, ih, hone a]
      simp only [List.map_cons, Json.dumpMembers, List.append_assoc, List.cons_append]
      rfl

theorem writes_object {α : Type} {k f : α → String} {g : α → Json String ℤ}
    (h : ∀ a, Writes (f a) (g a)) (l : List α) :
    Writes ("\x7b" ++ ",".intercalate (l.map fun a => jsonString (k a) ++ ":" ++ f a) ++ "\x7d")
      (.obj (l.map fun a => (k a, g a))) := by
  rw [Writes, Json.bytes_append, Json.bytes_append, bytes_members h, Json.map, Json.mapMembers_eq,
    List.map_map, Json.dump]
  rfl

theorem writes_unit (u : NodesMapDiffUnit) : Writes u.dump (unitJson u) := by
  have hids := writes_array writes_string u.parentIds
  rw [Writes] at hids
  rw [Writes, NodesMapDiffUnit.dump, Json.bytes_append, Json.bytes_append, Json.bytes_append,
    Json.bytes_append, hids, bytes_jsonString]
  have hid : bytes "\x7b\"Id\":" = 0x7b :: (Json.dumpString (bytes "Id") ++ [0x3a]) := by decide
  have hkey : bytes ",\"ParentIds\":" = 0x2c :: (Json.dumpString (bytes "ParentIds") ++ [0x3a]) := by
    decide
  have hend : bytes "\x7d" = [0x7d] := by decide
  rw [hid, hkey, hend]
  simp only [unitJson, Json.map, Json.mapMembers, Json.dump, Json.dumpMembers, List.cons_append,
    List.append_assoc, List.nil_append]

/-- `dump` of the levels. -/
def levelsText (lvls : NamedLvls) : String :=
  "\x7b" ++ ",".intercalate (lvls.map fun e =>
    jsonString e.1 ++ ":" ++ jsonArray (e.2.map NodesMapDiffUnit.dump)) ++ "\x7d"

theorem writes_levels (lvls : NamedLvls) : Writes (levelsText lvls) (levelsJson lvls) := by
  have hwrites := writes_object (k := Prod.fst)
    (f := fun e : String × List NodesMapDiffUnit => jsonArray (e.2.map NodesMapDiffUnit.dump))
    (g := fun e => .arr (e.2.map unitJson)) (fun e => writes_array writes_unit e.2) lvls
  unfold levelsText
  exact hwrites

/-! ### Differences and announces -/

end Incoming

/-- The levels by the texts of their numbers, in the order of a JSON object. -/
def UnitsByLvl.named (m : UnitsByLvl) : NamedLvls :=
  (m.map fun pair => (toString pair.1, pair.2)).mergeSort fun a b => a.1 ≤ b.1

namespace Incoming

theorem writes_lvls (m : UnitsByLvl) : Writes m.dump (levelsJson m.named) := writes_levels m.named

/-- The JSON of a difference, with numbers of any kind. -/
def diffJson {ν : Type} (connected disconnected : NamedLvls) : Json String ν :=
  .obj [("connectedBylvls", levelsJson connected), ("disconnectedBylvls", levelsJson disconnected)]

theorem bytes_connected : bytes "\x7b\"connectedBylvls\":" =
    0x7b :: (Json.dumpString (bytes "connectedBylvls") ++ [0x3a]) := by decide +kernel

theorem bytes_disconnected : bytes ",\"disconnectedBylvls\":" =
    0x2c :: (Json.dumpString (bytes "disconnectedBylvls") ++ [0x3a]) := by decide +kernel

theorem bytes_brace : bytes "\x7d" = [0x7d] := by decide

theorem writes_diff (d : NodesMapDiff) :
    Writes d.dump (diffJson d.connectedBylvls.named d.disconnectedBylvls.named) := by
  have hconnected := writes_lvls d.connectedBylvls
  have hdisconnected := writes_lvls d.disconnectedBylvls
  unfold Writes at hconnected hdisconnected ⊢
  unfold NodesMapDiff.dump
  rw [Json.bytes_append, Json.bytes_append, Json.bytes_append, Json.bytes_append, hconnected,
    hdisconnected]
  simp only [bytes_connected, bytes_disconnected, bytes_brace, diffJson, Json.map,
    Json.mapMembers, Json.dump, Json.dumpMembers, List.cons_append, List.append_assoc,
    List.nil_append]

/-- `sendingData` of `onCreatedConnection`: of the braces, the inner pair without a value is null. -/
def announceText (lvls : NamedLvls) (nPeersInRoom : ℕ) : String :=
  "\x7b\"connectionsMap\":\x7b\"connectedBylvls\":" ++ levelsText lvls ++
    ",\"disconnectedBylvls\":null\x7d,\"nPeersInRoom\":" ++ toString nPeersInRoom ++ "\x7d"

def announceJson {ν : Type} (lvls : NamedLvls) (nPeersInRoom : ν) : Json String ν :=
  .obj [("connectionsMap", .obj [("connectedBylvls", levelsJson lvls),
    ("disconnectedBylvls", .null)]), ("nPeersInRoom", .num nPeersInRoom)]

theorem bytes_digits (n : ℕ) :
    (Nat.toDigits 10 n).flatMap String.utf8EncodeChar = Decimal.decimal n := by
  have hdigit : ∀ d < 10, String.utf8EncodeChar d.digitChar = [Decimal.digit d] := by decide
  induction n using Nat.strong_induction_on with
  | _ n ih =>
    rw [Nat.toDigits_eq_if (by decide), Decimal.decimal]
    split_ifs with hn
    · rw [List.flatMap_singleton, hdigit n hn]
    · rw [List.flatMap_append, ih (n / 10) (by omega), List.flatMap_singleton,
        hdigit _ (Nat.mod_lt n (by decide))]

theorem bytes_nat (n : ℕ) : bytes (toString n) = Decimal.decimalInt n := by
  rw [Json.bytes_eq_flatMap, Nat.toString_eq_repr, Nat.toList_repr, bytes_digits,
    Decimal.decimalInt, if_neg (by omega), Int.natAbs_natCast]

theorem bytes_connectionsMap : bytes "\x7b\"connectionsMap\":\x7b\"connectedBylvls\":" =
    0x7b :: (Json.dumpString (bytes "connectionsMap") ++
      0x3a :: 0x7b :: (Json.dumpString (bytes "connectedBylvls") ++ [0x3a])) := by decide +kernel

theorem bytes_nPeersInRoom : bytes ",\"disconnectedBylvls\":null\x7d,\"nPeersInRoom\":" =
    0x2c :: (Json.dumpString (bytes "disconnectedBylvls") ++ 0x3a :: 0x6e :: 0x75 :: 0x6c :: 0x6c ::
      0x7d :: 0x2c :: (Json.dumpString (bytes "nPeersInRoom") ++ [0x3a])) := by decide +kernel

theorem writes_announce (lvls : NamedLvls) (nPeersInRoom : ℕ) :
    Writes (announceText lvls nPeersInRoom) (announceJson lvls (nPeersInRoom : ℤ)) := by
  have hlevels := writes_levels lvls
  unfold Writes at hlevels ⊢
  unfold announceText
  rw [Json.bytes_append, Json.bytes_append, Json.bytes_append, Json.bytes_append, hlevels, bytes_nat]
  simp only [bytes_connectionsMap, bytes_nPeersInRoom, bytes_brace, announceJson, Json.map,
    Json.mapMembers, Json.dump, Json.dumpMembers, List.cons_append, List.append_assoc,
    List.nil_append, id]
  rfl

/-! ### The names of the levels -/

theorem toList_toString (k : ℤ) : (toString k).toList =
    if 0 ≤ k then Nat.toDigits 10 k.toNat else '-' :: Nat.toDigits 10 (-k).toNat := by
  rw [Int.toString_eq_repr, Int.repr_eq_if]
  split_ifs
  · exact Nat.toList_repr
  · rw [String.toList_append, Nat.toList_repr]
    rfl

theorem toNat_of_isDigit {c : Char} (h : c.isDigit = true) : 48 ≤ c.toNat ∧ c.toNat ≤ 57 := by
  simp only [Char.isDigit, Bool.and_eq_true, decide_eq_true_eq, ge_iff_le] at h
  exact h

theorem isDigit_of_mem {n : ℕ} {c : Char} (h : c ∈ Nat.toDigits 10 n) : c.isDigit = true :=
  Nat.isDigit_of_mem_toDigits (by decide) (by decide) h

/-- `atoi` of digits. -/
theorem foldl_toDigits (n : ℕ) : ((Nat.toDigits 10 n).takeWhile Char.isDigit).foldl
    (fun (n : ℤ) c => 10 * n + (c.toNat - '0'.toNat)) 0 = n := by
  have hfold : ∀ (cs : List Char) (m : ℕ), (∀ c ∈ cs, c.isDigit = true) →
      cs.foldl (fun (n : ℤ) c => 10 * n + (c.toNat - '0'.toNat)) m =
        (Nat.ofDigitChars 10 cs m : ℕ) := by
    intro cs
    induction cs with
    | nil => intro m _; rfl
    | cons c cs ih =>
      intro m hcs
      have hc := toNat_of_isDigit (hcs c List.mem_cons_self)
      have h48 : '0'.toNat = 48 := rfl
      rw [List.foldl_cons, Nat.ofDigitChars_cons,
        ← ih _ fun d hd => hcs d (List.mem_cons_of_mem _ hd)]
      congr 1
      rw [h48]
      omega
  rw [List.takeWhile_eq_self_iff.mpr fun c hc => isDigit_of_mem hc]
  exact (hfold _ 0 fun c hc => isDigit_of_mem hc).trans
    (congrArg Nat.cast (Nat.ofDigitChars_toDigits (by decide) (by decide)))

theorem mem_toString {k : ℤ} {c : Char} (h : c ∈ (toString k).toList) : 45 ≤ c.toNat ∧ c.toNat ≤ 57 := by
  have hdigit : ∀ {n : ℕ}, c ∈ Nat.toDigits 10 n → 45 ≤ c.toNat ∧ c.toNat ≤ 57 := by
    intro n hc
    have := toNat_of_isDigit (isDigit_of_mem hc)
    omega
  rw [toList_toString] at h
  split_ifs at h
  · exact hdigit h
  · rcases List.mem_cons.mp h with rfl | h
    · decide
    · exact hdigit h

theorem cstr_toString (k : ℤ) : cstr (toString k) = toString k := by
  have hplain : (toString k).toList.takeWhile (· ≠ '\x00') = (toString k).toList := by
    refine List.takeWhile_eq_self_iff.mpr fun c hc => ?_
    have hc := (mem_toString hc).1
    rw [decide_eq_true_eq]
    rintro rfl
    exact absurd hc (by decide)
  rw [cstr, hplain, String.ofList_toList]

theorem atoi_toString (k : ℤ) : atoi (toString k) = k := by
  have hblank : (toString k).toList.dropWhile
      (fun c => c.toNat = 32 ∨ 9 ≤ c.toNat ∧ c.toNat ≤ 13) = (toString k).toList := by
    refine List.dropWhile_eq_self_iff.mpr fun hlen => ?_
    have hc := (mem_toString (List.getElem_mem hlen)).1
    simp only [decide_eq_true_eq]
    omega
  unfold atoi
  rw [cstr_toString, hblank, toList_toString]
  split_ifs with hk
  · -- a digit comes first
    obtain ⟨c, cs, hcs⟩ := List.exists_cons_of_ne_nil (Nat.toDigits_ne_nil (n := k.toNat) (b := 10))
    have hc := toNat_of_isDigit (isDigit_of_mem (hcs ▸ List.mem_cons_self))
    have hfold := foldl_toDigits k.toNat
    rw [hcs] at hfold ⊢
    dsimp only
    split
    · rename_i heq
      cases heq
      exact absurd hc.1 (by decide)
    · rename_i heq
      cases heq
      exact absurd hc.1 (by decide)
    · exact hfold.trans (Int.toNat_of_nonneg hk)
  · exact (congrArg Neg.neg (foldl_toDigits (-k).toNat)).trans (by omega)

/-- Texts of ASCII characters are in the order of their bytes. -/
theorem bytes_lt {s t : List Char} (h : s < t) (hs : ∀ c ∈ s, c.toNat < 128)
    (ht : ∀ c ∈ t, c.toNat < 128) :
    s.flatMap String.utf8EncodeChar < t.flatMap String.utf8EncodeChar := by
  have hone : ∀ c : Char, c.toNat < 128 → String.utf8EncodeChar c = [UInt8.ofNat c.toNat] := by
    intro c hc
    rw [Json.utf8EncodeChar_eq, Json.encode, if_pos hc]
  induction h with
  | nil =>
    rename_i d t
    rw [List.flatMap_cons, hone d (ht d List.mem_cons_self)]
    exact List.nil_lt_cons _ _
  | rel hcd =>
    rename_i c s d t
    rw [List.flatMap_cons, List.flatMap_cons, hone c (hs c List.mem_cons_self),
      hone d (ht d List.mem_cons_self)]
    have hc := hs c List.mem_cons_self
    have hd := ht d List.mem_cons_self
    have hlt : c.toNat < d.toNat := hcd
    refine List.Lex.rel ?_
    rw [UInt8.lt_iff_toNat_lt, UInt8.toNat_ofNat', UInt8.toNat_ofNat']
    omega
  | cons h ih =>
    rename_i c s t
    rw [List.flatMap_cons, List.flatMap_cons, hone c (hs c List.mem_cons_self)]
    exact List.Lex.cons (ih (fun d hd => hs d (List.mem_cons_of_mem _ hd))
      fun d hd => ht d (List.mem_cons_of_mem _ hd))

/-- The names of the levels are sorted, and each occurs once. -/
theorem named_pairwise {m : UnitsByLvl} (hm : (m.map Prod.fst).Nodup) :
    m.named.Pairwise fun a b => bytes a.1 < bytes b.1 := by
  have hsorted : m.named.Pairwise fun a b => a.1 ≤ b.1 := by
    refine (List.pairwise_mergeSort (fun a b c hab hbc => ?_) (fun a b => ?_) _).imp fun h =>
      of_decide_eq_true h
    · exact decide_eq_true (le_trans (of_decide_eq_true hab) (of_decide_eq_true hbc))
    · rcases le_total a.1 b.1 with h | h
      · rw [decide_eq_true h, Bool.true_or]
      · rw [decide_eq_true h, Bool.or_true]
  have hperm : m.named.Perm (m.map fun pair => (toString pair.1, pair.2)) := List.mergeSort_perm _ _
  have hnodup : (m.named.map Prod.fst).Nodup := by
    rw [(hperm.map Prod.fst).nodup_iff, List.map_map]
    have hinj : Function.Injective (toString : ℤ → String) := fun k l h => by
      rw [← atoi_toString k, h, atoi_toString]
    have := hm.map hinj
    rwa [List.map_map] at this
  have hascii : ∀ e ∈ m.named, ∀ c ∈ e.1.toList, c.toNat < 128 := by
    intro e he c hc
    obtain ⟨pair, -, rfl⟩ := List.mem_map.mp (hperm.mem_iff.mp he)
    have := (mem_toString hc).2
    omega
  have hne : m.named.Pairwise fun a b => a.1 ≠ b.1 := List.pairwise_map.mp hnodup
  refine (List.Pairwise.and_mem.mp (hsorted.and hne)).imp fun {a b} h => ?_
  obtain ⟨ha, hb, hle, hne⟩ := h
  rw [Json.bytes_eq_flatMap, Json.bytes_eq_flatMap]
  exact bytes_lt (String.lt_iff_toList_lt.mp (lt_of_le_of_ne hle hne)) (hascii a ha) (hascii b hb)

/-! ### Reading -/

theorem wellFormed_unit (u : NodesMapDiffUnit) :
    Json.WellFormed ((unitJson u : Json String ℤ).map bytes id) := by
  rw [unitJson, Json.map, Json.mapMembers_eq]
  refine .obj ?_ ?_ ?_
  · exact List.pairwise_pair.mpr (by decide : bytes "Id" < bytes "ParentIds")
  · simp [Json.utf8_bytes]
  · simp only [List.map_cons, List.map_nil, List.mem_cons, List.not_mem_nil, or_false,
      forall_eq_or_imp, forall_eq]
    refine ⟨.str (Json.utf8_bytes u.id), ?_⟩
    rw [Json.map, Json.mapItems_eq, List.map_map]
    refine .arr fun v hv => ?_
    obtain ⟨s, -, rfl⟩ := List.mem_map.mp hv
    exact .str (Json.utf8_bytes s)

theorem wellFormed_levels {lvls : NamedLvls}
    (h : lvls.Pairwise fun a b => bytes a.1 < bytes b.1) :
    Json.WellFormed ((levelsJson lvls : Json String ℤ).map bytes id) := by
  rw [levelsJson, Json.map, Json.mapMembers_eq, List.map_map]
  refine .obj ?_ ?_ ?_
  · exact List.pairwise_map.mpr h
  · intro m hm
    obtain ⟨e, -, rfl⟩ := List.mem_map.mp hm
    exact Json.utf8_bytes e.1
  · intro m hm
    obtain ⟨e, -, rfl⟩ := List.mem_map.mp hm
    simp only [Function.comp_apply]
    rw [Json.map, Json.mapItems_eq, List.map_map]
    refine .arr fun v hv => ?_
    obtain ⟨u, -, rfl⟩ := List.mem_map.mp hv
    exact wellFormed_unit u

theorem wellFormed_diff {connected disconnected : NamedLvls}
    (hc : connected.Pairwise fun a b => bytes a.1 < bytes b.1)
    (hd : disconnected.Pairwise fun a b => bytes a.1 < bytes b.1) :
    Json.WellFormed ((diffJson connected disconnected : Json String ℤ).map bytes id) := by
  rw [diffJson, Json.map, Json.mapMembers_eq]
  refine .obj ?_ ?_ ?_
  · exact List.pairwise_pair.mpr (by decide : bytes "connectedBylvls" < bytes "disconnectedBylvls")
  · simp [Json.utf8_bytes]
  · simp only [List.map_cons, List.map_nil, List.mem_cons, List.not_mem_nil, or_false,
      forall_eq_or_imp, forall_eq]
    exact ⟨wellFormed_levels hc, wellFormed_levels hd⟩

theorem map_unitJson (u : NodesMapDiffUnit) :
    (unitJson u : Json String ℤ).map id JsonNumber.int = u.toJson := by
  rw [unitJson, NodesMapDiffUnit.toJson]
  simp only [Json.map, Json.mapMembers, Json.mapItems_eq, List.map_map, id]
  rfl

theorem map_levelsJson (lvls : NamedLvls) :
    (levelsJson lvls : Json String ℤ).map id JsonNumber.int = lvlsJson lvls := by
  rw [levelsJson, lvlsJson, Json.map, Json.mapMembers_eq, List.map_map]
  refine congrArg Json.obj (List.map_congr_left fun e _ => ?_)
  simp only [Function.comp_apply, Json.map, Json.mapItems_eq, List.map_map, id]
  refine congrArg (fun l => (e.1, Json.arr l)) (List.map_congr_left fun u _ => ?_)
  exact map_unitJson u

/-- **The text of a difference** is read as its JSON. -/
theorem readJson_dump {d : NodesMapDiff} (hc : (d.connectedBylvls.map Prod.fst).Nodup)
    (hd : (d.disconnectedBylvls.map Prod.fst).Nodup) :
    readJson d.dump =
      some (mapJson (some d.connectedBylvls.named) (some d.disconnectedBylvls.named)) := by
  rw [readJson, Json.read_of_bytes _ (wellFormed_diff (named_pairwise hc) (named_pairwise hd))
    (writes_diff d), diffJson, Json.map, Json.mapMembers, Json.mapMembers, Json.mapMembers,
    map_levelsJson, map_levelsJson]
  rfl

theorem wellFormed_announce {lvls : NamedLvls}
    (h : lvls.Pairwise fun a b => bytes a.1 < bytes b.1) (n : ℤ) :
    Json.WellFormed ((announceJson lvls n).map bytes id) := by
  simp only [announceJson, Json.map, Json.mapMembers]
  refine .obj ?_ ?_ ?_
  · exact List.pairwise_pair.mpr (by decide : bytes "connectionsMap" < bytes "nPeersInRoom")
  · simp [Json.utf8_bytes]
  · simp only [List.mem_cons, List.not_mem_nil, or_false, forall_eq_or_imp, forall_eq]
    refine ⟨.obj ?_ ?_ ?_, .num _⟩
    · exact List.pairwise_pair.mpr
        (by decide : bytes "connectedBylvls" < bytes "disconnectedBylvls")
    · simp [Json.utf8_bytes]
    · simp only [List.mem_cons, List.not_mem_nil, or_false, forall_eq_or_imp, forall_eq]
      exact ⟨wellFormed_levels h, .null⟩

/-- **The text of an announce** is read as its JSON. -/
theorem readJson_announce {lvls : NamedLvls}
    (h : lvls.Pairwise fun a b => bytes a.1 < bytes b.1) (n : ℕ) :
    readJson (announceText lvls n) = some (.obj [("connectionsMap",
      .obj [("connectedBylvls", lvlsJson lvls), ("disconnectedBylvls", .null)]),
      ("nPeersInRoom", .num (.int n))]) := by
  rw [readJson, Json.read_of_bytes _ (wellFormed_announce h n) (writes_announce lvls n)]
  simp only [announceJson, Json.map, Json.mapMembers, map_levelsJson]
  rfl

/-! ### No text has a zero byte -/

/-- The C string is the whole text. -/
def Whole (s : String) : Prop := '\x00' ∉ s.toList

instance (s : String) : Decidable (Whole s) := inferInstanceAs (Decidable (_ ∉ _))

theorem Whole.cstr_eq {s : String} (h : Whole s) : cstr s = s := by
  have hall : s.toList.takeWhile (· ≠ '\x00') = s.toList := by
    refine List.takeWhile_eq_self_iff.mpr fun c hc => ?_
    rw [decide_eq_true_eq]
    rintro rfl
    exact h hc
  rw [cstr, hall, String.ofList_toList]

theorem Whole.append {s t : String} (hs : Whole s) (ht : Whole t) : Whole (s ++ t) := by
  rw [Whole, String.toList_append, List.mem_append]
  exact not_or.mpr ⟨hs, ht⟩

theorem whole_join {l : List String} (h : ∀ s ∈ l, Whole s) : Whole (String.join l) := by
  induction l with
  | nil => exact List.not_mem_nil
  | cons s l ih =>
    rw [String.join_cons]
    exact (h s List.mem_cons_self).append (ih fun t ht => h t (List.mem_cons_of_mem _ ht))

theorem whole_intercalate {l : List String} (h : ∀ s ∈ l, Whole s) : Whole (",".intercalate l) := by
  induction l with
  | nil => exact List.not_mem_nil
  | cons s l ih =>
    cases l with
    | nil =>
      rw [String.intercalate_singleton]
      exact h s List.mem_cons_self
    | cons t l =>
      rw [String.intercalate_cons_cons]
      exact ((h s List.mem_cons_self).append (by decide : Whole ",")).append
        (ih fun u hu => h u (List.mem_cons_of_mem _ hu))

theorem whole_escape (c : Char) : Whole (jsonString.escape c) := by
  by_cases hc : c.toNat < 128
  · rw [← Char.ofNat_toNat c]
    exact (by decide +kernel : ∀ n < 128, Whole (jsonString.escape (Char.ofNat n))) _ hc
  · rw [escape_of_le hc, Whole, Char.toString_eq_singleton, String.toList_singleton,
      List.mem_singleton]
    rintro rfl
    exact hc (by decide)

theorem whole_jsonString (s : String) : Whole (jsonString s) := by
  refine ((by decide : Whole "\"").append (whole_join fun t ht => ?_)).append (by decide)
  obtain ⟨c, -, rfl⟩ := List.mem_map.mp ht
  exact whole_escape c

theorem whole_array {α : Type} {f : α → String} (h : ∀ a, Whole (f a)) (l : List α) :
    Whole (jsonArray (l.map f)) := by
  refine ((by decide : Whole "[").append (whole_intercalate fun t ht => ?_)).append (by decide)
  obtain ⟨a, -, rfl⟩ := List.mem_map.mp ht
  exact h a

theorem whole_unit (u : NodesMapDiffUnit) : Whole u.dump :=
  ((((by decide : Whole "\x7b\"Id\":").append (whole_jsonString u.id)).append (by decide)).append
    (whole_array whole_jsonString u.parentIds)).append (by decide)

theorem whole_levels (lvls : NamedLvls) : Whole (levelsText lvls) := by
  refine ((by decide : Whole "\x7b").append (whole_intercalate fun t ht => ?_)).append (by decide)
  obtain ⟨e, -, rfl⟩ := List.mem_map.mp ht
  exact ((whole_jsonString e.1).append (by decide)).append (whole_array whole_unit e.2)

theorem whole_diff (d : NodesMapDiff) : Whole d.dump :=
  ((((by decide : Whole "\x7b\"connectedBylvls\":").append (whole_levels _)).append
    (by decide)).append (whole_levels _)).append (by decide)

theorem whole_announce (lvls : NamedLvls) (n : ℕ) : Whole (announceText lvls n) := by
  have hn : Whole (toString n) := fun h => absurd (mem_toString (k := n) h).1 (by decide)
  exact ((((by decide : Whole "\x7b\"connectionsMap\":\x7b\"connectedBylvls\":").append
    (whole_levels lvls)).append (by decide)).append hn).append (by decide)

/-! ### The receiver of a difference -/

end Incoming

/-- The levels in the order in which the text has them. -/
def UnitsByLvl.byText (m : UnitsByLvl) : IncomingMap :=
  m.mergeSort fun a b => toString a.1 ≤ toString b.1

/-- The keys of a map, and ids without zero bytes. -/
structure UnitsByLvl.Sendable (m : UnitsByLvl) : Prop where
  nodup : (m.map Prod.fst).Nodup
  whole : ∀ pair ∈ m, ∀ u ∈ pair.2, Incoming.readText u = u

namespace Incoming

theorem readLvlsText_named {m : UnitsByLvl} (hm : m.Sendable) :
    readLvlsText m.named = m.byText := by
  have hnamed : m.named = m.byText.map fun pair => (toString pair.1, pair.2) := by
    unfold UnitsByLvl.named UnitsByLvl.byText
    rw [List.map_mergeSort]
    intro a _ b _
    rfl
  have hid : ∀ pair ∈ m.byText, (atoi (toString pair.1), pair.2.map readText) = pair := by
    intro pair hpair
    have hpair := (List.mergeSort_perm m _).mem_iff.mp hpair
    have hunits : pair.2.map readText = pair.2 :=
      (List.map_congr_left (hm.whole pair hpair)).trans (List.map_id' _)
    rw [atoi_toString, hunits]
  rw [readLvlsText, hnamed, List.map_map]
  exact (List.map_congr_left hid).trans (List.map_id' _)

theorem readMessage_toJson {m : Msg} (hhash : m.hash < 2 ^ 64) :
    readMessage m.toJson = .ok ⟨cstr m.roomId, m.toJson, m.hash, m.type⟩ :=
  readMessage_eq_ok.mpr ⟨rfl, .typed (typed_toJson hhash)⟩

/-- **What the sender of a difference has sent is what its receiver applies**, whatever the room of
the receiver looks like. -/
theorem processWebRTCMessage_updateMap {parse : String → Option JsonValue} {N : MapNode}
    {d : NodesMapDiff} {m : Msg} (hm : m.type = .updateMap) (hdata : m.data = d.dump)
    (hhash : m.hash < 2 ^ 64) (hparse : parse d.dump = readJson d.dump)
    (hc : d.connectedBylvls.Sendable) (hd : d.disconnectedBylvls.Sendable)
    (hroom : cstr m.roomId ∈ N.node.roomManager →
      cstr m.roomId ∈ N.node.peersInLvlMutexes ∧ cstr m.roomId ∈ N.maps) (now : ℕ) :
    processWebRTCMessage parse N m.toJson now =
      (liftGraph (N.handleMap (cstr m.roomId) m.hash (cstr m.from')
        (some d.connectedBylvls.byText) (some d.disconnectedBylvls.byText) now)).map
          fun N' => (N', .ok none) := by
  have hmember : member m.toJson "data" >>= getString = .ok d.dump := by
    rw [← (whole_diff d).cstr_eq, ← hdata]
    rfl
  have hread : processWebRTCMessage parse N m.toJson now =
      handleWebrtcNodeMessageSystem parse N ⟨cstr m.roomId, m.toJson, m.hash, m.type⟩ now := by
    rw [processWebRTCMessage, readMessage_toJson hhash, ok_bind, hmember, ok_bind, if_pos]
    rw [hm]
    exact MessageType.noConfusion
  rw [hread, handleWebrtcNodeMessageSystem, MapNode.handleMap]
  cases hRU : N.node.roomManager[cstr m.roomId]? with
  | none => rfl
  | some RU =>
    simp only
    split_ifs
    · rfl
    · rw [hm]
      simp only
      -- the members of the message
      have hfrom : member m.toJson "from" >>= getString = .ok (cstr m.from') := rfl
      have hasRoomId : hasMember m.toJson "roomId" = .ok true := rfl
      rw [onIncomingNodeMapDifference, hfrom, ok_bind, hasRoomId, ok_bind, assert_true, ok_bind,
        hmember, ok_bind, hparse, readJson_dump hc.nodup hd.nodup]
      obtain ⟨hmutex, hmap⟩ := hroom (PointerCollection.mem_of_getElem? hRU)
      refine (updateNodeMap_mapJson (N := ⟨N.node.setRoom _ _, N.maps⟩) hmutex hmap _ _ _).trans ?_
      rw [Option.map_some, Option.map_some, readLvlsText_named hc, readLvlsText_named hd]

/-- A lost peer, reported to a node that has joined the room. -/
theorem processWebRTCMessage_lost : ∃ (N : MapNode) (d : NodesMapDiff),
    N = ⟨(Node.new "u" String.length).joinRoomWS "r" fun _ => 0,
      (∅ : PointerCollection RoomMap).insertIfNew "r" (createRoomMap "ur")⟩ ∧
    d = ⟨[], [(0, [⟨"wr", ["vr"]⟩])]⟩ ∧
    processWebRTCMessage readJson N
        (⟨"r", "vr", none, .updateMap, 0, d.dump, 0⟩ : Msg).toJson 0 =
      (liftGraph (N.handleMap (cstr "r") 0 (cstr "vr") (some d.connectedBylvls.byText)
        (some d.disconnectedBylvls.byText) 0)).map fun N' => (N', .ok none) := by
  refine ⟨_, _, rfl, rfl, ?_⟩
  refine processWebRTCMessage_updateMap (d := ⟨[], [(0, [⟨"wr", ["vr"]⟩])]⟩)
    (m := ⟨"r", "vr", none, .updateMap, 0, _, 0⟩) rfl rfl (by decide) rfl
    ⟨List.nodup_nil, fun _ h => absurd h List.not_mem_nil⟩ ⟨by decide, fun pair hpair u hu => ?_⟩
    (fun _ => ⟨by decide, by decide⟩) 0
  obtain rfl := List.mem_singleton.mp hpair
  obtain rfl := List.mem_singleton.mp hu
  rfl

end Incoming

end Yamb
