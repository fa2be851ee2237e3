import Yamb.Lib.Json.Number
import Yamb.SocketIo.Packet

/-!
# When Socket.IO packets come back

* `read_print`: a reader of a packet comes to its JSON text;
* `parse_paste`, `parse_literal`: the JSON text with a name that is pasted into it;
* `roundTrips_event_iff`, `roundTrips_room_iff`, **`roundTrips_iff`**: a packet comes back exactly
  when the name of its event, or the room, needs no escapes.
-/

set_option autoImplicit false

namespace Yamb.SocketIo

open Json (NumberFormat WellFormed Plain quote)

variable {ν : Type} {fmt : NumberFormat ν}

/-! ## The number and what follows it -/

theorem strtoi_decimal {n : ℕ} (h : n < 2 ^ 32) : strtoi (Decimal.decimal n) = n := by
  obtain ⟨b, bs, hb, hdigit⟩ := Decimal.exists_decimal n
  have hne : ∀ c : UInt8, Decimal.isDigit c = false → b ≠ c := fun c => Decimal.ne_of_isDigit hdigit
  have hspace : isSpace b = false := by
    by_contra hs
    rw [Bool.not_eq_false] at hs
    simp only [isSpace, Bool.or_eq_true, Bool.and_eq_true, decide_eq_true_eq] at hs
    simp only [Decimal.isDigit, Bool.decide_and, Bool.and_eq_true, decide_eq_true_eq] at hdigit
    rcases hs with rfl | ⟨-, hle⟩
    · exact absurd hdigit.1 (by decide)
    · have : b.toNat ≤ 13 := hle
      omega
  have hdrop : (Decimal.decimal n).dropWhile isSpace = Decimal.decimal n := by
    rw [hb, List.dropWhile_cons_of_neg (by simp [hspace])]
  have htake : (Decimal.decimal n).takeWhile Decimal.isDigit = Decimal.decimal n := by
    have : (Decimal.decimal n ++ []).takeWhile Decimal.isDigit = Decimal.decimal n :=
      Decimal.takeWhile_decimal n fun c hc => by cases hc
    rwa [List.append_nil] at this
  have hsign : ∀ c : UInt8, Decimal.isDigit c = false → (Decimal.decimal n).head? ≠ some c := by
    intro c hc
    rw [hb]
    exact fun h => hne c hc (Option.some.inj h)
  simp only [strtoi, hdrop, if_neg (not_or.mpr ⟨hsign 0x2d (by decide), hsign 0x2b (by decide)⟩),
    htake, Decimal.ofDecimal_decimal]
  rw [if_neg (not_or.mpr ⟨Decimal.decimal_ne_nil n, by omega⟩), if_neg (hsign 0x2d (by decide))]

theorem readNextNumber_decimal {n : ℕ} (h : n < 2 ^ 31) (val : ℤ) {rest : List UInt8}
    (hrest : Decimal.NoDigit rest) :
    readNextNumber val (Decimal.decimal n ++ rest) = ((n : ℤ), rest) := by
  obtain ⟨b, bs, hb, hdigit⟩ := Decimal.exists_decimal n
  have hblank : (Decimal.decimal n ++ rest).takeWhile (fun c => decide (c = 0x20)) = [] := by
    rw [hb, List.cons_append, List.takeWhile_cons_of_neg]
    rw [decide_eq_true_eq]
    exact Decimal.ne_of_isDigit hdigit (by decide)
  simp only [readNextNumber, hblank, List.length_nil, List.drop_zero,
    Decimal.takeWhile_decimal n hrest, Nat.zero_add, List.take_left, List.drop_left]
  rw [if_neg (by simp [Decimal.decimal_ne_nil]), strtoi_decimal (by omega), toInt32, if_pos h]

/-- The JSON text of a packet. -/
def Packet.jsonText (p : Packet) : List UInt8 :=
  0x5b :: quote :: ((if p.event = [] then messageName else p.event) ++
    quote :: 0x2c :: (p.message ++ [0x5d]))

/-- The reader of an event packet comes to its JSON text. -/
theorem read_print {p : Packet} (hf : p.frame = 4) (ht : p.type = 2)
    (hid : 1 ≤ p.id ∧ p.id < 2 ^ 31) :
    Packet.read fmt {} p.print = (readJson fmt [] p.jsonText).map fun r =>
      { id := p.id, event := r.1, message := r.2, size := p.print.length } := by
  obtain ⟨n, hn⟩ := Int.eq_ofNat_of_zero_le (by omega : 0 ≤ p.id)
  obtain ⟨b, bs, hb, hdigit⟩ := Decimal.exists_decimal n
  have hprint : p.print = 0x34 :: 0x32 :: (Decimal.decimal n ++ p.jsonText) := by
    have h4 : Decimal.decimalInt 4 = [0x34] := Decimal.decimal_of_lt (by decide)
    have h2 : Decimal.decimalInt 2 = [0x32] := Decimal.decimal_of_lt (by decide)
    have hi : Decimal.decimalInt n = Decimal.decimal n := if_neg (by omega)
    rw [Packet.print, hf, ht, hn, h4, h2, hi, if_pos rfl]
    rfl
  have hnumber : readNextNumber (-1) (Decimal.decimal n ++ p.jsonText) = (p.id, p.jsonText) := by
    rw [hn]
    exact readNextNumber_decimal (by omega) _ fun c hc => by cases hc; decide
  have hslash : (Decimal.decimal n ++ p.jsonText).head? ≠ some 0x2f := by
    rw [hb]
    exact fun h => Decimal.ne_of_isDigit hdigit (by decide) (Option.some.inj h)
  have hframe : atoi 0x34 = 4 := rfl
  have htype : atoi 0x32 = 2 := rfl
  have htext : p.jsonText ≠ [] := List.cons_ne_nil _ _
  rw [hprint]
  simp only [Packet.read, hframe, htype, if_true, if_neg hslash, hnumber, if_neg htext, pure_bind]
  cases readJson fmt [] p.jsonText with
  | error e => rfl
  | ok r => rfl

/-! ## The JSON text -/

/-- A pasted name and a message are read when the name needs no escapes. -/
theorem parse_paste {e : List UInt8} {v : Json (List UInt8) ν} (he : Plain e) (hv : WellFormed v) :
    Json.parse fmt (0x5b :: quote :: (e ++ quote :: 0x2c :: (Json.dump fmt v ++ [0x5d]))) =
      some (.arr [.str e, v]) := by
  obtain ⟨fuel, hfuel, hdump⟩ : ∃ fuel, 2 * (0x5b :: quote ::
      (e ++ quote :: 0x2c :: (Json.dump fmt v ++ [0x5d]))).length = fuel + 3 ∧
        2 * (Json.dump fmt v).length ≤ fuel := by
    refine ⟨2 * e.length + 2 * (Json.dump fmt v).length + 7, ?_, by omega⟩
    simp only [List.length_cons, List.length_append, List.length_nil]
    omega
  have hname : Json.value fmt (fuel + 1)
      (quote :: (e ++ quote :: 0x2c :: (Json.dump fmt v ++ [0x5d]))) =
        some (.str e, 0x2c :: (Json.dump fmt v ++ [0x5d])) := by
    rw [Json.value_quote, he.scanString]
    rfl
  have hmessage : Json.items fmt (fuel + 1) (Json.dump fmt v ++ [0x5d]) = some ([v], []) :=
    Json.items_last ((Json.readsBack fmt fuel).value v [0x5d] hv
      (Json.delimited_cons (.inr (.inl rfl))) hdump)
  rw [Json.parse, hfuel, Json.value_arr (by decide) (by decide), Json.items_next hname, hmessage]
  rfl

/-- The first value of an array that starts with a quotation mark. -/
theorem value_literal {fuel : ℕ} {t s : List UInt8} {v : Json (List UInt8) ν}
    (h : Json.value fmt (fuel + 1) (quote :: t) = some (v, s)) :
    ∃ d, Json.scanString [] t = some (d, s) ∧ v = .str d := by
  rw [Json.value_quote] at h
  obtain ⟨⟨d, s'⟩, hscan, heq⟩ := Option.map_eq_some_iff.mp h
  cases heq
  exact ⟨d, hscan, rfl⟩

/-- What is read from a pasted name starts with the literal that the reader finds, and goes on
behind it. -/
theorem parse_literal {t : List UInt8} {j : Json (List UInt8) ν}
    (h : Json.parse fmt (0x5b :: quote :: t) = some j) :
    ∃ d s vs, Json.scanString [] t = some (d, s) ∧ j = .arr (.str d :: vs) ∧
      (vs ≠ [] → ∃ u fuel rest, Json.skipWs s = 0x2c :: u ∧
        Json.items fmt (fuel + 2) u = some (vs, rest)) := by
  obtain ⟨rest, hvalue⟩ := Json.value_of_parse h
  obtain ⟨fuel, hfuel⟩ : ∃ fuel, 2 * (0x5b :: quote :: t).length = fuel + 4 :=
    ⟨2 * t.length, by simp only [List.length_cons]; omega⟩
  rw [hfuel, Json.value_arr (by decide) (by decide)] at hvalue
  obtain ⟨⟨vs, s⟩, hitems, heq⟩ := Option.map_eq_some_iff.mp hvalue
  cases heq
  obtain ⟨v, s', hv, hcases⟩ := Json.items_cases hitems
  obtain ⟨d, hscan, rfl⟩ := value_literal hv
  rcases hcases with ⟨u, ws, hskip, hws, rfl⟩ | ⟨-, rfl⟩
  · exact ⟨d, s', ws, hscan, rfl, fun _ => ⟨u, fuel, s, hskip, hws⟩⟩
  · exact ⟨d, s', [], hscan, rfl, fun hne => absurd rfl hne⟩

/-! ## The round trip -/

theorem plain_messageName : Plain messageName :=
  Json.plain_of_all (by decide) (by decide)

theorem plain_joinName : Plain joinName :=
  Json.plain_of_all (by decide) (by decide)

theorem plain_leaveName : Plain leaveName :=
  Json.plain_of_all (by decide) (by decide)

theorem read_of_roundTrips {p : Packet} {m : Json (List UInt8) ν} (hf : p.frame = 4)
    (ht : p.type = 2) (hid : 1 ≤ p.id ∧ p.id < 2 ^ 31) :
    RoundTrips fmt p m ↔ ∃ message, readJson fmt [] p.jsonText = .ok (p.event, message) ∧
      (if message = [] then some .null else Json.parse fmt message) = some m := by
  unfold RoundTrips
  rw [read_print hf ht hid]
  cases hread : readJson fmt [] p.jsonText with
  | error e =>
    constructor
    · rintro ⟨q, h, -⟩
      cases h
    · rintro ⟨q, h, -⟩
      cases h
  | ok r =>
    constructor
    · rintro ⟨q, h, -, -, -, -, hevent, hjson⟩
      cases h
      exact ⟨r.2, by rw [← hevent], hjson⟩
    · rintro ⟨message, h, hjson⟩
      cases h
      exact ⟨_, rfl, rfl, hf.symm, ht.symm, rfl, rfl, hjson⟩

/-- Where an event comes from that was read. -/
theorem event_of_readJson {t event message : List UInt8}
    (h : readJson fmt [] (0x5b :: quote :: t) = .ok (event, message)) :
    event = [] ∨ event = messageName ∨ ∃ s v vs u fuel rest, Json.scanString [] t = some (event, s) ∧
      Json.skipWs s = 0x2c :: u ∧ Json.items fmt (fuel + 2) u = some (v :: vs, rest) ∧
        message = Json.dump fmt v := by
  unfold readJson at h
  cases hparse : Json.parse fmt (0x5b :: quote :: t) with
  | none =>
    rw [hparse] at h
    cases h
    exact .inl rfl
  | some j =>
    obtain ⟨d, s, vs, hscan, rfl, hvs⟩ := parse_literal hparse
    rw [hparse] at h
    cases vs with
    | nil =>
      cases h
      exact .inr (.inl rfl)
    | cons v vs =>
      obtain ⟨u, fuel, rest, hskip, hitems⟩ := hvs (List.cons_ne_nil v vs)
      cases h
      exact .inr (.inr ⟨s, v, vs, u, fuel, rest, hscan, hskip, hitems, rfl⟩)

/-- A pasted name is read back when it needs no escapes. -/
theorem readJson_paste (fmt : NumberFormat ν) {e : List UInt8} {v : Json (List UInt8) ν} (he : Plain e)
    (hv : WellFormed v) :
    readJson fmt [] (0x5b :: quote :: (e ++ quote :: 0x2c :: (Json.dump fmt v ++ [0x5d]))) =
      .ok (e, Json.dump fmt v) := by
  rw [readJson, parse_paste he hv]

theorem json_dump {v : Json (List UInt8) ν} (hv : WellFormed v) :
    (if Json.dump fmt v = [] then some .null else Json.parse fmt (Json.dump fmt v)) = some v := by
  have hne : Json.dump fmt v ≠ [] := fun h => by
    have := Json.dump_pos fmt v
    rw [h] at this
    exact absurd this (lt_irrefl _)
  rw [if_neg hne, Json.parse_dump fmt hv]

/-- **Events.** The packet of an event round-trips exactly when it has a name that needs no
escapes. -/
theorem roundTrips_event_iff {id : ℤ} (hid : 1 ≤ id ∧ id < 2 ^ 31) (event : List UInt8)
    {m : Json (List UInt8) ν} (hm : WellFormed m) (ack : Bool) :
    RoundTrips fmt (eventPacket fmt id event m ack) m ↔ event ≠ [] ∧ Plain event := by
  rw [read_of_roundTrips rfl rfl hid]
  constructor
  · rintro ⟨message, hread, -⟩
    by_cases hevent : event = []
    · -- the printer writes `"message"`
      subst hevent
      have hpaste : readJson fmt [] (eventPacket fmt id [] m ack).jsonText =
          .ok (messageName, Json.dump fmt m) := readJson_paste fmt plain_messageName hm
      rw [hpaste] at hread
      cases hread
    · refine ⟨hevent, ?_⟩
      have htext : (eventPacket fmt id event m ack).jsonText =
          0x5b :: quote :: (event ++ quote :: 0x2c :: (Json.dump fmt m ++ [0x5d])) := by
        rw [Packet.jsonText, eventPacket, if_neg hevent]
      rw [htext] at hread
      rcases event_of_readJson hread with h | h | ⟨s, v, vs, u, fuel, rest, hscan, -⟩
      · exact absurd h hevent
      · exact (show event = messageName from h) ▸ plain_messageName
      · refine Json.plain_of_scanString ?_ hscan
        exact Json.calm_cons (by decide)
          ((Json.calm_dump fmt m).append (Json.calm_of_notMem (by decide)))
  · rintro ⟨hevent, hplain⟩
    refine ⟨Json.dump fmt m, ?_, json_dump hm⟩
    have hpaste := readJson_paste fmt hplain hm
    rwa [Packet.jsonText, eventPacket, if_neg hevent]

/-- **Rooms.** The packet that joins or leaves a room round-trips exactly when the room needs no
escapes. -/
theorem roundTrips_room_iff {id : ℤ} (hid : 1 ≤ id ∧ id < 2 ^ 31) {name : List UInt8}
    (hname : name = joinName ∨ name = leaveName) (room : List UInt8) :
    RoundTrips fmt (roomPacket id name room) (.str room) ↔ Plain room := by
  have hne : name ≠ [] ∧ name ≠ messageName ∧ Plain name := by
    rcases hname with rfl | rfl
    · exact ⟨by decide, by decide, plain_joinName⟩
    · exact ⟨by decide, by decide, plain_leaveName⟩
  have htext : (roomPacket id name room).jsonText =
      0x5b :: quote :: (name ++ quote :: 0x2c :: (quote :: (room ++ [quote]) ++ [0x5d])) := by
    rw [Packet.jsonText, roomPacket, if_neg hne.1]
  rw [read_of_roundTrips rfl rfl hid, htext]
  constructor
  · rintro ⟨message, hread, hjson⟩
    rcases event_of_readJson hread with h | h | ⟨s, v, vs, u, fuel, rest, hscan, hskip, hitems, rfl⟩
    · exact absurd h hne.1
    · exact absurd h hne.2.1
    · -- the message that was read is the literal behind the name
      rw [hne.2.2.scanString] at hscan
      cases hscan
      rw [Json.skipWs_cons (by decide)] at hskip
      obtain ⟨w, s', hvalue, hcases⟩ := Json.items_cases hitems
      have hw : w = v := by
        rcases hcases with ⟨_, _, -, -, h⟩ | ⟨-, h⟩
        · exact (List.cons.inj h).1.symm
        · exact (List.cons.inj h).1.symm
      rw [← (List.cons.inj hskip).2, List.cons_append] at hvalue
      obtain ⟨d, hscan, rfl⟩ := value_literal hvalue
      rw [← hw, json_dump (.str (Json.utf8_scanString hscan))] at hjson
      cases hjson
      rw [List.append_assoc] at hscan
      exact Json.plain_of_scanString (by decide : Json.backslash ∉ [0x5d].takeWhile (· ≠ quote)) hscan
  · intro hplain
    have hdump : Json.dump fmt (.str room) = quote :: (room ++ [quote]) := by
      rw [Json.dump, Json.dumpString, Json.escape_of_plain hplain.notSpecial]
    have hpaste := readJson_paste fmt hne.2.2 (.str hplain.utf8 : WellFormed (.str room))
    rw [hdump] at hpaste
    exact ⟨_, hpaste, hdump ▸ json_dump (.str hplain.utf8)⟩

/-- **The round trip of the packets.** A packet with an id that an `int` holds comes back when the
name of its event is there and needs no escapes, and the packets for a room when the room needs
none. -/
theorem roundTrips_iff {id : ℤ} (hid : 1 ≤ id ∧ id < 2 ^ 31) :
    (∀ (event : List UInt8) (m : Json (List UInt8) ν) (ack : Bool), WellFormed m →
      (RoundTrips fmt (eventPacket fmt id event m ack) m ↔ event ≠ [] ∧ Plain event)) ∧
    ∀ room : List UInt8,
      (RoundTrips fmt (roomPacket id joinName room) (.str room) ↔ Plain room) ∧
        (RoundTrips fmt (roomPacket id leaveName room) (.str room) ↔ Plain room) :=
  ⟨fun event _ ack hm => roundTrips_event_iff hid event hm ack, fun room =>
    ⟨roundTrips_room_iff hid (.inl rfl) room, roundTrips_room_iff hid (.inr rfl) room⟩⟩

/-- The event `message` with the number 5. -/
theorem roundTrips_message : RoundTrips Json.intFormat
    (eventPacket Json.intFormat 1 messageName (.num 5) true) (.num 5) :=
  ((roundTrips_iff (by decide)).1 messageName (.num 5) true (.num 5)).mpr
    ⟨by decide, plain_messageName⟩

/-- An event whose name is a quotation mark does not come back. -/
theorem not_roundTrips_quote : ¬ RoundTrips Json.intFormat
    (eventPacket Json.intFormat 1 [quote] .null true) .null := fun h =>
  absurd ((roundTrips_event_iff (by decide) [quote] .null true).mp h).2.notSpecial (by decide)

end Yamb.SocketIo
