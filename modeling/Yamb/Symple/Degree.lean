import Yamb.Symple.Picks
import Yamb.Symple.Script

/-!
# How many links a document has

`pickNodeToConnect` takes documents with a free slot; the two other updates do not look.

* `Bounded`: no document has more than four links;
* `HasRoom`: a user that takes the lock with a document still there has slots left on it for those it
  will find, and the second write of a repair finds a document with a slot left;
* **`run_bounded_iff`**: the bound holds throughout exactly when that is so whenever one of these
  updates is made;
* `not_bounded`: a user that comes back to the room with its links still there.
-/

set_option autoImplicit false

namespace Yamb.Symple

open Collection

def Bounded (docs : List Doc) : Prop := ∀ d ∈ docs, d.nconnects ≤ 4

instance : DecidablePred Bounded := fun docs =>
  inferInstanceAs (Decidable (∀ d ∈ docs, d.nconnects ≤ 4))

/-- The document that a user has when it takes the lock has slots for two, or for as many as are
eligible for the user then; a document found by the address of a repaired one has a slot. -/
def HasRoom (s : Server × Visit) : Event → Prop
  | .db (.owned client _ _) => ∀ d ∈ s.2.before, d.sockId = client.sockId →
    d.nconnects + min 2 (eligible s.2.before client.sockId) ≤ 4
  | .db (.linked _ t _ _) => ∀ d ∈ s.1.docs, d.sockId = t.addr → d.nconnects < 4
  | _ => True

variable {user : SocketId → Option UserId} {docs docs' : List Doc} {p : Doc → Prop}
  {found : Option Doc} {ids : List UserId} {room : RoomId} {sv sv' : Server} {e : Event}

theorem Bounded.push (h : Bounded docs) (hp : UpdateOne p (Doc.push ids) docs found docs')
    (hle : ∀ d ∈ docs, p d → d.nconnects + ids.length ≤ 4) : Bounded docs' :=
  hp.forall h fun d hd hpd _ => hle d hd hpd

/-- A push on a document that is told apart by the filter leads to the bound only with room for it. -/
theorem room_of_push (hs : Sound user docs) {k : UserId}
    (hp : UpdateOne (fun d => d.sockId = k) (Doc.push ids) docs found docs') (hb : Bounded docs') :
    ∀ d ∈ docs, d.sockId = k → d.nconnects + ids.length ≤ 4 := by
  intro d hd hk
  obtain ⟨x, rfl⟩ := hp.exists_of_mem hd hk
  have hxd := List.inj_on_of_nodup_map hs.nodup hp.value_mem hd (hp.value_matches.trans hk.symm)
  exact hxd ▸ hb _ hp.value_update_mem

theorem DbStep.bounded {c : Call} {r : Return} (h : DbStep docs c docs' r) (hs : Sound user docs)
    (hc : Held user docs (.call c)) (hb : Bounded docs)
    (hown : ∀ client sendTo upd, r = .owned client sendTo upd → ∀ d ∈ docs,
      d.sockId = client.sockId → d.nconnects + client.connects.length ≤ 4)
    (hlink : ∀ s t cl rest, r = .linked s t cl rest → ∀ d ∈ docs, d.sockId = t.addr →
      d.nconnects < 4) : Bounded docs' := by
  cases h with
  | pick client iterations sendTo h => exact hb.push h fun d _ he => he.1
  | own client sendTo h => exact hb.push h (hown client sendTo _ rfl)
  | insert client sendTo id h =>
    intro d hd
    rcases List.mem_append.mp hd with hd | hd
    · exact hb d hd
    · have hnew : (client.doc id).nconnects = client.connects.length := hc.1.count
      have := hc.1.le
      rw [List.mem_singleton.mp hd]
      omega
  | delete s h => exact fun d hd => hb d (h.sublist.subset hd)
  | aggregate s u => exact hb
  | update s tmpaggrs t rest h =>
    -- the new length is that of a part of the list that the count was right for
    obtain ⟨u, hc⟩ := hc
    obtain ⟨ht, hnew⟩ := hc.same t List.mem_cons_self
    refine h.forall hb fun d hd hid _ => ?_
    have hle : t.newnconnects.length ≤ t.connects.length := hnew ▸ List.length_filter_le _ _
    have hcount := hs.count t.toDoc ht
    have := hb t.toDoc ht
    rw [Doc.pull_nconnects]
    omega
  | repick s t rest h => exact hb.push h fun d _ he => he.1
  | link s t cl rest h => exact hb.push h (hlink s t cl rest rfl)

/-! ### The condition before the picks -/

/-- The room that a user's own document needs, told from what was there when it took the lock. -/
theorem Picking.room_iff {before : List Doc} {client : Client} (h : Picking before docs client)
    (hc : Chosen before client) :
    (∀ d ∈ docs, d.sockId = client.sockId → d.nconnects + client.connects.length ≤ 4) ↔
      ∀ d ∈ before, d.sockId = client.sockId →
        d.nconnects + min 2 (eligible before client.sockId) ≤ 4 := by
  rw [Chosen] at hc
  rw [hc]
  constructor
  · exact fun hle d hd hk => hle d ((h.own d hk).mpr hd) hk
  · exact fun hle d hd hk => hle d ((h.own d hk).mp hd) hk

theorem Server.Collects.picking {v : Visit} (h : sv.Collects v) {client : Client}
    {sendTo : List SocketId} (hc : .call (.owning client sendTo) ∈ sv.phases) :
    Picking v.before sv.docs client ∧ Chosen v.before client := h.at_of_mem hc

theorem DbStep.call_of_owned {c : Call} {client : Client} {sendTo : List SocketId}
    {upd : Option Doc} (h : DbStep docs c docs' (.owned client sendTo upd)) :
    c = .owning client sendTo := by
  cases h
  rfl

/-! ### Runs -/

structure Server.Roomy (sv : Server) (v : Visit) : Prop where
  held : sv.Held
  collects : sv.Collects v
  bounded : Bounded sv.docs

theorem Step.bounded {v : Visit} (h : Step room sv e sv') (hs : sv.Roomy v)
    (hr : HasRoom (sv, v) e) : Bounded sv'.docs := by
  rcases h.docs_cases with ⟨-, hd⟩ | ⟨c, r, rfl, hc, hdb⟩
  · exact hd ▸ hs.bounded
  · refine hdb.bounded hs.held.sound (hs.held.held_of_mem hc) hs.bounded ?_ ?_
    · rintro client sendTo upd rfl
      obtain rfl := hdb.call_of_owned
      obtain ⟨hp, hchosen⟩ := hs.collects.picking hc
      exact (hp.room_iff hchosen).mpr hr
    · rintro s t cl rest rfl
      exact hr

theorem Step.hasRoom {v : Visit} (h : Step room sv e sv') (hs : sv.Roomy v)
    (hb : Bounded sv'.docs) : HasRoom (sv, v) e := by
  rcases h.docs_cases with ⟨hne, -⟩ | ⟨c, r, rfl, hc, hdb⟩
  · cases e with
    | db r => exact absurd rfl (hne r)
    | _ => trivial
  · generalize sv'.docs = docs' at hdb hb
    cases hdb with
    | own client sendTo hp =>
      obtain ⟨hpicking, hchosen⟩ := hs.collects.picking hc
      exact (hpicking.room_iff hchosen).mp (room_of_push hs.held.sound hp hb)
    | link s t cl rest hp => exact room_of_push hs.held.sound hp hb
    | _ => trivial

/-- **When the bound holds**: a run keeps it exactly when the users whose documents are still there
have slots left on them for those they will find, and the documents that a second write finds one. -/
theorem run_bounded_iff {tr : List Event} :
    Lts.Run (Lts.Into (MongoStep room) fun sv => Bounded sv.docs) Server.start tr sv ↔
      ∃ v, Lts.Run (Lts.Only (Lts.Remember (MongoStep room) visit) HasRoom) (Server.start, .none) tr
        (sv, v) := by
  rw [Lts.run_into_iff_remember visit .none]
  refine exists_congr fun v => ?_
  exact Lts.run_into_iff (I := fun s => s.1.Roomy s.2) (C := fun _ => True) trivial
    (fun _ _ _ _ _ => trivial) ⟨start_held, start_collects, nofun⟩
    (fun _ _ _ _ hs he => ⟨he.1.1.hasRoom hs, he.1.1.bounded hs⟩)
    fun _ _ _ _ hs he hr => he.2 ▸ ⟨he.1.1.held he.1.2 hs.held,
      he.1.1.collects he.1.2 hs.held hs.collects, he.1.1.bounded hs hr⟩

/-- The first user gets four links, leaves the room and comes back; it picks the one user that does
not list it. -/
def comingBack : List Command :=
  founding "S0" "a" ++ joining "S1" "b" 0 0 ++ joining "S2" "c" 0 0 ++ joining "S3" "d" 0 0 ++
    joining "S4" "e" 0 0 ++ joining "S5" "f" 0 0 ++ [.leave "S0", .join "S0"] ++
    steps (List.replicate 7 0)

theorem not_bounded : ¬ ∀ tr sv, Lts.Run (MongoStep "r") Server.start tr sv → sv.Distinct →
    Bounded sv.docs := by
  intro h
  obtain ⟨tr, sv, hr, hd, hn⟩ := Server.exists_run "r" comingBack (fun _ e => e.Succeeds)
    (fun tr sv => (∀ x ∈ announced tr, ∀ y ∈ announced tr, x.2 = y.2 → x.1 = y.1) ∧
      ¬ Bounded sv.docs) (by decide +kernel)
  exact hn (h tr sv hr (distinct_of_announced hr.of_only hd))

end Yamb.Symple
