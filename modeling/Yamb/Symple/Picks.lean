import Yamb.Symple.Documents
import Yamb.Symple.Tasks

/-!
# What a joiner finds

`broadcastInRoom` asks twice for a document to connect to. How many it gets is decided when it takes
the lock.

* `Visit`, `visit`: the documents when nobody was inside the last time, and the links that the repair
  of the task inside has asked for since;
* `eligible`: the number of documents that `pickNodeToConnect` can take for a user;
* `Picking`, `Chosen`, `Collecting`: how far the joiner has got with them;
* `Step.collects`: the client ends up with two neighbours, or with all there were.
-/

set_option autoImplicit false

namespace Yamb.Symple

open Collection

/-- The pairs that a repair links: the former neighbour and the one it picks, and by the second write,
whose key is an address, the user with that address for a name and the one picked. -/
def Event.bridges : Event → List (UserId × UserId)
  | .db (.repicked _ t _ (some cl)) => [(t.sockId, cl.sockId)]
  | .db (.linked _ t cl _) => [(t.addr, cl.sockId)]
  | _ => []

/-- What the task inside came upon, and what its repair has done. -/
structure Visit where
  before : List Doc
  bridges : List (UserId × UserId)

def Visit.none : Visit := ⟨[], []⟩

def visit (sv : Server) (e : Event) (v : Visit) : Visit :=
  if sv.phases = [] then ⟨sv.docs, []⟩ else ⟨v.before, v.bridges ++ e.bridges⟩

theorem visit_of_nil {sv : Server} {e : Event} {v : Visit} (h : sv.phases = []) :
    visit sv e v = ⟨sv.docs, []⟩ := if_pos h

theorem visit_of_mem {sv : Server} {e : Event} {v : Visit} {p : Phase} (h : p ∈ sv.phases) :
    visit sv e v = ⟨v.before, v.bridges ++ e.bridges⟩ := if_neg (List.ne_nil_of_mem h)

/-- How many documents have a free slot for the user. -/
def eligible (docs : List Doc) (u : UserId) : ℕ := docs.countP fun d => d.Eligible u

variable {user : SocketId → Option UserId} {before docs docs' : List Doc} {client : Client}
  {found : Option Doc} {u : UserId} {room : RoomId} {sv sv' : Server} {e : Event} {v : Visit}

theorem eligible_eq_zero_iff : eligible docs u = 0 ↔ ∀ d ∈ docs, ¬ d.Eligible u := by
  simp [eligible, List.countP_eq_zero]

/-- The document that was picked is not eligible any more, the others are as before. -/
theorem eligible_of_pick {cl : Doc}
    (h : UpdateOne (Doc.Eligible u) (Doc.push [u]) docs (some cl) docs') :
    eligible docs' u + 1 = eligible docs u := by
  obtain ⟨hcl, l₁, l₂, rfl, rfl⟩ := h.of_some
  have hpushed : ¬ (cl.push [u]).Eligible u := fun he =>
    he.2.1 (List.mem_append_right _ (List.mem_singleton.mpr rfl))
  simp only [eligible, List.countP_append, List.countP_cons, decide_eq_true_eq, if_pos hcl,
    if_neg hpushed]
  omega

/-- The joiner has picked some of the documents that were eligible, its own is as it was. -/
structure Picking (before docs : List Doc) (client : Client) : Prop where
  count : eligible docs client.sockId + client.connects.length = eligible before client.sockId
  members : members docs = members before
  own : ∀ d, d.sockId = client.sockId → (d ∈ docs ↔ d ∈ before)

/-- The joiner has two neighbours, or all there were. -/
def Chosen (before : List Doc) (client : Client) : Prop :=
  client.connects.length = min 2 (eligible before client.sockId)

def Collecting (before docs : List Doc) : Phase → Prop
  | .call (.picking client _ _) => Picking before docs client
  | .ret (.picked client _ _ none) =>
    Picking before docs client ∧ eligible docs client.sockId = 0
  | .ret (.picked client _ _ (some cl)) => Picking before docs (client.add cl)
  | .call (.owning client _) => Picking before docs client ∧ Chosen before client
  | .ret (.owned client _ none) | .call (.inserting client _) =>
    members docs = members before ∧ Chosen before client
  | .ret (.inserted client _) =>
    members docs = members before ++ [client.sockId] ∧ Chosen before client
  | _ => True

theorem Picking.refl (client : Client) (h : client.connects = []) : Picking docs docs client :=
  ⟨by rw [h]; rfl, rfl, fun _ _ => Iff.rfl⟩

theorem Picking.pick (h : Picking before docs client) {cl : Doc}
    (hp : UpdateOne (Doc.Eligible client.sockId) (Doc.push [client.sockId]) docs (some cl) docs') :
    Picking before docs' (client.add cl) where
  count := by
    have hcount := h.count
    have hpick := eligible_of_pick hp
    rw [Client.add, List.length_append, List.length_singleton]
    show eligible docs' client.sockId + _ = eligible before client.sockId
    omega
  members := (members_of_push hp).trans h.members
  own d hd := by
    refine Iff.trans ?_ (h.own d hd)
    -- nobody picks the own document
    have hne : cl.sockId ≠ d.sockId := fun he => hp.value_matches.2.2 (he.trans hd)
    constructor
    · intro hmem
      rcases hp.mem hmem with hmem | ⟨x, -, hx, -, rfl⟩
      · exact hmem
      · cases hx
        exact absurd rfl hne
    · intro hmem
      rcases hp.mem_of_mem hmem with hmem | ⟨hx, -⟩
      · exact hmem
      · cases hx
        exact absurd rfl hne

theorem DbStep.collecting {c : Call} {r : Return} (h : DbStep docs c docs' r)
    (hc : Collecting before docs (.call c)) : Collecting before docs' (.ret r) := by
  cases h with
  | @pick _ cl client iterations sendTo h =>
    have hc : Picking before docs client := hc
    cases cl with
    | none =>
      obtain ⟨rfl, hn⟩ := h.of_none
      exact ⟨hc, eligible_eq_zero_iff.mpr hn⟩
    | some cl => exact hc.pick h
  | @own _ upd client sendTo h =>
    cases upd with
    | none =>
      obtain ⟨rfl, -⟩ := h.of_none
      exact ⟨hc.1.members, hc.2⟩
    | some => trivial
  | insert client sendTo id h =>
    refine ⟨?_, hc.2⟩
    rw [members_insert, hc.1]
  | _ => trivial

theorem collecting_of_joiner {p : Phase} (h : p.joiner = none) : Collecting before docs p := by
  match p with
  | .call (.picking ..) | .call (.owning ..) | .call (.inserting ..) | .ret (.picked ..)
  | .ret (.owned ..) | .ret (.inserted ..) => cases h
  | .call (.deleting _) | .call (.aggregating ..) | .call (.updating ..)
  | .call (.repicking ..) | .call (.linking ..) | .ret (.deleted ..) | .ret (.aggregated ..)
  | .ret (.updated ..) | .ret (.repicked ..) | .ret (.linked ..) => trivial

theorem collecting_next {connected : SocketId → Bool} {userOf : SocketId → UserId} {r : Return}
    {c : Call} (h : Collecting before docs (.ret r)) (hheld : Held user docs (.ret r))
    (hn : r.next connected userOf = .call c) : Collecting before docs (.call c) := by
  match r, h, hheld with
  | .picked client iterations sendTo none, h, hheld =>
    cases hn
    -- nobody is left, and less than two have been picked
    refine ⟨h.1, ?_⟩
    have hcount := h.1.count
    have hzero := h.2
    have hleft := hheld.2
    rw [Chosen]
    omega
  | .picked client iterations sendTo (some cl), h, hheld =>
    simp only [Return.next] at hn
    split_ifs at hn with hi
    · cases hn
      exact h
    · cases hn
      refine ⟨h, ?_⟩
      have hcount := h.count
      have hlength : (client.add cl).connects.length = client.connects.length + 1 :=
        List.length_append
      have hleft := hheld.2
      rw [Chosen]
      omega
  | .owned client sendTo none, h, _ =>
    cases hn
    exact h
  | .inserted client sendTo, _, _ => cases hn
  | .deleted .., _, _ | .aggregated .., _, _ | .updated .., _, _ | .repicked .., _, _
  | .linked .., _, _ => exact collecting_of_joiner (Return.joiner_call hn).1

/-! ### Runs -/

def Server.Collects (sv : Server) (v : Visit) : Prop :=
  Lock.Guarded (fun _ => True) (Collecting v.before) sv.lock

theorem Server.Enters.collecting {p : Phase} (h : sv.Enters room e p) :
    Collecting sv.docs sv.docs p := by
  cases h with
  | joined | retry => exact .refl _ rfl
  | wait | disconnect => trivial

theorem Step.collects (h : Step room sv e sv') (he : e.Succeeds) (hs : sv.Held)
    (hc : sv.Collects v) : sv'.Collects (visit sv e v) := by
  refine h.lock.guarded hc he.not_givesUp id (fun _ p hp hk => by rwa [visit_of_mem hp])
    (fun p hnil hp _ => by rw [visit_of_nil hnil]; exact hp.collecting) ?_ fun _ _ _ _ => trivial
  rintro p docs' p' hp hw hk
  rw [visit_of_mem hp]
  cases hw with
  | db hdb => exact hdb.collecting hk
  | next hn => exact collecting_next hk (hs.held_of_mem hp) hn

theorem start_collects : Server.start.Collects .none := .rest trivial

end Yamb.Symple
