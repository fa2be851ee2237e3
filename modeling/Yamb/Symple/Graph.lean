import Mathlib.Combinatorics.SimpleGraph.Basic
import Yamb.Lib.Connectivity
import Yamb.Symple.Documents

/-!
# The link graph of a room

* `linkGraph`, `users`: users are linked when one of their documents lists the other; the vertices are
  the users that have a document;
* `Linked`, `Bilinked`: the graph is connected, and stays so when any one document is missing;
* `Linked.insert`, `Bilinked.insert`: a joiner keeps that with one neighbour, and with two.
-/

set_option autoImplicit false

namespace Yamb.Symple

open Collection Connectivity

def linkGraph (docs : List Doc) : SimpleGraph UserId := SimpleGraph.fromRel (Lists docs)

def users (docs : List Doc) : Set UserId := {u | u ∈ members docs}

/-- The link graph on the documents is connected. -/
abbrev Linked (docs : List Doc) : Prop := ConnectedOn (linkGraph docs) (users docs)

abbrev Bilinked (docs : List Doc) : Prop := BiconnectedOn (linkGraph docs) (users docs)

variable {user : SocketId → Option UserId} {docs docs' : List Doc} {p : Doc → Prop}
  {found : Option Doc} {ids : List UserId} {client : Client} {id : ℕ} {a b v w : UserId}

theorem linkGraph_adj :
    (linkGraph docs).Adj a b ↔ a ≠ b ∧ (Lists docs a b ∨ Lists docs b a) :=
  SimpleGraph.fromRel_adj _ _ _

theorem linkGraph_mono (h : ∀ a b, Lists docs a b → Lists docs' a b)
    (hab : (linkGraph docs).Adj a b) : (linkGraph docs').Adj a b := by
  rw [linkGraph_adj] at hab ⊢
  exact ⟨hab.1, hab.2.imp (h a b) (h b a)⟩

theorem users_of_members (h : members docs' = members docs) : users docs' = users docs := by
  rw [users, users, h]

theorem users_insert : users (docs ++ [client.doc id]) = insert client.sockId (users docs) := by
  ext u
  rw [users, Set.mem_ofPred_eq, members_insert, List.mem_append, List.mem_singleton, or_comm]
  rfl

theorem users_subsingleton (h : docs.length ≤ 1) : (users docs).Subsingleton := by
  intro a ha b hb
  obtain ⟨x, hx, rfl⟩ := mem_members.mp ha
  obtain ⟨y, hy, rfl⟩ := mem_members.mp hb
  match docs, h with
  | [d], _ => rw [List.mem_singleton.mp hx, List.mem_singleton.mp hy]

theorem Linked.push (h : Linked docs) (hp : UpdateOne p (Doc.push ids) docs found docs') :
    Linked docs' := by
  unfold Linked
  rw [users_of_members (members_of_push hp)]
  exact h.mono fun a _ b _ => linkGraph_mono fun _ _ hl => hl.push hp

theorem Bilinked.push (h : Bilinked docs) (hp : UpdateOne p (Doc.push ids) docs found docs') :
    Bilinked docs' := by
  unfold Bilinked
  rw [users_of_members (members_of_push hp)]
  exact h.mono fun a _ b _ => linkGraph_mono fun _ _ hl => hl.push hp

/-- The document of a joiner links it to those it has collected. -/
theorem adj_insert (hv : v ∈ client.connects) (hne : v ≠ client.sockId) :
    (linkGraph (docs ++ [client.doc id])).Adj client.sockId v :=
  linkGraph_adj.mpr ⟨hne.symm, .inl (lists_insert.mpr (.inr ⟨rfl, hv⟩))⟩

theorem linkGraph_insert (hab : (linkGraph docs).Adj a b) :
    (linkGraph (docs ++ [client.doc id])).Adj a b :=
  linkGraph_mono (fun _ _ hl => lists_insert.mpr (.inl hl)) hab

theorem Linked.insert (h : Linked docs) (hc : Collected user docs client)
    (hv : v ∈ client.connects) : Linked (docs ++ [client.doc id]) := by
  obtain ⟨hne, hl⟩ := hc.picked v hv
  unfold Linked
  rw [users_insert]
  refine ConnectedOn.insert (w := v) (h.mono fun a _ b _ => linkGraph_insert) hl.mem_members ?_
  exact adj_insert hv hne

theorem Bilinked.insert (h : Bilinked docs) (hc : Collected user docs client)
    (hm : client.sockId ∉ members docs) (hv : v ∈ client.connects) (hw : w ∈ client.connects)
    (hvw : v ≠ w) : Bilinked (docs ++ [client.doc id]) := by
  obtain ⟨hvne, hvl⟩ := hc.picked v hv
  obtain ⟨hwne, hwl⟩ := hc.picked w hw
  unfold Bilinked
  rw [users_insert]
  refine BiconnectedOn.insert (h.mono fun a _ b _ => linkGraph_insert) hm hvl.mem_members
    hwl.mem_members hvw ?_ ?_
  · exact adj_insert hv hvne
  · exact adj_insert hw hwne

end Yamb.Symple
