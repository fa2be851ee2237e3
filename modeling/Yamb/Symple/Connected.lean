import Yamb.Symple.Churn
import Yamb.Symple.Graph
import Yamb.Symple.Picks
import Yamb.Symple.Script

/-!
# Does a room stay connected?

A joiner that finds no free slot stands alone, and the repair after a disconnect lets each former
neighbour pick any document at all.

* `Bridged`: wherever the former neighbours of the one that left fall apart, the picks of the repair
  lead across;
* `Sustains`: a joiner comes to an empty room or to a document with a free slot, and a clean-up ends
  with the former neighbours bridged;
* **`run_connected_iff`**: a room is connected whenever nobody is inside exactly when all steps sustain
  it;
* `not_connected`: a run of joins and disconnects after which it is not, and one in which every joiner
  has found a neighbour.
-/

set_option autoImplicit false

namespace Yamb.Symple

open Collection Connectivity

variable {user : SocketId → Option UserId} {v : Visit} {before docs docs' : List Doc} {room : RoomId}
  {sv sv' : Server} {e : Event} {a b u : UserId} {p : Doc → Prop} {found : Option Doc}
  {ids : List UserId}

/-- The repair has linked two users. -/
def Visit.Joins (v : Visit) (a b : UserId) : Prop := (a, b) ∈ v.bridges ∨ (b, a) ∈ v.bridges

/-- Whichever way those that remain are divided between former neighbours of `u`, without a link
across: a pick of the repair leads across. -/
def Bridged (v : Visit) (u : UserId) : Prop :=
  ∀ P : Set UserId, (∃ a ∈ users v.before \ {u}, a ∈ P ∧ (linkGraph v.before).Adj u a) →
    (∃ b ∈ users v.before \ {u}, b ∉ P ∧ (linkGraph v.before).Adj u b) →
    (∀ a ∈ users v.before \ {u}, a ∈ P → ∀ b ∈ users v.before \ {u}, b ∉ P →
      ¬ (linkGraph v.before).Adj a b) →
    ∃ a ∈ users v.before \ {u}, ∃ b ∈ users v.before \ {u}, a ∈ P ∧ b ∉ P ∧ v.Joins a b

/-- A document is inserted into a room that was empty, or had a document that the joiner could pick;
a clean-up has bridged what the one that left has divided. -/
def Sustains (s : Server × Visit) : Event → Prop
  | .resume r =>
    (∀ client sendTo, r = .inserted client sendTo →
      s.2.before = [] ∨ ∃ d ∈ s.2.before, d.Eligible client.sockId) ∧
    ∀ t u, r.next s.1.connected s.1.userOf = .freed t → s.1.user t = some u → Bridged s.2 u
  | _ => True

/-! ### A joiner that has picked nobody -/

/-- The document of `a` is there and has no links. -/
structure Isolated (docs : List Doc) (a : UserId) : Prop where
  mem : a ∈ members docs
  alone : ∀ b, ¬ (linkGraph docs).Adj a b

theorem isolated_of_unlisted (ha : a ∈ members docs)
    (hl : ∀ d ∈ docs, a ∉ d.connects ∧ (d.sockId = a → d.connects = [])) : Isolated docs a := by
  refine ⟨ha, fun b hab => ?_⟩
  rcases (linkGraph_adj.mp hab).2 with ⟨d, hd, hk, hm⟩ | ⟨d, hd, -, hm⟩
  · rw [(hl d hd).2 hk] at hm
    cases hm
  · exact (hl d hd).1 hm

theorem Isolated.eq_of_linked (h : Isolated docs a) (hl : Linked docs) (hb : b ∈ members docs) :
    b = a := by
  by_contra hne
  obtain ⟨x, hx⟩ := ConnectedOn.exists_adj hl h.mem hb (Ne.symm hne)
  exact h.alone x hx

theorem Isolated.linked_iff (h : Isolated docs a) (hs : Sound user docs) :
    Linked docs ↔ docs.length ≤ 1 := by
  constructor
  · intro hl
    have hsub : members docs ⊆ [a] := fun b hb => List.mem_singleton.mpr (h.eq_of_linked hl hb)
    rw [← List.length_map (f := Doc.sockId)]
    exact (List.subperm_of_subset hs.nodup hsub).length_le
  · exact fun hle => connectedOn_of_subsingleton (users_subsingleton hle)

theorem Stranger.isolated {client : Client} (h : Stranger docs client) (hnil : client.connects = [])
    {id : ℕ} : Isolated (docs ++ [client.doc id]) client.sockId := by
  refine isolated_of_unlisted (by simp [members_insert]) fun d hd => ?_
  rcases List.mem_append.mp hd with hd | hd
  · refine ⟨fun hm => ?_, fun hk => absurd (hk ▸ List.mem_map_of_mem hd) h.absent⟩
    have hlist := h.listed d.sockId ⟨d, hd, rfl, hm⟩
    rw [hnil] at hlist
    cases hlist
  · obtain rfl := List.mem_singleton.mp hd
    rw [Client.doc, hnil]
    exact ⟨List.not_mem_nil, fun _ => rfl⟩

/-- A joiner finds a room empty or a document to pick exactly when the room is connected with it. -/
theorem linked_iff_of_inserted {client : Client} (hs : Sound user docs)
    (hk : if client.connects = [] then Isolated docs client.sockId else Linked docs)
    (hm : members docs = members before ++ [client.sockId]) (hc : Chosen before client) :
    Linked docs ↔ before = [] ∨ ∃ d ∈ before, d.Eligible client.sockId := by
  split_ifs at hk with hnil
  · have hzero : eligible before client.sockId = 0 := by
      rw [Chosen, hnil, List.length_nil] at hc
      omega
    have hnone : ¬ ∃ d ∈ before, d.Eligible client.sockId := by
      rintro ⟨d, hd, he⟩
      exact eligible_eq_zero_iff.mp hzero d hd he
    have hlength : docs.length = before.length + 1 := by
      have hlen := congrArg List.length hm
      simpa [members] using hlen
    rw [hk.linked_iff hs, or_iff_left hnone, ← List.length_eq_zero_iff]
    omega
  · refine iff_of_true hk (.inr ?_)
    by_contra hnone
    have hzero : eligible before client.sockId = 0 :=
      eligible_eq_zero_iff.mpr fun d hd he => hnone ⟨d, hd, he⟩
    rw [Chosen, hzero, Nat.min_zero] at hc
    exact hnil (List.length_eq_zero_iff.mp hc)

/-! ### While the lock is held -/

/-- What the task inside came upon, and the links that an operation has added since. -/
def Visit.go (v : Visit) (e : Event) : Visit := ⟨v.before, v.bridges ++ e.bridges⟩

theorem Visit.go_of_nil (h : e.bridges = []) : v.go e = v := by
  rw [Visit.go, h, List.append_nil]

/-- The documents but that of `u`, with the links they had and those of the repair. -/
structure Remains (v : Visit) (docs : List Doc) (u : UserId) : Prop where
  linked : Linked v.before
  vertices : users docs = users v.before \ {u}
  adj : ∀ a ∈ users docs, ∀ b ∈ users docs, a ≠ b →
    ((linkGraph docs).Adj a b ↔ (linkGraph v.before).Adj a b ∨ v.Joins a b)

theorem Remains.congr (h : Remains v docs u) (hm : members docs' = members docs)
    (hl : ∀ a ∈ users docs, ∀ b ∈ users docs, Lists docs' a b ↔ Lists docs a b) :
    Remains v docs' u where
  linked := h.linked
  vertices := (users_of_members hm).trans h.vertices
  adj a ha b hb hne := by
    rw [users_of_members hm] at ha hb
    rw [linkGraph_adj, hl a ha b hb, hl b hb a ha, ← linkGraph_adj]
    exact h.adj a ha b hb hne

/-- A push of the repair adds the link that is recorded. -/
theorem Remains.push (h : Remains v docs u) {x y : UserId} (hm : members docs' = members docs)
    (hl : ∀ a ∈ users docs, ∀ b ∈ users docs,
      Lists docs' a b ↔ Lists docs a b ∨ a = x ∧ b = y)
    {v' : Visit} (hv : v'.before = v.before)
    (hj : ∀ a b, v'.Joins a b ↔ v.Joins a b ∨ (a = x ∧ b = y ∨ b = x ∧ a = y)) :
    Remains v' docs' u where
  linked := hv ▸ h.linked
  vertices := hv ▸ (users_of_members hm).trans h.vertices
  adj a ha b hb hne := by
    rw [users_of_members hm] at ha hb
    have hadj := h.adj a ha b hb hne
    rw [linkGraph_adj, and_iff_right hne] at hadj ⊢
    rw [hl a ha b hb, hl b hb a ha, hj, hv, or_or_or_comm, hadj, or_assoc]

theorem Visit.joins_push {x y : UserId} : (Visit.mk v.before (v.bridges ++ [(x, y)])).Joins a b ↔
    v.Joins a b ∨ (a = x ∧ b = y ∨ b = x ∧ a = y) := by
  simp only [Visit.Joins, List.mem_append, List.mem_singleton, Prod.mk.injEq]
  exact or_or_or_comm

theorem Remains.of_delete (h : Linked docs) (hs : Sound user docs) {s : SocketId}
    (hd : DeleteOne (fun d => d.addr = s) docs 1 docs') :
    ∃ u, user s = some u ∧ Remains ⟨docs, []⟩ docs' u := by
  obtain ⟨d, -, -, hu, -, hmem⟩ := hs.not_mem_of_delete hd
  have husers : users docs' = users docs \ {d.sockId} := by
    ext a
    constructor
    · intro ha
      obtain ⟨x, hx, rfl⟩ := mem_members.mp ha
      exact ⟨List.mem_map_of_mem ((hmem x).mp hx).1, ((hmem x).mp hx).2⟩
    · rintro ⟨ha, hne⟩
      obtain ⟨x, hx, rfl⟩ := mem_members.mp ha
      exact List.mem_map_of_mem ((hmem x).mpr ⟨hx, hne⟩)
  have hlists : ∀ a ∈ users docs', ∀ b, Lists docs' a b ↔ Lists docs a b := by
    intro a ha b
    rw [husers] at ha
    constructor
    · rintro ⟨x, hx, hk, hb⟩
      exact ⟨x, ((hmem x).mp hx).1, hk, hb⟩
    · rintro ⟨x, hx, rfl, hb⟩
      exact ⟨x, (hmem x).mpr ⟨hx, ha.2⟩, rfl, hb⟩
  refine ⟨d.sockId, hu, h, husers, fun a ha b hb _ => ?_⟩
  have hnone : ¬ (Visit.mk docs []).Joins a b := by
    rintro (hab | hab) <;> cases hab
  rw [linkGraph_adj, linkGraph_adj, hlists a ha, hlists b hb, or_iff_left hnone]

theorem Remains.pull (h : Remains v docs u) (hs : Sound user docs) {s : SocketId}
    {tmpaggrs rest : List Aggr} {t : Aggr} (hc : Unlinking user docs s u tmpaggrs (t :: rest))
    (hp : UpdateOne (fun d => d.id = t.id) (Doc.pull t.newnconnects) docs found docs') :
    Remains v docs' u :=
  h.congr (members_of_pull hp) fun _ _ _ hb => hc.lists_iff hs hp fun hbu => hc.absent (hbu ▸ hb)

theorem Remains.repick (h : Remains v docs u) {s : SocketId} {t : Aggr} {rest : List Aggr}
    {cl : Option Doc}
    (hp : UpdateOne (Doc.Eligible t.sockId) (Doc.push [t.sockId]) docs cl docs') :
    Remains (v.go (.db (.repicked s t rest cl))) docs' u := by
  cases cl with
  | none =>
    rw [Visit.go_of_nil rfl, hp.of_none.1]
    exact h
  | some cl =>
    refine h.push (x := cl.sockId) (y := t.sockId) (members_of_push hp) (fun a _ b _ => ?_) rfl
      fun a b => ?_
    · rw [lists_of_push hp]
      constructor
      · rintro (hl | ⟨d, hd, rfl, hb⟩)
        · exact .inl hl
        · cases hd
          exact .inr ⟨rfl, List.mem_singleton.mp hb⟩
      · rintro (hl | ⟨rfl, rfl⟩)
        · exact .inl hl
        · exact .inr ⟨cl, rfl, rfl, List.mem_singleton.mpr rfl⟩
    · refine Visit.joins_push.trans (or_congr_right ?_)
      rw [or_comm, and_comm, and_comm (a := a = t.sockId)]

theorem Remains.link (h : Remains v docs u) {s : SocketId} {t : Aggr} {rest : List Aggr} {cl : Doc}
    (hp : UpdateOne (fun d => d.sockId = t.addr) (Doc.push [cl.sockId]) docs found docs') :
    Remains (v.go (.db (.linked s t cl rest))) docs' u := by
  refine h.push (x := t.addr) (y := cl.sockId) (members_of_push hp) (fun a ha b _ => ?_) rfl
    fun a b => Visit.joins_push
  rw [lists_of_push hp]
  refine or_congr_right ?_
  constructor
  · rintro ⟨d, rfl, rfl, hb⟩
    exact ⟨hp.value_matches, List.mem_singleton.mp hb⟩
  · rintro ⟨rfl, rfl⟩
    obtain ⟨x, hx, hk⟩ := mem_members.mp ha
    obtain ⟨d, rfl⟩ := hp.exists_of_mem hx hk
    exact ⟨d, rfl, hp.value_matches, List.mem_singleton.mpr rfl⟩

/-- The clean-up ends with a connected room exactly when it has bridged it. -/
theorem Remains.linked_iff (h : Remains v docs u) : Linked docs ↔ Bridged v u := by
  have herase := ConnectedOn.erase_iff (R := v.Joins) h.linked h.vertices h.adj
  rw [h.vertices] at herase
  unfold Linked
  rw [h.vertices]
  exact herase

/-- What is known of the graph at each position. -/
def Keeps (user : SocketId → Option UserId) (v : Visit) (docs : List Doc) : Phase → Prop
  | .call (.picking ..) | .ret (.picked ..) | .call (.owning ..) | .ret (.owned ..)
  | .call (.inserting ..) => Linked docs
  | .ret (.inserted client _) =>
    if client.connects = [] then Isolated docs client.sockId else Linked docs
  | .call (.deleting _) => Linked docs ∧ v = ⟨docs, []⟩
  | .ret (.deleted s n) => if n = 1 then ∃ u, user s = some u ∧ Remains v docs u else Linked docs
  | .call (.aggregating s _) | .ret (.aggregated s _) | .call (.updating s _ _ _)
  | .ret (.updated s _ _) | .call (.repicking s _ _) | .ret (.repicked s _ _ _)
  | .call (.linking s _ _ _) | .ret (.linked s _ _ _) => ∃ u, user s = some u ∧ Remains v docs u

theorem DbStep.keeps {c : Call} {r : Return} (h : DbStep docs c docs' r) (hs : Sound user docs)
    (hc : Held user docs (.call c)) (hst : Strange docs (.call c))
    (hk : Keeps user v docs (.call c)) : Keeps user (v.go (.db r)) docs' (.ret r) := by
  cases h with
  | @pick _ cl client iterations sendTo h =>
    have hk : Linked docs := hk
    exact hk.push h
  | @own _ upd client sendTo h =>
    have hk : Linked docs := hk
    exact hk.push h
  | insert client sendTo id h =>
    have hk : Linked docs := hk
    have hst : Stranger docs client := hst
    rw [Keeps]
    split_ifs with hnil
    · exact hst.isolated hnil
    · obtain ⟨v, hv⟩ := List.exists_mem_of_ne_nil _ hnil
      exact hk.insert hc.1 hv
  | @delete _ n s h =>
    obtain ⟨hl, rfl⟩ := hk
    rcases h.eq_zero_or_one with rfl | rfl
    · rw [h.of_zero.1]
      exact hl
    · exact Remains.of_delete hl hs h
  | aggregate s u =>
    rw [Visit.go_of_nil rfl]
    exact hk
  | update s tmpaggrs t rest h =>
    obtain ⟨u, hc⟩ := hc
    obtain ⟨u', hu', hr⟩ := hk
    obtain rfl := Option.some.inj (hu'.symm.trans hc.owner)
    rw [Visit.go_of_nil rfl]
    exact ⟨u', hu', hr.pull hs hc h⟩
  | repick s t rest h =>
    obtain ⟨u, hu, hr⟩ := hk
    exact ⟨u, hu, hr.repick h⟩
  | link s t cl rest h =>
    obtain ⟨u, hu, hr⟩ := hk
    exact ⟨u, hu, hr.link h⟩

theorem keeps_repair {connected : SocketId → Bool} {s : SocketId} {l : List Aggr} {c : Call}
    (h : ∃ u, user s = some u ∧ Remains v docs u) (hn : repair connected s l = .call c) :
    Keeps user v docs (.call c) := by
  obtain ⟨l₁, t, rest, -, rfl, -⟩ := repair_eq_call hn
  exact h

theorem keeps_unlink {connected : SocketId → Bool} {s : SocketId} {tmpaggrs l : List Aggr} {c : Call}
    (h : ∃ u, user s = some u ∧ Remains v docs u) (hn : unlink connected s tmpaggrs l = .call c) :
    Keeps user v docs (.call c) := by
  cases l with
  | nil => exact keeps_repair h hn
  | cons t rest =>
    cases hn
    exact h

theorem keeps_next {connected : SocketId → Bool} {userOf : SocketId → UserId} {r : Return} {c : Call}
    (h : Keeps user v docs (.ret r)) (hn : r.next connected userOf = .call c) :
    Keeps user v docs (.call c) := by
  match r, h with
  | .picked client iterations sendTo none, h =>
    cases hn
    exact h
  | .picked client iterations sendTo (some cl), h =>
    simp only [Return.next] at hn
    split_ifs at hn <;> (cases hn; exact h)
  | .owned client sendTo none, h =>
    cases hn
    exact h
  | .owned client sendTo (some _), _ => cases hn
  | .inserted client sendTo, _ => cases hn
  | .deleted s n, h =>
    simp only [Return.next] at hn
    split_ifs at hn with h1
    cases hn
    rwa [Keeps, if_pos (not_not.mp h1)] at h
  | .aggregated s tmpaggrs, h => exact keeps_unlink h hn
  | .updated s tmpaggrs rest, h => exact keeps_unlink h hn
  | .repicked s t rest none, h => exact keeps_repair h hn
  | .repicked s t rest (some cl), h =>
    cases hn
    exact h
  | .linked s t cl rest, h => exact keeps_repair h hn

/-- A critical section ends with a connected room exactly when it sustains it. -/
theorem keeps_leave_iff {connected : SocketId → Bool} {userOf : SocketId → UserId} {r : Return}
    (h : Keeps user v docs (.ret r)) (hs : Sound user docs)
    (hcol : Collecting v.before docs (.ret r))
    (hl : ∀ c, r.next connected userOf ≠ .call c) : Linked docs ↔
      (∀ client sendTo, r = .inserted client sendTo →
        v.before = [] ∨ ∃ d ∈ v.before, d.Eligible client.sockId) ∧
      ∀ s u, r.next connected userOf = .freed s → user s = some u → Bridged v u := by
  have hc := r.continues connected userOf
  generalize hn : r.next connected userOf = n at hc
  cases hc with
  | call => exact absurd hn (hl _)
  | missed hr hne =>
    subst hr
    rw [Keeps, if_neg hne] at h
    exact iff_of_true h ⟨fun _ _ hr => (by cases hr), fun _ _ hf => (by cases hf)⟩
  | @joined client sendTo hj =>
    have hfreed : ∀ s u, Next.joined client sendTo = .freed s → user s = some u → Bridged v u :=
      fun _ _ hf => by cases hf
    rw [and_iff_left hfreed]
    match r, h with
    | .picked client iterations sendTo cl, h =>
      exact iff_of_true h fun _ _ hr => by cases hr
    | .owned client sendTo upd, h => exact iff_of_true h fun _ _ hr => by cases hr
    | .inserted client sendTo, h =>
      refine (linked_iff_of_inserted hs h hcol.1 hcol.2).trans ⟨?_, fun h => h client sendTo rfl⟩
      rintro h _ _ hr
      cases hr
      exact h
  | @freed s hj hleaver =>
    have hr : ∃ u, user s = some u ∧ Remains v docs u := by
      match r, h with
      | .deleted s' n, _ =>
        simp only [Return.next] at hn
        split_ifs at hn
      | .aggregated s' tmpaggrs, h | .updated s' tmpaggrs rest, h | .repicked s' t rest cl, h
      | .linked s' t cl rest, h =>
        cases hleaver
        exact h
    obtain ⟨u, hu, hr⟩ := hr
    rw [hr.linked_iff]
    constructor
    · refine fun hb => ⟨?_, fun s' u' hs' hu' => ?_⟩
      · rintro client sendTo rfl
        cases hj
      · cases hs'
        obtain rfl := Option.some.inj (hu.symm.trans hu')
        exact hb
    · exact fun hb => hb.2 s u rfl hu

/-! ### Runs -/

structure Server.Keeping (sv : Server) (v : Visit) : Prop where
  fresh : sv.Fresh
  collects : sv.Collects v
  guarded : Lock.Guarded Linked (Keeps sv.user v) sv.lock

theorem Keeps.mono {user' : SocketId → Option UserId} {p : Phase} (h : Keeps user v docs p)
    (hu : ∀ s u, user s = some u → user' s = some u) : Keeps user' v docs p := by
  have hex {s : SocketId} (h : ∃ u, user s = some u ∧ Remains v docs u) :
      ∃ u, user' s = some u ∧ Remains v docs u := h.imp fun u h => ⟨hu s u h.1, h.2⟩
  match p, h with
  | .call (.picking ..), h | .ret (.picked ..), h | .call (.owning ..), h | .ret (.owned ..), h
  | .call (.inserting ..), h | .ret (.inserted ..), h | .call (.deleting _), h => exact h
  | .ret (.deleted s n), h =>
    rw [Keeps] at h ⊢
    split_ifs with hn
    · rw [if_pos hn] at h
      exact hex h
    · rwa [if_neg hn] at h
  | .call (.aggregating ..), h | .ret (.aggregated ..), h | .call (.updating ..), h
  | .ret (.updated ..), h | .call (.repicking ..), h | .ret (.repicked ..), h
  | .call (.linking ..), h | .ret (.linked ..), h => exact hex h

theorem sustains_of_not_leaves (h : ∀ p, ¬ sv.Leaves e p) : Sustains (sv, v) e := by
  cases e with
  | resume r =>
    have hc : ∃ c, r.next sv.connected sv.userOf = .call c := by
      by_contra hne
      exact h _ (.leave (not_exists.mp hne))
    obtain ⟨c, hc⟩ := hc
    refine ⟨?_, fun s u hn _ => ?_⟩
    · rintro client sendTo rfl
      cases hc
    · rw [hc] at hn
      cases hn
  | _ => trivial

theorem Step.linked_iff (h : Step room sv e sv') (he : e.Churn) (hs : sv.Keeping v) :
    (sv'.phases = [] → Linked sv'.docs) ↔ Sustains (sv, v) e := by
  by_cases hL : ∃ p, sv.Leaves e p
  · obtain ⟨_, @⟨r, hne⟩⟩ := hL
    have hlock := h.lock_of_leaves hs.guarded.excl hne
    have hdocs : sv'.docs = sv.docs := congrArg Lock.State.data hlock
    have hphases : sv'.phases = [] := congrArg Lock.State.inside hlock
    rw [hdocs, forall_prop_of_true hphases]
    exact keeps_leave_iff (hs.guarded.at_of_mem h.returns) hs.fresh.held.sound
      (hs.collects.at_of_mem h.returns) hne
  · refine iff_of_true (fun hnil => ?_) (sustains_of_not_leaves (not_exists.mp hL))
    have hl := h.lock
    have hnil : sv'.lock.inside = [] := hnil
    show Linked sv'.lock.data
    generalize sv'.lock = k' at hl hnil
    cases hl with
    | idle => exact (hs.guarded.rest_of_nil hnil).2
    | enter _ _ hp | work _ _ hp =>
      obtain rfl := hnil
      exact absurd hp.nil_eq (List.cons_ne_nil _ _).symm
    | leave _ hp => exact absurd ⟨_, hp⟩ hL
    | giveUp _ hp => exact absurd hp (he.succeeds.not_givesUp _)

/-- The links of a repair are recorded by steps of the database, which change where the task is. -/
theorem Step.bridges_eq_nil (h : Step room sv e sv') (hx : Lock.Excl sv.lock)
    (hlock : sv'.lock = sv.lock) : e.bridges = [] := by
  rcases h.docs_cases with ⟨hne, -⟩ | ⟨c, r, rfl, hc, -⟩
  · cases e with
    | db r => exact absurd rfl (hne r)
    | _ => rfl
  · have hphases : sv'.phases = sv.phases := congrArg Lock.State.inside hlock
    have hr : .ret r ∈ sv.phases := hphases ▸ h.answered
    cases hx.eq_of_mem hc hr

theorem Step.keeping (h : Step room sv e sv') (he : e.Churn) (hd : sv'.Distinct)
    (hg : Sustains (sv, v) e) (hs : sv.Keeping v) : sv'.Keeping (visit sv e v) := by
  have hmono : ∀ s u, sv.user s = some u → sv'.user s = some u := fun _ _ => h.user_mono
  have hin {p : Phase} (hp : p ∈ sv.phases) : visit sv e v = v.go e := visit_of_mem hp
  refine ⟨h.fresh he hd hs.fresh, h.collects he.succeeds hs.fresh.held hs.collects,
    h.lock.guarded hs.guarded he.succeeds.not_givesUp id (fun heq p hp hk => ?_)
      (fun p hnil hp hr => ?_) ?_ ?_⟩
  · rw [hin hp, Visit.go_of_nil (h.bridges_eq_nil hs.guarded.excl heq)]
    exact hk.mono hmono
  · rw [visit_of_nil hnil]
    cases hp with
    | joined => exact hr
    | retry => exact hr
    | wait => exact ⟨hr, rfl⟩
    | disconnect => exact ⟨hr, rfl⟩
  · rintro p docs' p' hp hw hk
    rw [hin hp]
    cases hw with
    | db hdb =>
      exact (hdb.keeps hs.fresh.held.sound (hs.fresh.held.held_of_mem hp)
        (hs.fresh.strange.at_of_mem hp) hk).mono hmono
    | next hn =>
      rw [Visit.go_of_nil rfl]
      exact (keeps_next hk hn).mono hmono
  · rintro p hp ⟨hl⟩ hk
    exact (keeps_leave_iff hk hs.fresh.held.sound (hs.collects.at_of_mem hp) hl).mpr hg

theorem start_keeping : Server.start.Keeping .none :=
  ⟨start_fresh, start_collects,
    .rest (connectedOn_of_subsingleton (users_subsingleton (Nat.zero_le 1)))⟩

/-- **When a room stays connected**: in every run of joins and disconnects of distinct users, it is
connected in all states in which nobody is inside exactly when all steps sustain it. -/
theorem run_connected_iff {tr : List Event} (hd : sv.Distinct) :
    Lts.Run (Lts.Into (ChurnStep room) fun sv => sv.phases = [] → Linked sv.docs) Server.start tr sv ↔
      ∃ v, Lts.Run (Lts.Only (Lts.Remember (ChurnStep room) visit) Sustains) (Server.start, .none) tr
        (sv, v) := by
  rw [Lts.run_into_iff_remember visit .none]
  refine exists_congr fun v => ?_
  exact Lts.run_into_iff (I := fun s => s.1.Keeping s.2) (C := fun s => s.1.Distinct) hd
    (fun _ _ _ he => he.1.1.distinct) start_keeping
    (fun _ _ _ _ hs he => he.1.1.linked_iff he.1.2 hs)
    fun _ _ _ hd hs he hg => he.2 ▸ he.1.1.keeping he.1.2 hd hg hs

/-! ### A departure that the repair makes good -/

instance (docs : List Doc) (a b : UserId) : Decidable (Lists docs a b) :=
  inferInstanceAs (Decidable (∃ d ∈ docs, d.sockId = a ∧ b ∈ d.connects))

/-- The users that `n` links or less lead to from the first document. -/
def reached (docs : List Doc) : ℕ → List UserId
  | 0 => (members docs).take 1
  | n + 1 =>
    let l := reached docs n
    (members docs).filter fun u => u ∈ l ∨ ∃ w ∈ l, Lists docs u w ∨ Lists docs w u

theorem linked_of_reached {n : ℕ} (h : ∀ u ∈ members docs, u ∈ reached docs n) : Linked docs := by
  suffices H : ∀ n, ∀ a ∈ reached docs n, ∀ b ∈ reached docs n, (ha : a ∈ users docs) →
      (hb : b ∈ users docs) → ((linkGraph docs).induce (users docs)).Reachable ⟨a, ha⟩ ⟨b, hb⟩ from
    fun a b => H n a (h a a.2) b (h b b.2) a.2 b.2
  intro n
  induction n with
  | zero =>
    intro a ha b hb _ _
    have hone : (reached docs 0).length ≤ 1 := List.length_take_le 1 _
    match hl : reached docs 0, hone with
    | [], _ => rw [hl] at ha; cases ha
    | [x], _ =>
      rw [hl] at ha hb
      obtain rfl := List.mem_singleton.mp ha
      obtain rfl := List.mem_singleton.mp hb
      rfl
  | succ n ih =>
    -- everybody is there already, or next to somebody that is
    have hnear : ∀ a ∈ reached docs (n + 1), (ha : a ∈ users docs) → ∃ x ∈ reached docs n,
        ∃ hx : x ∈ users docs,
          ((linkGraph docs).induce (users docs)).Reachable ⟨a, ha⟩ ⟨x, hx⟩ := by
      intro a ha hau
      obtain ⟨-, ha⟩ := List.mem_filter.mp ha
      rcases of_decide_eq_true ha with ha | ⟨w, hw, hl⟩
      · exact ⟨a, ha, hau, .rfl⟩
      · have hwu : w ∈ users docs := by
          cases n with
          | zero => exact List.mem_of_mem_take hw
          | succ n => exact (List.mem_filter.mp hw).1
        refine ⟨w, hw, hwu, ?_⟩
        by_cases hne : a = w
        · subst hne
          rfl
        · have hadj : ((linkGraph docs).induce (users docs)).Adj ⟨a, hau⟩ ⟨w, hwu⟩ :=
            linkGraph_adj.mpr ⟨hne, hl⟩
          exact hadj.reachable
    intro a ha b hb hau hbu
    obtain ⟨x, hx, hxu, hax⟩ := hnear a ha hau
    obtain ⟨y, hy, hyu, hby⟩ := hnear b hb hbu
    exact (hax.trans (ih x hx y hy hxu hyu)).trans hby.symm

/-- Whenever nobody is inside, all are reached. -/
def Whole (sv : Server) : Prop :=
  sv.phases = [] → ∀ u ∈ members sv.docs, u ∈ reached sv.docs sv.docs.length

instance (sv : Server) : Decidable (Whole sv) :=
  inferInstanceAs (Decidable (sv.phases = [] → ∀ u ∈ members sv.docs, u ∈ _))

/-- `h` finds one slot, with `c`; when `c` goes, the repair links `h` with the others. -/
def madeGood : List Command :=
  founding "S0" "a" ++ joining "S1" "b" 0 0 ++ joining "S2" "c" 0 0 ++ joining "S3" "d" 2 1 ++
    joining "S4" "e" 3 2 ++ joining "S5" "f" 3 2 ++ joining "S6" "g" 2 2 ++
    [.disconnect "S0"] ++ steps [0, 0, 0, 0, 0, 0, 0, 0, 1, 0, 0, 0, 1, 0, 0, 0] ++
    [.disconnect "S1"] ++ steps (List.replicate 18 0) ++ steps [1, 0, 0, 0] ++
    joining "S7" "h" 0 0 ++
    [.disconnect "S2"] ++ steps (List.replicate 34 0)

theorem run_connected_iff_madeGood : ∃ tr sv v, sv.Distinct ∧ .disconnect "S2" ∈ tr ∧
    ("h", "d") ∈ tr.flatMap Event.bridges ∧ sv.tasks = [] ∧
    members sv.docs = ["d", "e", "f", "g", "h"] ∧
    Lts.Run (Lts.Only (Lts.Remember (ChurnStep "r") visit) Sustains) (Server.start, .none) tr
      (sv, v) := by
  obtain ⟨tr, sv, hr, hd, he, hb, ht, hm, hw⟩ := Server.exists_run "r" madeGood
    (fun sv e => e.Churn ∧ Whole sv)
    (fun tr sv => (∀ x ∈ announced tr, ∀ y ∈ announced tr, x.2 = y.2 → x.1 = y.1) ∧
      .disconnect "S2" ∈ tr ∧ ("h", "d") ∈ tr.flatMap Event.bridges ∧ sv.tasks = [] ∧
      members sv.docs = ["d", "e", "f", "g", "h"] ∧ Whole sv) (by decide +kernel)
  have hd := distinct_of_announced hr.of_only hd
  have hr : Lts.Run (Lts.Only (ChurnStep "r") fun sv _ => Whole sv) Server.start tr sv :=
    hr.mono fun _ _ _ he => ⟨⟨he.1, he.2.1⟩, he.2.2⟩
  have hinto : Lts.Run (Lts.Into (ChurnStep "r") fun sv => sv.phases = [] → Linked sv.docs)
      Server.start tr sv :=
    (hr.into_of_before (fun _ _ h => h) hw).mono
      fun _ _ _ he => ⟨he.1, fun hp => linked_of_reached (he.2 hp)⟩
  obtain ⟨v, hrec⟩ := (run_connected_iff hd).mp hinto
  exact ⟨tr, sv, v, hd, he, hb, ht, hm, hrec⟩

/-! ### Rooms that fall apart -/

/-- Seven users join and three go, one more of them having come in between; the five that are left
have linked up with each other, so the last to join finds no free slot. -/
def fallingApart : List Command :=
  founding "S0" "a" ++ joining "S1" "b" 0 0 ++ joining "S2" "c" 0 0 ++ joining "S3" "d" 0 0 ++
    joining "S4" "e" 0 0 ++ joining "S5" "f" 0 0 ++ joining "S6" "g" 0 0 ++
    [.disconnect "S5"] ++ steps [0, 0, 0, 0, 0, 0, 0, 0, 0, 0, 0, 0, 1, 0, 0, 0] ++
    joining "S7" "h" 1 1 ++
    [.disconnect "S7"] ++ steps (List.replicate 16 0) ++
    [.disconnect "S6"] ++ steps (List.replicate 22 0) ++
    [.announce "S8" "i", .join "S8"] ++ steps (List.replicate 7 0)

/-- `i` finds one slot, with `h`; when `h` goes, the five others have no slot left for it. -/
def cutOff : List Command :=
  founding "S0" "a" ++ joining "S1" "b" 0 0 ++ joining "S2" "c" 0 0 ++ joining "S3" "d" 0 0 ++
    joining "S4" "e" 3 2 ++ joining "S5" "f" 4 0 ++ joining "S6" "g" 3 0 ++
    [.disconnect "S6"] ++ steps (List.replicate 16 0) ++
    [.disconnect "S5"] ++ steps (List.replicate 16 0) ++
    joining "S7" "h" 1 0 ++ joining "S8" "i" 0 0 ++
    [.disconnect "S7"] ++ steps (List.replicate 20 0)

/-- A joiner that has found no neighbour is the only one in the room. -/
def Welcomed (sv : Server) : Event → Prop
  | .resume (.inserted client _) => client.connects = [] → sv.docs.length ≤ 1
  | _ => True

instance (sv : Server) : DecidablePred (Welcomed sv) := fun e => by
  unfold Welcomed
  split <;> infer_instance

/-- A room does not stay connected, and not even when every joiner finds a neighbour. -/
theorem not_connected :
    (¬ ∀ tr sv, Lts.Run (ChurnStep "r") Server.start tr sv → sv.Distinct → sv.tasks = [] →
      Linked sv.docs) ∧
    ¬ ∀ tr sv, Lts.Run (Lts.Only (ChurnStep "r") Welcomed) Server.start tr sv → sv.Distinct →
      sv.tasks = [] → Linked sv.docs := by
  constructor
  · intro h
    obtain ⟨tr, sv, hr, hd, ht, ha, hb, hl⟩ := Server.exists_run "r" fallingApart
      (fun _ e => e.Churn)
      (fun tr sv => (∀ x ∈ announced tr, ∀ y ∈ announced tr, x.2 = y.2 → x.1 = y.1) ∧
        sv.tasks = [] ∧ "i" ∈ members sv.docs ∧ "a" ∈ members sv.docs ∧
        ∀ d ∈ sv.docs, "i" ∉ d.connects ∧ (d.sockId = "i" → d.connects = []))
      (by decide +kernel)
    have hlinked := h tr sv hr (distinct_of_announced hr.of_only hd) ht
    exact absurd ((isolated_of_unlisted ha hl).eq_of_linked hlinked hb) (by decide)
  · intro h
    obtain ⟨tr, sv, hr, hd, ht, ha, hb, hl⟩ := Server.exists_run "r" cutOff
      (fun sv e => e.Churn ∧ Welcomed sv e)
      (fun tr sv => (∀ x ∈ announced tr, ∀ y ∈ announced tr, x.2 = y.2 → x.1 = y.1) ∧
        sv.tasks = [] ∧ "i" ∈ members sv.docs ∧ "a" ∈ members sv.docs ∧
        ∀ d ∈ sv.docs, "i" ∉ d.connects ∧ (d.sockId = "i" → d.connects = []))
      (by decide +kernel)
    have hr' : Lts.Run (Lts.Only (ChurnStep "r") Welcomed) Server.start tr sv :=
      hr.mono fun _ _ _ he => ⟨⟨he.1, he.2.1⟩, he.2.2⟩
    have hlinked := h tr sv hr' (distinct_of_announced hr.of_only hd) ht
    exact absurd ((isolated_of_unlisted ha hl).eq_of_linked hlinked hb) (by decide)

end Yamb.Symple
