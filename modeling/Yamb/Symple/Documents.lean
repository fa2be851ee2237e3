import Yamb.Symple.Lock

/-!
# What the critical sections know about the documents

* `members`, `Lists`: the users that have a document, and whom they list;
* `Sound`: one document for each user, at the address of one of its sockets, counted right;
* `Held`: what a task inside its critical section can rely on, at each of its positions;
* `run_held`: `Sound` at all times, and `Held` of the task inside, in every run in which the database
  does not fail.
-/

set_option autoImplicit false

namespace Yamb.Symple

open Collection

/-- The users with a document. -/
def members (docs : List Doc) : List UserId := docs.map Doc.sockId

/-- The document of `a` lists `b`. -/
def Lists (docs : List Doc) (a b : UserId) : Prop := ∃ d ∈ docs, d.sockId = a ∧ b ∈ d.connects

variable {user user' : SocketId → Option UserId} {docs docs' : List Doc} {p : Doc → Prop}
  {found : Option Doc} {ids : List UserId} {a b u : UserId} {s : SocketId}

theorem mem_members : u ∈ members docs ↔ ∃ d ∈ docs, d.sockId = u := List.mem_map

theorem Lists.mem_members (h : Lists docs a b) : a ∈ members docs := by
  obtain ⟨d, hd, rfl, -⟩ := h
  exact List.mem_map_of_mem hd

/-! ### The operations -/

/-- The effect of `$push`, whichever document it finds. -/
theorem lists_of_push (h : UpdateOne p (Doc.push ids) docs found docs') :
    Lists docs' a b ↔ Lists docs a b ∨ ∃ d, found = some d ∧ d.sockId = a ∧ b ∈ ids := by
  constructor
  · rintro ⟨x, hx, rfl, hb⟩
    rcases h.mem hx with hx | ⟨d, hd, hf, -, rfl⟩
    · exact .inl ⟨x, hx, rfl, hb⟩
    · rw [Doc.push_connects, List.mem_append] at hb
      exact hb.imp (fun hb => ⟨d, hd, rfl, hb⟩) fun hb => ⟨d, hf, rfl, hb⟩
  · rintro (⟨x, hx, rfl, hb⟩ | ⟨d, rfl, rfl, hb⟩)
    · rcases h.mem_of_mem hx with hx | ⟨-, hx⟩
      · exact ⟨x, hx, rfl, hb⟩
      · exact ⟨_, hx, rfl, List.mem_append_left _ hb⟩
    · exact ⟨_, h.value_update_mem, rfl, List.mem_append_right _ hb⟩

theorem Lists.push (hl : Lists docs a b) (h : UpdateOne p (Doc.push ids) docs found docs') :
    Lists docs' a b := (lists_of_push h).mpr (.inl hl)

theorem members_of_push (h : UpdateOne p (Doc.push ids) docs found docs') :
    members docs' = members docs := h.map_eq fun _ => rfl

theorem members_of_pull (h : UpdateOne p (Doc.pull ids) docs found docs') :
    members docs' = members docs := h.map_eq fun _ => rfl

theorem members_insert (docs : List Doc) (client : Client) (id : ℕ) :
    members (docs ++ [client.doc id]) = members docs ++ [client.sockId] := by
  simp [members, Client.doc]

theorem lists_insert {client : Client} {id : ℕ} : Lists (docs ++ [client.doc id]) a b ↔
    Lists docs a b ∨ client.sockId = a ∧ b ∈ client.connects := by
  simp [Lists, or_and_right, exists_or, Client.doc]

/-- Every document is counted right, belongs to the user of the socket at its address, and no two
share a user or an `_id`. -/
structure Sound (user : SocketId → Option UserId) (docs : List Doc) : Prop where
  owner : ∀ d ∈ docs, user d.addr = some d.sockId
  nodup : (members docs).Nodup
  ids : (docs.map Doc.id).Nodup
  count : ∀ d ∈ docs, d.nconnects = d.connects.length

theorem Sound.nil : Sound user [] := ⟨by simp, List.nodup_nil, List.nodup_nil, by simp⟩

theorem Sound.mono (h : Sound user docs) (hu : ∀ s u, user s = some u → user' s = some u) :
    Sound user' docs := { h with owner := fun d hd => hu _ _ (h.owner d hd) }

theorem Sound.push (h : Sound user docs) (hp : UpdateOne p (Doc.push ids) docs found docs') :
    Sound user docs' where
  owner := hp.forall h.owner fun _ _ _ ho => ho
  nodup := members_of_push hp ▸ h.nodup
  ids := (hp.map_eq (g := Doc.id) fun _ => rfl) ▸ h.ids
  count := hp.forall h.count fun d _ _ hc => by simp [hc]

/-- With an `_id` that tells the documents apart, the update of an aggregated document changes that
very document. -/
theorem Sound.pull (h : Sound user docs) {t : Aggr} (ht : t.toDoc ∈ docs)
    (hnew : t.newnconnects = t.connects.filter fun c => c ≠ u)
    (hp : UpdateOne (fun d => d.id = t.id) (Doc.pull t.newnconnects) docs found docs') :
    Sound user docs' where
  owner := hp.forall h.owner fun _ _ _ ho => ho
  nodup := members_of_pull hp ▸ h.nodup
  ids := (hp.map_eq (g := Doc.id) fun _ => rfl) ▸ h.ids
  count := by
    refine hp.forall h.count fun d hd hid _ => ?_
    obtain rfl : d = t.toDoc := List.inj_on_of_nodup_map h.ids hd ht hid
    rw [Doc.pull_nconnects, Doc.pull, hnew]
    congr 1
    exact List.filter_congr fun v hv => by simp [hv]

theorem Sound.sublist (h : Sound user docs) (hs : docs'.Sublist docs) : Sound user docs' where
  owner d hd := h.owner d (hs.subset hd)
  nodup := h.nodup.sublist (hs.map _)
  ids := h.ids.sublist (hs.map _)
  count d hd := h.count d (hs.subset hd)

/-- Deleting the document at the address of a socket leaves its user without one. -/
theorem Sound.not_mem_of_delete (h : Sound user docs)
    (hd : DeleteOne (fun d => d.addr = s) docs 1 docs') :
    ∃ d, d ∈ docs ∧ d.addr = s ∧ user s = some d.sockId ∧ d.sockId ∉ members docs' ∧
      ∀ x, x ∈ docs' ↔ x ∈ docs ∧ x.sockId ≠ d.sockId := by
  obtain ⟨l₁, d, l₂, rfl, rfl, rfl⟩ := hd.of_one
  have hmem {x : Doc} := mem_iff_of_nodup_middle (x := x) (g := Doc.sockId) h.nodup
  refine ⟨d, by simp, rfl, h.owner d (by simp), ?_, fun x => hmem⟩
  rintro hm
  obtain ⟨x, hx, he⟩ := mem_members.mp hm
  exact (hmem.mp hx).2 he

/-! ### The positions of `broadcastInRoom` -/

/-- What the client has collected are distinct users that list it now. -/
structure Collected (user : SocketId → Option UserId) (docs : List Doc) (client : Client) :
    Prop where
  owner : user client.addr = some client.sockId
  count : client.nconnects = client.connects.length
  nodup : client.connects.Nodup
  le : client.connects.length ≤ 2
  picked : ∀ v ∈ client.connects, v ≠ client.sockId ∧ Lists docs v client.sockId

variable {client : Client}

theorem Collected.mono (h : Collected user docs client)
    (hu : ∀ s u, user s = some u → user' s = some u) : Collected user' docs client :=
  { h with owner := hu _ _ h.owner }

theorem Collected.push (h : Collected user docs client)
    (hp : UpdateOne p (Doc.push ids) docs found docs') : Collected user docs' client :=
  { h with picked := fun v hv => ⟨(h.picked v hv).1, (h.picked v hv).2.push hp⟩ }

/-- A pick finds a document that does not list the client yet, so it is a new one. -/
theorem Collected.pick (h : Collected user docs client) {cl : Doc} (hs : Sound user docs)
    (hlt : client.connects.length < 2)
    (hp : UpdateOne (Doc.Eligible client.sockId) (Doc.push [client.sockId]) docs (some cl) docs') :
    Collected user docs' (client.add cl) where
  owner := h.owner
  count := by simp [Client.add, h.count]
  le := by
    rw [Client.add, List.length_append, List.length_singleton]
    exact hlt
  nodup := by
    refine List.nodup_append.mpr ⟨h.nodup, List.nodup_singleton _, ?_⟩
    rintro v hv w hw rfl
    obtain rfl := List.mem_singleton.mp hw
    obtain ⟨d, hd, hk, hl⟩ := (h.picked cl.sockId hv).2
    obtain rfl := List.inj_on_of_nodup_map hs.nodup hd hp.value_mem hk
    exact hp.value_matches.2.1 hl
  picked v hv := by
    rcases List.mem_append.mp hv with hv | hv
    · exact (h.push hp).picked v hv
    · obtain rfl := List.mem_singleton.mp hv
      exact ⟨hp.value_matches.2.2, (lists_of_push hp).mpr (.inr ⟨cl, rfl, rfl, by simp [Client.add]⟩)⟩

theorem Sound.insert (h : Sound user docs) (hc : Collected user docs client)
    (hm : client.sockId ∉ members docs) {id : ℕ} (hid : ∀ d ∈ docs, d.id ≠ id) :
    Sound user (docs ++ [client.doc id]) where
  owner d hd := by
    rcases List.mem_append.mp hd with hd | hd
    · exact h.owner d hd
    · obtain rfl := List.mem_singleton.mp hd
      exact hc.owner
  nodup := by
    rw [members_insert]
    exact List.nodup_append.mpr ⟨h.nodup, List.nodup_singleton _, fun v hv w hw he =>
      hm (List.mem_singleton.mp hw ▸ he ▸ hv)⟩
  ids := by
    rw [List.map_append]
    refine List.nodup_append.mpr ⟨h.ids, List.nodup_singleton _, fun i hi j hj he => ?_⟩
    obtain ⟨d, hd, rfl⟩ := List.mem_map.mp hi
    exact hid d hd (he.trans (List.mem_singleton.mp hj))
  count d hd := by
    rcases List.mem_append.mp hd with hd | hd
    · exact h.count d hd
    · obtain rfl := List.mem_singleton.mp hd
      exact hc.count

/-! ### The positions of `free` -/

/-- The user of the socket has no document any more. -/
structure Gone (user : SocketId → Option UserId) (docs : List Doc) (s : SocketId) (u : UserId) :
    Prop where
  owner : user s = some u
  absent : u ∉ members docs

/-- The document that was aggregated is still there, perhaps changed. -/
def Kept (user : SocketId → Option UserId) (docs : List Doc) (t : Aggr) : Prop :=
  t.sockId ∈ members docs ∧ user t.addr = some t.sockId

/-- In the first loop: those in `rest` are as they were aggregated, the others list `u` no more. -/
structure Unlinking (user : SocketId → Option UserId) (docs : List Doc) (s : SocketId) (u : UserId)
    (tmpaggrs rest : List Aggr) : Prop extends Gone user docs s u where
  kept : ∀ t ∈ tmpaggrs, Kept user docs t
  same : ∀ t ∈ rest, t.toDoc ∈ docs ∧ t.newnconnects = t.connects.filter fun c => c ≠ u
  ids : (rest.map fun t => t.id).Nodup
  left : ∀ d ∈ docs, u ∈ d.connects → ∃ t ∈ rest, t.id = d.id

/-- In the second loop nobody lists `u`. -/
structure Cleared (user : SocketId → Option UserId) (docs : List Doc) (s : SocketId) (u : UserId)
    (rest : List Aggr) : Prop extends Gone user docs s u where
  kept : ∀ t ∈ rest, Kept user docs t
  unlisted : ∀ a, ¬ Lists docs a u

variable {tmpaggrs rest rest' : List Aggr} {t : Aggr}

theorem Gone.mono (h : Gone user docs s u) (hu : ∀ s u, user s = some u → user' s = some u) :
    Gone user' docs s u := { h with owner := hu _ _ h.owner }

theorem Kept.mono (h : Kept user docs t) (hu : ∀ s u, user s = some u → user' s = some u) :
    Kept user' docs t := ⟨h.1, hu _ _ h.2⟩

theorem Kept.of_members (h : Kept user docs t) (hm : members docs' = members docs) :
    Kept user docs' t := ⟨hm ▸ h.1, h.2⟩

theorem Unlinking.mono (h : Unlinking user docs s u tmpaggrs rest)
    (hu : ∀ s u, user s = some u → user' s = some u) : Unlinking user' docs s u tmpaggrs rest :=
  { h with
    toGone := h.toGone.mono hu
    kept := fun t ht => (h.kept t ht).mono hu }

theorem Cleared.mono (h : Cleared user docs s u rest)
    (hu : ∀ s u, user s = some u → user' s = some u) : Cleared user' docs s u rest :=
  { h with
    toGone := h.toGone.mono hu
    kept := fun t ht => (h.kept t ht).mono hu }

theorem Cleared.subset (h : Cleared user docs s u rest) (hs : rest' ⊆ rest) :
    Cleared user docs s u rest' := { h with kept := fun t ht => h.kept t (hs ht) }

theorem Gone.aggregate (h : Gone user docs s u) (hs : Sound user docs) :
    Unlinking user docs s u (aggregate docs u) (aggregate docs u) where
  toGone := h
  kept t ht := by
    obtain ⟨d, hd, rfl⟩ := List.mem_map.mp ht
    have hd := (List.mem_filter.mp hd).1
    exact ⟨List.mem_map_of_mem hd, hs.owner d hd⟩
  same t ht := by
    obtain ⟨d, hd, rfl⟩ := List.mem_map.mp ht
    exact ⟨(List.mem_filter.mp hd).1, rfl⟩
  ids := by
    rw [Symple.aggregate, List.map_map]
    exact hs.ids.sublist (List.filter_sublist.map _)
  left d hd hu := ⟨⟨d, _⟩, List.mem_map_of_mem (List.mem_filter.mpr ⟨hd, by simpa using hu⟩), rfl⟩

theorem Unlinking.update (h : Unlinking user docs s u tmpaggrs (t :: rest)) (hs : Sound user docs)
    (hp : UpdateOne (fun d => d.id = t.id) (Doc.pull t.newnconnects) docs found docs') :
    Unlinking user docs' s u tmpaggrs rest := by
  obtain ⟨ht, hnew⟩ := h.same t List.mem_cons_self
  obtain ⟨d, rfl⟩ := hp.exists_of_mem ht rfl
  obtain rfl : d = t.toDoc := List.inj_on_of_nodup_map hs.ids hp.value_mem ht hp.value_matches
  have hids := List.nodup_cons.mp h.ids
  have hmem {x : Doc} := hp.mem_iff_of_nodup (x := x) hs.ids
  have hm := members_of_pull hp
  refine ⟨⟨h.owner, hm ▸ h.absent⟩, fun t ht => (h.kept t ht).of_members hm, fun t' ht' => ?_,
    hids.2, fun d hd hu => ?_⟩
  · obtain ⟨hd, hn⟩ := h.same t' (List.mem_cons_of_mem _ ht')
    refine ⟨hmem.mpr (.inr ⟨hd, fun he => hids.1 ?_⟩), hn⟩
    exact List.mem_map.mpr ⟨t', ht', he⟩
  · rcases hmem.mp hd with rfl | ⟨hd, hne⟩
    · have := (Doc.mem_pull_connects.mp hu).2
      simp [hnew] at this
    · obtain ⟨t', ht', hid⟩ := h.left d hd hu
      rcases List.mem_cons.mp ht' with rfl | ht'
      · exact absurd hid.symm hne
      · exact ⟨t', ht', hid⟩

/-- The update takes links to `u` away, and no others. -/
theorem Unlinking.lists_iff (h : Unlinking user docs s u tmpaggrs (t :: rest)) (hs : Sound user docs)
    (hp : UpdateOne (fun d => d.id = t.id) (Doc.pull t.newnconnects) docs found docs')
    (hb : b ≠ u) : Lists docs' a b ↔ Lists docs a b := by
  obtain ⟨ht, hnew⟩ := h.same t List.mem_cons_self
  obtain ⟨d, rfl⟩ := hp.exists_of_mem ht rfl
  obtain rfl : d = t.toDoc := List.inj_on_of_nodup_map hs.ids hp.value_mem ht hp.value_matches
  have hmem {x : Doc} := hp.mem_iff_of_nodup (x := x) hs.ids
  constructor
  · rintro ⟨x, hx, rfl, hl⟩
    rcases hmem.mp hx with rfl | ⟨hx, -⟩
    · exact ⟨t.toDoc, ht, rfl, (Doc.mem_pull_connects.mp hl).1⟩
    · exact ⟨x, hx, rfl, hl⟩
  · rintro ⟨x, hx, rfl, hl⟩
    by_cases hid : x.id = t.id
    · obtain rfl := List.inj_on_of_nodup_map hs.ids hx ht hid
      refine ⟨_, hmem.mpr (.inl rfl), rfl, Doc.mem_pull_connects.mpr ⟨hl, ?_⟩⟩
      rw [hnew]
      simpa using ⟨hl, hb⟩
    · exact ⟨x, hmem.mpr (.inr ⟨hx, hid⟩), rfl, hl⟩

theorem Unlinking.cleared (h : Unlinking user docs s u tmpaggrs []) :
    Cleared user docs s u tmpaggrs where
  toGone := h.toGone
  kept := h.kept
  unlisted := by
    rintro a ⟨d, hd, -, hu⟩
    obtain ⟨t, ht, -⟩ := h.left d hd hu
    cases ht

/-- A push of users that have a document keeps `u` away. -/
theorem Cleared.push (h : Cleared user docs s u rest)
    (hp : UpdateOne p (Doc.push ids) docs found docs') (hids : ∀ v ∈ ids, v ∈ members docs) :
    Cleared user docs' s u rest where
  owner := h.owner
  absent := members_of_push hp ▸ h.absent
  kept t ht := (h.kept t ht).of_members (members_of_push hp)
  unlisted a hl := by
    rcases (lists_of_push hp).mp hl with hl | ⟨-, -, -, hu⟩
    · exact h.unlisted a hl
    · exact h.absent (hids u hu)

/-! ### What is held -/

/-- What the task at each position can rely on. -/
def Held (user : SocketId → Option UserId) (docs : List Doc) : Phase → Prop
  | .call (.picking client iterations _) | .ret (.picked client iterations _ none) =>
    Collected user docs client ∧ client.connects.length + iterations = 2 ∧ 0 < iterations
  | .ret (.picked client iterations _ (some cl)) =>
    Collected user docs (client.add cl) ∧ client.connects.length + iterations = 2 ∧ 0 < iterations
  | .call (.owning client _) => Collected user docs client
  | .ret (.owned client _ none) | .call (.inserting client _) =>
    Collected user docs client ∧ client.sockId ∉ members docs
  | .ret (.owned _ _ (some _)) | .ret (.inserted _ _) | .call (.deleting _) => True
  | .ret (.deleted s n) => n = 1 → ∃ u, Gone user docs s u
  | .call (.aggregating s u) => Gone user docs s u
  | .ret (.aggregated s tmpaggrs) => ∃ u, Unlinking user docs s u tmpaggrs tmpaggrs
  | .call (.updating s tmpaggrs t rest) => ∃ u, Unlinking user docs s u tmpaggrs (t :: rest)
  | .ret (.updated s tmpaggrs rest) => ∃ u, Unlinking user docs s u tmpaggrs rest
  | .call (.repicking s t rest) => ∃ u, Cleared user docs s u (t :: rest)
  | .ret (.repicked s t rest cl) =>
    ∃ u, Cleared user docs s u (t :: rest) ∧ ∀ d, cl = some d → d.sockId ∈ members docs
  | .call (.linking s t cl rest) =>
    ∃ u, Cleared user docs s u (t :: rest) ∧ cl.sockId ∈ members docs
  | .ret (.linked s t _ rest) => ∃ u, Cleared user docs s u (t :: rest)

theorem Held.mono {p : Phase} (h : Held user docs p)
    (hu : ∀ s u, user s = some u → user' s = some u) : Held user' docs p := by
  match p, h with
  | .call (.picking ..), h | .ret (.picked _ _ _ none), h | .ret (.picked _ _ _ (some _)), h =>
    exact ⟨h.1.mono hu, h.2⟩
  | .call (.owning ..), h => exact Collected.mono h hu
  | .ret (.owned _ _ none), h | .call (.inserting ..), h => exact ⟨h.1.mono hu, h.2⟩
  | .ret (.owned _ _ (some _)), _ | .ret (.inserted ..), _ | .call (.deleting _), _ => trivial
  | .ret (.deleted s n), h => exact fun hn => (h hn).imp fun u hg => hg.mono hu
  | .call (.aggregating ..), h => exact Gone.mono h hu
  | .ret (.aggregated ..), h | .call (.updating ..), h | .ret (.updated ..), h =>
    exact h.imp fun u hg => hg.mono hu
  | .call (.repicking ..), h | .ret (.linked ..), h => exact h.imp fun u hg => hg.mono hu
  | .ret (.repicked ..), h | .call (.linking ..), h =>
    exact h.imp fun u hg => ⟨hg.1.mono hu, hg.2⟩

/-- One operation: what the call can rely on becomes what the return can rely on. -/
theorem DbStep.held {c : Call} {r : Return} (h : DbStep docs c docs' r) (hs : Sound user docs)
    (hc : Held user docs (.call c)) : Sound user docs' ∧ Held user docs' (.ret r) := by
  cases h with
  | @pick _ cl client iterations sendTo h =>
    refine ⟨hs.push h, ?_⟩
    cases cl with
    | none => exact ⟨hc.1.push h, hc.2⟩
    | some cl => exact ⟨hc.1.pick hs (by have := hc.2; omega) h, hc.2⟩
  | @own _ upd client sendTo h =>
    refine ⟨hs.push h, ?_⟩
    cases upd with
    | none =>
      obtain ⟨rfl, hn⟩ := h.of_none
      refine ⟨hc, fun hm => ?_⟩
      obtain ⟨d, hd, he⟩ := mem_members.mp hm
      exact hn d hd he
    | some => trivial
  | insert client sendTo id h => exact ⟨hs.insert hc.1 hc.2 h, trivial⟩
  | @delete docs' n s h =>
    refine ⟨hs.sublist h.sublist, ?_⟩
    rintro rfl
    obtain ⟨d, -, -, hu, hm, -⟩ := hs.not_mem_of_delete h
    exact ⟨d.sockId, hu, hm⟩
  | aggregate s u => exact ⟨hs, u, Gone.aggregate hc hs⟩
  | update s tmpaggrs t rest h =>
    obtain ⟨u, hc⟩ := hc
    have ht := hc.same t List.mem_cons_self
    exact ⟨hs.pull ht.1 ht.2 h, u, hc.update hs h⟩
  | @repick _ cl s t rest h =>
    obtain ⟨u, hc⟩ := hc
    refine ⟨hs.push h, u, hc.push h ?_, ?_⟩
    · rintro v hv
      obtain rfl := List.mem_singleton.mp hv
      exact (hc.kept t List.mem_cons_self).1
    · rintro d rfl
      exact members_of_push h ▸ List.mem_map_of_mem h.value_mem
  | link s t cl rest h =>
    obtain ⟨u, hc, hcl⟩ := hc
    refine ⟨hs.push h, u, hc.push h ?_⟩
    rintro v hv
    obtain rfl := List.mem_singleton.mp hv
    exact hcl

/-- The second loop goes on with one of the documents that are left. -/
theorem repair_eq_call {connected : SocketId → Bool} {c : Call} :
    ∀ {l : List Aggr}, repair connected s l = .call c →
      ∃ l₁ t rest, l = l₁ ++ t :: rest ∧ c = .repicking s t rest ∧ connected t.addr = true
  | [], h => by cases h
  | t :: l, h => by
    unfold repair at h
    split_ifs at h with ht
    · cases h
      exact ⟨[], t, l, rfl, rfl, ht⟩
    · obtain ⟨l₁, t', rest, rfl, hc, ht'⟩ := repair_eq_call h
      exact ⟨t :: l₁, t', rest, rfl, hc, ht'⟩

theorem Cleared.repair {connected : SocketId → Bool} {c : Call} (h : Cleared user docs s u rest)
    (hn : repair connected s rest = .call c) : Held user docs (.call c) := by
  obtain ⟨l₁, t, rest', rfl, rfl, -⟩ := repair_eq_call hn
  exact ⟨u, h.subset (List.subset_append_right _ _)⟩

theorem Unlinking.unlink {connected : SocketId → Bool} {c : Call}
    (h : Unlinking user docs s u tmpaggrs rest) (hn : unlink connected s tmpaggrs rest = .call c) :
    Held user docs (.call c) := by
  cases rest with
  | nil => exact h.cleared.repair hn
  | cons t rest =>
    cases hn
    exact ⟨u, h⟩

/-- The code between two operations carries what is held on. -/
theorem held_next {connected : SocketId → Bool} {userOf : SocketId → UserId} {r : Return} {c : Call}
    (h : Held user docs (.ret r)) (hu : ∀ s u, user s = some u → userOf s = u)
    (hn : r.next connected userOf = .call c) : Held user docs (.call c) := by
  match r, h with
  | .picked client iterations sendTo none, h =>
    cases hn
    exact h.1
  | .picked client iterations sendTo (some cl), h =>
    simp only [Return.next] at hn
    split_ifs at hn with hi
    · cases hn
      have := h.2
      refine ⟨h.1, ?_, by omega⟩
      simp only [Client.add, List.length_append, List.length_singleton]
      omega
    · cases hn
      exact h.1
  | .owned client sendTo none, h =>
    cases hn
    exact h
  | .owned client sendTo (some _), h => cases hn
  | .inserted client sendTo, h => cases hn
  | .deleted s n, h =>
    simp only [Return.next] at hn
    split_ifs at hn with h1
    cases hn
    obtain ⟨u, hg⟩ := h (not_not.mp h1)
    exact hu _ _ hg.owner ▸ hg
  | .aggregated s tmpaggrs, ⟨u, h⟩ => exact h.unlink hn
  | .updated s tmpaggrs rest, ⟨u, h⟩ => exact h.unlink hn
  | .repicked s t rest none, ⟨u, h, _⟩ => exact (h.subset (List.subset_cons_self _ _)).repair hn
  | .repicked s t rest (some cl), ⟨u, h, hcl⟩ =>
    cases hn
    exact ⟨u, h, hcl cl rfl⟩
  | .linked s t cl rest, ⟨u, h⟩ => exact (h.subset (List.subset_cons_self _ _)).repair hn

/-! ### Runs -/

/-- No operation of the database fails. -/
def Event.Succeeds : Event → Prop
  | .reject _ => False
  | _ => True

instance : DecidablePred Event.Succeeds
  | .reject _ => .isFalse id
  | .announce .. | .join _ | .addIdx _ | .joined .. | .leave _ | .disconnect _ | .retry _ | .wait _
  | .db _ | .resume _ => .isTrue trivial

abbrev MongoStep (room : RoomId) : Server → Event → Server → Prop :=
  Lts.Only (Step room) fun _ e => e.Succeeds

variable {room : RoomId} {sv sv' : Server} {e : Event}

/-- The documents change in the steps of the database only. -/
theorem Step.docs_cases (h : Step room sv e sv') : (∀ r, e ≠ .db r) ∧ sv'.docs = sv.docs ∨
    ∃ c r, e = .db r ∧ .call c ∈ sv.phases ∧ DbStep sv.docs c sv'.docs r := by
  by_cases he : ∃ r, e = .db r
  · obtain ⟨r, rfl⟩ := he
    cases h with
    | db l₁ c l₂ docs' r hl hdb =>
      exact .inr ⟨c, r, rfl, Server.mem_phases.mpr (hl ▸ by simp), hdb⟩
  · refine .inl ⟨not_exists.mp he, ?_⟩
    have hl := h.lock
    have hd : sv'.docs = sv'.lock.data := rfl
    rw [hd]
    generalize sv'.lock = k' at hl
    cases hl with
    | idle | enter | leave | giveUp => rfl
    | work _ hw =>
      cases hw with
      | db => exact absurd ⟨_, rfl⟩ he
      | next => rfl

/-- The documents are sound, and the task inside its critical section has what it relies on. -/
structure Server.Held (sv : Server) : Prop where
  users : ∀ s, sv.connected s = true → ∃ u, sv.user s = some u
  guarded : Lock.Guarded (Sound sv.user)
    (fun docs p => Sound sv.user docs ∧ Symple.Held sv.user docs p) sv.lock

theorem Server.userOf_of_user {s : SocketId} {u : UserId} (h : sv.user s = some u) :
    sv.userOf s = u := by
  rw [Server.userOf, h, Option.getD_some]

theorem Server.Enters.held {p : Phase} (h : sv.Enters room e p)
    (hu : ∀ s, sv.connected s = true → ∃ u, sv.user s = some u) : Symple.Held sv.user docs p := by
  have hpick {s : SocketId} (hs : sv.connected s = true) :
      Symple.Held sv.user docs (.call (.picking ⟨s, [], 0, sv.userOf s⟩ 2 [])) := by
    obtain ⟨u, hu⟩ := hu s hs
    refine ⟨⟨?_, rfl, List.nodup_nil, Nat.zero_le 2, by simp⟩, rfl, Nat.two_pos⟩
    rw [Server.userOf_of_user hu, hu]
  cases h with
  | joined _ hs => exact hpick hs
  | retry _ hs => exact hpick hs
  | wait => trivial
  | disconnect => trivial

theorem Event.Succeeds.not_givesUp (he : e.Succeeds) (p : Phase) : ¬ Server.GivesUp e p := by
  rintro ⟨c⟩
  exact he

theorem Step.held (h : Step room sv e sv') (he : e.Succeeds) (hs : sv.Held) : sv'.Held := by
  have hmono : ∀ s u, sv.user s = some u → sv'.user s = some u := fun _ _ => h.user_mono
  refine ⟨h.user_of_connected hs.users, h.lock.guarded hs.guarded he.not_givesUp
    (fun hr => hr.mono hmono) (fun _ p _ hp => ⟨hp.1.mono hmono, hp.2.mono hmono⟩)
    (fun p _ hp hr => ⟨hr.mono hmono, (hp.held hs.users).mono hmono⟩) ?_
    (fun p _ _ hp => hp.1.mono hmono)⟩
  rintro p docs' p' - hw ⟨hsound, hheld⟩
  cases hw with
  | db hdb =>
    obtain ⟨hsound, hheld⟩ := hdb.held hsound hheld
    exact ⟨hsound.mono hmono, hheld.mono hmono⟩
  | next hn =>
    have := held_next hheld (fun _ _ hu => Server.userOf_of_user hu) hn
    exact ⟨hsound.mono hmono, this.mono hmono⟩

theorem start_held : Server.start.Held := ⟨nofun, .rest .nil⟩

theorem run_held {tr : List Event} (h : Lts.Run (MongoStep room) Server.start tr sv) : sv.Held :=
  h.invariant start_held fun _ _ _ hs he => he.1.held he.2 hs

theorem Server.Held.sound (h : sv.Held) : Sound sv.user sv.docs :=
  h.guarded.data (fun hr => hr) fun _ _ hp => hp.1

theorem Server.Held.held_of_mem (h : sv.Held) {p : Phase} (hp : p ∈ sv.phases) :
    Symple.Held sv.user sv.docs p := (h.guarded.at_of_mem hp).2

end Yamb.Symple
