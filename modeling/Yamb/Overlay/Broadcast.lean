import Yamb.Overlay.Network

/-!
# Broadcasts

* `run_forgets_nothing`: a run without blind receipts of broadcasts, as a run of flooding;
* **`broadcast2Room_once_iff`**: every broadcast has been delivered exactly once, and never to its
  origin, if and only if no broadcast has reached a node whose window held it in slot `0` only;
* **`first_broadcast_comes_back`**: with new windows that happens to the first broadcast;
* `recognised_never_blind`, `exists_echo`: two nodes with used and with new windows.
-/

set_option autoImplicit false

namespace Yamb

open BlindWindow (Visible)

variable {O : Overlay} {order : List Packet → Packet → Prop} {N₀ N : Net} {H : PeerId → List Hash}
  {tr : List NetEvent}

/-- A broadcast on its way to a node. -/
def IsBroadcast (p : Packet) : Prop := p.msg.to' = none

theorem Overlay.reach (O : Overlay) {v w : PeerId} (hv : v ∈ O.ids) (hw : w ∈ O.ids) :
    Flood.Reach O.peers v w := O.connected v hv w hw

/-- Without blind receipts of broadcasts no copy of a given broadcast is forgotten. -/
theorem run_forgets_nothing (h₀ : O.Formed N₀ H) (hq₀ : O.Quiet N₀)
    (hr : Lts.Run (Lts.Only (O.Step order) fun N e => ¬ O.BlindReceipt IsBroadcast N e) N₀ tr N)
    (hfew : (hashes tr).length < 500) (hd : O.Distinct H tr) {v : PeerId} {m : Msg}
    (hcall : NetEvent.call v m ∈ tr) (hto : m.to' = none) :
    ∃ tr' s, Lts.Run (Lts.Only (Flood.Step O.peers (Visible 500) Flood.anyOrder) fun s e =>
        ∀ w, ¬ Flood.Forgotten w m.hash s e) (O.start H) tr' s ∧
      O.Sim N s ∧ List.Forall₂ O.Matches tr tr' := by
  have hB : ∀ p : Packet, p.toFlood.msg.dest = none → IsBroadcast p := fun _ hp => hp
  obtain ⟨tr', s, hrun, hsim, hm⟩ := run_flood_only (fun p => p.msg.dest = none) hB h₀ hq₀ hr hfew hd
  obtain ⟨-, huniq⟩ := Flood.originate_unique (originated_eq hm ▸ hd.nodup) (mem_originate hm hcall)
  refine ⟨tr', s, Lts.Run.mono (hrun.only_of_forall ?_) fun s e s' he => ⟨he.1.1, he.2⟩, hsim, hm⟩
  rintro t₁ e t₂ s₁ s₂ rfl hr₁ he w hforg
  cases e with
  | originate u m' => exact hforg
  | transmit u t => exact hforg
  | receive p fresh =>
    cases fresh with
    | false => exact hforg
    | true =>
      obtain ⟨rfl, hk, hmem⟩ := hforg
      obtain ⟨u, hu⟩ := (Flood.Run.msg_originated hr₁.of_only (start_quiet O H)).1.wire p
        he.1.mem_wire_of_receive
      have hmsg := (huniq u p.msg (List.mem_append_left _ hu) hk).2
      refine he.2 p rfl ?_ (hk ▸ hmem)
      rw [hmsg, Msg.toFlood_dest, hto]

/-- **Exactly once if and only if nothing is blind**: a quiet state after fewer than 500 calls. -/
theorem broadcast2Room_once_iff (h₀ : O.Formed N₀ H) (hq₀ : O.Quiet N₀)
    (hr : Lts.Run (O.Step order) N₀ tr N) (hq : O.Quiet N) (hfew : (hashes tr).length < 500)
    (hd : O.Distinct H tr) :
    (∀ v m, NetEvent.call v m ∈ tr → m.to' = none →
      ∀ w ∈ O.ids, O.called w m.hash tr = if w = v then 0 else 1) ↔
    Lts.Run (Lts.Only (O.Step order) fun N e => ¬ O.BlindReceipt IsBroadcast N e) N₀ tr N := by
  constructor
  · intro hdel
    refine hr.only_of_forall ?_
    rintro t₁ e t₂ N₁ N₂ rfl hr₁ he hblind
    cases e with
    | call u m => exact hblind
    | iterate u => exact hblind
    | receive p c =>
      obtain ⟨hto, hb⟩ := hblind
      obtain ⟨hdst, v, m, hcall, hhash, hmto⟩ :=
        call_of_mem_wire h₀ hq₀ hr₁ (mem_wire_of_receive he)
      have htwice := called_of_blindReceipt h₀ hq₀ hr₁ he hd.of_append hb hcall hhash
        (.inl (hmto.trans hto))
      have honce := hdel v m (List.mem_append_left _ hcall) (hmto.trans hto) p.dst hdst
      rw [List.append_cons, called_append] at honce
      split_ifs at honce htwice <;> omega
  · intro hgood v m hcall hto w hw
    obtain ⟨tr', s, hrun, hsim, hm⟩ := run_forgets_nothing h₀ hq₀ hgood hfew hd hcall hto
    have hmem := mem_originate hm hcall
    have hhash : m.hash ∈ hashes tr := List.mem_filterMap.mpr ⟨_, hcall, rfl⟩
    have hkeys : (Flood.originated tr').Nodup := originated_eq hm ▸ hd.nodup
    have honce := (Flood.Run.flood_once_iff O.nodup (fun _ _ => Visible.mem) hrun.of_only
      (start_quiet O H) (hsim.quiet hq) hkeys hmem hto (hd.new_start hhash)).mpr hrun w
      (O.reach (mem_ids_of_call hr hcall) hw)
    rw [← honce]
    exact called_eq_freshAt hm (fun p b => dest_of_receive hrun.of_only hm hd hcall) (.inl hto)

/-- **The first broadcast always comes back**: with windows that have recorded nothing, the origin of
the first call receives its own broadcast. -/
theorem first_broadcast_comes_back (h₀ : O.Formed N₀ fun _ => []) (hq₀ : O.Quiet N₀) {v : PeerId}
    {m : Msg} (hr : Lts.Run (O.Step order) N₀ (.call v m :: tr) N) (hq : O.Quiet N)
    (hnd : (hashes (.call v m :: tr)).Nodup) (hto : m.to' = none) (hcard : 1 < O.ids.card) :
    0 < O.called v m.hash (.call v m :: tr) := by
  have hd : O.Distinct (fun _ => []) (.call v m :: tr) := ⟨hnd, fun _ _ _ _ => List.not_mem_nil⟩
  have hcall : NetEvent.call v m ∈ NetEvent.call v m :: tr := List.mem_cons_self
  obtain ⟨tr', s, hrun, hsim, hm⟩ := run_flood h₀ hq₀ hr
  have hmem := mem_originate hm hcall
  have hkeys : (Flood.originated tr').Nodup := originated_eq hm ▸ hnd
  have hhash : m.hash ∈ hashes (.call v m :: tr) := List.mem_filterMap.mpr ⟨_, hcall, rfl⟩
  -- the message is the first entry of its origin's history
  have hfirst : ∃ rest, s.hist v = m.hash :: rest := by
    cases hm with
    | cons he _ =>
      cases he
      obtain ⟨s₁, hstep, hr₁⟩ := hrun.cons_inv
      cases hstep
      have hpre := Flood.Run.hist_prefix hr₁ v
      have hempty : (O.start fun _ => []).hist v = [] := by simp [Overlay.start]
      rw [Flood.State.record_hist_self, hempty] at hpre
      obtain ⟨rest, hrest⟩ := hpre
      exact ⟨rest, hrest.symm⟩
  obtain ⟨rest, hfirst⟩ := hfirst
  have hv := mem_ids_of_call hr hcall
  obtain ⟨w, hw, hne⟩ := Finset.exists_mem_ne hcard v
  obtain ⟨u, hu, -⟩ := (O.connected v hv w hw).cases_head.resolve_left hne.symm
  rw [called_eq_freshAt hm (fun p b => dest_of_receive hrun hm hd hcall) (.inl hto)]
  exact Flood.Run.first_comes_back O.nodup O.symm hrun (start_quiet O _) (hsim.quiet hq) hkeys hmem hto
    (hd.new_start hhash) hfirst hu

/-! ### Two nodes -/

def twoNodes : Overlay where
  room := "r"
  ids := {"ur", "vr"}
  peers v := if v = "ur" then ["vr"] else if v = "vr" then ["ur"] else []
  callbacks v := if v = "ur" then [1] else [2]
  nodup v := by split_ifs <;> simp
  irrefl v := by split_ifs with h₁ h₂ <;> simp [*]
  symm v w h := by split_ifs at h <;> simp_all
  mem_ids v w h := by split_ifs at h <;> simp_all
  connected v hv w hw := by
    simp only [Finset.mem_insert, Finset.mem_singleton] at hv hw
    rcases hv with rfl | rfl <;> rcases hw with rfl | rfl
    · exact .refl
    · exact .single (by decide)
    · exact .single (by decide)
    · exact .refl
  room_cstr := Eq.refl "r"
  ids_cstr := by decide

/-- Both have just joined. -/
def twoNodesNet : Net where
  nodes v := if v = "ur" then .linked "u" "r" 1 ["vr"] else .linked "v" "r" 2 ["ur"]
  wire := []

theorem twoNodes_formed : twoNodes.Formed twoNodesNet fun _ => [] := by
  intro v hv
  simp only [twoNodes, Finset.mem_insert, Finset.mem_singleton] at hv
  rcases hv with rfl | rfl
  · exact .of_new (by decide) rfl (by decide) (by decide) (by decide) rfl (by decide) (by decide)
      (by decide) rfl
  · exact .of_new (by decide) rfl (by decide) (by decide) (by decide) rfl (by decide) (by decide)
      (by decide) rfl

/-- The message of their broadcast. -/
def twoNodesMsg : Msg := (twoNodesNet.nodes "ur").formMessage "hi" .logic "r" 1

/-- Both have recorded one earlier message. -/
def usedNet : Net where
  nodes v := ((twoNodesNet.nodes v).handleWebrtcNodeMessageLogic
    (Message.parse { twoNodesMsg with to' := some v, hash := 0 }) 0).1
  wire := []

theorem usedNet_formed : twoNodes.Formed usedNet fun _ => [0] := by
  intro v hv
  have hsound : twoNodes.Sound { twoNodesMsg with to' := some v, hash := 0 } :=
    ⟨rfl, rfl, congrArg some (twoNodes.ids_cstr v hv)⟩
  obtain ⟨n', tasks, heq, hmem, -⟩ := (twoNodes_formed v hv).handle_fresh hsound
    (fun hvis => absurd hvis.mem List.not_mem_nil) 0
  show twoNodes.Member v ((twoNodesNet.nodes v).handleWebrtcNodeMessageLogic _ 0).1 [0]
  rw [heq]
  exact hmem

theorem usedNet_quiet : twoNodes.Quiet usedNet := by decide

/-- One broadcast, which comes back to its origin once and is recognised. -/
def recognised : List Command :=
  [.broadcast2Room "ur" "hi" 1, .iterate "ur", .deliver 2, .iterate "vr", .deliver 3]

theorem recognised_isSome : (twoNodes.execAll usedNet recognised).isSome = true := by decide

def recognisedRun : List NetEvent × Net :=
  (twoNodes.execAll usedNet recognised).get recognised_isSome

theorem recognised_once {v : PeerId} {m : Msg} (h : NetEvent.call v m ∈ recognisedRun.1) :
    ∀ w ∈ twoNodes.ids, twoNodes.called w m.hash recognisedRun.1 = if w = v then 0 else 1 := by
  have hcalls : calls recognisedRun.1 = [("ur", twoNodesMsg)] := by decide
  have hmem := mem_calls h
  rw [hcalls, List.mem_singleton] at hmem
  cases hmem
  decide

theorem recognised_never_blind :
    Lts.Run (Lts.Only (twoNodes.Step fifo) fun N e => ¬ twoNodes.BlindReceipt IsBroadcast N e)
      usedNet recognisedRun.1 recognisedRun.2 :=
  (broadcast2Room_once_iff usedNet_formed usedNet_quiet (Overlay.run_get recognised_isSome) (by decide)
    (by decide) ⟨by decide, by decide⟩).mp fun _ _ h _ => recognised_once h

/-- The same broadcast between nodes that have just joined. -/
def echoed : List Command :=
  [.broadcast2Room "ur" "hi" 1, .iterate "ur", .deliver 2, .iterate "vr", .deliver 3, .iterate "ur",
    .deliver 4, .iterate "vr", .deliver 5]

theorem echoed_isSome : (twoNodes.execAll twoNodesNet echoed).isSome = true := by decide

def echoedRun : List NetEvent × Net := (twoNodes.execAll twoNodesNet echoed).get echoed_isSome

/-- The broadcast comes back to its origin and is taken for a new one. -/
theorem exists_echo : ¬ ∀ (O : Overlay) (order : List Packet → Packet → Prop) (N₀ N : Net)
    (H : PeerId → List Hash) (tr : List NetEvent), O.Formed N₀ H → O.Quiet N₀ →
    Lts.Run (O.Step order) N₀ tr N → O.Quiet N → (hashes tr).length < 500 → O.Distinct H tr →
    (∀ v m, NetEvent.call v m ∈ tr → m.to' = none) →
    ∀ v m, NetEvent.call v m ∈ tr → ∀ w ∈ O.ids, O.called w m.hash tr = if w = v then 0 else 1 := by
  intro h
  have hcalls : calls echoedRun.1 = [("ur", twoNodesMsg)] := by decide
  have := h twoNodes fifo twoNodesNet echoedRun.2 (fun _ => []) echoedRun.1 twoNodes_formed
    (by decide) (Overlay.run_get echoed_isSome) (by decide) (by decide) ⟨by decide, by decide⟩
    (fun v m hm => by
      have hmem := mem_calls hm
      rw [hcalls, List.mem_singleton] at hmem
      cases hmem
      rfl) "ur" twoNodesMsg (by decide) "ur" (by decide)
  revert this
  decide

end Yamb
