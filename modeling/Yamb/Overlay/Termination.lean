import Yamb.Lib.Flood.Storm
import Yamb.Overlay.Broadcast

/-!
# When a flood dies out

* `NetEvent.Internal`, `Overlay.pending`: deliveries and iterations; the hashes under way;
* **`flood_dies_out`**: when fewer than 500 hashes are under way, no run without new calls is
  infinite;
* **`burst_diverges`**: two nodes, over channels that keep the order, never come to rest after more
  than 500 broadcasts at one of them;
* `oneCall_dies_out`, `exists_storm`: one broadcast, and 501 of them.
-/

set_option autoImplicit false

namespace Yamb

open BlindWindow (Visible)

variable {O : Overlay} {order : List Packet → Packet → Prop} {N₀ N : Net} {H : PeerId → List Hash}
  {tr : List NetEvent} {s : Flood.State PeerId Hash}

/-- Deliveries and iterations, no calls. -/
def NetEvent.Internal : NetEvent → Prop
  | .call _ _ => False
  | _ => True

theorem Overlay.Matches.internal {e : NetEvent} {e' : Flood.Event PeerId Hash}
    (h : O.Matches e e') (he : e.Internal) : e'.Internal := by
  cases h with
  | call v m => exact he
  | fresh p => trivial
  | stale p => trivial
  | iterate v t => trivial

/-- The hashes of the messages that are queued or in flight. -/
def Overlay.pending (O : Overlay) (N : Net) : Finset Hash :=
  (O.ids.biUnion fun v => ((N.nodes v).sMq.map fun t => t.msg.hash).toFinset) ∪
    (N.wire.map fun p => p.msg.hash).toFinset

theorem Overlay.Sim.pending (h : O.Sim N s) :
    s.All (fun _ t => t.msg.key ∈ O.pending N) fun p => p.msg.key ∈ O.pending N := by
  refine ⟨fun v t ht => ?_, fun p hp => ?_⟩
  · rw [h.queue] at ht
    split_ifs at ht with hv
    · obtain ⟨t', ht', rfl⟩ := List.mem_map.mp ht
      refine Finset.mem_union_left _ (Finset.mem_biUnion.mpr ⟨v, hv, List.mem_toFinset.mpr ?_⟩)
      exact List.mem_map.mpr ⟨t', ht', rfl⟩
    · exact absurd ht List.not_mem_nil
  · rw [h.wire] at hp
    obtain ⟨p', hp', rfl⟩ := List.mem_map.mp hp
    exact Finset.mem_union_right _ (List.mem_toFinset.mpr (List.mem_map.mpr ⟨p', hp', rfl⟩))

theorem Overlay.Sim.within (h : O.Sim N s) : s.Within O.ids := by
  refine ⟨fun v t ht => ?_, fun p hp => ?_⟩
  · rw [h.queue] at ht
    split_ifs at ht with hv
    · exact hv
    · exact absurd ht List.not_mem_nil
  · rw [h.wire] at hp
    obtain ⟨p', hp', rfl⟩ := List.mem_map.mp hp
    exact (h.packets p' hp').1

/-- **A flood of fewer than 500 hashes dies out**, however many calls there were before. -/
theorem flood_dies_out (h₀ : O.Formed N₀ H) (hq₀ : O.Quiet N₀)
    (hr : Lts.Run (O.Step order) N₀ tr N) (hfew : (O.pending N).card < 500) :
    ¬ Lts.Diverges (Lts.Only (O.Step order) fun _ e => e.Internal) N := by
  obtain ⟨_, s, -, hsim, -⟩ := run_flood h₀ hq₀ hr
  let d := O.ids.sup fun v => (O.peers v).length
  have hdeg : ∀ v ∈ O.ids, (O.peers v).length ≤ d := fun v hv =>
    Finset.le_sup (f := fun v => (O.peers v).length) hv
  have hord : ∀ l p, order l p → Flood.anyOrder (l.map Packet.toFlood) p.toFlood :=
    fun _ _ _ => trivial
  have hstep : ∀ N₁ e N₂ s₁, O.Sim N₁ s₁ → Lts.Only (O.Step order) (fun _ e => e.Internal) N₁ e N₂ →
      ∃ e' s₂, O.Matches e e' ∧ Lts.Only (Flood.Step O.peers (Visible 500) Flood.anyOrder)
        (fun _ e => e.Internal) s₁ e' s₂ ∧ O.Sim N₂ s₂ := by
    intro N₁ e N₂ s₁ hs he
    obtain ⟨e', s₂, hmatch, hstep, hs₂⟩ := sim_step hord hs he.1
    exact ⟨e', s₂, hmatch, ⟨hstep, hmatch.internal he.2⟩, hs₂⟩
  refine Lts.not_diverges_of_length_le
    (s.weight O.ids d + (d + 1) * (O.ids.card * ((O.pending N).card + 1))) fun tr' N' hr' => ?_
  obtain ⟨tr'', s', hrun, -, hlen⟩ := hr'.simulate hsim hstep
  rw [hlen.length_eq]
  exact Flood.Run.length_le hrun (fun v _ w => O.mem_ids v w) hdeg hsim.within hsim.pending hfew

/-! ### Storms -/

theorem fifo_toFlood (l : List Packet) (p : Packet) (h : fifo l p) :
    Flood.fifo (l.map Packet.toFlood) p.toFlood := by
  intro q hq
  obtain ⟨q', hq', rfl⟩ := List.mem_map.mp hq
  exact h q' hq'

/-- Whatever is under way can be delivered or taken. -/
theorem Overlay.Sim.exists_step (h : O.Sim N s) {a b : PeerId}
    (hstorm : Flood.Storm 500 a b s) : ∃ e N', e.Internal ∧ O.Step fifo N e N' := by
  have hqueue : ∀ v, s.queue v ≠ [] → ∃ e N', e.Internal ∧ O.Step fifo N e N' := by
    intro v hv
    rw [h.queue] at hv
    split_ifs at hv with hids
    · exact ⟨.iterate v, _, trivial, .iterate hids fun hnil => hv (by simp [hnil])⟩
    · exact absurd rfl hv
  rcases hstorm.under_way with hwire | ha | hb
  · rw [h.wire] at hwire
    have hne : N.wire ≠ [] := fun hnil => hwire (by simp [hnil])
    obtain ⟨p, l, hw⟩ := List.exists_cons_of_ne_nil hne
    exact ⟨.receive p _, _, trivial, .receive [] p l hw (fun q hq => absurd hq List.not_mem_nil)
      (h.packets p (by simp [hw])).2.type 0⟩
  · exact hqueue a ha
  · exact hqueue b hb

theorem Overlay.Sim.diverges (h : O.Sim N s) {a b : PeerId} (hpair : Flood.Pair O.peers a b)
    (hstorm : Flood.Storm 500 a b s) :
    Lts.Diverges (Lts.Only (O.Step fifo) fun _ e => e.Internal) N := by
  refine Lts.diverges_of_progress (I := fun N => ∃ s, O.Sim N s ∧ Flood.Storm 500 a b s)
    ⟨s, h, hstorm⟩ ?_
  rintro N ⟨s, h, hstorm⟩
  obtain ⟨e, N', hint, he⟩ := h.exists_step hstorm
  obtain ⟨e', s', hmatch, hstep, h'⟩ := sim_step fifo_toFlood h he
  refine ⟨e, N', ⟨he, hint⟩, s', h', hstorm.step hpair (fun v m heq => ?_) hstep⟩
  have := hmatch.internal hint
  rw [heq] at this
  exact this

/-- **A burst of more than 500 broadcasts between two nodes goes round for ever.** -/
theorem burst_diverges {a b : PeerId} (hpair : Flood.Pair O.peers a b)
    (h₀ : O.Formed N₀ fun _ => []) (hq₀ : O.Quiet N₀) (hr : Lts.Run (O.Step fifo) N₀ tr N)
    (hcalls : ∀ e ∈ tr, ∃ m, m.to' = none ∧ e = .call a m) (hnd : (hashes tr).Nodup)
    (hlong : 500 < (hashes tr).length) :
    Lts.Diverges (Lts.Only (O.Step fifo) fun _ e => e.Internal) N := by
  obtain ⟨tr', s, hrun, hsim, hm⟩ := hr.simulate (h₀.sim hq₀) fun _ _ _ _ hs he =>
    sim_step fifo_toFlood hs he
  have hburst : Flood.Burst a tr' s := by
    refine Flood.Run.burst hrun (start_quiet O _) (fun v => ?_) fun e' he' => ?_
    · simp [Overlay.start]
    · obtain ⟨e, he, hmatch⟩ := Lts.exists_of_forall₂_right hm he'
      obtain ⟨m, hto, rfl⟩ := hcalls e he
      cases hmatch
      exact ⟨_, hto, rfl⟩
  exact hsim.diverges hpair (hburst.storm hpair.ne (originated_eq hm ▸ hnd)
    (originated_eq hm ▸ hlong))

/-! ### One broadcast and too many -/

theorem oneCall_isSome :
    (twoNodes.execAll twoNodesNet [.broadcast2Room "ur" "hi" 1]).isSome = true := by decide

def oneCallRun : List NetEvent × Net :=
  (twoNodes.execAll twoNodesNet [.broadcast2Room "ur" "hi" 1]).get oneCall_isSome

theorem oneCall_dies_out :
    ¬ Lts.Diverges (Lts.Only (twoNodes.Step fifo) fun _ e => e.Internal) oneCallRun.2 :=
  flood_dies_out twoNodes_formed (by decide) (Overlay.run_get oneCall_isSome) (by decide)

theorem broadcast2Room_identity (n : Node) (roomId : RoomId) (j : String) (t : MessageType)
    (except : PeerId) (now : ℕ) :
    (n.broadcast2Room roomId j t except now).1.user = n.user ∧
      (n.broadcast2Room roomId j t except now).1.hasher = n.hasher := by
  unfold Node.broadcast2Room
  split
  · exact ⟨rfl, rfl⟩
  · exact ⟨rfl, rfl⟩

/-- Any number of broadcasts of different lengths, one after the other. -/
theorem exists_burst (k : ℕ) : ∃ tr N, Lts.Run (twoNodes.Step fifo) twoNodesNet tr N ∧
    (N.nodes "ur").user = "u" ∧ (N.nodes "ur").hasher = String.length ∧
    hashes tr = (List.range k).map (· + 3) ∧ ∀ e ∈ tr, ∃ m, m.to' = none ∧ e = .call "ur" m := by
  induction k with
  | zero => exact ⟨[], twoNodesNet, .nil, rfl, rfl, rfl, fun e he => absurd he List.not_mem_nil⟩
  | succ k ih =>
    obtain ⟨tr, N, hr, huser, hhasher, hhashes, hcalls⟩ := ih
    let j := String.ofList (List.replicate k 'x')
    have hhash : ((N.nodes "ur").formMessage j .logic "r" 0).hash = k + 3 := by
      show (N.nodes "ur").hasher (j ++ toString 0 ++ ((N.nodes "ur").user ++ "r")) = k + 3
      rw [huser, hhasher]
      simp only [String.length_append, j, String.length_ofList, List.length_replicate]
      rfl
    have hur : "ur" ∈ twoNodes.ids := by decide
    refine ⟨_, _, hr.snoc (.broadcast2Room hur j 0), ?_, ?_, ?_, fun e he => ?_⟩
    · simpa [Net.setNode, (broadcast2Room_identity _ _ _ _ _ _).1] using huser
    · simpa [Net.setNode, (broadcast2Room_identity _ _ _ _ _ _).2] using hhasher
    · rw [hashes_append, hhashes, List.range_succ, List.map_append]
      exact congrArg (fun h => List.map (· + 3) (List.range k) ++ [h]) hhash
    · rcases List.mem_append.mp he with he | he
      · exact hcalls e he
      · obtain rfl := List.mem_singleton.mp he
        exact ⟨_, rfl, rfl⟩

/-- Five hundred and one broadcasts never die out. -/
theorem exists_storm : ¬ ∀ (O : Overlay) (N₀ N : Net) (H : PeerId → List Hash)
    (tr : List NetEvent), O.Formed N₀ H → O.Quiet N₀ → Lts.Run (O.Step fifo) N₀ tr N →
    O.Distinct H tr → (∀ v m, NetEvent.call v m ∈ tr → m.to' = none) →
    ¬ Lts.Diverges (Lts.Only (O.Step fifo) fun _ e => e.Internal) N := by
  intro h
  obtain ⟨tr, N, hr, -, -, hhashes, hcalls⟩ := exists_burst 501
  have hnd : (hashes tr).Nodup := by
    rw [hhashes]
    exact List.nodup_range.map fun _ _ => Nat.add_right_cancel
  refine h twoNodes twoNodesNet N (fun _ => []) tr twoNodes_formed (by decide) hr
    ⟨hnd, fun _ _ _ _ => List.not_mem_nil⟩ (fun v m hm => ?_)
    (burst_diverges (a := "ur") (b := "vr") ⟨by decide, rfl, rfl⟩ twoNodes_formed (by decide) hr
      hcalls hnd (by rw [hhashes, List.length_map, List.length_range]; decide))
  obtain ⟨m', hto, heq⟩ := hcalls _ hm
  cases heq
  exact hto

end Yamb
