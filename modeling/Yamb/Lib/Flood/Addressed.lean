import Yamb.Lib.Flood.Delivery

/-!
# Messages with a destination

The origin floods its neighbours, or hands the message over directly when the destination is one of
them; every other node only passes it to the destination, when that is its neighbour.

* `Run.routed`: where the copies of such a message can be;
* `Near`: the destination is a neighbour of the origin, or has one in common with it;
* **`Run.addressed_once_iff`**: the destination receives the message exactly once if and only if it
  is near and is not handed the message after having recorded and forgotten it.
-/

set_option autoImplicit false

namespace Flood

variable {V H : Type} [DecidableEq V] {peers : V → List V} {knows : List H → H → Prop}
  {order : List (Packet V H) → Packet V H → Prop} {s₀ s : State V H} {tr : List (Event V H)}

/-- The task is the origin's own, or a relay next to the origin has made it for the destination. -/
def RoutedTask (peers : V → List V) (A T : V) (h : H) (v : V) (t : Task V H) : Prop :=
  t.msg.key = h → t.msg.dest = some T ∧ (v = A ∨ t.direct = true ∧ v ∈ peers A)

/-- The packet comes from the origin, or goes from a relay next to it to the destination. -/
def RoutedPacket (peers : V → List V) (A T : V) (h : H) (p : Packet V H) : Prop :=
  p.msg.key = h → p.msg.dest = some T ∧
    (p.src = A ∧ p.dst ∈ peers A ∨ p.src ∈ peers A ∧ p.dst = T ∧ T ∈ peers p.src)

theorem RoutedPacket.relay {A T : V} {h : H} {p : Packet V H} (hp : RoutedPacket peers A T h p)
    {t : Task V H} (ht : t ∈ relay p.dst p.msg) : RoutedTask peers A T h p.dst t := by
  intro hk
  rw [relay_msg ht] at hk ⊢
  obtain ⟨hd, hroute⟩ := hp hk
  simp only [Flood.relay, hd] at ht
  split_ifs at ht with hT
  · exact absurd ht List.not_mem_nil
  · obtain rfl := List.mem_singleton.mp ht
    rcases hroute with ⟨-, hdst⟩ | ⟨-, hdst, -⟩
    · exact ⟨hd, .inr ⟨rfl, hdst⟩⟩
    · exact absurd hdst.symm hT

theorem RoutedTask.packets {A T v : V} {h : H} {t : Task V H} (ht : RoutedTask peers A T h v t)
    {p : Packet V H} (hp : p ∈ t.packets peers v) : RoutedPacket peers A T h p := by
  intro hk
  obtain ⟨hsrc, hdst, hmsg⟩ := mem_packets hp
  rw [hmsg] at hk ⊢
  obtain ⟨hd, hroute⟩ := ht hk
  rcases hroute with rfl | ⟨hdirect, hv⟩
  · exact ⟨hd, .inl ⟨hsrc, hdst⟩⟩
  · simp only [Task.packets, hdirect, if_true, hd] at hp
    split_ifs at hp with hT
    · obtain rfl := List.mem_singleton.mp hp
      exact ⟨hd, .inr ⟨hv, rfl, hT⟩⟩
    · exact absurd hp List.not_mem_nil

/-- **Routes have at most two hops.** -/
theorem Run.routed {A T : V} {h : H} (hr : Lts.Run (Step peers knows order) s₀ tr s)
    (hq₀ : s₀.Quiet)
    (horig : ∀ v m, Event.originate v m ∈ tr → m.key = h → v = A ∧ m.dest = some T) :
    s.All (RoutedTask peers A T h) (RoutedPacket peers A T h) ∧
      ∀ p b, Event.receive p b ∈ tr → RoutedPacket peers A T h p :=
  Run.all hr hq₀.all
    (fun v m hm hk => ⟨(horig v m hm hk).2, .inl (horig v m hm hk).1⟩)
    (fun _ _ hp _ ht => hp.relay ht) fun _ _ ht _ hp => ht.packets hp

/-- At most two hops apart. -/
def Near (peers : V → List V) (A T : V) : Prop := T ∈ peers A ∨ ∃ R ∈ peers A, T ∈ peers R

omit [DecidableEq V] in
theorem RoutedPacket.near {A T : V} {h : H} {p : Packet V H} (hp : RoutedPacket peers A T h p)
    (hk : p.msg.key = h) (hdst : p.dst = T) : Near peers A T := by
  rcases (hp hk).2 with ⟨-, hA⟩ | ⟨hsrc, -, hT⟩
  · exact .inl (hdst ▸ hA)
  · exact .inr ⟨p.src, hsrc, hT⟩

variable [DecidableEq H]

/-- In a quiet state, a neighbour of `v` has recorded `h` as soon as `v` has, when every task that
`v` makes for `h` is one packet to it. -/
theorem Run.mem_hist_of_link {v w : V} {h : H} (hrec : ∀ L x, knows L x → x ∈ L)
    (hr : Lts.Run (Step peers knows order) s₀ tr s) (hq₀ : s₀.Quiet) (hq : s.Quiet)
    (hown : ∀ m, Event.originate v m ∈ tr → m.key = h →
      ((ownTask peers v m).packets peers v).countP (onLink v w h) = 1)
    (hrelay : ∀ p, Event.receive p true ∈ tr → p.dst = v → p.msg.key = h →
      ∃ t, relay v p.msg = [t] ∧ (t.packets peers v).countP (onLink v w h) = 1)
    (hpos : 0 < own v h tr + freshAt v h tr) : h ∈ s.hist w := by
  have hlaw := Run.link_law hr hq₀ hown hrelay
  simp only [State.tasks, State.inFlight, hq.1 v, hq.2, List.countP_nil] at hlaw
  exact Run.mem_hist_of_received hrec hr (u := v) (by omega)

/-- The destination records the message when it is near. -/
theorem Run.mem_hist_of_near (hnd : ∀ v, (peers v).Nodup) (hirr : ∀ v, v ∉ peers v)
    (hrec : ∀ L x, knows L x → x ∈ L) (hr : Lts.Run (Step peers knows order) s₀ tr s)
    (hq₀ : s₀.Quiet) (hq : s.Quiet) (hkeys : (originated tr).Nodup) {A T : V} {m : Msg V H}
    (hm : Event.originate A m ∈ tr) (hd : m.dest = some T) (hne : T ≠ A)
    (hnew : ∀ v, m.key ∉ s₀.hist v) (hnear : Near peers A T) : m.key ∈ s.hist T := by
  obtain ⟨hown, huniq⟩ := originate_unique hkeys hm
  have hrouted := (Run.routed (h := m.key) hr hq₀ fun v m' hm' hk =>
    ⟨(huniq v m' hm' hk).1, by rw [(huniq v m' hm' hk).2, hd]⟩).2
  have hownA : 0 < own A m.key tr := by rw [hown, if_pos rfl]; exact Nat.one_pos
  -- the origin itself never receives the message
  have hrelayA : ∀ p, Event.receive p true ∈ tr → p.dst = A → p.msg.key = m.key → False := by
    intro p hp hdst hk
    rcases (hrouted p true hp hk).2 with ⟨-, hA⟩ | ⟨-, hT, -⟩
    · exact hirr A (hdst ▸ hA)
    · exact hne (hT.symm.trans hdst)
  by_cases hadj : T ∈ peers A
  · refine Run.mem_hist_of_link (v := A) hrec hr hq₀ hq (fun m' hm' hk => ?_)
      (fun p hp hdst hk => (hrelayA p hp hdst hk).elim) (by omega)
    obtain rfl := (huniq A m' hm' hk).2
    have htask : ownTask peers A m' = ⟨true, m'⟩ := by simp [ownTask, hd, hadj]
    rw [htask]
    exact countP_packets_direct hadj hd
  · obtain ⟨R, hR, hT⟩ := hnear.resolve_left hadj
    have hRA : R ≠ A := fun h => hirr A (h ▸ hR)
    have hTR : T ≠ R := fun h => hirr R (h ▸ hT)
    have hmemR : m.key ∈ s.hist R := by
      refine Run.mem_hist_of_link (v := A) hrec hr hq₀ hq (fun m' hm' hk => ?_)
        (fun p hp hdst hk => (hrelayA p hp hdst hk).elim) (by omega)
      obtain rfl := (huniq A m' hm' hk).2
      have htask : ownTask peers A m' = ⟨false, m'⟩ := by simp [ownTask, hd, hadj]
      rw [htask]
      exact countP_packets_flood hnd hR m'
    have hcountR := Run.hist_count hr R m.key
    rw [List.count_eq_zero_of_not_mem (hnew R)] at hcountR
    have hposR := List.count_pos_iff.mpr hmemR
    refine Run.mem_hist_of_link (v := R) hrec hr hq₀ hq (fun m' hm' hk => ?_)
      (fun p hp hdst hk => ?_) (by omega)
    · exact absurd (huniq R m' hm' hk).1 hRA
    · have hdest := (hrouted p true hp hk).1
      refine ⟨⟨true, p.msg⟩, by simp [relay, hdest, hTR], ?_⟩
      rw [← hk]
      exact countP_packets_direct hT hdest

/-- **Exactly once if and only if near and not forgotten.** -/
theorem Run.addressed_once_iff (hnd : ∀ v, (peers v).Nodup) (hirr : ∀ v, v ∉ peers v)
    (hrec : ∀ L x, knows L x → x ∈ L) (hr : Lts.Run (Step peers knows order) s₀ tr s)
    (hq₀ : s₀.Quiet) (hq : s.Quiet) (hkeys : (originated tr).Nodup) {A T : V} {m : Msg V H}
    (hm : Event.originate A m ∈ tr) (hd : m.dest = some T) (hne : T ≠ A)
    (hnew : ∀ v, m.key ∉ s₀.hist v) :
    freshAt T m.key tr = 1 ↔ Near peers A T ∧
      Lts.Run (Lts.Only (Step peers knows order) fun s e => ¬ Forgotten T m.key s e) s₀ tr s := by
  obtain ⟨hown, huniq⟩ := originate_unique hkeys hm
  have hone := Run.count_le_one_iff (u := A) (· = T) hr hq₀ hnew (by rw [hown, if_pos rfl])
    fun v hv => by rw [hown, if_neg hv]
  simp only [forall_eq] at hone
  have hcount := Run.hist_count hr T m.key
  rw [List.count_eq_zero_of_not_mem (hnew T), hown, if_neg hne] at hcount
  rw [← hone]
  constructor
  · intro hfresh
    refine ⟨?_, by omega⟩
    have hpos : 0 < freshAt T m.key tr := by omega
    obtain ⟨p, hp, hdst, hk⟩ := exists_receive_of_freshAt hpos
    have hrouted := (Run.routed (A := A) (T := T) (h := m.key) hr hq₀ fun v m' hm' hk =>
      ⟨(huniq v m' hm' hk).1, by rw [(huniq v m' hm' hk).2, hd]⟩).2
    exact (hrouted p true hp).near hk hdst
  · rintro ⟨hnear, hle⟩
    have hmem := Run.mem_hist_of_near hnd hirr hrec hr hq₀ hq hkeys hm hd hne hnew hnear
    have := List.count_pos_iff.mpr hmem
    omega

end Flood
