import Yamb.Lib.BlindWindow
import Yamb.Lib.Flood.Delivery
import Mathlib.Algebra.Order.BigOperators.Group.Finset

/-!
# Flooding between bounded windows

The nodes ask windows with a blind slot whether they know a key.

* `Run.hist_admits`: what a history has gained was invisible when it was recorded;
* `Run.hist_length_le`: few keys in circulation are recorded few times;
* `Run.first_comes_back`: what a node records first it does not recognise;
* `State.weight`, `Run.length_add_weight_le`: a run without new messages is paid for by what is
  queued, in flight and recorded;
* **`Run.length_le`**: when fewer keys circulate than the windows have slots, the flood dies out.
-/

set_option autoImplicit false

namespace Flood

variable {V H : Type} [DecidableEq V]

/-! ### Histories -/

variable {peers : V → List V} {knows : List H → H → Prop}
  {order : List (Packet V H) → Packet V H → Prop} {s₀ s : State V H} {tr : List (Event V H)} {c : ℕ}

/-- A key in circulation has been there from the start or was originated. -/
theorem Run.key_mem {K : H → Prop} (hr : Lts.Run (Step peers knows order) s₀ tr s)
    (hK : s₀.All (fun _ t => K t.msg.key) fun p => K p.msg.key) :
    s.All (fun _ t => K t.msg.key ∨ t.msg.key ∈ originated tr)
      fun p => K p.msg.key ∨ p.msg.key ∈ originated tr := by
  refine (Run.all hr ⟨fun v t ht => .inl (hK.queue v t ht), fun p hp => .inl (hK.wire p hp)⟩ ?_ ?_
    ?_).1
  · exact fun v m hm => .inr (mem_originated hm)
  · intro p _ hp t ht
    rw [relay_msg ht]
    exact hp
  · intro v t ht p hp
    rw [(mem_packets hp).2.2]
    exact ht

/-- What `v` has recorded since `s₀`, each key while its window did not show it. -/
def Gained (c : ℕ) (K : H → Prop) (s₀ : State V H) (tr : List (Event V H)) (s : State V H) (v : V) :
    Prop :=
  ∃ ps, s.hist v = s₀.hist v ++ ps ∧ BlindWindow.Admits c (s₀.hist v) ps ∧
    ∀ x ∈ ps, K x ∨ x ∈ originated tr

theorem Gained.record {K : H → Prop} {v w : V} {k : H} {ts : List (Task V H)}
    (h : Gained c K s₀ tr s w) (hk : v = w → K k ∨ k ∈ originated tr)
    (hx : v = w → ¬ BlindWindow.Visible c (s.hist w) k) :
    Gained c K s₀ tr (s.record v k ts) w := by
  obtain ⟨ps, hps, hadm, hsrc⟩ := h
  by_cases hvw : v = w
  · subst hvw
    refine ⟨ps ++ [k], by rw [State.record_hist_self, hps, List.append_assoc], ?_, ?_⟩
    · exact hadm.snoc (hps ▸ hx rfl)
    · intro x hx
      rcases List.mem_append.mp hx with hx | hx
      · exact hsrc x hx
      · obtain rfl := List.mem_singleton.mp hx
        exact hk rfl
  · exact ⟨ps, by rw [State.record_hist_of_ne _ (Ne.symm hvw), hps], hadm, hsrc⟩

omit [DecidableEq V] in
theorem Gained.snoc {K : H → Prop} {w : V} (h : Gained c K s₀ tr s w) (e : Event V H) :
    Gained c K s₀ (tr ++ [e]) s w := by
  obtain ⟨ps, hps, hadm, hsrc⟩ := h
  refine ⟨ps, hps, hadm, fun x hx => (hsrc x hx).imp_right fun hm => ?_⟩
  rw [originated_snoc]
  exact List.mem_append_left _ hm

/-- **Histories grow by invisible keys**, as long as every originated key is new. -/
theorem Run.hist_admits {K : H → Prop}
    (hr : Lts.Run (Step peers (BlindWindow.Visible c) order) s₀ tr s)
    (hK : s₀.All (fun _ t => K t.msg.key) fun p => K p.msg.key) (hnd : (originated tr).Nodup)
    (hnew : ∀ x ∈ originated tr, ¬ K x ∧ ∀ v, x ∉ s₀.hist v) (w : V) : Gained c K s₀ tr s w := by
  induction hr with
  | nil => exact ⟨[], by simp, .nil, by simp⟩
  | @snoc tr s s' e hr he ih =>
    rw [originated_snoc] at hnd hnew
    have ih := (ih (List.nodup_append.mp hnd).1 fun x hx => hnew x (List.mem_append_left _ hx))
    cases he with
    | originate v m =>
      refine (ih.snoc _).record (fun _ => .inr (mem_originated (v := v) (by simp))) ?_
      rintro rfl hvis
      obtain ⟨hnK, hn₀⟩ := hnew m.key (by simp [Event.originated])
      obtain ⟨ps, hps, -, hsrc⟩ := ih
      have hmem := hvis.mem
      rw [hps] at hmem
      rcases List.mem_append.mp hmem with hmem | hmem
      · exact hn₀ _ hmem
      · rcases hsrc _ hmem with hk | ho
        · exact hnK hk
        · exact (List.nodup_append.mp hnd).2.2 _ ho m.key (by simp [Event.originated]) rfl
    | fresh l₁ p l₂ hw ho hx =>
      have hs : Gained c K s₀ (tr ++ [.receive p true]) { s with wire := l₁ ++ l₂ } w := ih.snoc _
      refine hs.record (fun _ => ?_) fun hv => by rwa [← hv]
      refine ((Run.key_mem hr hK).wire p (by simp [hw])).imp_right fun hm => ?_
      rw [originated_snoc]
      exact List.mem_append_left _ hm
    | stale l₁ p l₂ hw ho hx => exact ih.snoc _
    | transmit v t q hq => exact ih.snoc _

/-- While fewer keys circulate than a window has slots, a node records at most one more than they
are. -/
theorem Run.hist_length_le [DecidableEq H] {K : Finset H}
    (hr : Lts.Run (Step peers (BlindWindow.Visible c) order) s₀ tr s)
    (hK : s₀.All (fun _ t => t.msg.key ∈ K) fun p => p.msg.key ∈ K) (hnd : (originated tr).Nodup)
    (hnew : ∀ x ∈ originated tr, x ∉ K ∧ ∀ v, x ∉ s₀.hist v)
    (hcard : K.card + (originated tr).length < c) (w : V) :
    ∃ ps, s.hist w = s₀.hist w ++ ps ∧ ps.length ≤ K.card + (originated tr).length + 1 := by
  obtain ⟨ps, hps, hadm, hsrc⟩ := Run.hist_admits (K := fun x => x ∈ K) hr hK hnd hnew w
  have hD : (K ∪ (originated tr).toFinset).card ≤ K.card + (originated tr).length :=
    (Finset.card_union_le _ _).trans (Nat.add_le_add_left (List.toFinset_card_le _) _)
  have := hadm.length_le (D := K ∪ (originated tr).toFinset)
    (fun x hx => by simpa using hsrc x hx) (by omega)
  exact ⟨ps, hps, by omega⟩

/-! ### The first key of a history -/

theorem Step.hist_prefix {e : Event V H} {s' : State V H} (he : Step peers knows order s e s')
    (v : V) : s.hist v <+: s'.hist v := by
  have hrec : ∀ (s : State V H) (u : V) (k : H) (ts : List (Task V H)),
      s.hist v <+: (s.record u k ts).hist v := by
    intro s u k ts
    by_cases huv : v = u
    · subst huv
      rw [State.record_hist_self]
      exact List.prefix_append _ _
    · rw [State.record_hist_of_ne _ huv]
  cases he with
  | originate u m => exact hrec s u _ _
  | fresh l₁ p l₂ hw ho hx => exact hrec { s with wire := l₁ ++ l₂ } p.dst _ _
  | stale l₁ p l₂ hw ho hx => exact List.prefix_rfl
  | transmit u t q hq => exact List.prefix_rfl

/-- Histories only grow. -/
theorem Run.hist_prefix (hr : Lts.Run (Step peers knows order) s₀ tr s) (v : V) :
    s₀.hist v <+: s.hist v :=
  hr.invariant (I := fun s => s₀.hist v <+: s.hist v) List.prefix_rfl fun _ _ _ hs he =>
    hs.trans (he.hist_prefix v)

/-- **What a node records first it does not recognise**: a flooded message that is the first entry
of its origin's history is received by the origin as new. -/
theorem Run.first_comes_back [DecidableEq H] (hnd : ∀ v, (peers v).Nodup)
    (hsymm : ∀ v w, w ∈ peers v → v ∈ peers w)
    (hr : Lts.Run (Step peers (BlindWindow.Visible c) order) s₀ tr s) (hq₀ : s₀.Quiet)
    (hq : s.Quiet) (hkeys : (originated tr).Nodup) {u w : V} {m : Msg V H}
    (hm : Event.originate u m ∈ tr) (hd : m.dest = none) (hnew : ∀ v, m.key ∉ s₀.hist v)
    {rest : List H} (hfirst : s.hist u = m.key :: rest) (hw : w ∈ peers u) :
    0 < freshAt u m.key tr := by
  by_contra hz
  obtain ⟨hown, huniq⟩ := originate_unique hkeys hm
  have hf : OriginatesTo m.key none tr := fun v m' hm' hk => by rw [(huniq v m' hm' hk).2, hd]
  have hrest : m.key ∉ rest := by
    have hcount := Run.hist_count hr u m.key
    rw [hfirst, List.count_cons_self, List.count_eq_zero_of_not_mem (hnew u), hown, if_pos rfl]
      at hcount
    exact fun hc => absurd (List.count_pos_iff.mpr hc) (by omega)
  -- the neighbour has recorded the message and sent it back
  have hmemw : m.key ∈ s.hist w := Run.known_everywhere hnd (fun _ _ => BlindWindow.Visible.mem) hr
    hq₀ hq hf hnew (u := u) (by simp [hfirst]) (.single hw)
  have hcountw := Run.hist_count hr w m.key
  rw [List.count_eq_zero_of_not_mem (hnew w)] at hcountw
  have hposw := List.count_pos_iff.mpr hmemw
  have hback := Run.received_eq hnd hr hq₀ hq hf (hsymm u w hw)
  obtain ⟨e, he, hrec⟩ := List.countP_pos_iff.mp (show 0 < received w u m.key tr by omega)
  cases e with
  | originate v m' => cases hrec
  | transmit v t => cases hrec
  | receive p b =>
    obtain ⟨-, hdst, hk⟩ := of_decide_eq_true hrec
    obtain ⟨t₁, t₂, rfl⟩ := List.append_of_mem he
    obtain ⟨s₁, s₂, hr₁, hstep, hr₂⟩ := hr.split
    cases hstep with
    | fresh =>
      refine hz (List.countP_pos_iff.mpr ⟨_, he, ?_⟩)
      simp [Event.isFresh, hdst, hk]
    | stale l₁ _ l₂ hwr ho hx =>
      -- it can only be seen at a later position than the first
      obtain ⟨j, hj, -, hj₀, hget⟩ := hx
      have hne : j ≠ 0 := fun h => hj₀ (by rw [h, Nat.zero_mod])
      obtain ⟨k, rfl⟩ := Nat.exists_eq_succ_of_ne_zero hne
      have hpre : s₁.hist p.dst <+: s.hist p.dst := Run.hist_prefix hr₂ p.dst
      have hsame := hpre.getElem hj
      rw [hget, hk] at hsame
      subst hdst
      simp only [hfirst, Nat.succ_eq_add_one, List.getElem_cons_succ] at hsame
      exact hrest (hsame ▸ List.getElem_mem _)

/-! ### Dying out -/

def Event.Internal : Event V H → Prop
  | .originate _ _ => False
  | _ => True

/-- The weight of what is queued and in flight, where a task weighs one more than the most packets
it can become. -/
def State.weight (ids : Finset V) (d : ℕ) (s : State V H) : ℕ :=
  s.wire.length + (d + 1) * ∑ v ∈ ids, (s.queue v).length

/-- The number of recorded keys. -/
def State.recorded (ids : Finset V) (s : State V H) : ℕ := ∑ v ∈ ids, (s.hist v).length

theorem sum_length_update {α : Type} {ids : Finset V} {u : V} (hu : u ∈ ids) (f : V → List α)
    (l : List α) : (∑ v ∈ ids, (Function.update f u l v).length) + (f u).length =
      (∑ v ∈ ids, (f v).length) + l.length := by
  have hrest : ∑ v ∈ ids.erase u, (Function.update f u l v).length =
      ∑ v ∈ ids.erase u, (f v).length :=
    Finset.sum_congr rfl fun v hv => by rw [Function.update_of_ne (Finset.ne_of_mem_erase hv)]
  rw [← Finset.add_sum_erase _ _ hu, ← Finset.add_sum_erase _ _ hu, hrest, Function.update_self]
  omega

theorem length_packets_le {v : V} {d : ℕ} (hd : (peers v).length ≤ d) (t : Task V H) :
    (t.packets peers v).length ≤ d := by
  unfold Task.packets
  split_ifs
  · split
    · split_ifs with hm
      · have := List.length_pos_of_mem hm
        simp only [List.length_singleton]
        omega
      · exact Nat.zero_le _
    · exact Nat.zero_le _
  · simpa using hd

section Dying

variable {ids : Finset V} {d : ℕ}

/-- Everything queued or in flight is at the nodes `ids`. -/
def State.Within (ids : Finset V) (s : State V H) : Prop :=
  s.All (fun v _ => v ∈ ids) fun p => p.dst ∈ ids

theorem Step.within {e : Event V H} {s' : State V H} (he : Step peers knows order s e s')
    (hint : e.Internal) (hclosed : ∀ v ∈ ids, ∀ w ∈ peers v, w ∈ ids) (hs : s.Within ids) :
    s'.Within ids := by
  refine he.all hs (fun v m hm => ?_) (fun p _ hp t _ => hp) fun v t hv p hp => ?_
  · rw [hm] at hint
    exact hint.elim
  · exact hclosed v hv _ (mem_packets hp).2.1

/-- **One step pays for itself**, except that a recorded key is worth one task. -/
theorem Step.weight_le {e : Event V H} {s' : State V H} (he : Step peers knows order s e s')
    (hint : e.Internal) (hdeg : ∀ v ∈ ids, (peers v).length ≤ d) (hs : s.Within ids) :
    s'.weight ids d + 1 + (d + 1) * s.recorded ids ≤
      s.weight ids d + (d + 1) * s'.recorded ids := by
  cases he with
  | originate v m => exact hint.elim
  | fresh l₁ p l₂ hw ho hx =>
    have hp : p.dst ∈ ids := hs.wire p (by simp [hw])
    have hq := sum_length_update hp s.queue (s.queue p.dst ++ relay p.dst p.msg)
    have hh := sum_length_update hp s.hist (s.hist p.dst ++ [p.msg.key])
    have hrelay := length_relay_le p.dst p.msg
    rw [List.length_append] at hq hh
    rw [List.length_singleton] at hh
    simp only [State.weight, State.recorded, State.record, hw, List.length_append,
      List.length_cons]
    have hle : (d + 1) * ∑ v ∈ ids,
        (Function.update s.queue p.dst (s.queue p.dst ++ relay p.dst p.msg) v).length ≤
          (d + 1) * ((∑ v ∈ ids, (s.queue v).length) + 1) := Nat.mul_le_mul_left _ (by omega)
    have heq : (d + 1) * ∑ v ∈ ids,
        (Function.update s.hist p.dst (s.hist p.dst ++ [p.msg.key]) v).length =
          (d + 1) * ((∑ v ∈ ids, (s.hist v).length) + 1) := by
      congr 1
      omega
    rw [Nat.mul_add, Nat.mul_one] at hle heq
    omega
  | stale l₁ p l₂ hw ho hx =>
    simp only [State.weight, State.recorded, hw, List.length_append, List.length_cons]
    omega
  | transmit v t q hq =>
    have hv : v ∈ ids := hs.queue v t (by simp [hq])
    have hsum := sum_length_update hv s.queue q
    have hpk := length_packets_le (hdeg v hv) t
    rw [hq, List.length_cons] at hsum
    simp only [State.weight, State.recorded, List.length_append]
    have heq : (d + 1) * ∑ v ∈ ids, (s.queue v).length =
        (d + 1) * ((∑ u ∈ ids, (Function.update s.queue v q u).length) + 1) := by
      congr 1
      omega
    rw [Nat.mul_add, Nat.mul_one] at heq
    omega

theorem Run.within (hr : Lts.Run (Lts.Only (Step peers knows order) fun _ e => e.Internal) s₀ tr s)
    (hclosed : ∀ v ∈ ids, ∀ w ∈ peers v, w ∈ ids) (h₀ : s₀.Within ids) : s.Within ids :=
  hr.invariant h₀ fun _ _ _ hs he => he.1.within he.2 hclosed hs

/-- A run without new messages is paid for. -/
theorem Run.length_add_weight_le
    (hr : Lts.Run (Lts.Only (Step peers knows order) fun _ e => e.Internal) s₀ tr s)
    (hclosed : ∀ v ∈ ids, ∀ w ∈ peers v, w ∈ ids) (hdeg : ∀ v ∈ ids, (peers v).length ≤ d)
    (h₀ : s₀.Within ids) :
    tr.length + s.weight ids d + (d + 1) * s₀.recorded ids ≤
      s₀.weight ids d + (d + 1) * s.recorded ids := by
  induction hr with
  | nil => simp
  | @snoc tr s s' e hr he ih =>
    have hstep := he.1.weight_le he.2 hdeg (Run.within hr hclosed h₀)
    rw [List.length_append, List.length_singleton]
    omega

omit [DecidableEq V] in
theorem originated_eq_nil (h : ∀ e ∈ tr, e.Internal) : originated tr = [] := by
  refine List.filterMap_eq_nil_iff.mpr fun e he => ?_
  cases e with
  | originate v m => exact (h _ he).elim
  | receive p b => rfl
  | transmit v t => rfl

theorem Run.internal
    (hr : Lts.Run (Lts.Only (Step peers knows order) fun _ e => e.Internal) s₀ tr s) :
    ∀ e ∈ tr, e.Internal := by
  induction hr with
  | nil => exact fun e he => absurd he List.not_mem_nil
  | snoc hr he ih =>
    intro e' he'
    rcases List.mem_append.mp he' with he' | he'
    · exact ih e' he'
    · obtain rfl := List.mem_singleton.mp he'
      exact he.2

/-- **A flood of few keys dies out**: when fewer keys are queued or in flight than the windows have
slots, all runs without new messages are short. -/
theorem Run.length_le [DecidableEq H] {K : Finset H}
    (hr : Lts.Run (Lts.Only (Step peers (BlindWindow.Visible c) order) fun _ e => e.Internal) s₀ tr s)
    (hclosed : ∀ v ∈ ids, ∀ w ∈ peers v, w ∈ ids) (hdeg : ∀ v ∈ ids, (peers v).length ≤ d)
    (h₀ : s₀.Within ids) (hK : s₀.All (fun _ t => t.msg.key ∈ K) fun p => p.msg.key ∈ K)
    (hcard : K.card < c) :
    tr.length ≤ s₀.weight ids d + (d + 1) * (ids.card * (K.card + 1)) := by
  have hpaid := Run.length_add_weight_le hr hclosed hdeg h₀
  have hnil := originated_eq_nil (Run.internal hr)
  have hgain : ∀ v ∈ ids, (s.hist v).length ≤ (s₀.hist v).length + (K.card + 1) := by
    intro v _
    obtain ⟨ps, hps, hlen⟩ := Run.hist_length_le hr.of_only hK (by simp [hnil])
      (by simp [hnil]) (by simpa [hnil] using hcard) v
    rw [hnil] at hlen
    rw [hps, List.length_append]
    exact Nat.add_le_add_left hlen _
  have hrec : s.recorded ids ≤ s₀.recorded ids + ids.card * (K.card + 1) := by
    unfold State.recorded
    calc ∑ v ∈ ids, (s.hist v).length
        ≤ ∑ v ∈ ids, ((s₀.hist v).length + (K.card + 1)) := Finset.sum_le_sum hgain
      _ = ∑ v ∈ ids, (s₀.hist v).length + ids.card * (K.card + 1) := by
        rw [Finset.sum_add_distrib, Finset.sum_const_nat fun _ _ => rfl]
  have := Nat.mul_le_mul_left (d + 1) hrec
  rw [Nat.mul_add] at this
  omega

end Dying

end Flood
