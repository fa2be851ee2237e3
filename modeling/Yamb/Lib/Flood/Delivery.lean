import Yamb.Lib.Flood.Model
import Mathlib.Data.List.Nodup
import Mathlib.Tactic.Linarith

/-!
# What a finished flood has delivered

* `own`, `freshAt`, `received` count the events of a trace, `originated` lists its keys; `tasks`,
  `inFlight` count what a state still holds;
* `Run.hist_count`: a history grows by the own and the freshly received keys;
* `State.All`, `Run.all`, `Run.msg_originated`: what holds of every task and every packet;
* **`Run.link_law`**: on a link, the copies that a node has recorded are queued, on the way, or
  received; `Run.flood_law` for a key without destination;
* **`Run.known_everywhere`**: in a quiet state a recorded key has reached every node;
* `Forgotten`, **`Run.count_le_one_iff`**: a key with one origin is recorded at most once if and only
  if no node is handed it after having recorded and forgotten it;
* **`Run.flood_once_iff`**: when every node has received a flooded key exactly once.
-/

set_option autoImplicit false

namespace Flood

variable {V H : Type} [DecidableEq V] [DecidableEq H]

/-! ### Counting events -/

def Event.isOwn (v : V) (h : H) : Event V H → Bool
  | .originate u m => decide (u = v ∧ m.key = h)
  | _ => false

def Event.isFresh (v : V) (h : H) : Event V H → Bool
  | .receive p true => decide (p.dst = v ∧ p.msg.key = h)
  | _ => false

def Event.isReceipt (u v : V) (h : H) : Event V H → Bool
  | .receive p _ => decide (p.src = u ∧ p.dst = v ∧ p.msg.key = h)
  | _ => false

/-- How often `v` originated the key `h`. -/
def own (v : V) (h : H) (tr : List (Event V H)) : ℕ := tr.countP (Event.isOwn v h)

/-- How often `v` received `h` and recorded it. -/
def freshAt (v : V) (h : H) (tr : List (Event V H)) : ℕ := tr.countP (Event.isFresh v h)

/-- How often `v` received `h` from `u`. -/
def received (u v : V) (h : H) (tr : List (Event V H)) : ℕ := tr.countP (Event.isReceipt u v h)

def Event.originated : Event V H → Option H
  | .originate _ m => some m.key
  | _ => none

/-- The keys a trace originates, in order. -/
def originated (tr : List (Event V H)) : List H := tr.filterMap Event.originated

omit [DecidableEq V] [DecidableEq H] in
theorem mem_originated {v : V} {m : Msg V H} {tr : List (Event V H)}
    (h : Event.originate v m ∈ tr) : m.key ∈ originated tr :=
  List.mem_filterMap.mpr ⟨_, h, rfl⟩

omit [DecidableEq V] [DecidableEq H] in
theorem originated_snoc (tr : List (Event V H)) (e : Event V H) :
    originated (tr ++ [e]) = originated tr ++ e.originated.toList := by
  cases e <;> simp [originated, Event.originated]

theorem own_eq_zero {h : H} {tr : List (Event V H)} (hn : h ∉ originated tr) (v : V) :
    own v h tr = 0 := by
  refine List.countP_eq_zero.mpr fun e he hown => hn ?_
  cases e with
  | originate u m =>
    obtain ⟨-, rfl⟩ := of_decide_eq_true hown
    exact mem_originated he
  | receive p b => cases hown
  | transmit u t => cases hown

theorem own_pos {v : V} {m : Msg V H} {tr : List (Event V H)} (hm : Event.originate v m ∈ tr) :
    0 < own v m.key tr :=
  List.countP_pos_iff.mpr ⟨_, hm, decide_eq_true ⟨rfl, rfl⟩⟩

theorem exists_receive_of_freshAt {v : V} {h : H} {tr : List (Event V H)}
    (hpos : 0 < freshAt v h tr) :
    ∃ p, Event.receive p true ∈ tr ∧ p.dst = v ∧ p.msg.key = h := by
  obtain ⟨e, he, hfresh⟩ := List.countP_pos_iff.mp hpos
  cases e with
  | originate u m => cases hfresh
  | transmit u t => cases hfresh
  | receive p b =>
    cases b with
    | false => cases hfresh
    | true => exact ⟨p, he, of_decide_eq_true hfresh⟩

/-- When keys are originated once, a message is its key's only one. -/
theorem originate_unique {tr : List (Event V H)} (hkeys : (originated tr).Nodup) {u : V}
    {m : Msg V H} (hm : Event.originate u m ∈ tr) :
    (∀ v, own v m.key tr = if v = u then 1 else 0) ∧
      ∀ v m', Event.originate v m' ∈ tr → m'.key = m.key → v = u ∧ m' = m := by
  refine ⟨fun v => ?_, fun v m' hm' hk => ?_⟩
  · obtain ⟨l₁, l₂, rfl⟩ := List.append_of_mem hm
    have hsplit : originated (l₁ ++ .originate u m :: l₂) =
        originated l₁ ++ m.key :: originated l₂ := by
      simp [originated, Event.originated]
    rw [hsplit, List.nodup_middle, List.nodup_cons, List.mem_append, not_or] at hkeys
    have h₁ := own_eq_zero hkeys.1.1 v
    have h₂ := own_eq_zero hkeys.1.2 v
    simp only [own, List.countP_append, List.countP_cons, Event.isOwn, and_true,
      decide_eq_true_eq] at h₁ h₂ ⊢
    rw [h₁, h₂, Nat.zero_add, Nat.zero_add]
    simp only [eq_comm]
  · have heq := Lts.eq_of_nodup_filterMap hkeys hm' hm (congrArg some hk) rfl
    cases heq
    exact ⟨rfl, rfl⟩

/-- The tasks for `h` queued at `v`. -/
def State.tasks (s : State V H) (v : V) (h : H) : ℕ :=
  (s.queue v).countP fun t => decide (t.msg.key = h)

/-- The packets with `h` on the way from `u` to `v`. -/
def State.inFlight (s : State V H) (u v : V) (h : H) : ℕ :=
  s.wire.countP fun p => decide (p.src = u ∧ p.dst = v ∧ p.msg.key = h)

section Counting

variable (v w : V) (h : H) (tr : List (Event V H))

theorem own_snoc (e : Event V H) :
    own v h (tr ++ [e]) = own v h tr + if e.isOwn v h then 1 else 0 := by
  simp [own, List.countP_append, List.countP_singleton]

theorem freshAt_snoc (e : Event V H) :
    freshAt v h (tr ++ [e]) = freshAt v h tr + if e.isFresh v h then 1 else 0 := by
  simp [freshAt, List.countP_append, List.countP_singleton]

theorem received_snoc (e : Event V H) :
    received v w h (tr ++ [e]) = received v w h tr + if e.isReceipt v w h then 1 else 0 := by
  simp [received, List.countP_append, List.countP_singleton]

omit tr in
theorem count_hist_record (s : State V H) (u : V) (k : H) (ts : List (Task V H)) :
    ((s.record u k ts).hist v).count h = (s.hist v).count h + if u = v ∧ k = h then 1 else 0 := by
  by_cases huv : u = v
  · subst huv
    simp [List.count_append, List.count_singleton]
  · rw [State.record_hist_of_ne _ (Ne.symm huv)]
    simp [huv]

theorem tasks_record (s : State V H) (u : V) (k : H) (ts : List (Task V H)) :
    (s.record u k ts).tasks v h =
      s.tasks v h + if u = v then ts.countP fun t => decide (t.msg.key = h) else 0 := by
  unfold State.tasks
  split_ifs with huv
  · subst huv
    rw [State.record_queue_self, List.countP_append]
  · rw [State.record_queue_of_ne _ (Ne.symm huv), Nat.add_zero]

theorem tasks_update (s : State V H) (u : V) (t : Task V H) (q : List (Task V H))
    (hq : s.queue u = t :: q) (l : List (Packet V H)) :
    ({ s with queue := Function.update s.queue u q, wire := l } : State V H).tasks v h +
      (if u = v ∧ t.msg.key = h then 1 else 0) = s.tasks v h := by
  unfold State.tasks
  by_cases huv : u = v
  · subst huv
    simp only [Function.update_self, hq, List.countP_cons, true_and, decide_eq_true_eq]
  · simp only [Function.update_of_ne (Ne.symm huv), huv, false_and, if_false, Nat.add_zero]

theorem inFlight_remove (s : State V H) (l₁ l₂ : List (Packet V H)) (p : Packet V H)
    (hw : s.wire = l₁ ++ p :: l₂) :
    s.inFlight v w h = ({ s with wire := l₁ ++ l₂ } : State V H).inFlight v w h +
      if p.src = v ∧ p.dst = w ∧ p.msg.key = h then 1 else 0 := by
  simp only [State.inFlight, hw, List.countP_append, List.countP_cons, decide_eq_true_eq]
  omega

theorem inFlight_append (s : State V H) (q : V → List (Task V H)) (l : List (Packet V H)) :
    ({ s with queue := q, wire := s.wire ++ l } : State V H).inFlight v w h = s.inFlight v w h +
      l.countP fun p => decide (p.src = v ∧ p.dst = w ∧ p.msg.key = h) :=
  List.countP_append

end Counting

variable {peers : V → List V} {knows : List H → H → Prop}
  {order : List (Packet V H) → Packet V H → Prop} {s₀ s : State V H} {tr : List (Event V H)}

theorem Run.hist_count (hr : Lts.Run (Step peers knows order) s₀ tr s) (v : V) (h : H) :
    (s.hist v).count h = (s₀.hist v).count h + own v h tr + freshAt v h tr := by
  refine hr.trace_invariant
    (I := fun tr s => (s.hist v).count h = (s₀.hist v).count h + own v h tr + freshAt v h tr)
    (by simp [own, freshAt]) fun tr s e s' ih hs => ?_
  rw [own_snoc, freshAt_snoc]
  cases hs with
  | originate u m =>
    rw [count_hist_record]
    simp only [Event.isOwn, Event.isFresh, decide_eq_true_eq, Bool.false_eq_true, if_false]
    omega
  | fresh l₁ p l₂ hw ho hx =>
    rw [count_hist_record]
    simp only [Event.isOwn, Event.isFresh, decide_eq_true_eq, Bool.false_eq_true, if_false]
    omega
  | stale l₁ p l₂ hw ho hx => simpa [Event.isOwn, Event.isFresh] using ih
  | transmit u t q hq => simpa [Event.isOwn, Event.isFresh] using ih

/-- What has been received was recorded. -/
theorem Run.mem_hist_of_received (hrec : ∀ L x, knows L x → x ∈ L)
    (hr : Lts.Run (Step peers knows order) s₀ tr s) {u v : V} {h : H}
    (hrc : 0 < received u v h tr) : h ∈ s.hist v := by
  refine hr.trace_invariant (I := fun tr s => 0 < received u v h tr → h ∈ s.hist v)
    (fun h₀ => absurd h₀ (by simp [received])) (fun tr s e s' ih hs => ?_) hrc
  have hkeep : ∀ (s : State V H) (x : V) (k : H) (ts : List (Task V H)), h ∈ s.hist v →
      h ∈ (s.record x k ts).hist v := by
    intro s x k ts hm
    rw [← List.count_pos_iff] at hm ⊢
    rw [count_hist_record]
    omega
  rw [received_snoc]
  intro hpos
  cases hs with
  | originate x m => exact hkeep _ _ _ _ (ih (by simpa [Event.isReceipt] using hpos))
  | fresh l₁ p l₂ hw ho hx =>
    by_cases hp : p.dst = v ∧ p.msg.key = h
    · rw [← hp.1, ← hp.2, State.record_hist_self]
      exact List.mem_append_right _ (List.mem_singleton.mpr rfl)
    · refine hkeep _ _ _ _ (ih ?_)
      have : ¬ (p.src = u ∧ p.dst = v ∧ p.msg.key = h) := fun hc => hp hc.2
      simpa [Event.isReceipt, this] using hpos
  | stale l₁ p l₂ hw ho hx =>
    by_cases hp : p.dst = v ∧ p.msg.key = h
    · rw [← hp.1, ← hp.2]
      exact hrec _ _ hx
    · refine ih ?_
      have : ¬ (p.src = u ∧ p.dst = v ∧ p.msg.key = h) := fun hc => hp hc.2
      simpa [Event.isReceipt, this] using hpos
  | transmit x t q hq => exact ih (by simpa [Event.isReceipt] using hpos)

/-! ### What every message satisfies -/

omit [DecidableEq V] [DecidableEq H] in
theorem mem_of_mem_removed {s : State V H} {l₁ l₂ : List (Packet V H)} {p q : Packet V H}
    (hw : s.wire = l₁ ++ p :: l₂) (hq : q ∈ l₁ ++ l₂) : q ∈ s.wire := by
  rw [hw]
  rcases List.mem_append.mp hq with hq | hq
  · exact List.mem_append_left _ hq
  · exact List.mem_append_right _ (List.mem_cons_of_mem _ hq)

/-- Every queued task satisfies `Q` where it is queued, every packet in flight satisfies `W`. -/
structure State.All (s : State V H) (Q : V → Task V H → Prop) (W : Packet V H → Prop) : Prop where
  queue : ∀ v, ∀ t ∈ s.queue v, Q v t
  wire : ∀ p ∈ s.wire, W p

section All

variable {Q : V → Task V H → Prop} {W : Packet V H → Prop}

omit [DecidableEq V] [DecidableEq H] in
theorem State.Quiet.all (hq : s.Quiet) : s.All Q W :=
  ⟨fun v t ht => absurd ht (by simp [hq.1 v]), fun p hp => absurd hp (by simp [hq.2])⟩

omit [DecidableEq H] in
theorem State.All.record (hs : s.All Q W) (v : V) (k : H) {ts : List (Task V H)}
    (hts : ∀ t ∈ ts, Q v t) : (s.record v k ts).All Q W := by
  refine ⟨fun u t ht => ?_, hs.wire⟩
  by_cases huv : u = v
  · subst huv
    rw [State.record_queue_self] at ht
    rcases List.mem_append.mp ht with ht | ht
    · exact hs.queue u t ht
    · exact hts t ht
  · rw [State.record_queue_of_ne _ huv] at ht
    exact hs.queue u t ht

omit [DecidableEq H] in
theorem Step.all {e : Event V H} {s' : State V H} (hst : Step peers knows order s e s')
    (hs : s.All Q W) (hown : ∀ v m, e = .originate v m → Q v (ownTask peers v m))
    (hrelay : ∀ p, e = .receive p true → W p → ∀ t ∈ relay p.dst p.msg, Q p.dst t)
    (hsend : ∀ v t, Q v t → ∀ p ∈ t.packets peers v, W p) : s'.All Q W := by
  cases hst with
  | originate v m =>
    refine hs.record v _ fun t ht => ?_
    obtain rfl := List.mem_singleton.mp ht
    exact hown v m rfl
  | fresh l₁ p l₂ hw ho hx =>
    have hs' : ({ s with wire := l₁ ++ l₂ } : State V H).All Q W :=
      ⟨hs.queue, fun q hq => hs.wire q (mem_of_mem_removed hw hq)⟩
    exact hs'.record _ _ (hrelay p rfl (hs.wire p (by simp [hw])))
  | stale l₁ p l₂ hw ho hx =>
    exact ⟨hs.queue, fun q hq => hs.wire q (mem_of_mem_removed hw hq)⟩
  | transmit v t q hq =>
    refine ⟨fun u t' ht' => hs.queue u t' ?_, fun p hp => ?_⟩
    · by_cases huv : u = v
      · subst huv
        simp only [Function.update_self] at ht'
        rw [hq]
        exact List.mem_cons_of_mem _ ht'
      · simpa only [Function.update_of_ne huv] using ht'
    · rcases List.mem_append.mp hp with hp | hp
      · exact hs.wire p hp
      · exact hsend v t (hs.queue v t (by simp [hq])) p hp

omit [DecidableEq H] in
theorem Step.mem_wire_of_receive {p : Packet V H} {b : Bool} {s' : State V H}
    (hst : Step peers knows order s (.receive p b) s') : p ∈ s.wire := by
  cases hst with
  | fresh l₁ _ l₂ hw => simp [hw]
  | stale l₁ _ l₂ hw => simp [hw]

omit [DecidableEq H] in
/-- What holds of the tasks a run originates, and is passed on by relays and transmissions, holds
of every task and packet. -/
theorem Run.all (hr : Lts.Run (Step peers knows order) s₀ tr s) (h₀ : s₀.All Q W)
    (hown : ∀ v m, Event.originate v m ∈ tr → Q v (ownTask peers v m))
    (hrelay : ∀ p, Event.receive p true ∈ tr → W p → ∀ t ∈ relay p.dst p.msg, Q p.dst t)
    (hsend : ∀ v t, Q v t → ∀ p ∈ t.packets peers v, W p) :
    s.All Q W ∧ ∀ p b, Event.receive p b ∈ tr → W p := by
  induction hr with
  | nil => exact ⟨h₀, fun p b hm => absurd hm List.not_mem_nil⟩
  | @snoc tr s s' e _ he ih =>
    obtain ⟨hs, hrec⟩ := ih (fun v m hm => hown v m (List.mem_append_left _ hm))
      fun p hm => hrelay p (List.mem_append_left _ hm)
    refine ⟨he.all hs (fun v m hm => hown v m (by simp [hm])) (fun p hm => hrelay p (by simp [hm]))
      hsend, fun p b hm => ?_⟩
    rcases List.mem_append.mp hm with hm | hm
    · exact hrec p b hm
    · obtain rfl := List.mem_singleton.mp hm
      exact hs.wire p he.mem_wire_of_receive

end All

omit [DecidableEq H] in
/-- Every message in circulation is one that was originated. -/
theorem Run.msg_originated (hr : Lts.Run (Step peers knows order) s₀ tr s) (hq : s₀.Quiet) :
    s.All (fun _ t => ∃ v, Event.originate v t.msg ∈ tr)
        (fun p => ∃ v, Event.originate v p.msg ∈ tr) ∧
      ∀ p b, Event.receive p b ∈ tr → ∃ v, Event.originate v p.msg ∈ tr := by
  refine Run.all hr hq.all (fun v m hm => ⟨v, hm⟩) (fun p _ hp t ht => ?_) fun v t ht p hp => ?_
  · rw [relay_msg ht]
    exact hp
  · rw [(mem_packets hp).2.2]
    exact ht

/-- The messages with key `h` that a trace originates are for `d`. -/
def OriginatesTo (h : H) (d : Option V) (tr : List (Event V H)) : Prop :=
  ∀ v m, Event.originate v m ∈ tr → m.key = h → m.dest = d

omit [DecidableEq H] in
/-- Relays keep the destination. -/
theorem Run.dest_eq {h : H} {d : Option V} (hr : Lts.Run (Step peers knows order) s₀ tr s)
    (hq : s₀.Quiet) (hd : OriginatesTo h d tr) {p : Packet V H} {b : Bool}
    (hp : Event.receive p b ∈ tr) (hk : p.msg.key = h) : p.msg.dest = d := by
  obtain ⟨v, hv⟩ := (Run.msg_originated hr hq).2 p b hp
  exact hd v p.msg hv hk

/-! ### Conservation of copies -/

/-- A packet with `h` from `v` to `w`. -/
def onLink (v w : V) (h : H) (p : Packet V H) : Bool :=
  decide (p.src = v ∧ p.dst = w ∧ p.msg.key = h)

theorem countP_packets_of_not {u v w : V} {h : H} {t : Task V H}
    (hne : ¬ (u = v ∧ t.msg.key = h)) : (t.packets peers u).countP (onLink v w h) = 0 := by
  rw [List.countP_eq_zero]
  intro p hp
  obtain ⟨hsrc, -, hmsg⟩ := mem_packets hp
  simp only [onLink, decide_eq_true_eq, hsrc, hmsg]
  rintro ⟨hu, -, hk⟩
  exact hne ⟨hu, hk⟩

theorem countP_packets_flood (hnd : ∀ v, (peers v).Nodup) {v w : V} (hw : w ∈ peers v)
    (m : Msg V H) :
    ((⟨false, m⟩ : Task V H).packets peers v).countP (onLink v w m.key) = 1 := by
  rw [packets_flood, List.countP_map, ← List.count_eq_one_of_mem (hnd v) hw, List.count]
  refine List.countP_congr fun x _ => ?_
  simp [onLink]

theorem countP_packets_direct {v w : V} (hw : w ∈ peers v) {m : Msg V H} (hd : m.dest = some w) :
    ((⟨true, m⟩ : Task V H).packets peers v).countP (onLink v w m.key) = 1 := by
  rw [packets_direct v w m hd, if_pos hw]
  simp [onLink]

theorem countP_ownTask (v : V) (h : H) (m : Msg V H) :
    [ownTask peers v m].countP (fun t => decide (t.msg.key = h)) = if m.key = h then 1 else 0 := by
  simp [List.countP_singleton, ownTask]

/-- A relay that answers `h` with one task answers other keys with no task for `h`. -/
theorem countP_relay {v : V} {h : H} {p : Packet V H}
    (hrelay : p.dst = v → p.msg.key = h → ∃ t, relay v p.msg = [t]) :
    (if p.dst = v then (relay p.dst p.msg).countP fun t => decide (t.msg.key = h) else 0) =
      if p.dst = v ∧ p.msg.key = h then 1 else 0 := by
  by_cases hv : p.dst = v
  · by_cases hk : p.msg.key = h
    · obtain ⟨t, ht⟩ := hrelay hv hk
      have hmem : t ∈ relay v p.msg := by simp [ht]
      rw [if_pos hv, if_pos ⟨hv, hk⟩, hv, ht]
      simp [relay_msg hmem, hk]
    · rw [if_pos hv, if_neg fun hc => hk hc.2, List.countP_eq_zero]
      intro t ht
      simpa [relay_msg ht] using hk
  · rw [if_neg hv, if_neg fun hc => hv hc.1]

/-- What a state holds of `h` for a link grows by what the sender records and shrinks by what the
receiver gets, when every task for `h` at the sender is one packet on the link. -/
theorem Step.balance {v w : V} {h : H} {e : Event V H} {s' : State V H}
    (he : Step peers knows order s e s')
    (hone : ∀ t ∈ s.queue v, t.msg.key = h → (t.packets peers v).countP (onLink v w h) = 1)
    (hrelay : ∀ p, e = .receive p true → p.dst = v → p.msg.key = h → ∃ t, relay v p.msg = [t]) :
    s'.tasks v h + s'.inFlight v w h + (if e.isReceipt v w h then 1 else 0) =
      s.tasks v h + s.inFlight v w h + (if e.isOwn v h then 1 else 0) +
        if e.isFresh v h then 1 else 0 := by
  cases he with
  | originate u m =>
    rw [tasks_record, countP_ownTask]
    simp only [Event.isOwn, Event.isFresh, Event.isReceipt, decide_eq_true_eq, Bool.false_eq_true,
      if_false, ite_and]
    show _ + s.inFlight v w h + _ = _
    omega
  | fresh l₁ p l₂ hw ho hx =>
    have hin := inFlight_remove v w h s l₁ l₂ p hw
    rw [tasks_record, countP_relay (hrelay p rfl)]
    simp only [Event.isOwn, Event.isFresh, Event.isReceipt, decide_eq_true_eq, Bool.false_eq_true,
      if_false] at hin ⊢
    show s.tasks v h + _ + ({ s with wire := l₁ ++ l₂ } : State V H).inFlight v w h + _ = _
    omega
  | stale l₁ p l₂ hw ho hx =>
    have hin := inFlight_remove v w h s l₁ l₂ p hw
    simp only [Event.isOwn, Event.isFresh, Event.isReceipt, decide_eq_true_eq, Bool.false_eq_true,
      if_false] at hin ⊢
    show s.tasks v h + _ + _ = _
    omega
  | transmit u t q hq =>
    have hsent := tasks_update v h s u t q hq (s.wire ++ t.packets peers u)
    have hpk : (t.packets peers u).countP (onLink v w h) =
        if u = v ∧ t.msg.key = h then 1 else 0 := by
      split_ifs with huk
      · obtain ⟨rfl, hk⟩ := huk
        exact hone t (by simp [hq]) hk
      · exact countP_packets_of_not huk
    have hin := inFlight_append v w h s (Function.update s.queue u q) (t.packets peers u)
    change _ = _ + (t.packets peers u).countP (onLink v w h) at hin
    rw [hin, hpk]
    simp only [Event.isOwn, Event.isFresh, Event.isReceipt, Bool.false_eq_true, if_false]
    omega

/-- The tasks of a node for `h` are one packet on the link when those it makes are. -/
theorem Run.one_packet {v w : V} {h : H} (hr : Lts.Run (Step peers knows order) s₀ tr s)
    (hq : s₀.Quiet)
    (hown : ∀ m, Event.originate v m ∈ tr → m.key = h →
      ((ownTask peers v m).packets peers v).countP (onLink v w h) = 1)
    (hrelay : ∀ p, Event.receive p true ∈ tr → p.dst = v → p.msg.key = h →
      ∃ t, relay v p.msg = [t] ∧ (t.packets peers v).countP (onLink v w h) = 1) :
    ∀ t ∈ s.queue v, t.msg.key = h → (t.packets peers v).countP (onLink v w h) = 1 := by
  let Q : V → Task V H → Prop := fun u t =>
    u = v → t.msg.key = h → (t.packets peers v).countP (onLink v w h) = 1
  have hall := Run.all (Q := Q) (W := fun _ => True) hr hq.all
    (fun u m hm hu hk => hu ▸ hown m (hu ▸ hm) hk) (fun p hp _ t ht hu hk => ?_)
    fun _ _ _ _ _ => trivial
  · exact fun t ht => hall.1.queue v t ht rfl
  · rw [relay_msg ht] at hk
    obtain ⟨t', ht', hone⟩ := hrelay p hp hu hk
    rw [hu, ht', List.mem_singleton] at ht
    rwa [ht]

/-- **Copies are conserved on a link**: when every task that `v` makes for `h` is one packet to `w`,
each copy that `v` has recorded is still queued, on the way to `w`, or received by `w`. -/
theorem Run.link_law {v w : V} {h : H} (hr : Lts.Run (Step peers knows order) s₀ tr s)
    (hq : s₀.Quiet)
    (hown : ∀ m, Event.originate v m ∈ tr → m.key = h →
      ((ownTask peers v m).packets peers v).countP (onLink v w h) = 1)
    (hrelay : ∀ p, Event.receive p true ∈ tr → p.dst = v → p.msg.key = h →
      ∃ t, relay v p.msg = [t] ∧ (t.packets peers v).countP (onLink v w h) = 1) :
    own v h tr + freshAt v h tr = s.tasks v h + s.inFlight v w h + received v w h tr := by
  induction hr with
  | nil => simp [own, freshAt, received, State.tasks, State.inFlight, hq.1 v, hq.2]
  | @snoc tr s s' e hr he ih =>
    have hown' := fun m hm => hown m (List.mem_append_left [e] hm)
    have hrelay' := fun p hp => hrelay p (List.mem_append_left [e] hp)
    have hbal := he.balance (Run.one_packet hr hq hown' hrelay') fun p hp hv hk => ?_
    · have ih := ih hown' hrelay'
      rw [own_snoc, freshAt_snoc, received_snoc]
      omega
    · obtain ⟨t, ht, -⟩ := hrelay p (by simp [hp]) hv hk
      exact ⟨t, ht⟩

/-! ### Keys without destination -/

/-- Of a flooded key, every node has recorded as many copies as it has tasks queued, packets on the
way to a given neighbour, and packets received by that neighbour. -/
theorem Run.flood_law (hnd : ∀ v, (peers v).Nodup) {h : H}
    (hr : Lts.Run (Step peers knows order) s₀ tr s) (hq : s₀.Quiet) (hf : OriginatesTo h none tr)
    {v w : V} (hw : w ∈ peers v) :
    own v h tr + freshAt v h tr = s.tasks v h + s.inFlight v w h + received v w h tr := by
  refine Run.link_law hr hq (fun m hm hk => ?_) fun p hp hv hk => ?_
  · rw [ownTask_of_none (hf v m hm hk), ← hk]
    exact countP_packets_flood hnd hw m
  · refine ⟨_, relay_of_none (Run.dest_eq hr hq hf hp hk), ?_⟩
    rw [← hk]
    exact countP_packets_flood hnd hw p.msg

/-- In a quiet state every neighbour of a node has received each copy the node recorded. -/
theorem Run.received_eq (hnd : ∀ v, (peers v).Nodup) {h : H}
    (hr : Lts.Run (Step peers knows order) s₀ tr s) (hq₀ : s₀.Quiet) (hq : s.Quiet)
    (hf : OriginatesTo h none tr) {v w : V} (hw : w ∈ peers v) :
    received v w h tr = own v h tr + freshAt v h tr := by
  have := Run.flood_law hnd hr hq₀ hf hw
  simp only [State.tasks, State.inFlight, hq.1 v, hq.2, List.countP_nil] at this
  omega

/-- `v` is reached from `u` over links of the overlay. -/
def Reach (peers : V → List V) (u v : V) : Prop :=
  Relation.ReflTransGen (fun a b => b ∈ peers a) u v

/-- **A flooded key reaches every node.** -/
theorem Run.known_everywhere (hnd : ∀ v, (peers v).Nodup) (hrec : ∀ L x, knows L x → x ∈ L)
    {h : H} (hr : Lts.Run (Step peers knows order) s₀ tr s) (hq₀ : s₀.Quiet) (hq : s.Quiet)
    (hf : OriginatesTo h none tr) (hnew : ∀ v, h ∉ s₀.hist v) {u v : V} (hu : h ∈ s.hist u)
    (hpath : Reach peers u v) : h ∈ s.hist v := by
  induction hpath with
  | refl => exact hu
  | @tail a b _ hb ih =>
    have hcount := Run.hist_count hr a h
    rw [List.count_eq_zero_of_not_mem (hnew a)] at hcount
    have hpos := List.count_pos_iff.mpr ih
    have hrc := Run.received_eq hnd hr hq₀ hq hf hb
    exact Run.mem_hist_of_received hrec hr (u := a) (by omega)

/-- A key with one origin is only recorded where its copies can get to, and after it has been
originated. -/
theorem Run.reach_of_mem_hist {u v : V} {h : H} (hr : Lts.Run (Step peers knows order) s₀ tr s)
    (hq₀ : s₀.Quiet) (hnew : ∀ v, h ∉ s₀.hist v) (hother : ∀ v, v ≠ u → own v h tr = 0)
    (hv : h ∈ s.hist v) : Reach peers u v ∧ 0 < own u h tr := by
  have horigin : ∀ {x : V} {m : Msg V H}, Event.originate x m ∈ tr → m.key = h →
      x = u ∧ 0 < own u h tr := by
    rintro x m hm rfl
    have hpos := own_pos hm
    obtain rfl : x = u := by
      by_contra hxu
      rw [hother x hxu] at hpos
      exact absurd hpos (Nat.lt_irrefl 0)
    exact ⟨rfl, hpos⟩
  let Q : V → Task V H → Prop := fun x t => t.msg.key = h → Reach peers u x
  let W : Packet V H → Prop := fun p => p.msg.key = h → Reach peers u p.dst
  have hreach := (Run.all (Q := Q) (W := W) hr hq₀.all
    (fun x m hm hk => (horigin hm hk).1 ▸ Relation.ReflTransGen.refl)
    (fun p _ hp t ht hk => hp (relay_msg ht ▸ hk)) fun x t ht p hp hk => by
      obtain ⟨-, hdst, hmsg⟩ := mem_packets hp
      exact (ht (hmsg ▸ hk)).tail hdst).2
  have hcount := Run.hist_count hr v h
  rw [List.count_eq_zero_of_not_mem (hnew v), Nat.zero_add] at hcount
  rw [← List.count_pos_iff, hcount] at hv
  by_cases hvu : v = u
  · subst hvu
    refine ⟨.refl, ?_⟩
    by_contra hown
    obtain ⟨p, hp, -, hk⟩ := exists_receive_of_freshAt (show 0 < freshAt v h tr by omega)
    obtain ⟨x, hx⟩ := (Run.msg_originated hr hq₀).2 p true hp
    exact hown (horigin hx hk).2
  · rw [hother v hvu, Nat.zero_add] at hv
    obtain ⟨p, hp, rfl, hk⟩ := exists_receive_of_freshAt hv
    obtain ⟨x, hx⟩ := (Run.msg_originated hr hq₀).2 p true hp
    exact ⟨hreach p true hp hk, (horigin hx hk).2⟩

/-! ### Forgetting -/

/-- The receipt of `h` by `w`, which has recorded and forgotten it. -/
def Forgotten (w : V) (h : H) (s : State V H) : Event V H → Prop
  | .receive p true => p.dst = w ∧ p.msg.key = h ∧ h ∈ s.hist w
  | _ => False

theorem count_record_le_one {v w : V} {h k : H} {ts : List (Task V H)}
    (hone : (s.hist w).count h ≤ 1) (hk : v = w → k = h → h ∉ s.hist w) :
    ((s.record v k ts).hist w).count h ≤ 1 := by
  rw [count_hist_record]
  split_ifs with hvk
  · rw [List.count_eq_zero_of_not_mem (hk hvk.1 hvk.2)]
  · exact hone

/-- As long as `w` forgets nothing, it records a key with one origin at most once. -/
theorem Run.count_le_one {u w : V} {h : H}
    (hr : Lts.Run (Lts.Only (Step peers knows order) fun s e => ¬ Forgotten w h s e) s₀ tr s)
    (hq₀ : s₀.Quiet) (hnew : ∀ v, h ∉ s₀.hist v) (hu : own u h tr ≤ 1)
    (hother : ∀ v, v ≠ u → own v h tr = 0) : (s.hist w).count h ≤ 1 := by
  induction hr with
  | nil => simp [List.count_eq_zero_of_not_mem (hnew w)]
  | @snoc tr s s' e hr he ih =>
    obtain ⟨he, hforg⟩ := he
    have hother' : ∀ v, v ≠ u → own v h tr = 0 := fun v hv => by
      have := hother v hv
      rw [own_snoc] at this
      omega
    rw [own_snoc] at hu
    have ih := ih (by omega) hother'
    cases he with
    | originate v m =>
      refine count_record_le_one ih fun hvw hk hmem => ?_
      have hown : Event.isOwn v h (.originate v m) = true := by simp [Event.isOwn, hk]
      obtain rfl : v = u := by
        by_contra hvu
        have := hother v hvu
        rw [own_snoc, if_pos hown] at this
        omega
      have := (Run.reach_of_mem_hist hr.of_only hq₀ hnew hother' hmem).2
      rw [if_pos hown] at hu
      omega
    | fresh l₁ p l₂ hw ho hx => exact count_record_le_one ih fun hvw hk hmem => hforg ⟨hvw, hk, hmem⟩
    | stale l₁ p l₂ hw ho hx => exact ih
    | transmit v t q hqv => exact ih

/-- **Recorded at most once if and only if nothing is forgotten**, for a key with one origin, at all
the nodes of interest. -/
theorem Run.count_le_one_iff {u : V} {h : H} (P : V → Prop)
    (hr : Lts.Run (Step peers knows order) s₀ tr s) (hq₀ : s₀.Quiet) (hnew : ∀ v, h ∉ s₀.hist v)
    (hu : own u h tr ≤ 1) (hother : ∀ v, v ≠ u → own v h tr = 0) :
    (∀ w, P w → (s.hist w).count h ≤ 1) ↔
      Lts.Run (Lts.Only (Step peers knows order) fun s e => ∀ w, P w → ¬ Forgotten w h s e)
        s₀ tr s := by
  constructor
  · intro hone
    have hcount := fun v => Run.hist_count hr v h
    simp only [List.count_eq_zero_of_not_mem (hnew _), Nat.zero_add] at hcount
    refine hr.restrict (fun tr => ∃ w, P w ∧ 2 ≤ own w h tr + freshAt w h tr) ?_ ?_ ?_
    · rintro ⟨w, hP, hw⟩
      have := hone w hP
      rw [hcount] at this
      omega
    · rintro tr e ⟨w, hP, hw⟩
      refine ⟨w, hP, ?_⟩
      rw [own_snoc, freshAt_snoc]
      omega
    · intro tr s e s' hr he hnot
      push Not at hnot
      obtain ⟨w, hP, hforg⟩ := hnot
      refine ⟨w, hP, ?_⟩
      cases e with
      | originate v m => exact hforg.elim
      | transmit v t => exact hforg.elim
      | receive p fresh =>
        cases fresh with
        | false => exact hforg.elim
        | true =>
          obtain ⟨hdst, hk, hmem⟩ := hforg
          have hc := Run.hist_count hr w h
          have hpos := List.count_pos_iff.mpr hmem
          rw [List.count_eq_zero_of_not_mem (hnew _)] at hc
          have hfresh : Event.isFresh w h (.receive p true) = true := by
            simp [Event.isFresh, hdst, hk]
          rw [own_snoc, freshAt_snoc, if_pos hfresh]
          omega
  · intro hgood w hP
    exact Run.count_le_one (w := w) (hgood.mono fun s e s' he => ⟨he.1, he.2 w hP⟩) hq₀ hnew hu
      hother

/-- **Exactly once if and only if nothing is forgotten**: in a quiet state every node that `u`
reaches has received the key of a flooded message once, and `u` never, precisely when no step of the
run handed the key to a node that had recorded and forgotten it. -/
theorem Run.flood_once_iff (hnd : ∀ v, (peers v).Nodup) (hrec : ∀ L x, knows L x → x ∈ L)
    (hr : Lts.Run (Step peers knows order) s₀ tr s) (hq₀ : s₀.Quiet) (hq : s.Quiet)
    (hkeys : (originated tr).Nodup) {u : V} {m : Msg V H} (hm : Event.originate u m ∈ tr)
    (hd : m.dest = none) (hnew : ∀ v, m.key ∉ s₀.hist v) :
    (∀ v, Reach peers u v → freshAt v m.key tr = if v = u then 0 else 1) ↔
      Lts.Run (Lts.Only (Step peers knows order) fun s e => ∀ w, ¬ Forgotten w m.key s e)
        s₀ tr s := by
  obtain ⟨hown, huniq⟩ := originate_unique hkeys hm
  have hu : own u m.key tr = 1 := by rw [hown, if_pos rfl]
  have hother : ∀ v, v ≠ u → own v m.key tr = 0 := fun v hv => by rw [hown, if_neg hv]
  have hf : OriginatesTo m.key none tr := fun v m' hm' hk => by rw [(huniq v m' hm' hk).2, hd]
  have hcount := fun v => Run.hist_count hr v m.key
  simp only [List.count_eq_zero_of_not_mem (hnew _), Nat.zero_add] at hcount
  have hone := Run.count_le_one_iff (fun _ => True) hr hq₀ hnew hu.le hother
  simp only [true_imp_iff] at hone
  rw [← hone]
  constructor
  · intro hdel v
    rcases Nat.eq_zero_or_pos ((s.hist v).count m.key) with hz | hpos
    · omega
    · have hmem := List.count_pos_iff.mp hpos
      have := hdel v (Run.reach_of_mem_hist hr hq₀ hnew hother hmem).1
      rw [hcount, this]
      by_cases hvu : v = u
      · subst hvu
        rw [hu, if_pos rfl]
      · rw [hother v hvu, if_neg hvu]
  · intro hone v hv
    have hone := hone v
    have hmemu : m.key ∈ s.hist u := List.count_pos_iff.mp (by rw [hcount, hu]; omega)
    have hmem := Run.known_everywhere hnd hrec hr hq₀ hq hf hnew hmemu hv
    have hpos := List.count_pos_iff.mpr hmem
    rw [hcount] at hone hpos
    by_cases hvu : v = u
    · subst hvu
      rw [if_pos rfl]
      omega
    · rw [hother v hvu] at hone hpos
      rw [if_neg hvu]
      omega

end Flood
