import Yamb.Lib.Flood.Storm
import Yamb.Lib.Flood.Windows

/-!
# Flooding keeps causes in front of their effects

Over channels that keep the order, a node that has recorded a flooded key sends it to each neighbour
ahead of every key that it records later.

* `Before`: in a list, one key in front of another;
* `State.coming`: the keys that are on the way to a neighbour or will be, in their order;
* `Ordered`, `Ordered.step`: one key in front of another at all nodes and on all links;
* **`Run.causal`**: what a node knew when it originated a key, every node has recorded before that key.
-/

set_option autoImplicit false

namespace Flood

variable {V H : Type}

/-! ### One key before another -/

/-- Every `j` in the list has an `i` in front of it. -/
def Before (i j : H) (l : List H) : Prop := ∀ l₁ l₂, l = l₁ ++ j :: l₂ → i ∈ l₁

variable {i j k : H} {l l' : List H}

theorem before_of_not_mem (h : j ∉ l) : Before i j l := by
  rintro l₁ l₂ rfl
  exact absurd (by simp) h

theorem Before.head_ne (h : Before i j (k :: l)) : k ≠ j := by
  rintro rfl
  exact absurd (h [] l rfl) List.not_mem_nil

theorem Before.of_cons (h : Before i j (k :: l)) (hk : k ≠ i) : Before i j l := by
  rintro l₁ l₂ rfl
  exact List.mem_of_ne_of_mem hk.symm (h (k :: l₁) l₂ rfl)

theorem Before.append (h : Before i j l) (h' : i ∉ l → Before i j l') : Before i j (l ++ l') := by
  intro l₁ l₂ heq
  rcases List.append_eq_append_iff.mp heq with ⟨a, rfl, hl'⟩ | ⟨a, rfl, ha⟩
  · by_cases hi : i ∈ l
    · exact List.mem_append_left _ hi
    · exact List.mem_append_right _ (h' hi a l₂ hl')
  · cases a with
    | nil =>
      by_contra hi
      rw [List.append_nil] at h'
      exact absurd (h' hi [] l₂ ha.symm) List.not_mem_nil
    | cons x a =>
      obtain ⟨rfl, -⟩ := List.cons.inj ha
      exact h l₁ a rfl

/-! ### What comes on a link -/

variable [DecidableEq V]

/-- The keys of the packets from `u` to `v`. -/
def keysOn (u v : V) (l : List (Packet V H)) : List H :=
  (l.filter fun p => decide (p.src = u ∧ p.dst = v)).map fun p => p.msg.key

/-- The keys on the way from `u` to `v`, and those of the packets that the tasks of `u` will bring. -/
def State.coming (peers : V → List V) (s : State V H) (u v : V) : List H :=
  s.chan u v ++ keysOn u v ((s.queue u).flatMap fun t => t.packets peers u)

variable {u v w : V} {peers : V → List V} {s s' s₀ : State V H}

theorem keysOn_append (l l' : List (Packet V H)) :
    keysOn u v (l ++ l') = keysOn u v l ++ keysOn u v l' := by
  simp only [keysOn, List.filter_append, List.map_append]

theorem mem_keysOn {l : List (Packet V H)} :
    k ∈ keysOn u v l ↔ ∃ p ∈ l, p.src = u ∧ p.dst = v ∧ p.msg.key = k := by
  simp only [keysOn, List.mem_map, List.mem_filter, decide_eq_true_eq, and_assoc]

theorem keysOn_packets_of_ne (h : u ≠ w) (t : Task V H) : keysOn u v (t.packets peers w) = [] := by
  refine List.eq_nil_iff_forall_not_mem.mpr fun x hx => ?_
  obtain ⟨p, hp, hsrc, -⟩ := mem_keysOn.mp hx
  exact h (hsrc.symm.trans (mem_packets hp).1)

theorem mem_coming_iff : k ∈ s.coming peers u v ↔
    (∃ p ∈ s.wire, p.src = u ∧ p.dst = v ∧ p.msg.key = k) ∨
      ∃ t ∈ s.queue u, ∃ p ∈ t.packets peers u, p.dst = v ∧ p.msg.key = k := by
  unfold State.coming
  rw [List.mem_append, mem_keysOn]
  refine or_congr mem_keysOn ?_
  constructor
  · rintro ⟨p, hp, -, hv, hk⟩
    obtain ⟨t, ht, hpt⟩ := List.mem_flatMap.mp hp
    exact ⟨t, ht, p, hpt, hv, hk⟩
  · rintro ⟨t, ht, p, hp, hv, hk⟩
    exact ⟨p, List.mem_flatMap.mpr ⟨t, ht, hp⟩, (mem_packets hp).1, hv, hk⟩

/-- A transmission leaves what comes on a link as it is. -/
theorem coming_transmit {t : Task V H} {q : List (Task V H)} (hq : s.queue w = t :: q) :
    ({ s with queue := Function.update s.queue w q
              wire := s.wire ++ t.packets peers w } : State V H).coming peers u v =
      s.coming peers u v := by
  change keysOn u v (s.wire ++ _) ++ keysOn u v _ = keysOn u v s.wire ++ keysOn u v _
  rw [keysOn_append]
  by_cases hu : u = w
  · subst hu
    simp only [Function.update_self, hq, List.flatMap_cons, keysOn_append, List.append_assoc]
  · rw [keysOn_packets_of_ne hu, List.append_nil]
    simp only [Function.update_of_ne hu]

/-- What a node records comes last on its links. -/
theorem coming_record (s : State V H) (w : V) {ts : List (Task V H)}
    (hts : ∀ t ∈ ts, t.msg.key = k) : ∃ ks, (s.record w k ts).coming peers u v =
      s.coming peers u v ++ ks ∧ ∀ x ∈ ks, x = k ∧ u = w ∧ v ∈ peers u := by
  by_cases hu : u = w
  · subst hu
    refine ⟨keysOn u v (ts.flatMap fun t => t.packets peers u), ?_, fun x hx => ?_⟩
    · unfold State.coming
      rw [State.record_queue_self, List.flatMap_append, keysOn_append, ← List.append_assoc]
      rfl
    · obtain ⟨p, hp, -, rfl, rfl⟩ := mem_keysOn.mp hx
      obtain ⟨t, ht, hpt⟩ := List.mem_flatMap.mp hp
      obtain ⟨-, hdst, hmsg⟩ := mem_packets hpt
      exact ⟨by rw [hmsg, hts t ht], rfl, hdst⟩
  · refine ⟨[], ?_, fun x hx => absurd hx List.not_mem_nil⟩
    unfold State.coming
    rw [State.record_queue_of_ne _ hu, List.append_nil]
    rfl

theorem coming_remove {l₁ l₂ : List (Packet V H)} {p : Packet V H}
    (hw : s.wire = l₁ ++ p :: l₂) (ho : fifo l₁ p) : s.coming peers p.src p.dst =
      p.msg.key :: ({ s with wire := l₁ ++ l₂ } : State V H).coming peers p.src p.dst := by
  unfold State.coming
  rw [chan_remove hw ho]
  rfl

theorem coming_remove_of_ne {l₁ l₂ : List (Packet V H)} {p : Packet V H}
    (hw : s.wire = l₁ ++ p :: l₂) (hne : ¬ (p.src = u ∧ p.dst = v)) : s.coming peers u v =
      ({ s with wire := l₁ ++ l₂ } : State V H).coming peers u v := by
  unfold State.coming
  rw [chan_remove_of_ne hw hne]

/-! ### One key before another everywhere -/

/-- `i` comes before `j` in every history, and on every link to a node that has not recorded `i`. -/
structure Ordered (peers : V → List V) (i j : H) (s : State V H) : Prop where
  hist : ∀ v, Before i j (s.hist v)
  coming : ∀ u v, i ∈ s.hist v ∨ Before i j (s.coming peers u v)

/-- What has been recorded of `i` is sent on. -/
def Spread (peers : V → List V) (i : H) (s : State V H) : Prop :=
  ∀ v w, w ∈ peers v → i ∈ s.hist v → i ∈ s.hist w ∨ i ∈ s.coming peers v w

theorem mem_hist_record (s : State V H) (w : V) (ts : List (Task V H)) (h : i ∈ s.hist v) :
    i ∈ (s.record w k ts).hist v := by
  by_cases hv : v = w
  · subst hv
    rw [State.record_hist_self]
    exact List.mem_append_left _ h
  · rwa [State.record_hist_of_ne _ hv]

/-- A node that records `j` has to know `i`. -/
theorem Ordered.record (h : Ordered peers i j s) (hspread : Spread peers i s) (w : V)
    {ts : List (Task V H)} (hts : ∀ t ∈ ts, t.msg.key = k) (hk : k = j → i ∈ s.hist w) :
    Ordered peers i j (s.record w k ts) where
  hist v := by
    by_cases hv : v = w
    · subst hv
      rw [State.record_hist_self]
      refine (h.hist v).append fun hi => before_of_not_mem fun hj => hi ?_
      exact hk (List.mem_singleton.mp hj).symm
    · rw [State.record_hist_of_ne _ hv]
      exact h.hist v
  coming u v := by
    rcases h.coming u v with hi | hb
    · exact .inl (mem_hist_record s w ts hi)
    · obtain ⟨ks, heq, hks⟩ : ∃ ks, (s.record w k ts).coming peers u v =
          s.coming peers u v ++ ks ∧ ∀ x ∈ ks, x = k ∧ u = w ∧ v ∈ peers u :=
        coming_record s w hts
      rw [heq]
      by_cases hj : j ∈ ks
      · obtain ⟨rfl, rfl, hv⟩ := hks j hj
        rcases hspread u v hv (hk rfl) with hi | hi
        · exact .inl (mem_hist_record s u ts hi)
        · exact .inr (hb.append fun hn => absurd hi hn)
      · exact .inr (hb.append fun _ => before_of_not_mem hj)

/-- A packet with `i` may go when its receiver knows `i`. -/
theorem Ordered.remove (h : Ordered peers i j s) {l₁ l₂ : List (Packet V H)} {p : Packet V H}
    (hw : s.wire = l₁ ++ p :: l₂) (ho : fifo l₁ p) (hi : p.msg.key = i → i ∈ s.hist p.dst) :
    Ordered peers i j { s with wire := l₁ ++ l₂ } where
  hist := h.hist
  coming u v := by
    by_cases hp : p.src = u ∧ p.dst = v
    · obtain ⟨rfl, rfl⟩ := hp
      rcases h.coming p.src p.dst with hmem | hb
      · exact .inl hmem
      · rw [coming_remove hw ho] at hb
        by_cases hk : p.msg.key = i
        · exact .inl (hi hk)
        · exact .inr (hb.of_cons hk)
    · rw [← coming_remove_of_ne hw hp]
      exact h.coming u v

variable {knows : List H → H → Prop} {order : List (Packet V H) → Packet V H → Prop}

/-- **The order stays**, as long as `j` is not originated anew. -/
theorem Ordered.step (h : Ordered peers i j s) (hspread : Spread peers i s)
    (hrec : ∀ L x, knows L x → x ∈ L) {e : Event V H} (he : Step peers knows fifo s e s')
    (hnew : ∀ v m, e = .originate v m → m.key ≠ j) : Ordered peers i j s' := by
  cases he with
  | originate v m =>
    refine h.record hspread v (fun t ht => ?_) fun hk => absurd hk (hnew v m rfl)
    rw [List.mem_singleton.mp ht]
    rfl
  | fresh l₁ p l₂ hw ho hx =>
    have hknown : p.msg.key = j → i ∈ s.hist p.dst := by
      rintro rfl
      refine (h.coming p.src p.dst).resolve_right fun hb => ?_
      rw [coming_remove hw ho] at hb
      exact hb.head_ne rfl
    have hrecord := h.record hspread p.dst
      (fun t (ht : t ∈ relay p.dst p.msg) => congrArg Msg.key (relay_msg ht)) hknown
    have hwire : (s.record p.dst p.msg.key (relay p.dst p.msg)).wire = l₁ ++ p :: l₂ := hw
    refine hrecord.remove hwire ho fun hk => ?_
    rw [State.record_hist_self, hk]
    exact List.mem_append_right _ (List.mem_singleton.mpr rfl)
  | stale l₁ p l₂ hw ho hx => exact h.remove hw ho fun hk => hk ▸ hrec _ _ hx
  | transmit v t q hq =>
    refine ⟨h.hist, fun u v => ?_⟩
    rw [coming_transmit hq]
    exact h.coming u v

variable [DecidableEq H] {tr t₁ t₂ : List (Event V H)}

/-- **A flooded key is sent on** to every neighbour. -/
theorem Run.spread (hnd : ∀ v, (peers v).Nodup) (hrec : ∀ L x, knows L x → x ∈ L)
    (hr : Lts.Run (Step peers knows order) s₀ tr s) (hq : s₀.Quiet) (hf : OriginatesTo i none tr)
    (hnew : ∀ v, i ∉ s₀.hist v) : Spread peers i s := by
  intro v w hw hi
  have hcount := Run.hist_count hr v i
  rw [List.count_eq_zero_of_not_mem (hnew v), Nat.zero_add] at hcount
  have hpos := List.count_pos_iff.mpr hi
  have hlaw := Run.flood_law hnd hr hq hf hw
  have hone : ∀ t ∈ s.queue v, t.msg.key = i → (t.packets peers v).countP (onLink v w i) = 1 := by
    refine Run.one_packet hr hq (fun m hm hk => ?_) fun p hp hv hk => ?_
    · rw [ownTask_of_none (hf v m hm hk), ← hk]
      exact countP_packets_flood hnd hw m
    · refine ⟨_, relay_of_none (Run.dest_eq hr hq hf hp hk), ?_⟩
      rw [← hk]
      exact countP_packets_flood hnd hw p.msg
  have hcases : 0 < received v w i tr ∨ 0 < s.inFlight v w i ∨ 0 < s.tasks v i := by omega
  rcases hcases with hrcv | hfly | htask
  · exact .inl (Run.mem_hist_of_received hrec hr hrcv)
  · obtain ⟨p, hp, hlink⟩ := List.countP_pos_iff.mp hfly
    exact .inr (mem_coming_iff.mpr (.inl ⟨p, hp, of_decide_eq_true hlink⟩))
  · obtain ⟨t, ht, hkey⟩ := List.countP_pos_iff.mp htask
    have hsent := hone t ht (of_decide_eq_true hkey)
    obtain ⟨p, hp, hlink⟩ := List.countP_pos_iff.mp (by omega :
      0 < (t.packets peers v).countP (onLink v w i))
    exact .inr (mem_coming_iff.mpr (.inr ⟨t, ht, p, hp, (of_decide_eq_true hlink).2⟩))

/-- A key that was not originated is nowhere. -/
theorem Run.ordered_of_not_originated (hr : Lts.Run (Step peers knows order) s₀ tr s)
    (hq : s₀.Quiet) (hnew : ∀ v, j ∉ s₀.hist v) (hj : j ∉ originated tr) : Ordered peers i j s where
  hist v := by
    refine before_of_not_mem fun hmem => ?_
    have hcount := Run.hist_count hr v j
    rw [List.count_eq_zero_of_not_mem (hnew v), own_eq_zero hj, Nat.zero_add] at hcount
    have hpos := List.count_pos_iff.mpr hmem
    obtain ⟨p, hp, -, hk⟩ := exists_receive_of_freshAt (hcount ▸ hpos)
    obtain ⟨u, hu⟩ := (Run.msg_originated hr hq).2 p true hp
    exact hj (hk ▸ mem_originated hu)
  coming u v := by
    refine .inr (before_of_not_mem fun hmem => ?_)
    have hall := Run.key_mem (K := fun _ => False) hr hq.all
    rcases mem_coming_iff.mp hmem with ⟨p, hp, -, -, rfl⟩ | ⟨t, ht, p, hp, -, rfl⟩
    · exact hj ((hall.wire p hp).resolve_left id)
    · rw [(mem_packets hp).2.2] at hj
      exact hj ((hall.queue u t ht).resolve_left id)

/-- **Causes come first**: when `v` had recorded a flooded key before it originated a message, every
node records that key before the message. -/
theorem Run.causal (hnd : ∀ v, (peers v).Nodup) (hrec : ∀ L x, knows L x → x ∈ L) {m : Msg V H}
    (hr : Lts.Run (Step peers knows fifo) s₀ (t₁ ++ .originate v m :: t₂) s) (hq : s₀.Quiet)
    (hkeys : (originated (t₁ ++ .originate v m :: t₂)).Nodup) (hnew : ∀ w, i ∉ s₀.hist w)
    (hnew' : ∀ w, m.key ∉ s₀.hist w) (hf : OriginatesTo i none (t₁ ++ .originate v m :: t₂))
    (hi : 0 < own v i t₁ + freshAt v i t₁) : Ordered peers i m.key s := by
  obtain ⟨s₁, s₂, hr₁, he, hr₂⟩ := hr.split
  have hbefore : m.key ∉ originated t₁ ∧ m.key ∉ originated t₂ := by
    rw [originated, List.filterMap_append, List.nodup_append] at hkeys
    obtain ⟨-, hnd₂, hdisj⟩ := hkeys
    have hcons : (Event.originate v m :: t₂).filterMap Event.originated =
      m.key :: originated t₂ := rfl
    rw [hcons] at hnd₂ hdisj
    exact ⟨fun h => hdisj _ h _ List.mem_cons_self rfl, (List.nodup_cons.mp hnd₂).1⟩
  have hf₁ : OriginatesTo i none t₁ := fun x m' hm' => hf x m' (List.mem_append_left _ hm')
  have hmem : i ∈ s₁.hist v := by
    rw [← List.count_pos_iff, Run.hist_count hr₁ v i]
    omega
  have hs₂ : Ordered peers i m.key s₂ := by
    cases he
    refine (Run.ordered_of_not_originated hr₁ hq hnew' hbefore.1).record
      (Run.spread hnd hrec hr₁ hq hf₁ hnew) v (fun t ht => ?_) fun _ => hmem
    rw [List.mem_singleton.mp ht]
    rfl
  clear hkeys hr
  induction hr₂ with
  | nil => exact hs₂
  | @snoc t₂ s s' e hr₂ he' ih =>
    have hf' : OriginatesTo i none (t₁ ++ .originate v m :: t₂) := fun x m' hm' => hf x m' (by
      rcases List.mem_append.mp hm' with h | h
      · exact List.mem_append_left _ h
      · refine List.mem_append_right _ ?_
        rw [← List.cons_append]
        exact List.mem_append_left _ h)
    have hj : m.key ∉ originated t₂ := fun h => hbefore.2 (by
      rw [originated, List.filterMap_append]
      exact List.mem_append_left _ h)
    refine (ih hf' ⟨hbefore.1, hj⟩).step
      (Run.spread hnd hrec (hr₁.trans (Lts.Run.cons he hr₂)) hq hf' hnew) hrec he' ?_
    rintro x m' rfl hk
    exact hbefore.2 (hk ▸ mem_originated (v := x) (m := m') (by simp))

end Flood
