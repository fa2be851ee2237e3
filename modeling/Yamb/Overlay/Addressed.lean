import Yamb.Lib.Flood.Addressed
import Yamb.Overlay.Network

/-!
# Addressed messages

The origin queues a direct task for a neighbour and a broadcast otherwise; a relay always queues a
direct task, and the sender thread drops a direct task whose target is not its neighbour.

* **`send2client_once_iff`**: the target runs its callbacks exactly once, and nobody else does, if and
  only if it is at most two hops away and the message does not reach it while its window holds the
  hash in slot `0` only;
* `twoHops_near`, `exists_dropped`: a path of four nodes; over two hops the message arrives, over
  three it is dropped.
-/

set_option autoImplicit false

namespace Yamb

open BlindWindow (Visible)

variable {O : Overlay} {order : List Packet → Packet → Prop} {N₀ N : Net} {H : PeerId → List Hash}
  {tr : List NetEvent}

/-- A copy of the message with this hash on its way to the node. -/
def IsCopyTo (v : PeerId) (h : Hash) (p : Packet) : Prop := p.dst = v ∧ p.msg.hash = h

/-- A run that hands the target no copy while it is blind to it, as a run of flooding. -/
theorem run_target_remembers (h₀ : O.Formed N₀ H) (hq₀ : O.Quiet N₀) {T : PeerId} {h : Hash}
    (hr : Lts.Run (Lts.Only (O.Step order) fun N e => ¬ O.BlindReceipt (IsCopyTo T h) N e) N₀ tr N)
    (hfew : (hashes tr).length < 500) (hd : O.Distinct H tr) :
    ∃ tr' s, Lts.Run (Lts.Only (Flood.Step O.peers (Visible 500) Flood.anyOrder) fun s e =>
        ¬ Flood.Forgotten T h s e) (O.start H) tr' s ∧
      O.Sim N s ∧ List.Forall₂ O.Matches tr tr' := by
  have hB : ∀ p : Packet, p.toFlood.dst = T ∧ p.toFlood.msg.key = h → IsCopyTo T h p :=
    fun _ hp => hp
  obtain ⟨tr', s, hrun, hsim, hm⟩ := run_flood_only (fun p => p.dst = T ∧ p.msg.key = h) hB h₀ hq₀
    hr hfew hd
  refine ⟨tr', s, hrun.mono fun s e s' he => ⟨he.1, fun hforg => ?_⟩, hsim, hm⟩
  cases e with
  | originate u m => exact hforg
  | transmit u t => exact hforg
  | receive p fresh =>
    cases fresh with
    | false => exact hforg
    | true =>
      obtain ⟨hdst, hk, hmem⟩ := hforg
      exact he.2 p rfl ⟨hdst, hk⟩ (hk ▸ hdst ▸ hmem)

/-- **Exactly once if and only if near and not blind**: a quiet state after fewer than 500 calls. -/
theorem send2client_once_iff (h₀ : O.Formed N₀ H) (hq₀ : O.Quiet N₀)
    (hr : Lts.Run (O.Step order) N₀ tr N) (hq : O.Quiet N) (hfew : (hashes tr).length < 500)
    (hd : O.Distinct H tr) {A T : PeerId} {m : Msg} (hcall : NetEvent.call A m ∈ tr)
    (hto : m.to' = some T) (hne : T ≠ A) :
    (O.called T m.hash tr = 1 ∧ ∀ v ∈ O.ids, v ≠ T → O.called v m.hash tr = 0) ↔
    Flood.Near O.peers A T ∧
      Lts.Run (Lts.Only (O.Step order) fun N e => ¬ O.BlindReceipt (IsCopyTo T m.hash) N e)
        N₀ tr N := by
  have honce : ∀ {s : Flood.State PeerId Hash} {tr' : List (Flood.Event PeerId Hash)},
      Lts.Run (Flood.Step O.peers (Visible 500) Flood.anyOrder) (O.start H) tr' s → O.Sim N s →
      List.Forall₂ O.Matches tr tr' → (O.called T m.hash tr = 1 ↔ Flood.Near O.peers A T ∧
        Lts.Run (Lts.Only (Flood.Step O.peers (Visible 500) Flood.anyOrder) fun s e =>
          ¬ Flood.Forgotten T m.hash s e) (O.start H) tr' s) := by
    intro s tr' hrun hsim hm
    rw [called_eq_freshAt hm (fun p b => dest_of_receive hrun hm hd hcall) (.inr hto)]
    exact Flood.Run.addressed_once_iff O.nodup O.irrefl (fun _ _ => Visible.mem) hrun
      (start_quiet O H) (hsim.quiet hq) (originated_eq hm ▸ hd.nodup) (mem_originate hm hcall) hto
      hne (hd.new_start (List.mem_filterMap.mpr ⟨_, hcall, rfl⟩))
  obtain ⟨tr', s, hrun, hsim, hm⟩ := run_flood h₀ hq₀ hr
  constructor
  · rintro ⟨hcalled, -⟩
    refine ⟨((honce hrun hsim hm).mp hcalled).1, hr.only_of_forall ?_⟩
    rintro t₁ e t₂ N₁ N₂ rfl hr₁ he hblind
    cases e with
    | call u m' => exact hblind
    | iterate u => exact hblind
    | receive p c =>
      obtain ⟨⟨rfl, hhash⟩, hb⟩ := hblind
      obtain ⟨-, u, m', hcall', hhash', -⟩ :=
        call_of_mem_wire h₀ hq₀ hr₁ (mem_wire_of_receive he)
      obtain ⟨rfl, rfl⟩ := hd.unique (List.mem_append_left _ hcall') hcall (hhash'.trans hhash)
      have htwice := called_of_blindReceipt h₀ hq₀ hr₁ he hd.of_append hb hcall' hhash' (.inr hto)
      rw [List.append_cons, called_append] at hcalled
      rw [if_neg hne] at htwice
      omega
  · rintro ⟨hnear, hgood⟩
    obtain ⟨tr₂, s₂, hrun₂, hsim₂, hm₂⟩ := run_target_remembers h₀ hq₀ hgood hfew hd
    refine ⟨(honce hrun₂.of_only hsim₂ hm₂).mpr ⟨hnear, hrun₂⟩, fun v _ hv => ?_⟩
    refine called_eq_zero hm (fun p b hp hk => ?_) hv
    rw [dest_of_receive hrun hm hd hcall hp hk, hto]

/-! ### A path of four nodes -/

def pathPeers (v : PeerId) : List PeerId :=
  if v = "ar" then ["br"] else if v = "br" then ["ar", "cr"]
  else if v = "cr" then ["br", "dr"] else if v = "dr" then ["cr"] else []

theorem pathPeers_symm (v w : PeerId) (h : w ∈ pathPeers v) : v ∈ pathPeers w := by
  unfold pathPeers at h
  split_ifs at h with h₁ h₂ h₃ h₄ <;> simp only [List.mem_cons, List.not_mem_nil, or_false] at h
  · subst h₁ h
    decide
  · subst h₂
    rcases h with rfl | rfl <;> decide
  · subst h₃
    rcases h with rfl | rfl <;> decide
  · subst h₄ h
    decide

theorem pathPeers_reach {v : PeerId} (hv : v ∈ ({"ar", "br", "cr", "dr"} : Finset PeerId)) :
    Relation.ReflTransGen (fun a b => b ∈ pathPeers a) "ar" v := by
  have hb : Relation.ReflTransGen (fun a b => b ∈ pathPeers a) "ar" "br" := .single (by decide)
  have hc := hb.tail (show "cr" ∈ pathPeers "br" by decide)
  have hd := hc.tail (show "dr" ∈ pathPeers "cr" by decide)
  simp only [Finset.mem_insert, Finset.mem_singleton] at hv
  rcases hv with rfl | rfl | rfl | rfl
  · exact .refl
  · exact hb
  · exact hc
  · exact hd

def path : Overlay where
  room := "r"
  ids := {"ar", "br", "cr", "dr"}
  peers := pathPeers
  callbacks _ := [1]
  nodup v := by unfold pathPeers; split_ifs <;> simp
  irrefl v := by unfold pathPeers; split_ifs <;> simp [*]
  symm := pathPeers_symm
  mem_ids v w h := by
    have hw := pathPeers_symm v w h
    unfold pathPeers at hw
    split_ifs at hw with h₁ h₂ h₃ h₄
    · simp [h₁]
    · simp [h₂]
    · simp [h₃]
    · simp [h₄]
    · exact absurd hw List.not_mem_nil
  connected v hv w hw :=
    have : Std.Symm fun a b => b ∈ pathPeers a := ⟨pathPeers_symm⟩
    (Std.Symm.symm _ _ (pathPeers_reach hv)).trans (pathPeers_reach hw)
  room_cstr := by decide
  ids_cstr := by decide

/-- All four have just joined. -/
def pathNet : Net where
  nodes v :=
    if v = "ar" then .linked "a" "r" 1 ["br"] else if v = "br" then .linked "b" "r" 1 ["ar", "cr"]
    else if v = "cr" then .linked "c" "r" 1 ["br", "dr"] else .linked "d" "r" 1 ["cr"]
  wire := []

theorem path_formed : path.Formed pathNet fun _ => [] := by
  intro v hv
  simp only [path, Finset.mem_insert, Finset.mem_singleton] at hv
  rcases hv with rfl | rfl | rfl | rfl
  all_goals
    exact .of_new (by decide) rfl (by decide) (by decide) (by decide) rfl (by decide) (by decide)
      (by decide) rfl

/-- The messages that the first node sends to the third and to the fourth. -/
def toThird : Msg := (pathNet.nodes "ar").formMessageTo "hi" .logic "r" "cr" 1

def toFourth : Msg := (pathNet.nodes "ar").formMessageTo "hi" .logic "r" "dr" 1

/-- Over two hops: a broadcast to the only neighbour, which hands the message over. -/
def twoHops : List Command :=
  [.send2client "ar" "cr" "hi" 1, .iterate "ar", .deliver 2, .iterate "br", .deliver 3]

theorem twoHops_isSome : (path.execAll pathNet twoHops).isSome = true := by decide

def twoHopsRun : List NetEvent × Net := (path.execAll pathNet twoHops).get twoHops_isSome

theorem twoHops_near : Flood.Near path.peers "ar" "cr" ∧
    Lts.Run (Lts.Only (path.Step fifo) fun N e =>
      ¬ path.BlindReceipt (IsCopyTo "cr" toThird.hash) N e) pathNet twoHopsRun.1 twoHopsRun.2 :=
  (send2client_once_iff path_formed (by decide) (Overlay.run_get twoHops_isSome) (by decide)
    (by decide) ⟨by decide, by decide⟩ (by decide) rfl (by decide)).mp (by decide)

/-- Over three hops: the neighbour drops the message. -/
def threeHops : List Command :=
  [.send2client "ar" "dr" "hi" 1, .iterate "ar", .deliver 2, .iterate "br"]

theorem threeHops_isSome : (path.execAll pathNet threeHops).isSome = true := by decide

def threeHopsRun : List NetEvent × Net := (path.execAll pathNet threeHops).get threeHops_isSome

/-- The message never arrives. -/
theorem exists_dropped : ¬ ∀ (O : Overlay) (order : List Packet → Packet → Prop) (N₀ N : Net)
    (H : PeerId → List Hash) (tr : List NetEvent), O.Formed N₀ H → O.Quiet N₀ →
    Lts.Run (O.Step order) N₀ tr N → O.Quiet N → (hashes tr).length < 500 → O.Distinct H tr →
    ∀ A T m, NetEvent.call A m ∈ tr → m.to' = some T → T ∈ O.ids → T ≠ A →
      O.called T m.hash tr = 1 ∧ ∀ v ∈ O.ids, v ≠ T → O.called v m.hash tr = 0 := by
  intro h
  have := (h path fifo pathNet threeHopsRun.2 (fun _ => []) threeHopsRun.1 path_formed (by decide)
    (Overlay.run_get threeHops_isSome) (by decide) (by decide) ⟨by decide, by decide⟩ "ar" "dr"
    toFourth (by decide) rfl (by decide) (by decide)).1
  revert this
  decide

end Yamb
