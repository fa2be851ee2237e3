import Mathlib.Combinatorics.SimpleGraph.Connectivity.Subgraph

/-!
# Graphs whose vertices come and go

Connectivity of a graph on a set of vertices that changes.

* `ConnectedOn G S`: any two vertices of `S` are joined by a walk inside `S`;
* `ConnectedOn.insert`: a new vertex with a neighbour keeps it;
* `connectedOn_iff_cut`: connected by the edges across each division;
* `ConnectedOn.erase_iff`: when a vertex goes and links are added, by the links across the divisions
  of its neighbours;
* `BiconnectedOn`, `BiconnectedOn.insert`: the same when any one vertex may be missing, with two
  neighbours.
-/

set_option autoImplicit false

namespace Connectivity

variable {V : Type} {G G' : SimpleGraph V} {S : Set V} {u v w w' : V}

def ConnectedOn (G : SimpleGraph V) (S : Set V) : Prop := (G.induce S).Preconnected

theorem connectedOn_of_subsingleton (h : S.Subsingleton) : ConnectedOn G S := by
  rintro ⟨a, ha⟩ ⟨b, hb⟩
  obtain rfl := h ha hb
  rfl

/-- Links inside `S` may be added, and links that leave `S` do not count. -/
theorem ConnectedOn.mono (h : ConnectedOn G S)
    (hadj : ∀ a ∈ S, ∀ b ∈ S, G.Adj a b → G'.Adj a b) : ConnectedOn G' S :=
  SimpleGraph.Preconnected.mono (fun a b hab => hadj a a.2 b b.2 hab) h

theorem ConnectedOn.insert (h : ConnectedOn G S) (hw : w ∈ S) (hadj : G.Adj v w) :
    ConnectedOn G (insert v S) := by
  have hv : ConnectedOn G {v} := connectedOn_of_subsingleton Set.subsingleton_singleton
  exact (SimpleGraph.connected_induce_union hv h (Set.mem_singleton v) hw hadj).preconnected

/-- A vertex that is not alone has a neighbour. -/
theorem ConnectedOn.exists_adj (h : ConnectedOn G S) (hv : v ∈ S) (hw : w ∈ S) (hne : v ≠ w) :
    ∃ x, G.Adj v x := by
  have hr := (SimpleGraph.reachable_iff_reflTransGen _ _).mp (h ⟨v, hv⟩ ⟨w, hw⟩)
  rcases hr.cases_head with he | ⟨x, hx, -⟩
  · exact absurd (congrArg Subtype.val he) hne
  · exact ⟨x, hx⟩

/-- A graph is connected on a set exactly when every division of the set has an edge across. -/
theorem connectedOn_iff_cut : ConnectedOn G S ↔ ∀ P : Set V, (∃ a ∈ S, a ∈ P) → (∃ b ∈ S, b ∉ P) →
    ∃ a ∈ S, ∃ b ∈ S, a ∈ P ∧ b ∉ P ∧ G.Adj a b := by
  constructor
  · rintro h P ⟨a, ha, haP⟩ ⟨b, hb, hbP⟩
    obtain ⟨p⟩ := h ⟨a, ha⟩ ⟨b, hb⟩
    obtain ⟨d, -, hfst, hsnd⟩ := p.exists_boundary_dart (Set.preimage Subtype.val P) haP hbP
    exact ⟨d.fst, d.fst.2, d.snd, d.snd.2, hfst, hsnd, d.adj⟩
  · intro h a b
    by_contra hab
    -- what is joined to `a` is divided from `b`
    obtain ⟨x, hx, y, hy, ⟨hx', hxP⟩, hyP, hxy⟩ :=
      h {x | ∃ hx : x ∈ S, (G.induce S).Reachable a ⟨x, hx⟩} ⟨a, a.2, a.2, .rfl⟩
        ⟨b, b.2, fun ⟨_, hb⟩ => hab hb⟩
    have hadj : (G.induce S).Adj ⟨x, hx'⟩ ⟨y, hy⟩ := hxy
    exact hyP ⟨hy, hxP.trans hadj.reachable⟩

/-- **A vertex goes** and links are added: the graph stays connected exactly when every division of
the rest that tells former neighbours of the vertex apart, without an old link across, has a new one
across. -/
theorem ConnectedOn.erase_iff {T : Set V} {R : V → V → Prop} (h : ConnectedOn G S)
    (hT : T = S \ {u})
    (hadj : ∀ a ∈ T, ∀ b ∈ T, a ≠ b → (G'.Adj a b ↔ G.Adj a b ∨ R a b)) :
    ConnectedOn G' T ↔ ∀ P : Set V, (∃ a ∈ T, a ∈ P ∧ G.Adj u a) →
      (∃ b ∈ T, b ∉ P ∧ G.Adj u b) → (∀ a ∈ T, a ∈ P → ∀ b ∈ T, b ∉ P → ¬ G.Adj a b) →
      ∃ a ∈ T, ∃ b ∈ T, a ∈ P ∧ b ∉ P ∧ R a b := by
  have hne {P : Set V} {a b : V} (ha : a ∈ P) (hb : b ∉ P) : a ≠ b := fun he => hb (he ▸ ha)
  rw [connectedOn_iff_cut]
  constructor
  · rintro hcut P ⟨a, ha, haP, -⟩ ⟨b, hb, hbP, -⟩ hclosed
    obtain ⟨x, hx, y, hy, hxP, hyP, hxy⟩ := hcut P ⟨a, ha, haP⟩ ⟨b, hb, hbP⟩
    have hxy := (hadj x hx y hy (hne hxP hyP)).mp hxy
    exact ⟨x, hx, y, hy, hxP, hyP, hxy.resolve_left (hclosed x hx hxP y hy hyP)⟩
  · rintro hnew P ⟨a, ha, haP⟩ ⟨b, hb, hbP⟩
    by_cases hclosed : ∀ a ∈ T, a ∈ P → ∀ b ∈ T, b ∉ P → ¬ G.Adj a b
    · -- an edge out of either part of `T` leads to the vertex that goes
      have hedge (Q : Set V) (hQ : ∃ a ∈ T, a ∈ Q) (hQ' : ∃ b ∈ T, b ∉ Q)
          (hQc : ∀ a ∈ T, a ∈ Q → ∀ b ∈ T, b ∉ Q → ¬ G.Adj a b) : ∃ a ∈ T, a ∈ Q ∧ G.Adj u a := by
        obtain ⟨a, ha, haQ⟩ := hQ
        obtain ⟨b, hb, hbQ⟩ := hQ'
        obtain ⟨x, -, y, hy, ⟨hxT, hxQ⟩, hyQ, hxy⟩ := connectedOn_iff_cut.mp h (T ∩ Q)
          ⟨a, (hT ▸ ha).1, ha, haQ⟩ ⟨b, (hT ▸ hb).1, fun hb => hbQ hb.2⟩
        have hyu : y = u := by
          by_contra hne
          have hyT : y ∈ T := hT ▸ ⟨hy, hne⟩
          exact hQc x hxT hxQ y hyT (fun hyQ' => hyQ ⟨hyT, hyQ'⟩) hxy
        exact ⟨x, hxT, hxQ, (hyu ▸ hxy).symm⟩
      obtain ⟨x, hx, y, hy, hxP, hyP, hxy⟩ := hnew P (hedge P ⟨a, ha, haP⟩ ⟨b, hb, hbP⟩ hclosed)
        (hedge (Set.compl P) ⟨b, hb, hbP⟩ ⟨a, ha, fun hn => hn haP⟩
          fun x hx hxP y hy hyP hxy => hclosed y hy (not_not.mp hyP) x hx hxP hxy.symm) hclosed
      exact ⟨x, hx, y, hy, hxP, hyP, (hadj x hx y hy (hne hxP hyP)).mpr (.inr hxy)⟩
    · push Not at hclosed
      obtain ⟨x, hx, hxP, y, hy, hyP, hxy⟩ := hclosed
      exact ⟨x, hx, y, hy, hxP, hyP, (hadj x hx y hy (hne hxP hyP)).mpr (.inl hxy)⟩

/-- Connected, and still so when any one vertex is missing. -/
structure BiconnectedOn (G : SimpleGraph V) (S : Set V) : Prop where
  connected : ConnectedOn G S
  erase : ∀ x ∈ S, ConnectedOn G (S \ {x})

theorem BiconnectedOn.mono (h : BiconnectedOn G S)
    (hadj : ∀ a ∈ S, ∀ b ∈ S, G.Adj a b → G'.Adj a b) : BiconnectedOn G' S where
  connected := h.connected.mono hadj
  erase x hx := (h.erase x hx).mono fun a ha b hb => hadj a ha.1 b hb.1

theorem biconnectedOn_of_subsingleton (h : S.Subsingleton) : BiconnectedOn G S :=
  ⟨connectedOn_of_subsingleton h, fun _ _ => connectedOn_of_subsingleton (h.anti Set.sdiff_subset)⟩

/-- One of at most two vertices may go. -/
theorem biconnectedOn_of_insert (h : ConnectedOn G (insert v S)) (hS : S.Subsingleton) :
    BiconnectedOn G (insert v S) where
  connected := h
  erase x hx := by
    refine connectedOn_of_subsingleton ?_
    rintro a ⟨rfl | ha, hax⟩ b ⟨rfl | hb, hbx⟩
    · rfl
    · rcases hx with rfl | hx
      · exact absurd rfl hax
      · exact absurd (hS hb hx) hbx
    · rcases hx with rfl | hx
      · exact absurd rfl hbx
      · exact absurd (hS ha hx) hax
    · exact hS ha hb

theorem BiconnectedOn.insert (h : BiconnectedOn G S) (hv : v ∉ S) (hw : w ∈ S) (hw' : w' ∈ S)
    (hne : w ≠ w') (hadj : G.Adj v w) (hadj' : G.Adj v w') : BiconnectedOn G (insert v S) where
  connected := h.connected.insert hw hadj
  erase x hx := by
    rcases Set.mem_insert_iff.mp hx with rfl | hx
    · rw [Set.insert_sdiff_self_of_notMem hv]
      exact h.connected
    · have hxv : v ∉ ({x} : Set V) := fun he => hv (Set.mem_singleton_iff.mp he ▸ hx)
      rw [Set.insert_sdiff_of_notMem _ hxv]
      by_cases hwx : w = x
      · exact (h.erase x hx).insert ⟨hw', fun he => hne (hwx.trans he.symm)⟩ hadj'
      · exact (h.erase x hx).insert ⟨hw, hwx⟩ hadj

end Connectivity
