import Yamb.Lib.RoseTree

/-!
# A tree with subtrees less

* `Lifts`: a map of paths that keeps their order, their length and what lies above them;
* `Pruned`: a tree without some of the subtrees of another one, and where its paths led there;
* **`Pruned.erase`**: one subtree less;
* **`Pruned.first_below_iff`**: a depth-first search below a node passes by what is gone.
-/

set_option autoImplicit false

namespace RoseTree

variable {α : Type} {t s c : RoseTree α} {π ρ σ κ : Path} {a : α} {up down : Path → Path}
  {gone : Path → Prop} {p : α → Bool}

/-! ### Maps of paths -/

/-- The map keeps the order of the paths, their length and what lies above them. -/
structure Lifts (up : Path → Path) : Prop where
  precedes : ∀ {ρ σ}, Precedes ρ σ → Precedes (up ρ) (up σ)
  length_eq : ∀ ρ, (up ρ).length = ρ.length
  isPrefix : ∀ ρ σ, up ρ <+: up (ρ ++ σ)

theorem lifts_id : Lifts id where
  precedes := id
  length_eq := fun _ => rfl
  isPrefix := List.prefix_append

namespace Lifts

theorem nil (h : Lifts up) : up [] = [] := List.length_eq_zero_iff.mp (h.length_eq [])

theorem injective (h : Lifts up) : Function.Injective up := by
  intro ρ σ heq
  rcases precedes_trichotomy ρ σ with hlt | hsame | hlt
  · have hlt := h.precedes hlt
    rw [heq] at hlt
    exact absurd hlt (precedes_irrefl _)
  · exact hsame
  · have hlt := h.precedes hlt
    rw [heq] at hlt
    exact absurd hlt (precedes_irrefl _)

theorem precedes_iff (h : Lifts up) : Precedes (up ρ) (up σ) ↔ Precedes ρ σ := by
  refine ⟨fun hlt => ?_, h.precedes⟩
  rcases precedes_trichotomy ρ σ with hlt' | rfl | hlt'
  · exact hlt'
  · exact absurd hlt (precedes_irrefl _)
  · exact absurd hlt (h.precedes hlt').asymm

theorem prefix_iff (h : Lifts up) : up ρ <+: up σ ↔ ρ <+: σ := by
  constructor
  · intro hup
    have hlen := hup.length_le
    rw [h.length_eq, h.length_eq] at hlen
    -- the part of `σ` that is as long as `ρ` leads to the same place
    have htake : up (σ.take ρ.length) <+: up σ := by
      have hpre := h.isPrefix (σ.take ρ.length) (σ.drop ρ.length)
      rwa [List.take_append_drop] at hpre
    have hsame : up ρ = up (σ.take ρ.length) := by
      refine (List.prefix_of_prefix_length_le hup htake ?_).eq_of_length ?_
      · rw [h.length_eq, h.length_eq, List.length_take]
        omega
      · rw [h.length_eq, h.length_eq, List.length_take]
        omega
    rw [h.injective hsame]
    exact List.take_prefix _ _
  · rintro ⟨τ, rfl⟩
    exact h.isPrefix ρ τ

theorem comp (h : Lifts up) (h' : Lifts down) : Lifts (up ∘ down) where
  precedes := fun hlt => h.precedes (h'.precedes hlt)
  length_eq := fun ρ => (h.length_eq _).trans (h'.length_eq ρ)
  isPrefix := fun ρ σ => h.prefix_iff.mpr (h'.isPrefix ρ σ)

end Lifts

theorem lifts_unerase (π : Path) : Lifts (unerase π) where
  precedes := precedes_unerase
  length_eq := length_unerase π
  isPrefix := unerase_prefix π

/-! ### Pruned trees -/

/-- `s` is `t` without the subtrees that are `gone`; its paths led where `up` says. -/
structure Pruned (t s : RoseTree α) (gone : Path → Prop) (up : Path → Path) : Prop where
  lifts : Lifts up
  get?_eq : ∀ ρ, s.get? ρ = t.get? (up ρ)
  exists_up : ∀ π a, t.get? π = some a → ¬ gone π → ∃ ρ, up ρ = π
  not_gone : ∀ ρ a, s.get? ρ = some a → ¬ gone (up ρ)

theorem pruned_self (t : RoseTree α) (hgone : ∀ π, ¬ gone π) : Pruned t t gone id where
  lifts := lifts_id
  get?_eq := fun _ => rfl
  exists_up := fun π _ _ _ => ⟨π, rfl⟩
  not_gone := fun ρ _ _ => hgone ρ

namespace Pruned

/-- **One subtree less.** -/
theorem erase (h : Pruned t s gone up) (hκ : κ ≠ []) :
    Pruned t (s.erase κ) (fun π => gone π ∨ up κ <+: π) (up ∘ unerase κ) where
  lifts := h.lifts.comp (lifts_unerase κ)
  get?_eq := fun ρ => by
    rw [get?_erase s κ ρ hκ, h.get?_eq]
    rfl
  exists_up := by
    intro π a ha hgone
    obtain ⟨ρ, rfl⟩ := h.exists_up π a ha fun hg => hgone (.inl hg)
    have hnot : ∀ σ, ρ ≠ κ ++ σ := by
      rintro σ rfl
      exact hgone (.inr (h.lifts.isPrefix κ σ))
    obtain ⟨ρ', rfl⟩ := exists_unerase hκ hnot
    exact ⟨ρ', rfl⟩
  not_gone := by
    intro ρ a ha
    rw [get?_erase s κ ρ hκ] at ha
    rintro (hg | hg)
    · exact h.not_gone _ a ha hg
    · obtain ⟨σ, hσ⟩ := h.lifts.prefix_iff.mp hg
      exact unerase_ne hκ ρ σ hσ.symm

theorem congr {gone' : Path → Prop} (h : Pruned t s gone up)
    (hgone : ∀ π a, t.get? π = some a → (gone' π ↔ gone π)) : Pruned t s gone' up where
  lifts := h.lifts
  get?_eq := h.get?_eq
  exists_up := fun π a ha hg => h.exists_up π a ha fun hg' => hg ((hgone π a ha).mpr hg')
  not_gone := fun ρ a ha hg =>
    h.not_gone ρ a ha ((hgone (up ρ) a ((h.get?_eq ρ).symm.trans ha)).mp hg)

/-- **A search below a node of the pruned tree** finds the first path below that is not gone. -/
theorem first_below_iff {r : RoseTree α} (h : Pruned t s gone up) (hr : s.sub ρ = some r) :
    First p r σ ↔
      (∃ a, t.get? (up (ρ ++ σ)) = some a ∧ p a = true) ∧ ¬ gone (up (ρ ++ σ)) ∧
        ∀ π a, t.get? π = some a → p a = true → up ρ <+: π → ¬ gone π →
          ¬ Precedes π (up (ρ ++ σ)) := by
  have hget (τ : Path) : r.get? τ = t.get? (up (ρ ++ τ)) := by
    rw [← get?_append_of_sub hr, h.get?_eq]
  constructor
  · rintro ⟨⟨a, ha, hp⟩, hfirst⟩
    refine ⟨⟨a, (hget σ).symm.trans ha, hp⟩,
      h.not_gone (ρ ++ σ) a ((get?_append_of_sub hr σ).trans ha), fun π b hb hpb hpre hg hlt => ?_⟩
    obtain ⟨π, rfl⟩ := h.exists_up π b hb hg
    obtain ⟨τ, rfl⟩ := h.lifts.prefix_iff.mp hpre
    exact hfirst τ b ((hget τ).trans hb) hpb
      ((precedes_append_left ρ).mp (h.lifts.precedes_iff.mp hlt))
  · rintro ⟨⟨a, ha, hp⟩, -, hfirst⟩
    refine ⟨⟨a, (hget σ).trans ha, hp⟩, fun τ b hb hpb hlt => ?_⟩
    have hgone : ¬ gone (up (ρ ++ τ)) :=
      h.not_gone (ρ ++ τ) b ((get?_append_of_sub hr τ).trans hb)
    exact hfirst (up (ρ ++ τ)) b ((hget τ).symm.trans hb) hpb (h.lifts.isPrefix ρ τ) hgone
      (h.lifts.precedes ((precedes_append_left ρ).mpr hlt))

end Pruned

end RoseTree
