import Mathlib.Data.List.Forall2

/-!
# Lists related element by element

What `List.Forall₂` says about the members of the two lists.
-/

namespace Related

variable {α β : Type*} {R : α → β → Prop} {as : List α} {bs : List β}

/-- Every element on the right has a partner on the left. -/
theorem exists_left (h : List.Forall₂ R as bs) : ∀ b ∈ bs, ∃ a ∈ as, R a b := by
  induction h with
  | nil => exact List.forall_mem_nil _
  | cons hab _ ih =>
    refine List.forall_mem_cons.2 ⟨⟨_, List.mem_cons_self, hab⟩, fun b hb => ?_⟩
    obtain ⟨a, ha, h⟩ := ih b hb
    exact ⟨a, List.mem_cons_of_mem _ ha, h⟩

/-- Every element on the left has a partner on the right. -/
theorem exists_right (h : List.Forall₂ R as bs) : ∀ a ∈ as, ∃ b ∈ bs, R a b :=
  exists_left h.flip

/-- What holds between the elements on the left carries over to their partners. -/
theorem pairwise_right {S : α → α → Prop} {T : β → β → Prop}
    (hST : ∀ a a' b b', R a b → R a' b' → S a a' → T b b') (h : List.Forall₂ R as bs)
    (hp : as.Pairwise S) : bs.Pairwise T := by
  induction h with
  | nil => exact .nil
  | @cons a b as bs hab h ih =>
    obtain ⟨ha, hp⟩ := List.pairwise_cons.1 hp
    refine List.pairwise_cons.2 ⟨fun b' hb' => ?_, ih hp⟩
    obtain ⟨a', ha', hab'⟩ := exists_left h b' hb'
    exact hST a a' b b' hab hab' (ha a' ha')

end Related
