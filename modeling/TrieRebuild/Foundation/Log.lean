import Mathlib.Data.List.Basic
import Mathlib.Data.List.Infix

/-! Logs whose entries refer to the ones before them: each entry is justified by what precedes
it. -/
namespace TrieRebuild.Foundation
variable {α : Type*} {P : List α → α → Prop} {xs ys : List α} {x : α}

/-- Every entry is justified by those before it. -/
def Justified (P : List α → α → Prop) (xs : List α) : Prop :=
  ∀ before x, before ++ [x] <+: xs → P before x

namespace Justified

theorem nil : Justified P [] := by
  intro before x h
  simp at h

/-- A log goes on with entries that are justified by it and by each other. -/
theorem append (h : Justified P xs) (hys : Justified (fun before => P (xs ++ before)) ys) :
    Justified P (xs ++ ys) := by
  intro before x hx
  rcases List.prefix_or_prefix_of_prefix hx (List.prefix_append xs ys) with hold | hnew
  · exact h before x hold
  · obtain ⟨more,hmore⟩ := hnew
    rcases List.eq_nil_or_concat more with rfl | ⟨init,last,rfl⟩
    · rw [List.append_nil] at hmore
      exact h before x (hmore ▸ List.prefix_rfl)
    · rw [List.concat_eq_append,← List.append_assoc] at hmore
      obtain ⟨rfl,hlast⟩ := List.append_inj' hmore rfl
      cases hlast
      rw [List.append_assoc] at hx
      exact hys init x ((List.prefix_append_right_inj xs).mp hx)

theorem concat (h : Justified P xs) (hx : P xs x) : Justified P (xs ++ [x]) := by
  refine h.append fun before y hy => ?_
  obtain ⟨rest,hrest⟩ := hy
  cases before with
  | nil =>
    cases hrest
    rwa [List.append_nil]
  | cons _ before => simp at hrest

/-- Entries that need none before them. -/
theorem of_forall (h : ∀ x ∈ xs, ∀ before, P before x) : Justified P xs :=
  fun before x hx => h x (hx.subset (by simp)) before

theorem exists_before (h : Justified P xs) (hx : x ∈ xs) : ∃ before, P before x := by
  obtain ⟨before,rest,rfl⟩ := List.append_of_mem hx
  exact ⟨before,h before x ⟨rest,by simp⟩⟩

end Justified
end TrieRebuild.Foundation
