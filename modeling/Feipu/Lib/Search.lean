import Mathlib.Data.List.Basic

/-!
# The first answer

`List.findSome?` asks one element after the other.  Where the order is nobody's choice, the answer
is the same in all orders if all elements that answer agree, and only then.
-/

namespace Search

variable {α β : Type} {f : α → Option β} {l : List α}

/-- all elements that answer give the same answer -/
def Agree (f : α → Option β) (l : List α) : Prop :=
  ∀ a ∈ l, ∀ b ∈ l, ∀ x y, f a = some x → f b = some y → x = y

theorem findSome?_perm {l' : List α} (hp : l'.Perm l) (h : Agree f l) :
    l'.findSome? f = l.findSome? f := by
  cases hl : l.findSome? f with
  | none =>
    rw [List.findSome?_eq_none_iff] at hl ⊢
    intro a ha
    exact hl a (hp.mem_iff.mp ha)
  | some x =>
    obtain ⟨a, ha, hax⟩ := List.exists_of_findSome?_eq_some hl
    cases hl' : l'.findSome? f with
    | none =>
      rw [List.findSome?_eq_none_iff] at hl'
      rw [hl' a (hp.mem_iff.mpr ha)] at hax
      cases hax
    | some y =>
      obtain ⟨b, hb, hby⟩ := List.exists_of_findSome?_eq_some hl'
      rw [h a ha b (hp.mem_iff.mp hb) x y hax hby]

/-- any element can be the first one asked -/
theorem findSome?_first {a : α} {x : β} (ha : a ∈ l) (h : f a = some x) :
    ∃ l' : List α, l'.Perm l ∧ l'.findSome? f = some x := by
  obtain ⟨s, t, rfl⟩ := List.append_of_mem ha
  refine ⟨a :: (s ++ t), List.perm_middle.symm, ?_⟩
  rw [List.findSome?_cons_of_isSome (by rw [h]; rfl), h]

/-- the search with a default answers the same in all orders exactly when the answers agree -/
theorem getD_findSome?_order_iff (d : β) :
    (∀ l₁ l₂ : List α, l₁.Perm l → l₂.Perm l →
      (l₁.findSome? f).getD d = (l₂.findSome? f).getD d) ↔
      Agree f l := by
  constructor
  · intro h a ha b hb x y hx hy
    obtain ⟨l₁, hp₁, h₁⟩ := findSome?_first ha hx
    obtain ⟨l₂, hp₂, h₂⟩ := findSome?_first hb hy
    have heq := h l₁ l₂ hp₁ hp₂
    rw [h₁, h₂] at heq
    exact heq
  · intro h l₁ l₂ hp₁ hp₂
    rw [findSome?_perm hp₁ h, findSome?_perm hp₂ h]

end Search
