/-
Messages under way: a list of which any element may be the next to arrive, to
be lost or to be doubled, and what that leaves of the elements with some
property.
-/
import Mathlib.Data.List.Basic

namespace SysProg

variable {α : Type*}

/-- `l'` is `l` without one element, which is `a`. -/
def Takes (a : α) (l l' : List α) : Prop := ∃ l₁ l₂, l = l₁ ++ a :: l₂ ∧ l' = l₁ ++ l₂

/-- The element at a place, and the list without it. -/
def takeAt (l : List α) (k : Nat) : Option (α × List α) := l[k]?.map fun a => (a, l.eraseIdx k)

variable {l l' : List α} {a b : α} {p : α → Bool}

theorem takes_takeAt {k : Nat} (h : takeAt l k = some (a, l')) : Takes a l l' := by
  obtain ⟨b, hk, hb⟩ := Option.map_eq_some_iff.1 h
  obtain ⟨rfl, rfl⟩ := Prod.mk.inj hb
  obtain ⟨hlt, rfl⟩ := List.getElem?_eq_some_iff.1 hk
  refine ⟨l.take k, l.drop (k + 1), ?_, List.eraseIdx_eq_take_drop_succ ..⟩
  rw [← List.drop_eq_getElem_cons hlt, List.take_append_drop]

namespace Takes

theorem mem (h : Takes a l l') : a ∈ l := by
  obtain ⟨l₁, l₂, rfl, -⟩ := h
  exact List.mem_append_right _ List.mem_cons_self

theorem subset (h : Takes a l l') : ∀ b ∈ l', b ∈ l := by
  obtain ⟨l₁, l₂, rfl, rfl⟩ := h
  intro b hb
  rcases List.mem_append.1 hb with hb | hb
  · exact List.mem_append_left _ hb
  · exact List.mem_append_right _ (List.mem_cons_of_mem _ hb)

theorem filter_other (h : Takes a l l') (ha : p a = false) : l'.filter p = l.filter p := by
  obtain ⟨l₁, l₂, rfl, rfl⟩ := h
  simp [ha]

theorem filter_only (h : Takes a l l') (ha : p a = true) (hb : l.filter p = [b]) : a = b ∧ l'.filter p = [] := by
  obtain ⟨l₁, l₂, rfl, rfl⟩ := h
  simp only [List.filter_append, List.filter_cons_of_pos ha] at hb ⊢
  obtain ⟨h₁, h₂⟩ | ⟨-, h₂⟩ := List.append_eq_singleton_iff.1 hb
  · obtain ⟨rfl, hrest⟩ := List.cons.inj h₂
    exact ⟨rfl, by rw [h₁, hrest, List.append_nil]⟩
  · cases h₂

end Takes

end SysProg
