import Mathlib.Data.List.Induction
import Mathlib.Data.List.Nodup
import Mathlib.Data.List.Perm.Subperm

/-! The distinct entries of a list in the order in which they first come. -/

namespace Listing
variable {α β : Type*} [DecidableEq α] [DecidableEq β]

def firstSeen (l : List α) : List α :=
  l.foldl (fun seen a => if a ∈ seen then seen else seen ++ [a]) []

theorem firstSeen_concat (l : List α) (a : α) :
    firstSeen (l ++ [a]) = if a ∈ firstSeen l then firstSeen l else firstSeen l ++ [a] := by
  rw [firstSeen, List.foldl_append]
  rfl

@[simp] theorem mem_firstSeen {l : List α} {a : α} : a ∈ firstSeen l ↔ a ∈ l := by
  induction l using List.reverseRecOn with
  | nil => exact Iff.rfl
  | append_singleton l b ih =>
    rw [firstSeen_concat, List.mem_append, List.mem_singleton]
    split_ifs with hb
    · rw [ih]
      refine (or_iff_left_of_imp ?_).symm
      rintro rfl
      exact ih.mp hb
    · rw [List.mem_append, List.mem_singleton, ih]

theorem nodup_firstSeen (l : List α) : (firstSeen l).Nodup := by
  induction l using List.reverseRecOn with
  | nil => exact List.nodup_nil
  | append_singleton l b ih =>
    rw [firstSeen_concat]
    split_ifs with hb
    · exact ih
    · exact List.nodup_append_comm.mp (List.nodup_cons.mpr ⟨hb, ih⟩)

/-- What tells the entries apart does not change which ones are kept. -/
theorem firstSeen_map {f : α → β} {l : List α} (hf : ∀ a ∈ l, ∀ b ∈ l, f a = f b → a = b) :
    firstSeen (l.map f) = (firstSeen l).map f := by
  induction l using List.reverseRecOn with
  | nil => rfl
  | append_singleton l b ih =>
    have hl := ih fun x hx y hy => hf x (List.mem_append_left _ hx) y (List.mem_append_left _ hy)
    have hmem : f b ∈ (firstSeen l).map f ↔ b ∈ firstSeen l := by
      constructor
      · intro h
        obtain ⟨a, ha, hab⟩ := List.mem_map.mp h
        have hal := List.mem_append_left [b] (mem_firstSeen.mp ha)
        rwa [← hf a hal b (List.mem_append_right l List.mem_cons_self) hab]
      · exact List.mem_map_of_mem
    rw [List.map_append, List.map_singleton, firstSeen_concat, firstSeen_concat, hl]
    simp only [hmem]
    split_ifs
    · rfl
    · rw [List.map_append, List.map_singleton]

theorem firstSeen_ne_nil {l : List α} (h : l ≠ []) : firstSeen l ≠ [] := by
  obtain ⟨a, ha⟩ := List.exists_mem_of_ne_nil l h
  exact List.ne_nil_of_mem (mem_firstSeen.mpr ha)

theorem length_firstSeen_le (l : List α) : (firstSeen l).length ≤ l.length := by
  have hsub : firstSeen l ⊆ l := fun a ha => mem_firstSeen.mp ha
  exact (List.subperm_of_subset (nodup_firstSeen l) hsub).length_le

end Listing
