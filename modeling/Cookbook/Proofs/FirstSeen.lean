import Mathlib.Data.List.Induction
import Mathlib.Data.List.Nodup

/-!
First occurrences. A list without what occurs again keeps each element once, where it is first seen.

* `FirstSeen` says this of two lists, `firstSeen_eraseDups` that dropping repetitions has it;
* `eraseDups_map` says that a map which tells the elements apart may come before or after.
-/

namespace Cookbook

section EraseDups

variable {β : Type} [BEq β] [LawfulBEq β] {l : List β} {b : β}

theorem eraseDups_concat_of_mem (h : b ∈ l) : (l ++ [b]).eraseDups = l.eraseDups := by
  have hnone : [b].removeAll l = [] := by simp [List.removeAll, h]
  rw [List.eraseDups_append, hnone]
  exact List.append_nil _

theorem eraseDups_concat_of_not_mem (h : b ∉ l) : (l ++ [b]).eraseDups = l.eraseDups ++ [b] := by
  have hone : [b].removeAll l = [b] := by simp [List.removeAll, h]
  rw [List.eraseDups_append, hone]
  rfl

theorem nodup_eraseDups (l : List β) : l.eraseDups.Nodup := by
  induction l using List.reverseRecOn with
  | nil => exact List.nodup_nil
  | append_singleton l b ih =>
    by_cases h : b ∈ l
    · rw [eraseDups_concat_of_mem h]
      exact ih
    · rw [eraseDups_concat_of_not_mem h]
      exact List.nodup_append.2 ⟨ih, by simp, by
        rintro a ha b' hb rfl
        rw [List.mem_singleton] at hb
        exact h (List.mem_eraseDups.1 (hb ▸ ha))⟩

theorem eraseDups_map {α : Type} [BEq α] [LawfulBEq α] {f : α → β} {l : List α}
    (hf : ∀ a ∈ l, ∀ b ∈ l, f a = f b → a = b) : (l.map f).eraseDups = l.eraseDups.map f := by
  induction l using List.reverseRecOn with
  | nil => rfl
  | append_singleton l b ih =>
    have hb : b ∈ l ++ [b] := List.mem_append_right _ (List.mem_singleton_self b)
    have hl : ∀ {a}, a ∈ l → a ∈ l ++ [b] := List.mem_append_left _
    have hmap := ih fun a ha a' ha' => hf a (hl ha) a' (hl ha')
    rw [List.map_append, List.map_singleton]
    by_cases h : b ∈ l
    · rw [eraseDups_concat_of_mem h, eraseDups_concat_of_mem (List.mem_map_of_mem h), hmap]
    · have hnew : f b ∉ l.map f := by
        intro hmem
        obtain ⟨a, ha, heq⟩ := List.mem_map.1 hmem
        exact h (hf a (hl ha) b hb heq ▸ ha)
      rw [eraseDups_concat_of_not_mem h, eraseDups_concat_of_not_mem hnew, hmap, List.map_append]
      rfl

end EraseDups

/-- `seen` has every element of `all` once, in the order in which they first occur there. -/
structure FirstSeen {α : Type} [BEq α] (all seen : List α) : Prop where
  nodup : seen.Nodup
  mem_iff : ∀ a, a ∈ seen ↔ a ∈ all
  order : seen.Pairwise fun a b => all.idxOf a < all.idxOf b

theorem firstSeen_eraseDups {α : Type} [BEq α] [LawfulBEq α] (l : List α) :
    FirstSeen l l.eraseDups where
  nodup := nodup_eraseDups l
  mem_iff := fun _ => List.mem_eraseDups
  order := by
    induction l using List.reverseRecOn with
    | nil => exact List.Pairwise.nil
    | append_singleton l b ih =>
      have hold : l.eraseDups.Pairwise fun a c => (l ++ [b]).idxOf a < (l ++ [b]).idxOf c := by
        refine ih.imp_of_mem fun ha hc hlt => ?_
        rw [List.idxOf_append_of_mem (List.mem_eraseDups.1 ha),
          List.idxOf_append_of_mem (List.mem_eraseDups.1 hc)]
        exact hlt
      by_cases h : b ∈ l
      · rw [eraseDups_concat_of_mem h]
        exact hold
      · rw [eraseDups_concat_of_not_mem h]
        refine List.pairwise_append.2 ⟨hold, List.pairwise_singleton _ _, fun a ha c hc => ?_⟩
        obtain rfl := List.mem_singleton.1 hc
        have ha := List.mem_eraseDups.1 ha
        rw [List.idxOf_append_of_mem ha, List.idxOf_append_of_notMem h]
        exact Nat.lt_of_lt_of_le (List.idxOf_lt_length_of_mem ha) (Nat.le_add_right _ _)

end Cookbook
