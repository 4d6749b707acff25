import Cookbook.Task.Mapping
import Mathlib.Tactic.Common

/-!
# The routes of the mapping

A declaration is mapped by the entry of its type in the table, by the definition of its type, or as a
placeholder, in this order (`Declaration.map_cases`). The table is a record, so a type that is named like
a member of all records is found in it; without an entry of its own such a declaration is not mapped
(`Declaration.exists_map_eq_ok_iff`).
-/

namespace Cookbook

open Mapping

/-- A declaration that is mapped takes one of the three routes. -/
theorem Declaration.map_cases {ctx : MappingContext} {d : Declaration} {actions : List Text} {m : MappedResource}
    (hmap : d.map ctx actions = .ok m) :
    (∃ mapping, ctx.table.get? d.type = some mapping ∧ m = builtin ctx.source mapping d actions) ∨
      ctx.table.get? d.type = none ∧
        ((∃ definition, ctx.definitions.get? d.type = some definition ∧
          m = custom ctx definition d actions) ∨
        ctx.definitions.get? d.type = none ∧ m = fallback ctx d actions) := by
  unfold Declaration.map at hmap
  by_cases hrefused : asksRefused d = true
  · rw [if_pos hrefused] at hmap
    cases hmap
  rw [if_neg hrefused] at hmap
  cases htable : ctx.table.get? d.type with
  | some mapping =>
    rw [htable] at hmap
    exact .inl ⟨mapping, rfl, (Except.ok.inj hmap).symm⟩
  | none =>
    rw [htable] at hmap
    dsimp only at hmap
    by_cases hmember : (Inherited.ofName? d.type).isSome = true
    · rw [if_pos hmember] at hmap
      cases hmap
    rw [if_neg hmember] at hmap
    cases hdefinition : ctx.definitions.get? d.type with
    | some definition =>
      rw [hdefinition] at hmap
      exact .inr ⟨rfl, .inl ⟨definition, rfl, (Except.ok.inj hmap).symm⟩⟩
    | none =>
      rw [hdefinition] at hmap
      exact .inr ⟨rfl, .inr ⟨rfl, (Except.ok.inj hmap).symm⟩⟩

theorem Declaration.map_builtin {ctx : MappingContext} {d : Declaration} {actions : List Text}
    {m : MappedResource} (hmap : d.map ctx actions = .ok m) {mapping : ResourceMapping}
    (htable : ctx.table.get? d.type = some mapping) : m = builtin ctx.source mapping d actions := by
  rcases Declaration.map_cases hmap with ⟨_, hfound, rfl⟩ | ⟨hnone, -⟩
  · rw [Option.some.inj (htable.symm.trans hfound)]
  · cases htable.symm.trans hnone

theorem Declaration.map_custom {ctx : MappingContext} {d : Declaration} {actions : List Text}
    {m : MappedResource} (hmap : d.map ctx actions = .ok m) {definition : ResourceDefinition}
    (htable : ctx.table.get? d.type = none)
    (hdefinition : ctx.definitions.get? d.type = some definition) :
    m = custom ctx definition d actions := by
  rcases Declaration.map_cases hmap with ⟨_, hfound, -⟩ | ⟨-, ⟨_, hfound, rfl⟩ | ⟨hnone, -⟩⟩
  · cases htable.symm.trans hfound
  · rw [Option.some.inj (hdefinition.symm.trans hfound)]
  · cases hdefinition.symm.trans hnone

/-- A declaration is mapped unless its type names a member of all records: then the type must have an
entry of its own, and none of the properties may be refused. -/
theorem Declaration.exists_map_eq_ok_iff {ctx : MappingContext} {d : Declaration} {actions : List Text} :
    (∃ m, d.map ctx actions = .ok m) ↔
      ∀ t : Inherited, t.name = d.type → (ctx.table.get? d.type).isSome = true ∧
        ∀ p ∈ d.properties, t.refuses p.name = false := by
  have hrefused : asksRefused d = true ↔
      ∃ t : Inherited, t.name = d.type ∧ ∃ p ∈ d.properties, t.refuses p.name = true := by
    simp only [asksRefused, Option.any_eq_true, Inherited.ofName?_eq_some_iff, List.any_eq_true]
  unfold Declaration.map
  by_cases h : asksRefused d = true
  · rw [if_pos h]
    obtain ⟨t, ht, p, hp, href⟩ := hrefused.1 h
    refine ⟨fun ⟨m, hm⟩ => (nomatch hm), fun hall => ?_⟩
    rw [(hall t ht).2 p hp] at href
    cases href
  rw [if_neg h]
  have hnone : ∀ t : Inherited, t.name = d.type → ∀ p ∈ d.properties, t.refuses p.name = false :=
    fun t ht p hp => Bool.eq_false_iff.2 fun href => h (hrefused.2 ⟨t, ht, p, hp, href⟩)
  cases htable : ctx.table.get? d.type with
  | some mapping => exact ⟨fun _ t ht => ⟨rfl, hnone t ht⟩, fun _ => ⟨_, rfl⟩⟩
  | none =>
    dsimp only
    cases hmember : Inherited.ofName? d.type with
    | some t =>
      refine ⟨fun ⟨m, hm⟩ => (nomatch hm), fun hall => ?_⟩
      exact absurd (hall t (Inherited.ofName?_eq_some_iff.1 hmember)).1 Bool.false_ne_true
    | none =>
      have hordinary : ∀ t : Inherited, t.name ≠ d.type := fun t ht => by
        rw [Inherited.ofName?_eq_some_iff.2 ht] at hmember
        cases hmember
      refine ⟨fun _ t ht => absurd ht (hordinary t), fun _ => ?_⟩
      cases ctx.definitions.get? d.type with
      | some definition => exact ⟨_, rfl⟩
      | none => exact ⟨_, rfl⟩

end Cookbook
