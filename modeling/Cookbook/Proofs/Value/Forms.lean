import Cookbook.Proofs.Value.Steps

/-!
What values are read as. Reading makes literals, symbols, paths with at least one key, lists, hashes,
joined texts and pieces of code, and takes values from the names in force; what these forms keep holds of
every value that is read.

* `Value.ReadingKeeps` says of a property that the forms keep it;
* `NormalizeContext.Makes.keeps` is one step of the reading, `NormalizeContext.normalize_kept` the whole.
-/

namespace Cookbook

/-- A property that holds of whatever a reading makes, if it holds of the parts. -/
structure Value.ReadingKeeps (P : Value → Prop) : Prop where
  literal : ∀ s, P (.literal s)
  symbol : ∀ name, P (.symbol name)
  path : ∀ scope keys, keys ≠ [] → P (.path scope keys)
  interpolate : ∀ parts : List Value, (∀ v ∈ parts, P v) → P (.interpolate parts)
  list : ∀ items : List Value, (∀ v ∈ items, P v) → P (.list items)
  map : ∀ entries : List Entry, (∀ e ∈ entries, P e.value) → P (.map entries)
  verbatim : ∀ raw, P (.verbatim raw)

theorem Value.ReadingKeeps.trivial : Value.ReadingKeeps fun _ => True where
  literal _ := True.intro
  symbol _ := True.intro
  path _ _ _ := True.intro
  interpolate _ _ := True.intro
  list _ _ := True.intro
  map _ _ := True.intro
  verbatim _ := True.intro

namespace NormalizeContext

section Kept

variable {ctx : NormalizeContext} {P : Value → Prop} (hP : Value.ReadingKeeps P)
  (hconstants : ∀ name v, ctx.constants.get? name = some v → P v)

include hP hconstants

theorem Plain.keeps {v : Value} (h : ctx.Plain v) : P v := by
  cases h with
  | literal s => exact hP.literal s
  | symbol name => exact hP.symbol name
  | path scope hkeys => exact hP.path scope _ hkeys
  | words words symbols =>
    refine hP.list _ fun v hv => ?_
    obtain ⟨w, -, rfl⟩ := List.mem_map.1 hv
    split
    · exact hP.symbol _
    · exact hP.literal _
  | constant h => exact hconstants _ _ h

/-- A step makes values with the property where the values that it reads on the way have it. -/
theorem Makes.keeps {whole : List Token → Normalized} (hwhole : ∀ run, P (whole run).value)
    {run : List Token} {n : Normalized} (h : ctx.Makes whole run n) : P n.value := by
  cases h with
  | kept _ _ => exact hP.verbatim _
  | plain h => exact h.keeps hP hconstants
  | text _ _ =>
    refine hP.interpolate _ fun v hv => ?_
    obtain ⟨n, hn, rfl⟩ := List.mem_map.1 hv
    obtain ⟨part, -, hpart⟩ := List.mem_filterMap.1 hn
    obtain ⟨value, rfl⟩ | ⟨source, offset, -, rfl⟩ := part?_cases hpart
    · exact hP.literal _
    · exact hwhole _
  | list _ =>
    refine hP.list _ fun v hv => ?_
    obtain ⟨n, hn, rfl⟩ := List.mem_map.1 hv
    obtain ⟨piece, -, rfl⟩ := List.mem_map.1 hn
    exact hwhole piece
  | map _ =>
    refine hP.map _ fun e he => ?_
    obtain ⟨pair, -, rfl⟩ := List.mem_map.1 he
    exact hwhole pair.2
  | inside _ => exact hwhole _

/-- What the forms keep holds of every value that is read, if it holds of the names in force. -/
theorem normalize_kept (run : List Token) : P (ctx.normalize run).value :=
  normalize_induct (Q := fun _ n => P n.value) (fun _ => hP.verbatim _)
    (fun _ _ _ hwhole h => h.keeps hP hconstants hwhole) run

end Kept

end NormalizeContext

end Cookbook
