import Cookbook.Proofs.Attribute.References
import Mathlib.Data.Finset.Card

/-!
Putting the values in effect in the place of the paths that name them comes to an end, whatever the values
refer to: what lies above them, one another, or the same value many times. Each path that is followed is
new among those being followed, and there are only the paths of the value and of the table.

* `AttributeTable.Calls` says which values the walk through a value goes on to, and with which paths being
  followed; `AttributeTable.Walks` is the result of the walk, with no bound on how deep it goes;
* `AttributeTable.walks_iff` says that the walk ends, in one way, and that enough fuel gives its result;
* `AttributeTable.Walks.acc` says that no chain of calls goes on for ever, `AttributeTable.Visit.Within`
  what holds along such a chain;
* `resolve_terminates` is the result.
-/

namespace Cookbook

/-! ### Parts of values -/

def Value.parts : Value → List Value
  | .interpolation segments => segments
  | .list items => items
  | .map entries => entries.map (·.value)
  | _ => []

/-- Induction on a value, with what holds of all its parts. -/
theorem Value.part_ind {motive : Value → Prop} (step : ∀ v, (∀ w ∈ v.parts, motive w) → motive v)
    (v : Value) : motive v := by
  induction v using parts_ind with
  | literal _ | symbol _ | path _ _ | verbatim _ => exact step _ fun w hw => absurd hw List.not_mem_nil
  | interpolation segments ih => exact step _ ih
  | list items ih => exact step _ ih
  | map entries ih => exact step _ (List.forall_mem_map.2 ih)

theorem Value.mentions_of_part {v w : Value} (hw : w ∈ v.parts) : w.mentions ⊆ v.mentions := by
  intro m hm
  cases v with
  | literal _ | symbol _ | path _ _ | verbatim _ => exact absurd hw List.not_mem_nil
  | interpolation segments => exact mentions_interpolation segments ▸ List.mem_flatMap.2 ⟨w, hw, hm⟩
  | list items => exact mentions_list items ▸ List.mem_flatMap.2 ⟨w, hw, hm⟩
  | map entries =>
    obtain ⟨e, he, rfl⟩ := List.mem_map.1 hw
    exact mentions_map entries ▸ List.mem_flatMap.2 ⟨e, he, hm⟩

/-- What becomes of a value from what becomes of its parts. -/
def Value.assemble (result : Value → Resolved) : Value → Resolved
  | .interpolation segments =>
    let results := segments.map result
    ⟨.interpolate (results.map (·.value)), results.flatMap (·.unresolved), results.flatMap (·.cycles)⟩
  | .list items =>
    let results := items.map result
    ⟨.list (results.map (·.value)), results.flatMap (·.unresolved), results.flatMap (·.cycles)⟩
  | .map entries =>
    let results := entries.map fun e => (e.key, result e.value)
    ⟨.map (results.map fun r => ⟨r.1, r.2.value⟩), results.flatMap (·.2.unresolved),
      results.flatMap (·.2.cycles)⟩
  | v => .unchanged v

theorem Value.assemble_congr {f g : Value → Resolved} {v : Value} (h : ∀ w ∈ v.parts, f w = g w) :
    v.assemble f = v.assemble g := by
  cases v with
  | literal _ | symbol _ | path _ _ | verbatim _ => rfl
  | interpolation segments =>
    have hresults : segments.map f = segments.map g := List.map_congr_left h
    simp only [assemble, hresults]
  | list items =>
    have hresults : items.map f = items.map g := List.map_congr_left h
    simp only [assemble, hresults]
  | map entries =>
    have hresults : (entries.map fun e => (e.key, f e.value)) = entries.map fun e => (e.key, g e.value) :=
      List.map_congr_left fun e he => congrArg (Prod.mk e.key) (h e.value (List.mem_map_of_mem he))
    simp only [assemble, hresults]

/-- A value that is no path has its paths replaced part by part. -/
theorem Value.substitute_eq_assemble {v : Value} (hpath : ∀ scope keys, v ≠ .path scope keys)
    (f : Scope → KeyPath → Resolved) : v.substitute f = v.assemble fun w => w.substitute f := by
  cases v with
  | literal _ | symbol _ | verbatim _ => rfl
  | path scope keys => exact absurd rfl (hpath scope keys)
  | interpolation _ | list _ | map _ => simp [assemble, List.flatMap_map, Function.comp_def]

namespace AttributeTable

/-! ### The walk -/

/-- Where the walk stands: the texts of the paths being followed, and the value at hand. -/
structure Visit where
  visiting : List Text
  value : Value

/-- The walk goes on from a value to each of its parts, and from a path to its value. A path of the
resource itself, one that is being followed and one without a value lead nowhere. -/
inductive Calls (table : AttributeTable) : Visit → Visit → Prop
  | part {visiting : List Text} {v w : Value} (hw : w ∈ v.parts) :
      Calls table ⟨visiting, v⟩ ⟨visiting, w⟩
  | found {visiting : List Text} {scope : Scope} {keys : KeyPath} {w : Value}
      (hscope : scope ≠ .newResource) (hvisiting : keyPathId keys ∉ visiting)
      (hget : table.get? keys = some w) :
      Calls table ⟨visiting, .path scope keys⟩ ⟨keyPathId keys :: visiting, w⟩

/-- The walk through a value, with some paths being followed, ends with a result. -/
inductive Walks (table : AttributeTable) : List Text → Value → Resolved → Prop
  | assembled {visiting : List Text} {v : Value} (hpath : ∀ scope keys, v ≠ .path scope keys)
      (result : Value → Resolved) (h : ∀ w ∈ v.parts, Walks table visiting w (result w)) :
      Walks table visiting v (v.assemble result)
  | own {visiting : List Text} {scope : Scope} {keys : KeyPath} (hscope : scope = .newResource) :
      Walks table visiting (.path scope keys) (.unchanged (.path scope keys))
  | cycle {visiting : List Text} {scope : Scope} {keys : KeyPath} (hscope : scope ≠ .newResource)
      (hvisiting : keyPathId keys ∈ visiting) :
      Walks table visiting (.path scope keys) ⟨.path scope keys, [], [keys]⟩
  | missing {visiting : List Text} {scope : Scope} {keys : KeyPath} (hscope : scope ≠ .newResource)
      (hvisiting : keyPathId keys ∉ visiting) (hget : table.get? keys = none) :
      Walks table visiting (.path scope keys) ⟨.path scope keys, [keys], []⟩
  | found {visiting : List Text} {scope : Scope} {keys : KeyPath} {w : Value} {r : Resolved}
      (hscope : scope ≠ .newResource) (hvisiting : keyPathId keys ∉ visiting)
      (hget : table.get? keys = some w) (hw : Walks table (keyPathId keys :: visiting) w r) :
      Walks table visiting (.path scope keys) r

section Walks

variable {table : AttributeTable} {fuel : Nat} {visiting : List Text} {v w : Value} {r : Resolved}

/-- The walk through a value, from what becomes of each path in it. -/
theorem walks_substitute {f : Scope → KeyPath → Resolved}
    (h : ∀ m ∈ v.mentions, table.Outcome table.Walks visiting m.1 m.2 (f m.1 m.2)) :
    table.Walks visiting v (v.substitute f) := by
  induction v using Value.part_ind with
  | step v ih =>
    by_cases hpath : ∃ scope keys, v = .path scope keys
    · obtain ⟨scope, keys, rfl⟩ := hpath
      rw [Value.substitute_path]
      cases h (scope, keys) List.mem_cons_self with
      | own hscope hr => exact hr ▸ .own hscope
      | cycle hscope hvisiting hr => exact hr ▸ .cycle hscope hvisiting
      | missing hscope hvisiting hget hr => exact hr ▸ .missing hscope hvisiting hget
      | found hscope hvisiting hget hw => exact .found hscope hvisiting hget hw
    · push Not at hpath
      rw [Value.substitute_eq_assemble hpath]
      exact .assembled hpath _ fun w hw => ih w hw fun m hm => h m (Value.mentions_of_part hw hm)

/-- With enough fuel the walk ends, with what the fuel gives. -/
theorem walks_follow (henough : table.Enough fuel visiting v) :
    table.Walks visiting v (table.follow fuel visiting v) :=
  follow_ind (P := fun _ => table.Walks) (fun _ _ _ _ h => walks_substitute h) henough

theorem Enough.of_part (h : table.Enough fuel visiting v) (hw : w ∈ v.parts) :
    table.Enough fuel visiting w :=
  h.imp_right fun ⟨hlt, hids⟩ => ⟨hlt, fun m hm => hids m (Value.mentions_of_part hw hm)⟩

/-- The walk ends in one way only, which is the one that any fuel gives that is enough. -/
theorem Walks.eq_follow (h : table.Walks visiting v r) :
    ∀ fuel, table.Enough fuel visiting v → r = table.follow fuel visiting v := by
  induction h with
  | assembled hpath result _ ih =>
    intro fuel henough
    obtain ⟨n, rfl, -⟩ := henough.step
    rw [follow_succ, Value.substitute_eq_assemble hpath]
    exact Value.assemble_congr fun w hw => ih w hw _ (henough.of_part hw)
  | own hscope =>
    intro fuel henough
    obtain ⟨fuel, rfl, -⟩ := henough.step
    exact (replacement_own hscope).symm
  | cycle hscope hvisiting =>
    intro fuel henough
    obtain ⟨fuel, rfl, -⟩ := henough.step
    exact (replacement_of_mem hscope hvisiting).symm
  | missing hscope hvisiting hget =>
    intro fuel henough
    obtain ⟨fuel, rfl, -⟩ := henough.step
    exact (replacement_of_none hscope hvisiting hget).symm
  | found hscope hvisiting hget _ ih =>
    intro fuel henough
    obtain ⟨fuel, rfl, hfound⟩ := henough.step
    rw [ih fuel (hfound _ List.mem_cons_self hvisiting _ hget)]
    exact (replacement_of_some hscope hvisiting hget).symm

theorem walks_iff (henough : table.Enough fuel visiting v) :
    table.Walks visiting v r ↔ r = table.follow fuel visiting v :=
  ⟨fun h => h.eq_follow fuel henough, fun h => h ▸ walks_follow henough⟩

/-- From a path the walk goes on to its value alone, and only where it is followed. -/
theorem calls_path {scope : Scope} {keys : KeyPath} {next : Visit}
    (h : table.Calls ⟨visiting, .path scope keys⟩ next) :
    scope ≠ .newResource ∧ keyPathId keys ∉ visiting ∧
      ∃ w, table.get? keys = some w ∧ next = ⟨keyPathId keys :: visiting, w⟩ := by
  cases h with
  | part hw => exact absurd hw List.not_mem_nil
  | found hscope hvisiting hget => exact ⟨hscope, hvisiting, _, hget, rfl⟩

/-- Where the walk ends, all that it goes on to ends: no chain of calls goes on for ever. -/
theorem Walks.acc (h : table.Walks visiting v r) :
    Acc (fun inner outer => table.Calls outer inner) ⟨visiting, v⟩ := by
  induction h with
  | assembled hpath _ _ ih =>
    refine .intro _ fun next hcall => ?_
    cases hcall with
    | part hw => exact ih _ hw
    | found => exact absurd rfl (hpath _ _)
  | own hscope => exact .intro _ fun next hcall => absurd hscope (calls_path hcall).1
  | cycle _ hvisiting => exact .intro _ fun next hcall => absurd hvisiting (calls_path hcall).2.1
  | missing _ _ hget =>
    refine .intro _ fun next hcall => ?_
    obtain ⟨-, -, w, hw, -⟩ := calls_path hcall
    exact absurd (hget.symm.trans hw) (by simp)
  | found _ _ hget _ ih =>
    refine .intro _ fun next hcall => ?_
    obtain ⟨-, -, w, hw, rfl⟩ := calls_path hcall
    obtain rfl := Option.some.inj (hget.symm.trans hw)
    exact ih

theorem wellFounded_calls (table : AttributeTable) :
    WellFounded fun inner outer => table.Calls outer inner := by
  refine ⟨fun ⟨visiting, v⟩ => ?_⟩
  have henough : table.Enough (table.unvisited visiting + 2) visiting v := .inl (by omega)
  exact (walks_follow henough).acc

end Walks

/-! ### Chains of references -/

/-- The texts of the paths in a value and in the values of the table. -/
def idsWith (table : AttributeTable) (v : Value) : List Text :=
  v.mentions.map (fun m => keyPathId m.2) ++ table.mentionedIds

/-- Along the walk through `start` the paths being followed are different ones, from among those of the
value and the table, and so are the paths to come. -/
structure Visit.Within (table : AttributeTable) (start : Value) (a : Visit) : Prop where
  nodup : a.visiting.Nodup
  visiting : a.visiting ⊆ table.idsWith start
  ahead : ∀ m ∈ a.value.mentions, keyPathId m.2 ∈ table.idsWith start

section Chains

variable {table : AttributeTable} {start : Value} {a b : Visit}

theorem within_start (table : AttributeTable) (v : Value) : Visit.Within table v ⟨[], v⟩ where
  nodup := .nil
  visiting := List.nil_subset _
  ahead _ hm := List.mem_append_left _ (List.mem_map_of_mem hm)

theorem Visit.Within.step (h : a.Within table start) (hcall : table.Calls a b) : b.Within table start := by
  cases hcall with
  | part hw => exact ⟨h.nodup, h.visiting, fun m hm => h.ahead m (Value.mentions_of_part hw hm)⟩
  | found hscope hvisiting hget =>
    refine ⟨List.nodup_cons.2 ⟨hvisiting, h.nodup⟩, ?_, fun m hm => ?_⟩
    · exact List.cons_subset.2 ⟨h.ahead _ List.mem_cons_self, h.visiting⟩
    · exact List.mem_append_right _ (mem_mentionedIds_of_get? hget hm)

theorem Visit.Within.run (hrun : Relation.ReflTransGen table.Calls ⟨[], start⟩ a) : a.Within table start := by
  induction hrun with
  | refl => exact within_start table start
  | tail _ hcall ih => exact ih.step hcall

theorem Visit.Within.toFinset_subset (h : a.Within table start) :
    a.visiting.toFinset ⊆ (table.idsWith start).toFinset := by
  intro id hid
  rw [List.mem_toFinset] at hid ⊢
  exact h.visiting hid

/-- No more references follow one another than there are texts of paths. -/
theorem Visit.Within.length_le (h : a.Within table start) :
    a.visiting.length ≤ (table.idsWith start).toFinset.card := by
  rw [← List.toFinset_card_of_nodup h.nodup]
  exact Finset.card_le_card h.toFinset_subset

theorem ssubset_cons {id : Text} {visiting : List Text} (hid : id ∉ visiting) :
    visiting.toFinset ⊂ (id :: visiting).toFinset := by
  rw [List.toFinset_cons]
  exact Finset.ssubset_insert (by rwa [List.mem_toFinset])

end Chains

end AttributeTable

open AttributeTable in
/-- Replacing the paths in a value by the values in effect ends, with the one result that the walk through
the value has, and no chain of calls goes on for ever. On the way from the value, a step either goes to a
part of the value at hand or follows a path to its value, and then the set of paths being followed grows,
within the finite set of those in the value and in the table, which bounds how many follow one another.
What lies below a path is put together as deep as it is. -/
theorem resolve_terminates (table : AttributeTable) (v : Value) :
    (∀ r, table.Walks [] v r ↔ r = table.resolve v) ∧
    (WellFounded fun inner outer => table.Calls outer inner) ∧
    (∀ a b, Relation.ReflTransGen table.Calls ⟨[], v⟩ a → table.Calls a b →
      (b.visiting = a.visiting ∧ b.value ∈ a.value.parts) ∨
      ∃ scope keys, a.value = .path scope keys ∧ table.get? keys = some b.value ∧
        a.visiting.toFinset ⊂ b.visiting.toFinset ∧
        b.visiting.toFinset ⊆ (table.idsWith v).toFinset ∧
        b.visiting.length = a.visiting.length + 1 ∧
        b.visiting.length ≤ (table.idsWith v).toFinset.card) ∧
    ∀ keys depth, table.below keys ≠ [] → (∀ leaf ∈ table.below keys, leaf.1.length ≤ depth) →
      table.merged? keys = some (mergeLeaves depth (table.below keys)) := by
  refine ⟨fun r => walks_iff (table.enough_followFuel v), table.wellFounded_calls, ?_, ?_⟩
  · intro a b hrun hcall
    have hwithin := (Visit.Within.run hrun).step hcall
    cases hcall with
    | part hw => exact .inl ⟨rfl, hw⟩
    | found hscope hvisiting hget =>
      exact .inr ⟨_, _, rfl, hget, ssubset_cons hvisiting,
        hwithin.toFinset_subset, List.length_cons, hwithin.length_le⟩
  · intro keys depth hne hdepth
    rw [merged?_of_ne_nil hne, mergeLeaves_eq_mergeAll hdepth]

/-- An attribute that refers to what lies above it, and one that refers to the first: the walk stops where
it comes to the first again. -/
example :
    let table : AttributeTable := ⟨effectiveAttributes
      [⟨.default, ["a", "b"], .list [.path .node ["a"], .path .node ["c"]], none, none, none, false⟩,
       ⟨.default, ["c"], .path .node ["a", "b"], none, none, none, false⟩]⟩
    table.resolve (.path .node ["c"]) =
      ⟨.list [.map [⟨"b", .list [.path .node ["a"], .path .node ["c"]]⟩], .path .node ["c"]], [],
        [["a"], ["c"], ["c"]]⟩ := by
  rfl

end Cookbook
