import Cookbook.Proofs.Attribute.Lookup
import Cookbook.Proofs.Attribute.Paths
import Cookbook.Proofs.Attribute.Substitution
import Mathlib.Logic.Relation

/-!
Putting the values in effect in the place of the paths that name them. A path is followed to its value
and on through the paths in that, until a path has no value or has the text of one that is being
followed.

* `AttributeTable.Enough` is the fuel that lasts to the ends of all paths, `AttributeTable.follow_ind`
  the induction on the paths that are followed with it;
* `AttributeTable.unguarded` is replacement without a guard against cycles;
* `AttributeTable.Refers` says that the value of a path has another path in it, so that a path which
  leads to itself is a cycle;
* `resolve_reports_and_substitutes` says what is left of the paths, and that the guard is not seen where
  no cycle is reported.
-/

namespace Cookbook

/-! ### Two reports of one list -/

/-- `zs` has the elements of `xs` and `ys`, each list in its order. -/
inductive Interleaves {α : Type} : List α → List α → List α → Prop
  | nil : Interleaves [] [] []
  | left {xs ys zs : List α} (x : α) : Interleaves xs ys zs → Interleaves (x :: xs) ys (x :: zs)
  | right {xs ys zs : List α} (y : α) : Interleaves xs ys zs → Interleaves xs (y :: ys) (y :: zs)

namespace Interleaves

variable {α β : Type}

theorem append {xs ys zs xs' ys' zs' : List α} (h : Interleaves xs ys zs) (h' : Interleaves xs' ys' zs') :
    Interleaves (xs ++ xs') (ys ++ ys') (zs ++ zs') := by
  induction h with
  | nil => exact h'
  | left x _ ih => exact .left x ih
  | right y _ ih => exact .right y ih

theorem flatMap {l : List β} {a b c : β → List α} (h : ∀ m ∈ l, Interleaves (a m) (b m) (c m)) :
    Interleaves (l.flatMap a) (l.flatMap b) (l.flatMap c) := by
  induction l with
  | nil => exact .nil
  | cons m l ih =>
    rw [List.forall_mem_cons] at h
    exact h.1.append (ih h.2)

theorem mem_or_mem {xs ys zs : List α} (h : Interleaves xs ys zs) {z : α} (hz : z ∈ zs) :
    z ∈ xs ∨ z ∈ ys := by
  induction h with
  | nil => exact absurd hz List.not_mem_nil
  | left x _ ih =>
    rcases List.mem_cons.1 hz with rfl | hz
    · exact .inl List.mem_cons_self
    · exact (ih hz).imp_left (List.mem_cons_of_mem _)
  | right y _ ih =>
    rcases List.mem_cons.1 hz with rfl | hz
    · exact .inr List.mem_cons_self
    · exact (ih hz).imp_right (List.mem_cons_of_mem _)

theorem eq_of_right_nil {xs zs : List α} (h : Interleaves xs [] zs) : zs = xs := by
  generalize hys : ([] : List α) = ys at h
  induction h with
  | nil => rfl
  | left x _ ih => rw [ih hys]
  | right y _ _ => exact absurd hys (by simp)

end Interleaves

namespace AttributeTable

/-! ### Fuel -/

section Fuel

variable (table : AttributeTable)

/-- The texts of the paths in the values of the table. -/
def mentionedIds : List Text :=
  table.effective.flatMap fun e => e.value.mentions.map fun m => keyPathId m.2

def unvisited (visiting : List Text) : Nat := (table.mentionedIds.filter (· ∉ visiting)).length

/-- Fuel enough to follow the paths in a value to their ends. A value of the table has only paths that
are counted; in any other there is one step more, to a value of the table. -/
def Enough (fuel : Nat) (visiting : List Text) (v : Value) : Prop :=
  table.unvisited visiting + 1 < fuel ∨
    (table.unvisited visiting < fuel ∧ ∀ m ∈ v.mentions, keyPathId m.2 ∈ table.mentionedIds)

variable {table}

theorem mem_mentions_mergeLeaves {depth : Nat} {leaves : List (KeyPath × Value)} {m : Scope × KeyPath}
    (h : m ∈ (mergeLeaves depth leaves).mentions) : ∃ leaf ∈ leaves, m ∈ leaf.2.mentions := by
  have hlast : ∀ leaves : List (KeyPath × Value), m ∈ (lastValue leaves).mentions →
      ∃ leaf ∈ leaves, m ∈ leaf.2.mentions := by
    intro leaves hm
    unfold lastValue at hm
    cases hleaf : leaves.getLast? with
    | none =>
      rw [hleaf] at hm
      exact absurd hm (by simp)
    | some leaf =>
      rw [hleaf] at hm
      exact ⟨leaf, List.mem_of_getLast? hleaf, hm⟩
  induction depth generalizing leaves with
  | zero => exact hlast leaves h
  | succ depth ih =>
    rw [mergeLeaves_succ] at h
    split at h
    · exact hlast leaves h
    · rw [Value.mentions_map, List.flatMap_map, List.mem_flatMap] at h
      obtain ⟨key, -, hm⟩ := h
      obtain ⟨leaf, hleaf, hm⟩ := ih hm
      exact ⟨_, mem_leavesUnder.1 hleaf, hm⟩

/-- A path in a value that is looked up stands in a value of the table. -/
theorem mem_mentionedIds_of_get? {keys : KeyPath} {w : Value} {m : Scope × KeyPath}
    (hget : table.get? keys = some w) (hm : m ∈ w.mentions) : keyPathId m.2 ∈ table.mentionedIds := by
  obtain ⟨e, he, hm⟩ : ∃ e ∈ table.effective, m ∈ e.value.mentions := by
    rcases Option.or_eq_some_iff.1 hget with hleaf | ⟨-, hmerged⟩
    · obtain ⟨e, he, -, rfl⟩ := exists_of_leaf? hleaf
      exact ⟨e, he, hm⟩
    · unfold merged? at hmerged
      split at hmerged
      · exact absurd hmerged (by simp)
      · obtain rfl := Option.some.inj hmerged
        obtain ⟨leaf, hleaf, hm⟩ := mem_mentions_mergeLeaves hm
        obtain ⟨e, he, -, hvalue⟩ := mem_atOrBelow.1 (mem_below.1 hleaf).2
        exact ⟨e, he, hvalue ▸ hm⟩
  exact List.mem_flatMap.2 ⟨e, he, List.mem_map_of_mem hm⟩

theorem unvisited_cons_le (table : AttributeTable) (id : Text) (visiting : List Text) :
    table.unvisited (id :: visiting) ≤ table.unvisited visiting := by
  refine (List.monotone_filter_right _ fun t ht => ?_).length_le
  simp only [List.mem_cons, not_or, decide_eq_true_eq] at ht ⊢
  exact ht.2

theorem unvisited_cons_lt {id : Text} {visiting : List Text} (hid : id ∈ table.mentionedIds)
    (hvisiting : id ∉ visiting) : table.unvisited (id :: visiting) < table.unvisited visiting := by
  have hfilter : table.mentionedIds.filter (· ∉ id :: visiting) =
      (table.mentionedIds.filter (· ∉ visiting)).filter (· ≠ id) := by
    rw [List.filter_filter]
    simp [not_or]
  unfold unvisited
  rw [hfilter]
  apply List.length_filter_lt_length_iff_exists.2
  exact ⟨id, by simp [hid, hvisiting], by simp⟩

theorem followFuel_eq (table : AttributeTable) : table.followFuel = table.mentionedIds.length + 2 := by
  unfold followFuel mentionedIds
  simp only [Value.paths_eq, List.length_map, List.length_flatMap]
  rfl

theorem enough_followFuel (table : AttributeTable) (v : Value) : table.Enough table.followFuel [] v := by
  have hlength : table.unvisited [] ≤ table.mentionedIds.length := List.length_filter_le _ _
  left
  rw [followFuel_eq]
  omega

/-- The fuel is enough for the value of each path in turn. -/
theorem Enough.step {fuel : Nat} {visiting : List Text} {v : Value} (h : table.Enough fuel visiting v) :
    ∃ fuel', fuel = fuel' + 1 ∧ ∀ m ∈ v.mentions, keyPathId m.2 ∉ visiting →
      ∀ w, table.get? m.2 = some w → table.Enough fuel' (keyPathId m.2 :: visiting) w := by
  have hpos : 0 < fuel := by
    rcases h with h | ⟨h, -⟩ <;> omega
  refine ⟨fuel - 1, by omega, fun m hm hvisiting w hget => .inr ⟨?_, ?_⟩⟩
  · rcases h with h | ⟨h, hids⟩
    · have hle := unvisited_cons_le table (keyPathId m.2) visiting
      omega
    · have hlt := unvisited_cons_lt (hids m hm) hvisiting
      omega
  · exact fun m' hm' => mem_mentionedIds_of_get? hget hm'

end Fuel

/-! ### Following paths -/

/-- What becomes of a path on the way, where `P` holds of what becomes of the value that is found: a path
of the resource itself is kept, one that is being followed is a cycle, one without a value is missing. -/
inductive Outcome (table : AttributeTable) (P : List Text → Value → Resolved → Prop)
    (visiting : List Text) (scope : Scope) (keys : KeyPath) (r : Resolved) : Prop
  | own (hscope : scope = .newResource) (hr : r = .unchanged (.path scope keys))
  | cycle (hscope : scope ≠ .newResource) (hvisiting : keyPathId keys ∈ visiting)
      (hr : r = ⟨.path scope keys, [], [keys]⟩)
  | missing (hscope : scope ≠ .newResource) (hvisiting : keyPathId keys ∉ visiting)
      (hget : table.get? keys = none) (hr : r = ⟨.path scope keys, [keys], []⟩)
  | found {w : Value} (hscope : scope ≠ .newResource) (hvisiting : keyPathId keys ∉ visiting)
      (hget : table.get? keys = some w) (hw : P (keyPathId keys :: visiting) w r)

def replacement (table : AttributeTable) (fuel : Nat) (visiting : List Text) (scope : Scope)
    (keys : KeyPath) : Resolved :=
  if scope = .newResource then .unchanged (.path scope keys)
  else if visiting.contains (keyPathId keys) then ⟨.path scope keys, [], [keys]⟩
  else match table.get? keys with
    | none => ⟨.path scope keys, [keys], []⟩
    | some found => table.follow fuel (keyPathId keys :: visiting) found

theorem follow_succ (table : AttributeTable) (fuel : Nat) (visiting : List Text) (v : Value) :
    table.follow (fuel + 1) visiting v = v.substitute (table.replacement fuel visiting) := rfl

section Replacement

variable {table : AttributeTable} {fuel : Nat} {visiting : List Text} {scope : Scope} {keys : KeyPath}

theorem replacement_own (hscope : scope = .newResource) :
    table.replacement fuel visiting scope keys = .unchanged (.path scope keys) := if_pos hscope

theorem replacement_of_mem (hscope : scope ≠ .newResource) (hvisiting : keyPathId keys ∈ visiting) :
    table.replacement fuel visiting scope keys = ⟨.path scope keys, [], [keys]⟩ := by
  unfold replacement
  rw [if_neg hscope, if_pos (List.contains_iff_mem.2 hvisiting)]

theorem replacement_of_none (hscope : scope ≠ .newResource) (hvisiting : keyPathId keys ∉ visiting)
    (hget : table.get? keys = none) :
    table.replacement fuel visiting scope keys = ⟨.path scope keys, [keys], []⟩ := by
  unfold replacement
  rw [if_neg hscope, if_neg (mt List.contains_iff_mem.1 hvisiting), hget]

theorem replacement_of_some {w : Value} (hscope : scope ≠ .newResource)
    (hvisiting : keyPathId keys ∉ visiting) (hget : table.get? keys = some w) :
    table.replacement fuel visiting scope keys = table.follow fuel (keyPathId keys :: visiting) w := by
  unfold replacement
  rw [if_neg hscope, if_neg (mt List.contains_iff_mem.1 hvisiting), hget]

theorem outcome_replacement {P : List Text → Value → Resolved → Prop}
    (h : keyPathId keys ∉ visiting → ∀ w, table.get? keys = some w →
      P (keyPathId keys :: visiting) w (table.follow fuel (keyPathId keys :: visiting) w)) :
    table.Outcome P visiting scope keys (table.replacement fuel visiting scope keys) := by
  by_cases hscope : scope = .newResource
  · exact .own hscope (replacement_own hscope)
  by_cases hvisiting : keyPathId keys ∈ visiting
  · exact .cycle hscope hvisiting (replacement_of_mem hscope hvisiting)
  cases hget : table.get? keys with
  | none => exact .missing hscope hvisiting hget (replacement_of_none hscope hvisiting hget)
  | some w =>
    refine .found hscope hvisiting hget ?_
    rw [replacement_of_some hscope hvisiting hget]
    exact h hvisiting w hget

end Replacement

/-- Induction on the paths that are followed, where the fuel lasts to their ends. -/
theorem follow_ind {table : AttributeTable} {P : Nat → List Text → Value → Resolved → Prop}
    (step : ∀ fuel visiting v f, (∀ m ∈ v.mentions, table.Outcome (P fuel) visiting m.1 m.2 (f m.1 m.2)) →
      P (fuel + 1) visiting v (v.substitute f))
    {fuel : Nat} {visiting : List Text} {v : Value} (henough : table.Enough fuel visiting v) :
    P fuel visiting v (table.follow fuel visiting v) := by
  induction fuel generalizing visiting v with
  | zero =>
    obtain ⟨fuel, hfuel, -⟩ := henough.step
    omega
  | succ fuel ih =>
    -- only a path that has a value and is not being followed takes fuel, and then it is enough again
    obtain ⟨fuel', hfuel, hfound⟩ := henough.step
    obtain rfl : fuel' = fuel := by omega
    rw [follow_succ]
    apply step
    intro m hm
    apply outcome_replacement
    intro hvisiting w hget
    exact ih (hfound m hm hvisiting w hget)

section Follow

variable {table : AttributeTable} {fuel : Nat} {visiting : List Text} {v : Value}

/-- The paths that are left are the ones reported, each time they occur and in order. -/
theorem interleaves_follow (henough : table.Enough fuel visiting v) :
    Interleaves (table.follow fuel visiting v).unresolved (table.follow fuel visiting v).cycles
      (table.follow fuel visiting v).value.references := by
  refine follow_ind (P := fun _ _ _ r => Interleaves r.unresolved r.cycles r.value.references) ?_ henough
  intro fuel visiting v f h
  rw [(Value.reported_substitute f v).1, (Value.reported_substitute f v).2, Value.references_substitute]
  apply Interleaves.flatMap
  intro m hm
  cases h m hm with
  | own hscope hr =>
    rw [hr, hscope]
    exact .nil
  | cycle hscope hvisiting hr =>
    rw [hr, Value.references_path hscope]
    exact .right _ .nil
  | missing hscope hvisiting hget hr =>
    rw [hr, Value.references_path hscope]
    exact .left _ .nil
  | found hscope hvisiting hget hw => exact hw

theorem get?_of_mem_unresolved (henough : table.Enough fuel visiting v) :
    ∀ keys ∈ (table.follow fuel visiting v).unresolved, table.get? keys = none := by
  refine follow_ind (P := fun _ _ _ r => ∀ keys ∈ r.unresolved, table.get? keys = none) ?_ henough
  intro fuel visiting v f h keys hkeys
  rw [(Value.reported_substitute f v).1, List.mem_flatMap] at hkeys
  obtain ⟨m, hm, hkeys⟩ := hkeys
  cases h m hm with
  | own _ hr | cycle _ _ hr =>
    rw [hr] at hkeys
    exact absurd hkeys List.not_mem_nil
  | missing hscope hvisiting hget hr =>
    rw [hr] at hkeys
    rw [List.mem_singleton.1 hkeys]
    exact hget
  | found hscope hvisiting hget hw => exact hw keys hkeys

theorem joined_follow (henough : table.Enough fuel visiting v) :
    (table.follow fuel visiting v).value.Joined := by
  refine follow_ind (P := fun _ _ _ r => r.value.Joined) ?_ henough
  intro fuel visiting v f h
  apply Value.joined_substitute
  intro m hm
  cases h m hm with
  | own _ hr | cycle _ _ hr | missing _ _ _ hr =>
    rw [hr]
    trivial
  | found hscope hvisiting hget hw => exact hw

/-- Where no cycle is reported, fewer paths being followed and more fuel change nothing. -/
theorem follow_of_subset (henough : table.Enough fuel visiting v) :
    (table.follow fuel visiting v).cycles = [] → ∀ fuel' visiting', fuel ≤ fuel' → visiting' ⊆ visiting →
      table.follow fuel' visiting' v = table.follow fuel visiting v := by
  refine follow_ind (P := fun fuel visiting v r => r.cycles = [] → ∀ fuel' visiting', fuel ≤ fuel' →
    visiting' ⊆ visiting → table.follow fuel' visiting' v = r) ?_ henough
  intro fuel visiting v f h hcycles fuel' visiting' hfuel hsubset
  obtain ⟨fuel', rfl⟩ : ∃ n, fuel' = n + 1 := ⟨fuel' - 1, by omega⟩
  rw [Value.cycles_substitute_eq_nil] at hcycles
  rw [follow_succ]
  apply Value.substitute_congr
  intro m hm
  cases h m hm with
  | own hscope hr => rw [hr, replacement_own hscope]
  | cycle hscope hvisiting hr =>
    -- it would have been reported
    have hnone := hcycles m hm
    rw [hr] at hnone
    exact absurd hnone (by simp)
  | missing hscope hvisiting hget hr =>
    rw [hr, replacement_of_none hscope (fun hmem => hvisiting (hsubset hmem)) hget]
  | found hscope hvisiting hget hw =>
    rw [replacement_of_some hscope (fun hmem => hvisiting (hsubset hmem)) hget]
    exact hw (hcycles m hm) _ _ (by omega) (List.cons_subset_cons _ hsubset)

end Follow

/-! ### Replacement without a guard -/

/-- The value with its paths replaced by the values in effect, and the paths in those in turn, as often
as `depth` says. Nothing keeps a path from being followed through itself. -/
def unguarded (table : AttributeTable) : (depth : Nat) → Value → Value
  | 0, v => v
  | depth + 1, v =>
    (v.substitute fun scope keys => .unchanged <|
      if scope = .newResource then .path scope keys
      else match table.get? keys with
        | none => .path scope keys
        | some found => table.unguarded depth found).value

/-- Where no cycle is reported, the guard is not seen. -/
theorem unguarded_eq_follow {table : AttributeTable} {fuel : Nat} {visiting : List Text} {v : Value}
    (henough : table.Enough fuel visiting v) : (table.follow fuel visiting v).cycles = [] →
      ∀ depth ≥ fuel, table.unguarded depth v = (table.follow fuel visiting v).value := by
  refine follow_ind (P := fun fuel _ v r => r.cycles = [] →
    ∀ depth ≥ fuel, table.unguarded depth v = r.value) ?_ henough
  intro fuel visiting v f h hcycles depth hdepth
  obtain ⟨depth, rfl⟩ : ∃ n, depth = n + 1 := ⟨depth - 1, by omega⟩
  rw [Value.cycles_substitute_eq_nil] at hcycles
  apply Value.value_substitute_congr
  intro m hm
  cases h m hm with
  | own hscope hr =>
    rw [hr, if_pos hscope]
  | cycle hscope hvisiting hr =>
    have hnone := hcycles m hm
    rw [hr] at hnone
    exact absurd hnone (by simp)
  | missing hscope hvisiting hget hr =>
    rw [hr, if_neg hscope, hget]
    rfl
  | found hscope hvisiting hget hw =>
    rw [if_neg hscope, hget]
    exact hw (hcycles m hm) depth (by omega)

/-! ### Cycles -/

def Refers (table : AttributeTable) (path other : KeyPath) : Prop :=
  ∃ found, table.get? path = some found ∧ other ∈ found.references

theorem not_transGen_of_none {table : AttributeTable} {path other : KeyPath}
    (hget : table.get? path = none) : ¬ Relation.TransGen table.Refers path other := by
  intro h
  obtain ⟨_, ⟨found, hfound, -⟩, -⟩ := Relation.TransGen.head'_iff.1 h
  rw [hget] at hfound
  exact absurd hfound (by simp)

/-- A path in a value, or one to which a path in it leads. -/
def LeadsTo (table : AttributeTable) (v : Value) (path : KeyPath) : Prop :=
  ∃ first ∈ v.references, Relation.ReflTransGen table.Refers first path

theorem LeadsTo.trans {table : AttributeTable} {v : Value} {path other : KeyPath}
    (h : table.LeadsTo v path) (hpath : Relation.TransGen table.Refers path other) :
    table.LeadsTo v other := by
  obtain ⟨first, hfirst, hlead⟩ := h
  exact ⟨first, hfirst, hlead.trans hpath.to_reflTransGen⟩

/-- Every path being followed leads to each path in the value at hand, and `start` leads to all of
them. -/
structure OnTheWay (table : AttributeTable) (start : Value) (visiting : List Text) (v : Value) :
    Prop where
  here : ∀ keys ∈ v.references, table.LeadsTo start keys
  back : ∀ id ∈ visiting, ∃ origin, table.LeadsTo start origin ∧ keyPathId origin = id ∧
    ∀ keys ∈ v.references, Relation.TransGen table.Refers origin keys

theorem onTheWay_start (table : AttributeTable) (v : Value) : table.OnTheWay v [] v where
  here keys hkeys := ⟨keys, hkeys, .refl⟩
  back _ hid := absurd hid List.not_mem_nil

theorem OnTheWay.step {table : AttributeTable} {start v w : Value} {visiting : List Text} {keys : KeyPath}
    (h : table.OnTheWay start visiting v) (hkeys : keys ∈ v.references)
    (hget : table.get? keys = some w) : table.OnTheWay start (keyPathId keys :: visiting) w where
  here next hnext := (h.here keys hkeys).trans (.single ⟨w, hget, hnext⟩)
  back id hid := by
    rcases List.mem_cons.1 hid with rfl | hid
    · exact ⟨keys, h.here keys hkeys, rfl, fun next hnext => .single ⟨w, hget, hnext⟩⟩
    · obtain ⟨origin, hstart, hid, horigin⟩ := h.back id hid
      exact ⟨origin, hstart, hid, fun next hnext => (horigin keys hkeys).tail ⟨w, hget, hnext⟩⟩

/-- A path reported as a cycle has the text of one that leads to it. -/
theorem exists_origin_of_mem_cycles {table : AttributeTable} {fuel : Nat} {visiting : List Text}
    {start v : Value} (henough : table.Enough fuel visiting v) : table.OnTheWay start visiting v →
      ∀ keys ∈ (table.follow fuel visiting v).cycles, ∃ origin, table.LeadsTo start origin ∧
        keyPathId origin = keyPathId keys ∧ Relation.TransGen table.Refers origin keys := by
  refine follow_ind (P := fun _ visiting v r => table.OnTheWay start visiting v → ∀ keys ∈ r.cycles,
    ∃ origin, table.LeadsTo start origin ∧ keyPathId origin = keyPathId keys ∧
      Relation.TransGen table.Refers origin keys) ?_ henough
  intro fuel visiting v f h hway keys hkeys
  rw [(Value.reported_substitute f v).2, List.mem_flatMap] at hkeys
  obtain ⟨m, hm, hkeys⟩ := hkeys
  cases h m hm with
  | own _ hr | missing _ _ _ hr =>
    rw [hr] at hkeys
    exact absurd hkeys List.not_mem_nil
  | cycle hscope hvisiting hr =>
    rw [hr] at hkeys
    obtain rfl := List.mem_singleton.1 hkeys
    obtain ⟨origin, hstart, hid, horigin⟩ := hway.back _ hvisiting
    exact ⟨origin, hstart, hid, horigin _ (Value.mem_references.2 ⟨m.1, hscope, hm⟩)⟩
  | found hscope hvisiting hget hw =>
    exact hw (hway.step (Value.mem_references.2 ⟨m.1, hscope, hm⟩) hget) keys hkeys

/-! ### Resolving -/

section Resolve

variable {table : AttributeTable} {v : Value}

theorem interleaves_resolve (table : AttributeTable) (v : Value) :
    Interleaves (table.resolve v).unresolved (table.resolve v).cycles (table.resolve v).value.references :=
  interleaves_follow (table.enough_followFuel v)

theorem resolve_path {scope : Scope} {keys : KeyPath} {found : Value} (hscope : scope ≠ .newResource)
    (hget : table.get? keys = some found) (hcycles : (table.resolve (.path scope keys)).cycles = []) :
    table.resolve (.path scope keys) = table.resolve found := by
  obtain ⟨fuel, hfuel, henough⟩ := (table.enough_followFuel (.path scope keys)).step
  have hstep : table.resolve (.path scope keys) = table.follow fuel [keyPathId keys] found := by
    unfold resolve
    rw [hfuel, follow_succ]
    exact replacement_of_some hscope List.not_mem_nil hget
  rw [hstep] at hcycles ⊢
  refine (follow_of_subset ?_ hcycles _ _ (by omega) (List.nil_subset _)).symm
  exact henough (scope, keys) List.mem_cons_self List.not_mem_nil found hget

/-- A joined value is left as it is when none of its paths has a value. -/
theorem resolve_of_get?_eq_none (hjoined : v.Joined)
    (hnone : ∀ keys ∈ v.references, table.get? keys = none) :
    table.resolve v = ⟨v, v.references, []⟩ := by
  obtain ⟨fuel, hfuel, -⟩ := (table.enough_followFuel v).step
  have hstep : table.resolve v = v.substitute (table.replacement fuel []) := by
    unfold resolve
    rw [hfuel, follow_succ]
  have hkept : ∀ m ∈ v.mentions, (table.replacement fuel [] m.1 m.2).value = .path m.1 m.2 ∧
      (table.replacement fuel [] m.1 m.2).cycles = [] := by
    intro m hm
    by_cases hscope : m.1 = .newResource
    · rw [replacement_own hscope]
      exact ⟨rfl, rfl⟩
    · rw [replacement_of_none hscope List.not_mem_nil (hnone _ (Value.mem_references.2 ⟨_, hscope, hm⟩))]
      exact ⟨rfl, rfl⟩
  have hvalue : (table.resolve v).value = v := by
    rw [hstep]
    exact Value.substitute_of_joined hjoined fun m hm => (hkept m hm).1
  have hcycles : (table.resolve v).cycles = [] := by
    rw [hstep, Value.cycles_substitute_eq_nil]
    exact fun m hm => (hkept m hm).2
  have hleft := table.interleaves_resolve v
  rw [hcycles, hvalue] at hleft
  rw [hleft.eq_of_right_nil, ← hcycles]
  nth_rewrite 2 [← hvalue]
  rfl

/-- What is left of a value in which no cycle was found stays as it is. -/
theorem resolve_resolve (hcycles : (table.resolve v).cycles = []) :
    table.resolve (table.resolve v).value = table.resolve v := by
  have hleft := table.interleaves_resolve v
  rw [hcycles] at hleft
  have hsame := hleft.eq_of_right_nil
  have hjoined : (table.resolve v).value.Joined := joined_follow (table.enough_followFuel v)
  rw [resolve_of_get?_eq_none hjoined, hsame, ← hcycles]
  rw [hsame]
  exact get?_of_mem_unresolved (table.enough_followFuel v)

/-- Where the texts of paths tell them apart, a path reported as a cycle leads to itself. -/
theorem transGen_of_mem_cycles (hpaths : ∀ path, table.LeadsTo v path → path ≠ [] ∧ path.NulFree)
    {keys : KeyPath} (hkeys : keys ∈ (table.resolve v).cycles) :
    Relation.TransGen table.Refers keys keys := by
  obtain ⟨origin, hstart, hid, horigin⟩ :=
    exists_origin_of_mem_cycles (table.enough_followFuel v) (table.onTheWay_start v) keys hkeys
  obtain ⟨hne, hfree⟩ := hpaths origin hstart
  obtain ⟨hne', hfree'⟩ := hpaths keys (hstart.trans horigin)
  rwa [(keyPathId_inj hfree hne hfree' hne').1 hid] at horigin

end Resolve

end AttributeTable

/-- What is left of the paths of a value, once they are replaced by the values in effect, is what is
reported: a path without a value as missing, and as a cycle one that has the text of a path that leads
to it, which is itself where the texts tell the paths apart. Code in the value stays. Where no cycle is
reported, replacement without a guard comes to the same end, and nothing is left to replace. -/
theorem resolve_reports_and_substitutes (table : AttributeTable) (v : Value) :
    let r := table.resolve v
    Interleaves r.unresolved r.cycles r.value.references ∧
    (∀ keys ∈ r.unresolved, table.get? keys = none) ∧
    (∀ keys ∈ r.cycles, ∃ origin, table.LeadsTo v origin ∧ keyPathId origin = keyPathId keys ∧
      Relation.TransGen table.Refers origin keys) ∧
    ((∀ path, table.LeadsTo v path → path ≠ [] ∧ path.NulFree) →
      (∀ keys ∈ r.value.references, keys ∈ r.unresolved ↔ table.get? keys = none) ∧
        ∀ keys ∈ r.cycles, Relation.TransGen table.Refers keys keys) ∧
    v.verbatims.Sublist r.value.verbatims ∧
    (r.cycles = [] →
      (∀ depth ≥ table.followFuel, table.unguarded depth v = r.value) ∧
      (∀ scope keys found, v = .path scope keys → scope ≠ .newResource →
        table.get? keys = some found → r = table.resolve found) ∧
      table.resolve r.value = r) := by
  intro r
  have henough := table.enough_followFuel v
  refine ⟨table.interleaves_resolve v, AttributeTable.get?_of_mem_unresolved henough,
    AttributeTable.exists_origin_of_mem_cycles henough (table.onTheWay_start v), ?_, ?_, ?_⟩
  · intro hpaths
    refine ⟨fun keys hkeys => ⟨AttributeTable.get?_of_mem_unresolved henough keys, ?_⟩,
      fun keys => AttributeTable.transGen_of_mem_cycles hpaths⟩
    intro hget
    refine ((table.interleaves_resolve v).mem_or_mem hkeys).resolve_right ?_
    intro hcycle
    exact AttributeTable.not_transGen_of_none hget (AttributeTable.transGen_of_mem_cycles hpaths hcycle)
  · obtain ⟨fuel, hfuel, -⟩ := henough.step
    show v.verbatims.Sublist (table.follow table.followFuel [] v).value.verbatims
    rw [hfuel, AttributeTable.follow_succ]
    exact Value.verbatims_sublist_substitute _ v
  · intro hcycles
    refine ⟨AttributeTable.unguarded_eq_follow henough hcycles, ?_, AttributeTable.resolve_resolve hcycles⟩
    rintro scope keys found rfl hscope hget
    exact AttributeTable.resolve_path hscope hget hcycles

/-- A path without a value is reported as a cycle, and not as missing, when it has the text of another
that is being followed: the one key here has the text of two. -/
theorem missing_path_reported_as_cycle :
    let joined : Text := [97, 0, 98]
    let table : AttributeTable := ⟨effectiveAttributes
      [⟨.default, ["a", "b", "c"], .path .node [joined], none, none, none, false⟩]⟩
    table.get? [joined] = none ∧
      table.resolve (.path .node ["a", "b"]) = ⟨.map [⟨"c", .path .node [joined]⟩], [], [[joined]]⟩ ∧
      ∃ origin, origin ≠ [joined] ∧ keyPathId origin = keyPathId [joined] ∧
        Relation.TransGen table.Refers origin [joined] := by
  intro joined table
  have hget : table.get? [joined] = none := rfl
  have hcycles : [joined] ∈ (table.resolve (.path .node ["a", "b"])).cycles := List.mem_cons_self
  obtain ⟨origin, -, hid, horigin⟩ :=
    (resolve_reports_and_substitutes table (.path .node ["a", "b"])).2.2.1 [joined] hcycles
  refine ⟨hget, rfl, origin, ?_, hid, horigin⟩
  rintro rfl
  exact AttributeTable.not_transGen_of_none hget horigin

end Cookbook
