import Cookbook.Attribute.Table
import Cookbook.Proofs.Value.Reporting

/-!
Replacing the paths in a value. Text with values in it is put together again when a path in it is
replaced, so the value that comes out may have another shape; what is in it is still read off from what
each path is replaced by.

* `Value.mentions` are the paths in a value with their scopes, `Value.references` those that are looked
  up;
* `Value.mentions_substitute`, `Value.reported_substitute` and `Value.verbatims_sublist_substitute` say
  what is in a value whose paths are replaced, and what is reported about it;
* `Value.substitute_of_joined` says that a value whose texts are put together stays as it is, when every
  path is replaced by itself.
-/

namespace Cookbook

/-! ### Paths in a value -/

mutual

/-- The paths in a value with their scopes, from left to right. -/
def Value.mentions : Value → List (Scope × KeyPath)
  | .path scope keys => [(scope, keys)]
  | .interpolation segments => mentionsIn segments
  | .list items => mentionsIn items
  | .map entries => mentionsOf entries
  | _ => []

def mentionsIn : List Value → List (Scope × KeyPath)
  | [] => []
  | v :: rest => v.mentions ++ mentionsIn rest

def mentionsOf : List Entry → List (Scope × KeyPath)
  | [] => []
  | ⟨_, v⟩ :: rest => v.mentions ++ mentionsOf rest

end

/-- The paths in a value that are looked up: those of every scope but the resource's own. -/
def Value.references (v : Value) : List KeyPath :=
  v.mentions.filterMap fun m => if m.1 = .newResource then none else some m.2

theorem mentionsIn_eq (values : List Value) : mentionsIn values = values.flatMap Value.mentions := by
  induction values with
  | nil => rfl
  | cons v rest ih => rw [mentionsIn, ih, List.flatMap_cons]

theorem mentionsOf_eq (entries : List Entry) :
    mentionsOf entries = entries.flatMap fun e => e.value.mentions := by
  induction entries with
  | nil => rfl
  | cons e rest ih =>
    obtain ⟨key, v⟩ := e
    rw [mentionsOf, ih, List.flatMap_cons]

mutual

theorem Value.paths_eq : ∀ v : Value, v.paths = v.mentions.map Prod.snd
  | .path _ _ => rfl
  | .interpolation segments => by rw [Value.paths, Value.mentions, pathsIn_eq segments]
  | .list items => by rw [Value.paths, Value.mentions, pathsIn_eq items]
  | .map entries => by rw [Value.paths, Value.mentions, pathsOf_eq entries]
  | .literal _ | .symbol _ | .verbatim _ => rfl

theorem pathsIn_eq : ∀ values : List Value, pathsIn values = (mentionsIn values).map Prod.snd
  | [] => rfl
  | v :: rest => by rw [pathsIn, mentionsIn, List.map_append, v.paths_eq, pathsIn_eq rest]

theorem pathsOf_eq : ∀ entries : List Entry, pathsOf entries = (mentionsOf entries).map Prod.snd
  | [] => rfl
  | ⟨_, v⟩ :: rest => by rw [pathsOf, mentionsOf, List.map_append, v.paths_eq, pathsOf_eq rest]

end

theorem Value.mem_references {v : Value} {keys : KeyPath} :
    keys ∈ v.references ↔ ∃ scope, scope ≠ .newResource ∧ (scope, keys) ∈ v.mentions := by
  unfold references
  rw [List.mem_filterMap]
  constructor
  · rintro ⟨⟨scope, keys'⟩, hmem, hsome⟩
    by_cases hscope : scope = .newResource
    · exact absurd hsome (by simp [hscope])
    · obtain rfl : keys' = keys := by simpa [hscope] using hsome
      exact ⟨scope, hscope, hmem⟩
  · rintro ⟨scope, hscope, hmem⟩
    exact ⟨_, hmem, if_neg hscope⟩

theorem Value.references_path {scope : Scope} (hscope : scope ≠ .newResource) (keys : KeyPath) :
    (Value.path scope keys).references = [keys] := by
  simp [references, mentions, hscope]

theorem Value.mentions_interpolate (parts : List Value) :
    (interpolate parts).mentions = parts.flatMap mentions := by
  refine collect_interpolate ?_ (fun segments => by rw [mentions, mentionsIn_eq]) parts
  intro v s h
  cases v with
  | literal _ | symbol _ | verbatim _ => rfl
  | path _ _ | interpolation _ | list _ | map _ => exact absurd h (by simp [scalar?])

/-! ### Replacing paths -/

section Substitute

variable (f g : Scope → KeyPath → Resolved)

theorem substituteAll_eq (values : List Value) : substituteAll f values =
    ⟨values.map fun v => (v.substitute f).value, values.flatMap fun v => (v.substitute f).unresolved,
      values.flatMap fun v => (v.substitute f).cycles⟩ := by
  induction values with
  | nil => rfl
  | cons v rest ih => simp only [substituteAll, ih, List.map_cons, List.flatMap_cons]

theorem substituteEntries_eq (entries : List Entry) : substituteEntries f entries =
    ⟨entries.map fun e => ⟨e.key, (e.value.substitute f).value⟩,
      entries.flatMap fun e => (e.value.substitute f).unresolved,
      entries.flatMap fun e => (e.value.substitute f).cycles⟩ := by
  induction entries with
  | nil => rfl
  | cons e rest ih =>
    obtain ⟨key, v⟩ := e
    simp only [substituteEntries, ih, List.map_cons, List.flatMap_cons]

namespace Value

@[simp] theorem substitute_interpolation (segments : List Value) :
    (Value.interpolation segments).substitute f =
      ⟨interpolate (segments.map fun v => (v.substitute f).value),
        segments.flatMap fun v => (v.substitute f).unresolved,
        segments.flatMap fun v => (v.substitute f).cycles⟩ := by
  rw [substitute, substituteAll_eq]

@[simp] theorem substitute_list (items : List Value) :
    (Value.list items).substitute f =
      ⟨.list (items.map fun v => (v.substitute f).value),
        items.flatMap fun v => (v.substitute f).unresolved,
        items.flatMap fun v => (v.substitute f).cycles⟩ := by
  rw [substitute, substituteAll_eq]

@[simp] theorem substitute_map (entries : List Entry) :
    (Value.map entries).substitute f =
      ⟨.map (entries.map fun e => ⟨e.key, (e.value.substitute f).value⟩),
        entries.flatMap fun e => (e.value.substitute f).unresolved,
        entries.flatMap fun e => (e.value.substitute f).cycles⟩ := by
  rw [substitute, substituteEntries_eq]

@[simp] theorem substitute_path (scope : Scope) (keys : KeyPath) :
    (Value.path scope keys).substitute f = f scope keys := rfl

@[simp] theorem mentions_list (items : List Value) :
    (Value.list items).mentions = items.flatMap mentions :=
  mentionsIn_eq items

@[simp] theorem mentions_interpolation (segments : List Value) :
    (Value.interpolation segments).mentions = segments.flatMap mentions :=
  mentionsIn_eq segments

@[simp] theorem mentions_map (entries : List Entry) :
    (Value.map entries).mentions = entries.flatMap fun e => e.value.mentions :=
  mentionsOf_eq entries

variable {f g}

/-- The value depends on what becomes of the paths in it alone. -/
theorem value_substitute_congr {v : Value}
    (h : ∀ m ∈ v.mentions, (f m.1 m.2).value = (g m.1 m.2).value) :
    (v.substitute f).value = (v.substitute g).value := by
  induction v using parts_ind with
  | literal _ | symbol _ | verbatim _ => rfl
  | path scope keys => exact h (scope, keys) List.mem_cons_self
  | interpolation segments ih =>
    simp only [mentions_interpolation, List.mem_flatMap, forall_exists_index, and_imp] at h
    simp only [substitute_interpolation]
    rw [List.map_congr_left fun v hv => ih v hv fun m hm => h m v hv hm]
  | list items ih =>
    simp only [mentions_list, List.mem_flatMap, forall_exists_index, and_imp] at h
    simp only [substitute_list]
    rw [List.map_congr_left fun v hv => ih v hv fun m hm => h m v hv hm]
  | map entries ih =>
    simp only [mentions_map, List.mem_flatMap, forall_exists_index, and_imp] at h
    simp only [substitute_map, Value.map.injEq]
    apply List.map_congr_left
    intro e he
    rw [ih e he fun m hm => h m e he hm]

variable (f)

/-- The paths in a value come from what its paths were replaced by. -/
theorem mentions_substitute (v : Value) :
    (v.substitute f).value.mentions = v.mentions.flatMap fun m => (f m.1 m.2).value.mentions := by
  induction v using parts_ind with
  | literal _ | symbol _ | verbatim _ => rfl
  | path scope keys => simp [mentions]
  | interpolation segments ih =>
    simp only [substitute_interpolation, mentions_interpolate, mentions_interpolation, List.flatMap_map,
      List.flatMap_assoc]
    exact List.flatMap_congr ih
  | list items ih =>
    simp only [substitute_list, mentions_list, List.flatMap_map, List.flatMap_assoc]
    exact List.flatMap_congr ih
  | map entries ih =>
    simp only [substitute_map, mentions_map, List.flatMap_map, List.flatMap_assoc]
    exact List.flatMap_congr ih

theorem references_substitute (v : Value) :
    (v.substitute f).value.references = v.mentions.flatMap fun m => (f m.1 m.2).value.references := by
  unfold references
  rw [mentions_substitute, List.filterMap_flatMap]

/-- What is reported about a value is what is reported about each path in it, in order. -/
theorem reported_substitute (v : Value) :
    (v.substitute f).unresolved = v.mentions.flatMap (fun m => (f m.1 m.2).unresolved) ∧
      (v.substitute f).cycles = v.mentions.flatMap fun m => (f m.1 m.2).cycles := by
  induction v using parts_ind with
  | literal _ | symbol _ | verbatim _ => exact ⟨rfl, rfl⟩
  | path scope keys => simp [mentions]
  | interpolation segments ih =>
    simp only [substitute_interpolation, mentions_interpolation, List.flatMap_assoc]
    exact ⟨List.flatMap_congr fun v hv => (ih v hv).1, List.flatMap_congr fun v hv => (ih v hv).2⟩
  | list items ih =>
    simp only [substitute_list, mentions_list, List.flatMap_assoc]
    exact ⟨List.flatMap_congr fun v hv => (ih v hv).1, List.flatMap_congr fun v hv => (ih v hv).2⟩
  | map entries ih =>
    simp only [substitute_map, mentions_map, List.flatMap_assoc]
    exact ⟨List.flatMap_congr fun e he => (ih e he).1, List.flatMap_congr fun e he => (ih e he).2⟩

theorem cycles_substitute_eq_nil {v : Value} :
    (v.substitute f).cycles = [] ↔ ∀ m ∈ v.mentions, (f m.1 m.2).cycles = [] := by
  rw [(reported_substitute f v).2, List.flatMap_eq_nil_iff]

variable {f} in
theorem substitute_congr {v : Value} (h : ∀ m ∈ v.mentions, f m.1 m.2 = g m.1 m.2) :
    v.substitute f = v.substitute g := by
  have hvalue := value_substitute_congr fun m hm => congrArg Resolved.value (h m hm)
  have hunresolved : (v.substitute f).unresolved = (v.substitute g).unresolved := by
    rw [(reported_substitute f v).1, (reported_substitute g v).1]
    exact List.flatMap_congr fun m hm => congrArg Resolved.unresolved (h m hm)
  have hcycles : (v.substitute f).cycles = (v.substitute g).cycles := by
    rw [(reported_substitute f v).2, (reported_substitute g v).2]
    exact List.flatMap_congr fun m hm => congrArg Resolved.cycles (h m hm)
  show (⟨(v.substitute f).value, (v.substitute f).unresolved, (v.substitute f).cycles⟩ : Resolved) = _
  rw [hvalue, hunresolved, hcycles]

/-- The pieces of code in a value stay, in order; more may come with what the paths are replaced by. -/
theorem verbatims_sublist_substitute (v : Value) :
    v.verbatims.Sublist (v.substitute f).value.verbatims := by
  induction v using parts_ind with
  | literal _ | symbol _ | verbatim _ => exact List.Sublist.refl _
  | path scope keys => exact List.nil_sublist _
  | interpolation segments ih =>
    rw [substitute_interpolation, verbatims, verbatimsIn_eq, verbatims_interpolate, List.flatMap_map]
    exact List.Sublist.flatMap_right _ ih
  | list items ih =>
    rw [substitute_list, verbatims, verbatimsIn_eq, verbatims, verbatimsIn_eq, List.flatMap_map]
    exact List.Sublist.flatMap_right _ ih
  | map entries ih =>
    rw [substitute_map, verbatims, verbatimsOf_eq, verbatims, verbatimsOf_eq, List.flatMap_map]
    exact List.Sublist.flatMap_right _ ih

variable {f} in
theorem joined_substitute {v : Value} (h : ∀ m ∈ v.mentions, (f m.1 m.2).value.Joined) :
    (v.substitute f).value.Joined := by
  induction v using parts_ind with
  | literal _ | symbol _ | verbatim _ => trivial
  | path scope keys => exact h (scope, keys) List.mem_cons_self
  | interpolation segments ih =>
    simp only [mentions_interpolation, List.mem_flatMap, forall_exists_index, and_imp] at h
    rw [substitute_interpolation]
    apply joined_interpolate
    simp only [List.mem_map, forall_exists_index, and_imp, forall_apply_eq_imp_iff₂]
    exact fun v hv => ih v hv fun m hm => h m v hv hm
  | list items ih =>
    simp only [mentions_list, List.mem_flatMap, forall_exists_index, and_imp] at h
    rw [substitute_list, Joined, allJoined_iff]
    simp only [List.mem_map, forall_exists_index, and_imp, forall_apply_eq_imp_iff₂]
    exact fun v hv => ih v hv fun m hm => h m v hv hm
  | map entries ih =>
    simp only [mentions_map, List.mem_flatMap, forall_exists_index, and_imp] at h
    rw [substitute_map, Joined, entriesJoined_iff]
    simp only [List.mem_map, forall_exists_index, and_imp, forall_apply_eq_imp_iff₂]
    exact fun e he => ih e he fun m hm => h m e he hm

variable {f} in
/-- A joined value whose paths are all replaced by themselves stays as it is. -/
theorem substitute_of_joined {v : Value} (hjoined : v.Joined)
    (h : ∀ m ∈ v.mentions, (f m.1 m.2).value = .path m.1 m.2) : (v.substitute f).value = v := by
  induction v using parts_ind with
  | literal _ | symbol _ | verbatim _ => rfl
  | path scope keys => exact h (scope, keys) List.mem_cons_self
  | interpolation segments ih =>
    simp only [mentions_interpolation, List.mem_flatMap, forall_exists_index, and_imp] at h
    obtain ⟨hsame, -, hsegments⟩ := hjoined
    rw [allJoined_iff] at hsegments
    have hmap := List.map_congr_left fun v hv => ih v hv (hsegments v hv) fun m hm => h m v hv hm
    rw [substitute_interpolation, hmap, List.map_id']
    exact hsame
  | list items ih =>
    simp only [mentions_list, List.mem_flatMap, forall_exists_index, and_imp] at h
    rw [Joined, allJoined_iff] at hjoined
    have hmap := List.map_congr_left fun v hv => ih v hv (hjoined v hv) fun m hm => h m v hv hm
    rw [substitute_list, hmap, List.map_id']
  | map entries ih =>
    simp only [mentions_map, List.mem_flatMap, forall_exists_index, and_imp] at h
    rw [Joined, entriesJoined_iff] at hjoined
    have hmap : entries.map (fun e => (⟨e.key, (e.value.substitute f).value⟩ : Entry)) = entries := by
      refine (List.map_congr_left fun e he => ?_).trans (List.map_id' _)
      rw [ih e he (hjoined e he) fun m hm => h m e he hm]
      cases e
      rfl
    rw [substitute_map, hmap]

end Value

end Substitute

end Cookbook
