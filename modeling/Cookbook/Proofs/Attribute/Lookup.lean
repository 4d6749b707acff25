import Cookbook.Attribute.Table
import Cookbook.Proofs.Attribute.Effective

/-!
Looking up a path and the paths one key further. The value assigned at a path is given as it is, and
only a path without one has the hash of what lies below it; in that hash, on the other hand, what lies
below a path hides the value assigned at it. So the two agree except where a path has a value of its
own and others below it.

* `mergeAll` is the hash of some leaves, and `AttributeTable.entries_merged?` gives the entries of the
  hash of what lies below a path;
* `AttributeTable.CoherentAt` says that the value of a path and that of the path one key further agree,
  `AttributeTable.OverlapAt` that one of the two has a value of its own and others below it;
* `coherentAt_iff_not_overlapAt` says that they agree everywhere else.
-/

namespace Cookbook

/-! ### Leaves of a value -/

/-- Whether a value is a leaf: anything but a hash with entries. -/
def Value.isLeaf : Value → Bool
  | .map (_ :: _) => false
  | _ => true

mutual

/-- A leaf of a value lies at the path of the value or below it, and is not opened further. -/
theorem Value.of_mem_leaves : ∀ (v : Value) (path : KeyPath) {leaf : KeyPath × Value},
    leaf ∈ v.leaves path → path <+: leaf.1 ∧ leaf.2.isLeaf = true
  | .map (e :: more), path, leaf, h => by
    rw [Value.leaves] at h
    exact of_mem_entryLeaves (e :: more) path h
  | .map [], path, leaf, h => by
    rw [List.mem_singleton.1 h]
    exact ⟨List.prefix_rfl, rfl⟩
  | .literal _, path, leaf, h | .symbol _, path, leaf, h | .path _ _, path, leaf, h
  | .interpolation _, path, leaf, h | .list _, path, leaf, h | .verbatim _, path, leaf, h => by
    rw [List.mem_singleton.1 h]
    exact ⟨List.prefix_rfl, rfl⟩

theorem of_mem_entryLeaves : ∀ (entries : List Entry) (path : KeyPath) {leaf : KeyPath × Value},
    leaf ∈ entryLeaves path entries → path <+: leaf.1 ∧ leaf.2.isLeaf = true
  | [], path, leaf, h => absurd h List.not_mem_nil
  | ⟨key, v⟩ :: rest, path, leaf, h => by
    rw [entryLeaves, List.mem_append] at h
    rcases h with h | h
    · obtain ⟨hpre, hleaf⟩ := v.of_mem_leaves (path ++ [key]) h
      exact ⟨(List.prefix_append _ _).trans hpre, hleaf⟩
    · exact of_mem_entryLeaves rest path h

end

theorem isLeaf_of_mem_effectiveAttributes {assignments : List Assignment} {e : EffectiveAttribute}
    (h : e ∈ effectiveAttributes assignments) : e.value.isLeaf = true := by
  obtain ⟨c, hc, rfl⟩ := mem_effectiveAttributes.1 h
  obtain ⟨pair, -, hpair⟩ := List.mem_flatMap.1 hc.mem
  obtain ⟨leaf, hleaf, rfl⟩ := List.mem_map.1 hpair
  exact (pair.1.value.of_mem_leaves _ hleaf).2

/-! ### The hash of some leaves -/

/-- The keys with which the paths start, each time. -/
def firstKeys (leaves : List (KeyPath × Value)) : List Text := leaves.filterMap fun leaf => leaf.1.head?

/-- The leaves whose paths start with a key, by what follows it. -/
def leavesUnder (key : Text) (leaves : List (KeyPath × Value)) : List (KeyPath × Value) :=
  leaves.filterMap fun (path, v) =>
    match path with
    | k :: rest => if k = key then some (rest, v) else none
    | [] => none

def lastValue (leaves : List (KeyPath × Value)) : Value := (leaves.getLast?.map (·.2)).getD (.map [])

def leafDepth (leaves : List (KeyPath × Value)) : Nat := (leaves.map (·.1.length)).foldl max 0

/-- The hash of some leaves, as deep as their paths are long. -/
def mergeAll (leaves : List (KeyPath × Value)) : Value := mergeLeaves (leafDepth leaves) leaves

theorem mergeLeaves_succ (depth : Nat) (leaves : List (KeyPath × Value)) :
    mergeLeaves (depth + 1) leaves =
      if (firstKeys leaves).isEmpty then lastValue leaves
      else .map ((firstKeys leaves).eraseDups.map fun key =>
        ⟨key, mergeLeaves depth (leavesUnder key leaves)⟩) :=
  rfl

section Merge

variable {leaves : List (KeyPath × Value)} {key : Text}

theorem mem_leavesUnder {leaf : KeyPath × Value} :
    leaf ∈ leavesUnder key leaves ↔ (key :: leaf.1, leaf.2) ∈ leaves := by
  unfold leavesUnder
  rw [List.mem_filterMap]
  constructor
  · rintro ⟨⟨path, v⟩, hmem, heq⟩
    cases path with
    | nil => exact absurd heq (by simp)
    | cons k rest =>
      by_cases hk : k = key
      · obtain rfl : (rest, v) = leaf := by simpa [hk] using heq
        exact hk ▸ hmem
      · exact absurd heq (by simp [hk])
  · intro hmem
    exact ⟨_, hmem, by simp⟩

theorem mem_firstKeys : key ∈ firstKeys leaves ↔ ∃ leaf ∈ leaves, leaf.1.head? = some key := by
  unfold firstKeys
  exact List.mem_filterMap

theorem firstKeys_eq_nil_iff : firstKeys leaves = [] ↔ ∀ leaf ∈ leaves, leaf.1 = [] := by
  unfold firstKeys
  simp [List.filterMap_eq_nil_iff]

theorem le_leafDepth {leaf : KeyPath × Value} (h : leaf ∈ leaves) : leaf.1.length ≤ leafDepth leaves := by
  have hfold : ∀ (ns : List Nat) (start n : Nat), n ≤ start ∨ n ∈ ns → n ≤ ns.foldl max start := by
    intro ns
    induction ns with
    | nil =>
      intro start n hn
      exact hn.resolve_right List.not_mem_nil
    | cons m ns ih =>
      intro start n hn
      apply ih
      rcases hn with hn | hn
      · exact .inl (hn.trans (le_max_left _ _))
      · rcases List.mem_cons.1 hn with rfl | hn
        · exact .inl (le_max_right _ _)
        · exact .inr hn
  exact hfold _ 0 _ (.inr (List.mem_map_of_mem h))

/-- The hash does not change with the depth, once it is as deep as the paths are long. -/
theorem mergeLeaves_of_le {depth depth' : Nat} (hbound : ∀ leaf ∈ leaves, leaf.1.length ≤ depth)
    (hle : depth ≤ depth') : mergeLeaves depth' leaves = mergeLeaves depth leaves := by
  induction depth generalizing depth' leaves with
  | zero =>
    have hnil : firstKeys leaves = [] := by
      rw [firstKeys_eq_nil_iff]
      exact fun leaf hleaf => List.length_eq_zero_iff.1 (Nat.le_zero.1 (hbound leaf hleaf))
    cases depth' with
    | zero => rfl
    | succ depth' =>
      rw [mergeLeaves_succ, hnil]
      rfl
  | succ depth ih =>
    obtain ⟨depth', rfl⟩ : ∃ d, depth' = d + 1 := ⟨depth' - 1, by omega⟩
    have hunder : ∀ key, mergeLeaves depth' (leavesUnder key leaves) =
        mergeLeaves depth (leavesUnder key leaves) := by
      intro key
      refine ih (fun leaf hleaf => ?_) (by omega)
      have hlength := hbound _ (mem_leavesUnder.1 hleaf)
      rw [List.length_cons] at hlength
      omega
    simp only [mergeLeaves_succ, hunder]

theorem mergeLeaves_eq_mergeAll {depth : Nat} (hbound : ∀ leaf ∈ leaves, leaf.1.length ≤ depth) :
    mergeLeaves depth leaves = mergeAll leaves := by
  rcases le_total depth (leafDepth leaves) with hle | hle
  · exact (mergeLeaves_of_le hbound hle).symm
  · exact mergeLeaves_of_le (fun _ => le_leafDepth) hle

/-- The hash of some leaves: what has keys below it has the hash of what lies below each of them, and
otherwise the last value counts. -/
theorem mergeAll_eq (leaves : List (KeyPath × Value)) :
    mergeAll leaves =
      if (firstKeys leaves).isEmpty then lastValue leaves
      else .map ((firstKeys leaves).eraseDups.map fun key =>
        ⟨key, mergeAll (leavesUnder key leaves)⟩) := by
  have hunder : ∀ key, mergeLeaves (leafDepth leaves) (leavesUnder key leaves) =
      mergeAll (leavesUnder key leaves) := by
    intro key
    apply mergeLeaves_eq_mergeAll
    intro leaf hleaf
    exact (Nat.le_succ _).trans (le_leafDepth (mem_leavesUnder.1 hleaf))
  have hdeep : mergeLeaves (leafDepth leaves + 1) leaves = mergeAll leaves :=
    mergeLeaves_eq_mergeAll fun leaf hleaf => (le_leafDepth hleaf).trans (Nat.le_succ _)
  rw [← hdeep, mergeLeaves_succ]
  simp only [hunder]

theorem mergeAll_of_keys (h : firstKeys leaves ≠ []) :
    mergeAll leaves =
      .map ((firstKeys leaves).eraseDups.map fun key => ⟨key, mergeAll (leavesUnder key leaves)⟩) := by
  rw [mergeAll_eq, if_neg (by simpa using h)]

theorem mergeAll_of_no_keys (h : firstKeys leaves = []) : mergeAll leaves = lastValue leaves := by
  rw [mergeAll_eq, h]
  rfl

theorem not_isLeaf_mergeAll (h : firstKeys leaves ≠ []) : (mergeAll leaves).isLeaf = false := by
  obtain ⟨key, keys, hkeys⟩ := List.exists_cons_of_ne_nil h
  rw [mergeAll_of_keys h, hkeys, List.eraseDups_cons]
  rfl

end Merge

/-! ### Tables -/

namespace AttributeTable

variable (table : AttributeTable)

/-- Some attribute in effect lies at a path or below it. -/
def Reaches (path : KeyPath) : Prop := ∃ e ∈ table.effective, path <+: e.keyPath

/-- Some attribute in effect lies below a path. -/
def ReachesBelow (path : KeyPath) : Prop := ∃ e ∈ table.effective, path <+: e.keyPath ∧ path ≠ e.keyPath

/-- When the value of a path is a hash, it has an entry for a key exactly when some attribute in effect
lies at the path one key further or below it, and the entry has the value of that path. -/
def CoherentAt (path : KeyPath) (key : Text) : Prop :=
  ∀ entries, table.get? path = some (.map entries) →
    ((∃ entry ∈ entries, entry.key = key) ↔ table.Reaches (path ++ [key])) ∧
      ∀ entry ∈ entries, entry.key = key → table.get? (path ++ [key]) = some entry.value

/-- An empty hash is assigned at the path and others lie below it under the key, or the path has no
value of its own, and the path one key further has one and others below it. -/
def OverlapAt (path : KeyPath) (key : Text) : Prop :=
  (table.leaf? path = some (.map []) ∧ table.Reaches (path ++ [key])) ∨
    (table.leaf? path = none ∧ (table.leaf? (path ++ [key])).isSome ∧ table.ReachesBelow (path ++ [key]))

/-- The table is one of attributes in effect: the texts of their paths differ, and their values are
leaves. -/
structure InEffect : Prop where
  ids : (table.effective.map fun e => keyPathId e.keyPath).Nodup
  leaves : ∀ e ∈ table.effective, e.value.isLeaf = true

end AttributeTable

theorem inEffect_effectiveAttributes (assignments : List Assignment) :
    AttributeTable.InEffect ⟨effectiveAttributes assignments⟩ :=
  ⟨nodup_effectiveAttributes_ids assignments, fun _ => isLeaf_of_mem_effectiveAttributes⟩

namespace AttributeTable

variable {table : AttributeTable} {path : KeyPath} {key : Text} {v : Value}

/-! ### Exact values -/

theorem exists_of_leaf? (h : table.leaf? path = some v) :
    ∃ e ∈ table.effective, keyPathId e.keyPath = keyPathId path ∧ e.value = v := by
  unfold leaf? at h
  obtain ⟨e, he, rfl⟩ := Option.map_eq_some_iff.1 h
  rw [List.findRev?_eq_find?_reverse] at he
  exact ⟨e, List.mem_reverse.1 (List.mem_of_find?_eq_some he), by simpa using List.find?_some he, rfl⟩

theorem isLeaf_of_leaf? (h : table.InEffect) (hv : table.leaf? path = some v) : v.isLeaf = true := by
  obtain ⟨e, he, -, rfl⟩ := exists_of_leaf? hv
  exact h.leaves e he

theorem leaf?_of_mem (h : table.InEffect) {e : EffectiveAttribute} (he : e ∈ table.effective) :
    table.leaf? e.keyPath = some e.value := by
  cases hleaf : table.leaf? e.keyPath with
  | none =>
    unfold leaf? at hleaf
    rw [Option.map_eq_none_iff, List.findRev?_eq_find?_reverse, List.find?_eq_none] at hleaf
    exact absurd (hleaf e (List.mem_reverse.2 he)) (by simp)
  | some v =>
    obtain ⟨e', he', hid, rfl⟩ := exists_of_leaf? hleaf
    rw [List.inj_on_of_nodup_map h.ids he' he hid]

/-! ### What lies below a path -/

/-- The attributes at a path or below it, by what follows it. -/
def atOrBelow (table : AttributeTable) (path : KeyPath) : List (KeyPath × Value) :=
  table.effective.filterMap fun e =>
    if path.isPrefixOf e.keyPath then some (e.keyPath.drop path.length, e.value) else none

theorem mem_atOrBelow {leaf : KeyPath × Value} :
    leaf ∈ table.atOrBelow path ↔
      ∃ e ∈ table.effective, e.keyPath = path ++ leaf.1 ∧ e.value = leaf.2 := by
  unfold atOrBelow
  rw [List.mem_filterMap]
  constructor
  · rintro ⟨e, he, hleaf⟩
    by_cases hpre : path <+: e.keyPath
    · obtain ⟨rest, hrest⟩ := hpre
      obtain rfl : (e.keyPath.drop path.length, e.value) = leaf := by
        simpa [← hrest] using hleaf
      exact ⟨e, he, by simp [← hrest], rfl⟩
    · exact absurd hleaf (by simp [hpre])
  · rintro ⟨e, he, hpath, hvalue⟩
    exact ⟨e, he, by simp [hpath, hvalue]⟩

theorem leavesUnder_below : leavesUnder key (table.below path) = table.atOrBelow (path ++ [key]) := by
  unfold leavesUnder below atOrBelow
  rw [List.filterMap_filterMap]
  apply List.filterMap_congr
  intro e he
  by_cases hpre : path <+: e.keyPath
  · obtain ⟨rest, hrest⟩ := hpre
    rw [← hrest]
    cases rest with
    | nil =>
      have hlonger : ¬ path ++ [key] <+: path := by
        intro h
        have hlength := h.length_le
        rw [List.length_append, List.length_singleton] at hlength
        omega
      simp [hlonger]
    | cons k rest =>
      by_cases hk : k = key
      · subst hk
        simp
      · simp [hk, Ne.symm hk]
  · have hlonger : ¬ path ++ [key] <+: e.keyPath := fun h => hpre ((List.prefix_append _ _).trans h)
    simp [hpre, hlonger]

theorem mem_below {leaf : KeyPath × Value} :
    leaf ∈ table.below path ↔ leaf.1 ≠ [] ∧ leaf ∈ table.atOrBelow path := by
  obtain ⟨rest, v⟩ := leaf
  cases rest with
  | nil =>
    simp only [ne_eq, not_true_eq_false, false_and, iff_false]
    intro hmem
    obtain ⟨e, -, hleaf⟩ := List.mem_filterMap.1 hmem
    split at hleaf
    · rename_i hlonger
      have hdrop := congrArg (fun leaf => leaf.1.length) (Option.some.inj hleaf)
      simp only [Bool.and_eq_true, decide_eq_true_eq] at hlonger
      simp only [List.length_drop, List.length_nil] at hdrop
      omega
    · exact absurd hleaf (by simp)
  | cons k rest =>
    have hunder : (rest, v) ∈ leavesUnder k (table.below path) ↔ (k :: rest, v) ∈ table.below path :=
      mem_leavesUnder
    rw [← hunder, leavesUnder_below, mem_atOrBelow, mem_atOrBelow]
    simp

theorem atOrBelow_eq_nil_iff : table.atOrBelow path = [] ↔ ¬ table.Reaches path := by
  rw [List.eq_nil_iff_forall_not_mem]
  constructor
  · rintro h ⟨e, he, rest, hrest⟩
    exact h (rest, e.value) (mem_atOrBelow.2 ⟨e, he, hrest.symm, rfl⟩)
  · intro h leaf hleaf
    obtain ⟨e, he, hpath, -⟩ := mem_atOrBelow.1 hleaf
    exact h ⟨e, he, leaf.1, hpath.symm⟩

theorem mem_firstKeys_below : key ∈ firstKeys (table.below path) ↔ table.Reaches (path ++ [key]) := by
  rw [← not_iff_not, ← atOrBelow_eq_nil_iff, ← leavesUnder_below, List.eq_nil_iff_forall_not_mem]
  constructor
  · intro h leaf hleaf
    exact h (mem_firstKeys.2 ⟨_, mem_leavesUnder.1 hleaf, rfl⟩)
  · intro h hkey
    obtain ⟨⟨p, v⟩, hmem, hhead⟩ := mem_firstKeys.1 hkey
    obtain ⟨rest, rfl⟩ : ∃ rest, p = key :: rest := by
      cases p with
      | nil => exact absurd hhead (by simp)
      | cons k rest => exact ⟨rest, by simpa using hhead⟩
    exact h (rest, v) (mem_leavesUnder.2 hmem)

theorem firstKeys_atOrBelow_ne_nil : firstKeys (table.atOrBelow path) ≠ [] ↔ table.ReachesBelow path := by
  rw [ne_eq, firstKeys_eq_nil_iff, not_forall]
  constructor
  · rintro ⟨leaf, hleaf⟩
    obtain ⟨hmem, hne⟩ : leaf ∈ table.atOrBelow path ∧ leaf.1 ≠ [] := by simpa using hleaf
    obtain ⟨e, he, hpath, -⟩ := mem_atOrBelow.1 hmem
    refine ⟨e, he, ⟨leaf.1, hpath.symm⟩, ?_⟩
    intro heq
    exact hne (List.self_eq_append_right.1 (heq.trans hpath))
  · rintro ⟨e, he, ⟨rest, hrest⟩, hne⟩
    refine ⟨(rest, e.value), fun h => ?_⟩
    have hnil : rest = [] := h (mem_atOrBelow.2 ⟨e, he, hrest.symm, rfl⟩)
    rw [hnil, List.append_nil] at hrest
    exact hne hrest

/-- Where no attribute has the very path, what lies at or below it lies below it. -/
theorem below_eq_atOrBelow (h : ∀ e ∈ table.effective, e.keyPath ≠ path) :
    table.below path = table.atOrBelow path := by
  apply List.filterMap_congr
  intro e he
  by_cases hpre : path <+: e.keyPath
  · have hlonger : path.length < e.keyPath.length := by
      refine lt_of_le_of_ne hpre.length_le fun heq => h e he ?_
      exact (hpre.eq_of_length heq).symm
    simp [hpre, hlonger]
  · simp [hpre]

theorem merged?_of_ne_nil (h : table.below path ≠ []) :
    table.merged? path = some (mergeAll (table.below path)) := by
  unfold merged?
  split
  · rename_i hnil
    exact absurd hnil h
  · rfl

theorem merged?_of_nil (h : table.below path = []) : table.merged? path = none := by
  unfold merged?
  rw [h]

/-- The hash of what lies below a path has an entry for each key under which something lies, with the
hash of what lies there. -/
theorem entries_merged? {entries : List Entry} (h : table.merged? path = some (.map entries)) :
    (∀ key, (∃ entry ∈ entries, entry.key = key) ↔ table.Reaches (path ++ [key])) ∧
      ∀ entry ∈ entries, entry.value = mergeAll (table.atOrBelow (path ++ [entry.key])) := by
  have hne : table.below path ≠ [] := by
    intro hnil
    rw [merged?_of_nil hnil] at h
    exact absurd h (by simp)
  have hkeys : firstKeys (table.below path) ≠ [] := by
    intro hnil
    obtain ⟨leaf, hleaf⟩ := List.exists_mem_of_ne_nil _ hne
    exact (mem_below.1 hleaf).1 (firstKeys_eq_nil_iff.1 hnil leaf hleaf)
  rw [merged?_of_ne_nil hne, mergeAll_of_keys hkeys] at h
  obtain rfl := Value.map.inj (Option.some.inj h)
  constructor
  · intro key
    rw [← mem_firstKeys_below]
    simp
  · intro entry hentry
    obtain ⟨k, -, rfl⟩ := List.mem_map.1 hentry
    rw [leavesUnder_below]

theorem exists_merged? (h : table.Reaches (path ++ [key])) :
    ∃ entries, table.merged? path = some (.map entries) := by
  have hkey := mem_firstKeys_below.2 h
  have hne : table.below path ≠ [] := by
    intro hnil
    rw [hnil] at hkey
    exact absurd hkey List.not_mem_nil
  rw [merged?_of_ne_nil hne, mergeAll_of_keys (List.ne_nil_of_mem hkey)]
  exact ⟨_, rfl⟩

/-! ### Agreement -/

theorem get?_of_leaf? (hleaf : table.leaf? path = some v) : table.get? path = some v := by
  unfold get?
  rw [hleaf]
  rfl

theorem get?_of_no_leaf? (hleaf : table.leaf? path = none) : table.get? path = table.merged? path := by
  unfold get?
  rw [hleaf, Option.none_or]

/-- Where nothing lies below a path, the hash of what is there is the value assigned at it. -/
theorem mergeAll_atOrBelow_of_leaf? (h : table.InEffect) (hreaches : table.Reaches path)
    (hleaf : table.leaf? path = some v) (hbelow : ¬ table.ReachesBelow path) :
    mergeAll (table.atOrBelow path) = v := by
  have hkeys : firstKeys (table.atOrBelow path) = [] := by
    by_contra hne
    exact hbelow (firstKeys_atOrBelow_ne_nil.1 hne)
  have hne : table.atOrBelow path ≠ [] := fun hnil => atOrBelow_eq_nil_iff.1 hnil hreaches
  -- the last value is that of an attribute at the path itself
  have hlast := List.getLast_mem hne
  obtain ⟨e, he, hpath, hvalue⟩ := mem_atOrBelow.1 hlast
  rw [firstKeys_eq_nil_iff.1 hkeys _ hlast, List.append_nil] at hpath
  have hv : v = e.value := by
    have hfound := leaf?_of_mem h he
    rw [hpath, hleaf] at hfound
    exact Option.some.inj hfound
  rw [mergeAll_of_no_keys hkeys, lastValue, List.getLast?_eq_some_getLast hne, hv, hvalue]
  rfl

/-- The value of a path is the hash of what lies at it or below it, unless it has a value of its own
and others below it. -/
theorem get?_eq_mergeAll_iff (h : table.InEffect) (hreaches : table.Reaches path) :
    table.get? path = some (mergeAll (table.atOrBelow path)) ↔
      ¬((table.leaf? path).isSome ∧ table.ReachesBelow path) := by
  cases hleaf : table.leaf? path with
  | none =>
    have hexact : ∀ e ∈ table.effective, e.keyPath ≠ path := by
      rintro e he rfl
      rw [leaf?_of_mem h he] at hleaf
      exact absurd hleaf (by simp)
    have hbelow := below_eq_atOrBelow hexact
    have hne : table.below path ≠ [] := by
      rw [hbelow]
      exact fun hnil => atOrBelow_eq_nil_iff.1 hnil hreaches
    rw [get?_of_no_leaf? hleaf, merged?_of_ne_nil hne, hbelow]
    simp
  | some v =>
    rw [get?_of_leaf? hleaf]
    by_cases hbelow : table.ReachesBelow path
    · have hne : v ≠ mergeAll (table.atOrBelow path) := by
        intro heq
        have hnot := not_isLeaf_mergeAll (firstKeys_atOrBelow_ne_nil.2 hbelow)
        rw [← heq, isLeaf_of_leaf? h hleaf] at hnot
        exact absurd hnot (by simp)
      simp [hne, hbelow]
    · simp [mergeAll_atOrBelow_of_leaf? h hreaches hleaf hbelow, hbelow]

theorem coherentAt_iff (h : table.InEffect) : table.CoherentAt path key ↔ ¬ table.OverlapAt path key := by
  unfold CoherentAt OverlapAt
  cases hleaf : table.leaf? path with
  | some v =>
    have hv := isLeaf_of_leaf? h hleaf
    simp only [get?_of_leaf? hleaf, Option.some.injEq, reduceCtorEq, false_and, or_false, not_and]
    constructor
    · rintro hcoherent rfl hreaches
      obtain ⟨entry, hentry, -⟩ := (hcoherent [] rfl).1.2 hreaches
      exact absurd hentry List.not_mem_nil
    · rintro hnot entries rfl
      cases entries with
      | nil => simp [hnot rfl]
      | cons entry more => exact absurd hv (by simp [Value.isLeaf])
  | none =>
    simp only [get?_of_no_leaf? hleaf, reduceCtorEq, false_and, false_or, true_and]
    constructor
    · rintro hcoherent ⟨hsome, e, he, hpre, hne⟩
      have hreaches : table.Reaches (path ++ [key]) := ⟨e, he, hpre⟩
      obtain ⟨entries, hentries⟩ := exists_merged? hreaches
      obtain ⟨hkeys, hvalues⟩ := hcoherent entries hentries
      obtain ⟨entry, hentry, rfl⟩ := hkeys.2 hreaches
      have hget' := hvalues entry hentry rfl
      rw [(entries_merged? hentries).2 entry hentry] at hget'
      exact (get?_eq_mergeAll_iff h hreaches).1 hget' ⟨hsome, e, he, hpre, hne⟩
    · intro hnot entries hentries
      have hkeys := (entries_merged? hentries).1 key
      refine ⟨hkeys, ?_⟩
      rintro entry hentry rfl
      rw [(entries_merged? hentries).2 entry hentry]
      exact (get?_eq_mergeAll_iff h (hkeys.1 ⟨entry, hentry, rfl⟩)).2 hnot

end AttributeTable

/-- The value of a path and that of the path one key further agree, unless one of the two has a value
of its own and others below it. -/
theorem coherentAt_iff_not_overlapAt (assignments : List Assignment) (path : KeyPath) (key : Text) :
    let table : AttributeTable := ⟨effectiveAttributes assignments⟩
    table.CoherentAt path key ↔ ¬ table.OverlapAt path key :=
  AttributeTable.coherentAt_iff (inEffect_effectiveAttributes assignments)

/-- An empty hash that is assigned first hides what is assigned below it later, and a text that is
assigned first is hidden in the hash one key above. -/
theorem overlaps_are_not_coherent :
    let table : AttributeTable := ⟨effectiveAttributes
      [⟨.default, ["a"], .map [], none, none, none, false⟩,
        ⟨.default, ["a", "b"], .ofText "c", none, none, none, false⟩,
        ⟨.default, ["d", "e"], .ofText "f", none, none, none, false⟩,
        ⟨.default, ["d", "e", "g"], .ofText "h", none, none, none, false⟩]⟩
    (table.get? ["a"] = some (.map []) ∧ table.get? ["a", "b"] = some (.ofText "c") ∧
      ¬ table.CoherentAt ["a"] "b") ∧
    (table.get? ["d"] = some (.map [⟨"e", .map [⟨"g", .ofText "h"⟩]⟩]) ∧
      table.get? ["d", "e"] = some (.ofText "f") ∧ ¬ table.CoherentAt ["d"] "e") := by
  intro table
  have hreaches : table.Reaches (["a"] ++ ["b"]) :=
    ⟨⟨["a", "b"], .ofText "c", .default, none, none⟩, .tail _ (.head _), List.prefix_rfl⟩
  have hbelow : table.ReachesBelow (["d"] ++ ["e"]) :=
    ⟨⟨["d", "e", "g"], .ofText "h", .default, none, none⟩, .tail _ (.tail _ (.tail _ (.head _))),
      List.prefix_append _ _, by decide⟩
  refine ⟨⟨rfl, rfl, ?_⟩, rfl, rfl, ?_⟩
  · intro hcoherent
    exact (coherentAt_iff_not_overlapAt _ _ _).1 hcoherent (.inl ⟨rfl, hreaches⟩)
  · intro hcoherent
    exact (coherentAt_iff_not_overlapAt _ _ _).1 hcoherent (.inr ⟨rfl, rfl, hbelow⟩)

end Cookbook
