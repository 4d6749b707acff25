import Cookbook.Attribute.Basic

/-!
Looking attributes up, and putting their values in the place of the paths that name them. A path
above some attributes has the hash of all of them; a path whose value leads back to itself is kept.
-/

namespace Cookbook

/-- The hash of some attributes, given by what is left of their paths: entries in the order in which
their keys first occur. What has keys below it is a hash; else the last value counts. `depth` is at
least the length of every path. -/
def mergeLeaves : (depth : Nat) → List (KeyPath × Value) → Value
  | 0, leaves => (leaves.getLast?.map (·.2)).getD (.map [])
  | depth + 1, leaves =>
    let keys := leaves.filterMap fun (path, _) => path.head?
    if keys.isEmpty then (leaves.getLast?.map (·.2)).getD (.map [])
    else
      let below (key : Text) := leaves.filterMap fun (path, v) =>
        match path with
        | k :: rest => if k = key then some (rest, v) else none
        | [] => none
      .map (keys.eraseDups.map fun key => ⟨key, mergeLeaves depth (below key)⟩)

/-- The attributes in effect, to be looked up. -/
structure AttributeTable where
  effective : List EffectiveAttribute

namespace AttributeTable

/-- The value assigned at exactly a path. -/
def leaf? (table : AttributeTable) (path : KeyPath) : Option Value :=
  (table.effective.findRev? fun e => keyPathId e.keyPath == keyPathId path).map (·.value)

/-- The attributes below a path, by what follows it. -/
def below (table : AttributeTable) (path : KeyPath) : List (KeyPath × Value) :=
  table.effective.filterMap fun e =>
    if path.length < e.keyPath.length && path.isPrefixOf e.keyPath then
      some (e.keyPath.drop path.length, e.value)
    else none

/-- The hash of all attributes below a path. -/
def merged? (table : AttributeTable) (path : KeyPath) : Option Value :=
  match table.below path with
  | [] => none
  | leaves => some (mergeLeaves ((leaves.map (·.1.length)).foldl max 0) leaves)

/-- The value of a path, references in it not followed. -/
def get? (table : AttributeTable) (path : KeyPath) : Option Value :=
  (table.leaf? path).or (table.merged? path)

end AttributeTable

/-! ### Substitution -/

/-- A value with its paths replaced: the paths without a value, and those that lead back to
themselves, each time they occur. -/
structure Resolved where
  value : Value
  unresolved : List KeyPath
  cycles : List KeyPath

namespace Resolved

/-- A value in which nothing was replaced. -/
def unchanged (v : Value) : Resolved := ⟨v, [], []⟩

end Resolved

/-- Some results with the paths reported by all of them. -/
structure ResolvedList (α : Type) where
  values : List α
  unresolved : List KeyPath
  cycles : List KeyPath

mutual

/-- The value with each path replaced as `follow` says. -/
def Value.substitute (follow : Scope → KeyPath → Resolved) : Value → Resolved
  | .path scope keys => follow scope keys
  | .interpolation segments =>
    let r := substituteAll follow segments
    ⟨.interpolate r.values, r.unresolved, r.cycles⟩
  | .list items =>
    let r := substituteAll follow items
    ⟨.list r.values, r.unresolved, r.cycles⟩
  | .map entries =>
    let r := substituteEntries follow entries
    ⟨.map r.values, r.unresolved, r.cycles⟩
  | v => .unchanged v

def substituteAll (follow : Scope → KeyPath → Resolved) : List Value → ResolvedList Value
  | [] => ⟨[], [], []⟩
  | v :: rest =>
    let r := v.substitute follow
    let more := substituteAll follow rest
    ⟨r.value :: more.values, r.unresolved ++ more.unresolved, r.cycles ++ more.cycles⟩

/-- The entries of a hash with the paths in their values replaced. -/
def substituteEntries (follow : Scope → KeyPath → Resolved) : List Entry → ResolvedList Entry
  | [] => ⟨[], [], []⟩
  | ⟨key, v⟩ :: rest =>
    let r := v.substitute follow
    let more := substituteEntries follow rest
    ⟨⟨key, r.value⟩ :: more.values, r.unresolved ++ more.unresolved, r.cycles ++ more.cycles⟩

end

mutual

/-- The paths in a value, from left to right. -/
def Value.paths : Value → List KeyPath
  | .path _ keys => [keys]
  | .interpolation segments => pathsIn segments
  | .list items => pathsIn items
  | .map entries => pathsOf entries
  | _ => []

def pathsIn : List Value → List KeyPath
  | [] => []
  | v :: rest => v.paths ++ pathsIn rest

def pathsOf : List Entry → List KeyPath
  | [] => []
  | ⟨_, v⟩ :: rest => v.paths ++ pathsOf rest

end

namespace AttributeTable

/-- The value with its paths replaced by the values in effect, and the paths in those in turn;
`visiting` are the paths being followed. Paths of the resource itself are kept. -/
def follow (table : AttributeTable) : (fuel : Nat) → (visiting : List Text) → Value → Resolved
  | 0, _, v => .unchanged v
  | fuel + 1, visiting, v =>
    v.substitute fun scope keys =>
      let id := keyPathId keys
      if scope = .newResource then .unchanged (.path scope keys)
      else if visiting.contains id then ⟨.path scope keys, [], [keys]⟩
      else match table.get? keys with
        | none => ⟨.path scope keys, [keys], []⟩
        | some found => table.follow fuel (id :: visiting) found

/-- A bound on the number of paths that can be followed one from another: no path twice, and each
but the first stands in a value of the table. -/
def followFuel (table : AttributeTable) : Nat :=
  (table.effective.map fun e => e.value.paths.length).foldr (· + ·) 0 + 2

/-- The value with its paths replaced by the values in effect. -/
def resolve (table : AttributeTable) (v : Value) : Resolved := table.follow table.followFuel [] v

end AttributeTable

end Cookbook
