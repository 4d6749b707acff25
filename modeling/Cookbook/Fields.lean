import Cookbook.Text.Class

/-!
Ordered records, in two orders. `Fields` holds the parameters of tasks: keys that are array indexes
come first, in numeric order, then the others in the order in which they were first set. `Bindings`
holds names in force: in the order in which they were set, a name that was removed and set again
coming last.
-/

namespace Cookbook

/-- The array index a key spells: digits without a leading zero, below `2 ^ 32 - 1`. -/
def arrayIndex? (key : Text) : Option Nat :=
  if key.isDigits && (key.length == 1 || key.head? != some '0') then
    let n := Text.toNat 10 key
    if n < 4294967295 then some n else none
  else none

/-- The value of a key among pairs: that of the first pair with the key. -/
def lookup? {α : Type} (key : Text) : List (Text × α) → Option α
  | [] => none
  | (k, v) :: rest => if k = key then some v else lookup? key rest

/-- The pairs with the value of a present key replaced. -/
def replaceValue {α : Type} (key : Text) (value : α) (pairs : List (Text × α)) : List (Text × α) :=
  pairs.map fun (k, v) => if k = key then (k, value) else (k, v)

/-! ### Looking pairs up -/

section Lookup

variable {α : Type} (key other : Text) (value : α)

@[simp] theorem lookup?_nil : lookup? key ([] : List (Text × α)) = none := rfl

theorem lookup?_append (xs ys : List (Text × α)) :
    lookup? key (xs ++ ys) = (lookup? key xs).or (lookup? key ys) := by
  induction xs with
  | nil => simp
  | cons pair rest ih =>
    obtain ⟨k, v⟩ := pair
    by_cases h : k = key <;> simp [lookup?, h, ih]

/-- Replacing the value of a key is seen under that key alone, and only when it is there. -/
theorem lookup?_replaceValue (pairs : List (Text × α)) :
    lookup? other (replaceValue key value pairs) =
      if other = key then (lookup? other pairs).map fun _ => value else lookup? other pairs := by
  induction pairs with
  | nil => simp [replaceValue]
  | cons pair rest ih =>
    obtain ⟨k, v⟩ := pair
    have tail : replaceValue key value ((k, v) :: rest) =
        (if k = key then (k, value) else (k, v)) :: replaceValue key value rest := rfl
    rw [tail]
    by_cases hk : k = key
    · subst hk
      by_cases ho : k = other
      · simp [lookup?, ho]
      · simp [lookup?, ho, Ne.symm ho, ih]
    · by_cases ho : k = other
      · subst ho
        simp [lookup?, hk]
      · simp [lookup?, hk, ho, ih]

theorem mem_of_lookup? {key : Text} {value : α} {pairs : List (Text × α)}
    (h : lookup? key pairs = some value) : (key, value) ∈ pairs := by
  induction pairs with
  | nil => cases h
  | cons pair rest ih =>
    obtain ⟨k, v⟩ := pair
    by_cases hk : k = key
    · rw [lookup?, if_pos hk] at h
      obtain rfl := Option.some.inj h
      exact hk ▸ List.mem_cons_self
    · rw [lookup?, if_neg hk] at h
      exact List.mem_cons_of_mem _ (ih h)

end Lookup

/-- A record of task values. -/
structure Fields (α : Type) where
  entries : List (Text × α)

namespace Fields

variable {α : Type}

def empty : Fields α := ⟨[]⟩

def get? (f : Fields α) (key : Text) : Option α := lookup? key f.entries

/-- Whether a new key goes before an old one: indexes go first, smaller ones before greater. -/
def goesBefore (key other : Text) : Bool :=
  match arrayIndex? key, arrayIndex? other with
  | some m, some n => m < n
  | some _, none => true
  | none, _ => false

/-- Whether a pair stays before a new key. -/
def staysBefore (key : Text) (pair : Text × α) : Bool := !goesBefore key pair.1

/-- The record with a field set: in its place when it is there, else where its key belongs. -/
def set (f : Fields α) (key : Text) (value : α) : Fields α :=
  if (f.get? key).isSome then ⟨replaceValue key value f.entries⟩
  else
    ⟨f.entries.takeWhile (staysBefore key) ++
      (key, value) :: f.entries.dropWhile (staysBefore key)⟩

@[simp] theorem get?_set (f : Fields α) (key other : Text) (value : α) :
    (f.set key value).get? other = if other = key then some value else f.get? other := by
  unfold set
  split
  · rename_i h
    obtain ⟨old, hold⟩ := Option.isSome_iff_exists.1 h
    unfold get? at hold ⊢
    rw [lookup?_replaceValue]
    by_cases ho : other = key
    · subst ho
      simp [hold]
    · simp [ho]
  · rename_i h
    have hnone : lookup? key f.entries = none := by simpa [get?] using h
    unfold get?
    have split : lookup? other f.entries =
        (lookup? other (f.entries.takeWhile (staysBefore key))).or
          (lookup? other (f.entries.dropWhile (staysBefore key))) := by
      rw [← lookup?_append, List.takeWhile_append_dropWhile]
    rw [lookup?_append]
    by_cases ho : other = key
    · subst ho
      rw [hnone] at split
      have left := (Option.or_eq_none_iff.1 split.symm).1
      simp [left, lookup?]
    · simp [split, lookup?, ho, Ne.symm ho]

def setAll (f : Fields α) (pairs : List (Text × α)) : Fields α :=
  pairs.foldl (fun f (k, v) => f.set k v) f

/-- The record of a list of pairs; of several with one key the last gives the value. -/
def ofList (pairs : List (Text × α)) : Fields α := empty.setAll pairs

/-- One record laid over another. -/
def overlay (base upper : Fields α) : Fields α := base.setAll upper.entries

def keys (f : Fields α) : List Text := f.entries.map (·.1)

end Fields

/-- Names in force with what they stand for. -/
structure Bindings (α : Type) where
  entries : List (Text × α)

namespace Bindings

variable {α : Type}

def empty : Bindings α := ⟨[]⟩

def get? (b : Bindings α) (name : Text) : Option α := lookup? name b.entries

theorem mem_of_get? {b : Bindings α} {name : Text} {value : α} (h : b.get? name = some value) :
    (name, value) ∈ b.entries := mem_of_lookup? h

def contains (b : Bindings α) (name : Text) : Bool := (b.get? name).isSome

/-- The bindings with a name set: in its place when it is there, else last. -/
def set (b : Bindings α) (name : Text) (value : α) : Bindings α :=
  if b.contains name then ⟨replaceValue name value b.entries⟩ else ⟨b.entries ++ [(name, value)]⟩

def erase (b : Bindings α) (name : Text) : Bindings α := ⟨b.entries.filter fun (k, _) => k != name⟩

@[simp] theorem get?_set (b : Bindings α) (name other : Text) (value : α) :
    (b.set name value).get? other = if other = name then some value else b.get? other := by
  unfold set
  split
  · rename_i h
    obtain ⟨old, hold⟩ := Option.isSome_iff_exists.1 h
    unfold get? at hold ⊢
    rw [lookup?_replaceValue]
    by_cases ho : other = name
    · subst ho
      simp [hold]
    · simp [ho]
  · rename_i h
    have hnone : lookup? name b.entries = none := by simpa [contains, get?] using h
    unfold get?
    rw [lookup?_append]
    by_cases ho : other = name
    · subst ho
      simp [hnone, lookup?]
    · simp [lookup?, ho, Ne.symm ho]

/-- A name that was erased is not in force; the others stay. -/
@[simp] theorem get?_erase (b : Bindings α) (name other : Text) :
    (b.erase name).get? other = if other = name then none else b.get? other := by
  unfold erase get?
  induction b.entries with
  | nil => simp
  | cons pair rest ih =>
    obtain ⟨k, v⟩ := pair
    by_cases hk : k = name
    · subst hk
      by_cases ho : other = k
      · simpa [ho] using ih
      · simpa [lookup?, ho, Ne.symm ho] using ih
    · by_cases ho : k = other
      · subst ho
        simp [lookup?, hk]
      · simpa [lookup?, hk, ho] using ih

def ofList (pairs : List (Text × α)) : Bindings α := pairs.foldl (fun b (k, v) => b.set k v) empty

def names (b : Bindings α) : List Text := b.entries.map (·.1)

end Bindings

end Cookbook
