import Cookbook.Task.Mapping
import Mathlib.Data.List.Basic
import Mathlib.Data.List.Induction

/-!
# Fields set one after another

Of several values for a field the last one counts. Assigning to a field differs from setting it under
one name alone, that of the record which the members of all records come from.

* `lookup?_eq_some_iff_mem` and `lookup?_map` say what is found among pairs;
* `Fields.get?_setAll` and `Fields.get?_foldl` are about values that are set;
* `Mapping.landing` keeps the assignments that make a field (`find?_landing`), and `get?_assignAll` is
  about values that are assigned.
-/

namespace Cookbook

/-! ### Pairs -/

theorem lookup?_eq_none_iff {α : Type} {key : Text} {pairs : List (Text × α)} :
    lookup? key pairs = none ↔ key ∉ pairs.map (·.1) := by
  induction pairs with
  | nil => simp
  | cons pair rest ih =>
    obtain ⟨k, v⟩ := pair
    by_cases hk : k = key
    · simp [lookup?, hk]
    · simp [lookup?, hk, Ne.symm hk, ih]

/-- Where no key comes twice, every pair is found. -/
theorem lookup?_eq_some_iff_mem {α : Type} {pairs : List (Text × α)} (h : (pairs.map (·.1)).Nodup)
    {key : Text} {value : α} : lookup? key pairs = some value ↔ (key, value) ∈ pairs := by
  refine ⟨mem_of_lookup?, fun hmem => ?_⟩
  induction pairs with
  | nil => cases hmem
  | cons pair rest ih =>
    obtain ⟨k, v⟩ := pair
    rw [List.map_cons, List.nodup_cons] at h
    rcases List.mem_cons.1 hmem with heq | hrest
    · cases heq
      exact if_pos rfl
    · have hk : k ≠ key := fun hk => h.1 (List.mem_map.2 ⟨_, hrest, hk.symm⟩)
      rw [lookup?, if_neg hk]
      exact ih h.2 hrest

/-- The value of a key among pairs made from a list is made from the first element with the key. -/
theorem lookup?_map {α β : Type} (entry : α → Text × β) (xs : List α) (key : Text) :
    lookup? key (xs.map entry) =
      (xs.find? fun x => (entry x).1 == key).map fun x => (entry x).2 := by
  induction xs with
  | nil => rfl
  | cons x rest ih =>
    by_cases h : (entry x).1 = key
    · simp [lookup?, h]
    · simp [lookup?, h, ih]

theorem lookup?_filterMap {α β : Type} (key? : α → Option Text) (value : α → β) (xs : List α) (key : Text) :
    lookup? key (xs.filterMap fun x => (key? x).map fun k => (k, value x)) =
      (xs.find? fun x => key? x == some key).map value := by
  induction xs with
  | nil => rfl
  | cons x rest ih =>
    cases hx : key? x with
    | none => simp [hx, ih]
    | some k =>
      by_cases h : k = key
      · simp [hx, lookup?, h]
      · simp [hx, lookup?, h, ih]

/-! ### Fields that are set -/

namespace Fields

variable {α : Type}

theorem get?_setAll (f : Fields α) (pairs : List (Text × α)) (key : Text) :
    (f.setAll pairs).get? key = (lookup? key pairs.reverse).or (f.get? key) := by
  induction pairs generalizing f with
  | nil => rfl
  | cons pair rest ih =>
    obtain ⟨k, v⟩ := pair
    have hset : f.setAll ((k, v) :: rest) = (f.set k v).setAll rest := rfl
    rw [hset, ih, get?_set, List.reverse_cons, lookup?_append, Option.or_assoc]
    by_cases h : key = k
    · simp [lookup?, h]
    · simp [lookup?, h, Ne.symm h]

theorem get?_ofList (pairs : List (Text × α)) (key : Text) :
    (ofList pairs).get? key = lookup? key pairs.reverse := by
  have h := get?_setAll (empty : Fields α) pairs key
  simpa [ofList, get?, empty] using h

theorem setAll_ofList (pairs more : List (Text × α)) :
    (ofList pairs).setAll more = ofList (pairs ++ more) := by
  unfold ofList setAll
  rw [List.foldl_append]

/-- After a fold of writes a key has the value of the last that writes it. -/
theorem get?_foldl {β : Type} {step : Fields α → β → Fields α} {key : Text} {writes : β → Bool}
    {value : β → α}
    (hstep : ∀ f x, (step f x).get? key = if writes x then some (value x) else f.get? key)
    (f : Fields α) (xs : List β) :
    (xs.foldl step f).get? key = ((xs.reverse.find? writes).map value).or (f.get? key) := by
  induction xs using List.reverseRecOn with
  | nil => rfl
  | append_singleton rest x ih =>
    rw [List.foldl_concat, hstep, List.reverse_concat, List.find?_cons]
    cases writes x <;> simp [ih]

end Fields

/-! ### Fields that are assigned -/

namespace Mapping

section Landing

variable {α : Type} {entry : α → Text × TaskValue}

theorem landing_sublist (ordinary : Bool) (xs : List α) : (landing entry ordinary xs).Sublist xs := by
  induction xs generalizing ordinary with
  | nil => exact .slnil
  | cons x rest ih =>
    unfold landing
    split
    · exact (ih _).cons x
    · exact (ih _).cons_cons x

theorem landing_map {β : Type} (g : β → α) (ordinary : Bool) (xs : List β) :
    landing entry ordinary (xs.map g) = (landing (entry ∘ g) ordinary xs).map g := by
  induction xs generalizing ordinary with
  | nil => rfl
  | cons x rest ih =>
    simp only [List.map_cons, landing, Function.comp_apply]
    split
    · exact ih _
    · rw [List.map_cons, ih]

/-- What is looked for under other names is not among the assignments that make no field. -/
theorem filter_landing {p : α → Bool} (h : ∀ x, p x = true → (entry x).1 ≠ Inherited.prototype.name)
    (ordinary : Bool) (xs : List α) : (landing entry ordinary xs).filter p = xs.filter p := by
  induction xs generalizing ordinary with
  | nil => rfl
  | cons x rest ih =>
    unfold landing
    split
    · rename_i hlost
      have hx : ¬ p x = true := fun hp => h x hp (by simpa using (Bool.and_eq_true_iff.1 hlost).2)
      rw [ih, List.filter_cons_of_neg hx]
    · simp only [List.filter_cons, ih]

theorem find?_landing {p : α → Bool} (h : ∀ x, p x = true → (entry x).1 ≠ Inherited.prototype.name)
    (ordinary : Bool) (xs : List α) :
    (landing entry ordinary xs).reverse.find? p = xs.reverse.find? p := by
  rw [← List.head?_filter, ← List.head?_filter, List.filter_reverse, List.filter_reverse,
    filter_landing h]

end Landing

theorem get?_assignAll {key : Text} (h : key ≠ Inherited.prototype.name) (f : Fields TaskValue)
    (pairs : List (Text × TaskValue)) :
    (assignAll f pairs).get? key = (lookup? key pairs.reverse).or (f.get? key) := by
  have hpairs : ∀ ps : List (Text × TaskValue),
      lookup? key ps = (ps.find? fun p => p.1 == key).map (·.2) := by
    intro ps
    simpa using lookup?_map id ps key
  rw [assignAll, Fields.get?_setAll, hpairs, hpairs, find?_landing]
  intro x hx
  exact (beq_iff_eq.1 hx).trans_ne h

end Mapping

end Cookbook
