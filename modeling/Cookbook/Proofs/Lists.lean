import Mathlib.Data.List.Forall2

/-!
# Lists

What the other modules need of lists in general: lists that correspond element by element, and lists that
are read or made element by element.
-/

namespace Cookbook

variable {α β : Type}

/-! ### Lists that correspond -/

section Forall₂

variable {R : α → β → Prop} {l : List α} {l' : List β}

/-- What is said of each element of the first of two lists that correspond. -/
theorem forall_mem_of_forall₂ {P : α → Prop} (h : List.Forall₂ R l l') (hP : ∀ a b, R a b → P a) :
    ∀ a ∈ l, P a :=
  ((List.forall₂_and_left l l').1 (h.imp fun a b hab => ⟨hP a b hab, hab⟩)).1

theorem exists_mem_of_forall₂ (h : List.Forall₂ R l l') {b : β} (hb : b ∈ l') : ∃ a ∈ l, R a b := by
  induction h with
  | nil => cases hb
  | cons hab _ ih =>
    rcases List.mem_cons.1 hb with rfl | hb
    · exact ⟨_, List.mem_cons_self, hab⟩
    · obtain ⟨a, ha, hab⟩ := ih hb
      exact ⟨a, List.mem_cons_of_mem _ ha, hab⟩

theorem exists_getElem?_of_forall₂ (h : List.Forall₂ R l l') {i : Nat} {a : α} (ha : l[i]? = some a) :
    ∃ b, l'[i]? = some b ∧ R a b := by
  induction h generalizing i with
  | nil => cases ha
  | cons hab _ ih =>
    cases i with
    | zero =>
      obtain rfl := Option.some.inj ha
      exact ⟨_, rfl, hab⟩
    | succ i => exact ih ha

end Forall₂

/-- A list is read item by item when each item has its result. -/
theorem mapM_eq_some_iff_forall₂ {f : α → Option β} {items : List α} {results : List β} :
    items.mapM f = some results ↔ List.Forall₂ (fun a b => f a = some b) items results := by
  induction items generalizing results with
  | nil => simp [List.forall₂_nil_left_iff, eq_comm]
  | cons a rest ih =>
    rw [List.mapM_cons, List.forall₂_cons_left_iff]
    constructor
    · intro h
      obtain ⟨b, hb, h⟩ := Option.bind_eq_some_iff.1 h
      obtain ⟨more, hmore, h⟩ := Option.bind_eq_some_iff.1 h
      exact ⟨b, more, hb, ih.1 hmore, (Option.some.inj h).symm⟩
    · rintro ⟨b, more, hb, hmore, rfl⟩
      rw [hb, ih.2 hmore]
      rfl

/-- Each result of a list read item by item comes from an item. -/
theorem mem_of_mapM_eq_some {f : α → Option β} {items : List α} {results : List β}
    (h : items.mapM f = some results) {b : β} (hb : b ∈ results) : ∃ a ∈ items, f a = some b :=
  exists_mem_of_forall₂ (mapM_eq_some_iff_forall₂.1 h) hb

/-! ### Elements by place -/

theorem getElem?_map_range (f : Nat → α) (n j : Nat) :
    ((List.range n).map f)[j]? = if j < n then some (f j) else none := by
  rw [List.getElem?_map]
  split
  · rename_i hj
    rw [List.getElem?_range hj]
    rfl
  · rename_i hj
    rw [List.getElem?_eq_none (by simpa using hj)]
    rfl

theorem flatMap_range_getD (l : List (List α)) : (List.range l.length).flatMap (l.getD · []) = l.flatten := by
  have hsame : (List.range l.length).map (l.getD · []) = l := by
    refine List.ext_getElem (by simp) fun i hi hi' => ?_
    simp [hi']
  rw [List.flatMap_def, hsame]

theorem forall_mem_modifyHead {P : α → Prop} {f : α → α} {l : List α} (hf : ∀ x, P x → P (f x))
    (h : ∀ x ∈ l, P x) : ∀ x ∈ l.modifyHead f, P x := by
  cases l with
  | nil => exact h
  | cons first more =>
    rw [List.forall_mem_cons] at h
    exact List.forall_mem_cons.2 ⟨hf first h.1, h.2⟩

/-- Of two elements of a list that is in order, one comes first. -/
theorem eq_or_rel_of_pairwise {R : α → α → Prop} {l : List α} (h : l.Pairwise R) {a b : α}
    (ha : a ∈ l) (hb : b ∈ l) : a = b ∨ R a b ∨ R b a := by
  obtain ⟨i, hi, rfl⟩ := List.mem_iff_getElem.1 ha
  obtain ⟨j, hj, rfl⟩ := List.mem_iff_getElem.1 hb
  have hpair := List.pairwise_iff_getElem.1 h
  rcases Nat.lt_trichotomy i j with hij | rfl | hij
  · exact .inr (.inl (hpair i j hi hj hij))
  · exact .inl rfl
  · exact .inr (.inr (hpair j i hj hi hij))

end Cookbook
