import Cookbook.Attribute.File

/-!
Key paths and the texts that stand for them. In the text of a path the unit `U+0000` stands between
two keys, so a path without that unit in its keys can be read off its text, with one exception: the
path of no key and the path of one empty key have the same text.

* `KeyPath.NulFree` says that no key has the unit;
* `keyPathId_eq_iff` tells when two paths have one text, `keyPathId_prefix_iff` when the text of a path
  continues that of another;
* `assignedId_eq_iff` and `assignedId_prefix_iff` are the same with a level.
-/

namespace Cookbook

/-- No key of the path has the unit that stands between keys. -/
def KeyPath.NulFree (path : KeyPath) : Prop := ∀ key ∈ path, (0 : CodeUnit) ∉ key

instance (path : KeyPath) : Decidable path.NulFree :=
  inferInstanceAs (Decidable (∀ key ∈ path, (0 : CodeUnit) ∉ key))

section Ids

variable {p q : KeyPath}

/-! ### Paths -/

/-- The keys of a path are what stands between the separators of its text. -/
theorem splitOn_keyPathId (hp : p.NulFree) (hne : p ≠ []) : List.splitOn 0 (keyPathId p) = p :=
  List.splitOn_intercalate 0 hp hne

theorem keyPathId_inj (hp : p.NulFree) (hpne : p ≠ []) (hq : q.NulFree) (hqne : q ≠ []) :
    keyPathId p = keyPathId q ↔ p = q := by
  constructor
  · intro h
    rw [← splitOn_keyPathId hp hpne, h, splitOn_keyPathId hq hqne]
  · rintro rfl
    rfl

/-- A path has the empty text when it has no key or one empty key. -/
theorem keyPathId_eq_nil_iff (hp : p.NulFree) : keyPathId p = [] ↔ p = [] ∨ p = [[]] := by
  by_cases hne : p = []
  · subst hne
    exact ⟨fun _ => .inl rfl, fun _ => rfl⟩
  · have hempty : KeyPath.NulFree [[]] := by decide
    have hinj := keyPathId_inj hp hne hempty (List.cons_ne_nil _ _)
    rw [show keyPathId [[]] = [] from rfl] at hinj
    rw [hinj]
    exact ⟨.inr, fun h => h.resolve_left hne⟩

/-- Two paths have one text when they are equal, or when one has no key and the other one empty
key. -/
theorem keyPathId_eq_iff (hp : p.NulFree) (hq : q.NulFree) :
    keyPathId p = keyPathId q ↔ p = q ∨ (p = [] ∧ q = [[]]) ∨ (p = [[]] ∧ q = []) := by
  by_cases hpne : p = []
  · subst hpne
    rw [show keyPathId [] = [] from rfl, eq_comm, keyPathId_eq_nil_iff hq]
    simp [eq_comm]
  · by_cases hqne : q = []
    · subst hqne
      rw [show keyPathId [] = [] from rfl, keyPathId_eq_nil_iff hp]
      simp [hpne]
    · rw [keyPathId_inj hp hpne hq hqne]
      simp [hpne, hqne]

@[simp] theorem keyPathId_singleton (key : Text) : keyPathId [key] = key := by
  unfold keyPathId Text.join
  exact List.intercalate_singleton

theorem keyPathId_cons (key : Text) (hpne : p ≠ []) :
    keyPathId (key :: p) = key ++ 0 :: keyPathId p := by
  obtain ⟨next, rest, rfl⟩ := List.exists_cons_of_ne_nil hpne
  unfold keyPathId Text.join
  rw [List.intercalate_cons_cons, List.append_assoc, List.singleton_append]

theorem keyPathId_append (hpne : p ≠ []) (hqne : q ≠ []) :
    keyPathId (p ++ q) = keyPathId p ++ 0 :: keyPathId q := by
  induction p with
  | nil => exact absurd rfl hpne
  | cons key keys ih =>
    by_cases hkeys : keys = []
    · subst hkeys
      rw [List.singleton_append, keyPathId_cons key hqne, keyPathId_singleton]
    · rw [List.cons_append, keyPathId_cons key (List.append_ne_nil_of_left_ne_nil hkeys _), ih hkeys,
        keyPathId_cons key hkeys, List.append_assoc, List.cons_append]

/-- The text of a path goes on with a separator in that of another exactly when the other path goes
on with more keys. -/
theorem keyPathId_prefix_iff (hp : p.NulFree) (hpne : p ≠ []) (hq : q.NulFree) :
    keyPathId p ++ [0] <+: keyPathId q ↔ p <+: q ∧ p ≠ q := by
  constructor
  · rintro ⟨tail, htail⟩
    rw [List.append_assoc, List.singleton_append] at htail
    have hqne : q ≠ [] := by
      rintro rfl
      have hlength := congrArg List.length htail
      simp [keyPathId, Text.join, List.intercalate] at hlength
    have hsplit : q = p ++ List.splitOn 0 tail := by
      rw [← splitOn_keyPathId hq hqne, ← htail, List.splitOn_eq_splitOnP,
        List.splitOnP_append_cons _ _ (by decide), ← List.splitOn_eq_splitOnP,
        ← List.splitOn_eq_splitOnP, splitOn_keyPathId hp hpne]
    refine ⟨⟨_, hsplit.symm⟩, ?_⟩
    intro heq
    exact List.splitOn_ne_nil _ _ (List.self_eq_append_right.1 (heq.trans hsplit))
  · rintro ⟨⟨more, rfl⟩, hne⟩
    have hmore : more ≠ [] := by
      rintro rfl
      exact hne (List.append_nil _).symm
    rw [keyPathId_append hpne hmore]
    exact ⟨keyPathId more, by simp⟩

/-! ### Levels with paths -/

theorem Precedence.ofWord?_word (l : Precedence) : Precedence.ofWord? l.word = some l := by
  cases l <;> rfl

theorem Precedence.word_injective : Function.Injective Precedence.word := by
  intro l l' h
  apply Option.some.inj
  rw [← Precedence.ofWord?_word l, h, Precedence.ofWord?_word l']

/-- The unit after the word for a level is the first of its kind: no level's word has it. -/
theorem Precedence.append_word_inj {l l' : Precedence} {s t : Text} :
    l.word ++ 1 :: s = l'.word ++ 1 :: t ↔ l = l' ∧ s = t := by
  constructor
  · intro h
    have hword : ∀ (l : Precedence) (s : Text), (l.word ++ 1 :: s).takeWhile (· != 1) = l.word := by
      intro l s
      have hnot : l.word.all (· != 1) = true := by
        cases l <;> rfl
      rw [List.takeWhile_append_of_pos (List.all_eq_true.1 hnot)]
      exact List.append_nil _
    have hl : l = l' := by
      apply Precedence.word_injective
      rw [← hword l s, h, hword l' t]
    subst hl
    exact ⟨rfl, (List.cons.inj (List.append_cancel_left h)).2⟩
  · rintro ⟨rfl, rfl⟩
    rfl

variable {l l' : Precedence}

theorem assignedId_eq_iff (hp : p.NulFree) (hpne : p ≠ []) (hq : q.NulFree) (hqne : q ≠ []) :
    assignedId l p = assignedId l' q ↔ l = l' ∧ p = q := by
  unfold assignedId
  rw [Precedence.append_word_inj, keyPathId_inj hp hpne hq hqne]

theorem assignedId_prefix_iff (hp : p.NulFree) (hpne : p ≠ []) (hq : q.NulFree) :
    assignedId l p ++ [0] <+: assignedId l' q ↔ l = l' ∧ p <+: q ∧ p ≠ q := by
  rw [← keyPathId_prefix_iff hp hpne hq]
  unfold assignedId
  constructor
  · rintro ⟨tail, htail⟩
    rw [List.append_assoc, List.append_assoc, List.cons_append, Precedence.append_word_inj] at htail
    exact ⟨htail.1, tail, by rw [List.append_assoc]; exact htail.2⟩
  · rintro ⟨rfl, tail, htail⟩
    refine ⟨tail, ?_⟩
    rw [← htail]
    simp

end Ids

end Cookbook
