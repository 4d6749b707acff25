import Cookbook.Proofs.Condition.Patterns

/-!
Which commands are recognized. A command is, when its text without blanks at its ends and without
redirections after it is spelled by a known pattern; the test it stands for is told by that spelling.

* `exists_spelling` and `isSome_matchCommand?_iff` say when a command is recognized, and as what;
* `MarkedCommand.core_around` says that what is taken off a command has no mark.
-/

namespace Cookbook

/-! ### Recognized commands -/

/-- The condition that a pattern makes of what it found in a marked command. -/
def CommandPattern.condition (pattern : CommandPattern) (marked : MarkedCommand) (found : CommandMatch) :
    Condition :=
  let test := Condition.test (pattern.test found.letter) (marked.subjectValue found.subject)
  if found.negated then .not test else test

/-- The text of a command in which a pattern is looked for. -/
def MarkedCommand.core (marked : MarkedCommand) : Text := dropRedirections marked.text.trim

theorem matchCommand?_eq (command : Value) :
    matchCommand? command = (MarkedCommand.ofValue? command).bind fun marked =>
      CommandPattern.all.findSome? fun pattern =>
        (CommandPattern.find? pattern.parts marked.core).map (pattern.condition marked) := by
  unfold matchCommand?
  refine congrArg (Option.bind _) (funext fun marked => ?_)
  refine congrArg (CommandPattern.all.findSome? ·) (funext fun pattern => ?_)
  show (CommandPattern.find? pattern.parts marked.core).bind _ = _
  rw [Option.map_eq_bind]
  rfl

/-- A recognized command is spelled by a known pattern, which says what it stands for. -/
theorem exists_spelling {command : Value} {c : Condition} (h : matchCommand? command = some c) :
    ∃ marked, MarkedCommand.ofValue? command = some marked ∧
      ∃ pattern ∈ CommandPattern.all, ∃ found,
        Spelling pattern.parts CommandPattern.start marked.core found ∧ c = pattern.condition marked found := by
  rw [matchCommand?_eq] at h
  obtain ⟨marked, hmarked, hpattern⟩ := Option.bind_eq_some_iff.1 h
  obtain ⟨pattern, hmem, hfind⟩ := List.exists_of_findSome?_eq_some hpattern
  obtain ⟨found, hfound, rfl⟩ := Option.map_eq_some_iff.1 hfind
  exact ⟨marked, hmarked, pattern, hmem, found, CommandPattern.spelling_of_find? hfound, rfl⟩

/-- A command is recognized exactly when a known pattern spells its text. -/
theorem isSome_matchCommand?_iff {command : Value} {marked : MarkedCommand}
    (hmarked : MarkedCommand.ofValue? command = some marked) :
    (matchCommand? command).isSome = true ↔
      ∃ pattern ∈ CommandPattern.all, ∃ found,
        Spelling pattern.parts CommandPattern.start marked.core found := by
  rw [matchCommand?_eq, hmarked, Option.bind_some, List.findSome?_isSome_iff]
  refine exists_congr fun pattern => and_congr_right fun hmem => ?_
  rw [Option.isSome_map]
  exact CommandPattern.isSome_find?_iff (CommandPattern.settled_of_mem_all pattern hmem) _

/-! ### Blanks and redirections -/

theorem not_mem_of_blank {t : Text} (h : ∀ c ∈ t, CodeUnit.isSpace c = true) : markUnit ∉ t := fun hmem =>
  absurd (h _ hmem) (by decide)

theorem trimEnd_eq (t : Text) : ∃ b, t = t.trimEnd ++ b ∧ ∀ c ∈ b, CodeUnit.isSpace c = true := by
  obtain ⟨b, hb, hblank⟩ := trimStart_eq t.reverse
  refine ⟨b.reverse, ?_, fun c hc => hblank c (List.mem_reverse.1 hc)⟩
  have hreverse := congrArg List.reverse hb
  rw [List.reverse_reverse, List.reverse_append] at hreverse
  exact hreverse

theorem redirection?_eq_some {t rest : Text} (h : redirection? t = some rest) :
    ∃ lead, t = lead ++ rest ∧ markUnit ∉ lead := by
  have hnull : ∀ {t : Text} (lead : Text), markUnit ∉ lead → afterNull? t = some rest →
      ∃ more, lead ++ t = more ++ rest ∧ markUnit ∉ more := by
    intro t lead hlead h
    obtain ⟨b, ht, hb⟩ := trimStart_eq t
    rw [after?_eq_some.1 h] at ht
    refine ⟨lead ++ b ++ "/dev/null", by rw [ht]; simp only [List.append_assoc], fun hmem => ?_⟩
    rcases List.mem_append.1 hmem with hmem | hmem
    · rcases List.mem_append.1 hmem with hmem | hmem
      · exact hlead hmem
      · exact not_mem_of_blank hb hmem
    · exact absurd hmem (by decide)
  unfold redirection? at h
  rcases Option.or_eq_some_iff.1 h with hboth | ⟨-, h⟩
  · exact ⟨"2>&1", after?_eq_some.1 hboth, by decide⟩
  rcases Option.or_eq_some_iff.1 h with hall | ⟨-, h⟩
  · obtain ⟨t', harrow, hafter⟩ := Option.bind_eq_some_iff.1 hall
    rw [after?_eq_some.1 harrow]
    exact hnull "&>" (by decide) hafter
  -- an arrow, perhaps with the number of an output before it and doubled
  · obtain ⟨t', harrow, hafter⟩ := Option.bind_eq_some_iff.1 h
    obtain ⟨number, hnumber, hplain⟩ : ∃ number, t = number ++ (">" ++ t') ∧ markUnit ∉ number := by
      have harrow := after?_eq_some.1 harrow
      cases t with
      | nil => exact ⟨[], harrow, by decide⟩
      | cons c t =>
        dsimp only at harrow
        split at harrow
        · rename_i hc
          refine ⟨[c], congrArg (c :: ·) harrow, ?_⟩
          rcases hc with rfl | rfl <;> decide
        · exact ⟨[], harrow, by decide⟩
    obtain ⟨second, hsecond, hplain'⟩ : ∃ second, t' = second ++ (after? ">" t').getD t' ∧
        markUnit ∉ second := by
      cases hdouble : after? ">" t' with
      | none => exact ⟨[], rfl, by decide⟩
      | some u => exact ⟨">", after?_eq_some.1 hdouble, by decide⟩
    obtain ⟨more, hmore, hlead⟩ := hnull (number ++ ">" ++ second) (by
      simp only [List.mem_append, not_or]
      exact ⟨⟨hplain, by decide⟩, hplain'⟩) hafter
    refine ⟨more, ?_, hlead⟩
    rw [← hmore, hnumber]
    conv_lhs => rw [hsecond]
    simp only [List.append_assoc]

theorem not_mem_of_isRedirections {fuel : Nat} {t : Text} (h : isRedirections fuel t = true) :
    markUnit ∉ t := by
  induction fuel generalizing t with
  | zero => exact absurd h (by simp [isRedirections])
  | succ fuel ih =>
    rw [isRedirections] at h
    split at h
    · exact absurd h (by simp)
    · rename_i rest hrest
      obtain ⟨b, ht, hb⟩ := trimStart_eq t
      obtain ⟨lead, hlead, hplain⟩ := redirection?_eq_some hrest
      have hmore : markUnit ∉ rest := by
        rcases Bool.or_eq_true_iff.1 h with hempty | hagain
        · obtain ⟨b', hrest', hb'⟩ := trimStart_eq rest
          rw [List.isEmpty_iff.1 hempty, List.append_nil] at hrest'
          rw [hrest']
          exact not_mem_of_blank hb'
        · exact ih hagain
      rw [ht, hlead]
      simp only [List.mem_append, not_or]
      exact ⟨not_mem_of_blank hb, hplain, hmore⟩

theorem dropRedirections_eq (t : Text) : ∃ tail, t = dropRedirections t ++ tail ∧ markUnit ∉ tail := by
  induction t with
  | nil => exact ⟨[], rfl, by decide⟩
  | cons c rest ih =>
    rw [dropRedirections]
    split
    · rename_i hredirections
      exact ⟨c :: rest, rfl, not_mem_of_isRedirections hredirections⟩
    · obtain ⟨tail, htail, hplain⟩ := ih
      exact ⟨tail, congrArg (c :: ·) htail, hplain⟩

/-- The text of a command is its core, with no mark in what stands around that. -/
theorem MarkedCommand.core_around (marked : MarkedCommand) :
    ∃ before after, marked.text = before ++ marked.core ++ after ∧ markUnit ∉ before ∧ markUnit ∉ after := by
  obtain ⟨before, hstart, hbefore⟩ := trimStart_eq marked.text
  obtain ⟨blanks, hend, hblanks⟩ := trimEnd_eq marked.text.trimStart
  obtain ⟨tail, htail, hplain⟩ := dropRedirections_eq marked.text.trim
  refine ⟨before, tail ++ blanks, ?_, not_mem_of_blank hbefore, ?_⟩
  · rw [hstart, hend]
    show before ++ (marked.text.trim ++ blanks) = before ++ dropRedirections marked.text.trim ++ _
    conv_lhs => rw [htail]
    simp only [List.append_assoc]
  · simp only [List.mem_append, not_or]
    exact ⟨hplain, not_mem_of_blank hblanks⟩

end Cookbook
