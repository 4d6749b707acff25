import Cookbook.Proofs.Condition.Recognition

/-!
Signs of the shell in recognized commands. A sign outside of quotes joins commands, redirects or starts a
substitution, so a command with one is not a single test. What a pattern itself spells has no such sign,
and a quoted subject hides the signs in it; a subject that is a run without blanks may have any.

* `hasSign` reads a text as a shell does, up to a sign outside of quotes;
* `hasSign_of_isQuoted` and `Spelling.hasSign_eq` say where a recognized command can have one;
* `recognized_with_sign_iff` is the result.
-/

namespace Cookbook

/-! ### Signs -/

/-- Whether a unit, before the next one, separates or joins commands, redirects or starts a
substitution. -/
def isSign (c : CodeUnit) (next : Option CodeUnit) : Bool :=
  ([';', '&', '|', '<', '>', '\x60'] : List CodeUnit).contains c || (c == '$' && next == some '(')

/-- Whether a sign stands outside of quotes in a text that starts within `quote`; `hidden` tells that a
backslash stands before it. -/
def signFrom : (quote : Option CodeUnit) → (hidden : Bool) → Text → Bool
  | _, _, [] => false
  | quote, true, _ :: rest => signFrom quote false rest
  | none, false, c :: rest =>
    if c = '\\' then signFrom none true rest
    else if c = '\x22' ∨ c = '\x27' then signFrom (some c) false rest
    else isSign c rest.head? || signFrom none false rest
  | some q, false, c :: rest =>
    if c = q then signFrom none false rest
    else signFrom (some q) (c == '\\' && q == '\x22') rest

/-- Whether a shell sees a sign in a command. -/
def hasSign (t : Text) : Bool := signFrom none false t

/-! ### Where signs can stand -/

theorem isSign_of_not_special {c : CodeUnit} (hc : c ∉ specialUnits) (next : Option CodeUnit) :
    isSign c next = false := by
  have hne : ∀ d ∈ specialUnits, c ≠ d := fun d hd => (ne_of_mem_of_not_mem hd hc).symm
  simp [isSign, hne ';' (by decide), hne '&' (by decide), hne '|' (by decide), hne '<' (by decide),
    hne '>' (by decide), hne '\x60' (by decide), hne '$' (by decide)]

theorem signFrom_of_not_special {t : Text} (ht : ∀ c ∈ t, c ∉ specialUnits) (quote : Option CodeUnit)
    (hidden : Bool) : signFrom quote hidden t = false := by
  induction t generalizing quote hidden with
  | nil => rfl
  | cons c t ih =>
    obtain ⟨hc, ht⟩ := List.forall_mem_cons.1 ht
    cases hidden with
    | true => exact ih ht quote false
    | false =>
      cases quote with
      | none =>
        rw [signFrom, isSign_of_not_special hc, Bool.false_or, ih ht, ih ht, ih ht, ite_self, ite_self]
      | some q => rw [signFrom, ih ht, ih ht, ite_self]

/-- Units that stand for themselves change nothing in what follows them outside of quotes. -/
theorem signFrom_append_left {before : Text} (hbefore : ∀ c ∈ before, c ∉ specialUnits) (t : Text) :
    signFrom none false (before ++ t) = signFrom none false t := by
  induction before with
  | nil => rfl
  | cons c before ih =>
    obtain ⟨hc, hbefore⟩ := List.forall_mem_cons.1 hbefore
    have hne : ∀ d ∈ specialUnits, c ≠ d := fun d hd => (ne_of_mem_of_not_mem hd hc).symm
    rw [List.cons_append, signFrom, if_neg (hne '\\' (by decide)), if_neg, isSign_of_not_special hc,
      Bool.false_or, ih hbefore]
    rintro (hquote | hquote)
    · exact hne '\x22' (by decide) hquote
    · exact hne '\x27' (by decide) hquote

/-- Units that stand for themselves add no sign to what they follow. -/
theorem signFrom_append_right {after : Text} (hafter : ∀ c ∈ after, c ∉ specialUnits) (t : Text)
    (quote : Option CodeUnit) (hidden : Bool) : signFrom quote hidden (t ++ after) = signFrom quote hidden t := by
  induction t generalizing quote hidden with
  | nil =>
    rw [List.nil_append, signFrom_of_not_special hafter]
    rfl
  | cons c t ih =>
    rw [List.cons_append]
    cases hidden with
    | true => exact ih quote false
    | false =>
      cases quote with
      | none =>
        have hsign : isSign c (t ++ after).head? = isSign c t.head? := by
          cases t with
          | cons d t => rfl
          | nil =>
            -- no parenthesis comes first in what follows, so a dollar sign at the end starts nothing
            cases after with
            | nil => rfl
            | cons d after =>
              have hd : d ≠ CodeUnit.ofChar '(' := fun heq =>
                hafter d List.mem_cons_self (by rw [heq]; decide)
              simp [isSign, hd]
        rw [signFrom, signFrom, ih, ih, ih, hsign]
      | some q => rw [signFrom, signFrom, ih, ih]

/-- A quoted text has no sign outside of its quotes. -/
theorem hasSign_of_isQuoted {raw : Text} (h : IsQuoted raw) : hasSign raw = false := by
  obtain ⟨q, inner, hq, hinner, rfl⟩ := h
  have hinside : ∀ hidden, signFrom (some q) hidden (inner ++ [q]) = false := by
    induction inner with
    | nil =>
      intro hidden
      cases hidden with
      | true => rfl
      | false =>
        rw [List.nil_append, signFrom, if_pos rfl]
        rfl
    | cons c inner ih =>
      obtain ⟨hc, hinner⟩ := not_or.1 (List.mem_cons.not.1 hinner)
      intro hidden
      rw [List.cons_append]
      cases hidden with
      | true => exact ih hinner false
      | false =>
        rw [signFrom, if_neg (Ne.symm hc)]
        exact ih hinner _
  have hslash : q ≠ CodeUnit.ofChar '\\' := by
    rcases hq with rfl | rfl <;> decide
  rw [hasSign, List.cons_append, signFrom, if_neg hslash, if_pos hq]
  exact hinside false

/-- A text that a known pattern spells has the signs of its subject. -/
theorem Spelling.hasSign_eq {pattern : CommandPattern} (hpattern : pattern ∈ CommandPattern.all) {t : Text}
    {m found : CommandMatch} (h : Spelling pattern.parts m t found) :
    hasSign t = hasSign found.subject ∧ (IsQuoted found.subject ∨ IsBare found.subject) := by
  obtain ⟨before, after, rfl, hform, hbefore, hafter⟩ :=
    h.around (CommandPattern.one_subject pattern hpattern)
  refine ⟨?_, hform⟩
  unfold hasSign
  rw [signFrom_append_right fun c hc => CommandPattern.not_special hpattern (hafter c hc),
    signFrom_append_left fun c hc => CommandPattern.not_special hpattern (hbefore c hc)]

/-! ### Recognized commands -/

/-- A command, without blanks around it and without redirections after it, is recognized exactly when a
known pattern spells it. It is recognized although a shell sees a sign in it exactly when the subject of
such a spelling is a run without blanks in which a shell sees a sign. Whatever it is, what it is
recognized as is told by a spelling, whose subject has all signs of the command. -/
theorem recognized_with_sign_iff (s : Text) :
    let command := dropRedirections s.trim
    let spelled (found : CommandMatch) (pattern : CommandPattern) : Prop :=
      pattern ∈ CommandPattern.all ∧ Spelling pattern.parts CommandPattern.start command found
    ((matchCommand? (.ofText s)).isSome = true ↔ ∃ found pattern, spelled found pattern) ∧
      ((matchCommand? (.ofText s)).isSome = true ∧ hasSign command = true ↔
        ∃ found pattern, spelled found pattern ∧ IsBare found.subject ∧
          hasSign found.subject = true) ∧
      ∀ c, matchCommand? (.ofText s) = some c → ∃ found pattern, spelled found pattern ∧
        c = pattern.condition ⟨s, []⟩ found ∧
          hasSign command = hasSign found.subject := by
  intro command spelled
  have hmarked : MarkedCommand.ofValue? (.ofText s) = some ⟨s, []⟩ := rfl
  have hrecognized : (matchCommand? (.ofText s)).isSome = true ↔ ∃ found pattern, spelled found pattern := by
    rw [isSome_matchCommand?_iff hmarked]
    constructor
    · rintro ⟨pattern, hpattern, found, hspelling⟩
      exact ⟨found, pattern, hpattern, hspelling⟩
    · rintro ⟨found, pattern, hpattern, hspelling⟩
      exact ⟨pattern, hpattern, found, hspelling⟩
  refine ⟨hrecognized, ?_, ?_⟩
  · rw [hrecognized]
    constructor
    · rintro ⟨⟨found, pattern, hpattern, hspelling⟩, hsign⟩
      obtain ⟨heq, hform⟩ := hspelling.hasSign_eq hpattern
      rw [heq] at hsign
      refine ⟨found, pattern, ⟨hpattern, hspelling⟩, hform.resolve_left fun hquoted => ?_, hsign⟩
      exact absurd hsign (by simp [hasSign_of_isQuoted hquoted])
    · rintro ⟨found, pattern, ⟨hpattern, hspelling⟩, -, hsign⟩
      exact ⟨⟨found, pattern, hpattern, hspelling⟩, (hspelling.hasSign_eq hpattern).1.trans hsign⟩
  · intro c hc
    obtain ⟨marked, hsome, pattern, hpattern, found, hspelling, rfl⟩ := exists_spelling hc
    obtain rfl := Option.some.inj (hmarked.symm.trans hsome)
    exact ⟨found, pattern, ⟨hpattern, hspelling⟩, rfl, (hspelling.hasSign_eq hpattern).1⟩

/-- A command after a test is taken into the path that is tested, unless blanks set it apart. -/
theorem command_after_test_recognized :
    let s : Text := "test -f /a&&reboot"
    let path? (c : Condition) : Option Text := match c with
      | .test .fileExists subject => subject.literalText?
      | _ => none
    (matchCommand? (.ofText s)).bind path? = some ("/a&&reboot" : Text) ∧
      (matchCommand? (.ofText "test -f /a && reboot")).isSome = false ∧
      ∃ found : CommandMatch, IsBare found.subject ∧ hasSign found.subject = true := by
  intro s path?
  have hsome : (matchCommand? (.ofText s)).isSome = true := by decide +kernel
  have hsign : hasSign (dropRedirections s.trim) = true := by decide +kernel
  obtain ⟨found, pattern, -, hbare, hfound⟩ := (recognized_with_sign_iff s).2.1.1 ⟨hsome, hsign⟩
  exact ⟨by decide +kernel, by decide +kernel, found, hbare, hfound⟩

end Cookbook
