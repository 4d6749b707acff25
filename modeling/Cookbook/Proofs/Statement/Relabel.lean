import Cookbook.Proofs.Statement.Steps
import Cookbook.Proofs.Token.Place

/-!
The parser's choices do not depend on where tokens stand. A map of tokens that keeps their spelling
maps the run of a line, and the next step of a list of statements, of a conditional and of a command.
-/

namespace Cookbook

variable {r : Token → Token} (hr : KeepsSpelling r)

/-! ### Lines -/

section Lines

include hr

theorem Token.continuesLine_map (t : Token) : (r t).continuesLine = t.continuesLine := by
  unfold Token.continuesLine
  rw [Token.isPunct_eq_of_placeless (hr t), Token.isKeyword_eq_of_placeless (hr t)]

theorem lineStep_map (stopAtDo : Bool) (last : Option Token) (depth : Nat) (t : Token) :
    lineStep stopAtDo (last.map r) depth (r t) = lineStep stopAtDo last depth t := by
  simp only [lineStep, Option.any_map, Token.continuesLine_map hr,
    Token.isSeparator_eq_of_placeless (hr t), Token.isKeyword_eq_of_placeless (hr t),
    Token.isNewline_eq_of_placeless (hr t)]

theorem lineDepth_map (depth : Nat) (t : Token) : lineDepth depth (r t) = lineDepth depth t := by
  simp only [lineDepth, Token.isOpener_eq_of_placeless (hr t), Token.isCloser_eq_of_placeless (hr t)]

theorem lineRun_map (stopAtDo : Bool) (last : Option Token) (depth : Nat) (tokens : List Token) :
    lineRun stopAtDo (last.map r) depth (tokens.map r) =
      ((lineRun stopAtDo last depth tokens).1.map r, (lineRun stopAtDo last depth tokens).2) := by
  induction tokens generalizing last depth with
  | nil => rfl
  | cons t rest ih =>
    rw [List.map_cons, lineRun_cons, lineRun_cons, lineStep_map hr, lineDepth_map hr]
    cases lineStep stopAtDo last depth t with
    | stop => rfl
    | close => rfl
    | skip => rw [ih]
    | take =>
      have hrest := ih (some t) (lineDepth depth t)
      rw [Option.map_some] at hrest
      simp only [hrest, List.map_cons]

end Lines

/-! ### Steps -/

def ListStep.map (r : Token → Token) : ListStep → ListStep
  | done => done
  | stray t => stray (r t)
  | pass => pass
  | statement t => statement (r t)

/-- The step `s'` is of the kind of another one, at a token that `r` makes the same. -/
def ListStep.Matches (r : Token → Token) (s' : ListStep) : ListStep → Prop
  | done => s' = done
  | stray t => ∃ t', s' = stray t' ∧ r t' = r t
  | pass => s' = pass
  | statement t => ∃ t', s' = statement t' ∧ r t' = r t

theorem ListStep.matches_of_map {s s' : ListStep} (h : s'.map r = s.map r) : s'.Matches r s := by
  unfold Matches
  cases s <;> cases s' <;> simp [ListStep.map] at h ⊢ <;> exact h

include hr in
theorem listStep_map {stop : Token → Bool} (hstop : ∀ t, stop (r t) = stop t) (tokens : List Token) :
    listStep stop (tokens.map r) = (listStep stop tokens).map r := by
  cases tokens with
  | nil => rfl
  | cons t rest =>
    simp only [List.map_cons, listStep, hstop, Token.isKeyword_eq_of_placeless (hr t),
      Token.isCloser_eq_of_placeless (hr t)]
    split
    · rfl
    · split
      · rfl
      · split <;> rfl

def BranchStep.map (r : Token → Token) : BranchStep → BranchStep
  | done => done
  | branch word t => branch word (r t)
  | close t => close (r t)

/-- The step `s'` is of the kind of another one, at a token that `r` makes the same. -/
def BranchStep.Matches (r : Token → Token) (s' : BranchStep) : BranchStep → Prop
  | done => s' = done
  | branch word t => ∃ t', s' = branch word t' ∧ r t' = r t
  | close t => ∃ t', s' = close t' ∧ r t' = r t

theorem BranchStep.matches_of_map {s s' : BranchStep} (h : s'.map r = s.map r) : s'.Matches r s := by
  unfold Matches
  cases s <;> cases s' <;> simp [BranchStep.map] at h ⊢ <;> exact h

include hr in
theorem conditionalWord_map (t : Token) : conditionalWord (r t) = conditionalWord t := by
  simp only [conditionalWord, Token.isKeyword_eq_of_placeless (hr t)]

include hr in
theorem branchStep_map (word : ConditionalWord) (tokens : List Token) :
    branchStep word (tokens.map r) = (branchStep word tokens).map r := by
  cases tokens with
  | nil => rfl
  | cons t rest =>
    have hword : branchWord? word (r t) = branchWord? word t := by
      cases word <;> simp only [branchWord?, Token.isKeyword_eq_of_placeless (hr t)]
    simp only [List.map_cons, branchStep, hword, Token.isKeyword_eq_of_placeless (hr t)]
    split
    · rfl
    · split
      · rfl
      · split <;> rfl

def CommandStep.map (r : Token → Token) : CommandStep → CommandStep
  | done => done
  | skip => skip
  | block t kind => block (r t) kind
  | conditional t => conditional (r t)
  | compound t => compound (r t)
  | modifier t => modifier (r t)
  | push t => push (r t)

/-- The step `s'` is of the kind of another one, at a token that `r` makes the same. -/
def CommandStep.Matches (r : Token → Token) (s' : CommandStep) : CommandStep → Prop
  | done => s' = done
  | skip => s' = skip
  | block t kind => ∃ t', s' = block t' kind ∧ r t' = r t
  | conditional t => ∃ t', s' = conditional t' ∧ r t' = r t
  | compound t => ∃ t', s' = compound t' ∧ r t' = r t
  | modifier t => ∃ t', s' = modifier t' ∧ r t' = r t
  | push t => ∃ t', s' = push t' ∧ r t' = r t

theorem CommandStep.matches_of_map {s s' : CommandStep} (h : s'.map r = s.map r) : s'.Matches r s := by
  unfold Matches
  cases s <;> cases s' <;> simp [CommandStep.map, and_comm] at h ⊢ <;> exact h

namespace CommandDraft

variable {d d' : CommandDraft} (hhead : d'.head = d.head.map r) (hopeners : d'.openers = d.openers.map r)

include hr hhead

theorem braceOpensBlock_map : d'.braceOpensBlock = d.braceOpensBlock := by
  unfold braceOpensBlock
  rw [hhead, List.head?_map]
  cases d.head.head? with
  | none => rfl
  | some t =>
    have hpunct := Token.isPunct_eq_of_placeless (hr t) [")", "]"]
    have hcontent : (r t).content.placeless = t.content.placeless := congrArg Token.content (hr t)
    dsimp only [Option.map_some]
    rw [hpunct]
    cases hc : t.content <;> cases hc' : (r t).content <;> rw [hc, hc'] at hcontent <;>
      simp_all [TokenContent.placeless]

include hopeners

/-- What a command does next is a matter of how its head and the tokens ahead are spelled. -/
theorem step_map (tokens : List Token) : d'.step (tokens.map r) = (d.step tokens).map r := by
  have hbrace := braceOpensBlock_map hr hhead
  cases tokens with
  | nil => rfl
  | cons t rest =>
    -- every question of the step is about the spelling of a token, of the head or of what is open
    have hdot : ((rest.map r).head?.any fun u => u.isPunct [".", "&."]) =
        rest.head?.any fun u => u.isPunct [".", "&."] := by
      cases rest with
      | nil => rfl
      | cons u more => exact Token.isPunct_eq_of_placeless (hr u) _
    have hlast : d'.head.head?.any Token.continuesLine = d.head.head?.any Token.continuesLine := by
      rw [hhead, List.head?_map]
      cases d.head.head? with
      | none => rfl
      | some u => exact Token.continuesLine_map hr u
    have hempty : d'.openers.isEmpty = d.openers.isEmpty := by rw [hopeners, List.isEmpty_map]
    have hhead' : d'.head.isEmpty = d.head.isEmpty := by rw [hhead, List.isEmpty_map]
    have hpast : d'.continuesPast (r t) (rest.map r) = d.continuesPast t rest := by
      unfold continuesPast
      rw [hempty, hlast, hdot, Token.isNewline_eq_of_placeless (hr t)]
    have hends : d'.endsBefore (r t) = d.endsBefore t := by
      unfold endsBefore
      rw [hempty, Token.isKeyword_eq_of_placeless (hr t), Token.isCloser_eq_of_placeless (hr t)]
    have hkind : d'.blockKind? (r t) = d.blockKind? t := by
      simp only [blockKind?, hbrace, hempty, Token.isKeyword_eq_of_placeless (hr t),
        Token.isPunct_eq_of_placeless (hr t)]
    have hvalue : d'.opensValue (r t) = d.opensValue t := by
      unfold opensValue
      rw [hhead, List.head?_map, Token.isKeyword_eq_of_placeless (hr t)]
      cases d.head.head? with
      | none => rfl
      | some u => simp only [Option.map_some, Option.any_some, Token.isPunct_eq_of_placeless (hr u)]
    simp only [List.map_cons, step, hpast, hends, hkind, hvalue, hempty, hhead',
      Token.isSeparator_eq_of_placeless (hr t), Token.isKeyword_eq_of_placeless (hr t)]
    split
    · split <;> rfl
    · split
      · rfl
      · split
        · rfl
        · split
          · split
            · split <;> rfl
            · split <;> rfl
          · rfl

end CommandDraft

end Cookbook
