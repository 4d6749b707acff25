import Cookbook.Proofs.Canonical.Parsing
import Cookbook.Proofs.Statement.Nesting
import Cookbook.Proofs.Value.Brackets

/-!
Printed values in the head of a command. The tokens of a value are all taken into the head: its words
neither end the command nor open a block, its brackets are closed where it ends, and its brace opens a
hash wherever a value may stand.

* `CommandDraft.Takes` is what the parser makes of a run, `CommandDraft.step_isPlain` the step of one
  token;
* `CommandDraft.Holds` adds that no bracket is left open;
* `Written.holds_pieces` is the case of a value, `reads_head` the reading of a whole line.
-/

namespace Cookbook

open Canonical (Reads pushRun)

/-! ### Tokens of a head -/

def valueWords : List Text := ["true", "false", "nil"]

/-- A token that ends no command and starts no part of one. -/
structure Token.IsPlain (t : Token) : Prop where
  notSeparator : t.isSeparator = false
  notKeyword : ∀ words : List Text, words.all (!valueWords.contains ·) = true →
    t.isKeyword words = false

namespace CommandDraft

variable {d : CommandDraft} {t : Token} {run more : List Token}

/-- Whether a brace after the head so far opens a hash. -/
def TakesHash (d : CommandDraft) : Prop := d.openers ≠ [] ∨ d.braceOpensBlock = false

/-- A plain token goes into the head; a closer needs an opener, and a brace a place for a hash. -/
theorem step_isPlain (ht : t.IsPlain) (hcloser : t.isCloser = true → d.openers ≠ [])
    (hbrace : t.isPunct ["\x7b"] = true → d.TakesHash) (rest : List Token) :
    d.step (t :: rest) = .push t := by
  have hends : d.endsBefore t = false := by
    unfold endsBefore
    rw [ht.notKeyword _ (by decide), Bool.false_or, Bool.and_eq_false_iff]
    by_cases hclose : t.isCloser = true
    · exact .inl (by simpa using hcloser hclose)
    · exact .inr (by simpa using hclose)
  have hblock : d.blockKind? t = none := by
    have hhash : (d.openers.isEmpty && t.isPunct ["\x7b"] && d.braceOpensBlock) = false := by
      by_cases hopen : t.isPunct ["\x7b"] = true
      · rcases hbrace hopen with hopeners | hvalue
        · simp [hopeners]
        · simp [hvalue]
      · simp [hopen]
    unfold blockKind?
    rw [ht.notKeyword _ (by decide), hhash]
    rfl
  simp only [step, ht.notSeparator, hends, hblock, Bool.false_eq_true, if_false]
  rw [ht.notKeyword _ (by decide)]
  rfl

/-! ### Runs of a head -/

/-- From the draft, the parser takes the tokens of the run into the head. -/
def Takes (d : CommandDraft) (run : List Token) : Prop :=
  ∀ (src : TokenSource) (first : Token) (start i : Nat) (rest : List Token) (result : Parsed Command),
    Reads (fun fuel => parseCommand src fuel first start (pushRun d run) ⟨i + run.length, rest⟩)
      result →
    Reads (fun fuel => parseCommand src fuel first start d ⟨i, run ++ rest⟩) result

theorem pushRun_append (d : CommandDraft) (run more : List Token) :
    pushRun d (run ++ more) = pushRun (pushRun d run) more :=
  List.foldl_append

namespace Takes

theorem token (h : ∀ rest, d.step (t :: rest) = .push t) : d.Takes [t] := by
  intro src first start i rest result hread
  refine Reads.succ ?_
  simp only [List.singleton_append, parseCommand_succ, h]
  exact hread

theorem append (h : d.Takes run) (hmore : (pushRun d run).Takes more) : d.Takes (run ++ more) := by
  intro src first start i rest result hread
  rw [pushRun_append, List.length_append, ← Nat.add_assoc] at hread
  rw [List.append_assoc]
  exact h _ _ _ _ _ _ (hmore _ _ _ _ _ _ hread)

end Takes

/-- From the draft, the run is taken into the head, and every bracket in it is closed. -/
structure Holds (d : CommandDraft) (run : List Token) : Prop where
  takes : d.Takes run
  openers : (pushRun d run).openers = d.openers

namespace Holds

theorem nil (d : CommandDraft) : d.Holds [] := ⟨fun _ _ _ _ _ _ => id, rfl⟩

theorem append (h : d.Holds run) (hmore : (pushRun d run).Holds more) : d.Holds (run ++ more) where
  takes := h.takes.append hmore.takes
  openers := by rw [pushRun_append, hmore.openers, h.openers]

theorem token (ht : t.IsPlain) (hopener : t.isOpener = false) (hcloser : t.isCloser = false) :
    d.Holds [t] where
  takes := by
    refine .token (step_isPlain ht (fun h => ?_) fun h => ?_)
    · rw [h] at hcloser
      exact absurd hcloser (by decide)
    · have hbrace : t.isOpener = true :=
        Token.isOneOf_of_subset h (by simp)
      rw [hbrace] at hopener
      exact absurd hopener (by decide)
  openers := by
    show (d.push t).openers = d.openers
    simp [push, hopener, hcloser]

theorem bracketed {opener closer : Token} (hopener : opener.IsPlain) (hopens : opener.isOpener = true)
    (hopens' : opener.isCloser = false) (hhash : opener.isPunct ["\x7b"] = true → d.TakesHash)
    (hcloser : closer.IsPlain) (hcloses : closer.isCloser = true)
    (h : (d.push opener).Holds run) : d.Holds (opener :: (run ++ [closer])) := by
  have hinner : (pushRun (d.push opener) run).openers = opener :: d.openers := by
    rw [h.openers]
    simp [push, hopens]
  have hcloses' := Token.not_isOpener_of_isCloser hcloses
  constructor
  · have hfirst : d.Takes [opener] :=
      .token (step_isPlain hopener (fun hclose => absurd hclose (by simp [hopens'])) hhash)
    have hlast : (pushRun (d.push opener) run).Takes [closer] := by
      refine .token (step_isPlain hcloser (fun _ => ?_) fun _ => .inl ?_)
      · simp [hinner]
      · simp [hinner]
    exact hfirst.append (h.takes.append hlast)
  · show (pushRun (d.push opener) (run ++ [closer])).openers = d.openers
    rw [pushRun_append]
    show ((pushRun (d.push opener) run).push closer).openers = d.openers
    rw [push, hcloses', hcloses, hinner]
    rfl

end Holds

end CommandDraft

namespace Written

/-! ### Values -/

def Piece.isPlain : Piece → Bool
  | .word w => !keywords.contains w || valueWords.contains w
  | .mark t => t != ";"
  | _ => true

theorem isPlain_token {p : Placed} (h : p.piece.isPlain = true) (pos : Nat) : (p.token pos).IsPlain := by
  obtain ⟨spaced, piece⟩ := p
  cases piece with
  | word w =>
    refine ⟨isPunct_word pos spaced w [";"], fun words hwords => ?_⟩
    simp only [Token.isKeyword, Token.isOneOf, PlacedPiece.token, isPiece_content, Piece.content]
    cases hkeyword : keywords.contains w with
    | false => rfl
    | true =>
      have hvalue : valueWords.contains w = true := by
        simpa only [Piece.isPlain, hkeyword, Bool.not_true, Bool.false_or] using h
      have hnot : w ∉ words := fun hmem => by
        have := List.all_eq_true.1 hwords w hmem
        rw [hvalue] at this
        exact absurd this (by decide)
      simpa using hnot
  | mark t =>
    refine ⟨?_, fun _ _ => rfl⟩
    have ht : t ≠ (";" : Text) := by simpa [Piece.isPlain] using h
    show ([";"] : List Text).contains t = false
    simpa using ht
  | string value => exact ⟨rfl, fun _ _ => rfl⟩
  | symbol name => exact ⟨rfl, fun _ _ => rfl⟩
  | template segments => exact ⟨rfl, fun _ _ => rfl⟩
  | number n => exact ⟨rfl, fun _ _ => rfl⟩

section Holds

variable {d : CommandDraft}

theorem holds_word {w : Text} (h : (Piece.word w).isPlain = true) (spaced : Bool) (pos : Nat) :
    d.Holds [(⟨spaced, .word w⟩ : Placed).token pos] :=
  .token (isPlain_token h pos) (isPunct_word _ _ _ _) (isPunct_word _ _ _ _)

theorem holds_keys (keys : List Text) (pos : Nat) : d.Holds (layout pos (keys.flatMap keyPieces)) := by
  induction keys generalizing d pos with
  | nil => exact .nil d
  | cons key keys ih =>
    have hkey : (d.push ((mark "[").token pos)).Holds [(⟨false, .string key⟩ : Placed).token (pos + 1)] :=
      .token (isPlain_token rfl _) rfl rfl
    have hsquare : ((mark "[").token pos).isPunct ["\x7b"] = true → d.TakesHash :=
      fun h => absurd h Bool.false_ne_true
    have hbracketed : d.Holds (layout pos (keyPieces key)) :=
      .bracketed (isPlain_token (by decide) _) rfl rfl hsquare (isPlain_token (by decide) _) rfl hkey
    rw [List.flatMap_cons, layout_append]
    exact hbracketed.append (ih _)

theorem holds_pathPieces (spaced : Bool) (scope : Scope) (keys : List Text) (pos : Nat) :
    d.Holds (layout pos (pathPieces spaced scope keys)) := by
  have hword : (Piece.word scope.word).isPlain = true := by
    cases scope <;> decide
  rw [pathPieces, layout]
  exact (holds_word hword spaced pos).append (holds_keys keys _)

/-- Runs with commas between them, where each is held within brackets. -/
theorem holds_commaSeparated {runs : List (List Placed)}
    (h : ∀ run ∈ runs, ∀ {d : CommandDraft}, d.openers ≠ [] → ∀ pos, d.Holds (layout pos run))
    (hd : d.openers ≠ []) (pos : Nat) : d.Holds (layout pos (commaSeparated runs)) := by
  induction runs generalizing d pos with
  | nil => exact .nil d
  | cons run runs ih =>
    have hrun := h run List.mem_cons_self hd pos
    cases runs with
    | nil => simpa [commaSeparated] using hrun
    | cons next runs =>
      let comma := (mark ",").token (pos + (printed run).length)
      have hcomma : (pushRun d (layout pos run)).Holds [comma] :=
        .token (isPlain_token (by decide) _) rfl rfl
      rw [layout_commaSeparated]
      refine hrun.append (hcomma.append (ih (fun run hrun => h run (List.mem_cons_of_mem _ hrun)) ?_ _))
      rw [hcomma.openers, hrun.openers]
      exact hd

theorem holds_enclosed {opener closer : Text} (hbrackets : (opener, closer) ∈ brackets)
    {runs : List (List Placed)}
    (h : ∀ run ∈ runs, ∀ {d : CommandDraft}, d.openers ≠ [] → ∀ pos, d.Holds (layout pos run))
    (hd : d.TakesHash) (spaced : Bool) (pos : Nat) :
    d.Holds (layout pos (enclosed spaced opener closer runs)) := by
  have hplain : (Piece.mark opener).isPlain = true ∧ (Piece.mark closer).isPlain = true := by
    simp only [brackets, List.mem_cons, List.not_mem_nil, or_false, Prod.mk.injEq] at hbrackets
    rcases hbrackets with ⟨rfl, rfl⟩ | ⟨rfl, rfl⟩ <;> decide
  rw [layout_enclosed]
  let start := pos + (⟨spaced, .mark opener⟩ : Placed).text.length
  obtain ⟨⟨hopens, hopens', -⟩, hcloses, -, -⟩ := bracket_tokens hbrackets pos
    (start + (printed (commaSeparated runs)).length) spaced
  refine .bracketed (isPlain_token hplain.1 _) hopens hopens' (fun _ => hd) (isPlain_token hplain.2 _)
    hcloses (holds_commaSeparated h ?_ start)
  simp [CommandDraft.push, hopens]

/-- The tokens of a value go into the head of a command wherever a hash may stand. -/
theorem holds_pieces {v : Value} (h : v.isPrintable = true) (hd : d.TakesHash) (spaced : Bool)
    (pos : Nat) : d.Holds (layout pos (pieces spaced v)) := by
  -- the draft is general, since within brackets it has an opener more
  revert d spaced pos
  apply Value.printable_ind (h := h)
  case text => exact fun t _ _ spaced pos => .token (isPlain_token rfl pos) rfl rfl
  case number =>
    intro n _ d _ spaced pos
    have hnumber : ∀ {d : CommandDraft} spaced pos,
        d.Holds [(⟨spaced, .number n.num.natAbs⟩ : Placed).token pos] :=
      fun spaced pos => .token (isPlain_token rfl pos) rfl rfl
    have hminus : d.Holds [(⟨spaced, .mark "-"⟩ : Placed).token pos] :=
      .token (isPlain_token rfl pos) rfl rfl
    rw [pieces, intPieces]
    split
    · exact hminus.append (hnumber false _)
    · exact hnumber spaced pos
  case bool =>
    intro b d _ spaced pos
    exact holds_word (by cases b <;> decide) spaced pos
  case nil =>
    intro d _ spaced pos
    exact holds_word (by decide) spaced pos
  case symbol => exact fun name d _ spaced pos => .token (isPlain_token rfl pos) rfl rfl
  case path => exact fun scope keys _ d _ spaced pos => holds_pathPieces spaced scope keys pos
  case interpolation =>
    exact fun segments _ d _ spaced pos => .token (isPlain_token rfl pos) rfl rfl
  case list =>
    intro items _ ih d hd spaced pos
    rw [pieces_list]
    refine holds_enclosed (by decide) (fun run hrun d hopeners pos => ?_) hd spaced pos
    obtain ⟨spaced', v, hv, rfl⟩ := mem_runsOf hrun
    exact ih v hv (.inl hopeners) spaced' pos
  case map =>
    intro entries _ ih d hd spaced pos
    rw [pieces_map]
    refine holds_enclosed (by decide) (fun run hrun d hopeners pos => ?_) hd spaced pos
    obtain ⟨spaced', e, he, rfl⟩ := mem_runsOf hrun
    -- a key goes before its arrow, and the value behind both
    let key := (⟨spaced', .string e.key⟩ : Placed)
    let arrow := (⟨true, .mark "=>"⟩ : Placed)
    have hkey : d.Holds [key.token pos] := .token (isPlain_token rfl _) rfl rfl
    have harrow : (pushRun d [key.token pos]).Holds [arrow.token (pos + key.text.length)] :=
      .token (isPlain_token (by decide) _) rfl rfl
    refine hkey.append (harrow.append (ih e he (.inl ?_) true _))
    rw [harrow.openers, hkey.openers]
    exact hopeners

end Holds

/-! ### The end of a value -/

/-- Whether a piece at the end of a line leaves the line unfinished. -/
def Piece.continuesLine : Piece → Bool
  | .word w => (["and", "or", "not"] : List Text).contains w
  | .mark t => continuations.contains t
  | _ => false

theorem continuesLine_token {p : Placed} (h : p.piece.continuesLine = false) (pos : Nat) :
    (p.token pos).continuesLine = false := by
  obtain ⟨spaced, piece⟩ := p
  unfold Token.continuesLine
  cases piece with
  | word w =>
    rw [isPunct_word, Bool.false_or]
    simp only [Token.isKeyword, Token.isOneOf, PlacedPiece.token, isPiece_content, Piece.content]
    cases keywords.contains w with
    | false => rfl
    | true => exact h
  | mark t =>
    rw [Bool.or_eq_false_iff]
    exact ⟨h, rfl⟩
  | string value => rfl
  | symbol name => rfl
  | template segments => rfl
  | number n => rfl

theorem getLast?_layout (pos : Nat) {run : List Placed} {p : Placed} (h : run.getLast? = some p) :
    ∃ pos', (layout pos run).getLast? = some (p.token pos') := by
  obtain ⟨run, rfl⟩ := List.getLast?_eq_some_iff.1 h
  refine ⟨pos + (printed run).length, ?_⟩
  rw [layout_append]
  exact List.getLast?_concat

theorem getLast?_pieces {v : Value} (h : v.isPrintable = true) (spaced : Bool) :
    ∃ p, (pieces spaced v).getLast? = some p ∧ p.piece.continuesLine = false := by
  have henclosed : ∀ {spaced : Bool} {opener closer : Text} {runs : List (List Placed)},
      (enclosed spaced opener closer runs).getLast? = some (mark closer) := by
    intro spaced opener closer runs
    unfold enclosed
    rw [← List.cons_append]
    exact List.getLast?_concat
  revert spaced
  apply Value.printable_ind (h := h)
  case text => exact fun t spaced => ⟨_, rfl, rfl⟩
  case number =>
    intro n _ spaced
    rw [pieces, intPieces]
    split
    · exact ⟨_, rfl, rfl⟩
    · exact ⟨_, rfl, rfl⟩
  case bool =>
    intro b spaced
    refine ⟨_, rfl, ?_⟩
    cases b <;> rfl
  case nil => exact fun spaced => ⟨_, rfl, rfl⟩
  case symbol => exact fun name spaced => ⟨_, rfl, rfl⟩
  case path =>
    intro scope keys hkeys spaced
    obtain ⟨keys, key, rfl⟩ := (List.eq_nil_or_concat keys).resolve_left hkeys
    refine ⟨mark "]", ?_, by decide⟩
    rw [pieces, pathPieces, List.concat_eq_append, List.flatMap_append, ← List.cons_append,
      List.getLast?_append]
    rfl
  case interpolation => exact fun segments _ spaced => ⟨_, rfl, rfl⟩
  case list =>
    intro items _ _ spaced
    rw [pieces_list]
    exact ⟨_, henclosed, by decide⟩
  case map =>
    intro entries _ _ spaced
    rw [pieces_map]
    exact ⟨_, henclosed, by decide⟩

end Written

/-! ### Lines -/

/-- A run that is held from the start and finished is read as a command up to the newline after it. -/
theorem reads_head (src : TokenSource) {run rest : List Token} {nl t : Token}
    (hrun : CommandDraft.empty.Holds run) (hlast : run.getLast?.any Token.continuesLine = false)
    (hnl : nl.isNewline = true) (hrest : Canonical.NoDot rest) (ht : ∀ words, t.isKeyword words = false)
    (i : Nat) :
    ∃ extent, Reads (fun fuel => parseStatement src fuel t ⟨i, run ++ nl :: rest⟩)
      ⟨.command ⟨extent, run, none, [], none⟩, ⟨i + run.length, nl :: rest⟩, []⟩ := by
  let d := pushRun .empty run
  have hopeners : d.openers = [] := hrun.openers
  have hhead : d.head.head?.any Token.continuesLine = false := by
    rw [Canonical.head_pushRun, CommandDraft.empty, List.append_nil, List.head?_reverse]
    exact hlast
  have hdone : Reads (fun fuel => parseCommand src fuel t i d ⟨i + run.length, nl :: rest⟩)
      ⟨d.build t i, ⟨i + run.length, nl :: rest⟩, []⟩ := by
    refine Reads.succ ?_
    simp only [parseCommand_succ, Canonical.step_newline_done hopeners hhead hnl hrest,
      CommandDraft.finish_nil src t i _ hopeners]
    exact Reads.const _
  rw [Canonical.build_pushRun] at hdone
  exact ⟨_, Canonical.reads_command src ht (hrun.takes _ _ _ _ _ _ hdone)⟩

end Cookbook
