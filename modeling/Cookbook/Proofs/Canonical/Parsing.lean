import Cookbook.Proofs.Canonical.Pieces
import Cookbook.Proofs.Statement.Steps

/-!
How the parser reads printed lines and blocks.

* `Reads` is what a call gives once it has fuel enough;
* `reads_line` is one line, `reads_lines` the lines of a block;
* `Resource.reads` is a resource: `Resource.Spelled` says what statement it is.
-/

namespace Cookbook

namespace Canonical

/-! ### Fuel enough -/

/-- With enough fuel the call gives the result. -/
def Reads {α : Type} (call : Nat → α) (result : α) : Prop := ∃ n, ∀ fuel, n ≤ fuel → call fuel = result

namespace Reads

variable {α β : Type} {call : Nat → α} {result : α}

theorem const (result : α) : Reads (fun _ => result) result := ⟨0, fun _ _ => rfl⟩

/-- A call with one unit more than the calls it makes. -/
theorem succ (h : Reads (fun fuel => call (fuel + 1)) result) : Reads call result := by
  obtain ⟨n, hn⟩ := h
  refine ⟨n + 1, fun fuel hfuel => ?_⟩
  obtain ⟨fuel, rfl⟩ : ∃ m, fuel = m + 1 := ⟨fuel - 1, by omega⟩
  exact hn fuel (by omega)

/-- A call that goes on with the result of another one. -/
theorem bind (next : Nat → α → β) {last : β} (h : Reads call result)
    (hnext : Reads (fun fuel => next fuel result) last) :
    Reads (fun fuel => next fuel (call fuel)) last := by
  obtain ⟨n, hn⟩ := h
  obtain ⟨m, hm⟩ := hnext
  refine ⟨max n m, fun fuel hfuel => ?_⟩
  dsimp only at hm ⊢
  rw [hn fuel (by omega), hm fuel (by omega)]

theorem map (f : α → β) (h : Reads call result) : Reads (fun fuel => f (call fuel)) (f result) := by
  obtain ⟨n, hn⟩ := h
  exact ⟨n, fun fuel hfuel => congrArg f (hn fuel hfuel)⟩

end Reads

/-! ### Tokens of pieces -/

/-- Whether a piece goes into the head of a command. -/
def Piece.isPlain : Piece → Bool
  | .word text => !keywords.contains text
  | .newline => false
  | _ => true

theorem Piece.not_newline_of_isPlain {piece : Piece} (h : piece.isPlain = true) :
    (piece == .newline) = false := by
  cases piece with
  | newline => exact absurd h (by decide)
  | word _ | string _ | symbol _ | opener | closer | comma => rfl

def Piece.mark? : Piece → Option Text
  | .opener => some "["
  | .closer => some "]"
  | .comma => some ","
  | _ => none

section Piece

variable (pos : Nat)

theorem isPunct_token (p : Placed) (values : List Text) :
    (p.token pos).isPunct values = p.piece.mark?.any values.contains := by
  obtain ⟨spaced, piece⟩ := p
  cases piece with
  | word w =>
    simp only [Token.isPunct, Token.isOneOf, PlacedPiece.token, isPiece_content, Piece.content]
    cases keywords.contains w <;> rfl
  | string value => rfl
  | symbol w => rfl
  | opener => rfl
  | closer => rfl
  | comma => rfl
  | newline => rfl

theorem isPunct_token_eq_false (p : Placed) {values : List Text}
    (h : ∀ mark ∈ (["[", "]", ","] : List Text), values.contains mark = false) :
    (p.token pos).isPunct values = false := by
  rw [isPunct_token]
  cases p.piece with
  | opener => exact h _ (by decide)
  | closer => exact h _ (by decide)
  | comma => exact h _ (by decide)
  | word w => rfl
  | string value => rfl
  | symbol w => rfl
  | newline => rfl

theorem isSeparator_token (p : Placed) : (p.token pos).isSeparator = (p.piece == .newline) := by
  unfold Token.isSeparator
  rw [isPunct_token_eq_false pos p (by decide), Bool.or_false]
  obtain ⟨spaced, piece⟩ := p
  cases piece <;> rfl

theorem isKeyword_token {p : Placed} (h : p.piece.isPlain = true) (words : List Text) :
    (p.token pos).isKeyword words = false := by
  obtain ⟨spaced, piece⟩ := p
  cases piece with
  | word w =>
    simp only [Piece.isPlain, Bool.not_eq_true'] at h
    simp only [Token.isKeyword, Token.isOneOf, PlacedPiece.token, isPiece_content, Piece.content, h]
    rfl
  | newline => rfl
  | string value => rfl
  | symbol w => rfl
  | opener => rfl
  | closer => rfl
  | comma => rfl

theorem isKeyword_word {w : Text} (h : keywords.contains w = true) (spaced : Bool)
    (words : List Text) :
    ((⟨spaced, .word w⟩ : Placed).token pos).isKeyword words = words.contains w := by
  simp only [Token.isKeyword, Token.isOneOf, PlacedPiece.token, isPiece_content, Piece.content, h]
  rfl

theorem isOpener_token (p : Placed) : (p.token pos).isOpener = (p.piece == .opener) := by
  unfold Token.isOpener
  rw [isPunct_token]
  cases p.piece <;> rfl

theorem isCloser_token (p : Placed) : (p.token pos).isCloser = (p.piece == .closer) := by
  unfold Token.isCloser
  rw [isPunct_token]
  cases p.piece <;> rfl

/-- A plain piece goes into the head; a closer needs an opener. -/
theorem step_token {d : CommandDraft} {p : Placed} (hp : p.piece.isPlain = true)
    (hcloser : p.piece = .closer → d.openers ≠ []) (rest : List Token) :
    d.step (p.token pos :: rest) = .push (p.token pos) := by
  have hnewline := Piece.not_newline_of_isPlain hp
  have hends : d.endsBefore (p.token pos) = false := by
    unfold CommandDraft.endsBefore
    rw [isKeyword_token pos hp, isCloser_token]
    cases hpiece : p.piece <;> simp_all
  have hblock : d.blockKind? (p.token pos) = none := by
    unfold CommandDraft.blockKind?
    rw [isKeyword_token pos hp, isPunct_token_eq_false pos p (by decide)]
    simp
  simp [CommandDraft.step, isSeparator_token, hnewline, hends, hblock, isKeyword_token pos hp]

end Piece

/-! ### Heads -/

def pushRun (d : CommandDraft) (run : List Token) : CommandDraft := run.foldl CommandDraft.push d

theorem head_pushRun (d : CommandDraft) (run : List Token) :
    (pushRun d run).head = run.reverse ++ d.head := by
  induction run generalizing d with
  | nil => rfl
  | cons t run ih =>
    show (pushRun (d.push t) run).head = _
    rw [ih, List.reverse_cons, List.append_assoc]
    rfl

theorem pushRun_rest (d : CommandDraft) (run : List Token) :
    (pushRun d run).block = d.block ∧ (pushRun d run).innerBlocks = d.innerBlocks ∧
      (pushRun d run).modifier = d.modifier := by
  induction run generalizing d with
  | nil => exact ⟨rfl, rfl, rfl⟩
  | cons t run ih => exact ih (d.push t)

theorem build_pushRun (run : List Token) (t : Token) (start : Nat) :
    (pushRun .empty run).build t start =
      ⟨⟨t.start, (pushRun .empty run).stop t, start⟩, run, none, [], none⟩ := by
  obtain ⟨hblock, hinner, hmodifier⟩ := pushRun_rest .empty run
  unfold CommandDraft.build
  rw [head_pushRun, hblock, hinner, hmodifier]
  simp [CommandDraft.empty]

/-- Whether the brackets of some pieces are closed, with `depth` of them open before. -/
def nested : (depth : Nat) → List Placed → Bool
  | depth, [] => depth == 0
  | depth, p :: rest =>
    match p.piece with
    | .opener => nested (depth + 1) rest
    | .closer => depth != 0 && nested (depth - 1) rest
    | _ => nested depth rest

theorem length_openers_push (d : CommandDraft) (pos : Nat) (p : Placed) :
    (d.push (p.token pos)).openers.length =
      if p.piece = .opener then d.openers.length + 1
      else if p.piece = .closer then d.openers.length - 1
      else d.openers.length := by
  unfold CommandDraft.push
  simp only [isOpener_token, isCloser_token, beq_iff_eq]
  split
  · rfl
  · split
    · exact List.length_tail
    · rfl

section Run

variable {src : TokenSource} {first : Token} {start : Nat} {rest : List Token}
  {result : Parsed Command}

/-- Plain pieces whose brackets are closed all go into the head, and leave no bracket open. -/
theorem reads_run {pieces : List Placed} (hplain : ∀ p ∈ pieces, p.piece.isPlain = true)
    {d : CommandDraft} (hnested : nested d.openers.length pieces = true) (pos i : Nat) :
    (pushRun d (layout pos pieces)).openers = [] ∧
      (Reads (fun fuel => parseCommand src fuel first start (pushRun d (layout pos pieces))
          ⟨i + pieces.length, rest⟩) result →
        Reads (fun fuel => parseCommand src fuel first start d ⟨i, layout pos pieces ++ rest⟩)
          result) := by
  induction pieces generalizing d pos i with
  | nil =>
    have hnil : d.openers.length = 0 := by simpa only [nested, beq_iff_eq] using hnested
    exact ⟨List.length_eq_zero_iff.1 hnil, id⟩
  | cons p pieces ih =>
    have hp := hplain p List.mem_cons_self
    have hcloser : p.piece = .closer → d.openers ≠ [] := by
      rintro hpiece hnil
      simp [nested, hpiece, hnil] at hnested
    have hnested' : nested (d.push (p.token pos)).openers.length pieces = true := by
      rw [length_openers_push]
      cases hpiece : p.piece <;> simp_all [nested]
    obtain ⟨hopeners, hreads⟩ := ih (fun q hq => hplain q (List.mem_cons_of_mem _ hq)) hnested'
      (pos + p.text.length) (i + 1)
    refine ⟨hopeners, fun h => Reads.succ ?_⟩
    have hstep := step_token pos hp hcloser (layout (pos + p.text.length) pieces ++ rest)
    simp only [layout, List.cons_append, parseCommand_succ, hstep]
    rw [show i + (p :: pieces).length = i + 1 + pieces.length by
      rw [List.length_cons]; omega] at h
    exact hreads h

end Run

/-- What follows a line does not go on with it. -/
def NoDot (rest : List Token) : Prop := rest.head?.any (·.isPunct [".", "&."]) = false

theorem noDot_layout (pos : Nat) {pieces : List Placed} (h : pieces ≠ []) (rest : List Token) :
    NoDot (layout pos pieces ++ rest) := by
  cases pieces with
  | nil => exact absurd rfl h
  | cons p pieces => exact isPunct_token_eq_false pos p (by decide)

theorem step_newline_done {d : CommandDraft} (hopeners : d.openers = [])
    (hlast : d.head.head?.any Token.continuesLine = false) {t : Token} (ht : t.isNewline = true)
    {rest : List Token} (hrest : NoDot rest) : d.step (t :: rest) = .done := by
  have hsep : t.isSeparator = true := by
    unfold Token.isSeparator
    rw [ht, Bool.true_or]
  have hpast : d.continuesPast t rest = false := by
    unfold NoDot at hrest
    simp [CommandDraft.continuesPast, hopeners, hlast, hrest]
  rw [d.step_of_isSeparator hsep, hpast]
  rfl

/-- The tokens at which a list of statements ends. -/
structure Ends (stop : Token → Bool) (rest : List Token) : Prop where
  notSeparator : rest.head?.any Token.isSeparator = false
  step : listStep stop rest = .done
  noDot : NoDot rest

/-- The statement is a command of the given pieces alone. -/
def Spells (line : List Placed) (s : Statement) : Prop :=
  ∃ extent pos, s = .command ⟨extent, layout pos line, none, [], none⟩

/-- Pieces that make a command of their own: names, texts and lists, with a text or a list last. -/
structure IsLine (line : List Placed) : Prop where
  plain : ∀ p ∈ line, p.piece.isPlain = true
  nested : nested 0 line = true
  first : ∀ p ∈ line.head?, p.piece ≠ .closer
  last : ∃ p ∈ line.getLast?, p.piece = .closer ∨ ∃ value, p.piece = .string value

theorem IsLine.ne_nil {line : List Placed} (h : IsLine line) : line ≠ [] := by
  rintro rfl
  obtain ⟨p, hp, -⟩ := h.last
  exact absurd hp (by simp)

theorem getLast?_layout {pos : Nat} {pieces : List Placed} {p : Placed}
    (h : pieces.getLast? = some p) : ∃ at', (layout pos pieces).getLast? = some (p.token at') := by
  induction pieces generalizing pos with
  | nil => exact absurd h (by simp)
  | cons q pieces ih =>
    cases pieces with
    | nil =>
      obtain rfl : q = p := by simpa using h
      exact ⟨pos, rfl⟩
    | cons q' pieces =>
      rw [List.getLast?_cons_cons] at h
      obtain ⟨at', hat⟩ := ih h
      refine ⟨at', ?_⟩
      rw [layout, layout, List.getLast?_cons_cons]
      exact hat

/-- A list or a text at the end of a line leaves it finished. -/
theorem IsLine.continuesLine {line : List Placed} (h : IsLine line) (pos : Nat) :
    (layout pos line).getLast?.any Token.continuesLine = false := by
  obtain ⟨p, hp, hpiece⟩ := h.last
  obtain ⟨at', hlast⟩ := getLast?_layout hp
  have hplain : p.piece.isPlain = true := h.plain p (List.mem_of_mem_getLast? hp)
  rw [hlast, Option.any_some]
  unfold Token.continuesLine
  rw [isKeyword_token at' hplain, isPunct_token, Bool.or_false]
  rcases hpiece with hpiece | ⟨value, hpiece⟩
  · rw [hpiece]
    decide
  · rw [hpiece]
    rfl

theorem isSeparator_of_mem_newline (pos : Nat) :
    ∀ sep ∈ [(tight .newline).token pos], sep.isSeparator = true := by
  intro sep hsep
  obtain rfl := List.mem_singleton.1 hsep
  rfl

section Line

variable (src : TokenSource) {rest : List Token} {nl : Token}

/-- A command whose head is a line ends at the newline after it. -/
theorem reads_finish {line : List Placed} (h : IsLine line) (hnl : nl.isNewline = true)
    (hrest : NoDot rest) {d : CommandDraft} (hopeners : d.openers = []) {pos : Nat}
    (hhead : d.head = (layout pos line).reverse) (t : Token) (start i : Nat) :
    Reads (fun fuel => parseCommand src fuel t start d ⟨i, nl :: rest⟩)
      ⟨d.build t start, ⟨i, nl :: rest⟩, []⟩ := by
  have hlast : d.head.head?.any Token.continuesLine = false := by
    rw [hhead, List.head?_reverse]
    exact h.continuesLine pos
  refine Reads.succ ?_
  simp only [parseCommand_succ, step_newline_done hopeners hlast hnl hrest,
    CommandDraft.finish_nil src t start _ hopeners]
  exact Reads.const _

theorem reads_command {t : Token} (ht : ∀ words, t.isKeyword words = false) {c c' : Cursor}
    {command : Command}
    (h : Reads (fun fuel => parseCommand src fuel t c.index .empty c) ⟨command, c', []⟩) :
    Reads (fun fuel => parseStatement src fuel t c) ⟨.command command, c', []⟩ := by
  refine Reads.succ ?_
  simp only [parseStatement_succ, ht, Bool.false_eq_true, if_false]
  exact h.map (Parsed.map Statement.command)

theorem reads_line {line : List Placed} (h : IsLine line) (hnl : nl.isNewline = true)
    (hrest : NoDot rest) {t : Token} (ht : ∀ words, t.isKeyword words = false) (pos i : Nat) :
    ∃ extent, Reads (fun fuel => parseStatement src fuel t ⟨i, layout pos line ++ nl :: rest⟩)
      ⟨.command ⟨extent, layout pos line, none, [], none⟩, ⟨i + line.length, nl :: rest⟩, []⟩ := by
  obtain ⟨hopeners, hreads⟩ := reads_run h.plain (d := .empty) h.nested pos i
  have hhead := head_pushRun .empty (layout pos line)
  have hdone := reads_finish src h hnl hrest hopeners (hhead.trans (List.append_nil _)) t i
    (i + line.length)
  rw [build_pushRun] at hdone
  exact ⟨_, reads_command src ht (hreads hdone)⟩

theorem reads_statement {stop : Token → Bool} {seps : List Token} {t : Token} {tokens : List Token}
    (hseps : ∀ sep ∈ seps, sep.isSeparator = true) (ht : t.isSeparator = false)
    (hstep : listStep stop (t :: tokens) = .statement t) {i : Nat} {s : Statement} {c : Cursor}
    (hs : Reads (fun fuel => parseStatement src fuel t ⟨i + seps.length, t :: tokens⟩) ⟨s, c, []⟩)
    {body : List Statement} {c' : Cursor}
    (hbody : Reads (fun fuel => parseStatements src fuel stop c) ⟨body, c', []⟩) :
    Reads (fun fuel => parseStatements src fuel stop ⟨i, seps ++ t :: tokens⟩) ⟨s :: body, c', []⟩ := by
  refine Reads.succ ?_
  simp only [parseStatements_succ, Cursor.skipSeparators_separators (t :: tokens) hseps ht, hstep]
  refine hs.bind (fun fuel first =>
    let more := parseStatements src fuel stop first.cursor
    (⟨first.value :: more.value, more.cursor, first.problems ++ more.problems⟩ :
      Parsed (List Statement))) ?_
  exact hbody.map fun more =>
    (⟨s :: more.value, more.cursor, [] ++ more.problems⟩ : Parsed (List Statement))

theorem reads_done {stop : Token → Bool} {seps tokens : List Token}
    (hseps : ∀ sep ∈ seps, sep.isSeparator = true)
    (htokens : tokens.head?.any Token.isSeparator = false)
    (hstep : listStep stop tokens = .done) (i : Nat) :
    Reads (fun fuel => parseStatements src fuel stop ⟨i, seps ++ tokens⟩)
      ⟨[], ⟨i + seps.length, tokens⟩, []⟩ := by
  refine Reads.succ ?_
  simp only [parseStatements_succ, Cursor.skipSeparators_separators tokens hseps htokens, hstep]
  exact Reads.const _

theorem listStep_token {stop : Token → Bool} {pos : Nat} {p : Placed} (hp : p.piece.isPlain = true)
    (hcloser : p.piece ≠ .closer) (hstop : stop (p.token pos) = false) (tokens : List Token) :
    listStep stop (p.token pos :: tokens) = .statement (p.token pos) := by
  simp [listStep, hstop, isKeyword_token pos hp, isCloser_token, hcloser]

/-- The lines of a block are read as commands, one for each. -/
theorem reads_lines {lines : List (List Placed)} (hlines : ∀ line ∈ lines, IsLine line)
    {stop : Token → Bool} (hstop : ∀ pos (p : Placed), p.piece.isPlain = true → stop (p.token pos) = false)
    (hend : Ends stop rest) {seps : List Token} (hseps : ∀ sep ∈ seps, sep.isSeparator = true)
    (pos i : Nat) :
    ∃ body j, List.Forall₂ Spells lines body ∧
      Reads (fun fuel => parseStatements src fuel stop
        ⟨i, seps ++ (layout pos (lines.flatMap (· ++ [tight .newline])) ++ rest)⟩)
        ⟨body, ⟨j, rest⟩, []⟩ := by
  induction lines generalizing seps pos i with
  | nil => exact ⟨[], i + seps.length, .nil, reads_done src hseps hend.notSeparator hend.step i⟩
  | cons line lines ih =>
    have hline := hlines line List.mem_cons_self
    let nl := (tight .newline).token (pos + (printed line).length)
    let next := pos + (printed (line ++ [tight .newline])).length
    have hsplit : layout pos ((line :: lines).flatMap (· ++ [tight .newline])) ++ rest =
        layout pos line ++ nl :: (layout next (lines.flatMap (· ++ [tight .newline])) ++ rest) := by
      rw [List.flatMap_cons, layout_append, layout_append, List.append_assoc, List.append_assoc]
      rfl
    have hdot : NoDot (layout next (lines.flatMap (· ++ [tight .newline])) ++ rest) := by
      cases lines with
      | nil => exact hend.noDot
      | cons line' lines =>
        refine noDot_layout next ?_ _
        simp
    obtain ⟨body, j, hbody, hmore⟩ := ih (fun l hl => hlines l (List.mem_cons_of_mem _ hl))
      (isSeparator_of_mem_newline (pos + (printed line).length)) next (i + seps.length + line.length)
    obtain ⟨p, tail, rfl⟩ := List.exists_cons_of_ne_nil hline.ne_nil
    have hp := hline.plain p List.mem_cons_self
    have hnewline : nl.isNewline = true := rfl
    obtain ⟨extent, hread⟩ := reads_line src hline hnewline hdot
      (isKeyword_token pos hp) pos (i + seps.length)
    refine ⟨.command ⟨extent, layout pos (p :: tail), none, [], none⟩ :: body, j,
      .cons ⟨extent, pos, rfl⟩ hbody, ?_⟩
    rw [hsplit]
    refine reads_statement src hseps ?_ ?_ hread hmore
    · rw [isSeparator_token]
      exact Piece.not_newline_of_isPlain hp
    · exact listStep_token hp (hline.first p rfl) (hstop pos p hp) _

end Line

/-! ### Blocks -/

/-- The statement is the declaration of a resource: its head, and a closed block with its lines. -/
def Resource.Spelled (r : Resource) (s : Statement) : Prop :=
  ∃ extent pos opener closer body,
    s = .command
      ⟨extent, layout pos r.head, some ⟨.doEnd, opener, some closer, [], body⟩, [], none⟩ ∧
    List.Forall₂ Spells r.lines body

theorem nested_symbolPieces (depth : Nat) (actions : List Word) (more : List Placed) :
    nested depth (symbolPieces actions ++ more) = nested depth more := by
  cases actions with
  | nil => rfl
  | cons a rest =>
    show nested depth (_ ++ more) = _
    induction rest with
    | nil => rfl
    | cons b rest ih => exact ih

theorem isPlain_of_mem_symbolPieces {actions : List Word} :
    ∀ p ∈ symbolPieces actions, p.piece.isPlain = true := by
  intro p hp
  cases actions with
  | nil => exact absurd hp List.not_mem_nil
  | cons a rest =>
    rcases List.mem_cons.1 hp with rfl | hp
    · rfl
    · obtain ⟨b, -, hp⟩ := List.mem_flatMap.1 hp
      rcases List.mem_cons.1 hp with rfl | hp
      · rfl
      · obtain rfl := List.mem_singleton.1 hp
        rfl

theorem isPlain_word (w : Word) : (Piece.word w.text).isPlain = true := by
  show (!keywords.contains w.text) = true
  rw [w.notKeyword]
  rfl

theorem Resource.isLine_of_mem_lines (r : Resource) : ∀ line ∈ r.lines, IsLine line := by
  intro line hline
  rcases List.mem_append.1 hline with hline | hline
  · cases hr : r.actions with
    | nil =>
      rw [hr] at hline
      exact absurd hline List.not_mem_nil
    | cons a rest =>
      rw [hr] at hline
      obtain rfl := List.mem_singleton.1 hline
      refine ⟨?_, ?_, ?_, ⟨tight .closer, List.getLast?_concat, .inl rfl⟩⟩
      · intro p hp
        simp only [List.mem_append, List.mem_cons, List.not_mem_nil, or_false] at hp
        rcases hp with (((rfl | rfl) | hp) | rfl)
        · decide
        · rfl
        · exact isPlain_of_mem_symbolPieces p hp
        · rfl
      · rw [List.append_assoc]
        show nested 1 (symbolPieces (a :: rest) ++ [tight .closer]) = true
        rw [nested_symbolPieces]
        rfl
      · rintro p hp hcloser
        obtain rfl : tight (.word "action") = p := by simpa using hp
        exact absurd hcloser (by simp [tight])
  · obtain ⟨⟨w, value⟩, -, rfl⟩ := List.mem_map.1 hline
    refine ⟨?_, rfl, ?_, ⟨loose (.string value), by simp [propertyLine], .inr ⟨value, rfl⟩⟩⟩
    · intro p hp
      simp only [propertyLine, List.mem_cons, List.not_mem_nil, or_false] at hp
      rcases hp with rfl | rfl
      · exact isPlain_word w
      · rfl
    · rintro p hp hcloser
      obtain rfl : tight (.word w.text) = p := by simpa [propertyLine] using hp
      exact absurd hcloser (by simp [tight])

section Block

variable (src : TokenSource) {rest : List Token}

theorem reads_block (opener : Token) {nl e : Token} {tokens : List Token} (hnl : nl.isNewline = true)
    (he : e.isKeyword ["end"] = true) {i j : Nat} {body : List Statement}
    (hbody : Reads (fun fuel => parseStatements src fuel BlockKind.doEnd.closes
      ⟨i + 1, nl :: tokens⟩) ⟨body, ⟨j, e :: rest⟩, []⟩) :
    Reads (fun fuel => parseBlock src fuel opener .doEnd ⟨i, opener :: nl :: tokens⟩)
      ⟨⟨.doEnd, opener, some e, [], body⟩, ⟨j + 1, rest⟩, []⟩ := by
  have hparams : (⟨i, opener :: nl :: tokens⟩ : Cursor).next.params = ([], ⟨i + 1, nl :: tokens⟩) := by
    simp [Cursor.params, Cursor.next, Cursor.advance, Token.not_isPunct_of_isNewline hnl]
  have hclose : closeBody src BlockKind.doEnd.closes opener BlockKind.doEnd.fault
      ⟨body, ⟨j, e :: rest⟩, []⟩ = ⟨body, some e, ⟨j + 1, rest⟩, []⟩ := by
    have hfilter : (some e).filter BlockKind.doEnd.closes = some e := by
      rw [Option.filter_some, if_pos (show BlockKind.doEnd.closes e = true from he)]
    simp [closeBody, hfilter, Cursor.next, Cursor.advance]
  refine Reads.succ ?_
  simp only [parseBlock_succ, hparams]
  refine hbody.bind (fun _ p =>
    let b := closeBody src BlockKind.doEnd.closes opener BlockKind.doEnd.fault p
    (⟨⟨.doEnd, opener, b.closer, [], b.body⟩, b.cursor, b.problems⟩ : Parsed Block)) ?_
  rw [hclose]
  exact Reads.const _

theorem step_do {d : CommandDraft} (hopeners : d.openers = []) (pos : Nat) (tokens : List Token) :
    d.step ((loose (.word "do")).token pos :: tokens) =
      .block ((loose (.word "do")).token pos) .doEnd := by
  have hkeyword := isKeyword_word pos (w := "do") (by decide) true
  have hends : d.endsBefore ((loose (.word "do")).token pos) = false := by
    unfold CommandDraft.endsBefore
    rw [loose, hkeyword, isCloser_token]
    simp [hopeners]
    decide
  have hblock : d.blockKind? ((loose (.word "do")).token pos) = some .doEnd := by
    unfold CommandDraft.blockKind?
    rw [loose, hkeyword]
    rfl
  have hsep : ((loose (.word "do")).token pos).isSeparator = false := isSeparator_token pos _
  simp [CommandDraft.step, hsep, hends, hblock]

/-- A head, a block and a newline are read as a command. -/
theorem reads_owner {line : List Placed} (h : IsLine line) {nl : Token} (hnl : nl.isNewline = true)
    (hrest : NoDot rest) {t : Token} (ht : ∀ words, t.isKeyword words = false) {block : Block}
    (hblock : block.closer.isSome = true) {at' pos i j : Nat} {tokens : List Token}
    (hread : Reads (fun fuel => parseBlock src fuel ((loose (.word "do")).token at') .doEnd
      ⟨i + line.length, (loose (.word "do")).token at' :: tokens⟩) ⟨block, ⟨j, nl :: rest⟩, []⟩) :
    ∃ extent, Reads (fun fuel => parseStatement src fuel t
        ⟨i, layout pos line ++ (loose (.word "do")).token at' :: tokens⟩)
      ⟨.command ⟨extent, layout pos line, some block, [], none⟩, ⟨j, nl :: rest⟩, []⟩ := by
  obtain ⟨hopeners, hreads⟩ := reads_run h.plain (d := .empty) h.nested pos i
  let d := pushRun .empty (layout pos line)
  have hhead : d.head = (layout pos line).reverse :=
    (head_pushRun .empty (layout pos line)).trans (List.append_nil _)
  have hadd : d.addBlock block = { d with block := some block } := by
    have hnone : d.block = none := (pushRun_rest .empty (layout pos line)).1
    simp [CommandDraft.addBlock, show d.openers = [] from hopeners, hnone]
  have hdone := reads_finish src h hnl hrest (d := { d with block := some block }) hopeners
    hhead t i j
  have hbuild : ({ d with block := some block } : CommandDraft).build t i =
      ⟨⟨t.start, ({ d with block := some block } : CommandDraft).stop t, i⟩, layout pos line,
        some block, [], none⟩ := by
    obtain ⟨-, hinner, hmodifier⟩ := pushRun_rest .empty (layout pos line)
    unfold CommandDraft.build
    simp [hhead, show d.innerBlocks = [] from hinner, show d.modifier = none from hmodifier]
  rw [hbuild] at hdone
  refine ⟨⟨t.start, ({ d with block := some block } : CommandDraft).stop t, i⟩,
    reads_command src ht (hreads (Reads.succ ?_))⟩
  simp only [parseCommand_succ, step_do hopeners]
  refine hread.bind (parseAfterBlock src · t i d) ?_
  obtain ⟨closer, hcloser⟩ := Option.isSome_iff_exists.1 hblock
  simp only [parseAfterBlock, hcloser, hadd]
  exact hdone.map (Parsed.after [])

/-- A resource is read as a command with a block. -/
theorem Resource.reads (r : Resource) (hrest : NoDot rest) (pos i : Nat) :
    ∃ s j nl, nl.isNewline = true ∧ r.Spelled s ∧
      Reads (fun fuel => parseStatement src fuel ((tight (.word r.type.text)).token pos)
        ⟨i, layout pos r.pieces ++ rest⟩) ⟨s, ⟨j, nl :: rest⟩, []⟩ := by
  have hline : IsLine r.head := by
    refine ⟨?_, rfl, ?_, ⟨loose (.string r.name), rfl, .inr ⟨r.name, rfl⟩⟩⟩
    · intro p hp
      simp only [Resource.head, List.mem_cons, List.not_mem_nil, or_false] at hp
      rcases hp with rfl | rfl
      · exact isPlain_word r.type
      · rfl
    · rintro p hp hcloser
      obtain rfl : tight (.word r.type.text) = p := by simpa [Resource.head] using hp
      exact absurd hcloser (by simp [tight])
  -- the places at which the head, the opener of the block and its body end
  let body := r.lines.flatMap (· ++ [tight .newline])
  let p₁ := pos + (printed r.head).length
  let p₂ := pos + (printed (r.head ++ [loose (.word "do"), tight .newline])).length
  let p₃ := pos + (printed (r.head ++ [loose (.word "do"), tight .newline] ++ body)).length
  let e := (tight (.word "end")).token p₃
  let nl := (tight .newline).token (p₃ + 3)
  let nl₁ := (tight .newline).token (p₁ + 3)
  have hsplit : layout pos r.pieces ++ rest =
      layout pos r.head ++ (loose (.word "do")).token p₁ :: nl₁ ::
        (layout p₂ body ++ e :: nl :: rest) := by
    unfold Resource.pieces
    rw [layout_append, layout_append, layout_append]
    simp only [List.append_assoc]
    rfl
  have hend : Ends BlockKind.doEnd.closes (e :: nl :: rest) := by
    have hkeyword := isKeyword_word p₃ (w := "end") (by decide) false
    refine ⟨isSeparator_token p₃ _, ?_, isPunct_token_eq_false p₃ _ (by decide)⟩
    have hcloses : BlockKind.doEnd.closes e = true := hkeyword _
    simp [listStep, hcloses]
  have hnl : nl.isNewline = true := rfl
  have hnl₁ : nl₁.isNewline = true := rfl
  obtain ⟨statements, j, hspelled, hbody⟩ := reads_lines src r.isLine_of_mem_lines
    (fun pos p hp => isKeyword_token pos hp _) hend (isSeparator_of_mem_newline (p₁ + 3)) p₂
    (i + r.head.length + 1)
  have hblock := reads_block src ((loose (.word "do")).token p₁) hnl₁
    (isKeyword_word p₃ (w := "end") (by decide) false _) hbody
  obtain ⟨extent, hread⟩ := reads_owner src hline hnl hrest
    (isKeyword_token pos (p := tight (.word r.type.text)) (isPlain_word r.type)) rfl hblock
  refine ⟨_, j + 1, nl, rfl,
    ⟨extent, pos, (loose (.word "do")).token p₁, e, statements, rfl, hspelled⟩, ?_⟩
  rw [hsplit]
  exact hread

end Block

end Canonical

end Cookbook
