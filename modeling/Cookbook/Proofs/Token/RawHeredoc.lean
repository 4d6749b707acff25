import Cookbook.Proofs.Attribute.Lines
import Cookbook.Proofs.Canonical.Reading
import Cookbook.Proofs.Token.Resume
import Cookbook.Proofs.Token.Tiling

/-!
Heredocs whose bodies are taken as they are. A line opens some of them between other pieces; their
bodies follow the line, each up to a line that is its name, and the scan goes on after the last of
these. A body is kept unit by unit but for one thing: of two backslashes in a row one is left.

* `RawHeredoc` is a heredoc with its body, `LinePiece` a piece of a line that may open one;
* `LinePiece.scan_text` is the step of one piece, `LinePiece.scan_line` the run over a line and
  `LinePiece.fill_line` the run over the bodies;
* `OpeningLine` is a line whose pieces stand apart, `lex_openingLine` says what is read of it and its
  bodies.
-/

namespace Cookbook

open Written (Placed)

/-! ### Lines of a text -/

namespace Text

theorem EndsLine.tail {c : CodeUnit} {t : Text} (h : EndsLine (c :: t)) : EndsLine t := by
  cases t with
  | nil => exact .inl rfl
  | cons d t =>
    have hlast := h.resolve_left (List.cons_ne_nil _ _)
    rw [List.getLast?_cons_cons] at hlast
    exact .inr hlast

/-- A line that goes on after its first unit has its newline further on. -/
theorem EndsLine.exists_line {c : CodeUnit} {t : Text} (h : EndsLine (c :: t))
    (hc : c ≠ CodeUnit.ofChar '\n') : ∃ line more, lines t = line :: more := by
  refine List.exists_cons_of_ne_nil fun hnil => ?_
  have ht : t = [] := by
    rw [← flatten_lines t, hnil]
    rfl
  subst ht
  exact hc (Option.some.inj (h.resolve_left (List.cons_ne_nil _ _)))

/-- The lines of a text that ends its last one stand before the lines of what follows. -/
theorem EndsLine.lines_append {t : Text} (h : EndsLine t) (u : Text) :
    lines (t ++ u) = lines t ++ lines u := by
  induction t with
  | nil => rfl
  | cons c t ih =>
    by_cases hc : c = '\n'
    · rw [List.cons_append, lines, lines, if_pos hc, if_pos hc, ih h.tail, List.cons_append]
    · obtain ⟨line, more, hlines⟩ := h.exists_line hc
      rw [List.cons_append, lines, lines, if_neg hc, if_neg hc, ih h.tail, hlines]
      rfl

theorem EndsLine.getLast?_of_mem {t line : Text} (h : EndsLine t) (hline : line ∈ lines t) :
    line.getLast? = some ('\n' : CodeUnit) := by
  induction t generalizing line with
  | nil => exact absurd hline List.not_mem_nil
  | cons c t ih =>
    rw [lines] at hline
    by_cases hc : c = '\n'
    · rw [if_pos hc] at hline
      rcases List.mem_cons.1 hline with rfl | hmem
      · rw [hc]
        rfl
      · exact ih h.tail hmem
    · obtain ⟨first, more, hlines⟩ := h.exists_line hc
      rw [if_neg hc, hlines] at hline
      rw [hlines] at ih
      rcases List.mem_cons.1 hline with rfl | hmem
      · rw [List.getLast?_cons, ih h.tail List.mem_cons_self]
        rfl
      · exact ih h.tail (List.mem_cons_of_mem _ hmem)

/-- Units that end no line go before the newline that ends theirs. -/
theorem lines_newline {w : Text} (hw : ∀ c ∈ w, c ≠ CodeUnit.ofChar '\n') (u : Text) :
    lines (w ++ "\n" ++ u) = (w ++ "\n") :: lines u := by
  induction w with
  | nil => rfl
  | cons c w ih =>
    obtain ⟨hc, hw⟩ := List.forall_mem_cons.1 hw
    rw [List.cons_append, List.cons_append, lines, if_neg hc, ih hw]

/-- A text without a given end is the text itself, or the end had been there. -/
theorem eq_or_eq_append_of_dropTail? {t tail u : Text} (h : (dropTail? t tail).getD t = u) :
    t = u ∨ t = u ++ tail := by
  unfold dropTail? at h
  split at h
  · rename_i hsuffix
    obtain ⟨before, rfl⟩ := List.isSuffixOf_iff_suffix.1 hsuffix
    rw [Option.getD_some, List.length_append, Nat.add_sub_cancel, List.take_left] at h
    exact .inr (by rw [h])
  · exact .inl h

/-! ### Backslashes in a row -/

/-- The text with one backslash for every two that follow each other. -/
def foldSlashes : Text → Text
  | [] => []
  | [c] => [c]
  | c :: d :: rest =>
    if c = '\\' ∧ d = '\\' then c :: foldSlashes rest else c :: foldSlashes (d :: rest)

def slashes : Text := "\\\\"

theorem foldSlashes_cons_of_ne {c : CodeUnit} (hc : c ≠ CodeUnit.ofChar '\\') (rest : Text) :
    foldSlashes (c :: rest) = c :: foldSlashes rest := by
  cases rest with
  | nil => rfl
  | cons d rest => rw [foldSlashes, if_neg fun hboth => hc hboth.1]

theorem foldSlashes_pair (rest : Text) :
    foldSlashes (('\\' : CodeUnit) :: ('\\' : CodeUnit) :: rest) = ('\\' : CodeUnit) :: foldSlashes rest := by
  rw [foldSlashes, if_pos ⟨rfl, rfl⟩]

theorem foldSlashes_slash {d : CodeUnit} (hd : d ≠ CodeUnit.ofChar '\\') (rest : Text) :
    foldSlashes (('\\' : CodeUnit) :: d :: rest) = ('\\' : CodeUnit) :: d :: foldSlashes rest := by
  rw [foldSlashes, if_neg fun hboth => hd hboth.2, foldSlashes_cons_of_ne hd]

theorem length_foldSlashes_le (t : Text) : (foldSlashes t).length ≤ t.length := by
  induction t using foldSlashes.induct with
  | case1 => exact le_rfl
  | case2 c => exact le_rfl
  | case3 c d rest hboth ih =>
    rw [foldSlashes, if_pos hboth]
    simp only [List.length_cons]
    omega
  | case4 c d rest hboth ih =>
    rw [foldSlashes, if_neg hboth]
    simp only [List.length_cons] at ih ⊢
    omega

/-- A text is left as it is exactly when no two backslashes in it follow each other. -/
theorem foldSlashes_eq_self_iff (t : Text) : foldSlashes t = t ↔ ¬slashes <:+: t := by
  induction t using foldSlashes.induct with
  | case1 => exact iff_of_true rfl fun hpair => absurd hpair.length_le (by decide)
  | case2 c =>
    have hshort : ¬slashes.length ≤ 1 := by decide
    exact iff_of_true rfl fun hpair => hshort hpair.length_le
  | case3 c d rest hboth ih =>
    obtain ⟨rfl, rfl⟩ := hboth
    rw [foldSlashes_pair]
    constructor
    · intro hsame
      have hlength := congrArg List.length hsame
      have hle := length_foldSlashes_le rest
      simp only [List.length_cons] at hlength
      omega
    · intro hapart
      exact absurd ⟨[], rest, rfl⟩ hapart
  | case4 c d rest hboth ih =>
    have hstart : ¬slashes <+: c :: d :: rest := by
      rintro ⟨after, heq⟩
      injection heq with hc heq
      injection heq with hd heq
      exact hboth ⟨hc.symm, hd.symm⟩
    rw [foldSlashes, if_neg hboth, List.cons_inj_right, ih, List.infix_cons_iff (a := c)]
    exact ⟨fun hapart h => h.elim hstart hapart, fun hapart h => hapart (.inr h)⟩

end Text

/-- What is read of a body without interpolation: all of it, but one backslash for two in a row. -/
theorem Quoted.read_rawBody (pos : Nat) (t : Text) :
    (Quoted.read (.body false) pos 0 0 t).parts = StringPart.consText t.foldSlashes [] := by
  -- a backslash takes two units at once, so the induction is on the length
  induction hlength : t.length using Nat.strong_induction_on generalizing pos t with
  | _ n ih =>
    cases t with
    | nil => rfl
    | cons c rest =>
      have hlt : rest.length < n := by
        rw [← hlength]
        exact Nat.lt_succ_self _
      by_cases hc : c = CodeUnit.ofChar '\\'
      · subst hc
        cases rest with
        | nil => rfl
        | cons d rest =>
          have hrest := ih rest.length (Nat.lt_of_succ_lt hlt) (pos + 2) rest rfl
          rw [Quoted.read_escape]
          show StringPart.consText _ (Quoted.read _ _ _ _ rest).parts = _
          rw [hrest, StringPart.consText_consText]
          by_cases hd : d = CodeUnit.ofChar '\\'
          · rw [hd, Text.foldSlashes_pair]
            rfl
          · have hescape : (Quoting.body false).escape d = [CodeUnit.ofChar '\\', d] := by
              simp [Quoting.escape, Quoting.body, hd]
            rw [hescape, Text.foldSlashes_slash hd]
            rfl
      · have hrest := ih rest.length hlt (pos + 1) rest rfl
        rw [Quoted.read_unit _ pos 0 hc rfl]
        show StringPart.consText [c] (Quoted.read _ _ _ _ rest).parts = _
        rw [hrest, StringPart.consText_consText, Text.foldSlashes_cons_of_ne hc]
        rfl

/-! ### Raw heredocs -/

/-- A heredoc whose body is taken as it is: its name, and its body, none of whose lines is the name. -/
structure RawHeredoc where
  name : Text
  body : Text
  isName : name.isName = true
  endsLine : body.EndsLine
  isOpen : ∀ line ∈ body.lines, line ≠ name ++ "\n" ∧ line ≠ name ++ "\r\n"

namespace RawHeredoc

variable (h : RawHeredoc)

def mark : Text := "<<'" ++ h.name ++ "'"

def opener : Lexeme.HeredocOpener := ⟨h.name, false, false, false, h.mark.length⟩

/-- The body, and the line that ends it. -/
def filling : Text := h.body ++ (h.name ++ "\n")

def parts : List StringPart := StringPart.consText h.body.foldSlashes []

theorem exists_name : ∃ c more, h.name = c :: more ∧ c.isNameStart = true ∧
    ∀ d ∈ c :: more, CodeUnit.isNameUnit d = true := by
  have hname := h.isName
  cases hcases : h.name with
  | nil => exact absurd (hcases ▸ hname) (by decide)
  | cons c more =>
    rw [hcases, Text.isName, Bool.and_eq_true, List.all_eq_true] at hname
    obtain ⟨hfirst, hmore⟩ := hname
    refine ⟨c, more, rfl, hfirst, List.forall_mem_cons.2 ⟨?_, hmore⟩⟩
    rw [CodeUnit.isNameUnit, hfirst, Bool.true_or]

theorem name_ne {d : CodeUnit} (hd : d.isNameUnit = false) : ∀ c ∈ h.name, c ≠ d := by
  obtain ⟨c, more, hname, -, hunits⟩ := h.exists_name
  rw [hname]
  rintro c hc rfl
  exact absurd (hunits _ hc) (by rw [hd]; decide)

theorem heredoc?_mark (rest : Text) : Lexeme.heredoc? (h.mark ++ rest) = some h.opener := by
  obtain ⟨c, more, hname, hfirst, hunits⟩ := h.exists_name
  have htext : h.mark ++ rest = ('<' : CodeUnit) :: ('<' : CodeUnit) :: ('\x27' : CodeUnit) ::
      (h.name ++ ('\x27' : CodeUnit) :: rest) := by
    show _ :: _ :: _ :: (h.name ++ [('\x27' : CodeUnit)] ++ rest) = _
    rw [List.append_assoc]
    rfl
  have hhead : (h.name ++ ('\x27' : CodeUnit) :: rest).head?.any CodeUnit.isNameStart = true := by
    rw [hname]
    exact hfirst
  have hrun : Lexeme.run CodeUnit.isNameUnit (h.name ++ ('\x27' : CodeUnit) :: rest) = h.name.length :=
    Canonical.run_append_of_all (by rw [hname]; exact hunits) rfl
  have hmarked : (some (CodeUnit.ofChar '\x27')).filter
      (fun c : CodeUnit => c == CodeUnit.ofChar '~' || c == CodeUnit.ofChar '-') = none := rfl
  have hquote : (some (CodeUnit.ofChar '\x27')).filter (fun c : CodeUnit => c == CodeUnit.ofChar '\x22' ||
      c == CodeUnit.ofChar '\x27' || c == CodeUnit.ofChar '\x60') = some (CodeUnit.ofChar '\x27') := rfl
  have hpositive : h.name.length ≠ 0 := by
    rw [hname]
    exact Nat.succ_ne_zero _
  have hlength : 2 + (0 + 2) + h.name.length = h.mark.length := by
    show _ = List.length (_ :: _ :: _ :: (h.name ++ [('\x27' : CodeUnit)]))
    simp only [List.length_cons, List.length_append, List.length_nil]
    omega
  rw [htext]
  unfold Lexeme.heredoc?
  simp only [List.head?_cons, hmarked, hquote, Option.isSome_none, Option.isSome_some,
    Option.isNone_some, Bool.false_eq_true, if_false, if_true, List.tail_cons, hhead, hrun, hpositive,
    List.take_left, List.drop_left, ne_eq, not_true_eq_false, and_false, false_and, and_self, hlength]
  rfl

/-! ### Bodies -/

def awaited (pos index : Nat) : PendingHeredoc := ⟨h.opener, pos, index⟩

theorem isTerminator_name (pos index : Nat) : (h.awaited pos index).isTerminator (h.name ++ "\n") = true := by
  have hnewline : (Text.dropTail? (h.name ++ "\n") "\n").getD (h.name ++ "\n") = h.name := by
    unfold Text.dropTail?
    rw [if_pos (List.isSuffixOf_iff_suffix.2 (List.suffix_append _ _)), Option.getD_some,
      List.length_append, Nat.add_sub_cancel, List.take_left]
  have hreturn : (Text.dropTail? h.name "\r").getD h.name = h.name := by
    unfold Text.dropTail?
    rw [if_neg, Option.getD_none]
    intro hsuffix
    have hmem := (List.isSuffixOf_iff_suffix.1 hsuffix).subset List.mem_cons_self
    exact h.name_ne (by decide) _ hmem rfl
  unfold PendingHeredoc.isTerminator
  rw [hnewline]
  dsimp only
  rw [hreturn]
  exact beq_self_eq_true _

theorem not_isTerminator_of_mem {line : Text} (hline : line ∈ h.body.lines) (pos index : Nat) :
    (h.awaited pos index).isTerminator line = false := by
  obtain ⟨hnewline, hreturn⟩ := h.isOpen line hline
  have hlast := h.endsLine.getLast?_of_mem hline
  rw [Bool.eq_false_iff]
  intro hends
  have hname := beq_iff_eq.1 (show ((_ : Text) == h.name) = true from hends)
  rcases Text.eq_or_eq_append_of_dropTail? hname with hshort | hshort <;>
    rcases Text.eq_or_eq_append_of_dropTail? hshort with rfl | rfl
  · exact h.name_ne (by decide) _ (List.mem_of_getLast? hlast) rfl
  · exact hnewline rfl
  · exact absurd hlast (by simp [Text.ofString, Text.ofChar, CodeUnit.ofChar])
  · exact hreturn (by rw [List.append_assoc]; rfl)

/-- The body of a heredoc is taken up to its name, with whatever follows. -/
theorem body_filling (pos index : Nat) (rest : Text) :
    (h.awaited pos index).body (Text.lines (h.filling ++ rest)) = (h.body, h.filling.length, true) := by
  have hlines : Text.lines (h.filling ++ rest) = h.body.lines ++ (h.name ++ "\n") :: rest.lines := by
    unfold filling
    rw [List.append_assoc, h.endsLine.lines_append, Text.lines_newline (h.name_ne (by decide))]
  have hopen : ∀ line ∈ h.body.lines, (h.awaited pos index).isTerminator line = false := fun line hline =>
    h.not_isTerminator_of_mem hline pos index
  have hends := h.isTerminator_name pos index
  have hfind : (h.body.lines ++ (h.name ++ "\n") :: rest.lines).find? (h.awaited pos index).isTerminator =
      some (h.name ++ "\n") := by
    rw [List.find?_append, List.find?_eq_none.2 (by simpa using hopen), Option.none_or, List.find?_cons,
      hends]
  unfold PendingHeredoc.body
  rw [hlines, hfind, List.takeWhile_append_of_pos fun line hline => by simp [hopen line hline],
    List.takeWhile_cons_of_neg (by simp [hends]), List.append_nil, Text.flatten_lines]
  simp [filling]

/-- A body is read as it is, but for one backslash in place of two in a row. -/
theorem parts_awaited (pos index start : Nat) : (h.awaited pos index).parts start h.body = h.parts :=
  Quoted.read_rawBody start h.body

end RawHeredoc

/-! ### Lines -/

/-- A piece of a line that opens heredocs: one opener, or anything else, with or without a blank. -/
inductive LinePiece where
  | plain (p : Placed)
  | opener (spaced : Bool) (h : RawHeredoc)

namespace LinePiece

def text : LinePiece → Text
  | plain p => p.text
  | opener spaced h => PlacedPiece.blank spaced ++ h.mark

def heredoc? : LinePiece → Option RawHeredoc
  | plain _ => none
  | opener _ h => some h

/-- The token of a piece at an offset, where a heredoc has the given parts. -/
def token (parts : RawHeredoc → List StringPart) (pos : Nat) : LinePiece → Token
  | plain p => p.token pos
  | opener spaced h =>
    let start := pos + (PlacedPiece.blank spaced).length
    ⟨.string .heredoc (parts h), start, start + h.mark.length, h.mark, spaced⟩

/-- What a piece at an offset awaits, when its token has the given index. -/
def awaits (pos index : Nat) : LinePiece → List PendingHeredoc
  | plain _ => []
  | opener spaced h => [h.awaited (pos + (PlacedPiece.blank spaced).length) index]

/-- Whether the piece is a value, after which `<<` without a blank shifts. -/
def isValue : LinePiece → Bool
  | plain ⟨_, .mark _⟩ => false
  | _ => true

/-- Whether the piece is read as it is after a value or another piece, and before a text. -/
def Fits (afterValue : Bool) : LinePiece → Text → Prop
  | plain p, rest => p.piece.Fits rest
  | opener spaced _, _ => afterValue = true → spaced = true

def lineText (pieces : List LinePiece) : Text := pieces.flatMap text

def lineTokens (parts : RawHeredoc → List StringPart) : (pos : Nat) → List LinePiece → List Token
  | _, [] => []
  | pos, p :: more => p.token parts pos :: lineTokens parts (pos + p.text.length) more

/-- What a line at an offset awaits, when its first token has the given index. -/
def lineAwaits : (pos index : Nat) → List LinePiece → List PendingHeredoc
  | _, _, [] => []
  | pos, index, p :: more => p.awaits pos index ++ lineAwaits (pos + p.text.length) (index + 1) more

/-- The bodies that follow a line, each with the line that ends it. -/
def bodies (pieces : List LinePiece) : Text := (pieces.filterMap heredoc?).flatMap RawHeredoc.filling

/-- Whether every piece is read as it is, up to a text after the last. -/
def AllFit : (afterValue : Bool) → List LinePiece → Text → Prop
  | _, [], _ => True
  | afterValue, p :: more, rest => p.Fits afterValue (lineText more ++ rest) ∧ AllFit p.isValue more rest

/-- The scan is within a line, after a value or another piece. -/
structure Within (afterValue : Bool) (s : LexState) : Prop where
  spaced : s.spaced = false
  afterDot : s.afterDot = false
  isShift : afterValue = false → s.isShift = false

/-! ### Along a line -/

section Scan

variable {afterValue : Bool} {s : LexState} (pos : Nat)

theorem within_put {piece : Written.Piece} {rest : Text} (spaced : Bool) (hfit : piece.Fits rest) :
    Within (isValue (.plain ⟨spaced, piece⟩)) (Written.put s pos piece) := by
  refine ⟨rfl, Written.afterDot_put s pos hfit, fun hvalue => ?_⟩
  unfold LexState.isShift Written.put
  rw [Array.back?_push]
  cases piece with
  | mark t => rfl
  | string _ | symbol _ | template _ | word _ | number _ => exact absurd hvalue (by simp [isValue])

def putOpener (s : LexState) (pos : Nat) (h : RawHeredoc) : LexState :=
  { s with
    tokens := s.tokens.push ⟨.string .heredoc [], pos, pos + h.mark.length, h.mark, s.spaced⟩
    pending := s.pending ++ [h.awaited pos s.tokens.size]
    spaced := false
    atLineStart := false }

theorem scan_mark (h : RawHeredoc) (hshift : s.isShift = false) (rest : Text) :
    LexState.scan pos 0 s (h.mark ++ rest) =
      LexState.scan (pos + h.mark.length) 0 (putOpener s pos h) rest := by
  obtain ⟨taken, htext⟩ : ∃ taken, h.mark = ('<' : CodeUnit) :: taken := ⟨_, rfl⟩
  have hopener : ({ s with atLineStart := false } : LexState).opener? '<' (taken ++ rest) = some h.opener := by
    have hread := h.heredoc?_mark rest
    rw [htext] at hread
    have hnone : ({ s with atLineStart := false } : LexState).isShift = false := hshift
    unfold LexState.opener?
    rw [hnone]
    exact hread
  have hstep : s.step pos '<' (taken ++ rest) = (putOpener s pos h, taken.length) := by
    rw [Canonical.step_eq_lexeme s pos (by decide) (Canonical.isEndMark_of_ne (by decide)),
      LexState.lexeme_eq, if_neg (by decide), hopener]
    have htake : (('<' : CodeUnit) :: (taken ++ rest)).take h.mark.length = h.mark := by
      rw [htext, ← List.cons_append, List.take_left]
    show LexState.push _ pos _ ⟨.string .heredoc [], h.mark.length⟩ = _
    unfold LexState.push putOpener
    simp only [htake]
    rw [htext]
    rfl
  rw [htext, List.cons_append, Canonical.scan_step taken hstep]
  rfl

/-- The blank before a piece changes no token, and an opener after it is no shift. -/
theorem scan_blank (hs : Within afterValue s) (spaced : Bool) (rest : Text) :
    ∃ s₁ : LexState, s₁.tokens = s.tokens ∧ s₁.problems = s.problems ∧ s₁.pending = s.pending ∧
      s₁.spaced = spaced ∧ s₁.afterDot = false ∧
      ((afterValue = true → spaced = true) → s₁.isShift = false) ∧
      LexState.scan pos 0 s (PlacedPiece.blank spaced ++ rest) =
        LexState.scan (pos + (PlacedPiece.blank spaced).length) 0 s₁ rest := by
  cases spaced with
  | false =>
    refine ⟨s, rfl, rfl, rfl, hs.spaced, hs.afterDot, fun hnone => hs.isShift ?_, rfl⟩
    cases afterValue with
    | false => rfl
    | true => exact absurd (hnone rfl) (by decide)
  | true =>
    refine ⟨{ s with spaced := true, atLineStart := false }, rfl, rfl, rfl, rfl, hs.afterDot,
      fun _ => ?_, Canonical.scan_step [] (Canonical.step_space s pos rest)⟩
    unfold LexState.isShift
    cases s.tokens.back? with
    | none => rfl
    | some t => simp

theorem scan_text (hs : Within afterValue s) {p : LinePiece} {rest : Text} (hfit : p.Fits afterValue rest) :
    ∃ s', Within p.isValue s' ∧ s'.tokens = s.tokens.push (p.token (fun _ => []) pos) ∧
      s'.problems = s.problems ∧ s'.pending = s.pending ++ p.awaits pos s.tokens.size ∧
      LexState.scan pos 0 s (p.text ++ rest) = LexState.scan (pos + p.text.length) 0 s' rest := by
  cases p with
  | plain p =>
    obtain ⟨spaced, piece⟩ := p
    obtain ⟨s₁, htokens, hproblems, hpending, hspaced, hdot, -, hscan⟩ :=
      scan_blank pos hs spaced (piece.text ++ rest)
    let start := pos + (PlacedPiece.blank spaced).length
    refine ⟨Written.put s₁ start piece, within_put start spaced hfit, ?_, hproblems, ?_, ?_⟩
    · unfold Written.put
      rw [htokens, hspaced]
      rfl
    · exact hpending.trans (List.append_nil _).symm
    · rw [text, PlacedPiece.text, List.append_assoc, List.length_append, ← Nat.add_assoc]
      exact hscan.trans (Written.scan_piece hdot hfit start)
  | opener spaced h =>
    obtain ⟨s₁, htokens, hproblems, hpending, hspaced, hdot, hshift, hscan⟩ :=
      scan_blank pos hs spaced (h.mark ++ rest)
    let start := pos + (PlacedPiece.blank spaced).length
    refine ⟨putOpener s₁ start h, ⟨rfl, ?_, fun hvalue => absurd hvalue (by simp [isValue])⟩, ?_, hproblems, ?_, ?_⟩
    · unfold LexState.afterDot putOpener
      rw [Array.back?_push]
      rfl
    · unfold putOpener
      rw [htokens, hspaced]
      rfl
    · unfold putOpener
      rw [htokens, hpending]
      rfl
    · rw [text, List.append_assoc, List.length_append, ← Nat.add_assoc]
      exact hscan.trans (scan_mark start h (hshift hfit) rest)

/-- The scan of a line: its tokens, where the heredocs are still to be filled in. -/
theorem scan_line (hs : Within afterValue s) {pieces : List LinePiece} {rest : Text}
    (hfit : AllFit afterValue pieces rest) :
    ∃ s' : LexState, s'.tokens.toList = s.tokens.toList ++ lineTokens (fun _ => []) pos pieces ∧
      s'.problems = s.problems ∧ s'.pending = s.pending ++ lineAwaits pos s.tokens.size pieces ∧
      LexState.scan pos 0 s (lineText pieces ++ rest) =
        LexState.scan (pos + (lineText pieces).length) 0 s' rest := by
  induction pieces generalizing afterValue s pos with
  | nil => exact ⟨s, (List.append_nil _).symm, rfl, (List.append_nil _).symm, rfl⟩
  | cons p more ih =>
    obtain ⟨hpiece, hmore⟩ := hfit
    obtain ⟨s₁, hs₁, htokens₁, hproblems₁, hpending₁, hscan₁⟩ := scan_text pos hs hpiece
    obtain ⟨s₂, htokens₂, hproblems₂, hpending₂, hscan₂⟩ := ih (pos + p.text.length) hs₁ hmore
    refine ⟨s₂, ?_, hproblems₂.trans hproblems₁, ?_, ?_⟩
    · rw [htokens₂, htokens₁, Array.toList_push, List.append_assoc]
      rfl
    · rw [hpending₂, hpending₁, htokens₁, Array.size_push, List.append_assoc]
      rfl
    · have htext : lineText (p :: more) = p.text ++ lineText more := List.flatMap_cons
      rw [htext, List.append_assoc, hscan₁, hscan₂, List.length_append, Nat.add_assoc]

end Scan

/-! ### Over the bodies -/

theorem modify_append_cons (before : List Token) (t : Token) (after : List Token) (f : Token → Token) :
    (before ++ t :: after).toArray.modify before.length f = (before ++ f t :: after).toArray := by
  have hmodify := LexState.modify_behind before.toArray (t :: after).toArray 0 f
  simpa using hmodify

theorem bodies_opener (spaced : Bool) (h : RawHeredoc) (more : List LinePiece) :
    bodies (opener spaced h :: more) = h.filling ++ bodies more := by
  unfold bodies
  rw [List.filterMap_cons, heredoc?, List.flatMap_cons]

theorem fill_line (pieces : List LinePiece) (before after : List Token) (s : LexState) (pos place : Nat)
    (rest : Text) (htokens : s.tokens = (before ++ (lineTokens (fun _ => []) pos pieces ++ after)).toArray) :
    s.fill place (bodies pieces ++ rest) (lineAwaits pos before.length pieces) =
      ({ s with
          tokens := (before ++ (lineTokens RawHeredoc.parts pos pieces ++ after)).toArray
          pending := [] }, (bodies pieces).length) := by
  induction pieces generalizing before s pos place with
  | nil =>
    rw [lineAwaits, LexState.fill, htokens]
    rfl
  | cons p more ih =>
    cases p with
    | plain p =>
      have hmore := ih (before ++ [p.token pos]) s (pos + p.text.length) place
        (by rw [htokens, List.append_assoc]; rfl)
      rw [List.length_append, List.append_assoc] at hmore
      exact hmore
    | opener spaced h =>
      let start := pos + (PlacedPiece.blank spaced).length
      let filled : Token := (opener spaced h).token RawHeredoc.parts pos
      have hbody := h.body_filling start before.length (bodies more ++ rest)
      -- the tokens before the opener are not touched, so its body is put in at its number
      have hfilled : s.fillOne place (h.filling ++ (bodies more ++ rest)) (h.awaited start before.length) =
          { s with
            tokens := (before ++ filled ::
              (lineTokens (fun _ => []) (pos + (opener spaced h).text.length) more ++ after)).toArray } := by
        unfold LexState.fillOne
        rw [hbody, h.parts_awaited, htokens]
        exact congrArg (fun tokens => { s with tokens := tokens }) (modify_append_cons before _ _ _)
      have hmore := ih (before ++ [filled])
        (s.fillOne place (h.filling ++ (bodies more ++ rest)) (h.awaited start before.length))
        (pos + (opener spaced h).text.length) (place + h.filling.length)
        (by rw [hfilled, List.append_assoc]; rfl)
      rw [hfilled, List.length_append, List.append_assoc] at hmore
      show s.fill place _ (h.awaited start before.length :: lineAwaits _ _ more) = _
      rw [bodies_opener, List.append_assoc, LexState.fill_cons, hbody, hfilled]
      dsimp only
      rw [List.drop_left, List.length_append]
      exact congrArg (fun r : LexState × Nat => (r.1, h.filling.length + r.2)) hmore

/-- The heredocs among the tokens of a line have the bodies after it, with one backslash in place of two
in a row. -/
theorem plain?_lineTokens (pieces : List LinePiece) (pos : Nat) :
    ((lineTokens RawHeredoc.parts pos pieces).filter Token.isHeredoc).map Token.plain? =
      (pieces.filterMap heredoc?).map fun h => some h.body.foldSlashes := by
  induction pieces generalizing pos with
  | nil => rfl
  | cons p more ih =>
    rw [lineTokens, List.filter_cons, List.filterMap_cons]
    cases p with
    | plain p =>
      have hother : (token RawHeredoc.parts pos (plain p)).isHeredoc = false := by
        obtain ⟨spaced, piece⟩ := p
        cases piece <;> rfl
      rw [if_neg (by simp [hother])]
      exact ih _
    | opener spaced h =>
      have hbody : (token RawHeredoc.parts pos (opener spaced h)).plain? = some h.body.foldSlashes :=
        Canonical.plain?_consText _
      rw [if_pos (by rfl), List.map_cons, hbody, ih]
      rfl

end LinePiece

/-- A line that opens raw heredocs between other pieces, each of which is read as it is. -/
structure OpeningLine where
  pieces : List LinePiece
  fit : ∀ rest : Text, LinePiece.AllFit false pieces (('\n' : CodeUnit) :: rest)

namespace OpeningLine

variable (line : OpeningLine)

def text : Text := LinePiece.lineText line.pieces

def heredocs : List RawHeredoc := line.pieces.filterMap LinePiece.heredoc?

/-- The bodies after the line, each with the line that ends it. -/
def bodies : Text := line.heredocs.flatMap RawHeredoc.filling

def tokens (pos : Nat) : List Token := LinePiece.lineTokens RawHeredoc.parts pos line.pieces

def print : Text := line.text ++ ('\n' : CodeUnit) :: line.bodies

/-! ### Lists of heredocs -/

/-- The pieces of some openers after a first one, each after a comma and a blank. -/
def moreOpeners (hs : List RawHeredoc) : List LinePiece :=
  hs.flatMap fun h => [.plain ⟨false, .mark ","⟩, .opener true h]

/-- The line that opens the given heredocs and has nothing else but commas between them. -/
def ofHeredocs (hs : List RawHeredoc) : OpeningLine where
  pieces := match hs with
    | [] => []
    | h :: more => .opener false h :: moreOpeners more
  fit := by
    intro rest
    have hmore : ∀ (hs : List RawHeredoc) (afterValue : Bool),
        LinePiece.AllFit afterValue (moreOpeners hs) (('\n' : CodeUnit) :: rest) := by
      intro hs
      induction hs with
      | nil => exact fun _ => trivial
      | cons h hs ih => exact fun _ => ⟨.inl ⟨',', by decide, rfl⟩, fun _ => rfl, ih _⟩
    cases hs with
    | nil => trivial
    | cons h more => exact ⟨fun hvalue => absurd hvalue (by decide), hmore more _⟩

/-- Every list of heredocs is opened by a line. -/
theorem heredocs_ofHeredocs (hs : List RawHeredoc) : (ofHeredocs hs).heredocs = hs := by
  have hmore : ∀ hs : List RawHeredoc, (moreOpeners hs).filterMap LinePiece.heredoc? = hs := by
    intro hs
    induction hs with
    | nil => rfl
    | cons h hs ih => exact congrArg (h :: ·) ih
  cases hs with
  | nil => rfl
  | cons h more => exact congrArg (h :: ·) (hmore more)

/-- The line is the openers with a comma and a blank between them. -/
theorem text_ofHeredocs (hs : List RawHeredoc) :
    (ofHeredocs hs).text = Text.join ", " (hs.map RawHeredoc.mark) := by
  cases hs with
  | nil => rfl
  | cons h more =>
    show h.mark ++ LinePiece.lineText (moreOpeners more) = _
    induction more generalizing h with
    | nil => simp [Text.join, moreOpeners, LinePiece.lineText]
    | cons next more ih =>
      show h.mark ++ (", " ++ (next.mark ++ LinePiece.lineText (moreOpeners more))) = _
      rw [ih]
      simp [Text.join]

end OpeningLine

/-! ### The scan of a line and its bodies -/

/-- The scan of a line and of the bodies after it is at the end of a line, with nothing awaited. -/
theorem OpeningLine.scan_print (line : OpeningLine) (rest : Text) (base : Nat) :
    ∃ s : LexState, s.tokens.toList = line.tokens base ++ [newlineAt (base + line.text.length)] ∧
      s.problems = #[] ∧ s.pending = [] ∧ s.spaced = false ∧ s.atLineStart = true ∧
      LexState.scan base 0 .start (line.print ++ rest) =
        LexState.scan (base + line.print.length) 0 s rest := by
  obtain ⟨s₁, htokens, hproblems, hpending, hscan⟩ :=
    LinePiece.scan_line base (s := .start) ⟨rfl, rfl, fun _ => rfl⟩ (line.fit (line.bodies ++ rest))
  let stop := base + line.text.length
  let s₂ : LexState :=
    { s₁ with tokens := s₁.tokens.push (newlineAt stop), spaced := false, atLineStart := true }
  have hopen : s₂.tokens =
      ([] ++ (LinePiece.lineTokens (fun _ => []) base line.pieces ++ [newlineAt stop])).toArray := by
    apply Array.ext'
    rw [Array.toList_push, htokens]
    rfl
  let s₃ : LexState := { s₂ with tokens := (line.tokens base ++ [newlineAt stop]).toArray, pending := [] }
  have hstep : s₁.step stop '\n' (line.bodies ++ rest) = (s₃, line.bodies.length) := by
    rw [Canonical.step_lineEnd]
    show s₂.fill (stop + 1) (line.bodies ++ rest) s₁.pending = _
    rw [hpending]
    exact LinePiece.fill_line line.pieces [] [newlineAt stop] s₂ base (stop + 1) rest hopen
  refine ⟨s₃, rfl, hproblems, rfl, rfl, rfl, ?_⟩
  have htext : line.print ++ rest = line.text ++ ('\n' : CodeUnit) :: (line.bodies ++ rest) := by
    unfold print
    rw [List.append_assoc, List.cons_append]
  have hlength : base + line.print.length = stop + (line.bodies.length + 1) := by
    unfold print
    rw [List.length_append, List.length_cons]
    omega
  rw [htext, hlength]
  exact hscan.trans (Canonical.scan_step line.bodies hstep)

/-- What is read of a line, of the bodies after it and of all that follows. -/
theorem lex_openingLine (line : OpeningLine) (rest : Text) (base : Nat) :
    lex (line.print ++ rest) base =
      let more := lex rest (base + line.print.length)
      ⟨line.tokens base ++ newlineAt (base + line.text.length) :: more.tokens, more.problems⟩ := by
  obtain ⟨s, htokens, hproblems, hpending, hspaced, hstart, hscan⟩ := line.scan_print rest base
  have hline : s.EndsLine := by
    intro t ht
    rw [← Array.getLast?_toList, htokens, List.getLast?_append] at ht
    obtain rfl := Option.some.inj ht
    rfl
  have hresumes := LexState.scan_resumes hline (base + line.print.length) hpending hspaced hstart rest
  unfold lex
  rw [hscan, hresumes]
  simp only [LexState.behind, Array.toList_append, htokens, hproblems, List.append_assoc]
  simp

/-- A line that opens raw heredocs, with the bodies after it: the heredocs are tokens of the line, in
order, nothing is wrong with them, and the scan goes on after the last body as with a text of its own.
A body is read unit by unit, but two backslashes in a row are read as one; so all of them are what was
written exactly when no body has two backslashes in a row. -/
theorem lex_rawHeredocs (line : OpeningLine) (rest : Text) (base : Nat) :
    lex (line.print ++ rest) base =
        (let more := lex rest (base + line.print.length)
        ⟨line.tokens base ++ newlineAt (base + line.text.length) :: more.tokens, more.problems⟩) ∧
      (let read := ((line.tokens base).filter Token.isHeredoc).map Token.plain?
      read = (line.heredocs.map fun h => some h.body.foldSlashes) ∧
        (read = (line.heredocs.map fun h => some h.body) ↔
          ∀ h ∈ line.heredocs, ¬Text.slashes <:+: h.body)) := by
  have hread := LinePiece.plain?_lineTokens line.pieces base
  refine ⟨lex_openingLine line rest base, hread, ?_⟩
  show ((LinePiece.lineTokens _ base line.pieces).filter _).map _ = _ ↔ _
  rw [hread]
  refine List.map_inj_left.trans (forall₂_congr fun h _ => ?_)
  rw [Option.some_inj]
  exact h.body.foldSlashes_eq_self_iff

/-- A body with two backslashes in a row is not what is read of it. -/
theorem rawHeredoc_folds_backslashes :
    let h : RawHeredoc := ⟨"A", "a\\\\b\n", by decide, .inr rfl, by decide⟩
    let line := OpeningLine.ofHeredocs [h]
    line.print = "<<'A'\na\\\\b\nA\n" ∧ lex line.print 0 = ⟨line.tokens 0 ++ [newlineAt 5], []⟩ ∧
      ((line.tokens 0).filter Token.isHeredoc).map Token.plain? ≠ [some h.body] := by
  intro h line
  have hall := lex_rawHeredocs line [] 0
  rw [List.append_nil] at hall
  refine ⟨by decide, hall.1, fun hsame => ?_⟩
  exact hall.2.2.1 hsame h List.mem_cons_self ⟨"a", "b\n", rfl⟩

end Cookbook
