import Cookbook.Token.Lexer
import Mathlib.Tactic.Common

/-!
Texts read at another offset. No reader looks at the offset it is given other than to note it, so
the tokens of a text that starts further right are the same tokens further right.

* `Token.shift` moves a token, with the code inside it;
* `Quoted.read_add` and `LexState.scan_add` are the steps, `lex_add` the whole text.
-/

namespace Cookbook

/-! ### Moved tokens -/

def StringPart.shift (k : Nat) : StringPart → StringPart
  | .text value => .text value
  | .code source offset => .code source (offset + k)

def TokenContent.shift (k : Nat) : TokenContent → TokenContent
  | .name kind value => .name kind value
  | .string flavor parts => .string flavor (parts.map (StringPart.shift k))
  | .words items symbols => .words items symbols
  | .regex => .regex
  | .newline => .newline

def Token.shift (k : Nat) (t : Token) : Token :=
  { t with content := t.content.shift k, start := t.start + k, stop := t.stop + k }

def Problem.shift (k : Nat) (p : Problem) : Problem := { p with offset := p.offset + k }

def Lexed.shift (k : Nat) (l : Lexed) : Lexed :=
  ⟨l.tokens.map (Token.shift k), l.problems.map (Problem.shift k)⟩

namespace StringPart

variable (k : Nat)

@[simp] theorem shift_zero : StringPart.shift 0 = id := by
  funext part
  cases part <;> rfl

@[simp] theorem plain?_shift (parts : List StringPart) :
    plain? (parts.map (StringPart.shift k)) = plain? parts := by
  induction parts with
  | nil => rfl
  | cons part rest ih =>
    cases part with
    | text value => simp [StringPart.shift, plain?, ih]
    | code source offset => rfl

@[simp] theorem consText_shift (value : Text) (parts : List StringPart) :
    consText value (parts.map (StringPart.shift k)) =
      (consText value parts).map (StringPart.shift k) := by
  unfold consText
  split
  · rfl
  · cases parts with
    | nil => rfl
    | cons part rest => cases part <;> rfl

@[simp] theorem outline_shift (parts : List StringPart) :
    outline (parts.map (StringPart.shift k)) = outline parts := by
  induction parts with
  | nil => rfl
  | cons part rest ih =>
    simp only [outline, List.map_cons, List.flatMap_cons] at ih ⊢
    rw [ih]
    cases part <;> rfl

end StringPart

namespace Token

variable (k : Nat) (t : Token)

@[simp] theorem shift_zero : Token.shift 0 = id := by
  funext t
  obtain ⟨content, start, stop, text, spaceBefore⟩ := t
  cases content <;> simp [Token.shift, TokenContent.shift]

@[simp] theorem start_shift : (t.shift k).start = t.start + k := rfl

@[simp] theorem stop_shift : (t.shift k).stop = t.stop + k := rfl

@[simp] theorem text_shift : (t.shift k).text = t.text := rfl

@[simp] theorem spaceBefore_shift : (t.shift k).spaceBefore = t.spaceBefore := rfl

@[simp] theorem valueOf?_shift (kind : NameKind) : (t.shift k).valueOf? kind = t.valueOf? kind := by
  unfold valueOf? shift
  cases t.content <;> rfl

@[simp] theorem isKind_shift (kind : NameKind) : (t.shift k).isKind kind = t.isKind kind := by
  simp [isKind]

@[simp] theorem isOneOf_shift (kind : NameKind) (values : List Text) :
    (t.shift k).isOneOf kind values = t.isOneOf kind values := by
  unfold isOneOf shift
  cases t.content <;> rfl

@[simp] theorem isPunct_shift (values : List Text) : (t.shift k).isPunct values = t.isPunct values :=
  t.isOneOf_shift k _ _

@[simp] theorem isKeyword_shift (words : List Text) : (t.shift k).isKeyword words = t.isKeyword words :=
  t.isOneOf_shift k _ _

@[simp] theorem isIdent_shift (names : List Text) : (t.shift k).isIdent names = t.isIdent names :=
  t.isOneOf_shift k _ _

@[simp] theorem isNewline_shift : (t.shift k).isNewline = t.isNewline := by
  unfold isNewline shift
  cases t.content <;> rfl

@[simp] theorem isOpener_shift : (t.shift k).isOpener = t.isOpener := t.isPunct_shift k _

@[simp] theorem isCloser_shift : (t.shift k).isCloser = t.isCloser := t.isPunct_shift k _

@[simp] theorem isSeparator_shift : (t.shift k).isSeparator = t.isSeparator := by
  simp [isSeparator]

end Token

/-! ### Literals -/

namespace Quoted

variable (q : Quoting) (pos depth : Nat)

theorem read_escape (next : CodeUnit) (rest : Text) :
    read q pos depth 0 (('\\' : CodeUnit) :: next :: rest) =
      (read q (pos + 2) depth 0 rest).after 2 (q.escape next) := by
  rw [read.eq_def]
  simp only [if_true]

theorem read_code {c : CodeUnit} {rest : Text} {n : Nat} (hc : ¬c = ('\\' : CodeUnit))
    (h : q.codeAt? c rest = some n) :
    read q pos depth 0 (c :: rest) =
      let more := read q (pos + 1) depth (n + 2) rest
      ⟨.code (rest.tail.take n) (pos + 2) :: more.parts, more.length + 1, more.closed⟩ := by
  rw [read.eq_def]
  simp only [hc, if_false, h]

theorem read_unit {c : CodeUnit} {rest : Text} (hc : ¬c = ('\\' : CodeUnit))
    (h : q.codeAt? c rest = none) :
    read q pos depth 0 (c :: rest) =
      if q.closer.isSome ∧ q.opener ≠ q.closer ∧ some c = q.opener then
        (read q (pos + 1) (depth + 1) 0 rest).after 1 [c]
      else if some c = q.closer then
        if depth = 0 then ⟨[], 1, true⟩ else (read q (pos + 1) (depth - 1) 0 rest).after 1 [c]
      else (read q (pos + 1) depth 0 rest).after 1 [c] := by
  rw [read.eq_def]
  simp only [hc, if_false, h]

def shift (k : Nat) (r : Quoted) : Quoted := { r with parts := r.parts.map (StringPart.shift k) }

@[simp] theorem length_shift (k : Nat) (r : Quoted) : (r.shift k).length = r.length := rfl

@[simp] theorem closed_shift (k : Nat) (r : Quoted) : (r.shift k).closed = r.closed := rfl

@[simp] theorem parts_shift (k : Nat) (r : Quoted) :
    (r.shift k).parts = r.parts.map (StringPart.shift k) := rfl

theorem after_shift (k : Nat) (r : Quoted) (n : Nat) (value : Text) :
    (r.shift k).after n value = (r.after n value).shift k := by
  simp [after, shift]

theorem read_add (k skip : Nat) (t : Text) :
    read q (pos + k) depth skip t = (read q pos depth skip t).shift k := by
  fun_induction read q pos depth skip t with
  | case1 => rfl
  | case2 pos depth skip c rest ih =>
    rw [read, Nat.add_right_comm, ih, after_shift]
  | case3 pos depth =>
    rw [read]
    simp only [if_true]
    exact congrArg (Quoted.mk · 1 _) (StringPart.consText_shift k q.lastEscape [])
  | case4 pos depth next rest ih =>
    rw [read_escape, Nat.add_right_comm, ih, after_shift]
  | case5 pos depth c rest hc n hcode more ih =>
    rw [read_code q _ _ hc hcode, Nat.add_right_comm, ih]
    simp [shift, StringPart.shift, more, Nat.add_right_comm]
  | case6 pos depth c rest hc hcode hopen ih =>
    rw [read_unit q _ _ hc hcode, if_pos hopen, Nat.add_right_comm, ih, after_shift]
  | case7 pos c rest hc hcode hopen hclose =>
    rw [read_unit q _ _ hc hcode, if_neg hopen, if_pos hclose]
    rfl
  | case8 pos depth c rest hc hcode hopen hclose hdepth ih =>
    rw [read_unit q _ _ hc hcode, if_neg hopen, if_pos hclose, if_neg hdepth, Nat.add_right_comm,
      ih, after_shift]
  | case9 pos depth c rest hc hcode hopen hclose ih =>
    rw [read_unit q _ _ hc hcode, if_neg hopen, if_neg hclose, Nat.add_right_comm, ih, after_shift]

theorem ofText_add (k : Nat) (t : Text) : ofText q (pos + k) t = (ofText q pos t).shift k :=
  read_add q pos 0 k 0 t

end Quoted

theorem dedentParts_shift (k width : Nat) (atStart : Bool) (parts : List StringPart) :
    dedentParts width atStart (parts.map (StringPart.shift k)) =
      (dedentParts width atStart parts).map (StringPart.shift k) := by
  induction parts generalizing atStart with
  | nil => rfl
  | cons part rest ih =>
    cases part with
    | text value => simp [dedentParts, StringPart.shift, ih]
    | code source offset => simp [dedentParts, StringPart.shift, ih]

theorem dedent_shift (k : Nat) (parts : List StringPart) :
    dedent (parts.map (StringPart.shift k)) = (dedent parts).map (StringPart.shift k) := by
  unfold dedent
  rw [StringPart.outline_shift]
  dsimp only
  split
  · rfl
  · exact dedentParts_shift k _ true parts

/-! ### Lexemes -/

namespace Lexeme

def shift (k : Nat) (l : Lexeme) : Lexeme := { l with content := l.content.shift k }

variable (k pos : Nat)

theorem symbol?_add (t : Text) : symbol? (pos + k) t = (symbol? pos t).map (shift k) := by
  unfold symbol?
  split
  · rfl
  · split
    · rw [Nat.add_right_comm, Quoted.ofText_add]
      dsimp only
      rw [Quoted.closed_shift]
      split <;> rfl
    · split <;> rfl

theorem percentBody?_add (letter : Option CodeUnit) (lead : Nat) (rest : Text) :
    percentBody? letter (pos + k) lead rest = (percentBody? letter pos lead rest).map (shift k) := by
  unfold percentBody?
  split
  · rfl
  · split
    · rfl
    · have hpos : pos + k + lead + 1 = pos + lead + 1 + k := by omega
      dsimp only
      rw [hpos, Quoted.ofText_add]
      rw [Quoted.closed_shift, Quoted.length_shift, Quoted.parts_shift, StringPart.plain?_shift]
      split
      · rfl
      · split
        · rfl
        · split <;> rfl

theorem percent?_add (t : Text) : percent? (pos + k) t = (percent? pos t).map (shift k) := by
  unfold percent?
  split
  · rfl
  · split
    · split
      · exact percentBody?_add k pos _ 2 _
      · rfl
    · exact percentBody?_add k pos _ 1 _

theorem shift_word (afterDot : Bool) (t : Text) : (word afterDot t).shift k = word afterDot t := by
  unfold word
  dsimp only
  split
  · rfl
  · split
    · rfl
    · split <;> rfl

theorem shift_regex? (t : Text) : (regex? t).map (shift k) = regex? t := by
  unfold regex?
  cases regexLength? false t.tail <;> rfl

end Lexeme

/-! ### The scan -/

def PendingHeredoc.shift (k : Nat) (h : PendingHeredoc) : PendingHeredoc :=
  { h with start := h.start + k }

theorem PendingHeredoc.parts_add (k : Nat) (h : PendingHeredoc) (pos : Nat) (body : Text) :
    (h.shift k).parts (pos + k) body = (h.parts pos body).map (StringPart.shift k) := by
  have hopener : (h.shift k).opener = h.opener := rfl
  unfold PendingHeredoc.parts
  rw [hopener, Quoted.ofText_add]
  dsimp only
  rw [Quoted.parts_shift]
  cases h.opener.squiggly with
  | true => exact dedent_shift k _
  | false => rfl

namespace LexState

def shift (k : Nat) (s : LexState) : LexState :=
  { s with
    tokens := s.tokens.map (Token.shift k)
    problems := s.problems.map (Problem.shift k)
    pending := s.pending.map (PendingHeredoc.shift k) }

variable (k : Nat) (s : LexState) (pos : Nat)

theorem push_add (t : Text) (l : Lexeme) :
    (s.shift k).push (pos + k) t (l.shift k) = ((s.push pos t l).1.shift k, (s.push pos t l).2) := by
  simp [push, shift, Lexeme.shift, Token.shift, Nat.add_right_comm]

@[simp] theorem afterDot_shift : (s.shift k).afterDot = s.afterDot := by
  unfold afterDot shift
  rw [Array.back?_map, Option.any_map]
  simp

@[simp] theorem inValuePosition_shift (next : Option CodeUnit) :
    (s.shift k).inValuePosition next = s.inValuePosition next := by
  unfold inValuePosition shift
  rw [Array.back?_map]
  cases s.tokens.back? with
  | none => rfl
  | some prev =>
    have hcloser := prev.isCloser_shift k
    obtain ⟨content, start, stop, text, spaceBefore⟩ := prev
    cases content <;> simp_all [Token.shift, TokenContent.shift]

@[simp] theorem isShift_shift : (s.shift k).isShift = s.isShift := by
  unfold isShift shift
  rw [Array.back?_map]
  cases s.tokens.back? <;> simp

theorem modify_shift (tokens : Array Token) (index : Nat) (content : TokenContent) :
    (tokens.map (Token.shift k)).modify index (fun t => { t with content := content.shift k }) =
      (tokens.modify index fun t => { t with content := content }).map (Token.shift k) := by
  apply Array.ext
  · simp
  · intro i h₁ h₂
    simp only [Array.getElem_modify, Array.getElem_map]
    split <;> rfl

/-- The state after the body of one heredoc, which starts `t` at offset `pos`. -/
def fillOne (s : LexState) (pos : Nat) (t : Text) (h : PendingHeredoc) : LexState :=
  { s with
    tokens := s.tokens.modify h.index fun token =>
      { token with content := .string .heredoc (h.parts pos (h.body t.lines).1) }
    problems :=
      if (h.body t.lines).2.2 then s.problems
      else s.problems.push ⟨.openHeredoc h.opener.name, h.start⟩ }

theorem fill_cons (t : Text) (h : PendingHeredoc) (more : List PendingHeredoc) :
    s.fill pos t (h :: more) =
      let taken := (h.body t.lines).2.1
      let rest := (s.fillOne pos t h).fill (pos + taken) (t.drop taken) more
      (rest.1, taken + rest.2) := rfl

theorem fillOne_add (t : Text) (h : PendingHeredoc) :
    (s.shift k).fillOne (pos + k) t (h.shift k) = (s.fillOne pos t h).shift k := by
  have hbody : (h.shift k).body t.lines = h.body t.lines := rfl
  have htokens := modify_shift k s.tokens h.index (.string .heredoc (h.parts pos (h.body t.lines).1))
  unfold fillOne
  rw [hbody, PendingHeredoc.parts_add]
  simp only [shift, LexState.mk.injEq]
  refine ⟨htokens, ?_, trivial, trivial, trivial⟩
  split
  · rfl
  · rw [Array.map_push]
    rfl

theorem fill_add (t : Text) (hs : List PendingHeredoc) :
    (s.shift k).fill (pos + k) t (hs.map (PendingHeredoc.shift k)) =
      ((s.fill pos t hs).1.shift k, (s.fill pos t hs).2) := by
  induction hs generalizing s pos t with
  | nil => rfl
  | cons h more ih =>
    have hbody : (h.shift k).body t.lines = h.body t.lines := rfl
    rw [List.map_cons, fill_cons, fill_cons, hbody, fillOne_add]
    dsimp only
    rw [Nat.add_right_comm, ih]

theorem string_add (quote : CodeUnit) (rest : Text) :
    (s.shift k).string (pos + k) quote rest =
      ((s.string pos quote rest).1.shift k, (s.string pos quote rest).2) := by
  have hpush : ∀ s : LexState, { s.shift k with
      problems := (s.shift k).problems.push ⟨.openString quote, pos + k⟩ } =
        ({ s with problems := s.problems.push ⟨.openString quote, pos⟩ } : LexState).shift k := by
    intro s
    simp [shift, Problem.shift]
  unfold string
  dsimp only
  rw [Nat.add_right_comm, Quoted.ofText_add, Quoted.closed_shift, hpush]
  split
  · exact push_add k s pos _ ⟨.string _ _, _⟩
  · rw [Quoted.ofText_add]
    exact push_add k _ pos _ ⟨.string _ _, _⟩

theorem heredoc_add (t : Text) (opener : Lexeme.HeredocOpener) :
    (s.shift k).heredoc (pos + k) t opener =
      ((s.heredoc pos t opener).1.shift k, (s.heredoc pos t opener).2) := by
  unfold heredoc
  have hpending : { s.shift k with
      pending := (s.shift k).pending ++ [⟨opener, pos + k, (s.shift k).tokens.size⟩] } =
        ({ s with pending := s.pending ++ [⟨opener, pos, s.tokens.size⟩] } : LexState).shift k := by
    simp [shift, PendingHeredoc.shift]
  dsimp only
  rw [hpending]
  exact push_add k _ pos t ⟨.string .heredoc [], opener.length⟩

/-- The heredoc opener at `c :: rest`, where one may stand. -/
def opener? (s : LexState) (c : CodeUnit) (rest : Text) : Option Lexeme.HeredocOpener :=
  if s.isShift then none else Lexeme.heredoc? (c :: rest)

/-- The literal at `c :: rest`, if there is one; quotes and heredocs apart. -/
def literal? (s : LexState) (pos : Nat) (c : CodeUnit) (rest : Text) : Option Lexeme :=
  if c = '%' ∧ s.inValuePosition rest.head? then Lexeme.percent? pos (c :: rest)
  else if c = '/' ∧ s.inValuePosition rest.head? then Lexeme.regex? (c :: rest)
  else if c = ':' ∧ rest.head? ≠ some ':' then Lexeme.symbol? pos (c :: rest)
  else none

/-- The number, name, word or punctuator at `c :: rest`. -/
def plainLexeme (s : LexState) (c : CodeUnit) (rest : Text) : Lexeme :=
  if c.isDigit then Lexeme.number (c :: rest)
  else if c = '@' ∨ c = '$' then Lexeme.sigilName (c :: rest)
  else if c.isIdentStart then Lexeme.word s.afterDot (c :: rest)
  else Lexeme.punct (c :: rest)

theorem lexeme_eq (c : CodeUnit) (rest : Text) :
    s.lexeme pos c rest =
      if c = '\x27' ∨ c = '\x22' ∨ c = '\x60' then s.string pos c rest
      else match s.opener? c rest with
        | some opener => s.heredoc pos (c :: rest) opener
        | none => s.push pos (c :: rest) ((s.literal? pos c rest).getD (s.plainLexeme c rest)) := rfl

theorem opener?_shift (c : CodeUnit) (rest : Text) :
    (s.shift k).opener? c rest = s.opener? c rest := by
  simp [opener?]

theorem literal?_add (c : CodeUnit) (rest : Text) :
    (s.shift k).literal? (pos + k) c rest = (s.literal? pos c rest).map (Lexeme.shift k) := by
  unfold literal?
  simp only [inValuePosition_shift]
  split
  · exact Lexeme.percent?_add k pos _
  · split
    · exact (Lexeme.shift_regex? k _).symm
    · split
      · exact Lexeme.symbol?_add k pos _
      · rfl

theorem plainLexeme_shift (c : CodeUnit) (rest : Text) :
    (s.shift k).plainLexeme c rest = (s.plainLexeme c rest).shift k := by
  unfold plainLexeme
  rw [afterDot_shift]
  split
  · rfl
  · split
    · rfl
    · split
      · exact (Lexeme.shift_word k _ _).symm
      · rfl

theorem lexeme_add (c : CodeUnit) (rest : Text) :
    (s.shift k).lexeme (pos + k) c rest =
      ((s.lexeme pos c rest).1.shift k, (s.lexeme pos c rest).2) := by
  rw [lexeme_eq, lexeme_eq, opener?_shift]
  split
  · exact string_add k s pos c rest
  · split
    · exact heredoc_add k s pos _ _
    · rw [literal?_add, plainLexeme_shift, ← push_add]
      cases s.literal? pos c rest <;> rfl

theorem step_add (c : CodeUnit) (rest : Text) :
    (s.shift k).step (pos + k) c rest = ((s.step pos c rest).1.shift k, (s.step pos c rest).2) := by
  unfold step
  have hstart : (s.shift k).atLineStart = s.atLineStart := rfl
  rw [hstart]
  split
  · rfl
  · split
    · rfl
    · split
      · rfl
      · split
        · rfl
        · split
          · rfl
          · split
            · rw [← fill_add]
              simp [shift, Token.shift, TokenContent.shift, Nat.add_right_comm]
            · exact lexeme_add k { s with atLineStart := false } pos c rest

/-- A scan further right sees the same further right. -/
theorem scan_add (skip : Nat) (t : Text) :
    scan (pos + k) skip (s.shift k) t = (scan pos skip s t).shift k := by
  induction t generalizing pos skip s with
  | nil =>
    rw [scan, scan]
    exact congrArg Prod.fst (fill_add k s pos [] s.pending)
  | cons c rest ih =>
    cases skip with
    | zero =>
      rw [scan, scan, step_add, Nat.add_right_comm]
      exact ih _ _ _
    | succ skip =>
      rw [scan, scan, Nat.add_right_comm]
      exact ih _ _ _

end LexState

/-- The tokens of a text that starts further right are the same tokens further right. -/
theorem lex_add (text : Text) (base k : Nat) : lex text (base + k) = (lex text base).shift k := by
  have hstart : LexState.start.shift k = .start := by simp [LexState.shift, LexState.start]
  have hscan := LexState.scan_add k .start base 0 text
  rw [hstart] at hscan
  unfold lex
  rw [hscan]
  simp [LexState.shift, Lexed.shift]

theorem lexInline_add (text : Text) (base k : Nat) :
    lexInline text (base + k) = (lexInline text base).map (Token.shift k) := by
  unfold lexInline
  rw [lex_add, Lexed.shift, List.filter_map]
  simp [Function.comp_def]

end Cookbook
