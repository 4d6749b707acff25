import Cookbook.Proofs.Value.Quoting
import Cookbook.Proofs.Value.Template

/-!
Templates read back. Outside of double braces a template is text; a substitution begins with two opening
braces and ends with two closing ones that stand outside of the strings and brackets of its expression.
Values are rendered with their literals as they are, so a literal may begin a substitution, by itself or
together with the one behind it.

* `readTemplate` reads a template, `Template.written` writes it;
* `Template.IsDelimited` says that no text begins a substitution and that the expressions are complete;
  `Template.readTemplate_written_iff` says that such templates, and no others, are read as written;
* `Value.template` is what a value stands for, `Value.written_template` says that it is rendered so, and
  `Value.complete_of_isSafe` that plain keys leave only the texts at fault;
* `readTemplate_render_iff` is the result.
-/

namespace Cookbook

abbrev openingBraces : Text := "\x7b\x7b"

abbrev closingBraces : Text := "\x7d\x7d"

/-- A substitution, with the text before it. -/
structure Substitution where
  before : Text
  expression : Text
deriving DecidableEq

def Substitution.written (s : Substitution) : Text :=
  s.before ++ (openingBraces ++ (s.expression ++ closingBraces))

/-- A template: its substitutions, each with the text before it, and the text after the last. -/
structure Template where
  substitutions : List Substitution
  last : Text
deriving DecidableEq

namespace Template

def ofText (t : Text) : Template := ⟨[], t⟩

def ofExpression (expression : Text) : Template := ⟨[⟨[], expression⟩], []⟩

/-- The template with one more substitution before it. -/
def after (s : Substitution) (m : Template) : Template := ⟨s :: m.substitutions, m.last⟩

/-- One template and then another; the texts that meet are one. -/
def append (m n : Template) : Template :=
  match n.substitutions with
  | [] => ⟨m.substitutions, m.last ++ n.last⟩
  | s :: more => ⟨m.substitutions ++ ⟨m.last ++ s.before, s.expression⟩ :: more, n.last⟩

def written (m : Template) : Text := m.substitutions.flatMap Substitution.written ++ m.last

end Template

/-! ### Reading -/

/-- A scan stands outside of strings and of brackets. -/
def QuoteScan.IsClosed (s : QuoteScan) : Prop := s.spot = .outside ∧ s.openers = []

instance (s : QuoteScan) : Decidable s.IsClosed := inferInstanceAs (Decidable (_ ∧ _))

def QuoteScan.start : QuoteScan := ⟨.outside, [], []⟩

/-- Where the reading of a template stands: in a text, or in an expression behind a text, with what was
read of them. -/
inductive TemplateMode where
  | text (before : Text)
  | expression (before : Text) (scan : QuoteScan) (read : Text)

/-- The rest of a template, read from where the reading stands. A substitution that does not end, or has a
bracket that closes another one than the last, has no reading. -/
def TemplateMode.read : TemplateMode → Text → Option Template
  | text before, [] => some (.ofText before)
  | text before, [c] => some (.ofText (before ++ [c]))
  | text before, c :: d :: rest =>
    if c = '\x7b' ∧ d = '\x7b' then (expression before .start []).read rest
    else (text (before ++ [c])).read (d :: rest)
  | expression _ _ _, [] => none
  | expression _ _ _, [_] => none
  | expression before scan e, c :: d :: rest =>
    if scan.IsClosed ∧ c = '\x7d' ∧ d = '\x7d' then ((text []).read rest).map (.after ⟨before, e⟩)
    else (scan.step c).bind fun next => (expression before next (e ++ [c])).read (d :: rest)

/-- The template that a text is. -/
def readTemplate (t : Text) : Option Template := (TemplateMode.text []).read t

namespace TemplateMode

variable {before e rest : Text} {scan : QuoteScan} {c : CodeUnit} {m : Template}

theorem read_text_open : (text before).read (openingBraces ++ rest) = (expression before .start []).read rest := rfl

theorem read_text_cons (h : ¬ (c = '\x7b' ∧ rest.head? = some '\x7b')) :
    (text before).read (c :: rest) = (text (before ++ [c])).read rest := by
  cases rest with
  | nil => rfl
  | cons d rest =>
    have hbraces : ¬ (c = '\x7b' ∧ d = '\x7b') := fun hcd => h ⟨hcd.1, congrArg some hcd.2⟩
    rw [read, if_neg hbraces]

theorem read_expression_close (h : scan.IsClosed) (before e rest : Text) :
    (expression before scan e).read (closingBraces ++ rest) =
      ((text []).read rest).map (.after ⟨before, e⟩) := by
  show (expression before scan e).read (_ :: _ :: rest) = _
  rw [read, if_pos ⟨h, rfl, rfl⟩]

theorem read_expression_cons (h : ¬ (scan.IsClosed ∧ c = '\x7d' ∧ rest.head? = some '\x7d')) :
    (expression before scan e).read (c :: rest) =
      (scan.step c).bind fun next => (expression before next (e ++ [c])).read rest := by
  cases rest with
  | nil =>
    rw [read]
    cases scan.step c <;> rfl
  | cons d rest =>
    have hbraces : ¬ (scan.IsClosed ∧ c = '\x7d' ∧ d = '\x7d') :=
      fun hcd => h ⟨hcd.1, hcd.2.1, congrArg some hcd.2.2⟩
    rw [read, if_neg hbraces]

/-- An expression that is read becomes the first substitution, and all that was read of it stays. -/
theorem first_of_read_expression (h : (expression before scan e).read rest = some m) :
    ∃ more others, m.substitutions = ⟨before, e ++ more⟩ :: others := by
  induction rest generalizing scan e with
  | nil => cases h
  | cons c rest ih =>
    by_cases hstop : scan.IsClosed ∧ c = '\x7d' ∧ rest.head? = some '\x7d'
    · obtain ⟨hclosed, rfl, hhead⟩ := hstop
      obtain ⟨rest, rfl⟩ : ∃ more, rest = ('\x7d' : CodeUnit) :: more := List.head?_eq_some_iff.1 hhead
      have hread := read_expression_close hclosed before e rest
      rw [show closingBraces ++ rest = ('\x7d' : CodeUnit) :: ('\x7d' : CodeUnit) :: rest from rfl, h] at hread
      obtain ⟨m', -, rfl⟩ := Option.map_eq_some_iff.1 hread.symm
      exact ⟨[], _, by rw [List.append_nil]; rfl⟩
    · rw [read_expression_cons hstop] at h
      obtain ⟨next, -, hnext⟩ := Option.bind_eq_some_iff.1 h
      obtain ⟨more, others, hm⟩ := ih hnext
      exact ⟨c :: more, others, by rw [hm, List.append_assoc, List.singleton_append]⟩

/-- A text in which no substitution begins is read as it is. -/
theorem read_text_append {t : Text} (hbraces : ¬ openingBraces <:+: t)
    (hlast : rest.head? = some '\x7b' → t.getLast? ≠ some '\x7b') :
    (text before).read (t ++ rest) = (text (before ++ t)).read rest := by
  induction t generalizing before with
  | nil => rw [List.nil_append, List.append_nil]
  | cons c t ih =>
    rw [List.infix_cons_iff, not_or] at hbraces
    have hopen : ¬ (c = '\x7b' ∧ (t ++ rest).head? = some '\x7b') := by
      rintro ⟨rfl, hhead⟩
      cases t with
      | nil => exact hlast hhead rfl
      | cons d t =>
        obtain rfl := Option.some.inj hhead
        exact hbraces.1 (List.prefix_append openingBraces t)
    have hrest : rest.head? = some '\x7b' → t.getLast? ≠ some '\x7b' := by
      intro hhead htail
      refine hlast hhead ?_
      rw [List.getLast?_cons, htail]
      rfl
    rw [List.cons_append, read_text_cons hopen, ih hbraces.2 hrest, List.append_assoc, List.singleton_append]

/-- A complete expression is read to its end. A closing brace outside of all brackets would make the scan
fail, so none ends it early. -/
theorem read_expression_append {next : QuoteScan} (hrun : scan.run e = some next) (hclosed : next.IsClosed)
    (before done rest : Text) :
    (expression before scan done).read (e ++ (closingBraces ++ rest)) =
      ((text []).read rest).map (.after ⟨before, done ++ e⟩) := by
  induction e generalizing scan done with
  | nil =>
    obtain rfl := Option.some.inj hrun
    rw [List.nil_append, read_expression_close hclosed, List.append_nil]
  | cons c e ih =>
    rw [QuoteScan.run_cons] at hrun
    obtain ⟨mid, hstep, hmid⟩ := Option.bind_eq_some_iff.1 hrun
    have hstop : ¬ (scan.IsClosed ∧ c = '\x7d' ∧ (e ++ (closingBraces ++ rest)).head? = some '\x7d') := by
      rintro ⟨⟨hspot, hopeners⟩, rfl, -⟩
      obtain ⟨spot, openers, contents⟩ := scan
      obtain rfl : spot = .outside := hspot
      obtain rfl : openers = [] := hopeners
      cases hstep
    rw [List.cons_append, read_expression_cons hstop, hstep, Option.bind_some, ih hmid, List.append_assoc,
      List.singleton_append]

/-- A text that is read as the last one has no substitution in it. -/
theorem not_infix_of_read_text {t : Text} (h : (text before).read t = some (.ofText (before ++ t))) :
    ¬ openingBraces <:+: t := by
  induction t generalizing before with
  | nil => decide
  | cons c t ih =>
    by_cases hopen : c = '\x7b' ∧ t.head? = some '\x7b'
    · obtain ⟨rfl, hhead⟩ := hopen
      obtain ⟨rest, rfl⟩ : ∃ rest, t = ('\x7b' : CodeUnit) :: rest := List.head?_eq_some_iff.1 hhead
      obtain ⟨_, _, hm⟩ := first_of_read_expression (read_text_open.symm.trans h)
      cases hm
    · rw [read_text_cons hopen, List.append_cons before c t] at h
      rw [List.infix_cons_iff, not_or]
      refine ⟨?_, ih h⟩
      rintro ⟨rest, hrest⟩
      obtain ⟨rfl, rfl⟩ := List.cons.inj hrest
      exact hopen ⟨rfl, rfl⟩

/-- A text that is read as the one before a substitution has none in it, nor begins one with it. -/
theorem delimited_of_read_text {t : Text} {others : List Substitution}
    (h : (text before).read (t ++ (openingBraces ++ rest)) = some m)
    (hm : m.substitutions = ⟨before ++ t, e⟩ :: others) :
    ¬ openingBraces <:+: t ∧ t.getLast? ≠ some '\x7b' ∧
      (expression (before ++ t) .start []).read rest = some m := by
  induction t generalizing before with
  | nil =>
    rw [List.append_nil]
    exact ⟨by decide, by simp, h⟩
  | cons c t ih =>
    by_cases hopen : c = '\x7b' ∧ (t ++ (openingBraces ++ rest)).head? = some '\x7b'
    · -- the substitution would begin at `c`, which is part of the text before it
      obtain ⟨rfl, hhead⟩ := hopen
      obtain ⟨more, hmore⟩ := List.head?_eq_some_iff.1 hhead
      rw [List.cons_append, hmore] at h
      obtain ⟨_, _, hfirst⟩ := first_of_read_expression (read_text_open.symm.trans h)
      rw [hm] at hfirst
      have hbefore := congrArg Substitution.before (List.cons.inj hfirst).1
      simp at hbefore
    · rw [List.cons_append, read_text_cons hopen] at h
      rw [List.append_cons] at hm ⊢
      obtain ⟨hbraces, hlast, hexpression⟩ := ih h hm
      refine ⟨?_, ?_, hexpression⟩
      · rw [List.infix_cons_iff, not_or]
        refine ⟨?_, hbraces⟩
        rintro ⟨more, hmore⟩
        obtain ⟨rfl, rfl⟩ := List.cons.inj hmore
        exact hopen ⟨rfl, rfl⟩
      · cases t with
        | nil => exact fun hc => hopen ⟨Option.some.inj hc, rfl⟩
        | cons d t => rwa [List.getLast?_cons_cons]

/-- An expression that is read to its end is complete. -/
theorem closed_of_read_expression {done : Text} {others : List Substitution}
    (h : (expression before scan done).read (e ++ (closingBraces ++ rest)) = some m)
    (hm : m.substitutions = ⟨before, done ++ e⟩ :: others) :
    (∃ next, scan.run e = some next ∧ next.IsClosed) ∧ (text []).read rest = some ⟨others, m.last⟩ := by
  induction e generalizing scan done with
  | nil =>
    by_cases hclosed : scan.IsClosed
    · rw [List.nil_append, read_expression_close hclosed] at h
      obtain ⟨m', hread, rfl⟩ := Option.map_eq_some_iff.1 h
      obtain rfl := (List.cons.inj hm).2
      exact ⟨⟨scan, rfl, hclosed⟩, hread⟩
    · have hstop : ¬ (scan.IsClosed ∧ ('\x7d' : CodeUnit) = '\x7d' ∧
          (('\x7d' : CodeUnit) :: rest).head? = some '\x7d') := fun hstop => hclosed hstop.1
      have hread : (expression before scan done).read (('\x7d' : CodeUnit) :: ('\x7d' : CodeUnit) :: rest) =
          some m := h
      rw [read_expression_cons hstop] at hread
      obtain ⟨next, -, hnext⟩ := Option.bind_eq_some_iff.1 hread
      obtain ⟨_, _, hfirst⟩ := first_of_read_expression hnext
      rw [hm] at hfirst
      have hexpression := congrArg Substitution.expression (List.cons.inj hfirst).1
      simp at hexpression
  | cons c e ih =>
    by_cases hstop : scan.IsClosed ∧ c = '\x7d' ∧ (e ++ (closingBraces ++ rest)).head? = some '\x7d'
    · -- the reading would end before `c`, which is part of the expression
      obtain ⟨hclosed, rfl, hhead⟩ := hstop
      obtain ⟨more, hmore⟩ := List.head?_eq_some_iff.1 hhead
      rw [List.cons_append, hmore] at h
      have hread := (read_expression_close hclosed before done more).symm.trans h
      obtain ⟨m', -, rfl⟩ := Option.map_eq_some_iff.1 hread
      have hexpression := congrArg Substitution.expression (List.cons.inj hm).1
      simp at hexpression
    · rw [List.cons_append, read_expression_cons hstop] at h
      obtain ⟨next, hstep, hnext⟩ := Option.bind_eq_some_iff.1 h
      rw [List.append_cons] at hm
      obtain ⟨⟨final, hrun, hclosed⟩, hread⟩ := ih hnext hm
      refine ⟨⟨final, ?_, hclosed⟩, hread⟩
      rw [QuoteScan.run_cons, hstep]
      exact hrun

end TemplateMode

/-! ### Delimited templates -/

theorem isSome_quotedContents?_iff (e : Text) :
    (quotedContents? e).isSome ↔ ∃ next, QuoteScan.start.run e = some next ∧ next.IsClosed := by
  have hstart : QuoteScan.run ⟨.outside, [], []⟩ e = QuoteScan.start.run e := rfl
  rw [quotedContents?, hstart]
  cases QuoteScan.start.run e with
  | none => simp
  | some next =>
    obtain ⟨spot, openers, contents⟩ := next
    cases spot <;> cases openers <;> simp [QuoteScan.IsClosed]

/-- A substitution begins where it is meant to, and its expression ends where it is meant to. -/
structure Substitution.IsDelimited (s : Substitution) : Prop where
  /-- No substitution begins in the text before it. -/
  text : ¬ openingBraces <:+: s.before
  /-- None begins with the last unit of that text and the first brace. -/
  boundary : s.before.getLast? ≠ some '\x7b'
  /-- The strings and the brackets of the expression end in it. -/
  complete : (quotedContents? s.expression).isSome

/-- The substitutions of a template begin and end where they are meant to, and there are no others. -/
structure Template.IsDelimited (m : Template) : Prop where
  substitutions : ∀ s ∈ m.substitutions, s.IsDelimited
  last : ¬ openingBraces <:+: m.last

namespace Template

theorem isDelimited_after_iff (s : Substitution) (m : Template) :
    (m.after s).IsDelimited ↔ s.IsDelimited ∧ m.IsDelimited := by
  constructor
  · intro h
    obtain ⟨hs, hmore⟩ := List.forall_mem_cons.1 h.substitutions
    exact ⟨hs, hmore, h.last⟩
  · rintro ⟨hs, hm⟩
    exact ⟨List.forall_mem_cons.2 ⟨hs, hm.substitutions⟩, hm.last⟩

theorem written_after (s : Substitution) (m : Template) :
    (m.after s).written =
      s.before ++ (openingBraces ++ (s.expression ++ (closingBraces ++ m.written))) := by
  simp only [written, after, Substitution.written, List.flatMap_cons, List.append_assoc]

/-- The templates that are read as written are the delimited ones. -/
theorem readTemplate_written_iff (m : Template) : readTemplate m.written = some m ↔ m.IsDelimited := by
  obtain ⟨substitutions, last⟩ := m
  unfold readTemplate
  induction substitutions with
  | nil =>
    constructor
    · intro h
      exact ⟨by simp, TemplateMode.not_infix_of_read_text h⟩
    · intro h
      have hread : (TemplateMode.text []).read (last ++ []) = (TemplateMode.text ([] ++ last)).read [] :=
        TemplateMode.read_text_append h.last (by simp)
      rw [List.append_nil] at hread
      exact hread
  | cons s substitutions ih =>
    change (TemplateMode.text []).read (after s ⟨substitutions, last⟩).written =
      some (after s ⟨substitutions, last⟩) ↔ (after s ⟨substitutions, last⟩).IsDelimited
    rw [isDelimited_after_iff, written_after, ← ih]
    constructor
    · intro h
      obtain ⟨htext, hboundary, hexpression⟩ := TemplateMode.delimited_of_read_text h rfl
      obtain ⟨hcomplete, hread⟩ := TemplateMode.closed_of_read_expression hexpression rfl
      exact ⟨⟨htext, hboundary, (isSome_quotedContents?_iff _).2 hcomplete⟩, hread⟩
    · rintro ⟨hs, hread⟩
      obtain ⟨next, hrun, hclosed⟩ := (isSome_quotedContents?_iff _).1 hs.complete
      rw [TemplateMode.read_text_append hs.text fun _ => hs.boundary, TemplateMode.read_text_open,
        TemplateMode.read_expression_append hrun hclosed, hread]
      rfl

/-! ### Templates of values -/

theorem written_append (m n : Template) : (m.append n).written = m.written ++ n.written := by
  unfold append
  split
  · rename_i hn
    simp only [written, hn, List.flatMap_nil, List.nil_append, List.append_assoc]
  · rename_i hn
    simp only [written, hn, Substitution.written, List.flatMap_append, List.flatMap_cons,
      List.append_assoc]

def expressions (m : Template) : List Text := m.substitutions.map Substitution.expression

theorem expressions_append (m n : Template) :
    (m.append n).expressions = m.expressions ++ n.expressions := by
  unfold append
  split
  · rename_i hn
    simp only [expressions, hn, List.map_nil, List.append_nil]
  · rename_i hn
    simp only [expressions, hn, List.map_append, List.map_cons]

end Template

/-- An expression between the blanks that set it off from the braces. -/
def spaced (expression : Text) : Text := " " ++ expression ++ " "

mutual

/-- What a value is meant to be in a template: its literals are text, and its paths, lists and hashes
are substitutions, in order. -/
def Value.template : Value → Template
  | .literal s => .ofText s.plain
  | .symbol name => .ofText name
  | .path _ keys => .ofExpression (spaced (variableName keys))
  | .interpolation segments => templateOfAll segments
  | .list items => .ofExpression (spaced (Value.list items).expression)
  | .map entries => .ofExpression (spaced (Value.map entries).expression)
  | .verbatim raw => .ofText raw

def templateOfAll : List Value → Template
  | [] => .ofText []
  | v :: rest => v.template.append (templateOfAll rest)

end

theorem substitution_eq_written (expression : Text) :
    substitution expression = (Template.ofExpression (spaced expression)).written := by
  show openingBraces ++ (" " : Text) ++ expression ++ ((" " : Text) ++ closingBraces) = _
  simp [Template.ofExpression, Template.written, Substitution.written, spaced]

theorem Value.written_template (v : Value) : v.template.written = v.render := by
  induction v using Value.parts_ind with
  | literal s => rfl
  | symbol name => rfl
  | path scope keys => exact (substitution_eq_written _).symm
  | interpolation segments ih =>
    rw [template, render]
    induction segments with
    | nil => rfl
    | cons v rest hrest =>
      obtain ⟨hv, hmore⟩ := List.forall_mem_cons.1 ih
      rw [templateOfAll, renderAll, Template.written_append, hv, hrest hmore]
  | list items => exact (substitution_eq_written _).symm
  | map entries => exact (substitution_eq_written _).symm
  | verbatim raw => rfl

/-- With plain keys all expressions are complete, so that only the texts can be at fault. -/
theorem Value.complete_of_isSafe {v : Value} (hclear : v.verbatims = [])
    (hsafe : ∀ p ∈ v.quotedPieces, p.IsSafe) :
    ∀ e ∈ v.template.expressions, (quotedContents? e).isSome := by
  have hcomplete : ∀ {v : Value}, v.verbatims = [] → (∀ p ∈ v.quotedPieces, p.IsSafe) →
      ∀ e ∈ (Template.ofExpression (spaced v.expression)).expressions, (quotedContents? e).isSome := by
    intro v hclear hsafe e he
    obtain rfl := List.mem_singleton.1 he
    have hblank : Quotes " " [] := .unmarked (by decide)
    have hquotes := (hblank.append (Value.quotes_expression hclear)).append hblank
    have hrun := hquotes.reads (by simpa using hsafe) [] []
    exact (isSome_quotedContents?_iff _).2 ⟨_, hrun, rfl, rfl⟩
  induction v using Value.parts_ind with
  | literal s => simp [template, Template.ofText, Template.expressions]
  | symbol name => simp [template, Template.ofText, Template.expressions]
  | path scope keys => exact hcomplete hclear hsafe
  | interpolation segments ih =>
    rw [verbatims, verbatimsIn_eq] at hclear
    rw [quotedPieces, quotedPiecesIn_eq] at hsafe
    rw [template]
    induction segments with
    | nil => simp [templateOfAll, Template.ofText, Template.expressions]
    | cons v rest hrest =>
      obtain ⟨hv, hmore⟩ := List.forall_mem_cons.1 ih
      rw [List.flatMap_cons, List.append_eq_nil_iff] at hclear
      rw [List.flatMap_cons, List.forall_mem_append] at hsafe
      rw [templateOfAll, Template.expressions_append, List.forall_mem_append]
      exact ⟨hv hclear.1 hsafe.1, hrest hmore hclear.2 hsafe.2⟩
  | list items => exact hcomplete hclear hsafe
  | map entries => exact hcomplete hclear hsafe
  | verbatim raw => cases hclear

/-- The template of a value is read as its literals and its dynamic parts, in order, exactly when no text
between these begins a substitution, by itself or with the braces behind it, and the expressions of the
parts are complete. -/
theorem readTemplate_render_iff (v : Value) :
    readTemplate v.render = some v.template ↔ v.template.IsDelimited := by
  rw [← Value.written_template]
  exact v.template.readTemplate_written_iff

/-- A literal with double braces is read as a substitution. -/
theorem braces_in_literal_substituted :
    readTemplate (Value.ofText "inspect -f '\x7b\x7b .State \x7d\x7d' web").render =
        some ⟨[⟨"inspect -f '", " .State "⟩], "' web"⟩ ∧
      ¬ (Value.ofText "inspect -f '\x7b\x7b .State \x7d\x7d' web").template.IsDelimited := by
  have hread : readTemplate (Value.ofText "inspect -f '\x7b\x7b .State \x7d\x7d' web").render =
      some ⟨[⟨"inspect -f '", " .State "⟩], "' web"⟩ := by decide +kernel
  refine ⟨hread, fun h => ?_⟩
  have htemplate := (readTemplate_render_iff _).2 h
  rw [hread] at htemplate
  have hsubstitutions := congrArg Template.substitutions (Option.some.inj htemplate)
  cases hsubstitutions

end Cookbook
