import Cookbook.Proofs.Value.Interpolation
import Cookbook.Proofs.Value.Steps

/-!
Code kept as written and the warnings about it. The reading of a value warns of each piece that it
keeps, where the piece stands, and drops the warnings of what an outer piece takes in; so the pieces of
a value and the warnings about it are the same list. The pieces of names in force come without a
warning.

* `Diagnostic.Keeps` says that a warning is about a piece;
* `ReportedBy` sets the pieces of a value against the warnings, in order;
* `NormalizeContext.Makes.reports` is one step of the reading, `NormalizeContext.normalize_reports` the
  whole;
* `normalizeText_reports_verbatims` is the result for expressions given as text.
-/

namespace Cookbook

/-! ### Pieces of a value -/

theorem verbatimsIn_eq (values : List Value) : verbatimsIn values = values.flatMap Value.verbatims := by
  induction values with
  | nil => rfl
  | cons v rest ih => rw [verbatimsIn, ih, List.flatMap_cons]

theorem verbatimsOf_eq (entries : List Entry) :
    verbatimsOf entries = entries.flatMap fun e => e.value.verbatims := by
  induction entries with
  | nil => rfl
  | cons e rest ih =>
    obtain ⟨key, v⟩ := e
    rw [verbatimsOf, ih, List.flatMap_cons]

theorem Value.verbatims_of_scalar? {v : Value} {s : Scalar} (h : v.scalar? = some s) :
    v.verbatims = [] := by
  cases v with
  | literal _ => rfl
  | symbol _ => rfl
  | path _ _ => exact absurd h (by simp [scalar?])
  | interpolation _ => exact absurd h (by simp [scalar?])
  | list _ => exact absurd h (by simp [scalar?])
  | map _ => exact absurd h (by simp [scalar?])
  | verbatim _ => exact absurd h (by simp [scalar?])

/-- Joining the parts of an interpolation takes no piece away and moves none. -/
theorem Value.verbatims_interpolate (parts : List Value) :
    (interpolate parts).verbatims = parts.flatMap verbatims :=
  collect_interpolate (fun _ _ => verbatims_of_scalar?)
    (fun segments => by rw [verbatims, verbatimsIn_eq]) parts

/-! ### Warnings about pieces -/

def Diagnostic.isValueWarning (d : Diagnostic) : Bool :=
  ("value." : Text).isPrefixOf d.code.text && d.severity == .warning

def Finding.keeping (raw : Text) : List Finding :=
  [.unrecognizedValue raw, .lazyValue raw, .unknownConstant raw]

/-- A warning is about a piece of code in a text: it names the piece, and its stretch covers it. -/
structure Diagnostic.Keeps (text : Text) (d : Diagnostic) (raw : Text) : Prop where
  names : d.finding ∈ Finding.keeping raw
  covers : text.sliceSpan d.span = raw

theorem Diagnostic.Keeps.isValueWarning {text raw : Text} {d : Diagnostic} (h : d.Keeps text raw) :
    d.isValueWarning = true := by
  have hnames := h.names
  simp only [Finding.keeping, List.mem_cons, List.not_mem_nil, or_false] at hnames
  unfold Diagnostic.isValueWarning severity kind code
  rcases hnames with hnames | hnames | hnames <;> rw [hnames] <;> rfl

/-- Pieces of code and warnings: each piece has its own warning, in order, or is known beforehand and
has none. -/
inductive ReportedBy (text : Text) (known : Text → Prop) : List Text → List Diagnostic → Prop
  | nil : ReportedBy text known [] []
  | warned {raw : Text} {d : Diagnostic} {pieces : List Text} {warnings : List Diagnostic}
      (h : d.Keeps text raw) (rest : ReportedBy text known pieces warnings) :
      ReportedBy text known (raw :: pieces) (d :: warnings)
  | known {raw : Text} {pieces : List Text} {warnings : List Diagnostic} (h : known raw)
      (rest : ReportedBy text known pieces warnings) : ReportedBy text known (raw :: pieces) warnings

namespace ReportedBy

variable {text : Text} {known : Text → Prop} {pieces more : List Text}
  {warnings others : List Diagnostic}

theorem append (h : ReportedBy text known pieces warnings) (hmore : ReportedBy text known more others) :
    ReportedBy text known (pieces ++ more) (warnings ++ others) := by
  induction h with
  | nil => exact hmore
  | warned hd _ ih => exact .warned hd ih
  | known hraw _ ih => exact .known hraw ih

theorem of_known (h : ∀ raw ∈ pieces, known raw) : ReportedBy text known pieces [] := by
  induction pieces with
  | nil => exact .nil
  | cons raw rest ih =>
    exact .known (h raw List.mem_cons_self) (ih fun raw hraw => h raw (List.mem_cons_of_mem _ hraw))

/-- Where nothing is known beforehand, pieces and warnings go together one by one. -/
theorem forall₂ (hknown : ∀ raw, ¬ known raw) (h : ReportedBy text known pieces warnings) :
    List.Forall₂ (fun raw d => d.Keeps text raw) pieces warnings := by
  induction h with
  | nil => exact .nil
  | warned hd _ ih => exact .cons hd ih
  | known hraw _ _ => exact absurd hraw (hknown _)

theorem keeps_of_mem (h : ReportedBy text known pieces warnings) {d : Diagnostic} (hd : d ∈ warnings) :
    ∃ raw ∈ pieces, d.Keeps text raw := by
  induction h with
  | nil => exact absurd hd List.not_mem_nil
  | warned hkeeps _ ih =>
    rcases List.mem_cons.1 hd with rfl | hd
    · exact ⟨_, List.mem_cons_self, hkeeps⟩
    · obtain ⟨raw, hraw, hkeeps⟩ := ih hd
      exact ⟨raw, List.mem_cons_of_mem _ hraw, hkeeps⟩
  | known _ _ ih =>
    obtain ⟨raw, hraw, hkeeps⟩ := ih hd
    exact ⟨raw, List.mem_cons_of_mem _ hraw, hkeeps⟩

/-- Each piece is known beforehand or has a warning. -/
theorem known_or_warned (h : ReportedBy text known pieces warnings) {raw : Text} (hraw : raw ∈ pieces) :
    known raw ∨ ∃ d ∈ warnings, d.Keeps text raw := by
  induction h with
  | nil => exact absurd hraw List.not_mem_nil
  | @warned _ d _ _ hkeeps _ ih =>
    rcases List.mem_cons.1 hraw with rfl | hraw
    · exact .inr ⟨d, List.mem_cons_self, hkeeps⟩
    · exact (ih hraw).imp_right fun ⟨d, hd, hkeeps⟩ => ⟨d, List.mem_cons_of_mem _ hd, hkeeps⟩
  | known hknown _ ih =>
    rcases List.mem_cons.1 hraw with rfl | hraw
    · exact .inl hknown
    · exact ih hraw

end ReportedBy

/-! ### Reading -/

/-- A piece of one of the values that the names in force stand for. -/
def Bindings.Holds (constants : Bindings Value) (raw : Text) : Prop :=
  ∃ name v, constants.get? name = some v ∧ raw ∈ v.verbatims

namespace NormalizeContext

variable (ctx : NormalizeContext)

/-- The pieces of a value are reported by the warnings about it, apart from those that the names in
force stand for. -/
def Reports (n : Normalized) : Prop :=
  ReportedBy ctx.text ctx.constants.Holds n.value.verbatims n.diagnostics

theorem reports_of_clear {v : Value} (h : v.verbatims = []) : ctx.Reports (.clean v) := by
  unfold Reports Normalized.clean
  rw [h]
  exact .nil

/-- What a name stands for brings its pieces, and no warning. -/
theorem reports_constant {name : Text} {v : Value} (h : ctx.constants.get? name = some v) :
    ctx.Reports (.clean v) :=
  .of_known fun _ hraw => ⟨name, v, h, hraw⟩

/-- A run kept as written is one piece, with the warning that stands where the run does. -/
theorem keep_reports (run : List Token) {finding : Text → Finding}
    (hfinding : ∀ raw, finding raw ∈ Finding.keeping raw) : ctx.Reports (ctx.keep run finding) := by
  have hcovers : ctx.text.sliceSpan (ctx.spanOf run) = sourceOf ctx.text run := by
    cases run with
    | nil => exact ctx.lines.sliceSpan_span 0 0
    | cons t rest =>
      unfold spanOf sourceOf
      rw [List.head?_cons, List.getLast?_cons]
      exact ctx.lines.sliceSpan_span _ _
  exact .warned ⟨hfinding _, hcovers⟩ .nil

theorem gather_reported {ns : List Normalized} (h : ∀ n ∈ ns, ctx.Reports n) :
    ReportedBy ctx.text ctx.constants.Holds ((Normalized.gather ns).1.flatMap Value.verbatims)
      (Normalized.gather ns).2 := by
  induction ns with
  | nil => exact .nil
  | cons n rest ih =>
    exact (h n List.mem_cons_self).append (ih fun n hn => h n (List.mem_cons_of_mem _ hn))

/-- Values that are read off words have no pieces but those of the names in force. -/
theorem Plain.reports {ctx : NormalizeContext} {v : Value} (h : ctx.Plain v) : ctx.Reports (.clean v) := by
  cases h with
  | literal s => exact ctx.reports_of_clear rfl
  | symbol name => exact ctx.reports_of_clear rfl
  | path scope _ => exact ctx.reports_of_clear rfl
  | words words symbols =>
    refine ctx.reports_of_clear ?_
    rw [Value.verbatims, verbatimsIn_eq, List.flatMap_map, List.flatMap_eq_nil_iff]
    intro w _
    split <;> rfl
  | constant h => exact ctx.reports_constant h

/-- One step of the reading: what an outer run keeps as written is one piece with one warning, and
otherwise the pieces are those of the runs in it. -/
theorem Makes.reports {ctx : NormalizeContext} {whole : List Token → Normalized}
    (hwhole : ∀ run, ctx.Reports (whole run)) {run : List Token} {n : Normalized}
    (h : ctx.Makes whole run n) : ctx.Reports n := by
  cases h with
  | kept _ hfinding =>
    refine ctx.keep_reports _ fun raw => ?_
    simp only [List.mem_cons, List.not_mem_nil, or_false] at hfinding
    rcases hfinding with rfl | rfl | rfl <;> simp [Finding.keeping]
  | plain h => exact h.reports
  | @text _ _ parts _ _ =>
    have hparts : ∀ n ∈ parts.filterMap (part? whole), ctx.Reports n := by
      intro n hn
      obtain ⟨part, -, hpart⟩ := List.mem_filterMap.1 hn
      obtain ⟨value, rfl⟩ | ⟨source, offset, -, rfl⟩ := part?_cases hpart
      · exact ctx.reports_of_clear rfl
      · exact hwhole _
    unfold Reports
    rw [Value.verbatims_interpolate]
    exact ctx.gather_reported hparts
  | list _ =>
    unfold Reports
    rw [Value.verbatims, verbatimsIn_eq]
    refine ctx.gather_reported fun n hn => ?_
    obtain ⟨piece, -, rfl⟩ := List.mem_map.1 hn
    exact hwhole piece
  | @map pairs hpairs =>
    clear hpairs
    unfold Reports
    rw [Value.verbatims, verbatimsOf_eq]
    induction pairs with
    | nil => exact .nil
    | cons pair rest ih =>
      simp only [List.map_cons, List.flatMap_cons] at ih ⊢
      exact (hwhole pair.2).append ih
  | inside _ => exact hwhole _

theorem normalize_reports (run : List Token) : ctx.Reports (ctx.normalize run) :=
  normalize_induct (Q := fun _ n => ctx.Reports n)
    (fun run => ctx.keep_reports run fun raw => by simp [Finding.keeping])
    (fun _ _ _ hwhole h => h.reports hwhole) run

theorem filter_code_normalize (run : List Token) {code : ReasonCode}
    (hcode : ("value." : Text).isPrefixOf code.text = false) :
    (ctx.normalize run).diagnostics.filter (·.code == code) = [] := by
  refine List.filter_eq_nil_iff.2 fun d hd heq => ?_
  obtain ⟨raw, -, hkeeps⟩ := (ctx.normalize_reports run).keeps_of_mem hd
  have hwarning := hkeeps.isValueWarning
  unfold Diagnostic.isValueWarning at hwarning
  rw [beq_iff_eq.1 heq, hcode] at hwarning
  exact absurd hwarning (by simp)

end NormalizeContext

/-! ### Expressions given as text -/

theorem Diagnostic.kind_ofProblem (source : Text) (lines : LineIndex) (p : Problem) :
    (ofProblem source lines p).kind = .structural := by
  obtain ⟨fault, offset⟩ := p
  cases fault <;> rfl

theorem Diagnostic.filter_code_ofProblem (source : Text) (lines : LineIndex) (problems : List Problem)
    {code : ReasonCode} (hcode : code.kind ≠ .structural) :
    (problems.map (ofProblem source lines)).filter (·.code == code) = [] := by
  refine List.filter_eq_nil_iff.2 fun d hd heq => hcode ?_
  obtain ⟨problem, -, rfl⟩ := List.mem_map.1 hd
  exact beq_iff_eq.1 heq ▸ kind_ofProblem source lines problem

theorem Diagnostic.Keeps.kind_ne {text raw : Text} {d : Diagnostic} (h : d.Keeps text raw) :
    d.kind ≠ .structural := by
  have hwarning := h.isValueWarning
  unfold Diagnostic.isValueWarning severity at hwarning
  intro hkind
  rw [hkind] at hwarning
  simp [FindingKind.severity] at hwarning

/-- Where the names in force hold no code kept as written, the pieces of such code in the value of a
text and the warnings about the text, those about its structure apart, go together one by one and in
order: each warning names its piece, and its stretch covers just that. -/
theorem normalizeText_reports_verbatims (text source : Text) {constants : Bindings Value}
    (hclear : ∀ pair ∈ constants.entries, pair.2.verbatims = []) :
    let n := normalizeText text source constants
    List.Forall₂ (fun raw d => d.Keeps text raw) n.value.verbatims
      (n.diagnostics.filter fun d => d.kind ≠ .structural) := by
  intro n
  let ctx : NormalizeContext := ⟨source, .ofText text, constants⟩
  have hknown : ∀ raw, ¬ constants.Holds raw := by
    rintro raw ⟨name, v, hv, hraw⟩
    rw [hclear _ (Bindings.mem_of_get? hv)] at hraw
    exact absurd hraw List.not_mem_nil
  have hreports := ctx.normalize_reports ((lex text 0).tokens.filter (!·.isNewline))
  have hvalue : (n.diagnostics.filter fun d => d.kind ≠ .structural) =
      (ctx.normalize ((lex text 0).tokens.filter (!·.isNewline))).diagnostics := by
    show (List.map _ _ ++ _).filter _ = _
    rw [List.filter_append, List.filter_eq_nil_iff.2, List.filter_eq_self.2, List.nil_append]
    · intro d hd
      obtain ⟨raw, -, hkeeps⟩ := hreports.keeps_of_mem hd
      simpa using hkeeps.kind_ne
    · intro d hd
      obtain ⟨p, -, rfl⟩ := List.mem_map.1 hd
      simp [Diagnostic.kind_ofProblem]
  rw [hvalue]
  exact hreports.forall₂ hknown

/-- Code in the body of a heredoc, in parentheses, in a hash and in a text inside a text. -/
theorem normalizeText_reports_nested :
    let text : Text := Text.ofString ("[<<~E, \x7b'k' => (bar baz), l: [K, v]\x7d, " ++
      "\x22a#\x7b\x22b#\x7bfoo(1)\x7d\x22\x7d\x22]\n  c#\x7bqux 1\x7d\nE\n")
    let constants : Bindings Value := .ofList [("v", .ofText "w")]
    let n := normalizeText text "recipe.rb" constants
    (∀ pair ∈ constants.entries, pair.2.verbatims = []) ∧
      n.value.verbatims = ["qux 1", "bar baz", "K", "foo(1)"] ∧
      List.Forall₂ (fun raw d => d.Keeps text raw) n.value.verbatims
        (n.diagnostics.filter fun d => d.kind ≠ .structural) := by
  intro text constants n
  have hclear : ∀ pair ∈ constants.entries, pair.2.verbatims = [] := by decide +kernel
  exact ⟨hclear, by decide +kernel, normalizeText_reports_verbatims text "recipe.rb" hclear⟩

end Cookbook
