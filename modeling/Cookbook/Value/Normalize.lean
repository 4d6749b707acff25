import Cookbook.Call
import Cookbook.Diagnostic.Basic
import Cookbook.Number.Reading
import Cookbook.Token.Lexer
import Cookbook.Value.Basic

/-!
From tokens to values. Every run of tokens has a value: what fits none of the recognized forms is
kept as written, with one warning for the outermost such piece. Code inside a text is read again
from its own tokens. Each step goes to a shorter run or to a shorter piece of code, which bounds
the depth of the reading.
-/

namespace Cookbook

/-- What the reader of values knows: the file, its lines, and the names in force. -/
structure NormalizeContext where
  source : Text
  lines : LineIndex
  constants : Bindings Value

/-- A value with the warnings about it. -/
structure Normalized where
  value : Value
  diagnostics : List Diagnostic

namespace Normalized

def clean (v : Value) : Normalized := ⟨v, []⟩

/-- The values, and all their warnings in order. -/
def gather (ns : List Normalized) : List Value × List Diagnostic :=
  (ns.map (·.value), ns.flatMap (·.diagnostics))

end Normalized

/-! ### Keys of attribute paths -/

/-- The methods that end a path and are not keys. -/
def valueMethods : List Text :=
  ["to_s", "to_i", "to_f", "to_a", "to_h", "to_sym", "join", "split", "strip", "upcase", "downcase",
   "keys", "values", "each", "map", "first", "last", "size", "length", "merge", "fetch",
   "dig"].map Text.ofString

/-- The key that one token between brackets gives: a text without code, a symbol, a number as
spelled, or a name that stands for a literal. -/
def keyText? (constants : Bindings Value) (t : Token) : Option Text :=
  match t.content with
  | .string flavor parts => if flavor = .backtick then none else StringPart.plain? parts
  | .name .symbol value => some value
  | .name .number value => some value
  | .name .ident value => ((constants.get? value).bind Value.scalar?).map Scalar.keyText
  | .name .const value => ((constants.get? value).bind Value.scalar?).map Scalar.keyText
  | _ => none

/-- Whether a name after a dot is a key: no method that computes, tests or changes a value. -/
def isDottedKey (name : Text) (next : Option Token) : Bool :=
  !valueMethods.contains name && name.getLast? != some '?' && name.getLast? != some '!' &&
    !next.any (·.isPunct ["("])

/-- The keys that follow the root of a path, and the number of tokens they take; none when a key
between brackets is not known. Keys after dots count only where `dotted` allows them. -/
def readKeys (dotted : Bool) (constants : Bindings Value) : List Token → Option (List Text × Nat)
  | [] => some ([], 0)
  | t :: rest =>
    if t.isPunct ["["] && !t.spaceBefore then
      match rest with
      | key :: close :: rest =>
        if close.isPunct ["]"] then do
          let key ← keyText? constants key
          let (keys, n) ← readKeys dotted constants rest
          return (key :: keys, n + 3)
        else none
      | _ => none
    else if dotted && t.isPunct ["."] then
      match rest with
      | key :: rest =>
        match key.valueOf? .ident with
        | some name =>
          if isDottedKey name rest.head? then do
            let (keys, n) ← readKeys dotted constants rest
            return (name :: keys, n + 2)
          else some ([], 0)
        | none => some ([], 0)
      | [] => some ([], 0)
    else some ([], 0)

namespace NormalizeContext

def text (ctx : NormalizeContext) : Text := ctx.lines.text

def spanOf (ctx : NormalizeContext) (run : List Token) : Span :=
  match run.head?, run.getLast? with
  | some first, some last => ctx.lines.span first.start last.stop
  | _, _ => ctx.lines.spot 0

/-- The run kept as written, with a warning. -/
def keep (ctx : NormalizeContext) (run : List Token) (finding : Text → Finding) : Normalized :=
  let raw := sourceOf ctx.text run
  ⟨.verbatim raw, [⟨finding raw, ctx.source, ctx.spanOf run, none⟩]⟩

/-! ### Literals -/

/-- The value of a number's digits. A decimal integer that binary64 would round keeps its digits as
text. -/
def number? (digits : Text) (negative : Bool) : Option Value := do
  let n ← Number.ofText? digits
  if digits.isDigits && !n.isSafeInteger then
    return .ofText (if negative then "-" ++ digits else digits)
  else return .literal (.number (if negative then -n else n))

/-- The digits of a number token without the underscores that group them. -/
def digitsOf (spelling : Text) : Text := spelling.filter (· != '_')

/-- The value of a number token; a file mode keeps its spelling. -/
def numberToken? (spelling : Text) : Option Value :=
  let digits := digitsOf spelling
  if digits.isFileMode then some (.ofText digits) else number? digits false

/-- The value of a part of a text: code is read from its own tokens, and code without tokens is
nothing. -/
def part? (whole : List Token → Normalized) : StringPart → Option Normalized
  | .text value => some (.clean (.ofText value))
  | .code source offset =>
    match lexInline source offset with
    | [] => none
    | run => some (whole run)

def stringValue (ctx : NormalizeContext) (whole : List Token → Normalized) (t : Token)
    (flavor : Flavor) (parts : List StringPart) : Normalized :=
  if flavor = .backtick then ctx.keep [t] .unrecognizedValue
  else match StringPart.plain? parts with
    | some text => .clean (if flavor = .symbol then .symbol text else .ofText text)
    | none =>
      let (values, diagnostics) := Normalized.gather (parts.filterMap (part? whole))
      ⟨.interpolate values, diagnostics⟩

/-! ### Compound values -/

/-- The entries of a hash; none when an argument has no key. -/
def entries? (whole : List Token → Normalized) (args : List Argument) :
    Option (List Entry × List Diagnostic) := do
  let pairs ← args.mapM Argument.keyword?
  let values := pairs.map fun (key, tokens) => (key, whole tokens)
  return (values.map fun (key, n) => ⟨key, n.value⟩, values.flatMap fun (_, n) => n.diagnostics)

/-- The path that starts at the identifier `root`, and the number of tokens it takes. -/
def path? (ctx : NormalizeContext) (root : Text) (rest : List Token) : Option (Value × Nat) := do
  let (scope, lead) ←
    if root = ("node" : Text) then
      match rest with
      | dot :: level :: _ =>
        match (level.valueOf? .ident).bind Scope.ofWord? with
        | some scope =>
          if dot.isPunct ["."] && scope != .node && scope != .newResource then some (scope, 2)
          else some (.node, 0)
        | none => some (.node, 0)
      | _ => some (.node, 0)
    else (Scope.ofWord? root).map (·, 0)
  let dotted := scope == .node || scope == .newResource
  let (keys, n) ← readKeys dotted ctx.constants (rest.drop lead)
  if keys.isEmpty then none else return (.path scope keys, 1 + lead + n)

/-- The value between the bracket that opens a run and its closer, and the number of tokens
taken. -/
def bracketed? (whole : List Token → Normalized) (opener : Token) (run : List Token) :
    Option (Normalized × Nat) := do
  let n ← closing? 0 run
  let inner := (run.take n).drop 1
  if opener.isPunct ["["] then
    let (values, diagnostics) := Normalized.gather
      (((splitTopLevel "," inner).filter (!·.isEmpty)).map whole)
    return (⟨.list values, diagnostics⟩, n + 1)
  else if opener.isPunct ["\x7b"] then
    let (entries, diagnostics) ← entries? whole (Argument.ofRun inner)
    return (⟨.map entries, diagnostics⟩, n + 1)
  else if inner.isEmpty then none
  else return (whole inner, n + 1)

/-- The value at the start of a run, and the number of tokens it takes. -/
def primary? (ctx : NormalizeContext) (whole : List Token → Normalized) :
    List Token → Option (Normalized × Nat)
  | [] => none
  | t :: rest =>
    let next (values : List Text) : Bool := rest.head?.any (·.isPunct values)
    match t.content with
    | .string flavor parts => some (ctx.stringValue whole t flavor parts, 1)
    | .words words symbols =>
      some (.clean (.list (words.map fun w => if symbols then .symbol w else .ofText w)), 1)
    | .name .symbol value => some (.clean (.symbol value), 1)
    | .name .number value => (numberToken? value).map fun v => (.clean v, 1)
    | .name .keyword value =>
      if value = ("true" : Text) then some (.clean (.literal (.bool true)), 1)
      else if value = ("false" : Text) then some (.clean (.literal (.bool false)), 1)
      else if value = ("nil" : Text) then some (.clean .nil, 1)
      else none
    | .name .const value =>
      if next [".", "::", "("] then none
      else (ctx.constants.get? value).map fun v => (.clean v, 1)
    | .name .ident value =>
      match if next ["(", ".", "&.", "["] then none else ctx.constants.get? value with
      | some v => some (.clean v, 1)
      | none => (ctx.path? value rest).map fun (v, n) => (.clean v, n)
    | .name .punct value =>
      if value = ("-" : Text) then
        match rest with
        | digits :: _ =>
          if digits.spaceBefore then none
          else do
            let v ← number? (digitsOf (← digits.valueOf? .number)) true
            return (.clean v, 2)
        | [] => none
      else if t.isOpener then bracketed? whole t (t :: rest)
      else none
    | _ => none

/-- The value of a whole run, given how shorter runs are read. -/
def wholeRun (ctx : NormalizeContext) (whole : List Token → Normalized) (run : List Token) :
    Normalized :=
  let isUnknownConstant := match run with
    | [t] => (t.valueOf? .const).any fun name => !ctx.constants.contains name
    | _ => false
  if run.head?.any (·.isIdent ["lazy"]) then ctx.keep run .lazyValue
  else if isUnknownConstant then ctx.keep run .unknownConstant
  else
    let args := Argument.ofRun run
    match if args.isEmpty then none else entries? whole args with
    | some (entries, diagnostics) => ⟨.map entries, diagnostics⟩
    | none =>
      match ctx.primary? whole run with
      | some (n, taken) => if taken = run.length then n else ctx.keep run .unrecognizedValue
      | none => ctx.keep run .unrecognizedValue

/-- The value of a whole run, with a bound on the depth of the reading. -/
def readRun (ctx : NormalizeContext) : (fuel : Nat) → List Token → Normalized
  | 0, run => ctx.keep run .unrecognizedValue
  | fuel + 1, run => ctx.wholeRun (ctx.readRun fuel) run

/-- A bound on the depth: code in a text is shorter than the text, and a run inside a run shorter
than that run. -/
def fuel (ctx : NormalizeContext) (run : List Token) : Nat :=
  ctx.text.length * (ctx.text.length + 1) + run.length + 1

/-- The value of a run of tokens of the file; no token at all is nil. -/
def normalize (ctx : NormalizeContext) (run : List Token) : Normalized :=
  if run.isEmpty then .clean .nil else ctx.readRun (ctx.fuel run) run

end NormalizeContext

/-- The value of an expression given as text. -/
def normalizeText (text source : Text) (constants : Bindings Value) : Normalized :=
  let ctx : NormalizeContext := ⟨source, .ofText text, constants⟩
  let lexed := lex text 0
  let n := ctx.normalize (lexed.tokens.filter (!·.isNewline))
  ⟨n.value, lexed.problems.map (Diagnostic.ofProblem source ctx.lines) ++ n.diagnostics⟩

end Cookbook
