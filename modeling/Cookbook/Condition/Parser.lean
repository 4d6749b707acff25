import Cookbook.Condition.Command
import Cookbook.Value.Normalize

/-!
Conditions from code. A condition is read only as a whole: when a piece falls outside the known
forms there is none, and callers keep the code as written. Comparisons bind tighter than negation,
negation tighter than conjunction, conjunction tighter than disjunction.
-/

namespace Cookbook

/-! ### Operands -/

/-- The comparison a token stands for. -/
def Token.compareOp? (t : Token) : Option CompareOp := (t.valueOf? .punct).bind CompareOp.ofSign?

/-- Whether a token joins the parts of a conjunction. -/
def Token.isAnd (t : Token) : Bool := t.isPunct ["&&"] || t.isKeyword ["and"]

/-- Whether a token joins the parts of a disjunction. -/
def Token.isOr (t : Token) : Bool := t.isPunct ["||"] || t.isKeyword ["or"]

/-- Whether a token ends a group: a join or a closing parenthesis. -/
def Token.endsGroup (t : Token) : Bool := t.isAnd || t.isOr || t.isPunct [")"]

/-- The number of tokens of the operand at the start of a run: up to a join, a comparison or a
closing parenthesis outside brackets. None when a bracket in it is not closed. `skip` counts the
tokens already known to belong to it. -/
def operandLength? : (skip : Nat) → List Token → Option Nat
  | _, [] => some 0
  | skip + 1, _ :: rest => (operandLength? skip rest).map (· + 1)
  | 0, t :: rest =>
    if t.endsGroup || t.compareOp?.isSome then some 0
    else if t.isOpener then do
      let n ← closing? 0 (t :: rest)
      return (← operandLength? n rest) + 1
    else (operandLength? 0 rest).map (· + 1)

/-- The operand at the start of a run, and the rest. -/
def operand? (run : List Token) : Option (List Token × List Token) :=
  (operandLength? 0 run).map fun n => (run.take n, run.drop n)

namespace NormalizeContext

/-- The value of a run of at least one token, when none of it is kept as written. -/
def clearValue? (ctx : NormalizeContext) (run : List Token) : Option Value :=
  if run.isEmpty then none
  else
    let v := (ctx.normalize run).value
    if v.isClear then some v else none

/-! ### Predicates -/

/-- The test under a name, or the member that it names. -/
def testNamed? (name : Text) (tests : List (Text × TestKind)) : Option TestKind :=
  (lookup? name tests).or ((Inherited.ofName? name).map .inherited)

/-- The test of a method of `File` or `Dir`. -/
def fileTest? (receiver method : Text) : Option TestKind :=
  if receiver = ("File" : Text) then
    testNamed? method
      [("exist?", .pathExists), ("exists?", .pathExists), ("file?", .fileExists),
       ("directory?", .directoryExists)]
  else if receiver = ("Dir" : Text) then
    testNamed? method [("exist?", .directoryExists), ("exists?", .directoryExists)]
  else none

def platformTest? (name : Text) : Option TestKind :=
  testNamed? name [("platform?", .platform), ("platform_family?", .platformFamily)]

/-- A call with one command as its argument, when the command is a known test. -/
def commandCall? (ctx : NormalizeContext) (run : List Token) : Option Condition := do
  let call ← Call.ofRun? run
  match call.args with
  | [.positional tokens] => matchCommand? (← ctx.clearValue? tokens)
  | _ => none

/-- A test of a file: the call that `run` spells, with the path as its first argument. -/
def fileCall? (ctx : NormalizeContext) (test : TestKind) (run : List Token) : Option Condition := do
  let call ← Call.ofRun? run
  match call.trailing, call.args with
  | [], .positional tokens :: _ => return .test test (← ctx.clearValue? tokens)
  | _, _ => none

/-- A test of the platform: the names may be given one by one or in lists. -/
def platformCall? (ctx : NormalizeContext) (test : TestKind) (run : List Token) :
    Option Condition := do
  let call ← Call.ofRun? run
  if !call.trailing.isEmpty || call.args.isEmpty then none
  else
    let runs ← call.args.mapM Argument.positional?
    let values ← runs.mapM ctx.clearValue?
    let names := values.flatMap fun
      | .list items => items
      | v => [v]
    match names with
    | [only] => return .test test only
    | _ => return .test test (.list names)

def nilTest? (ctx : NormalizeContext) (run : List Token) : Option Condition :=
  match run.reverse with
  | method :: dot :: subject =>
    if method.isIdent ["nil?"] && dot.isPunct ["."] then
      (ctx.clearValue? subject.reverse).map fun v => .compare v .eq .nil
    else none
  | _ => none

/-- The condition that an operand is by itself, when it calls a known predicate. -/
def predicate? (ctx : NormalizeContext) (run : List Token) : Option Condition :=
  let body := if run.head?.any (·.isPunct ["::"]) then run.tail else run
  let method? : Option (Text × Text × List Token) :=
    match body with
    | receiver :: dot :: method :: rest =>
      if dot.isPunct ["."] then do
        return (← receiver.valueOf? .const, ← method.valueOf? .ident, method :: rest)
      else none
    | _ => none
  match method? with
  | some (receiver, method, call) => do ctx.fileCall? (← fileTest? receiver method) call
  | none =>
    let head := run.head?.bind (·.valueOf? .ident)
    match head.bind platformTest? with
    | some test => ctx.platformCall? test run
    | none =>
      if head = some ("system" : Text) then do
        let call ← Call.ofRun? run
        if call.trailing.isEmpty then ctx.commandCall? run else none
      else ctx.nilTest? run

/-- A comparison of the exit status of a command with zero. -/
def exitStatus? (ctx : NormalizeContext) (left : List Token) (op : CompareOp) (right : List Token) :
    Option Condition := do
  let call ← Call.ofRun? left
  let isZero := match right with
    | [t] => t.isOneOf .number ["0"]
    | _ => false
  let asksStatus := match call.trailing with
    | [dot, method] => dot.isPunct ["."] && method.isIdent ["exitstatus"]
    | _ => false
  if call.name.isIdent ["shell_out", "shell_out!"] && asksStatus && isZero then
    let test ← ctx.commandCall? (left.take (left.length - call.trailing.length))
    match op with
    | .eq => return test
    | .ne => return .not test
    | _ => none
  else none

/-- The comparison, predicate or plain value at the start of a run, and the rest. -/
def comparison? (ctx : NormalizeContext) (run : List Token) : Option (Condition × List Token) := do
  let (left, rest) ← operand? run
  match rest.head?.bind Token.compareOp? with
  | some op =>
    let (right, rest) ← operand? rest.tail
    match ctx.exitStatus? left op right with
    | some c => return (c, rest)
    | none => return (.compare (← ctx.clearValue? left) op (← ctx.clearValue? right), rest)
  | none =>
    let constant : Option Bool := match left with
      | [t] =>
        if t.isKeyword ["true"] then some true
        else if t.isKeyword ["false"] then some false
        else none
      | _ => none
    match constant with
    | some b => return (.const b, rest)
    | none =>
      match ctx.predicate? left with
      | some c => return (c, rest)
      | none => return (.truthy (← ctx.clearValue? left), rest)

/-! ### Joins -/

/-- Whether a parenthesis at the start of a run holds a whole operand: it is closed, and the run or
the group ends after it. -/
def opensGroup (run : List Token) : Bool :=
  match run with
  | t :: _ =>
    t.isPunct ["("] && match closing? 0 run with
      | some n => (run[n + 1]?).all Token.endsGroup
      | none => false
  | [] => false

mutual

/-- A disjunction at the start of a run, and the rest. -/
def disjunction? (ctx : NormalizeContext) : (fuel : Nat) → List Token → Option
    (Condition × List Token)
  | 0, _ => none
  | fuel + 1, run => do
    let (first, rest) ← disjunct? ctx fuel run
    let (more, rest) ← moreDisjuncts? ctx fuel rest
    return (if more.isEmpty then first else .any (first :: more), rest)

/-- The parts of a disjunction after the first. -/
def moreDisjuncts? (ctx : NormalizeContext) :
    (fuel : Nat) → List Token → Option (List Condition × List Token)
  | 0, _ => none
  | fuel + 1, run =>
    if run.head?.any Token.isOr then do
      let (next, rest) ← disjunct? ctx fuel run.tail
      let (more, rest) ← moreDisjuncts? ctx fuel rest
      return (next :: more, rest)
    else some ([], run)

/-- A conjunction at the start of a run, and the rest. -/
def disjunct? (ctx : NormalizeContext) : (fuel : Nat) → List Token → Option (Condition × List Token)
  | 0, _ => none
  | fuel + 1, run => do
    let (first, rest) ← conjunct? ctx fuel run
    let (more, rest) ← moreConjuncts? ctx fuel rest
    return (if more.isEmpty then first else .all (first :: more), rest)

def moreConjuncts? (ctx : NormalizeContext) :
    (fuel : Nat) → List Token → Option (List Condition × List Token)
  | 0, _ => none
  | fuel + 1, run =>
    if run.head?.any Token.isAnd then do
      let (next, rest) ← conjunct? ctx fuel run.tail
      let (more, rest) ← moreConjuncts? ctx fuel rest
      return (next :: more, rest)
    else some ([], run)

/-- A negation, a group or a comparison at the start of a run, and the rest. -/
def conjunct? (ctx : NormalizeContext) : (fuel : Nat) → List Token → Option (Condition × List Token)
  | 0, _ => none
  | fuel + 1, run =>
    if run.head?.any fun t => t.isPunct ["!"] || t.isKeyword ["not"] then do
      let (inner, rest) ← conjunct? ctx fuel run.tail
      return (.not inner, rest)
    else if opensGroup run then do
      let (inner, rest) ← disjunction? ctx fuel run.tail
      if rest.head?.any (·.isPunct [")"]) then return (inner, rest.tail) else none
    else ctx.comparison? run

end

/-- The condition that a whole run spells. No step needs more than four calls per token. -/
def condition? (ctx : NormalizeContext) (run : List Token) : Option Condition :=
  match disjunction? ctx (4 * (run.length + 1)) run with
  | some (c, []) => some c
  | _ => none

end NormalizeContext

/-- The condition that code spells. Line ends and semicolons in it do not count. -/
def parseCondition? (code : Text) (constants : Bindings Value) : Option Condition :=
  let run := (lexInline code 0).filter (!·.isPunct [";"])
  if run.isEmpty then none else NormalizeContext.condition? ⟨[], .ofText code, constants⟩ run

/-- The value that code spells, when none of it is kept as written. -/
def clearValueOf? (code : Text) (constants : Bindings Value) : Option Value :=
  NormalizeContext.clearValue? ⟨[], .ofText code, constants⟩ (lexInline code 0)

/-- The condition of a `case` branch: the subject equals one of the values. -/
def parseMatch? (subject : Text) (values : List Text) (constants : Bindings Value) :
    Option Condition := do
  let left ← clearValueOf? subject constants
  let rights ← values.mapM (clearValueOf? · constants)
  match rights.map fun right => Condition.compare left .eq right with
  | [] => none
  | [only] => return only
  | compares => return .any compares

end Cookbook
