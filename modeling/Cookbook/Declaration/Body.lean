import Cookbook.Declaration.Basic
import Cookbook.Statement.Basic
import Cookbook.Value.Normalize

/-!
The body of a resource block: actions, guards, notifications and properties. Everything else in it
is reported; of a conditional only the first branch is read.
-/

namespace Cookbook

/-- What has been read of a resource block, each list in order. -/
structure ResourceBody where
  actions : List Text
  properties : List Property
  guards : List Guard
  notifications : List Notification
  diagnostics : List Diagnostic

namespace ResourceBody

/-- A block in which nothing stands, about which some warnings were noted before. -/
def start (diagnostics : List Diagnostic) : ResourceBody := ⟨[], [], [], [], diagnostics⟩

def report (b : ResourceBody) (ctx : NormalizeContext) (span : Span) (finding : Finding) :
    ResourceBody :=
  { b with diagnostics := b.diagnostics ++ [⟨finding, ctx.source, span, none⟩] }

/-- The value of a run, with its warnings noted. -/
def value (b : ResourceBody) (ctx : NormalizeContext) (run : List Token) : Value × ResourceBody :=
  let n := ctx.normalize run
  (n.value, { b with diagnostics := b.diagnostics ++ n.diagnostics })

def values (b : ResourceBody) (ctx : NormalizeContext) (runs : List (List Token)) :
    List Value × ResourceBody :=
  let (values, diagnostics) := Normalized.gather (runs.map ctx.normalize)
  (values, { b with diagnostics := b.diagnostics ++ diagnostics })

def addProperty (b : ResourceBody) (name : Text) (v : Value) (span : Span) : ResourceBody :=
  { b with properties := b.properties ++ [⟨name, v, span⟩] }

def addGuard (b : ResourceBody) (kind : GuardKind) (form : GuardForm) (span : Span) :
    ResourceBody :=
  { b with guards := b.guards ++ [⟨kind, form, span⟩] }

/-! ### Notifications -/

/-- The only argument of a call of `resources`: a reference, or a type with a name. -/
def resourcesArgument? (run : List Token) : Option Argument := do
  if !run.head?.any (·.isIdent ["resources"]) then none
  else
    let call ← Call.ofRun? run
    match call.trailing, call.args with
    | [], [arg] => return arg
    | _, _ => none

def target (b : ResourceBody) (ctx : NormalizeContext) (run : List Token) : Value × ResourceBody :=
  match resourcesArgument? run with
  | some (.positional tokens) => b.value ctx tokens
  | some (.keyword key _ tokens) =>
    let (name, b) := b.value ctx tokens
    (.interpolate [.ofText (key ++ "["), name, .ofText "]"], b)
  | none => b.value ctx run

/-- Whether a timing as declared means that the action runs at once. -/
def isImmediate (timing : Text) : Bool :=
  (["immediately", "immediate", "before"] : List Text).contains timing

/-- The timing a run declares; an unknown one is reported and counts as delayed. -/
def timing (b : ResourceBody) (ctx : NormalizeContext) (span : Span) (run : Option (List Token)) :
    Text × ResourceBody :=
  match run with
  | none => ("delayed", b)
  | some run =>
    let (v, b) := b.value ctx run
    match v.literalText?.filter fun t => t == ("delayed" : Text) || isImmediate t with
    | some timing => (timing, b)
    | none => ("delayed", b.report ctx span (.unknownTiming (sourceOf ctx.text run)))

/-- A notification: an action, a target, and perhaps a timing. -/
def notification (b : ResourceBody) (ctx : NormalizeContext) (direction : Direction) (span : Span)
    (runs : List (List Token)) : ResourceBody :=
  match runs with
  | actionRun :: targetRun :: rest =>
    let (v, b) := b.value ctx actionRun
    match v.literalText? with
    | none => b.report ctx span (.notificationAction direction)
    | some action =>
      let (target, b) := b.target ctx targetRun
      let (declared, b) := b.timing ctx span rest.head?
      let b := if declared = ("before" : Text) then b.report ctx span .beforeTiming else b
      let timing := if isImmediate declared then Timing.immediately else .delayed
      let n : Notification := ⟨action, target, timing, declared, direction, span⟩
      { b with notifications := b.notifications ++ [n] }
  | _ => b.report ctx span (.incompleteNotification direction)

/-! ### Guards -/

/-- The text after a list of block parameters at its start. -/
def dropParams (code : Text) : Text :=
  match code.trimStart with
  | c :: rest =>
    if c = '|' ∧ rest.contains '|' then (rest.dropWhile fun (u : CodeUnit) => u != '|').tail
    else code
  | [] => code

/-- The code of a block, without its parameters. -/
def blockCode (text : Text) (block : Block) (fallback : Nat) : Text :=
  let stop := (block.closer.map Token.start).getD fallback
  Text.trim (dropParams (text.slice block.opener.stop stop))

/-- Whether a guard's value is a command; anything else is code. -/
def isCommandValue : Value → Bool
  | .literal _ | .symbol _ | .interpolation _ | .path _ _ => true
  | _ => false

/-- A guard: a block of code or a command. -/
def guard (b : ResourceBody) (ctx : NormalizeContext) (kind : GuardKind) (c : Command) (span : Span)
    (runs : List (List Token)) : ResourceBody :=
  match c.block with
  | some block =>
    let code := blockCode ctx.text block c.extent.stop
    b.addGuard kind (.block (.verbatim code) code) span
  | none =>
    match runs with
    | [] => b.report ctx span (.emptyGuard kind)
    | run :: _ =>
      let (v, b) := b.value ctx run
      if isCommandValue v then b.addGuard kind (.command v) span
      else
        let code := sourceOf ctx.text run
        b.addGuard kind (.block (.verbatim code) code) span

/-! ### Actions and properties -/

def actionNames? : Value → Option (List Text)
  | .list items => items.mapM Value.literalText?
  | v => v.literalText?.map ([·])

/-- The actions of the resource; under a condition they replace those before. -/
def action (b : ResourceBody) (ctx : NormalizeContext) (conditional : Bool) (c : Command)
    (span : Span)
    (runs : List (List Token)) : ResourceBody :=
  let (names, b) := match runs with
    | [] => (none, b)
    | run :: _ =>
      let (v, b) := b.value ctx run
      (actionNames? v, b)
  match names with
  | none => b.report ctx span (.actionNotLiteral (sourceOf ctx.text c.head.tail))
  | some names => { b with actions := (if conditional then [] else b.actions) ++ names }

/-- A property: one value, a hash of keyword arguments, a list of several arguments, true for none
at all, or the code of a block. -/
def property (b : ResourceBody) (ctx : NormalizeContext) (name : Text) (c : Command) (span : Span)
    (args : List Argument) : ResourceBody :=
  match c.block with
  | some block =>
    let start := (c.head.tail.head?.map Token.start).getD block.opener.start
    let stop := (block.closer.map Token.stop).getD c.extent.stop
    let raw := ctx.text.slice start stop
    (b.addProperty name (.verbatim raw) span).report ctx span (.codeBlock name)
  | none =>
    match args with
    | [] => b.addProperty name (.literal (.bool true)) span
    | [.positional run] =>
      let (v, b) := b.value ctx run
      b.addProperty name v span
    | _ =>
      match args.mapM Argument.keyword? with
      | some pairs =>
        let (values, b) := b.values ctx (pairs.map (·.2))
        b.addProperty name (.map ((pairs.zip values).map fun (pair, v) => ⟨pair.1, v⟩)) span
      | none =>
        let (values, b) := b.values ctx (args.filterMap Argument.positional?)
        b.addProperty name (.list values) span

end ResourceBody

/-- Whether the token after a head word makes the statement an expression and not a call. -/
def Token.continuesExpression (t : Token) : Bool :=
  t.isPunct ["=", ".", "&.", "::", "<<", "+=", "-=", "||=", "&&=", "=="] ||
    (t.isPunct ["["] && !t.spaceBefore)

/-- The word and the arguments of a command that is a plain call. -/
def Command.plainCall? (c : Command) : Option (Text × List Argument) := do
  let word ← c.head.head?.bind (·.valueOf? .ident)
  let call ← Call.ofRun? c.head
  if call.trailing.isEmpty then return (word, call.args) else none

namespace ResourceBody

def command (b : ResourceBody) (ctx : NormalizeContext) (inBranch : Bool) (c : Command) :
    ResourceBody :=
  let span := ctx.lines.span c.extent.start c.extent.stop
  let b := match c.modifier with
    | some m => b.report ctx span (.modifiedProperty m.word.text)
    | none => b
  match if c.head.tail.head?.any Token.continuesExpression then none else c.plainCall? with
  | none => b.report ctx span (.statementInBody (sourceOf ctx.text c.head))
  | some (word, args) =>
    let runs := args.filterMap Argument.positional?
    if word = ("action" : Text) then b.action ctx (inBranch || c.modifier.isSome) c span runs
    else if word = ("only_if" : Text) then b.guard ctx .onlyIf c span runs
    else if word = ("not_if" : Text) then b.guard ctx .notIf c span runs
    else if word = ("notifies" : Text) then b.notification ctx .notifies span runs
    else if word = ("subscribes" : Text) then b.notification ctx .subscribes span runs
    else b.property ctx word c span args

end ResourceBody

mutual

/-- One statement of a resource block; `inBranch` when it stands under a condition. -/
def Statement.readBody (ctx : NormalizeContext) (inBranch : Bool) :
    Statement → ResourceBody → ResourceBody
  | .command c, b => b.command ctx inBranch c
  | .conditional ⟨extent, _, _, branches, _, _⟩, b =>
    readFirstBranch ctx branches
      (b.report ctx (ctx.lines.span extent.start extent.stop) .conditionalProperties)
  | .compound ⟨extent, _, _, opener, _⟩, b =>
    b.report ctx (ctx.lines.span extent.start extent.stop) (.compoundInBody opener.text)

def readBodyList (ctx : NormalizeContext) (inBranch : Bool) :
    List Statement → ResourceBody → ResourceBody
  | [], b => b
  | s :: rest, b => readBodyList ctx inBranch rest (s.readBody ctx inBranch b)

def readFirstBranch (ctx : NormalizeContext) : List Branch → ResourceBody → ResourceBody
  | [], b => b
  | ⟨_, _, body, _⟩ :: _, b => readBodyList ctx true body b

end

end Cookbook
