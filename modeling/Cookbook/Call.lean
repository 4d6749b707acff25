import Cookbook.Token.Basic

/-!
Calls as runs of tokens: matching brackets, splitting at separators outside brackets, and reading a
name with its positional and keyword arguments, with or without parentheses.
-/

namespace Cookbook

/-! ### Brackets -/

/-- The bracket depth after a token. Closers without openers take it below zero. -/
def depthAfter (depth : Int) (t : Token) : Int :=
  if t.isOpener then depth + 1 else if t.isCloser then depth - 1 else depth

/-- How far on the bracket stands that brings the depth back to zero. -/
def closing? (depth : Int) : List Token → Option Nat
  | [] => none
  | t :: rest =>
    let depth := depthAfter depth t
    if t.isCloser ∧ depth = 0 then some 0 else (closing? depth rest).map (· + 1)

/-- The index of the bracket that closes the opener at index `start`. -/
def closingIndex? (tokens : List Token) (start : Nat) : Option Nat :=
  (closing? 0 (tokens.drop start)).map (· + start)

/-- The pieces of a run between the separators at depth zero; at least one piece. -/
def pieces (separator : Text) (depth : Int) : List Token → List (List Token)
  | [] => [[]]
  | t :: rest =>
    let depth := depthAfter depth t
    if depth = 0 ∧ t.isPunct [separator] then [] :: pieces separator depth rest
    else match pieces separator depth rest with
      | [] => [[t]]
      | piece :: more => (t :: piece) :: more

/-- The pieces of a run between the separators outside brackets. Separators may leave empty pieces;
an empty run has no piece. -/
def splitTopLevel (separator : Text) (run : List Token) : List (List Token) :=
  if run.isEmpty then [] else pieces separator 0 run

/-! ### Arguments -/

/-- An argument of a call: a value, or a key with a value. -/
inductive Argument where
  | positional (tokens : List Token)
  | keyword (key : Text) (keyToken : Token) (tokens : List Token)

namespace Argument

/-- The key a piece starts with, its token, and the number of tokens up to the value: a label, or a
symbol or plain string before `=>`, or a plain string with a colon right after it. -/
def key? : List Token → Option (Text × Token × Nat)
  | [] => none
  | first :: rest =>
    let arrow := rest.head?.any (·.isPunct ["=>"])
    let colon := rest.head?.any fun t => t.isPunct [":"] && !t.spaceBefore
    match first.content with
    | .name .label value => some (value, first, 1)
    | .name .symbol value => if arrow then some (value, first, 2) else none
    | .string flavor parts =>
      if flavor = .heredoc then none
      else if arrow || colon then (StringPart.plain? parts).map (·, first, 2)
      else none
    | _ => none

/-- The argument a piece spells. -/
def ofPiece (piece : List Token) : Argument :=
  match key? piece with
  | some (key, token, n) => .keyword key token (piece.drop n)
  | none => .positional piece

def tokens : Argument → List Token
  | positional tokens => tokens
  | keyword _ _ tokens => tokens

def positional? : Argument → Option (List Token)
  | positional tokens => some tokens
  | keyword _ _ _ => none

def keyword? : Argument → Option (Text × List Token)
  | positional _ => none
  | keyword key _ tokens => some (key, tokens)

/-- The arguments in a run, separated by commas; empty pieces are passed over. -/
def ofRun (run : List Token) : List Argument :=
  ((splitTopLevel "," run).filter (!·.isEmpty)).map ofPiece

end Argument

/-- A call: a name, its arguments, and the tokens after its closing parenthesis. -/
structure Call where
  name : Token
  args : List Argument
  trailing : List Token

namespace Call

/-- The call a run spells. A parenthesis right after the name holds the arguments; one after a blank
belongs to the first argument. -/
def ofRun? : List Token → Option Call
  | [] => none
  | name :: rest =>
    if rest.head?.any fun t => t.isPunct ["("] && !t.spaceBefore then
      match closing? 0 rest with
      | none => some ⟨name, Argument.ofRun rest.tail, []⟩
      | some n => some ⟨name, Argument.ofRun ((rest.take n).drop 1), rest.drop (n + 1)⟩
    else some ⟨name, Argument.ofRun rest, []⟩

def positional (call : Call) : List (List Token) := call.args.filterMap Argument.positional?

def keywordArgs (call : Call) : List (Text × List Token) := call.args.filterMap Argument.keyword?

end Call

end Cookbook
