import Cookbook.Position
import Cookbook.Problem
import Cookbook.Token.Basic

/-!
Statements: the tree of a file. A command is a run of tokens with perhaps a block and a trailing
modifier; a conditional has branches; a compound statement is any other keyword with a body.
-/

namespace Cookbook

/-- The keywords that may trail a command. -/
inductive ModifierWord where
  | whenTrue | unlessTrue | whileTrue | untilTrue
deriving DecidableEq

/-- A trailing modifier: its keyword, its condition, and the offset of the keyword. -/
structure Modifier where
  word : ModifierWord
  condition : List Token
  start : Nat

def ModifierWord.text : ModifierWord → Text
  | whenTrue => "if"
  | unlessTrue => "unless"
  | whileTrue => "while"
  | untilTrue => "until"

/-- The keywords that open a conditional. -/
inductive ConditionalWord where
  | ifTrue | unlessTrue | caseOf
deriving DecidableEq

def ConditionalWord.text : ConditionalWord → Text
  | ifTrue => "if"
  | unlessTrue => "unless"
  | caseOf => "case"

/-- The keywords that open a branch. -/
inductive BranchWord where
  | ifTrue | elsif | unlessTrue | matching | otherwise
deriving DecidableEq

def BranchWord.text : BranchWord → Text
  | ifTrue => "if"
  | elsif => "elsif"
  | unlessTrue => "unless"
  | matching => "when"
  | otherwise => "else"

/-- The two notations for a block. -/
inductive BlockKind where
  | doEnd | brace
deriving DecidableEq

def BlockKind.closes (kind : BlockKind) (t : Token) : Bool :=
  match kind with
  | doEnd => t.isKeyword ["end"]
  | brace => t.isPunct ["\x7d"]

/-- What is wrong when a block of this notation is not closed. -/
def BlockKind.fault : BlockKind → Fault
  | doEnd => .openDo
  | brace => .openBrace

/-- Where a statement lies: its offsets, and the index of its first token in the file. -/
structure Extent where
  start : Nat
  stop : Nat
  firstIndex : Nat
deriving DecidableEq

mutual

/-- A statement. -/
inductive Statement where
  | command (c : Command)
  | conditional (c : Conditional)
  | compound (c : Compound)

/-- A command: its head, the block it owns, further blocks inside the head, and its modifier. -/
structure Command where
  extent : Extent
  head : List Token
  block : Option Block
  innerBlocks : List Block
  modifier : Option Modifier

/-- A block; one without a closer was never closed. -/
structure Block where
  kind : BlockKind
  opener : Token
  closer : Option Token
  params : List Text
  body : List Statement

/-- An `if`, `unless` or `case` with its branches. -/
structure Conditional where
  extent : Extent
  word : ConditionalWord
  subject : List Token
  branches : List Branch
  opener : Token
  closer : Option Token

structure Branch where
  word : BranchWord
  condition : List Token
  body : List Statement
  start : Nat

/-- Any other statement with a body: `begin`, `def`, `class`, `module` or a loop. -/
structure Compound where
  extent : Extent
  head : List Token
  body : List Statement
  opener : Token
  closer : Option Token

end

def Compound.keyword (c : Compound) : Text := c.opener.text

def Statement.extent : Statement → Extent
  | .command c => c.extent
  | .conditional c => c.extent
  | .compound c => c.extent

/-- A file: its text, lines and tokens, its statements, and what is wrong with its structure. -/
structure Program where
  lines : LineIndex
  tokens : List Token
  statements : List Statement
  problems : List Problem

def Program.text (p : Program) : Text := p.lines.text

/-- The stretch of a statement. -/
def Program.spanOf (p : Program) (e : Extent) : Span := p.lines.span e.start e.stop

def Program.sourceOf (p : Program) (run : List Token) : Text := Cookbook.sourceOf p.text run

end Cookbook
