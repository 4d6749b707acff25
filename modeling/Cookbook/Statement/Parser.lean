import Cookbook.Statement.Cursor
import Cookbook.Token.Lexer

/-!
The statements of a file. Reading never fails: what is left open is reported, and reading resumes at
the next line that is indented no deeper than the opener. It may thus go back to a statement that
was read as part of a body, but never to or before the token at which the open statement starts, so
every nested call starts further right and a bound on the depth of calls can be told from the
number of tokens.
-/

namespace Cookbook

/-- A result with the cursor after it and the problems met. -/
structure Parsed (α : Type) where
  value : α
  cursor : Cursor
  problems : List Problem

/-- A command while its tokens are being read: the head so far (last token first), the brackets open
in it (innermost first), its block, further blocks (last first), and its modifier. -/
structure CommandDraft where
  head : List Token
  openers : List Token
  block : Option Block
  innerBlocks : List Block
  modifier : Option Modifier

namespace CommandDraft

def empty : CommandDraft := ⟨[], [], none, [], none⟩

/-- The draft with one more token of the head. -/
def push (d : CommandDraft) (t : Token) : CommandDraft :=
  { d with
    head := t :: d.head
    openers :=
      if t.isOpener then t :: d.openers
      else if t.isCloser then d.openers.tail
      else d.openers }

/-- The draft with a block: the first one outside brackets is the command's own. -/
def addBlock (d : CommandDraft) (block : Block) : CommandDraft :=
  if d.openers.isEmpty && d.block.isNone then { d with block := some block }
  else { d with innerBlocks := block :: d.innerBlocks }

/-- Whether a brace after the head so far opens a block and not a hash. -/
def braceOpensBlock (d : CommandDraft) : Bool :=
  match d.head.head? with
  | none => false
  | some t =>
    match t.content with
    | .name .ident _ | .name .const _ | .name .symbol _ | .string _ _ => true
    | _ => t.isPunct [")", "]"]

/-- Whether a keyword that could be a modifier opens a value: `case` and `begin` always do, others
after a token that a value must follow. -/
def opensValue (d : CommandDraft) (t : Token) : Bool :=
  t.isKeyword ["case", "begin"] ||
    d.head.head?.any (·.isPunct ["=", "(", ",", "||=", "&&=", "+=", "=>", "[", "||", "&&"])

/-- Whether the command goes on after a separator: inside brackets, after a token that leaves the
line unfinished, or when the next line starts with a method call. -/
def continuesPast (d : CommandDraft) (separator : Token) (rest : List Token) : Bool :=
  !d.openers.isEmpty || d.head.head?.any Token.continuesLine ||
    (separator.isNewline && rest.head?.any (·.isPunct [".", "&."]))

/-- Whether a token outside brackets ends the command. -/
def endsBefore (d : CommandDraft) (t : Token) : Bool :=
  d.openers.isEmpty &&
    (t.isKeyword ["end", "elsif", "else", "when", "rescue", "ensure"] || t.isCloser)

/-- The notation of the block that a token opens here, if it opens one. -/
def blockKind? (d : CommandDraft) (t : Token) : Option BlockKind :=
  if t.isKeyword ["do"] then some .doEnd
  else if d.openers.isEmpty && t.isPunct ["\x7b"] && d.braceOpensBlock then some .brace
  else none

def modifierWord (t : Token) : ModifierWord :=
  if t.isKeyword ["unless"] then .unlessTrue
  else if t.isKeyword ["while"] then .whileTrue
  else if t.isKeyword ["until"] then .untilTrue
  else .whenTrue

/-- The offset after the last thing that belongs to the command that starts with `first`. -/
def stop (d : CommandDraft) (first : Token) : Nat :=
  let blockStop := (d.block.map fun b => ((b.closer.map Token.stop).getD b.opener.stop)).getD 0
  let headStop := (d.head.head?.map Token.stop).getD first.stop
  let modifierStop := ((d.modifier.bind (·.condition.getLast?)).map Token.stop).getD 0
  max (max blockStop headStop) modifierStop

/-- The command at the cursor `start`, and the cursor after it. A bracket that was never closed cuts
the head at the token where reading resumes. -/
def finish (src : TokenSource) (d : CommandDraft) (first : Token) (start : Nat) (c : Cursor) :
    Parsed Command :=
  let build (d : CommandDraft) : Command :=
    ⟨⟨first.start, d.stop first, start⟩, d.head.reverse, d.block, d.innerBlocks.reverse, d.modifier⟩
  match d.openers with
  | [] => ⟨build d, c, []⟩
  | unclosed :: _ =>
    let index := src.resyncToken unclosed (start + 1)
    let kept := match src.tokens[index]? with
      | some t => d.head.dropWhile fun u => t.start ≤ u.start
      | none => d.head
    ⟨build { d with head := kept }, src.cursor (max index (start + 1)),
      [⟨.openBracket unclosed.text, unclosed.start⟩]⟩

end CommandDraft

def conditionalWord (t : Token) : ConditionalWord :=
  if t.isKeyword ["unless"] then .unlessTrue else if t.isKeyword ["case"] then .caseOf else .ifTrue

/-- The keywords that open a compound statement. -/
def compoundWords : List Text := ["begin", "def", "class", "module", "while", "until", "for"]

/-- Whether a keyword opens a loop, whose head may end in `do`. -/
def isLoopWord (word : Text) : Bool := (["while", "until", "for"] : List Text).contains word

/-- Whether a token ends the body of a branch. -/
def endsBranch (word : ConditionalWord) (t : Token) : Bool :=
  match word with
  | .caseOf => t.isKeyword ["when", "else", "end"]
  | _ => t.isKeyword ["elsif", "else", "end"]

/-- The branch word that a token stands for in a conditional, `else` apart. -/
def branchWord? (word : ConditionalWord) (t : Token) : Option BranchWord :=
  match word with
  | .caseOf => if t.isKeyword ["when"] then some .matching else none
  | _ => if t.isKeyword ["elsif"] then some .elsif else none

/-- A body after which its closer stands or does not, cut where reading resumes if not. -/
structure ClosedBody where
  body : List Statement
  closer : Option Token
  cursor : Cursor
  problems : List Problem

/-- The body with the token after it taken as its closer if it is one, and a problem otherwise. -/
def closeBody (src : TokenSource) (isCloser : Token → Bool) (opener : Token) (fault : Fault)
    (p : Parsed (List Statement)) : ClosedBody :=
  match p.cursor.rest.head?.filter isCloser with
  | some t => ⟨p.value, some t, p.cursor.next, p.problems⟩
  | none =>
    let (kept, index) := src.resync opener p.value
    ⟨kept, none, (index.map src.cursor).getD p.cursor, p.problems ++ [⟨fault, opener.start⟩]⟩

/-- The branches with the body of the last one cut where reading resumes. -/
def resyncBranches (src : TokenSource) (opener : Token) : List Branch → List Branch × Option Nat
  | [] => ([], none)
  | [last] =>
    let (kept, index) := src.resync opener last.body
    ([{ last with body := kept }], index)
  | branch :: more =>
    let (more, index) := resyncBranches src opener more
    (branch :: more, index)

mutual

/-- The statements at the cursor, up to a token that `stop` accepts or the end of the file. Closers
that close nothing are reported and passed over. -/
def parseStatements (src : TokenSource) :
    (fuel : Nat) → (stop : Token → Bool) → Cursor → Parsed (List Statement)
  | 0, _, c => ⟨[], c, []⟩
  | fuel + 1, stop, c =>
    let c := c.skipSeparators
    match c.rest with
    | [] => ⟨[], c, []⟩
    | t :: _ =>
      if stop t then ⟨[], c, []⟩
      else if t.isKeyword ["end", "elsif", "when"] || t.isCloser then
        let more := parseStatements src fuel stop c.next
        { more with problems := ⟨.strayCloser t.text, t.start⟩ :: more.problems }
      else if t.isKeyword ["else", "rescue", "ensure", "then"] then
        parseStatements src fuel stop c.next
      else
        let first := parseStatement src fuel t c
        let more := parseStatements src fuel stop first.cursor
        ⟨first.value :: more.value, more.cursor, first.problems ++ more.problems⟩

/-- The statement at the cursor, whose first token is `t`. -/
def parseStatement (src : TokenSource) : (fuel : Nat) → (t : Token) → Cursor → Parsed Statement
  | 0, t, c => ⟨.command ⟨⟨t.start, t.stop, c.index⟩, [], none, [], none⟩, c.next, []⟩
  | fuel + 1, t, c =>
    if t.isKeyword ["if", "unless", "case"] then
      let p := parseConditional src fuel t c
      ⟨.conditional p.value, p.cursor, p.problems⟩
    else if t.isKeyword compoundWords then
      let p := parseCompound src fuel t c
      ⟨.compound p.value, p.cursor, p.problems⟩
    else
      let p := parseCommand src fuel t c.index .empty c
      ⟨.command p.value, p.cursor, p.problems⟩

/-- The block that the token at the cursor opens. -/
def parseBlock (src : TokenSource) :
    (fuel : Nat) → (opener : Token) → BlockKind → Cursor → Parsed Block
  | 0, opener, kind, c => ⟨⟨kind, opener, none, [], []⟩, c.next, []⟩
  | fuel + 1, opener, kind, c =>
    let (params, c) := c.next.params
    let b := closeBody src kind.closes opener kind.fault (parseStatements src fuel kind.closes c)
    ⟨⟨kind, opener, b.closer, params, b.body⟩, b.cursor, b.problems⟩

/-- The branches at the cursor after the first one of an `if` or the subject of a `case`, and the
closer. -/
def parseBranches (src : TokenSource) :
    (fuel : Nat) → ConditionalWord → Cursor → Parsed (List Branch × Option Token)
  | 0, _, c => ⟨([], none), c, []⟩
  | fuel + 1, word, c =>
    let c := c.skipSeparators
    match c.rest with
    | [] => ⟨([], none), c, []⟩
    | t :: _ =>
      match branchWord? word t with
      | some branchWord =>
        let (condition, c) := c.next.line false
        let body := parseStatements src fuel (endsBranch word) c
        let more := parseBranches src fuel word body.cursor
        ⟨(⟨branchWord, condition, body.value, t.start⟩ :: more.value.1, more.value.2), more.cursor,
          body.problems ++ more.problems⟩
      | none =>
        if t.isKeyword ["else"] then
          let body := parseStatements src fuel (·.isKeyword ["end"]) c.next
          let more := parseBranches src fuel word body.cursor
          ⟨(⟨.otherwise, [], body.value, t.start⟩ :: more.value.1, more.value.2), more.cursor,
            body.problems ++ more.problems⟩
        else if t.isKeyword ["end"] then ⟨([], some t), c.next, []⟩
        else ⟨([], none), c, []⟩

def parseConditional (src : TokenSource) :
    (fuel : Nat) → (opener : Token) → Cursor → Parsed Conditional
  | 0, opener, c =>
    let extent : Extent := ⟨opener.start, opener.stop, c.index⟩
    ⟨⟨extent, conditionalWord opener, [], [], opener, none⟩, c.next, []⟩
  | fuel + 1, opener, c =>
    let word := conditionalWord opener
    let start := c.index
    let (line, c) := c.next.line false
    let read : Parsed (List Branch × Option Token) :=
      match word with
      | .caseOf => parseBranches src fuel word c.skipSeparators
      | _ =>
        let body := parseStatements src fuel (endsBranch word) c
        let more := parseBranches src fuel word body.cursor
        let branchWord := if word = .unlessTrue then BranchWord.unlessTrue else .ifTrue
        ⟨(⟨branchWord, line, body.value, opener.start⟩ :: more.value.1, more.value.2), more.cursor,
          body.problems ++ more.problems⟩
    let subject := if word = .caseOf then line else []
    let build (branches : List Branch) (c : Cursor) : Conditional :=
      ⟨⟨opener.start, src.endBefore c.index opener.stop, start⟩, word, subject, branches, opener,
        read.value.2⟩
    match read.value.2 with
    | some _ => ⟨build read.value.1 read.cursor, read.cursor, read.problems⟩
    | none =>
      let (branches, index) := resyncBranches src opener read.value.1
      let c := (index.map src.cursor).getD read.cursor
      ⟨build branches c, c, read.problems ++ [⟨.openKeyword opener.text, opener.start⟩]⟩

def parseCompound (src : TokenSource) : (fuel : Nat) → (opener : Token) → Cursor → Parsed Compound
  | 0, opener, c => ⟨⟨⟨opener.start, opener.stop, c.index⟩, [], [], opener, none⟩, c.next, []⟩
  | fuel + 1, opener, c =>
    let (head, line) := c.next.line (isLoopWord opener.text)
    let b := closeBody src (·.isKeyword ["end"]) opener (.openKeyword opener.text)
      (parseStatements src fuel (·.isKeyword ["end"]) line)
    ⟨⟨⟨opener.start, src.endBefore b.cursor.index opener.stop, c.index⟩, head, b.body, opener,
      b.closer⟩, b.cursor, b.problems⟩

/-- The rest of the command that starts with `first` at index `start`, of which `d` is read. -/
def parseCommand (src : TokenSource) :
    (fuel : Nat) → (first : Token) → (start : Nat) → CommandDraft → Cursor → Parsed Command
  | 0, first, start, d, c => d.finish src first start c
  | fuel + 1, first, start, d, c =>
    match c.rest with
    | [] => d.finish src first start c
    | t :: rest =>
      if t.isSeparator then
        if d.continuesPast t rest then parseCommand src fuel first start d c.next
        else d.finish src first start c
      else if d.endsBefore t then d.finish src first start c
      else match d.blockKind? t with
        | some kind =>
          let block := parseBlock src fuel t kind c
          let d := d.addBlock block.value
          let command :=
            if block.value.closer.isSome then parseCommand src fuel first start d block.cursor
            else d.finish src first start block.cursor
          { command with problems := block.problems ++ command.problems }
        | none =>
          if t.isKeyword ["if", "unless", "case", "begin", "while", "until"] then
            if d.opensValue t then
              let nested : Parsed Unit :=
                if t.isKeyword ["if", "unless", "case"] then
                  let p := parseConditional src fuel t c
                  ⟨(), p.cursor, p.problems⟩
                else
                  let p := parseCompound src fuel t c
                  ⟨(), p.cursor, p.problems⟩
              let run := (c.rest.take (nested.cursor.index - c.index)).filter (!·.isNewline)
              let command := parseCommand src fuel first start
                { d with head := run.reverse ++ d.head } nested.cursor
              { command with problems := nested.problems ++ command.problems }
            else if d.openers.isEmpty && !d.head.isEmpty then
              let (condition, c) := c.next.line false
              { d with modifier := some ⟨CommandDraft.modifierWord t, condition, t.start⟩ }.finish
                src first start c
            else parseCommand src fuel first start (d.push t) c.next
          else parseCommand src fuel first start (d.push t) c.next

end

/-- A bound on the depth of calls: no call needs more than six per token from its own on. -/
def TokenSource.fuel (src : TokenSource) : Nat := 6 * (src.size + 2)

/-- The statements of a file. -/
def Program.ofText (text : Text) : Program :=
  let lexed := lex text 0
  let src : TokenSource := ⟨lexed.tokens, .ofText text⟩
  let parsed := parseStatements src src.fuel (fun _ => false) (src.cursor 0)
  ⟨src.lines, lexed.tokens, parsed.value, lexed.problems ++ parsed.problems⟩

end Cookbook
