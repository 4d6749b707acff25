import Cookbook.Proofs.Statement.Fuel
import Cookbook.Proofs.Statement.Relabel

/-!
A file read as the end of a longer one. The tokens of the file stand further right, in the text and
in the list of tokens; what is read from them is the same further right, as long as the file starts
a line of its own and no search for an earlier token leaves it.

* `Statement.shift k n` moves a statement by `k` units and `n` tokens;
* `TokenSource.Ends src' src k n` says that a source ends in another one, moved;
* `Moved src' src k n fuel` says what each call gives, `moved` proves it. Both files are read with the same
  fuel, which the induction is on: the readings of two sources are compared, not those of one.
-/

namespace Cookbook

/-! ### Moved statements -/

def Extent.shift (k n : Nat) (e : Extent) : Extent := ⟨e.start + k, e.stop + k, e.firstIndex + n⟩

def Modifier.shift (k : Nat) (m : Modifier) : Modifier :=
  ⟨m.word, m.condition.map (Token.shift k), m.start + k⟩

mutual

def Statement.shift (k n : Nat) : Statement → Statement
  | .command c => .command (c.shift k n)
  | .conditional c => .conditional (c.shift k n)
  | .compound c => .compound (c.shift k n)

def Command.shift (k n : Nat) : Command → Command
  | ⟨extent, head, block, innerBlocks, modifier⟩ =>
    ⟨extent.shift k n, head.map (Token.shift k),
      match block with
        | some b => some (b.shift k n)
        | none => none,
      shiftBlocks k n innerBlocks, modifier.map (Modifier.shift k)⟩

def Block.shift (k n : Nat) : Block → Block
  | ⟨kind, opener, closer, params, body⟩ =>
    ⟨kind, opener.shift k, closer.map (Token.shift k), params, shiftList k n body⟩

def Conditional.shift (k n : Nat) : Conditional → Conditional
  | ⟨extent, word, subject, branches, opener, closer⟩ =>
    ⟨extent.shift k n, word, subject.map (Token.shift k), shiftBranches k n branches,
      opener.shift k, closer.map (Token.shift k)⟩

def Branch.shift (k n : Nat) : Branch → Branch
  | ⟨word, condition, body, start⟩ =>
    ⟨word, condition.map (Token.shift k), shiftList k n body, start + k⟩

def Compound.shift (k n : Nat) : Compound → Compound
  | ⟨extent, head, body, opener, closer⟩ =>
    ⟨extent.shift k n, head.map (Token.shift k), shiftList k n body, opener.shift k,
      closer.map (Token.shift k)⟩

def shiftList (k n : Nat) : List Statement → List Statement
  | [] => []
  | s :: rest => s.shift k n :: shiftList k n rest

def shiftBlocks (k n : Nat) : List Block → List Block
  | [] => []
  | b :: rest => b.shift k n :: shiftBlocks k n rest

def shiftBranches (k n : Nat) : List Branch → List Branch
  | [] => []
  | b :: rest => b.shift k n :: shiftBranches k n rest

end

section Moved

variable (k n : Nat)

@[simp] theorem shiftList_eq (body : List Statement) :
    shiftList k n body = body.map (Statement.shift k n) := by
  induction body with
  | nil => simp [shiftList]
  | cons s rest ih => simp [shiftList, ih]

@[simp] theorem shiftBlocks_eq (blocks : List Block) :
    shiftBlocks k n blocks = blocks.map (Block.shift k n) := by
  induction blocks with
  | nil => simp [shiftBlocks]
  | cons b rest ih => simp [shiftBlocks, ih]

@[simp] theorem shiftBranches_eq (branches : List Branch) :
    shiftBranches k n branches = branches.map (Branch.shift k n) := by
  induction branches with
  | nil => simp [shiftBranches]
  | cons b rest ih => simp [shiftBranches, ih]

theorem Command.shift_mk (extent : Extent) (head : List Token) (block : Option Block)
    (innerBlocks : List Block) (modifier : Option Modifier) :
    (Command.mk extent head block innerBlocks modifier).shift k n =
      ⟨extent.shift k n, head.map (Token.shift k), block.map (Block.shift k n),
        innerBlocks.map (Block.shift k n), modifier.map (Modifier.shift k)⟩ := by
  cases block <;> simp [Command.shift]

@[simp] theorem Command.extent_shift (c : Command) : (c.shift k n).extent = c.extent.shift k n := by
  obtain ⟨extent, head, block, innerBlocks, modifier⟩ := c
  rw [Command.shift_mk]

@[simp] theorem Command.head_shift (c : Command) :
    (c.shift k n).head = c.head.map (Token.shift k) := by
  obtain ⟨extent, head, block, innerBlocks, modifier⟩ := c
  rw [Command.shift_mk]

@[simp] theorem Command.block_shift (c : Command) :
    (c.shift k n).block = c.block.map (Block.shift k n) := by
  obtain ⟨extent, head, block, innerBlocks, modifier⟩ := c
  rw [Command.shift_mk]

@[simp] theorem Command.modifier_shift (c : Command) :
    (c.shift k n).modifier = c.modifier.map (Modifier.shift k) := by
  obtain ⟨extent, head, block, innerBlocks, modifier⟩ := c
  rw [Command.shift_mk]

theorem Block.shift_mk (kind : BlockKind) (opener : Token) (closer : Option Token)
    (params : List Text) (body : List Statement) :
    (Block.mk kind opener closer params body).shift k n =
      ⟨kind, opener.shift k, closer.map (Token.shift k), params, body.map (Statement.shift k n)⟩ := by
  simp [Block.shift]

@[simp] theorem Block.opener_shift (b : Block) : (b.shift k n).opener = b.opener.shift k := by
  obtain ⟨kind, opener, closer, params, body⟩ := b
  rw [Block.shift_mk]

@[simp] theorem Block.closer_shift (b : Block) :
    (b.shift k n).closer = b.closer.map (Token.shift k) := by
  obtain ⟨kind, opener, closer, params, body⟩ := b
  rw [Block.shift_mk]

@[simp] theorem Block.body_shift (b : Block) : (b.shift k n).body = shiftList k n b.body := by
  obtain ⟨kind, opener, closer, params, body⟩ := b
  rw [Block.shift]

theorem Conditional.shift_mk (extent : Extent) (word : ConditionalWord) (subject : List Token)
    (branches : List Branch) (opener : Token) (closer : Option Token) :
    (Conditional.mk extent word subject branches opener closer).shift k n =
      ⟨extent.shift k n, word, subject.map (Token.shift k), branches.map (Branch.shift k n),
        opener.shift k, closer.map (Token.shift k)⟩ := by
  simp [Conditional.shift]

theorem Branch.shift_mk (word : BranchWord) (condition : List Token) (body : List Statement)
    (start : Nat) :
    (Branch.mk word condition body start).shift k n =
      ⟨word, condition.map (Token.shift k), body.map (Statement.shift k n), start + k⟩ := by
  simp [Branch.shift]

theorem Compound.shift_mk (extent : Extent) (head : List Token) (body : List Statement)
    (opener : Token) (closer : Option Token) :
    (Compound.mk extent head body opener closer).shift k n =
      ⟨extent.shift k n, head.map (Token.shift k), body.map (Statement.shift k n), opener.shift k,
        closer.map (Token.shift k)⟩ := by
  simp [Compound.shift]

@[simp] theorem Statement.extent_shift (s : Statement) :
    (s.shift k n).extent = s.extent.shift k n := by
  cases s with
  | command c =>
    obtain ⟨extent, head, block, innerBlocks, modifier⟩ := c
    simp [Statement.shift, Statement.extent, Command.shift_mk]
  | conditional c =>
    obtain ⟨extent, word, subject, branches, opener, closer⟩ := c
    simp [Statement.shift, Statement.extent, Conditional.shift_mk]
  | compound c =>
    obtain ⟨extent, head, body, opener, closer⟩ := c
    simp [Statement.shift, Statement.extent, Compound.shift_mk]

end Moved

mutual

theorem Statement.shift_zero : ∀ s : Statement, s.shift 0 0 = s
  | .command c => by simp only [Statement.shift, Command.shift_zero c]
  | .conditional ⟨extent, word, subject, branches, opener, closer⟩ => by
    simp [Statement.shift, Conditional.shift, Extent.shift, shiftBranches_zero branches]
  | .compound ⟨extent, head, body, opener, closer⟩ => by
    simp [Statement.shift, Compound.shift, Extent.shift, shiftList_zero body]

theorem Command.shift_zero : ∀ c : Command, c.shift 0 0 = c
  | ⟨extent, head, none, innerBlocks, modifier⟩ => by
    cases modifier <;> simp [Command.shift, Extent.shift, Modifier.shift, shiftBlocks_zero innerBlocks]
  | ⟨extent, head, some block, innerBlocks, modifier⟩ => by
    cases modifier <;>
      simp [Command.shift, Extent.shift, Modifier.shift, Block.shift_zero block,
        shiftBlocks_zero innerBlocks]

theorem Block.shift_zero : ∀ b : Block, b.shift 0 0 = b
  | ⟨kind, opener, closer, params, body⟩ => by simp [Block.shift, shiftList_zero body]

theorem shiftList_zero : ∀ body : List Statement, body.map (Statement.shift 0 0) = body
  | [] => rfl
  | s :: rest => by rw [List.map_cons, Statement.shift_zero s, shiftList_zero rest]

theorem shiftBlocks_zero : ∀ blocks : List Block, blocks.map (Block.shift 0 0) = blocks
  | [] => rfl
  | b :: rest => by rw [List.map_cons, Block.shift_zero b, shiftBlocks_zero rest]

theorem shiftBranches_zero : ∀ branches : List Branch, branches.map (Branch.shift 0 0) = branches
  | [] => rfl
  | ⟨word, condition, body, start⟩ :: rest => by
    rw [List.map_cons, shiftBranches_zero rest]
    simp [Branch.shift, shiftList_zero body]

end

/-! ### Moved cursors and lines -/

def Cursor.shift (k n : Nat) (c : Cursor) : Cursor := ⟨c.index + n, c.rest.map (Token.shift k)⟩

def Parsed.shift {α : Type} (f : α → α) (k n : Nat) (p : Parsed α) : Parsed α :=
  ⟨f p.value, p.cursor.shift k n, p.problems.map (Problem.shift k)⟩

theorem lineRun_shift (k : Nat) (stopAtDo : Bool) (last : Option Token) (depth : Nat)
    (tokens : List Token) :
    lineRun stopAtDo (last.map (Token.shift k)) depth (tokens.map (Token.shift k)) =
      ((lineRun stopAtDo last depth tokens).1.map (Token.shift k),
        (lineRun stopAtDo last depth tokens).2) :=
  lineRun_map (keepsSpelling_shift k) stopAtDo last depth tokens

namespace Cursor

variable (k n : Nat) (c : Cursor)

@[simp] theorem index_shift : (c.shift k n).index = c.index + n := rfl

@[simp] theorem rest_shift : (c.shift k n).rest = c.rest.map (Token.shift k) := rfl

@[simp] theorem advance_shift (m : Nat) : (c.shift k n).advance m = (c.advance m).shift k n := by
  simp [advance, shift, Nat.add_right_comm]

@[simp] theorem next_shift : (c.shift k n).next = c.next.shift k n := c.advance_shift k n 1

@[simp] theorem skipSeparators_shift :
    (c.shift k n).skipSeparators = c.skipSeparators.shift k n := by
  unfold skipSeparators
  rw [rest_shift, List.takeWhile_map, List.length_map, advance_shift]
  simp [Function.comp_def]

theorem line_shift (stopAtDo : Bool) :
    (c.shift k n).line stopAtDo =
      ((c.line stopAtDo).1.map (Token.shift k), (c.line stopAtDo).2.shift k n) := by
  unfold line
  rw [rest_shift, show (none : Option Token) = none.map (Token.shift k) from rfl, lineRun_shift]
  simp

theorem params_shift : (c.shift k n).params = (c.params.1, c.params.2.shift k n) := by
  unfold params
  rw [rest_shift]
  cases c.rest with
  | nil => rfl
  | cons t rest =>
    simp only [List.map_cons, Token.isPunct_shift]
    split
    · rw [next_shift]
    · split
      · rw [List.takeWhile_map, List.length_map, advance_shift, List.filterMap_map]
        simp [Function.comp_def]
      · rfl

theorem branchHead_shift (branchWord : BranchWord) :
    branchHead branchWord (c.shift k n) =
      ((branchHead branchWord c).1.map (Token.shift k), (branchHead branchWord c).2.shift k n) := by
  unfold branchHead
  split
  · rfl
  · exact line_shift k n c false

end Cursor

/-! ### Moved steps -/

def ListStep.shift (k : Nat) : ListStep → ListStep
  | done => done
  | stray t => stray (t.shift k)
  | pass => pass
  | statement t => statement (t.shift k)

theorem listStep_shift {k : Nat} {stop : Token → Bool} (hstop : ∀ t, stop (t.shift k) = stop t)
    (tokens : List Token) :
    listStep stop (tokens.map (Token.shift k)) = (listStep stop tokens).shift k := by
  rw [listStep_map (keepsSpelling_shift k) hstop]
  cases listStep stop tokens <;> rfl

def BranchStep.shift (k : Nat) : BranchStep → BranchStep
  | done => done
  | branch word t => branch word (t.shift k)
  | close t => close (t.shift k)

theorem branchStep_shift (k : Nat) (word : ConditionalWord) (tokens : List Token) :
    branchStep word (tokens.map (Token.shift k)) = (branchStep word tokens).shift k := by
  rw [branchStep_map (keepsSpelling_shift k)]
  cases branchStep word tokens <;> rfl

def CommandStep.shift (k : Nat) : CommandStep → CommandStep
  | done => done
  | skip => skip
  | block t kind => block (t.shift k) kind
  | conditional t => conditional (t.shift k)
  | compound t => compound (t.shift k)
  | modifier t => modifier (t.shift k)
  | push t => push (t.shift k)

namespace CommandDraft

def shift (k n : Nat) (d : CommandDraft) : CommandDraft :=
  ⟨d.head.map (Token.shift k), d.openers.map (Token.shift k), d.block.map (Block.shift k n),
    d.innerBlocks.map (Block.shift k n), d.modifier.map (Modifier.shift k)⟩

variable (k n : Nat) (d : CommandDraft)

theorem push_shift (t : Token) : (d.shift k n).push (t.shift k) = (d.push t).shift k n := by
  simp only [push, shift, Token.isOpener_shift, Token.isCloser_shift]
  congr 1
  split
  · rfl
  · split
    · exact List.map_tail.symm
    · rfl

theorem addBlock_shift (b : Block) :
    (d.shift k n).addBlock (b.shift k n) = (d.addBlock b).shift k n := by
  simp only [addBlock, shift, List.isEmpty_map, Option.isNone_map]
  split <;> rfl

theorem addModifier_shift (t : Token) (condition : List Token) :
    (d.shift k n).addModifier (t.shift k) (condition.map (Token.shift k)) =
      (d.addModifier t condition).shift k n := by
  simp [addModifier, shift, Modifier.shift, modifierWord]

theorem addRun_shift (c : Cursor) (index : Nat) :
    (d.shift k n).addRun (c.shift k n) (index + n) = (d.addRun c index).shift k n := by
  have hindex : index + n - (c.index + n) = index - c.index := Nat.add_sub_add_right _ _ _
  simp only [addRun, shift, Cursor.rest_shift, Cursor.index_shift, hindex, ← List.map_take,
    List.filter_map, List.map_append, List.map_reverse]
  simp [Function.comp_def]

theorem step_shift (tokens : List Token) :
    (d.shift k n).step (tokens.map (Token.shift k)) = (d.step tokens).shift k := by
  rw [step_map (keepsSpelling_shift k) (d := d) rfl rfl]
  cases d.step tokens <;> rfl

/-- The head ends somewhere, so that a missing block or modifier does not count. -/
theorem stop_shift (first : Token) : (d.shift k n).stop (first.shift k) = d.stop first + k := by
  have hhead : (((d.shift k n).head.head?).map Token.stop).getD (first.shift k).stop =
      ((d.head.head?).map Token.stop).getD first.stop + k := by
    simp only [shift, List.head?_map]
    cases d.head.head? <;> rfl
  have hblock : ∀ b : Block, (((b.shift k n).closer.map Token.stop).getD (b.shift k n).opener.stop) =
      ((b.closer.map Token.stop).getD b.opener.stop) + k := by
    intro b
    rw [Block.closer_shift, Block.opener_shift]
    cases b.closer <;> rfl
  have hmodifier : ((d.shift k n).modifier.bind (·.condition.getLast?)).map Token.stop =
      ((d.modifier.bind (·.condition.getLast?)).map Token.stop).map (· + k) := by
    simp only [shift]
    cases d.modifier with
    | none => rfl
    | some m =>
      simp only [Option.map_some, Option.bind_some, Modifier.shift, List.getLast?_map]
      cases m.condition.getLast? <;> rfl
  unfold stop
  rw [hhead, hmodifier]
  dsimp only [shift]
  generalize ((d.modifier.bind (·.condition.getLast?)).map Token.stop) = modifierStop
  cases d.block <;> cases modifierStop <;>
    simp only [Option.map_some, Option.map_none, Option.getD_some, Option.getD_none, hblock] <;> omega

end CommandDraft

/-! ### Sources that end in another one -/

/-- The tokens of `src'` from the `n`-th on are those of `src`, `k` units further right; they start a
line, and their lines are indented as in `src`. -/
structure TokenSource.Ends (src' src : TokenSource) (k n : Nat) : Prop where
  tokens : src'.tokens.drop n = src.tokens.map (Token.shift k)
  le_size : n ≤ src'.size
  startsLine : n = 0 ∨ (src'.tokens[n - 1]?).all Token.isNewline = true
  indent : ∀ offset : Nat, src'.lines.indent ((offset + k : Nat) : Int) = src.lines.indent offset

namespace TokenSource

/-- Whether the token at an index is where reading resumes after a bracket that was never closed. -/
def resumesAtToken (src : TokenSource) (opener : Token) (index : Nat) : Bool :=
  match src.tokens[index]? with
  | some t =>
    !t.isNewline && src.isFirstOnLine index && src.isOutdented opener t &&
      !(t.isKeyword ["end"] || t.isCloser)
  | none => false

theorem resyncToken_eq (src : TokenSource) (opener : Token) (index : Nat) :
    src.resyncToken opener index =
      ((List.range' index (src.size - index)).find? (src.resumesAtToken opener)).getD src.size := rfl

variable {src' src : TokenSource} {k n : Nat} (h : src'.Ends src k n)

include h

theorem Ends.size_eq : src'.size = src.size + n := by
  have hlen := congrArg List.length h.tokens
  have hle := h.le_size
  rw [List.length_drop, List.length_map] at hlen
  unfold size at *
  omega

theorem Ends.getElem? (index : Nat) :
    src'.tokens[index + n]? = (src.tokens[index]?).map (Token.shift k) := by
  rw [Nat.add_comm, ← List.getElem?_drop, h.tokens, List.getElem?_map]

theorem Ends.cursor (index : Nat) : src'.cursor (index + n) = (src.cursor index).shift k n := by
  show (⟨index + n, src'.tokens.drop (index + n)⟩ : Cursor) = ⟨index + n, (src.tokens.drop index).map _⟩
  rw [Nat.add_comm, ← List.drop_drop, h.tokens, List.map_drop]

theorem Ends.isFirstOnLine (index : Nat) : src'.isFirstOnLine (index + n) = src.isFirstOnLine index := by
  unfold TokenSource.isFirstOnLine
  cases index with
  | zero =>
    rcases h.startsLine with hzero | hnewline
    · simp [hzero]
    · simp [hnewline]
  | succ i =>
    have hpred : i + 1 + n - 1 = i + n := by omega
    have hne : (i + 1 + n == 0) = false := by simp
    rw [hpred, h.getElem?, hne]
    simp [Option.all_map]

theorem Ends.isOutdented (opener t : Token) :
    src'.isOutdented (opener.shift k) (t.shift k) = src.isOutdented opener t := by
  unfold TokenSource.isOutdented
  rw [Token.start_shift, Token.start_shift, h.indent, h.indent]
  simp

theorem Ends.resumesAt (opener : Token) (s : Statement) :
    src'.resumesAt (opener.shift k) (s.shift k n) = src.resumesAt opener s := by
  unfold TokenSource.resumesAt
  rw [Statement.extent_shift]
  show (match src'.tokens[s.extent.firstIndex + n]? with | some first => _ | none => _) = _
  rw [h.getElem?]
  cases src.tokens[s.extent.firstIndex]? with
  | none => rfl
  | some t =>
    simp only [Option.map_some, Extent.shift]
    rw [h.isOutdented, h.isFirstOnLine]

theorem Ends.resync (opener : Token) (body : List Statement) :
    src'.resync (opener.shift k) (body.map (Statement.shift k n)) =
      ((src.resync opener body).1.map (Statement.shift k n), (src.resync opener body).2.map (· + n)) := by
  have hresumes : (src'.resumesAt (opener.shift k)) ∘ Statement.shift k n = src.resumesAt opener :=
    funext (h.resumesAt opener)
  unfold TokenSource.resync
  rw [List.takeWhile_map, List.find?_map, hresumes]
  refine Prod.ext ?_ ?_
  · simp only [Function.comp_def, h.resumesAt]
  · cases body.find? (src.resumesAt opener) <;> simp [Extent.shift]

theorem Ends.resyncToken (opener : Token) (index : Nat) :
    src'.resyncToken (opener.shift k) (index + n) = src.resyncToken opener index + n := by
  have hsize := h.size_eq
  have hrange : List.range' (index + n) (src'.size - (index + n)) =
      (List.range' index (src.size - index)).map (· + n) := by
    rw [hsize, Nat.add_sub_add_right, Nat.add_comm index n, ← List.map_add_range']
    simp only [Nat.add_comm]
  have hresumes : ∀ i, src'.resumesAtToken (opener.shift k) (i + n) = src.resumesAtToken opener i := by
    intro i
    unfold TokenSource.resumesAtToken
    rw [h.getElem?, h.isFirstOnLine]
    cases src.tokens[i]? with
    | none => rfl
    | some t => simp [h.isOutdented]
  rw [resyncToken_eq, resyncToken_eq, hrange, List.find?_map]
  simp only [Function.comp_def, hresumes, hsize]
  cases List.find? (src.resumesAtToken opener) (List.range' index (src.size - index)) <;> rfl

/-- A search to the left that meets a token of the file does not leave it. -/
theorem Ends.endBefore {index fallback : Nat} {t : Token} (ht : t ∈ src.tokens.take index)
    (hline : t.isNewline = false) :
    src'.endBefore (index + n) (fallback + k) = src.endBefore index fallback + k := by
  have htake : src'.tokens.take (index + n) =
      src'.tokens.take n ++ (src.tokens.take index).map (Token.shift k) := by
    rw [Nat.add_comm, List.take_add, h.tokens, List.map_take]
  obtain ⟨u, hu⟩ : ∃ u, (src.tokens.take index).reverse.find? (fun t => !t.isNewline) = some u := by
    rw [← Option.isSome_iff_exists, List.find?_isSome]
    exact ⟨t, List.mem_reverse.2 ht, by simp [hline]⟩
  unfold TokenSource.endBefore
  rw [htake, List.reverse_append, List.find?_append, ← List.map_reverse, List.find?_map]
  simp only [Function.comp_def, Token.isNewline_shift, hu]
  rfl

end TokenSource

/-! ### Moved results -/

section Results

variable {src' src : TokenSource} {k n : Nat} (h : src'.Ends src k n)

include h

theorem TokenSource.Ends.cut (index : Option Nat) (c : Cursor) :
    (((index.map (· + n)).map src'.cursor).getD (c.shift k n)) =
      ((index.map src.cursor).getD c).shift k n := by
  cases index with
  | none => rfl
  | some i => exact h.cursor i

omit h in
theorem CommandDraft.build_shift (d : CommandDraft) (first : Token) (start : Nat) :
    (d.shift k n).build (first.shift k) (start + n) = (d.build first start).shift k n := by
  unfold CommandDraft.build
  rw [Command.shift_mk, CommandDraft.stop_shift]
  simp [CommandDraft.shift, Extent.shift]

theorem CommandDraft.finish_shift (d : CommandDraft) (first : Token) (start : Nat) (c : Cursor) :
    (d.shift k n).finish src' (first.shift k) (start + n) (c.shift k n) =
      (d.finish src first start c).shift (Command.shift k n) k n := by
  cases hopen : d.openers with
  | nil =>
    have hopen' : (d.shift k n).openers = [] := by simp [CommandDraft.shift, hopen]
    rw [CommandDraft.finish_nil _ _ _ _ hopen, CommandDraft.finish_nil _ _ _ _ hopen',
      CommandDraft.build_shift]
    rfl
  | cons unclosed more =>
    have hopen' : (d.shift k n).openers = unclosed.shift k :: more.map (Token.shift k) := by
      simp [CommandDraft.shift, hopen]
    have hstart : start + n + 1 = start + 1 + n := Nat.add_right_comm _ _ _
    have hcut : ∀ index, (d.shift k n).cutHead src' (index + n) = (d.cutHead src index).shift k n := by
      intro index
      unfold CommandDraft.cutHead
      rw [h.getElem?]
      cases src.tokens[index]? with
      | none => rfl
      | some t => simp [CommandDraft.shift, List.dropWhile_map, Function.comp_def]
    rw [CommandDraft.finish_cons _ _ _ _ hopen, CommandDraft.finish_cons _ _ _ _ hopen', hstart,
      h.resyncToken]
    dsimp only
    rw [hcut, CommandDraft.build_shift, Nat.add_max_add_right, h.cursor]
    rfl

theorem closeBody_shift {isCloser : Token → Bool} (hcloser : ∀ t, isCloser (t.shift k) = isCloser t)
    (opener : Token) (fault : Fault) (p : Parsed (List Statement)) :
    closeBody src' isCloser (opener.shift k) fault (p.shift (List.map (Statement.shift k n)) k n) =
      ⟨(closeBody src isCloser opener fault p).body.map (Statement.shift k n),
        (closeBody src isCloser opener fault p).closer.map (Token.shift k),
        (closeBody src isCloser opener fault p).cursor.shift k n,
        (closeBody src isCloser opener fault p).problems.map (Problem.shift k)⟩ := by
  have hhead : (p.shift (List.map (Statement.shift k n)) k n).cursor.rest.head?.filter isCloser =
      (p.cursor.rest.head?.filter isCloser).map (Token.shift k) := by
    simp only [Parsed.shift, Cursor.rest_shift, List.head?_map]
    cases p.cursor.rest.head? with
    | none => rfl
    | some t => simp [Option.filter, hcloser]
  unfold closeBody
  rw [hhead]
  cases p.cursor.rest.head?.filter isCloser with
  | some t =>
    simp [Parsed.shift]
  | none =>
    simp only [Option.map_none, Parsed.shift, h.resync, h.cut]
    simp [Problem.shift]

theorem resyncBranches_shift (opener : Token) (branches : List Branch) :
    resyncBranches src' (opener.shift k) (branches.map (Branch.shift k n)) =
      ((resyncBranches src opener branches).1.map (Branch.shift k n),
        (resyncBranches src opener branches).2.map (· + n)) := by
  induction branches with
  | nil => rfl
  | cons b more ih =>
    obtain ⟨word, condition, body, start⟩ := b
    cases more with
    | nil =>
      simp only [List.map_cons, List.map_nil, Branch.shift_mk, resyncBranches, h.resync]
    | cons b' more =>
      simp only [List.map_cons] at ih
      simp only [List.map_cons, resyncBranches, ih]

/-- The token that opens a statement is a search's end for all that comes after it. -/
theorem TokenSource.Ends.endBefore_opener {c : Cursor} {opener : Token} {index : Nat}
    (hc : src.Holds c) (hopener : c.rest.head? = some opener) (hline : opener.isNewline = false)
    (hindex : c.index + 1 ≤ index) :
    src'.endBefore (index + n) (opener.stop + k) = src.endBefore index opener.stop + k := by
  have hget : src.tokens[c.index]? = some opener := by
    rw [← List.head?_drop, ← hopener, show c.rest = src.tokens.drop c.index from hc]
  refine h.endBefore ?_ hline
  obtain ⟨hlt, rfl⟩ := List.getElem?_eq_some_iff.1 hget
  exact List.mem_take_iff_getElem.2 ⟨c.index, by omega, rfl⟩

theorem closeConditional_shift {c : Cursor} {opener : Token} (hc : src.Holds c)
    (hopener : c.rest.head? = some opener) (hline : opener.isNewline = false) (line : List Token)
    {p : Parsed (List Branch × Option Token)} (hp : p.EndsFrom src (c.index + 1))
    (hbody : ∀ b ∈ p.value.1, StartFrom (c.index + 1) b.body) :
    closeConditional src' (opener.shift k) (c.index + n) (line.map (Token.shift k))
        (p.shift (Prod.map (List.map (Branch.shift k n)) (Option.map (Token.shift k))) k n) =
      (closeConditional src opener c.index line p).shift (Conditional.shift k n) k n := by
  have hword : conditionalWord (opener.shift k) = conditionalWord opener := by
    simp [conditionalWord]
  have hsubject : (if conditionalWord opener = .caseOf then line.map (Token.shift k) else []) =
      (if conditionalWord opener = .caseOf then line else []).map (Token.shift k) := by
    split <;> rfl
  unfold closeConditional
  cases hcloser : p.value.2 with
  | some t =>
    have hend := h.endBefore_opener hc hopener hline hp.2
    simp only [Parsed.shift, Prod.map, hcloser, Option.map_some, buildConditional, hword, hsubject,
      Conditional.shift_mk, Cursor.index_shift, Token.stop_shift, hend]
    rfl
  | none =>
    have hcut := endsFrom_cut hp.1 hp.2
      fun j (hj : (resyncBranches src opener p.value.1).2 = some j) => le_of_resyncBranches hbody hj
    have hend := h.endBefore_opener hc hopener hline hcut.2
    simp only [Parsed.shift, Prod.map, hcloser, Option.map_none, buildConditional, hword, hsubject,
      resyncBranches_shift h, h.cut, Conditional.shift_mk, Cursor.index_shift, Token.stop_shift, hend]
    simp [Extent.shift, Problem.shift]

end Results

/-! ### What each call gives -/

/-- The calls with a given fuel return the same further right. -/
structure Moved (src' src : TokenSource) (k n fuel : Nat) : Prop where
  statements : ∀ stop c, (∀ t : Token, stop (t.shift k) = stop t) → src.Holds c →
    parseStatements src' fuel stop (c.shift k n) =
      (parseStatements src fuel stop c).shift (List.map (Statement.shift k n)) k n
  statement : ∀ t c, src.Holds c → c.rest.head? = some t → t.isNewline = false →
    parseStatement src' fuel (t.shift k) (c.shift k n) =
      (parseStatement src fuel t c).shift (Statement.shift k n) k n
  block : ∀ opener kind c, src.Holds c →
    parseBlock src' fuel (opener.shift k) kind (c.shift k n) =
      (parseBlock src fuel opener kind c).shift (Block.shift k n) k n
  branches : ∀ word c, src.Holds c →
    parseBranches src' fuel word (c.shift k n) =
      (parseBranches src fuel word c).shift
        (Prod.map (List.map (Branch.shift k n)) (Option.map (Token.shift k))) k n
  conditional : ∀ opener c, src.Holds c → c.rest.head? = some opener → opener.isNewline = false →
    parseConditional src' fuel (opener.shift k) (c.shift k n) =
      (parseConditional src fuel opener c).shift (Conditional.shift k n) k n
  compound : ∀ opener c, src.Holds c → c.rest.head? = some opener → opener.isNewline = false →
    parseCompound src' fuel (opener.shift k) (c.shift k n) =
      (parseCompound src fuel opener c).shift (Compound.shift k n) k n
  command : ∀ first start d c, src.Holds c →
    parseCommand src' fuel (first.shift k) (start + n) (d.shift k n) (c.shift k n) =
      (parseCommand src fuel first start d c).shift (Command.shift k n) k n

namespace Moved

variable {src' src : TokenSource} {k n fuel : Nat}

theorem zero (h : src'.Ends src k n) : Moved src' src k n 0 where
  statements stop c _ _ := by
    rw [parseStatements, parseStatements]
    rfl
  statement t c _ _ _ := by
    rw [parseStatement, parseStatement]
    simp [Parsed.shift, Statement.shift, Command.shift_mk, Extent.shift]
  block opener kind c _ := by
    rw [parseBlock, parseBlock]
    simp [Parsed.shift, Block.shift_mk]
  branches word c _ := by
    rw [parseBranches, parseBranches]
    rfl
  conditional opener c _ _ _ := by
    rw [parseConditional, parseConditional]
    simp [Parsed.shift, Conditional.shift_mk, Extent.shift, conditionalWord]
  compound opener c _ _ _ := by
    rw [parseCompound, parseCompound]
    simp [Parsed.shift, Compound.shift_mk, Extent.shift]
  command first start d c _ := by
    rw [parseCommand, parseCommand]
    exact CommandDraft.finish_shift h d first start c

section Succ

variable (h : src'.Ends src k n) (ih : Moved src' src k n fuel)

include h ih

omit h in
theorem statements_succ (stop : Token → Bool) (c : Cursor) (hstop : ∀ t : Token, stop (t.shift k) = stop t)
    (hc : src.Holds c) :
    parseStatements src' (fuel + 1) stop (c.shift k n) =
      (parseStatements src (fuel + 1) stop c).shift (List.map (Statement.shift k n)) k n := by
  have hs := hc.skipSeparators
  rw [parseStatements_succ, parseStatements_succ, Cursor.skipSeparators_shift, Cursor.rest_shift,
    listStep_shift hstop]
  cases hstep : listStep stop c.skipSeparators.rest with
  | done => rfl
  | stray t =>
    dsimp only [ListStep.shift]
    rw [Cursor.next_shift, ih.statements stop _ hstop hs.next]
    simp [Parsed.shift, Parsed.after, Problem.shift]
  | pass =>
    dsimp only [ListStep.shift]
    rw [Cursor.next_shift, ih.statements stop _ hstop hs.next]
  | statement t =>
    obtain ⟨rest, hrest, -⟩ := c.startsStatement_of_listStep hstep
    have hline := Token.not_isNewline_of_not_isSeparator (c.not_isSeparator_of_skipSeparators hrest)
    have hend := ((progress src fuel).statement t _ hs).1
    dsimp only [ListStep.shift]
    rw [ih.statement t _ hs (hrest ▸ rfl) hline]
    dsimp only [Parsed.shift]
    rw [ih.statements stop _ hstop hend.1]
    simp [Parsed.shift]

omit h in
theorem statement_succ (t : Token) (c : Cursor) (hc : src.Holds c) (hhead : c.rest.head? = some t)
    (hline : t.isNewline = false) :
    parseStatement src' (fuel + 1) (t.shift k) (c.shift k n) =
      (parseStatement src (fuel + 1) t c).shift (Statement.shift k n) k n := by
  rw [parseStatement_succ, parseStatement_succ]
  simp only [Token.isKeyword_shift, Cursor.index_shift]
  split
  · rw [ih.conditional t c hc hhead hline]
    simp [Parsed.shift, Parsed.map, Statement.shift]
  · split
    · rw [ih.compound t c hc hhead hline]
      simp [Parsed.shift, Parsed.map, Statement.shift]
    · have hempty : CommandDraft.empty = CommandDraft.empty.shift k n := rfl
      rw [hempty, ih.command t c.index _ c hc]
      simp [Parsed.shift, Parsed.map, Statement.shift, CommandDraft.shift, CommandDraft.empty]

theorem block_succ (opener : Token) (kind : BlockKind) (c : Cursor) (hc : src.Holds c) :
    parseBlock src' (fuel + 1) (opener.shift k) kind (c.shift k n) =
      (parseBlock src (fuel + 1) opener kind c).shift (Block.shift k n) k n := by
  have hcloses : ∀ t : Token, kind.closes (t.shift k) = kind.closes t := by
    intro t
    cases kind <;> simp [BlockKind.closes]
  rw [parseBlock_succ, parseBlock_succ, Cursor.next_shift, Cursor.params_shift]
  dsimp only
  rw [ih.statements _ _ hcloses hc.next.params, closeBody_shift h hcloses]
  simp [Parsed.shift, Block.shift_mk]

omit h in
theorem branch_succ (word : ConditionalWord) (branchWord : BranchWord) (t : Token) (c : Cursor)
    (hc : src.Holds c) :
    parseBranch src' fuel word branchWord (t.shift k) (c.shift k n) =
      (parseBranch src fuel word branchWord t c).shift
        (Prod.map (List.map (Branch.shift k n)) (Option.map (Token.shift k))) k n := by
  have hstop : ∀ t : Token, branchStop word branchWord (t.shift k) = branchStop word branchWord t := by
    intro t
    cases word <;> simp [branchStop, endsBranch]
  have hhead := hc.branchHead branchWord
  have hbody := ((progress src fuel).statements (branchStop word branchWord) _ hhead).1
  unfold parseBranch
  rw [Cursor.branchHead_shift]
  dsimp only
  rw [ih.statements _ _ hstop hhead]
  dsimp only [Parsed.shift]
  rw [ih.branches word _ hbody.1]
  simp [Parsed.shift, Branch.shift_mk]

omit h in
theorem branches_succ (word : ConditionalWord) (c : Cursor) (hc : src.Holds c) :
    parseBranches src' (fuel + 1) word (c.shift k n) =
      (parseBranches src (fuel + 1) word c).shift
        (Prod.map (List.map (Branch.shift k n)) (Option.map (Token.shift k))) k n := by
  rw [parseBranches_succ, parseBranches_succ, Cursor.skipSeparators_shift, Cursor.rest_shift,
    branchStep_shift]
  cases branchStep word c.skipSeparators.rest with
  | done => rfl
  | close t =>
    dsimp only [BranchStep.shift]
    rw [Cursor.next_shift]
    rfl
  | branch branchWord t =>
    dsimp only [BranchStep.shift]
    rw [Cursor.next_shift]
    exact ih.branch_succ word branchWord t _ hc.skipSeparators.next

omit h in
theorem allBranches_succ (opener : Token) (c : Cursor) (hc : src.Holds c) :
    parseAllBranches src' fuel (opener.shift k) (c.shift k n) =
      (parseAllBranches src fuel opener c).shift
        (Prod.map (List.map (Branch.shift k n)) (Option.map (Token.shift k))) k n := by
  have hword : conditionalWord (opener.shift k) = conditionalWord opener := by
    simp [conditionalWord]
  unfold parseAllBranches
  rw [hword]
  split
  · rw [Cursor.line_shift, Cursor.skipSeparators_shift]
    exact ih.branches _ _ (hc.line false).skipSeparators
  · exact ih.branch_succ _ _ opener c hc

theorem conditional_succ (opener : Token) (c : Cursor) (hc : src.Holds c)
    (hhead : c.rest.head? = some opener) (hline : opener.isNewline = false) :
    parseConditional src' (fuel + 1) (opener.shift k) (c.shift k n) =
      (parseConditional src (fuel + 1) opener c).shift (Conditional.shift k n) k n := by
  obtain ⟨hend, hstart⟩ := (progress src fuel).allBranches_succ opener _ hc.next
  rw [parseConditional_succ, parseConditional_succ, Cursor.next_shift, Cursor.line_shift,
    ih.allBranches_succ opener _ hc.next]
  exact closeConditional_shift h hc hhead hline _ hend hstart

theorem compound_succ (opener : Token) (c : Cursor) (hc : src.Holds c)
    (hhead : c.rest.head? = some opener) (hline : opener.isNewline = false) :
    parseCompound src' (fuel + 1) (opener.shift k) (c.shift k n) =
      (parseCompound src (fuel + 1) opener c).shift (Compound.shift k n) k n := by
  have hend := ((progress src fuel).compound_succ opener c hc).1.2
  rw [parseCompound_succ] at hend
  rw [parseCompound_succ, parseCompound_succ, Cursor.next_shift, Token.text_shift, Cursor.line_shift]
  dsimp only
  rw [ih.statements _ _ (fun t => t.isKeyword_shift k _) (hc.next.line _),
    closeBody_shift h (fun t => t.isKeyword_shift k _)]
  simp only [Cursor.index_shift, Token.stop_shift, h.endBefore_opener hc hhead hline hend]
  simp [Parsed.shift, Compound.shift_mk, Extent.shift]

theorem command_succ (first : Token) (start : Nat) (d : CommandDraft) (c : Cursor)
    (hc : src.Holds c) :
    parseCommand src' (fuel + 1) (first.shift k) (start + n) (d.shift k n) (c.shift k n) =
      (parseCommand src (fuel + 1) first start d c).shift (Command.shift k n) k n := by
  have hp := progress src fuel
  -- a step that takes a token stands at one that ends no line
  have htoken : ∀ {t}, (d.step c.rest).token? = some t →
      c.rest.head? = some t ∧ t.isNewline = false := by
    intro t ht
    obtain ⟨⟨rest, hrest⟩, hsep⟩ := CommandDraft.step_token ht
    exact ⟨by rw [hrest]; rfl, Token.not_isNewline_of_not_isSeparator hsep⟩
  have hafter : ∀ (problems : List Problem) (p : Parsed Command),
      (p.shift (Command.shift k n) k n).after (problems.map (Problem.shift k)) =
        (p.after problems).shift (Command.shift k n) k n := by
    intro problems p
    simp [Parsed.shift, Parsed.after]
  rw [parseCommand_succ, parseCommand_succ, Cursor.rest_shift, CommandDraft.step_shift]
  cases hstep : d.step c.rest with
  | done => exact CommandDraft.finish_shift h d first start c
  | skip =>
    dsimp only [CommandStep.shift]
    rw [Cursor.next_shift, ih.command first start d _ hc.next]
  | push t =>
    dsimp only [CommandStep.shift]
    rw [Cursor.next_shift, CommandDraft.push_shift, ih.command first start _ _ hc.next]
  | modifier t =>
    dsimp only [CommandStep.shift]
    rw [Cursor.next_shift, Cursor.line_shift, CommandDraft.addModifier_shift,
      CommandDraft.finish_shift h]
  | conditional t =>
    obtain ⟨hhead, hline⟩ := htoken (by rw [hstep]; rfl)
    have hend := (hp.conditional t c hc).1
    dsimp only [CommandStep.shift]
    rw [ih.conditional t c hc hhead hline]
    dsimp only [Parsed.shift, Cursor.index_shift]
    rw [CommandDraft.addRun_shift, ih.command first start _ _ hend.1, hafter]
    rfl
  | compound t =>
    obtain ⟨hhead, hline⟩ := htoken (by rw [hstep]; rfl)
    have hend := (hp.compound t c hc).1
    dsimp only [CommandStep.shift]
    rw [ih.compound t c hc hhead hline]
    dsimp only [Parsed.shift, Cursor.index_shift]
    rw [CommandDraft.addRun_shift, ih.command first start _ _ hend.1, hafter]
    rfl
  | block t kind =>
    have hend := hp.block t kind c hc
    dsimp only [CommandStep.shift]
    rw [ih.block t kind c hc]
    unfold parseAfterBlock
    dsimp only [Parsed.shift]
    rw [Block.closer_shift, CommandDraft.addBlock_shift]
    cases (parseBlock src fuel t kind c).value.closer with
    | some u =>
      dsimp only [Option.map_some]
      rw [ih.command first start _ _ hend.1, hafter]
      rfl
    | none =>
      dsimp only [Option.map_none]
      rw [CommandDraft.finish_shift h, hafter]
      rfl

end Succ

end Moved

/-- A file at the end of a longer one is read as it is by itself, further right. -/
theorem moved {src' src : TokenSource} {k n : Nat} (h : src'.Ends src k n) (fuel : Nat) :
    Moved src' src k n fuel := by
  induction fuel with
  | zero => exact .zero h
  | succ fuel ih =>
    exact ⟨ih.statements_succ, ih.statement_succ, ih.block_succ h, ih.branches_succ,
      ih.conditional_succ h, ih.compound_succ h, ih.command_succ h⟩

end Cookbook
