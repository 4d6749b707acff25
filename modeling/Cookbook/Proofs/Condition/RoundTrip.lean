import Cookbook.Proofs.Attribute.RoundTrip
import Cookbook.Proofs.Condition.Chains
import Cookbook.Proofs.Condition.Printing
import Cookbook.Proofs.Value.Reporting

/-!
Printed conditions are read back. The tokens of a printed condition are a chain of parts, and each part
is read as the member that it was printed for.

* `isWhole_pieces` and `clearValue?_pieces` are about values as operands;
* `reads_compare`, `comparison?_path` and `reads_fileCall` are the conditions without members;
* `lexes_joined` gives the tokens of printed members with their signs, `printed_of_isPrintable` goes
  through the conditions, and `parseCondition?_print` is the whole round trip.
-/

namespace Cookbook

open Canonical (breaks Ready)
open NormalizeContext (opensGroup)
open Written

/-! ### Values as operands -/

/-- A token of a value ends no operand, negates nothing and is no parenthesis. -/
theorem Written.inValue_token {p : Placed} (h : p.piece.inValue = true) (pos : Nat) :
    (p.token pos).endsOperand = false ∧ (p.token pos).negates = false ∧
      (p.token pos).isPunct ["("] = false := by
  obtain ⟨spaced, piece⟩ := p
  cases piece with
  | word w =>
    have hplain := isPlain_token (p := ⟨spaced, .word w⟩) h pos
    have hpunct := isPunct_word pos spaced w
    have hcompare : ((⟨spaced, .word w⟩ : Placed).token pos).compareOp? = none := by
      simp only [Token.compareOp?, Token.valueOf?, PlacedPiece.token, isPiece_content, Piece.content]
      cases keywords.contains w <;> rfl
    refine ⟨?_, ?_, hpunct _⟩
    · simp [Token.endsOperand, Token.endsGroup, Token.isAnd, Token.isOr, hpunct, hcompare,
        hplain.notKeyword ["and"] (by decide), hplain.notKeyword ["or"] (by decide)]
    · simp [Token.negates, hpunct, hplain.notKeyword ["not"] (by decide)]
  | mark t =>
    simp only [Piece.inValue, valueMarks, List.contains_iff_mem, List.mem_cons, List.not_mem_nil,
      or_false] at h
    rcases h with rfl | rfl | rfl | rfl | rfl | rfl | rfl <;> exact ⟨rfl, rfl, rfl⟩
  | string value => exact ⟨rfl, rfl, rfl⟩
  | symbol name => exact ⟨rfl, rfl, rfl⟩
  | template segments => exact ⟨rfl, rfl, rfl⟩
  | number n => exact ⟨rfl, rfl, rfl⟩

/-- A run that keeps its brackets in pairs and has no token that ends an operand is whole. -/
theorem isWhole_of_closing {run : List Token} (hrun : ∀ t ∈ run, t.endsOperand = false) {closer : Token}
    (hcloser : closer.isCloser = true) {depth : Nat}
    (h : closing? (depth + 1) (run ++ [closer]) = some run.length) : isWhole depth run = true := by
  induction run generalizing depth with
  | nil =>
    have hopener := Token.not_isOpener_of_isCloser hcloser
    rw [List.nil_append, closing?, depthAfter_closer hopener hcloser] at h
    by_cases hdepth : depth = 0
    · simp [isWhole, hdepth]
    · have hnot : ¬(closer.isCloser = true ∧ (depth : Int) + 1 - 1 = 0) := by
        rintro ⟨-, hzero⟩
        omega
      rw [if_neg hnot] at h
      simp [closing?] at h
  | cons t run ih =>
    have hrest := fun u hu => hrun u (List.mem_cons_of_mem _ hu)
    rw [List.cons_append, closing?] at h
    -- the closer that ends the search is the last token
    have hnot : ¬(t.isCloser = true ∧ depthAfter (depth + 1) t = 0) := by
      intro hstop
      rw [if_pos hstop] at h
      simp at h
    rw [if_neg hnot] at h
    have hnext : closing? (depthAfter (depth + 1) t) (run ++ [closer]) = some run.length := by
      simpa using h
    rw [isWhole]
    by_cases hopener : t.isOpener = true
    · rw [depthAfter_opener hopener] at hnext
      rw [if_pos hopener]
      exact ih hrest hnext
    · rw [if_neg hopener]
      by_cases hclose : t.isCloser = true
      · rw [depthAfter_closer (by simpa using hopener) hclose] at hnext hnot
        have hne : (depth : Int) + 1 - 1 ≠ 0 := fun hzero => hnot ⟨hclose, hzero⟩
        obtain ⟨d, rfl⟩ : ∃ d, depth = d + 1 := ⟨depth - 1, by omega⟩
        have hdepth : ((d + 1 : Nat) : Int) + 1 - 1 = d + 1 := by omega
        rw [hdepth] at hnext
        simpa [hclose] using ih hrest hnext
      · rw [depthAfter_other (by simpa using hopener) (by simpa using hclose)] at hnext
        rw [if_neg hclose, hrun t List.mem_cons_self]
        simpa using ih hrest hnext

theorem Value.verbatims_of_isPrintable {v : Value} (h : v.isPrintable = true) : v.verbatims = [] := by
  apply Value.printable_ind (h := h)
  case text => exact fun t => rfl
  case number => exact fun n _ => rfl
  case bool => exact fun b => rfl
  case nil => rfl
  case symbol => exact fun name => rfl
  case path => exact fun scope keys _ => rfl
  case interpolation =>
    intro segments hsegments
    simp only [isNormal, Bool.and_eq_true] at hsegments
    rw [verbatims, verbatimsIn_eq, List.flatMap_eq_nil_iff]
    intro v hv
    rcases Value.isSegment_cases (List.all_eq_true.1 hsegments.1.1 v hv) with ⟨t, -, rfl⟩ |
      ⟨scope, keys, -, rfl⟩
    · rfl
    · rfl
  case list =>
    intro items _ ih
    rw [verbatims, verbatimsIn_eq, List.flatMap_eq_nil_iff]
    exact ih
  case map =>
    intro entries _ ih
    rw [verbatims, verbatimsOf_eq, List.flatMap_eq_nil_iff]
    exact ih

section Operand

variable (ctx : NormalizeContext) {v : Value} (h : v.isPrintable = true) (spaced : Bool) (pos : Nat)

include h

theorem layout_pieces_ne_nil : layout pos (Written.pieces spaced v) ≠ [] :=
  layout_ne_nil (pieces_nonempty h spaced) pos

/-- No token of a value ends an operand, negates or is a parenthesis. -/
theorem mem_layout_pieces : ∀ t ∈ layout pos (Written.pieces spaced v),
    t.endsOperand = false ∧ t.negates = false ∧ t.isPunct ["("] = false := by
  intro t ht
  obtain ⟨p, hp, pos', rfl⟩ := mem_layout ht
  exact inValue_token (inValue_pieces h spaced p hp) pos'

theorem isWhole_pieces : isWhole 0 (layout pos (Written.pieces spaced v)) = true := by
  let closer : Token := ⟨.name .punct ")", 0, 0, [], false⟩
  have hclosing := (passes_pieces h spaced pos).closing 1 (by decide) [closer]
  have hlast : closing? 1 [closer] = some 0 := rfl
  rw [hlast, Option.map_some, Nat.zero_add] at hclosing
  exact isWhole_of_closing (fun t ht => (mem_layout_pieces h spaced pos t ht).1)
    (show closer.isCloser = true from rfl) hclosing

theorem head?_pieces : ∃ t rest, layout pos (Written.pieces spaced v) = t :: rest ∧
    t.negates = false ∧ t.isPunct ["("] = false := by
  obtain ⟨t, rest, hlayout⟩ := List.exists_cons_of_ne_nil (layout_pieces_ne_nil h spaced pos)
  have ht := mem_layout_pieces h spaced pos t (by rw [hlayout]; exact List.mem_cons_self)
  exact ⟨t, rest, hlayout, ht.2⟩

theorem clearValue?_pieces : ctx.clearValue? (layout pos (Written.pieces spaced v)) = some v := by
  have hempty : (layout pos (Written.pieces spaced v)).isEmpty = false := by
    simpa using layout_pieces_ne_nil h spaced pos
  have hclear : v.isClear = true := by
    rw [Value.isClear, Value.verbatims_of_isPrintable h]
    rfl
  unfold NormalizeContext.clearValue?
  rw [hempty, normalize_pieces ctx h]
  simp [Normalized.clean, hclear]

/-- No value starts like a call of a command. -/
theorem head?_not_shellOut :
    (layout pos (Written.pieces spaced v)).head?.any (·.isIdent ["shell_out", "shell_out!"]) = false := by
  revert spaced
  apply Value.printable_ind (h := h)
  case number =>
    intro n _ spaced
    rw [Written.pieces, intPieces]
    split <;> rfl
  case bool =>
    intro b spaced
    cases b <;> rfl
  case path =>
    intro scope keys _ spaced
    cases scope <;> rfl
  all_goals
    intros
    rfl

end Operand

/-! ### Conditions without members -/

section Atoms

variable (ctx : NormalizeContext)

theorem Token.compareOp?_of_content {t : Token} {op : CompareOp} (h : t.content = .name .punct op.sign) :
    t.compareOp? = some op := by
  simp only [compareOp?, valueOf?, h]
  cases op <;> rfl

/-- The name of a call is the first token of its run. -/
theorem Call.name_of_ofRun? {t : Token} {rest : List Token} {call : Call}
    (h : Call.ofRun? (t :: rest) = some call) : call.name = t := by
  rw [Call.ofRun?] at h
  split at h
  · split at h <;> rw [← Option.some.inj h]
  · rw [← Option.some.inj h]

/-- Only a call of a command is asked for its exit status. -/
theorem exitStatus?_eq_none {left : List Token}
    (h : left.head?.any (·.isIdent ["shell_out", "shell_out!"]) = false) (op : CompareOp)
    (right : List Token) : ctx.exitStatus? left op right = none := by
  cases left with
  | nil => rfl
  | cons t left =>
    unfold NormalizeContext.exitStatus?
    cases hcall : Call.ofRun? (t :: left) with
    | none => rfl
    | some call =>
      have hname : call.name.isIdent ["shell_out", "shell_out!"] = false := by
        rw [Call.name_of_ofRun? hcall]
        exact h
      simp [hname]

variable {ctx} in
theorem reads_compare {left right : Value} (hleft : left.isPrintable = true)
    (hright : right.isPrintable = true) {op : CompareOp} {t : Token}
    (ht : t.content = .name .punct op.sign) (spaced spaced' : Bool) (pos pos' : Nat) :
    Part.Reads ctx ⟨layout pos (Written.pieces spaced left) ++
      t :: layout pos' (Written.pieces spaced' right), some (.compare left op right)⟩ := by
  have hop := Token.compareOp?_of_content ht
  obtain ⟨u, rest, hlayout, hnegates, hparen⟩ := head?_pieces hleft spaced pos
  have hwhole := isWhole_pieces hleft spaced pos
  have hwhole' := isWhole_pieces hright spaced' pos'
  have hcondition : ctx.comparison? (layout pos (Written.pieces spaced left) ++
      t :: layout pos' (Written.pieces spaced' right)) = some (.compare left op right, []) := by
    have hends : (t :: layout pos' (Written.pieces spaced' right)).head?.all Token.endsOperand = true := by
      simp [Token.endsOperand, hop]
    unfold NormalizeContext.comparison?
    rw [operand?_append hwhole hends]
    simp only [Option.bind_eq_bind, Option.bind_some, List.head?_cons, List.tail_cons, hop,
      operand?_self hwhole', exitStatus?_eq_none ctx (head?_not_shellOut hleft spaced pos),
      clearValue?_pieces ctx hleft, clearValue?_pieces ctx hright]
    rfl
  have hpart : Part.Reads ctx ⟨_, _⟩ := .compare hop (layout_pieces_ne_nil hleft spaced pos) hwhole hwhole'
    (by rw [hlayout]; simpa using hnegates) (fun more => by rw [hlayout]; simp [opensGroup, hparen])
  rw [hcondition] at hpart
  exact hpart

variable {ctx} in
/-- An operand whose condition is known is a part. -/
theorem reads_operand {run : List Token} {c : Condition} (hne : run ≠ []) (hwhole : isWhole 0 run = true)
    (hhead : run.head?.any (fun t => t.negates || t.isPunct ["("]) = false)
    (h : ctx.comparison? run = some (c, [])) : Part.Reads ctx ⟨run, some c⟩ := by
  obtain ⟨t, rest, rfl⟩ := List.exists_cons_of_ne_nil hne
  obtain ⟨hnegates, hparen⟩ := Bool.or_eq_false_iff.1 hhead
  have hpart : Part.Reads ctx ⟨_, _⟩ := .operand hne hwhole hnegates (by simp [opensGroup, hparen])
  rw [h] at hpart
  exact hpart

theorem comparison?_const (b spaced : Bool) (pos : Nat) :
    ctx.comparison? (layout pos (Written.pieces spaced (.literal (.bool b)))) = some (.const b, []) := by
  have hwhole : isWhole 0 (layout pos (Written.pieces spaced (.literal (.bool b)))) = true :=
    isWhole_pieces rfl spaced pos
  unfold NormalizeContext.comparison?
  rw [operand?_self hwhole]
  cases b <;> rfl

theorem nilTest?_eq_none {run : List Token} (h : ∀ t ∈ run, t.isIdent ["nil?"] = false) :
    ctx.nilTest? run = none := by
  unfold NormalizeContext.nilTest?
  split
  · rename_i method dot subject hrun
    have hmem : method ∈ run := by
      rw [← List.mem_reverse, hrun]
      exact List.mem_cons_self
    simp [h method hmem]
  · rfl

theorem comparison?_path (scope : Scope) {keys : List Text} (hkeys : keys ≠ []) (spaced : Bool)
    (pos : Nat) :
    ctx.comparison? (layout pos (Written.pieces spaced (.path scope keys))) =
      some (.truthy (.path scope keys), []) := by
  have hprintable : (Value.path scope keys).isPrintable = true := by
    simpa [Value.isPrintable] using hkeys
  have hnil : ∀ t ∈ layout pos (Written.pieces spaced (.path scope keys)), t.isIdent ["nil?"] = false := by
    intro t ht
    obtain ⟨p, hp, pos', rfl⟩ := mem_layout ht
    rw [Written.pieces, pathPieces, List.mem_cons, List.mem_flatMap] at hp
    rcases hp with rfl | ⟨key, -, hp⟩
    · cases scope <;> rfl
    · simp only [keyPieces, List.mem_cons, List.not_mem_nil, or_false] at hp
      rcases hp with rfl | rfl | rfl <;> rfl
  have hpredicate : ctx.predicate? (layout pos (Written.pieces spaced (.path scope keys))) = none := by
    have hnone := nilTest?_eq_none ctx hnil
    obtain ⟨key, keys, rfl⟩ := List.exists_cons_of_ne_nil hkeys
    cases scope <;> exact hnone
  have hvalue := clearValue?_pieces ctx hprintable spaced pos
  have hwhole := isWhole_pieces hprintable spaced pos
  obtain ⟨key, keys, rfl⟩ := List.exists_cons_of_ne_nil hkeys
  unfold NormalizeContext.comparison?
  rw [operand?_self hwhole]
  simp only [Option.bind_eq_bind, Option.bind_some, List.head?_nil, Option.bind_none, hpredicate, hvalue]
  rfl

/-- A call with a value in the parentheses right after its name. -/
theorem ofRun?_parenthesized {v : Value} (h : v.isPrintable = true) (spaced : Bool) (pos : Nat)
    {name paren close : Token} (hparen : paren.content = .name .punct "(")
    (hspace : paren.spaceBefore = false) (hclose : close.content = .name .punct ")") :
    Call.ofRun? (name :: paren :: (layout pos (Written.pieces spaced v) ++ [close])) =
      some ⟨name, [.positional (layout pos (Written.pieces spaced v))], []⟩ := by
  have hopen : paren.isPunct ["("] = true := Token.isPunct_of_content hparen
  have hshut : close.isPunct [")"] = true := Token.isPunct_of_content hclose
  have hclosing := (Passes.parentheses hopen hshut ((passes_pieces h spaced pos).mono (by decide))).2 []
  have hargs := Canonical.ofRun_positional (layout_pieces_ne_nil h spaced pos)
    (passes_pieces h spaced pos).pieces_self (starts_pieces pos spaced h).2
  rw [Call.ofRun?, if_pos (by simp [hopen, hspace]), hclosing]
  simp [hargs]

theorem predicate?_file {kind : TestKind} {method : Text} (hkind : kind.fileMethod? = some method)
    {file dot name : Token} (hfile : file.content = .name .const "File")
    (hdot : dot.content = .name .punct ".") (hname : name.content = .name .ident method)
    (args : List Token) :
    ctx.predicate? (file :: dot :: name :: args) = ctx.fileCall? kind (name :: args) := by
  have htest : NormalizeContext.fileTest? "File" method = some kind := by
    cases kind <;> simp only [TestKind.fileMethod?, Option.some.injEq, reduceCtorEq] at hkind <;>
      subst hkind <;> rfl
  have hcolons : file.isPunct ["::"] = false := by simp [Token.isPunct, Token.isOneOf, hfile]
  have hcalls : dot.isPunct ["."] = true := Token.isPunct_of_content hdot
  have hreceiver : file.valueOf? .const = some "File" := by simp [Token.valueOf?, hfile]
  have hmethod : name.valueOf? .ident = some method := by simp [Token.valueOf?, hname]
  unfold NormalizeContext.predicate?
  simp [hcolons, hcalls, hreceiver, hmethod, htest]

variable {ctx} in
theorem reads_fileCall {kind : TestKind} {method : Text} (hkind : kind.fileMethod? = some method)
    {v : Value} (h : v.isPrintable = true) (spaced : Bool) (pos : Nat) {file dot name paren close : Token}
    (hfile : file.content = .name .const "File") (hdot : dot.content = .name .punct ".")
    (hname : name.content = .name .ident method) (hparen : paren.content = .name .punct "(")
    (hspace : paren.spaceBefore = false) (hclose : close.content = .name .punct ")") :
    Part.Reads ctx ⟨file :: dot :: name :: paren :: (layout pos (Written.pieces spaced v) ++ [close]),
      some (.test kind v)⟩ := by
  have hpredicate := predicate?_file ctx hkind hfile hdot hname
    (paren :: (layout pos (Written.pieces spaced v) ++ [close]))
  have hcall : ctx.fileCall? kind (name :: paren :: (layout pos (Written.pieces spaced v) ++ [close])) =
      some (.test kind v) := by
    unfold NormalizeContext.fileCall?
    rw [ofRun?_parenthesized h spaced pos hparen hspace hclose]
    simp [clearValue?_pieces ctx h]
  have hwhole : isWhole 0 (file :: dot :: name :: paren ::
      (layout pos (Written.pieces spaced v) ++ [close])) = true := by
    have hinner := isWhole_append (isWhole_pieces h spaced pos) 1 [close]
    obtain ⟨content, start, stop, text, space⟩ := file
    obtain rfl : content = _ := hfile
    obtain ⟨content, start, stop, text, space⟩ := dot
    obtain rfl : content = _ := hdot
    obtain ⟨content, start, stop, text, space⟩ := name
    obtain rfl : content = _ := hname
    obtain ⟨content, start, stop, text, space⟩ := paren
    obtain rfl : content = _ := hparen
    obtain ⟨content, start, stop, text, space⟩ := close
    obtain rfl : content = _ := hclose
    exact hinner
  refine reads_operand (List.cons_ne_nil _ _) hwhole ?_ ?_
  · simp [Token.negates, Token.isPunct, Token.isKeyword, Token.isOneOf, hfile]
  · unfold NormalizeContext.comparison?
    rw [operand?_self hwhole]
    simp [hpredicate, hcall]

end Atoms

/-! ### Conditions with members -/

/-- The run is a chain that spells the condition. -/
def Spells (ctx : NormalizeContext) (c : Condition) (run : List Token) : Prop :=
  ∃ chain : Chain Part, chain.Reads ctx ∧ chain.tokens = run ∧ chain.condition? = some c

/-- The chain has a part for each of the conditions, with links of one kind between them. -/
inductive Linked (ctx : NormalizeContext) (link : Part → Token → Chain Part → Chain Part)
    (isLink : Token → Bool) : List Condition → Chain Part → Prop
  | last {c run} (hpart : Part.Reads ctx ⟨run, some c⟩) : Linked ctx link isLink [c] (.last ⟨run, some c⟩)
  | cons {c cs run join chain} (hpart : Part.Reads ctx ⟨run, some c⟩) (hjoin : isLink join = true)
      (hchain : Linked ctx link isLink cs chain) :
      Linked ctx link isLink (c :: cs) (link ⟨run, some c⟩ join chain)

section Members

variable {ctx : NormalizeContext}

theorem Part.Reads.spells {c : Condition} {run : List Token} (h : Part.Reads ctx ⟨run, some c⟩) :
    Spells ctx c run :=
  ⟨.last ⟨run, some c⟩, h, rfl, rfl⟩

theorem Linked.spells_all {cs : List Condition} {chain : Chain Part}
    (h : Linked ctx .both Token.isAnd cs chain) :
    chain.Reads ctx ∧ chain.row? = some cs ∧ chain.later? = some [] := by
  induction h with
  | last hpart => exact ⟨hpart, rfl, rfl⟩
  | cons hpart hjoin _ ih =>
    obtain ⟨hreads, hrow, hlater⟩ := ih
    refine ⟨⟨hpart, hjoin, hreads⟩, ?_, hlater⟩
    rw [Chain.row?, hrow]
    rfl

theorem Linked.spells_any {cs : List Condition} {chain : Chain Part}
    (h : Linked ctx .either Token.isOr cs chain) :
    chain.Reads ctx ∧ ∃ c rest, cs = c :: rest ∧ chain.row? = some [c] ∧ chain.later? = some rest := by
  induction h with
  | last hpart => exact ⟨hpart, _, [], rfl, rfl, rfl⟩
  | cons hpart hjoin _ ih =>
    obtain ⟨hreads, d, rest, rfl, hrow, hlater⟩ := ih
    refine ⟨⟨hpart, hjoin, hreads⟩, _, d :: rest, rfl, rfl, ?_⟩
    rw [Chain.later?, hrow, hlater]
    rfl

/-- What the tokens of a condition are like, before a text that may follow it. A condition that is
neither a conjunction nor a disjunction is a part by itself. -/
def Printed (ctx : NormalizeContext) (c : Condition) : Prop :=
  ∀ rest : Text, rest.head?.all breaks.contains = true →
    Lexes c.print rest (Spells ctx c) ∧
      (c.isJoined = false → Lexes c.print rest fun run => Part.Reads ctx ⟨run, some c⟩)

theorem Printed.of_part {c : Condition}
    (h : ∀ rest : Text, rest.head?.all breaks.contains = true →
      Lexes c.print rest fun run => Part.Reads ctx ⟨run, some c⟩) : Printed ctx c :=
  fun rest hrest => ⟨(h rest hrest).imp fun _ hpart => hpart.spells, fun _ => h rest hrest⟩

/-- In parentheses every condition is a part, and some are without them. -/
theorem Printed.parenthesized {c : Condition} (h : Printed ctx c) {b : Bool}
    (hb : c.isJoined = true → b = true) {rest : Text} (hrest : rest.head?.all breaks.contains = true) :
    Lexes (parenthesized b c.print) rest fun run => Part.Reads ctx ⟨run, some c⟩ := by
  cases b with
  | false =>
    have hjoined : c.isJoined = false := by
      by_contra hjoined
      exact absurd (hb (by simpa using hjoined)) (by decide)
    exact (h rest hrest).2 hjoined
  | true =>
    have hinner := (h (")" ++ rest) (by rfl)).1
    have hopener := lexes_bracket (c := '(') (by decide) (c.print ++ (")" ++ rest))
    have hcloser := lexes_bracket (c := ')') (by decide) rest
    refine ((hopener.append false hinner).append false hcloser).imp ?_
    rintro run ⟨-, -, rfl, ⟨-, inner, rfl, ⟨opener, rfl, hopen⟩, chain, hreads, rfl, hcondition⟩,
      closer, rfl, hclose⟩
    have hopen : opener.isPunct ["("] = true := Token.isPunct_of_content hopen
    have hclose : closer.isPunct [")"] = true := Token.isPunct_of_content hclose
    have hpart := Part.Reads.grouped hopen hclose hreads
    rw [hcondition] at hpart
    exact hpart

theorem lexes_joined {link : Part → Token → Chain Part → Chain Part} {isLink : Token → Bool}
    (htokens : ∀ p join chain, (link p join chain).tokens = p.run ++ join :: chain.tokens) {op : Text}
    (hop : op ∈ operators) (hlink : ∀ t : Token, t.content = .name .punct op → isLink t = true)
    {c : Condition} {cs : List Condition} (h : ∀ d ∈ c :: cs, Printed ctx d) {rest : Text}
    (hrest : rest.head?.all breaks.contains = true) :
    Lexes (Text.join (" " ++ op ++ " ") (printMembers (c :: cs))) rest fun run =>
      ∃ chain, Linked ctx link isLink (c :: cs) chain ∧ chain.tokens = run := by
  rw [printMembers_eq]
  induction cs generalizing c with
  | nil =>
    have hmember : Lexes c.printMember rest fun run => Part.Reads ctx ⟨run, some c⟩ :=
      (h c List.mem_cons_self).parenthesized id hrest
    simp only [List.map_cons, List.map_nil, Text.join, List.intercalate_singleton]
    exact hmember.imp fun run hpart => ⟨_, .last hpart, rfl⟩
  | cons d cs ih =>
    have hmore := ih (c := d) fun e he => h e (List.mem_cons_of_mem _ he)
    let more := Text.join (" " ++ op ++ " ") ((d :: cs).map Condition.printMember)
    have hjoin := (lexes_operator hop (more ++ rest)).append true hmore
    have hmember : Lexes c.printMember (PlacedPiece.blank true ++ (op ++ (PlacedPiece.blank true ++ more)) ++ rest)
        fun run => Part.Reads ctx ⟨run, some c⟩ :=
      (h c List.mem_cons_self).parenthesized id rfl
    have htext : Text.join (" " ++ op ++ " ") ((c :: d :: cs).map Condition.printMember) =
        c.printMember ++ (PlacedPiece.blank true ++ (op ++ (PlacedPiece.blank true ++ more))) := by
      simp only [List.map_cons, Text.join, List.intercalate_cons_cons, more, PlacedPiece.blank, if_true,
        List.append_assoc]
    rw [htext]
    refine (hmember.append true hjoin).imp ?_
    rintro run ⟨first, -, rfl, hpart, -, -, rfl, ⟨t, rfl, ht⟩, chain, hlinked, rfl⟩
    exact ⟨_, .cons hpart (hlink t ht) hlinked, htokens _ _ _⟩

/-- What is negated does not make a longer mark of the one before it. -/
theorem head?_negated {c : Condition} (h : c.isPrintable = true) (rest : Text) :
    ∃ u, (parenthesized c.isLoose c.print ++ rest).head? = some u ∧ u ≠ ('=' : CodeUnit) ∧
      u ≠ ('~' : CodeUnit) := by
  have hparen : ∀ text : Text, ∃ u, (parenthesized true text ++ rest).head? = some u ∧
      u ≠ ('=' : CodeUnit) ∧ u ≠ ('~' : CodeUnit) :=
    fun text => ⟨'(', rfl, by decide, by decide⟩
  apply Condition.printable_ind (h := h)
  case const =>
    intro b
    cases b <;> exact ⟨_, rfl, by decide, by decide⟩
  case test => exact fun kind method subject _ _ => ⟨'F', rfl, by decide, by decide⟩
  case compare => exact fun left op right _ _ => hparen _
  case truthy =>
    intro scope keys _
    cases scope <;> exact ⟨_, rfl, by decide, by decide⟩
  case not => exact fun c _ _ => ⟨'!', rfl, by decide, by decide⟩
  case all => exact fun c d cs _ => hparen _
  case any => exact fun c d cs _ => hparen _

theorem reads_value {v : Value} (h : v.isPrintable = true) {spaced : Bool} {pos : Nat} {c : Condition}
    (hc : ctx.comparison? (layout pos (Written.pieces spaced v)) = some (c, [])) :
    Part.Reads ctx ⟨layout pos (Written.pieces spaced v), some c⟩ := by
  obtain ⟨t, rest, hlayout, hnegates, hparen⟩ := head?_pieces h spaced pos
  refine reads_operand (layout_pieces_ne_nil h spaced pos) (isWhole_pieces h spaced pos) ?_ hc
  rw [hlayout]
  simp [hnegates, hparen]

variable (ctx)

theorem printed_const (b : Bool) : Printed ctx (.const b) := by
  refine .of_part fun rest hrest => ?_
  have hvalue : Lexes (Value.literal (.bool b)).print rest _ := Lexes.value rfl hrest
  refine hvalue.imp ?_
  rintro run ⟨spaced, pos, rfl⟩
  exact reads_value rfl (comparison?_const ctx b spaced pos)

theorem printed_test {kind : TestKind} {method : Text} (hkind : kind.fileMethod? = some method)
    {subject : Value} (hsubject : subject.isPrintable = true) : Printed ctx (.test kind subject) := by
  refine .of_part fun rest hrest => ?_
  have hstart := lexes_fileMethod hkind (subject.print ++ (")" ++ rest))
  have hvalue : Lexes subject.print (")" ++ rest) _ := Lexes.value hsubject rfl
  have hclose := lexes_bracket (c := ')') (by decide) rest
  have htext : (Condition.test kind subject).print = "File." ++ method ++ "(" ++ subject.print ++ ")" := by
    rw [Condition.print, hkind, Option.getD_some]
  rw [htext]
  refine ((hstart.append false hvalue).append false hclose).imp ?_
  rintro run ⟨-, -, rfl, ⟨-, -, rfl, ⟨file, dot, name, paren, rfl, hfile, hdot, hname, hparen, hspace⟩,
    spaced, pos, rfl⟩, close, rfl, hclose⟩
  exact reads_fileCall hkind hsubject spaced pos hfile hdot hname hparen hspace hclose

theorem printed_compare {left right : Value} (hleft : left.isPrintable = true)
    (hright : right.isPrintable = true) (op : CompareOp) : Printed ctx (.compare left op right) := by
  refine .of_part fun rest hrest => ?_
  have hop : op.sign ∈ operators := by
    cases op <;> decide
  have hvalue := Lexes.value hright hrest
  have hsign := (lexes_operator hop (right.print ++ rest)).append true hvalue
  have hfirst : Lexes left.print
    (PlacedPiece.blank true ++ (op.sign ++ (PlacedPiece.blank true ++ right.print)) ++ rest) _ := Lexes.value hleft rfl
  have htext : (Condition.compare left op right).print =
      left.print ++ (PlacedPiece.blank true ++ (op.sign ++ (PlacedPiece.blank true ++ right.print))) := by
    simp only [Condition.print, PlacedPiece.blank, if_true, List.append_assoc]
  rw [htext]
  refine (hfirst.append true hsign).imp ?_
  rintro run ⟨-, -, rfl, ⟨spaced, pos, rfl⟩, -, -, rfl, ⟨t, rfl, ht⟩, spaced', pos', rfl⟩
  exact reads_compare hleft hright ht spaced spaced' pos pos'

theorem printed_truthy (scope : Scope) {keys : List Text} (hkeys : keys ≠ []) :
    Printed ctx (.truthy (.path scope keys)) := by
  have hprintable : (Value.path scope keys).isPrintable = true := by
    simpa [Value.isPrintable] using hkeys
  refine .of_part fun rest hrest => (Lexes.value hprintable hrest).imp ?_
  rintro run ⟨spaced, pos, rfl⟩
  exact reads_value hprintable (comparison?_path ctx scope hkeys spaced pos)

variable {ctx}

theorem printed_not {c : Condition} (h : Printed ctx c) (hc : c.isPrintable = true) :
    Printed ctx (.not c) := by
  have hloose : c.isJoined = true → c.isLoose = true := by
    cases c <;> simp [Condition.isJoined, Condition.isLoose]
  refine .of_part fun rest hrest => ?_
  obtain ⟨u, hu, hequals, htilde⟩ := head?_negated hc rest
  have hbang : Lexes "!" (parenthesized c.isLoose c.print ++ rest) _ :=
    lexes_bang ⟨by rw [hu]; simpa using hequals, by rw [hu]; simpa using htilde⟩
  refine (hbang.append false (h.parenthesized hloose hrest)).imp ?_
  rintro run ⟨-, operand, rfl, ⟨t, rfl, ht⟩, hpart⟩
  have hnegates : t.negates = true := by
    rw [Token.negates, Token.isPunct_of_content ht, Bool.true_or]
  exact hpart.negated hnegates

theorem printed_all {c d : Condition} {cs : List Condition} (h : ∀ e ∈ c :: d :: cs, Printed ctx e) :
    Printed ctx (.all (c :: d :: cs)) := by
  intro rest hrest
  refine ⟨?_, fun hjoined => absurd hjoined (by simp [Condition.isJoined])⟩
  have hlink : ∀ t : Token, t.content = .name .punct "&&" → t.isAnd = true := by
    intro t ht
    rw [Token.isAnd, Token.isPunct_of_content ht, Bool.true_or]
  have htokens : ∀ p join chain, (Chain.both p join chain).tokens = p.run ++ join :: chain.tokens :=
    fun _ _ _ => rfl
  refine (lexes_joined htokens (by decide) hlink h hrest).imp ?_
  rintro run ⟨chain, hlinked, rfl⟩
  -- the members are the first conjunction, and no other follows
  obtain ⟨hreads, hrow, hlater⟩ := Linked.spells_all hlinked
  refine ⟨chain, hreads, rfl, ?_⟩
  rw [Chain.condition?, hrow, hlater]
  rfl

theorem printed_any {c d : Condition} {cs : List Condition} (h : ∀ e ∈ c :: d :: cs, Printed ctx e) :
    Printed ctx (.any (c :: d :: cs)) := by
  intro rest hrest
  refine ⟨?_, fun hjoined => absurd hjoined (by simp [Condition.isJoined])⟩
  have hlink : ∀ t : Token, t.content = .name .punct "||" → t.isOr = true := by
    intro t ht
    rw [Token.isOr, Token.isPunct_of_content ht, Bool.true_or]
  have htokens : ∀ p join chain, (Chain.either p join chain).tokens = p.run ++ join :: chain.tokens :=
    fun _ _ _ => rfl
  refine (lexes_joined htokens (by decide) hlink h hrest).imp ?_
  rintro run ⟨chain, hlinked, rfl⟩
  -- each member is a conjunction of its own
  obtain ⟨hreads, first, more, hcons, hrow, hlater⟩ := Linked.spells_any hlinked
  obtain ⟨rfl, rfl⟩ := List.cons.inj hcons
  refine ⟨chain, hreads, rfl, ?_⟩
  rw [Chain.condition?, hrow, hlater]
  rfl

/-- A condition that is printed has the tokens of a chain that spells it. -/
theorem printed_of_isPrintable (ctx : NormalizeContext) {c : Condition} (h : c.isPrintable = true) :
    Printed ctx c := by
  apply Condition.printable_ind (h := h)
  case const => exact printed_const ctx
  case test => exact fun kind method subject hkind hsubject => printed_test ctx hkind hsubject
  case compare => exact fun left op right hleft hright => printed_compare ctx hleft hright op
  case truthy => exact fun scope keys hkeys => printed_truthy ctx scope hkeys
  case not => exact fun c hc ih => printed_not ih hc
  case all => exact fun c d cs ih => printed_all ih
  case any => exact fun c d cs ih => printed_any ih

end Members

/-- A printed condition is read back, whatever names are in force. -/
theorem parseCondition?_print {c : Condition} (h : c.isPrintable = true) (constants : Bindings Value) :
    parseCondition? c.print constants = some c := by
  let ctx : NormalizeContext := ⟨[], .ofText c.print, constants⟩
  obtain ⟨s, run, hs, ⟨chain, hreads, rfl, hcondition⟩, hseparators, htokens, hscan⟩ :=
    (printed_of_isPrintable ctx h [] rfl).1 false .start ⟨rfl, rfl, rfl⟩ 0
  have hlex : (lex c.print 0).tokens = chain.tokens := by
    have hend : (LexState.scan 0 0 .start c.print).tokens = s.tokens := by
      simp only [PlacedPiece.blank, Bool.false_eq_true, if_false, List.nil_append, List.append_nil] at hscan
      rw [hscan, LexState.scan, hs.pending]
      rfl
    unfold lex
    dsimp only
    rw [hend]
    exact htokens
  have hrun : (lexInline c.print 0).filter (!·.isPunct [";"]) = chain.tokens := by
    unfold lexInline
    rw [hlex, List.filter_filter, List.filter_eq_self]
    intro t ht
    obtain ⟨hnewline, hsemicolon⟩ := Bool.or_eq_false_iff.1 (hseparators t ht)
    simp [hnewline, hsemicolon]
  have hne : chain.tokens.isEmpty = false := by
    simpa using hreads.tokens_ne_nil
  unfold parseCondition?
  rw [hrun]
  dsimp only
  rw [hne, if_neg Bool.false_ne_true, condition?_chain hreads, hcondition]

/-- Operators in the texts of a condition, and parentheses within parentheses. -/
theorem parseCondition?_print_nested :
    let c : Condition := .any [
      .not (.all [.compare (.path .node ["a || b"]) .le (.literal (.number 2)),
        .not (.test .directoryExists (.ofText ") && !("))]),
      .all [.const true, .any [.truthy (.path .node ["x"]),
        .not (.not (.compare (.list [.ofText "it's"]) .ne (.literal .nil)))]]]
    c.print = Text.ofString ("!(node['a || b'] <= 2 && !File.directory?(') && !(')) || " ++
        "(true && (node['x'] || !!(['it\\'s'] != nil)))") ∧
      parseCondition? c.print .empty = some c :=
  ⟨by decide +kernel, parseCondition?_print (by decide +kernel) .empty⟩

end Cookbook
