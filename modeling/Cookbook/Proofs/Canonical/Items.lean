import Cookbook.Proofs.Canonical.Parsing
import Cookbook.Proofs.Statement.Fuel

/-!
How the parser reads a printed recipe: one statement for each item, with the items of its branches
inside.

* `reads_choice` is a conditional with its branches;
* `itemsSpelled` says that statements spell items;
* `Item.reads` is one item, `reads_items` a list of them.
-/

namespace Cookbook

namespace Canonical

/-! ### Conditionals -/

theorem lineRun_layout {pieces : List Placed} (hplain : ∀ p ∈ pieces, p.piece.isPlain = true)
    {depth : Nat} (hnested : nested depth pieces = true) {pos : Nat} {last : Option Token}
    (hlast : ((layout pos pieces).getLast?.or last).any Token.continuesLine = false) {nl : Token}
    (hnl : nl.isNewline = true) (rest : List Token) :
    lineRun false last depth (layout pos pieces ++ nl :: rest) =
      (layout pos pieces, pieces.length) := by
  induction pieces generalizing depth pos last with
  | nil =>
    have hsep : nl.isSeparator = true := by
      unfold Token.isSeparator
      rw [hnl, Bool.true_or]
    have hdepth : depth = 0 := by simpa only [nested, beq_iff_eq] using hnested
    have hstep : lineStep false last depth nl = .stop := by
      have hlast : last.any Token.continuesLine = false := hlast
      simp [lineStep, hdepth, hsep, hlast]
    simp only [layout, List.nil_append, lineRun_cons, hstep]
    rfl
  | cons p pieces ih =>
    have hp := hplain p List.mem_cons_self
    have hsep : (p.token pos).isSeparator = false := by
      rw [isSeparator_token]
      exact Piece.not_newline_of_isPlain hp
    have hstep : lineStep false last depth (p.token pos) = .take := by
      have hnewline := Token.not_isNewline_of_not_isSeparator hsep
      simp [lineStep, hsep, isKeyword_token pos hp, hnewline]
    have hnested' : nested (lineDepth depth (p.token pos)) pieces = true := by
      unfold lineDepth
      rw [isOpener_token, isCloser_token]
      cases hpiece : p.piece <;> simp_all [nested]
    have hlast' : ((layout (pos + p.text.length) pieces).getLast?.or (some (p.token pos))).any
        Token.continuesLine = false := by
      rw [layout, List.getLast?_cons] at hlast
      cases hrest : (layout (pos + p.text.length) pieces).getLast? <;> simp_all
    have hrest := ih (fun q hq => hplain q (List.mem_cons_of_mem _ hq)) hnested' hlast'
    simp only [layout, List.cons_append, lineRun_cons, hstep, hrest, List.length_cons]

/-- The test of a choice is a line. -/
theorem isLine_testPieces (key : Text) : IsLine (testPieces key) := by
  refine ⟨?_, rfl, ?_, ⟨tight .closer, rfl, .inl rfl⟩⟩
  · intro p hp
    simp only [testPieces, List.mem_cons, List.not_mem_nil, or_false] at hp
    rcases hp with rfl | rfl | rfl | rfl
    · decide
    · rfl
    · rfl
    · rfl
  · rintro p hp hcloser
    obtain rfl : loose (.word "node") = p := by simpa [testPieces] using hp
    exact absurd hcloser (by simp [loose])

theorem line_testPieces (key : Text) {nl : Token} (hnl : nl.isNewline = true) (pos i : Nat)
    (tokens : List Token) :
    (⟨i, layout pos (testPieces key) ++ nl :: tokens⟩ : Cursor).line false =
      (layout pos (testPieces key), ⟨i + 4, nl :: tokens⟩) := by
  have h := isLine_testPieces key
  have hlast : ((layout pos (testPieces key)).getLast?.or none).any Token.continuesLine = false := by
    rw [Option.or_none]
    exact h.continuesLine pos
  have hrun := lineRun_layout h.plain h.nested hlast hnl tokens
  unfold Cursor.line
  simp only [hrun]
  rfl

section Branches

variable {src : TokenSource} {rest : List Token}

theorem isSeparator_of_mem_nil : ∀ sep ∈ ([] : List Token), sep.isSeparator = true :=
  fun _ h => absurd h List.not_mem_nil

theorem reads_end (pos j : Nat) :
    Reads (fun fuel => parseBranches src fuel .ifTrue ⟨j, (tight (.word "end")).token pos :: rest⟩)
      ⟨([], some ((tight (.word "end")).token pos)), ⟨j + 1, rest⟩, []⟩ := by
  have hskip := Cursor.skipSeparators_separators ((tight (.word "end")).token pos :: rest)
    isSeparator_of_mem_nil (isSeparator_token pos _) j
  have hkeyword := isKeyword_word pos (w := "end") (by decide) false
  have hstep : branchStep .ifTrue ((tight (.word "end")).token pos :: rest) =
      .close ((tight (.word "end")).token pos) := by
    simp only [branchStep, branchWord?, tight, hkeyword]
    rfl
  refine Reads.succ ?_
  simp only [List.nil_append] at hskip
  simp only [parseBranches_succ, hskip, hstep]
  exact Reads.const _

/-- One branch, with its body and the branches after it. -/
theorem reads_branch {word : BranchWord} {t : Token} {c c₁ c₂ c₃ : Cursor} {condition : List Token}
    {body : List Statement} {more : List Branch × Option Token}
    (hhead : branchHead word c = (condition, c₁))
    (hbody : Reads (fun fuel => parseStatements src fuel (branchStop .ifTrue word) c₁) ⟨body, c₂, []⟩)
    (hmore : Reads (fun fuel => parseBranches src fuel .ifTrue c₂) ⟨more, c₃, []⟩) :
    Reads (fun fuel => parseBranch src fuel .ifTrue word t c)
      ⟨(⟨word, condition, body, t.start⟩ :: more.1, more.2), c₃, []⟩ := by
  simp only [parseBranch, hhead]
  refine hbody.bind (fun fuel body =>
    let more := parseBranches src fuel .ifTrue body.cursor
    (⟨(⟨word, condition, body.value, t.start⟩ :: more.value.1, more.value.2), more.cursor,
      body.problems ++ more.problems⟩ : Parsed (List Branch × Option Token))) ?_
  exact hmore.map fun more =>
    (⟨(⟨word, condition, body, t.start⟩ :: more.value.1, more.value.2), more.cursor,
      [] ++ more.problems⟩ : Parsed (List Branch × Option Token))

theorem reads_else {pos : Nat} {j : Nat} {tokens : List Token} {c : Cursor} {body : List Statement}
    {more : List Branch × Option Token} {c' : Cursor}
    (hbody : Reads (fun fuel => parseStatements src fuel (branchStop .ifTrue .otherwise)
      ⟨j + 1, tokens⟩) ⟨body, c, []⟩)
    (hmore : Reads (fun fuel => parseBranches src fuel .ifTrue c) ⟨more, c', []⟩) :
    Reads (fun fuel => parseBranches src fuel .ifTrue ⟨j, (tight (.word "else")).token pos :: tokens⟩)
      ⟨(⟨.otherwise, [], body, ((tight (.word "else")).token pos).start⟩ :: more.1, more.2), c', []⟩ := by
  have hskip := Cursor.skipSeparators_separators ((tight (.word "else")).token pos :: tokens)
    isSeparator_of_mem_nil (isSeparator_token pos _) j
  have hkeyword := isKeyword_word pos (w := "else") (by decide) false
  have hstep : branchStep .ifTrue ((tight (.word "else")).token pos :: tokens) =
      .branch .otherwise ((tight (.word "else")).token pos) := by
    simp only [branchStep, branchWord?, tight, hkeyword]
    rfl
  refine Reads.succ ?_
  simp only [List.nil_append] at hskip
  simp only [parseBranches_succ, hskip, hstep]
  exact reads_branch rfl hbody hmore

/-- A conditional with its test, its first body and the branches after that. -/
theorem reads_choice (key : Text) (pos at' : Nat) {i : Nat} {nl : Token} (hnl : nl.isNewline = true)
    {tokens : List Token} {c c' : Cursor} {body : List Statement} {more : List Branch} {e : Token}
    (hbody : Reads (fun fuel => parseStatements src fuel (branchStop .ifTrue .ifTrue)
      ⟨i + 5, nl :: tokens⟩) ⟨body, c, []⟩)
    (hmore : Reads (fun fuel => parseBranches src fuel .ifTrue c) ⟨(more, some e), c', []⟩) :
    ∃ extent, Reads (fun fuel => parseStatement src fuel ((tight (.word "if")).token at')
        ⟨i, (tight (.word "if")).token at' :: (layout pos (testPieces key) ++ nl :: tokens)⟩)
      ⟨.conditional ⟨extent, .ifTrue, [],
        ⟨.ifTrue, layout pos (testPieces key), body, ((tight (.word "if")).token at').start⟩ :: more,
        (tight (.word "if")).token at', some e⟩, c', []⟩ := by
  let opener := (tight (.word "if")).token at'
  have hkeyword := isKeyword_word at' (w := "if") (by decide) false
  have hword : conditionalWord opener = .ifTrue := by
    simp only [conditionalWord, opener, tight, hkeyword]
    rfl
  have hline : (⟨i, opener :: (layout pos (testPieces key) ++ nl :: tokens)⟩ : Cursor).next.line false =
      (layout pos (testPieces key), ⟨i + 5, nl :: tokens⟩) :=
    line_testPieces key hnl pos (i + 1) tokens
  have hhead : branchHead .ifTrue
      (⟨i, opener :: (layout pos (testPieces key) ++ nl :: tokens)⟩ : Cursor).next =
      (layout pos (testPieces key), ⟨i + 5, nl :: tokens⟩) := hline
  have hbranch := reads_branch (t := opener) hhead hbody hmore
  have hif : opener.isKeyword ["if", "unless", "case"] = true := hkeyword _
  -- an `if` has no head before its first branch, as a `case` has
  have hall : ∀ fuel c, parseAllBranches src fuel opener c =
      parseBranch src fuel .ifTrue .ifTrue opener c := by
    intro fuel c
    unfold parseAllBranches
    rw [hword]
    rfl
  have hconditional : Reads (fun fuel => parseConditional src fuel opener
      ⟨i, opener :: (layout pos (testPieces key) ++ nl :: tokens)⟩)
      ⟨⟨⟨opener.start, src.endBefore c'.index opener.stop, i⟩, .ifTrue, [],
        ⟨.ifTrue, layout pos (testPieces key), body, opener.start⟩ :: more, opener, some e⟩, c', []⟩ := by
    refine Reads.succ ?_
    simp only [parseConditional_succ, hall]
    have hclose := hbranch.map
      (closeConditional src opener i (layout pos (testPieces key)))
    simp only [closeConditional, buildConditional, hword] at hclose ⊢
    rw [hline]
    exact hclose
  refine ⟨⟨opener.start, src.endBefore c'.index opener.stop, i⟩, Reads.succ ?_⟩
  simp only [parseStatement_succ]
  have hstatement := hconditional.map (Parsed.map Statement.conditional)
  simp only [show ((tight (.word "if")).token at').isKeyword ["if", "unless", "case"] = true from hif,
    if_true]
  exact hstatement

end Branches

mutual

/-- The statement spells the item; the conditions are as they stand in the text. -/
def Item.Spelled (text : Text) : Item → Statement → Prop
  | .resource r, s => r.Spelled s
  | .choice key items none, s =>
    ∃ extent condition body start opener closer,
      s = .conditional ⟨extent, .ifTrue, [], [⟨.ifTrue, condition, body, start⟩], opener, closer⟩ ∧
      sourceOf text condition = test key ∧ itemsSpelled text items body
  | .choice key items (some others), s =>
    ∃ extent condition body start body' start' opener closer,
      s = .conditional ⟨extent, .ifTrue, [],
        [⟨.ifTrue, condition, body, start⟩, ⟨.otherwise, [], body', start'⟩], opener, closer⟩ ∧
      sourceOf text condition = test key ∧ itemsSpelled text items body ∧
      itemsSpelled text others body'

/-- The statements spell the items, one each. -/
def itemsSpelled (text : Text) : List Item → List Statement → Prop
  | [], body => body = []
  | item :: rest, body =>
    ∃ s more, body = s :: more ∧ item.Spelled text s ∧ itemsSpelled text rest more

end

/-! ### Items -/

/-- The list goes on at the first token of an item. -/
structure Passes (stop : Token → Bool) : Prop where
  plain : ∀ pos (p : Placed), p.piece.isPlain = true → stop (p.token pos) = false
  choice : ∀ pos, stop ((tight (.word "if")).token pos) = false

theorem passes_isKeyword (words : List Text) (h : words.contains ("if" : Text) = false) :
    Passes (·.isKeyword words) where
  plain pos _ hp := isKeyword_token pos hp words
  choice pos := (isKeyword_word pos (w := "if") (by decide) false words).trans h

theorem ends_isKeyword {words : List Text} {w : Text} (hw : keywords.contains w = true)
    (h : words.contains w = true) (pos : Nat) (rest : List Token) :
    Ends (·.isKeyword words) ((tight (.word w)).token pos :: rest) where
  notSeparator := isSeparator_token pos _
  step := by
    have hstop : ((tight (.word w)).token pos).isKeyword words = true :=
      (isKeyword_word pos hw false words).trans h
    simp [listStep, hstop]
  noDot := isPunct_token_eq_false pos _ (by decide)

/-- A statement starts at the token, whatever list it is in. -/
structure Starts (t : Token) : Prop where
  notSeparator : t.isSeparator = false
  step : ∀ stop, Passes stop → ∀ tokens, listStep stop (t :: tokens) = .statement t

theorem starts_word (w : Word) (pos : Nat) : Starts ((tight (.word w.text)).token pos) where
  notSeparator := isSeparator_token pos _
  step _ hstop tokens :=
    listStep_token (isPlain_word w) (by simp [tight]) (hstop.plain pos _ (isPlain_word w)) tokens

theorem starts_if (pos : Nat) : Starts ((tight (.word "if")).token pos) where
  notSeparator := isSeparator_token pos _
  step stop hstop tokens := by
    have hkeyword : ∀ words, ((tight (.word "if")).token pos).isKeyword words = words.contains "if" :=
      isKeyword_word pos (by decide) false
    have hcloser : ((tight (.word "if")).token pos).isCloser = false := isCloser_token pos _
    unfold listStep
    simp only [hstop.choice pos, hcloser, hkeyword]
    rfl

theorem sourceOf_testPieces {text post : Text} {pos : Nat} {key : Text}
    (h : text.drop pos = printed (testPieces key) ++ post) :
    sourceOf text (layout pos (testPieces key)) = test key := by
  have hprinted : printed (testPieces key) = (' ' : CodeUnit) :: test key := by
    simp [printed, testPieces, test, tight, loose, PlacedPiece.text, Piece.text]
    rfl
  have hdrop : text.drop (pos + 1) = test key ++ post := by
    rw [← List.drop_drop, h, hprinted]
    rfl
  have hsource : sourceOf text (layout pos (testPieces key)) =
      text.slice (pos + 1) (pos + 1 + (test key).length) := by
    unfold sourceOf
    simp [layout, testPieces, test, tight, loose, PlacedPiece.token, PlacedPiece.text, Piece.text]
    have hnode : List.length ("node" : Text) = 4 := rfl
    have hopen : List.length ("[" : Text) = 1 := rfl
    have hlead : List.length ("node[" : Text) = 5 := rfl
    congr 1
    omega
  rw [hsource, Text.slice, hdrop, Nat.add_sub_cancel_left, List.take_left]

theorem drop_printed {text post : Text} {pos : Nat} {pieces more : List Placed}
    (h : text.drop pos = printed (pieces ++ more) ++ post) :
    text.drop (pos + (printed pieces).length) = printed more ++ post := by
  rw [← List.drop_drop, h, printed_append, List.append_assoc, List.drop_left]

/-- The lines of a choice up to its items. -/
def ifPieces (key : Text) : List Placed := tight (.word "if") :: testPieces key ++ [tight .newline]

theorem layout_ifPieces (pos : Nat) (key : Text) :
    layout pos (ifPieces key) =
      (tight (.word "if")).token pos :: (layout (pos + 2) (testPieces key) ++
        [(tight .newline).token (pos + 2 + (printed (testPieces key)).length)]) := by
  unfold ifPieces
  rw [List.cons_append, layout, layout_append]
  rfl

theorem sourceOf_ifPieces {text post : Text} {pos : Nat} {key : Text} {more : List Placed}
    (h : text.drop pos = printed (ifPieces key ++ more) ++ post) :
    sourceOf text (layout (pos + 2) (testPieces key)) = test key := by
  have hsplit : ifPieces key ++ more =
      [tight (.word "if")] ++ (testPieces key ++ ([tight .newline] ++ more)) := by
    simp [ifPieces]
  rw [hsplit] at h
  have hdrop := drop_printed h
  rw [printed_append, List.append_assoc] at hdrop
  exact sourceOf_testPieces hdrop

theorem branchStop_ifTrue :
    branchStop .ifTrue .ifTrue = (·.isKeyword ["elsif", "else", "end"]) := rfl

theorem branchStop_otherwise : branchStop .ifTrue .otherwise = (·.isKeyword ["end"]) := rfl

mutual

/-- An item is read as the statement that spells it, up to the newline at its end. -/
theorem Item.reads (src : TokenSource) {text : Text} :
    ∀ (item : Item) {rest : List Token}, NoDot rest → ∀ (pos i : Nat) {post : Text},
      text.drop pos = printed item.pieces ++ post →
      ∃ t tokens s j nl, layout pos item.pieces ++ rest = t :: tokens ∧ Starts t ∧
        nl.isSeparator = true ∧ item.Spelled text s ∧
        Reads (fun fuel => parseStatement src fuel t ⟨i, t :: tokens⟩) ⟨s, ⟨j, nl :: rest⟩, []⟩
  | .resource r, rest, hrest, pos, i, post, htext => by
    obtain ⟨s, j, nl, hnl, hspelled, hreads⟩ := r.reads src hrest pos i
    refine ⟨_, _, s, j, nl, rfl, starts_word r.type pos, ?_, by rwa [Item.Spelled], hreads⟩
    unfold Token.isSeparator
    rw [hnl, Bool.true_or]
  | .choice key items none, rest, hrest, pos, i, post, htext => by
    rw [Item.pieces, ← ifPieces, List.append_assoc] at htext ⊢
    have hbodyText := drop_printed htext
    rw [printed_append, List.append_assoc] at hbodyText
    rw [layout_append, layout_append, layout_ifPieces]
    generalize pos + (printed (ifPieces key)).length = p₂ at hbodyText ⊢
    generalize pos + 2 + (printed (testPieces key)).length = p₁
    generalize p₂ + (printed (itemsPieces items)).length = p₃
    -- the places of the words are named, so that the goal does not grow
    obtain ⟨body, j, hbody, hitems⟩ := reads_items src items
      (passes_isKeyword ["elsif", "else", "end"] (by decide))
      (ends_isKeyword (w := "end") (by decide) (by decide) p₃
        ((tight .newline).token (p₃ + 3) :: rest))
      (isSeparator_of_mem_newline p₁) p₂ (i + 5) hbodyText
    rw [← branchStop_ifTrue] at hitems
    have hnl : ((tight .newline).token p₁).isNewline = true := rfl
    obtain ⟨extent, hread⟩ := reads_choice key (pos + 2) pos hnl hitems (reads_end p₃ j)
    refine ⟨_, _, _, j + 1, (tight .newline).token (p₃ + 3), ?_, starts_if pos, rfl, ?_, hread⟩
    · simp only [List.append_assoc, List.cons_append]
      rfl
    · rw [Item.Spelled]
      exact ⟨extent, _, body, _, _, _, rfl, sourceOf_ifPieces htext, hbody⟩
  | .choice key items (some others), rest, hrest, pos, i, post, htext => by
    rw [Item.pieces, ← ifPieces, List.append_assoc, List.append_assoc, List.append_assoc] at htext ⊢
    have hbodyText := drop_printed htext
    have helseText := drop_printed (drop_printed hbodyText)
    rw [printed_append, List.append_assoc] at hbodyText helseText
    rw [layout_append, layout_append, layout_append, layout_append, layout_ifPieces]
    generalize pos + (printed (ifPieces key)).length = p₂ at hbodyText helseText ⊢
    generalize pos + 2 + (printed (testPieces key)).length = p₁
    generalize p₂ + (printed (itemsPieces items)).length = p₃ at helseText ⊢
    generalize p₃ + (printed [tight (.word "else"), tight .newline]).length = p₄ at helseText ⊢
    generalize p₄ + (printed (itemsPieces others)).length = p₅
    obtain ⟨body, j, hbody, hitems⟩ := reads_items src items
      (passes_isKeyword ["elsif", "else", "end"] (by decide))
      (ends_isKeyword (w := "else") (by decide) (by decide) p₃
        ((tight .newline).token (p₃ + 4) :: (layout p₄ (itemsPieces others) ++
          (tight (.word "end")).token p₅ :: (tight .newline).token (p₅ + 3) :: rest)))
      (isSeparator_of_mem_newline p₁) p₂ (i + 5) hbodyText
    obtain ⟨body', j', hbody', hothers⟩ := reads_items src others
      (passes_isKeyword ["end"] (by decide))
      (ends_isKeyword (w := "end") (by decide) (by decide) p₅
        ((tight .newline).token (p₅ + 3) :: rest))
      (isSeparator_of_mem_newline (p₃ + 4)) p₄ (j + 1) helseText
    rw [← branchStop_ifTrue] at hitems
    rw [← branchStop_otherwise] at hothers
    have hnl : ((tight .newline).token p₁).isNewline = true := rfl
    obtain ⟨extent, hread⟩ := reads_choice key (pos + 2) pos hnl hitems
      (reads_else hothers (reads_end p₅ j'))
    refine ⟨_, _, _, j' + 1, (tight .newline).token (p₅ + 3), ?_, starts_if pos, rfl, ?_, hread⟩
    · simp only [List.append_assoc, List.cons_append]
      rfl
    · rw [Item.Spelled]
      exact ⟨extent, _, body, _, body', _, _, _, rfl, sourceOf_ifPieces htext, hbody, hbody'⟩

/-- The items of a recipe are read as the statements that spell them. -/
theorem reads_items (src : TokenSource) {text : Text} :
    ∀ (items : List Item) {stop : Token → Bool}, Passes stop → ∀ {rest : List Token}, Ends stop rest →
      ∀ {seps : List Token}, (∀ sep ∈ seps, sep.isSeparator = true) → ∀ (pos i : Nat) {post : Text},
      text.drop pos = printed (itemsPieces items) ++ post →
      ∃ body j, itemsSpelled text items body ∧
        Reads (fun fuel => parseStatements src fuel stop
          ⟨i, seps ++ (layout pos (itemsPieces items) ++ rest)⟩) ⟨body, ⟨j, rest⟩, []⟩
  | [], stop, hstop, rest, hend, seps, hseps, pos, i, post, htext =>
    ⟨[], i + seps.length, by rw [itemsSpelled], reads_done src hseps hend.notSeparator hend.step i⟩
  | item :: more, stop, hstop, rest, hend, seps, hseps, pos, i, post, htext => by
    rw [itemsPieces] at htext ⊢
    let next := pos + (printed item.pieces).length
    have hdot : NoDot (layout next (itemsPieces more) ++ rest) := by
      by_cases hnil : itemsPieces more = []
      · rw [hnil]
        exact hend.noDot
      · exact noDot_layout next hnil rest
    have htext' : text.drop pos = printed item.pieces ++ (printed (itemsPieces more) ++ post) := by
      rw [htext, printed_append, List.append_assoc]
    obtain ⟨t, tokens, s, j, nl, htokens, hstarts, hnl, hspelled, hread⟩ :=
      item.reads src hdot pos (i + seps.length) htext'
    have hsep : ∀ sep ∈ [nl], sep.isSeparator = true := fun sep hsep =>
      List.mem_singleton.1 hsep ▸ hnl
    obtain ⟨body, j', hbody, hmore⟩ := reads_items src more hstop hend hsep next j (drop_printed htext)
    refine ⟨s :: body, j', ?_, ?_⟩
    · rw [itemsSpelled]
      exact ⟨s, body, rfl, hspelled, hbody⟩
    · rw [layout_append, List.append_assoc, htokens]
      exact reads_statement src hseps hstarts.notSeparator (hstarts.step stop hstop tokens) hread hmore

end

/-- The program of a printed recipe spells its items, and nothing is wrong with it. -/
theorem spelled_ofText (items : List Item) :
    itemsSpelled (printItems items) items (Program.ofText (printItems items)).statements ∧
      (Program.ofText (printItems items)).problems = [] := by
  have hlex : lex (printItems items) 0 = ⟨layout 0 (itemsPieces items), []⟩ := by
    rw [printItems_eq]
    exact lex_printed (wellSpaced_itemsPieces items)
  have hpasses : Passes fun _ => false := ⟨fun _ _ _ => rfl, fun _ => rfl⟩
  have hends : Ends (fun _ => false) [] := ⟨rfl, rfl, rfl⟩
  have htext : (printItems items).drop 0 = printed (itemsPieces items) ++ [] := by
    rw [List.append_nil, ← printItems_eq]
    rfl
  obtain ⟨body, j, hspelled, n, hread⟩ := reads_items (.ofText (printItems items)) items hpasses hends
    isSeparator_of_mem_nil 0 0 htext
  have hcursor : (TokenSource.ofText (printItems items)).cursor 0 =
      ⟨0, [] ++ (layout 0 (itemsPieces items) ++ [])⟩ := by
    rw [List.nil_append, List.append_nil]
    show (⟨0, (lex (printItems items) 0).tokens⟩ : Cursor) = _
    rw [hlex]
  have hparsed : (TokenSource.ofText (printItems items)).parsed = ⟨body, ⟨j, []⟩, []⟩ := by
    rw [← TokenSource.parsed_of_le (Nat.le_max_right n _), hcursor]
    exact hread _ (Nat.le_max_left n _)
  rw [Program.statements_ofText, hparsed]
  refine ⟨hspelled, ?_⟩
  show (lex (printItems items) 0).problems ++ (TokenSource.ofText (printItems items)).parsed.problems = []
  rw [hlex, hparsed]
  rfl

end Canonical

end Cookbook
