import Cookbook.Proofs.Token.Code
import Cookbook.Proofs.Token.Heredoc
import Cookbook.Proofs.Token.Order
import Mathlib.Data.List.DropRight

/-!
Tokens tile their text. Between two tokens stands only what the scan passes over: blanks, line ends
behind a backslash, comments, and, right after the end of a line, the bodies of the heredocs that were
opened on it. What follows the mark that ends a program is passed over as well.

* `Passed` says what is passed over;
* `Tiled` says that the start of a text is made of tokens and of what is passed over, `Scanned` is what
  the scan keeps, and `Scanned.step` what one step of it does;
* `lex_tiles` is the result for a whole text.
-/

namespace Cookbook

/-! ### Tokens as they are placed -/

namespace Token

def isHeredoc (t : Token) : Bool :=
  match t.content with
  | .string .heredoc _ => true
  | _ => false

def bare (t : Token) : Token :=
  { t with
    content := match t.content with
      | .string flavor _ => .string flavor []
      | content => content }

@[simp] theorem start_bare (t : Token) : t.bare.start = t.start := rfl
@[simp] theorem stop_bare (t : Token) : t.bare.stop = t.stop := rfl
@[simp] theorem text_bare (t : Token) : t.bare.text = t.text := rfl

@[simp] theorem isHeredoc_bare (t : Token) : t.bare.isHeredoc = t.isHeredoc := by
  obtain ⟨content, start, stop, text, spaceBefore⟩ := t
  cases content with
  | string flavor parts => cases flavor <;> rfl
  | name _ _ | words _ _ | regex | newline => rfl

@[simp] theorem isNewline_bare (t : Token) : t.bare.isNewline = t.isNewline := by
  obtain ⟨content, start, stop, text, spaceBefore⟩ := t
  cases content <;> rfl

end Token

def currentLine (tokens : List Token) : List Token := tokens.rtakeWhile (!·.isNewline)

/-- The heredocs that are opened by some tokens of a text. -/
def openersIn (text : Text) (base : Nat) (line : List Token) : List Lexeme.HeredocOpener :=
  (line.filter Token.isHeredoc).filterMap fun t => Lexeme.heredoc? (text.drop (t.start - base))

theorem currentLine_newline (tokens : List Token) {newline : Token} (h : newline.isNewline = true) :
    currentLine (tokens ++ [newline]) = [] :=
  List.rtakeWhile_concat_neg _ _ _ (by simp [h])

/-- A token that does not end the line may open one more heredoc on it. -/
theorem openersIn_concat (text : Text) (base : Nat) (tokens : List Token) {t : Token}
    (h : t.isNewline = false) : openersIn text base (currentLine (tokens ++ [t])) =
      openersIn text base (currentLine tokens) ++
        if t.isHeredoc then (Lexeme.heredoc? (text.drop (t.start - base))).toList else [] := by
  have hline : currentLine (tokens ++ [t]) = currentLine tokens ++ [t] :=
    List.rtakeWhile_concat_pos _ _ _ (by simp [h])
  unfold openersIn
  rw [hline, List.filter_append, List.filterMap_append]
  split
  · rename_i hheredoc
    rw [List.filter_cons_of_pos hheredoc]
    cases hopener : Lexeme.heredoc? (text.drop (t.start - base)) <;> simp [hopener]
  · rename_i hheredoc
    rw [List.filter_cons_of_neg hheredoc]
    rfl

theorem currentLine_bare (tokens : List Token) :
    currentLine (tokens.map Token.bare) = (currentLine tokens).map Token.bare := by
  unfold currentLine List.rtakeWhile
  rw [← List.map_reverse, List.takeWhile_map, List.map_reverse]
  simp [Function.comp_def]

theorem openersIn_bare (text : Text) (base : Nat) (line : List Token) :
    openersIn text base (line.map Token.bare) = openersIn text base line := by
  unfold openersIn
  rw [List.filter_map, List.filterMap_map]
  simp [Function.comp_def]

/-! ### What is passed over -/

/-- What starts a block of comments. -/
def OpensComment (t : Text) : Prop :=
  ("=begin" : Text) <+: t ∧ ∀ c ∈ (t.drop 6).head?, c.isSpace = true

/-- A piece of a text that holds no token: `earlier` are the tokens before it, `before` and `after` the
text around it. -/
inductive Passed (base : Nat) (earlier : List Token) (before : Text) : (piece after : Text) → Prop
  | blank {c : CodeUnit} {after : Text} (hc : c = ' ' ∨ c = '\t' ∨ c = '\r') :
    Passed base earlier before [c] after
  | continuation {after : Text} : Passed base earlier before "\\\n" after
  | continuationReturn {after : Text} : Passed base earlier before "\\\r\n" after
  | comment {line after : Text} (hline : line.RestOfLine after) :
    Passed base earlier before (("#" : Text) ++ line) after
  | block {body line after : Text} (hstart : before.EndsLine)
    (hopens : OpensComment (body ++ ("\n" ++ line) ++ after))
    (hcloses : Text.FirstAt "\n=end" (body ++ ("\n" ++ line) ++ after) body.length)
    (hline : line.RestOfLine after) : Passed base earlier before (body ++ ("\n" ++ line)) after
  | openBlock {body : Text} (hstart : before.EndsLine) (hopens : OpensComment body)
    (hopen : ∀ k, ¬("\n=end" : Text) <+: body.drop k) : Passed base earlier before body []
  | bodies {line : List Token} {newline : Token} {piece after : Text} {left : List Text}
    (hearlier : earlier = line ++ [newline]) (hnewline : newline.isNewline = true)
    (hstop : newline.stop = base + before.length)
    (hbodies : HeredocBodies (openersIn (before ++ piece ++ after) base (currentLine line))
      (piece ++ after).lines left) (hafter : after = left.flatten) :
    Passed base earlier before piece after
  | tail {blanks more : Text} (hstart : before.EndsLine) (hblanks : blanks.trim = [])
    (hline : blanks.RestOfLine more) : Passed base earlier before ("__END__" ++ blanks ++ more) []

/-- The start of a text, up to and with `before`, is made of the tokens and of what is passed over. -/
inductive Tiled (base : Nat) (text : Text) : (before : Text) → (tokens : List Token) → Prop
  | start : Tiled base text [] []
  | token {before after : Text} {tokens : List Token} {t : Token} (h : Tiled base text before tokens)
    (htext : before ++ t.text ++ after = text) (hne : t.text ≠ []) (hstart : t.start = base + before.length)
    (hstop : t.stop = t.start + t.text.length) : Tiled base text (before ++ t.text) (tokens ++ [t])
  | pass {before piece after : Text} {tokens : List Token} (h : Tiled base text before tokens)
    (htext : before ++ piece ++ after = text) (hpassed : Passed base tokens before piece after) :
    Tiled base text (before ++ piece) tokens

variable {base : Nat} {text : Text}

theorem Passed.of_bare {tokens tokens' : List Token} {before piece after : Text}
    (h : Passed base tokens before piece after) (hbare : tokens'.map Token.bare = tokens.map Token.bare) :
    Passed base tokens' before piece after := by
  cases h with
  | blank hc => exact .blank hc
  | continuation => exact .continuation
  | continuationReturn => exact .continuationReturn
  | comment hline => exact .comment hline
  | block hstart hopens hcloses hline => exact .block hstart hopens hcloses hline
  | openBlock hstart hopens hopen => exact .openBlock hstart hopens hopen
  | tail hstart hblanks hline => exact .tail hstart hblanks hline
  | bodies hearlier hnewline hstop hbodies hafter =>
    rename_i line newline left
    subst hearlier
    rw [List.map_append] at hbare
    obtain ⟨line', last, rfl, hline, hlast⟩ := List.map_eq_append_iff.1 hbare
    obtain ⟨newline', rfl, hnewline'⟩ := List.map_eq_singleton_iff.1 hlast
    refine .bodies rfl ?_ ?_ ?_ hafter
    · rw [← Token.isNewline_bare, hnewline', Token.isNewline_bare]
      exact hnewline
    · rw [← Token.stop_bare, hnewline', Token.stop_bare]
      exact hstop
    · rw [← openersIn_bare, ← currentLine_bare, hline, currentLine_bare, openersIn_bare]
      exact hbodies

theorem Tiled.of_bare {before : Text} {tokens tokens' : List Token} (h : Tiled base text before tokens)
    (hbare : tokens'.map Token.bare = tokens.map Token.bare) : Tiled base text before tokens' := by
  induction h generalizing tokens' with
  | start =>
    obtain rfl := List.map_eq_nil_iff.1 hbare
    exact .start
  | token h htext hne hstart hstop ih =>
    rename_i before after tokens t
    rw [List.map_append] at hbare
    obtain ⟨front, last, rfl, hfront, hlast⟩ := List.map_eq_append_iff.1 hbare
    obtain ⟨t', rfl, ht⟩ := List.map_eq_singleton_iff.1 hlast
    have htext' : t'.text = t.text := show t'.bare.text = t.bare.text from congrArg Token.text ht
    have hstart' : t'.start = t.start := show t'.bare.start = t.bare.start from congrArg Token.start ht
    have hstop' : t'.stop = t.stop := show t'.bare.stop = t.bare.stop from congrArg Token.stop ht
    rw [← htext'] at htext hne hstop ⊢
    rw [← hstart'] at hstart hstop
    rw [← hstop'] at hstop
    exact .token (ih hfront) htext hne hstart hstop
  | pass h htext hpassed ih => exact .pass (ih hbare) htext (hpassed.of_bare hbare)

/-! ### Pieces without tokens -/

namespace LexState

/-- A block of comments at the start of a line is passed over, up to the end of a line. -/
theorem commentBlock?_passed {t : Text} {n : Nat} (h : commentBlock? t = some n) :
    OpensComment t ∧ ∃ piece after, piece ++ after = t ∧ piece.length = n - 1 + 1 ∧ after.AtLineEnd ∧
      ∀ {base : Nat} {earlier : List Token} {before : Text}, before.EndsLine →
        Passed base earlier before piece after := by
  unfold commentBlock? at h
  split at h
  · rename_i hbegin
    obtain ⟨hpre, hspace⟩ := (Bool.and_eq_true _ _).mp hbegin
    have hopens : OpensComment t :=
      ⟨List.isPrefixOf_iff_prefix.1 hpre, fun c hc => by
        rw [Option.mem_def.1 hc] at hspace
        exact hspace⟩
    refine ⟨hopens, ?_⟩
    cases hfind : find? "\n=end" t with
    -- a block that is never closed reaches to the end of the text
    | none =>
      rw [hfind] at h
      have hn : t.length = n := Option.some.inj h
      have hpos : 0 < t.length := by
        obtain ⟨more, rfl⟩ := hopens.1
        exact Nat.succ_pos _
      refine ⟨t, [], List.append_nil t, by omega, fun c hc => absurd hc (by simp), fun hstart => ?_⟩
      exact .openBlock hstart hopens (find?_eq_none (by decide) hfind)
    -- the line of the closing word goes with the block, but for its newline
    | some m =>
      rw [hfind] at h
      have hn : m + 1 + (Text.firstLine (t.drop (m + 1))).length = n := Option.some.inj h
      have hfirst := find?_eq_some hfind
      obtain ⟨more, hmore⟩ := hfirst.1
      obtain ⟨after, hafter, hline⟩ := Text.restOfLine_firstLine (t.drop (m + 1))
      have hdrop : t.drop m = ("\n" : Text) ++ t.drop (m + 1) := by
        rw [← List.drop_drop, ← hmore]
        rfl
      have ht : t.take m ++ (("\n" : Text) ++ Text.firstLine (t.drop (m + 1))) ++ after = t := by
        rw [List.append_assoc, List.append_assoc, hafter, ← hdrop, List.take_append_drop]
      have hm : (t.take m).length = m := by
        refine List.length_take_of_le (Nat.le_of_lt (Nat.lt_of_not_le fun hle => ?_))
        rw [List.drop_eq_nil_of_le hle] at hdrop
        exact absurd hdrop.symm (List.cons_ne_nil _ _)
      refine ⟨_, after, ht, ?_, hline.2, fun hstart => ?_⟩
      · rw [List.length_append, List.length_append, hm, show List.length ("\n" : Text) = 1 from rfl]
        omega
      · refine .block hstart ?_ ?_ hline
        · rw [ht]
          exact hopens
        · rw [ht, hm]
          exact hfirst
  · exact absurd h (by simp)

/-- A line that ends the program is the mark with blanks behind it. -/
theorem isEndMark_eq {t : Text} (h : isEndMark t = true) : ∃ blanks more : Text,
    t = ("__END__" : Text) ++ blanks ++ more ∧ blanks.trim = [] ∧ blanks.RestOfLine more := by
  unfold isEndMark at h
  obtain ⟨hpre, hblank⟩ := (Bool.and_eq_true _ _).mp h
  obtain ⟨rest, rfl⟩ := List.isPrefixOf_iff_prefix.1 hpre
  obtain ⟨more, hmore, hline⟩ := Text.restOfLine_firstLine rest
  refine ⟨Text.firstLine rest, more, ?_, ?_, hline⟩
  · rw [List.append_assoc, hmore]
  · exact List.isEmpty_iff.1 hblank

theorem isContinuation_eq {c : CodeUnit} {rest : Text} (h : isContinuation c rest = true) :
    ∃ blank after : Text, (blank = [] ∨ blank = ("\r" : Text)) ∧
      c :: rest = ("\\" : Text) ++ blank ++ "\n" ++ after ∧ rest.firstLine = blank := by
  unfold isContinuation at h
  obtain ⟨hc, hrest⟩ := (Bool.and_eq_true _ _).mp h
  rw [beq_iff_eq] at hc
  subst hc
  rcases (Bool.or_eq_true _ _).mp hrest with hpre | hpre
  · obtain ⟨after, rfl⟩ := List.isPrefixOf_iff_prefix.1 hpre
    exact ⟨[], after, .inl rfl, rfl, rfl⟩
  · obtain ⟨after, rfl⟩ := List.isPrefixOf_iff_prefix.1 hpre
    exact ⟨"\r", after, .inr rfl, rfl, rfl⟩

end LexState

/-! ### What the scan keeps -/

namespace LexState

/-- The awaited bodies belong to tokens that open heredocs. -/
def Awaits (s : LexState) (waiting : List PendingHeredoc) : Prop :=
  ∀ h ∈ waiting, ∃ t, s.tokens[h.index]? = some t ∧ t.isHeredoc = true

theorem Awaits.of_push {s s' : LexState} {token : Token} {waiting : List PendingHeredoc}
    (h : s.Awaits waiting) (htokens : s'.tokens = s.tokens.push token) : s'.Awaits waiting := by
  intro p hp
  obtain ⟨t, ht, hheredoc⟩ := h p hp
  have hlt : p.index < s.tokens.size := (Array.getElem?_eq_some_iff.1 ht).1
  refine ⟨t, ?_, hheredoc⟩
  rw [htokens, Array.getElem?_push, if_neg (Nat.ne_of_lt hlt), ht]

theorem pending_fill (s : LexState) (pos : Nat) (t : Text) (waiting : List PendingHeredoc) :
    (s.fill pos t waiting).1.pending = [] := by
  induction waiting generalizing s pos t with
  | nil => rfl
  | cons h more ih =>
    rw [fill_cons]
    exact ih _ _ _

/-- Filling in a body changes nothing but what is in the token. -/
theorem bare_fillOne {s : LexState} (pos : Nat) (t : Text) {h : PendingHeredoc} {token : Token}
    (htoken : s.tokens[h.index]? = some token) (hheredoc : token.isHeredoc = true) :
    (s.fillOne pos t h).tokens.toList.map Token.bare = s.tokens.toList.map Token.bare := by
  refine List.ext_getElem (by simp [fillOne]) fun i hi _ => ?_
  simp only [fillOne, List.getElem_map, Array.getElem_toList, Array.getElem_modify]
  split
  · rename_i hindex
    subst hindex
    obtain ⟨hlt, rfl⟩ := Array.getElem?_eq_some_iff.1 htoken
    unfold Token.isHeredoc at hheredoc
    split at hheredoc
    · rename_i parts hcontent
      simp [Token.bare, hcontent]
    · exact absurd hheredoc (by simp)
  · rfl

theorem bare_fill {s : LexState} (pos : Nat) (t : Text) {waiting : List PendingHeredoc}
    (hwaiting : s.Awaits waiting) :
    (s.fill pos t waiting).1.tokens.toList.map Token.bare = s.tokens.toList.map Token.bare := by
  induction waiting generalizing s pos t with
  | nil => rfl
  | cons h more ih =>
    obtain ⟨token, htoken, hheredoc⟩ := hwaiting h List.mem_cons_self
    rw [fill_cons]
    dsimp only
    refine (ih _ _ fun h' hh' => ?_).trans (bare_fillOne pos t htoken hheredoc)
    obtain ⟨token', htoken', hheredoc'⟩ := hwaiting h' (List.mem_cons_of_mem _ hh')
    unfold fillOne
    dsimp only
    rw [Array.getElem?_modify]
    split
    · exact ⟨_, by rw [htoken']; rfl, rfl⟩
    · exact ⟨token', htoken', hheredoc'⟩

end LexState

/-- What holds after the scan of `before`, with `after` still to come. -/
structure Scanned (base : Nat) (text before after : Text) (s : LexState) : Prop where
  split : before ++ after = text
  tiled : Tiled base text before s.tokens.toList
  lineStart : s.atLineStart = true → before.EndsLine ∨ after.AtLineEnd
  pending : s.pending.map (·.opener) = openersIn text base (currentLine s.tokens.toList)
  awaits : s.Awaits s.pending

/-- The scan of `t`, which stands behind `before`, goes on behind the units that were taken. -/
def Advances (base : Nat) (text before t : Text) (r : LexState × Nat) : Prop :=
  ∃ piece after, piece ++ after = t ∧ piece.length = r.2 + 1 ∧ Scanned base text (before ++ piece) after r.1

namespace Scanned

variable {before t : Text} {s : LexState}

theorem pass {piece after : Text} {s' : LexState} {n : Nat} (h : Scanned base text before (piece ++ after) s)
    (hpassed : Passed base s.tokens.toList before piece after) (hlength : piece.length = n + 1)
    (htokens : s'.tokens = s.tokens) (hpending : s'.pending = s.pending)
    (hline : s'.atLineStart = true → (before ++ piece).EndsLine ∨ after.AtLineEnd) :
    Advances base text before (piece ++ after) (s', n) := by
  have htext : before ++ piece ++ after = text := (List.append_assoc _ _ _).trans h.split
  refine ⟨piece, after, rfl, hlength, htext, ?_, hline, ?_, ?_⟩
  · rw [htokens]
    exact .pass h.tiled htext hpassed
  · rw [htokens, hpending]
    exact h.pending
  · unfold LexState.Awaits
    rw [htokens, hpending]
    exact h.awaits

/-- A token is placed, and nothing else happens to what was seen. -/
theorem place (token : Token) {after : Text} (s' : LexState) (n : Nat)
    (h : Scanned base text before (token.text ++ after) s) (hstart : token.start = base + before.length)
    (hstop : token.stop = token.start + token.text.length) (hlength : token.text.length = n + 1)
    (htokens : s'.tokens = s.tokens.push token) (hline : s'.atLineStart = false)
    (hpending : s'.pending.map (·.opener) = openersIn text base (currentLine (s.tokens.toList ++ [token])))
    (hawaits : ∀ p ∈ s'.pending,
      p ∈ s.pending ∨ p.index = s.tokens.size ∧ token.isHeredoc = true) :
    Advances base text before (token.text ++ after) (s', n) := by
  have htext : before ++ token.text ++ after = text := (List.append_assoc _ _ _).trans h.split
  have hlist : s'.tokens.toList = s.tokens.toList ++ [token] := by rw [htokens, Array.toList_push]
  have hne : token.text ≠ [] := fun hnil => by simp [hnil] at hlength
  refine ⟨token.text, after, rfl, hlength, htext, ?_, ?_, ?_, fun p hp => ?_⟩
  · rw [hlist]
    exact .token h.tiled htext hne hstart hstop
  · rw [hline]
    exact fun hfalse => absurd hfalse (by simp)
  · rw [hlist]
    exact hpending
  · rcases hawaits p hp with hold | ⟨hindex, hheredoc⟩
    · exact h.awaits.of_push htokens p hold
    · exact ⟨token, by rw [htokens, Array.getElem?_push, if_pos hindex], hheredoc⟩

theorem push (h : Scanned base text before t s) (hline : s.atLineStart = false) {l : Lexeme}
    (hpos : 0 < l.length) (hle : l.length ≤ t.length) (hcontent : l.content.isOrdinary = true) :
    Advances base text before t (s.push (base + before.length) t l) := by
  let token : Token := ⟨l.content, base + before.length, base + before.length + l.length, t.take l.length,
    s.spaced⟩
  have hlength : token.text.length = l.length := List.length_take_of_le hle
  have hnewline : token.isNewline = false := by
    unfold TokenContent.isOrdinary at hcontent
    split at hcontent <;> simp_all [Token.isNewline, token]
  have hheredoc : token.isHeredoc = false := by
    unfold TokenContent.isOrdinary at hcontent
    unfold Token.isHeredoc
    split
    · simp_all [token]
    · rfl
  have hpending : s.pending.map (·.opener) =
      openersIn text base (currentLine (s.tokens.toList ++ [token])) := by
    rw [openersIn_concat text base _ hnewline, hheredoc, ← h.pending]
    exact (List.append_nil _).symm
  have ht : token.text ++ t.drop l.length = t := List.take_append_drop l.length t
  rw [← ht] at h
  have hplace := h.place token (s.push (base + before.length) t l).1 (l.length - 1) rfl (by rw [hlength])
    (by omega) rfl hline hpending fun p hp => .inl hp
  rwa [ht] at hplace

theorem heredoc (h : Scanned base text before t s) (hline : s.atLineStart = false)
    {opener : Lexeme.HeredocOpener} (hopener : Lexeme.heredoc? t = some opener) :
    Advances base text before t (s.heredoc (base + before.length) t opener) := by
  have hle : opener.length ≤ t.length := Lexeme.heredoc?_le hopener
  have hpos : 0 < opener.length := Lexeme.heredoc?_pos hopener
  let token : Token := ⟨.string .heredoc [], base + before.length,
    base + before.length + opener.length, t.take opener.length, s.spaced⟩
  have hlength : token.text.length = opener.length := List.length_take_of_le hle
  have hbehind : text.drop (token.start - base) = t := by
    rw [← h.split, Nat.add_sub_cancel_left, List.drop_left]
  let awaited : PendingHeredoc := ⟨opener, base + before.length, s.tokens.size⟩
  have hpending : (s.pending ++ [awaited]).map (·.opener) =
      openersIn text base (currentLine (s.tokens.toList ++ [token])) := by
    rw [openersIn_concat text base s.tokens.toList (t := token) rfl, hbehind, hopener, List.map_append,
      h.pending]
    rfl
  have ht : token.text ++ t.drop opener.length = t := List.take_append_drop opener.length t
  rw [← ht] at h
  have hplace := h.place token (s.heredoc (base + before.length) t opener).1 (opener.length - 1) rfl
    (by rw [hlength]) (by omega) rfl hline hpending fun p hp => ?_
  · rwa [ht] at hplace
  · rcases List.mem_append.1 hp with hp | hp
    · exact .inl hp
    · obtain rfl := List.mem_singleton.1 hp
      exact .inr ⟨rfl, rfl⟩

theorem string {quote : CodeUnit} {rest : Text} (h : Scanned base text before (quote :: rest) s)
    (hline : s.atLineStart = false) :
    Advances base text before (quote :: rest) (s.string (base + before.length) quote rest) := by
  unfold LexState.string
  dsimp only
  split
  · have hread := (Quoted.ofText_fits (.quotes quote (quote != '\x27')) (base + before.length + 1) rest).1
    refine h.push hline (Nat.succ_pos _) (Nat.succ_le_succ hread) ?_
    dsimp only
    split
    · rfl
    · split <;> rfl
  · have hfirst : rest.firstLine.length ≤ rest.length := (List.takeWhile_prefix _).length_le
    have h' : Scanned base text before (quote :: rest)
        { s with problems := s.problems.push ⟨.openString quote, base + before.length⟩ } :=
      ⟨h.split, h.tiled, h.lineStart, h.pending, h.awaits⟩
    refine h'.push hline (Nat.succ_pos _) (Nat.succ_le_succ hfirst) ?_
    dsimp only
    split <;> rfl

theorem lexeme {c : CodeUnit} {rest : Text} (h : Scanned base text before (c :: rest) s)
    (hline : s.atLineStart = false) :
    Advances base text before (c :: rest) (s.lexeme (base + before.length) c rest) := by
  rw [LexState.lexeme_eq]
  split
  · exact h.string hline
  · split
    · rename_i opener hopener
      unfold LexState.opener? at hopener
      split at hopener
      · exact absurd hopener (by simp)
      · exact h.heredoc hline hopener
    · exact h.push hline (s.lexeme_pos _ c rest) (s.lexeme_fits _ c rest).1 (s.lexeme_reads _ c rest).ordinary

/-- A line ends, and the bodies of the heredocs opened on it are passed over. -/
theorem newline {rest : Text} (h : Scanned base text before (("\n" : Text) ++ rest) s) :
    Advances base text before (("\n" : Text) ++ rest)
      (({ s with
          tokens := s.tokens.push ⟨.newline, base + before.length, base + before.length + 1, "\n", false⟩
          spaced := false, atLineStart := true } : LexState).fill
        (base + before.length + 1) rest s.pending) := by
  let token : Token := ⟨.newline, base + before.length, base + before.length + 1, "\n", false⟩
  let s' : LexState := { s with tokens := s.tokens.push token, spaced := false, atLineStart := true }
  show Advances base text before (("\n" : Text) ++ rest)
    (s'.fill (base + before.length + 1) rest s.pending)
  obtain ⟨taken, left, hlines, hlength, hbodies⟩ := s'.fill_bodies (base + before.length + 1) rest s.pending
  have hrest : taken.flatten ++ left.flatten = rest := by
    rw [← List.flatten_append, ← hlines, Text.flatten_lines]
  have htext : before ++ token.text ++ rest = text := (List.append_assoc _ _ _).trans h.split
  have htext' : before ++ token.text ++ taken.flatten ++ left.flatten = text := by
    rw [List.append_assoc _ taken.flatten, hrest, htext]
  have hplaced : Tiled base text (before ++ token.text) (s.tokens.toList ++ [token]) :=
    .token h.tiled htext (List.cons_ne_nil _ _) rfl rfl
  have hpassed : Passed base (s.tokens.toList ++ [token]) (before ++ token.text) taken.flatten left.flatten := by
    refine .bodies rfl rfl ?_ ?_ rfl
    · rw [List.length_append]
      rfl
    · rw [htext', hrest, ← h.pending]
      exact hbodies
  have hbare : (s'.fill (base + before.length + 1) rest s.pending).1.tokens.toList.map Token.bare =
      (s.tokens.toList ++ [token]).map Token.bare := by
    rw [LexState.bare_fill _ _ (h.awaits.of_push rfl), Array.toList_push]
  -- the bodies are the lines taken, so the newline and these lines are what is passed
  refine ⟨token.text ++ taken.flatten, left.flatten, ?_, ?_, ?_, ?_, ?_, ?_, ?_⟩
  · rw [List.append_assoc, hrest]
  · rw [List.length_append, hlength, Nat.add_comm]
    rfl
  · rw [← List.append_assoc]
    exact htext'
  · rw [← List.append_assoc]
    exact (hplaced.pass htext' hpassed).of_bare hbare
  · intro _
    by_cases hleft : left = []
    · right
      rw [hleft]
      exact fun c hc => absurd hc (by simp)
    · left
      rw [← List.append_assoc]
      exact (Text.endsLine_of_append hlines hleft).append (by rw [List.getLast?_append]; rfl)
  · rw [LexState.pending_fill, ← openersIn_bare, ← currentLine_bare, hbare, currentLine_bare,
      openersIn_bare, currentLine_newline _ rfl]
    rfl
  · rw [LexState.pending_fill]
    exact fun p hp => absurd hp List.not_mem_nil

/-- Where the scan stands at the start of a line and not at its end. -/
theorem endsLine (h : Scanned base text before t s) (hstart : s.atLineStart = true)
    (hend : ¬t.AtLineEnd) : before.EndsLine := (h.lineStart hstart).resolve_right hend

/-- A block of comments is passed over up to the end of its last line. -/
theorem commentBlock {n : Nat} (h : Scanned base text before t s) (hstart : s.atLineStart = true)
    (hblock : LexState.commentBlock? t = some n) : Advances base text before t (s, n - 1) := by
  obtain ⟨⟨hopens, -⟩, piece, after, hpiece, hlength, hend, hpassed⟩ :=
    LexState.commentBlock?_passed hblock
  have hnot : ¬t.AtLineEnd := by
    intro hend
    obtain ⟨more, rfl⟩ := hopens
    exact absurd (hend _ rfl) (by decide)
  have hbefore := h.endsLine hstart hnot
  rw [← hpiece] at h ⊢
  exact h.pass (hpassed hbefore) hlength rfl rfl fun _ => .inr hend

/-- All of the text behind the mark that ends the program is passed over. -/
theorem endMark {n : Nat} (h : Scanned base text before t s) (hstart : s.atLineStart = true)
    (hmark : LexState.isEndMark t = true) (hlength : t.length = n + 1) :
    Advances base text before t (s, n) := by
  obtain ⟨blanks, more, rfl, hblanks, hline⟩ := LexState.isEndMark_eq hmark
  have hnot : ¬Text.AtLineEnd (("__END__" : Text) ++ blanks ++ more) := fun hend =>
    absurd (hend _ rfl) (by decide)
  have hbefore := h.endsLine hstart hnot
  rw [← List.append_nil (_ ++ more)] at h ⊢
  exact h.pass (.tail hbefore hblanks hline) hlength rfl rfl fun _ => .inr fun c hc => absurd hc (by simp)

theorem continuation {c : CodeUnit} {rest : Text} (h : Scanned base text before (c :: rest) s)
    (hcontinues : LexState.isContinuation c rest = true) :
    Advances base text before (c :: rest) ({ s with spaced := true }, rest.firstLine.length + 1) := by
  obtain ⟨blank, after, hblank, ht, hfirst⟩ := LexState.isContinuation_eq hcontinues
  rw [hfirst]
  rw [ht] at h ⊢
  have hends : (before ++ (("\\" : Text) ++ blank ++ "\n")).EndsLine :=
    .inr (by rw [← List.append_assoc, List.getLast?_append]; rfl)
  refine h.pass ?_ ?_ rfl rfl fun _ => .inl hends
  · rcases hblank with rfl | rfl
    · exact .continuation
    · exact .continuationReturn
  · rcases hblank with rfl | rfl <;> rfl

/-- A comment is passed over up to the end of its line. -/
theorem comment {rest : Text} (h : Scanned base text before (("#" : Text) ++ rest) s) :
    Advances base text before (("#" : Text) ++ rest) (s, rest.firstLine.length) := by
  obtain ⟨after, hafter, hline⟩ := Text.restOfLine_firstLine rest
  have ht : ("#" : Text) ++ rest = ("#" : Text) ++ rest.firstLine ++ after := by
    rw [List.append_assoc, hafter]
  rw [ht] at h ⊢
  exact h.pass (.comment hline) rfl rfl rfl fun _ => .inr hline.2

/-- One step of the scan keeps what is known of it. -/
theorem step {c : CodeUnit} {rest : Text} (h : Scanned base text before (c :: rest) s) :
    Advances base text before (c :: rest) (s.step (base + before.length) c rest) := by
  unfold LexState.step
  split
  · rename_i n hblock
    split at hblock
    · rename_i hstart
      exact h.commentBlock hstart hblock
    · exact absurd hblock (by simp)
  · split
    · rename_i hmark
      obtain ⟨hstart, hmark⟩ := (Bool.and_eq_true _ _).mp hmark
      exact h.endMark hstart hmark rfl
    · split
      · rename_i hblank
        have hblank' : Scanned base text before ([c] ++ rest) s := h
        exact hblank'.pass (.blank hblank) rfl rfl rfl fun hfalse => absurd hfalse (by simp)
      · split
        · rename_i hcontinues
          exact h.continuation hcontinues
        · split
          · rename_i hc
            subst hc
            exact h.comment
          · split
            · rename_i hc
              subst hc
              exact h.newline
            · exact Scanned.lexeme (s := { s with atLineStart := false })
                ⟨h.split, h.tiled, fun hfalse => absurd hfalse (by simp), h.pending, h.awaits⟩ rfl

/-- The scan of a text tiles it. -/
theorem scan {pos skip : Nat} (h : Scanned base text before (t.drop skip) s) (hskip : skip ≤ t.length)
    (hpos : pos + skip = base + before.length) :
    Tiled base text text (LexState.scan pos skip s t).tokens.toList := by
  induction t generalizing pos skip s before with
  | nil =>
    have hbefore : before = text := by
      rw [← h.split, List.drop_nil, List.append_nil]
    rw [LexState.scan]
    have htiled := h.tiled.of_bare (LexState.bare_fill pos [] h.awaits)
    rwa [hbefore] at htiled
  | cons c rest ih =>
    cases skip with
    | zero =>
      obtain rfl : pos = base + before.length := hpos
      have hstep := Scanned.step h
      rw [LexState.scan]
      show Tiled base text text (LexState.scan (base + before.length + 1)
        (s.step (base + before.length) c rest).2 (s.step (base + before.length) c rest).1 rest).tokens.toList
      generalize s.step (base + before.length) c rest = r at hstep
      obtain ⟨piece, after, hpiece, hlength, hscanned⟩ := hstep
      obtain ⟨first, taken, rfl⟩ := List.exists_cons_of_length_eq_add_one hlength
      obtain ⟨-, rfl⟩ := List.cons.inj hpiece
      have htaken : taken.length = r.2 := Nat.succ.inj hlength
      have hgoes : Scanned base text (before ++ first :: taken) ((taken ++ after).drop r.2) r.1 := by
        rw [← htaken, List.drop_left]
        exact hscanned
      refine ih hgoes ?_ ?_
      · rw [← htaken, List.append_eq, List.length_append]
        exact Nat.le_add_right _ _
      · rw [List.length_append, List.length_cons, htaken]
        omega
    | succ skip =>
      rw [LexState.scan]
      exact ih h (Nat.le_of_succ_le_succ hskip) (by omega)

end Scanned

/-! ### Tiled texts -/

/-- Unit `i` of the text, which stands before unit `n`, is passed over. -/
def PassedAt (base : Nat) (text : Text) (tokens : List Token) (n i : Nat) : Prop :=
  ∃ earlier later before piece after, tokens = earlier ++ later ∧ before ++ piece ++ after = text ∧
    before.length ≤ i ∧ i < before.length + piece.length ∧ before.length + piece.length ≤ n ∧
    (∀ t ∈ earlier, t.stop ≤ base + before.length) ∧
    (∀ t ∈ later, base + (before.length + piece.length) ≤ t.start) ∧ Passed base earlier before piece after

namespace Tiled

variable {before : Text} {tokens : List Token}

theorem stop_le (h : Tiled base text before tokens) : ∀ t ∈ tokens, t.stop ≤ base + before.length := by
  induction h with
  | start => exact fun t ht => absurd ht List.not_mem_nil
  | token h htext hne hstart hstop ih =>
    intro u hu
    rw [List.length_append]
    rcases List.mem_append.1 hu with hu | hu
    · have := ih u hu
      omega
    · obtain rfl := List.mem_singleton.1 hu
      omega
  | pass h htext hpassed ih =>
    intro u hu
    have := ih u hu
    rw [List.length_append]
    omega

theorem slice (h : Tiled base text before tokens) : ∀ t ∈ tokens, base ≤ t.start ∧
    t.stop ≤ base + text.length ∧ text.slice (t.start - base) (t.stop - base) = t.text := by
  induction h with
  | start => exact fun t ht => absurd ht List.not_mem_nil
  | pass h htext hpassed ih => exact ih
  | token h htext hne hstart hstop ih =>
    rename_i before after tokens t
    intro u hu
    rcases List.mem_append.1 hu with hu | hu
    · exact ih u hu
    · obtain rfl := List.mem_singleton.1 hu
      refine ⟨by omega, ?_, ?_⟩
      · rw [← htext, List.length_append, List.length_append]
        omega
      · rw [hstop, hstart, Nat.add_sub_cancel_left, Nat.add_assoc, Nat.add_sub_cancel_left, ← htext,
          Text.slice, Nat.add_sub_cancel_left, List.append_assoc, List.drop_left, List.take_left]

/-- What is not in a token is passed over. -/
theorem covered (h : Tiled base text before tokens) : ∀ i < before.length,
    (∃ t ∈ tokens, t.start ≤ base + i ∧ base + i < t.stop) ∨
      PassedAt base text tokens before.length i := by
  induction h with
  | start => exact fun i hi => absurd hi (Nat.not_lt_zero i)
  | token h htext hne hstart hstop ih =>
    rename_i before after tokens t
    intro i hi
    rw [List.length_append] at hi ⊢
    by_cases hbefore : i < before.length
    · rcases ih i hbefore with ⟨u, hu, hcover⟩ | hpassed
      · exact .inl ⟨u, List.mem_append_left _ hu, hcover⟩
      · obtain ⟨earlier, later, lead, piece, trail, rfl, hsplit, hle, hlt, hn, hearlier, hlater, hpiece⟩ :=
          hpassed
        refine .inr ⟨earlier, later ++ [t], lead, piece, trail, List.append_assoc .., hsplit, hle, hlt,
          by omega, hearlier, fun u hu => ?_, hpiece⟩
        rcases List.mem_append.1 hu with hu | hu
        · exact hlater u hu
        · obtain rfl := List.mem_singleton.1 hu
          omega
    · exact .inl ⟨t, List.mem_append_right _ List.mem_cons_self, by omega, by omega⟩
  | pass h htext hpassed ih =>
    rename_i before piece after tokens
    intro i hi
    rw [List.length_append] at hi ⊢
    by_cases hbefore : i < before.length
    · refine (ih i hbefore).imp_right ?_
      rintro ⟨earlier, later, lead, piece', trail, htokens, hsplit, hle, hlt, hn, hrest⟩
      exact ⟨earlier, later, lead, piece', trail, htokens, hsplit, hle, hlt, by omega, hrest⟩
    · exact .inr ⟨tokens, [], before, piece, after, (List.append_nil _).symm, htext, by omega, hi, le_rfl,
        h.stop_le, fun u hu => absurd hu List.not_mem_nil, hpassed⟩

end Tiled

/-- The tokens of a text and what is passed over make up the text. -/
theorem tiled_lex (text : Text) (base : Nat) : Tiled base text text (lex text base).tokens := by
  have hstart : Scanned base text [] (text.drop 0) .start :=
    ⟨rfl, .start, fun _ => .inl (.inl rfl), rfl, fun p hp => absurd hp List.not_mem_nil⟩
  exact hstart.scan (Nat.zero_le _) rfl

/-- Tokens tile their text. Each takes some units and is spelled as the text is there, each ends by where
the next ones start, and what is not in a token is passed over. All code in a string literal is what
stands in the text between the marks of an interpolation, at the offset that goes with it. -/
theorem lex_tiles (text : Text) (base : Nat) :
    let tokens := (lex text base).tokens
    (∀ t ∈ tokens, base ≤ t.start ∧ t.start < t.stop ∧ t.stop ≤ base + text.length ∧
      text.slice (t.start - base) (t.stop - base) = t.text) ∧
    (tokens.Pairwise fun t u => t.stop ≤ u.start) ∧
    (∀ i < text.length, (∃ t ∈ tokens, t.start ≤ base + i ∧ base + i < t.stop) ∨
      PassedAt base text tokens text.length i) ∧
    ∀ t ∈ tokens, ∀ flavor parts, t.content = .string flavor parts →
      ∀ source offset, .code source offset ∈ parts → ∃ before after : Text,
        text = before ++ "#\x7b" ++ source ++ "\x7d" ++ after ∧ offset = base + before.length + 2 := by
  have htiled := tiled_lex text base
  obtain ⟨hnonempty, hpairwise⟩ := lex_inOrder text base
  refine ⟨fun t ht => ?_, hpairwise, htiled.covered, fun t ht flavor parts hcontent => ?_⟩
  · obtain ⟨hstart, hstop, hslice⟩ := htiled.slice t ht
    exact ⟨hstart, hnonempty t ht, hstop, hslice⟩
  · have hexact := lex_exact text base t ht
    rw [hcontent] at hexact
    exact hexact

end Cookbook
