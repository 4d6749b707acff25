import Cookbook.Proofs.Token.Shift

/-!
Scans that go on after the end of a line. A scan looks back no further than to the last token, and the
end of a line tells it as much as the start of a text does. So what it sees after a newline, when no
heredoc is awaited, is what it would see of the rest of the text alone.

* `LexState.behind` puts tokens and problems in front of those that were seen;
* `LexState.step_behind` is one step, `LexState.scan_behind` a scan and `LexState.scan_resumes` the scan
  after the end of a line.
-/

namespace Cookbook

def PendingHeredoc.behind (n : Nat) (h : PendingHeredoc) : PendingHeredoc :=
  { h with index := n + h.index }

theorem Token.content_of_isNewline {t : Token} (h : t.isNewline = true) : t.content = .newline :=
  beq_iff_eq.1 h

namespace LexState

/-- What was seen, with the tokens and the problems of `before` in front of it. -/
def behind (before s : LexState) : LexState :=
  { s with
    tokens := before.tokens ++ s.tokens
    problems := before.problems ++ s.problems
    pending := s.pending.map (PendingHeredoc.behind before.tokens.size) }

/-- The last token that was seen, if there is one, ends a line. -/
def EndsLine (s : LexState) : Prop := ∀ t ∈ s.tokens.back?, t.isNewline = true

section Behind

variable {before : LexState} (hline : before.EndsLine) (s : LexState) (pos : Nat)

theorem back?_behind (before s : LexState) :
    (before.behind s).tokens.back? = s.tokens.back?.or before.tokens.back? :=
  Array.back?_append

include hline

theorem afterDot_behind : (before.behind s).afterDot = s.afterDot := by
  unfold afterDot
  rw [back?_behind]
  cases s.tokens.back? with
  | some t => rfl
  | none =>
    cases hback : before.tokens.back? with
    | none => rfl
    | some t =>
      have hcontent := Token.content_of_isNewline (hline t hback)
      simp [Token.isPunct, Token.isOneOf, hcontent]

theorem inValuePosition_behind (next : Option CodeUnit) :
    (before.behind s).inValuePosition next = s.inValuePosition next := by
  unfold inValuePosition
  rw [back?_behind]
  cases s.tokens.back? with
  | some t => rfl
  | none =>
    cases hback : before.tokens.back? with
    | none => rfl
    | some t => simp [Token.content_of_isNewline (hline t hback)]

theorem isShift_behind : (before.behind s).isShift = s.isShift := by
  unfold isShift
  rw [back?_behind]
  cases s.tokens.back? with
  | some t => rfl
  | none =>
    cases hback : before.tokens.back? with
    | none => rfl
    | some t => simp [hline t hback]

omit hline

theorem modify_behind (tokens more : Array Token) (index : Nat) (f : Token → Token) :
    (tokens ++ more).modify (tokens.size + index) f = tokens ++ more.modify index f := by
  apply Array.ext
  · simp
  · intro i hi hi'
    rw [Array.getElem_modify]
    by_cases hlt : i < tokens.size
    · rw [if_neg (by omega), Array.getElem_append_left hlt, Array.getElem_append_left hlt]
    · rw [Array.getElem_append_right (by omega), Array.getElem_append_right (by omega),
        Array.getElem_modify]
      by_cases hindex : tokens.size + index = i
      · rw [if_pos hindex, if_pos (by omega)]
      · rw [if_neg hindex, if_neg (by omega)]

theorem push_behind (t : Text) (l : Lexeme) :
    (before.behind s).push pos t l = (before.behind (s.push pos t l).1, (s.push pos t l).2) := by
  simp [push, behind]

theorem fillOne_behind (t : Text) (h : PendingHeredoc) :
    (before.behind s).fillOne pos t (h.behind before.tokens.size) =
      before.behind (s.fillOne pos t h) := by
  have hbody : (h.behind before.tokens.size).body t.lines = h.body t.lines := rfl
  unfold fillOne
  rw [hbody]
  simp only [behind, LexState.mk.injEq]
  refine ⟨modify_behind _ _ _ _, ?_, trivial, trivial, trivial⟩
  split
  · rfl
  · exact Array.append_push.symm

theorem fill_behind (t : Text) (waiting : List PendingHeredoc) :
    (before.behind s).fill pos t (waiting.map (PendingHeredoc.behind before.tokens.size)) =
      (before.behind (s.fill pos t waiting).1, (s.fill pos t waiting).2) := by
  induction waiting generalizing s pos t with
  | nil => rfl
  | cons h more ih =>
    have hbody : (h.behind before.tokens.size).body t.lines = h.body t.lines := rfl
    rw [List.map_cons, fill_cons, fill_cons, hbody, fillOne_behind]
    dsimp only
    rw [ih]

theorem string_behind (quote : CodeUnit) (rest : Text) :
    (before.behind s).string pos quote rest =
      (before.behind (s.string pos quote rest).1, (s.string pos quote rest).2) := by
  have hproblem : { before.behind s with
      problems := (before.behind s).problems.push ⟨.openString quote, pos⟩ } =
        before.behind { s with problems := s.problems.push ⟨.openString quote, pos⟩ } := by
    simp [behind]
  unfold string
  dsimp only
  rw [hproblem]
  split
  · exact push_behind s pos _ ⟨.string _ _, _⟩
  · exact push_behind _ pos _ ⟨.string _ _, _⟩

theorem heredoc_behind (t : Text) (opener : Lexeme.HeredocOpener) :
    (before.behind s).heredoc pos t opener =
      (before.behind (s.heredoc pos t opener).1, (s.heredoc pos t opener).2) := by
  have hpending : { before.behind s with
      pending := (before.behind s).pending ++ [⟨opener, pos, (before.behind s).tokens.size⟩] } =
        before.behind { s with pending := s.pending ++ [⟨opener, pos, s.tokens.size⟩] } := by
    simp [behind, PendingHeredoc.behind]
  unfold heredoc
  dsimp only
  rw [hpending]
  exact push_behind _ pos t ⟨.string .heredoc [], opener.length⟩

include hline

theorem lexeme_behind (c : CodeUnit) (rest : Text) :
    (before.behind s).lexeme pos c rest =
      (before.behind (s.lexeme pos c rest).1, (s.lexeme pos c rest).2) := by
  have hopener : (before.behind s).opener? c rest = s.opener? c rest := by
    unfold opener?
    rw [isShift_behind hline]
  have hliteral : (before.behind s).literal? pos c rest = s.literal? pos c rest := by
    unfold literal?
    rw [inValuePosition_behind hline]
  have hplain : (before.behind s).plainLexeme c rest = s.plainLexeme c rest := by
    unfold plainLexeme
    rw [afterDot_behind hline]
  rw [lexeme_eq, lexeme_eq, hopener, hliteral, hplain]
  split
  · exact string_behind s pos c rest
  · split
    · exact heredoc_behind s pos _ _
    · exact push_behind s pos _ _

theorem step_behind (c : CodeUnit) (rest : Text) :
    (before.behind s).step pos c rest =
      (before.behind (s.step pos c rest).1, (s.step pos c rest).2) := by
  have hstart : (before.behind s).atLineStart = s.atLineStart := rfl
  unfold step
  rw [hstart]
  split
  · rfl
  · split
    · rfl
    · split
      · rfl
      · split
        · rfl
        · split
          · rfl
          · split
            · rw [← fill_behind]
              simp [behind]
            · exact lexeme_behind hline { s with atLineStart := false } pos c rest

theorem scan_behind (skip : Nat) (t : Text) :
    scan pos skip (before.behind s) t = before.behind (scan pos skip s t) := by
  induction t generalizing pos skip s with
  | nil =>
    rw [scan, scan]
    exact congrArg Prod.fst (fill_behind s pos [] s.pending)
  | cons c rest ih =>
    cases skip with
    | zero =>
      rw [scan, scan, step_behind hline]
      exact ih _ _ _
    | succ skip =>
      rw [scan, scan]
      exact ih _ _ _

/-- After the end of a line, with no heredoc awaited, a scan sees what is seen of the rest alone. -/
theorem scan_resumes (hpending : before.pending = []) (hspaced : before.spaced = false)
    (hstart : before.atLineStart = true) (t : Text) :
    scan pos 0 before t = before.behind (scan pos 0 .start t) := by
  rw [← scan_behind hline]
  obtain ⟨tokens, problems, pending, spaced, atLineStart⟩ := before
  obtain ⟨rfl, rfl, rfl⟩ : pending = [] ∧ spaced = false ∧ atLineStart = true :=
    ⟨hpending, hspaced, hstart⟩
  simp [behind, start]

end Behind

end LexState

end Cookbook
