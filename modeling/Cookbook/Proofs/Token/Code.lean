import Cookbook.Proofs.Token.Bounds

/-!
The code in string literals. Wherever a string literal stands, and even if it is never closed, a piece
of code in it is what its text has between a hash sign with an opening brace and a closing brace, at the
offset that goes with it. Removing the indentation of a heredoc changes what is around the code and not
the code.

* `ExactCode` says where the code of some parts stands;
* `Quoted.read_exact` is the result for what is between delimiters, `lex_exact` for a whole text.
-/

namespace Cookbook

/-- Each piece of code among the parts stands in the text, which starts at `base`, at its offset and
between the marks of an interpolation. -/
def ExactCode (text : Text) (base : Nat) (parts : List StringPart) : Prop :=
  ∀ source offset, .code source offset ∈ parts → ∃ before after : Text,
    text = before ++ "#\x7b" ++ source ++ "\x7d" ++ after ∧ offset = base + before.length + 2

/-- All code in some content stands in the text. -/
def TokenContent.Exact (text : Text) (base : Nat) : TokenContent → Prop
  | .string _ parts => ExactCode text base parts
  | _ => True

/-- Content that neither ends a line nor opens a heredoc. -/
def TokenContent.isOrdinary : TokenContent → Bool
  | .newline => false
  | .string .heredoc _ => false
  | _ => true

/-! ### Code and the parts around it -/

namespace StringPart

variable {source : Text} {offset : Nat} {parts : List StringPart}

theorem code_mem_consText {value : Text} (h : .code source offset ∈ consText value parts) :
    .code source offset ∈ parts := by
  unfold consText at h
  split at h
  · exact h
  · split at h
    · exact List.mem_cons_of_mem _ ((List.mem_cons.1 h).resolve_left (by simp))
    · exact (List.mem_cons.1 h).resolve_left (by simp)

end StringPart

theorem code_mem_dedentParts {source : Text} {offset width : Nat} {atStart : Bool}
    {parts : List StringPart} (h : .code source offset ∈ dedentParts width atStart parts) :
    .code source offset ∈ parts := by
  induction parts generalizing atStart with
  | nil => exact h
  | cons part rest ih =>
    cases part with
    | text value => exact List.mem_cons_of_mem _ (ih ((List.mem_cons.1 h).resolve_left (by simp)))
    | code source' offset' =>
      rcases List.mem_cons.1 h with heq | h
      · exact heq ▸ List.mem_cons_self
      · exact List.mem_cons_of_mem _ (ih h)

theorem code_mem_dedent {source : Text} {offset : Nat} {parts : List StringPart}
    (h : .code source offset ∈ dedent parts) : .code source offset ∈ parts := by
  unfold dedent at h
  dsimp only at h
  split at h
  · exact h
  · exact code_mem_dedentParts h

namespace ExactCode

variable {text : Text} {base : Nat} {parts more : List StringPart}

theorem nil (text : Text) (base : Nat) : ExactCode text base [] :=
  fun _ _ h => absurd h List.not_mem_nil

theorem of_code (h : ExactCode text base parts)
    (hcode : ∀ source offset, .code source offset ∈ more → .code source offset ∈ parts) :
    ExactCode text base more :=
  fun source offset hmem => h source offset (hcode source offset hmem)

/-- Code that stands in a piece of a text stands in the whole text. -/
theorem widen (before : Text) (h : ExactCode text (base + before.length) parts) (after : Text) :
    ExactCode (before ++ text ++ after) base parts := by
  intro source offset hmem
  obtain ⟨lead, trail, rfl, rfl⟩ := h source offset hmem
  refine ⟨before ++ lead, trail ++ after, by simp only [List.append_assoc], ?_⟩
  rw [List.length_append]
  omega

end ExactCode

/-! ### Literals -/

theorem drop_of_codeLength {quote : Option CodeUnit} {depth : Nat} {t : Text} {n : Nat}
    (h : codeLength quote depth t = some n) : ∃ after : Text, t.drop n = ("\x7d" : Text) ++ after := by
  fun_induction codeLength quote depth t generalizing n with
  | case1 => exact absurd h (by simp)
  | case2 => exact absurd h (by simp)
  | case7 rest =>
    obtain rfl := Option.some.inj h
    exact ⟨rest, rfl⟩
  | case3 | case4 | case5 | case6 | case8 | case9 =>
    rename_i ih
    obtain ⟨m, hm, rfl⟩ := Option.map_eq_some_iff.1 h
    exact ih hm

theorem Quoting.codeAt?_eq_some {q : Quoting} {c : CodeUnit} {rest : Text} {n : Nat}
    (h : q.codeAt? c rest = some n) :
    ∃ after : Text, c :: rest = ("#\x7b" : Text) ++ rest.tail.take n ++ "\x7d" ++ after := by
  unfold codeAt? at h
  split at h
  · rename_i hmark
    split at h
    · rename_i b after
      split at h
      · rename_i hbrace
        obtain ⟨trail, htrail⟩ := drop_of_codeLength h
        refine ⟨trail, ?_⟩
        rw [hmark.2, hbrace, List.tail_cons, List.append_assoc, List.append_assoc, ← htrail]
        simp only [List.take_append_drop]
        rfl
      · exact absurd h (by simp)
    · exact absurd h (by simp)
  · exact absurd h (by simp)

namespace Quoted

/-- Code that is read after some units stands after them. -/
theorem exact_after {r : Quoted} {pos : Nat} {rest : Text} (taken value : Text)
    (h : ExactCode rest (pos + taken.length) r.parts) :
    ExactCode (taken ++ rest) pos (r.after taken.length value).parts := by
  have hwide := h.widen taken []
  rw [List.append_nil] at hwide
  exact hwide.of_code fun _ _ => StringPart.code_mem_consText

/-- The code between delimiters stands in the text that was read. -/
theorem read_exact (q : Quoting) (pos depth skip : Nat) (t : Text) :
    ExactCode t pos (read q pos depth skip t).parts := by
  fun_induction read q pos depth skip t with
  | case1 => exact .nil _ _
  | case2 pos depth skip c rest ih => exact exact_after [c] [] ih
  | case3 pos depth =>
    exact (ExactCode.nil _ _).of_code fun source offset (h : _ ∈ StringPart.consText _ []) =>
      StringPart.code_mem_consText h
  | case4 pos depth next rest ih => exact exact_after ['\\', next] _ ih
  | case5 pos depth c rest hc n hcode more ih =>
    intro source offset hmem
    rcases List.mem_cons.1 hmem with heq | hmem
    · obtain ⟨rfl, rfl⟩ := StringPart.code.inj heq
      obtain ⟨after, hafter⟩ := Quoting.codeAt?_eq_some hcode
      exact ⟨[], after, hafter, rfl⟩
    · have hwide := ih.widen [c] []
      rw [List.append_nil] at hwide
      exact hwide source offset hmem
  | case6 pos depth c rest hc hcode hopen ih => exact exact_after [c] [c] ih
  | case7 => exact .nil _ _
  | case8 pos depth c rest hc hcode hopen hclose hdepth ih => exact exact_after [c] [c] ih
  | case9 pos depth c rest hc hcode hopen hclose ih => exact exact_after [c] [c] ih

theorem ofText_exact (q : Quoting) (pos : Nat) (t : Text) : ExactCode t pos (ofText q pos t).parts :=
  read_exact q pos 0 0 t

/-- What is read of a text after some units, perhaps not all of it, has its code in the text. -/
theorem ofText_exact_within (q : Quoting) (pos : Nat) (before t after : Text) :
    ExactCode (before ++ t ++ after) pos (ofText q (pos + before.length) t).parts :=
  (ofText_exact q _ t).widen before after

end Quoted

namespace Lexeme

/-- What is read of a text at offset `pos` by itself: it neither ends a line nor opens a heredoc, and all
code in it stands in the text. -/
structure Reads (t : Text) (pos : Nat) (l : Lexeme) : Prop where
  ordinary : l.content.isOrdinary = true
  exact : l.content.Exact t pos

theorem symbol?_reads {pos : Nat} {c : CodeUnit} {rest : Text} {l : Lexeme}
    (h : symbol? pos (c :: rest) = some l) : l.Reads (c :: rest) pos := by
  unfold symbol? at h
  simp only [List.tail_cons] at h
  split at h
  · exact absurd h (by simp)
  · rename_i quote more
    split at h
    · split at h
      · obtain rfl := Option.some.inj h
        have hread := Quoted.ofText_exact_within (.quotes quote (quote == '\x22')) pos [c, quote] more []
        rw [List.append_nil] at hread
        exact ⟨rfl, hread⟩
      · exact absurd h (by simp)
    · split at h
      · obtain rfl := Option.some.inj h
        exact ⟨rfl, trivial⟩
      · exact absurd h (by simp)

theorem regex?_reads {t : Text} {l : Lexeme} (h : regex? t = some l) (pos : Nat) : l.Reads t pos := by
  obtain ⟨n, -, rfl⟩ := Option.map_eq_some_iff.1 h
  exact ⟨rfl, trivial⟩

theorem percentBody?_reads {letter : Option CodeUnit} {pos : Nat} (lead : Text) {rest : Text}
    {l : Lexeme} (h : percentBody? letter pos lead.length rest = some l) :
    l.Reads (lead ++ rest) pos := by
  unfold percentBody? at h
  split at h
  · exact absurd h (by simp)
  · rename_i opener body
    dsimp only at h
    split at h
    · exact absurd h (by simp)
    · generalize hread : Quoted.ofText _ (pos + lead.length + 1) body = read at h
      have hexact : ExactCode (lead ++ opener :: body) pos read.parts := by
        rw [← hread, ← List.append_nil (lead ++ opener :: body), List.append_cons lead opener body]
        have hlength : pos + lead.length + 1 = pos + (lead ++ [opener]).length := by
          rw [List.length_append]
          rfl
        rw [hlength]
        exact Quoted.ofText_exact_within _ pos _ body []
      split at h
      · exact absurd h (by simp)
      · split at h
        · obtain rfl := Option.some.inj h
          exact ⟨rfl, trivial⟩
        · split at h
          · obtain rfl := Option.some.inj h
            exact ⟨rfl, trivial⟩
          · obtain rfl := Option.some.inj h
            exact ⟨rfl, hexact⟩

theorem percent?_reads {pos : Nat} {c : CodeUnit} {rest : Text} {l : Lexeme}
    (h : percent? pos (c :: rest) = some l) : l.Reads (c :: rest) pos := by
  unfold percent? at h
  simp only [List.tail_cons] at h
  split at h
  · exact absurd h (by simp)
  · rename_i d more
    split at h
    · split at h
      · exact percentBody?_reads [c, d] h
      · exact absurd h (by simp)
    · exact percentBody?_reads [c] h

theorem word_reads (afterDot : Bool) (t : Text) (pos : Nat) : (word afterDot t).Reads t pos := by
  unfold word
  dsimp only
  split
  · exact ⟨rfl, trivial⟩
  · split
    · exact ⟨rfl, trivial⟩
    · split <;> exact ⟨rfl, trivial⟩

end Lexeme

/-! ### The scan -/

theorem LexState.plainLexeme_reads (s : LexState) (c : CodeUnit) (rest : Text) (pos : Nat) :
    (s.plainLexeme c rest).Reads (c :: rest) pos := by
  unfold plainLexeme
  split
  · exact ⟨rfl, trivial⟩
  · split
    · exact ⟨rfl, trivial⟩
    · split
      · exact Lexeme.word_reads _ _ pos
      · exact ⟨rfl, trivial⟩

theorem LexState.lexeme_reads (s : LexState) (pos : Nat) (c : CodeUnit) (rest : Text) :
    ((s.literal? pos c rest).getD (s.plainLexeme c rest)).Reads (c :: rest) pos := by
  cases hliteral : s.literal? pos c rest with
  | some l =>
    rw [Option.getD_some]
    unfold literal? at hliteral
    split at hliteral
    · exact Lexeme.percent?_reads hliteral
    · split at hliteral
      · exact Lexeme.regex?_reads hliteral pos
      · split at hliteral
        · exact Lexeme.symbol?_reads hliteral
        · exact absurd hliteral (by simp)
  | none => exact s.plainLexeme_reads c rest pos

theorem PendingHeredoc.parts_exact (h : PendingHeredoc) (pos : Nat) (body : Text) :
    ExactCode body pos (h.parts pos body) := by
  have hread := Quoted.ofText_exact (.body h.opener.interpolates) pos body
  unfold PendingHeredoc.parts
  dsimp only
  split
  · exact hread.of_code fun _ _ => code_mem_dedent
  · exact hread

theorem PendingHeredoc.isPrefix_body (h : PendingHeredoc) (t : Text) : (h.body t.lines).1 <+: t := by
  have ht := Text.flatten_lines t
  rcases h.body_cases t.lines with ⟨body, line, more, hlines, -, -, hbody⟩ | ⟨-, hbody⟩
  · rw [hlines, List.flatten_append] at ht
    rw [hbody]
    exact ⟨_, ht⟩
  · rw [hbody]
    exact ⟨[], (List.append_nil _).trans ht⟩

theorem TokenContent.Exact.widen {content : TokenContent} {text : Text} {base : Nat} (before : Text)
    (h : content.Exact text (base + before.length)) : content.Exact (before ++ text) base := by
  cases content with
  | string flavor parts =>
    have hwide := ExactCode.widen before h []
    rwa [List.append_nil] at hwide
  | name _ _ | words _ _ | regex | newline => trivial

namespace LexState

def Exact (text : Text) (base : Nat) (s : LexState) : Prop :=
  ∀ t ∈ s.tokens, t.content.Exact text base

section Steps

variable {base : Nat} {before : Text} {s : LexState}

theorem Exact.push {t : Text} {l : Lexeme} (hs : s.Exact (before ++ t) base)
    (hl : l.content.Exact t (base + before.length)) :
    (s.push (base + before.length) t l).1.Exact (before ++ t) base := by
  intro token htoken
  rcases Array.mem_push.1 htoken with htoken | rfl
  · exact hs token htoken
  · exact hl.widen before

theorem Exact.fill {t : Text} (hs : s.Exact (before ++ t) base) (waiting : List PendingHeredoc) :
    (s.fill (base + before.length) t waiting).1.Exact (before ++ t) base := by
  induction waiting generalizing s before t with
  | nil => exact hs
  | cons h more ih =>
    rw [fill_cons]
    have hone : (s.fillOne (base + before.length) t h).Exact (before ++ t) base := by
      intro token htoken
      obtain ⟨i, hi, rfl⟩ := Array.mem_iff_getElem.1 htoken
      have hsize : i < s.tokens.size := by simpa [fillOne] using hi
      simp only [fillOne, Array.getElem_modify]
      split
      · obtain ⟨after, hafter⟩ := h.isPrefix_body t
        have hparts := (h.parts_exact (base + before.length) (h.body t.lines).1).widen before after
        rwa [List.append_assoc, hafter] at hparts
      · exact hs _ (Array.getElem_mem hsize)
    -- the other bodies are read behind this one
    generalize htaken : (h.body t.lines).2.1 = taken at hone ⊢
    have hlength : before.length + taken = (before ++ t.take taken).length := by
      have hle := (h.body_le t).2
      rw [List.length_append, List.length_take]
      omega
    have htext : before ++ t = before ++ t.take taken ++ t.drop taken := by
      rw [List.append_assoc, List.take_append_drop]
    dsimp only
    rw [htext] at hone ⊢
    rw [Nat.add_assoc, hlength]
    exact ih hone

theorem Exact.string {quote : CodeUnit} {rest : Text} (hs : s.Exact (before ++ quote :: rest) base) :
    (s.string (base + before.length) quote rest).1.Exact (before ++ quote :: rest) base := by
  unfold LexState.string
  dsimp only
  split
  · have hread := Quoted.ofText_exact_within (.quotes quote (quote != '\x27'))
      (base + before.length) [quote] rest []
    rw [List.append_nil] at hread
    exact hs.push hread
  · have hread := Quoted.ofText_exact_within (.body (quote != '\x27')) (base + before.length) [quote]
      rest.firstLine (rest.dropWhile (· != '\n'))
    rw [List.append_assoc, Text.firstLine, List.takeWhile_append_dropWhile] at hread
    exact Exact.push (s := { s with problems := _ }) hs hread

theorem Exact.lexeme {c : CodeUnit} {rest : Text} (hs : s.Exact (before ++ c :: rest) base) :
    (s.lexeme (base + before.length) c rest).1.Exact (before ++ c :: rest) base := by
  rw [lexeme_eq]
  split
  · exact hs.string
  · split
    · exact Exact.push (s := { s with pending := _ }) hs (ExactCode.nil _ _)
    · exact hs.push (s.lexeme_reads _ c rest).exact

theorem Exact.step {c : CodeUnit} {rest : Text} (hs : s.Exact (before ++ c :: rest) base) :
    (s.step (base + before.length) c rest).1.Exact (before ++ c :: rest) base := by
  unfold LexState.step
  split
  · exact hs
  · split
    · exact hs
    · split
      · exact hs
      · split
        · exact hs
        · split
          · exact hs
          · split
            · rw [List.append_cons] at hs ⊢
              rw [show base + before.length + 1 = base + (before ++ [c]).length by simp; rfl]
              refine Exact.fill (s := { s with tokens := _, spaced := _, atLineStart := _ }) ?_ _
              intro token htoken
              rcases Array.mem_push.1 htoken with htoken | rfl
              · exact hs token htoken
              · trivial
            · exact Exact.lexeme (s := { s with atLineStart := false }) hs

end Steps

theorem Exact.scan {base : Nat} {before t : Text} {s : LexState} (skip : Nat)
    (hs : s.Exact (before ++ t) base) :
    (LexState.scan (base + before.length) skip s t).Exact (before ++ t) base := by
  induction t generalizing before skip s with
  | nil =>
    rw [LexState.scan]
    exact hs.fill _
  | cons c rest ih =>
    have hlength : base + before.length + 1 = base + (before ++ [c]).length := by
      rw [List.length_append]
      rfl
    cases skip with
    | zero =>
      have hstep := hs.step
      rw [LexState.scan, hlength]
      rw [List.append_cons] at hstep ⊢
      exact ih _ hstep
    | succ skip =>
      rw [LexState.scan, hlength]
      rw [List.append_cons] at hs ⊢
      exact ih _ hs

end LexState

/-- All code in the tokens of a text stands in the text. -/
theorem lex_exact (text : Text) (base : Nat) :
    ∀ t ∈ (lex text base).tokens, t.content.Exact text base := by
  have hstart : LexState.start.Exact ([] ++ text) base := fun t ht => absurd ht (Array.not_mem_empty t)
  exact fun t ht => hstart.scan 0 t (Array.mem_toList_iff.1 ht)

end Cookbook
