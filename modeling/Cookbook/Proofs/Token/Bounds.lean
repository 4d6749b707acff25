import Cookbook.Proofs.Token.Shift
import Mathlib.Data.List.TakeWhile
import Mathlib.Tactic.Common

/-!
Tokens lie in their text. Each reader takes no more than what it is given, so every token ends within
the text, and so does the code inside it, which starts after the first unit and is thus shorter than
the text.

* `Token.Between` says where a token and its code lie;
* `Lexeme.Fits` and `Quoted.read_fits` are the bounds of single readers;
* `lex_between` and `length_lex_le` are the bounds of a whole text.
-/

namespace Cookbook

/-! ### Where tokens lie -/

/-- The code of a part lies after `lo` and ends by `hi`. -/
def StringPart.Between (lo hi : Nat) : StringPart → Prop
  | .text _ => True
  | .code source offset => lo < offset ∧ offset + source.length ≤ hi

/-- All code of some content lies after `lo` and ends by `hi`. -/
def TokenContent.Between (lo hi : Nat) : TokenContent → Prop
  | .string _ parts => ∀ part ∈ parts, part.Between lo hi
  | _ => True

/-- The token, with its code, starts at `lo` or later and ends by `hi`. -/
structure Token.Between (lo hi : Nat) (t : Token) : Prop where
  start : lo ≤ t.start
  order : t.start ≤ t.stop
  stop : t.stop ≤ hi
  content : t.content.Between lo hi

namespace StringPart

variable {lo hi lo' hi' : Nat}

theorem Between.mono {part : StringPart} (h : part.Between lo hi) (hlo : lo' ≤ lo) (hhi : hi ≤ hi') :
    part.Between lo' hi' := by
  cases part with
  | text value => trivial
  | code source offset => exact ⟨hlo.trans_lt h.1, h.2.trans hhi⟩

theorem between_consText {value : Text} {parts : List StringPart}
    (h : ∀ part ∈ parts, part.Between lo hi) :
    ∀ part ∈ consText value parts, part.Between lo hi := by
  unfold consText
  split
  · exact h
  · split
    · intro part hpart
      rcases List.mem_cons.1 hpart with rfl | hpart
      · trivial
      · exact h part (List.mem_cons_of_mem _ hpart)
    · intro part hpart
      rcases List.mem_cons.1 hpart with rfl | hpart
      · trivial
      · exact h part hpart

end StringPart

theorem between_dedentParts {lo hi width : Nat} {atStart : Bool} {parts : List StringPart}
    (h : ∀ part ∈ parts, part.Between lo hi) :
    ∀ part ∈ dedentParts width atStart parts, part.Between lo hi := by
  induction parts generalizing atStart with
  | nil => exact h
  | cons part rest ih =>
    have hrest := fun p hp => h p (List.mem_cons_of_mem _ hp)
    intro p hp
    cases part with
    | text value =>
      rcases List.mem_cons.1 hp with rfl | hp
      · trivial
      · exact ih hrest p hp
    | code source offset =>
      rcases List.mem_cons.1 hp with rfl | hp
      · exact h _ List.mem_cons_self
      · exact ih hrest p hp

theorem between_dedent {lo hi : Nat} {parts : List StringPart}
    (h : ∀ part ∈ parts, part.Between lo hi) : ∀ part ∈ dedent parts, part.Between lo hi := by
  unfold dedent
  dsimp only
  split
  · exact h
  · exact between_dedentParts h

/-! ### Literals -/

namespace Quoted

/-- The content was read from a text of `n` units at offset `pos`. -/
def Fits (r : Quoted) (pos n : Nat) : Prop :=
  r.length ≤ n ∧ ∀ part ∈ r.parts, part.Between pos (pos + n)

theorem Fits.after {r : Quoted} {pos n : Nat} (m : Nat) (value : Text) (h : r.Fits (pos + m) n) :
    (r.after m value).Fits pos (n + m) := by
  refine ⟨Nat.add_le_add_right h.1 m, StringPart.between_consText fun part hpart => ?_⟩
  exact (h.2 part hpart).mono (Nat.le_add_right pos m) (by omega)

theorem read_fits (q : Quoting) (pos depth skip : Nat) (t : Text) :
    (read q pos depth skip t).Fits pos t.length := by
  fun_induction read q pos depth skip t with
  | case1 => exact ⟨Nat.zero_le _, fun part hpart => absurd hpart List.not_mem_nil⟩
  | case2 pos depth skip c rest ih => exact ih.after 1 []
  | case3 pos depth =>
    exact ⟨le_rfl, StringPart.between_consText fun part hpart => absurd hpart List.not_mem_nil⟩
  | case4 pos depth next rest ih => exact ih.after 2 _
  | case5 pos depth c rest hc n hcode more ih =>
    refine ⟨Nat.succ_le_succ ih.1, fun part hpart => ?_⟩
    rcases List.mem_cons.1 hpart with rfl | hpart
    · -- the brace that opens the code is not part of it
      cases rest with
      | nil => simp [Quoting.codeAt?] at hcode
      | cons b after =>
        refine ⟨by omega, ?_⟩
        have := List.length_take_le' n after
        simp only [List.tail_cons, List.length_cons]
        omega
    · exact (ih.2 part hpart).mono (Nat.le_add_right pos 1) (by simp only [List.length_cons]; omega)
  | case6 pos depth c rest hc hcode hopen ih => exact ih.after 1 [c]
  | case7 pos c rest hc hcode hopen hclose =>
    exact ⟨by simp, fun part hpart => absurd hpart List.not_mem_nil⟩
  | case8 pos depth c rest hc hcode hopen hclose hdepth ih => exact ih.after 1 [c]
  | case9 pos depth c rest hc hcode hopen hclose ih => exact ih.after 1 [c]

theorem ofText_fits (q : Quoting) (pos : Nat) (t : Text) : (ofText q pos t).Fits pos t.length :=
  read_fits q pos 0 0 t

end Quoted

/-! ### Lexemes -/

namespace Lexeme

/-- The lexeme was read from a text of `n` units at offset `pos`. -/
def Fits (l : Lexeme) (pos n : Nat) : Prop := l.length ≤ n ∧ l.content.Between pos (pos + n)

theorem run_le (p : CodeUnit → Bool) (t : Text) : run p t ≤ t.length :=
  (List.takeWhile_prefix p).length_le

theorem radixLength?_le {mark : Char} {digit : CodeUnit → Bool} {t : Text} {n : Nat}
    (h : radixLength? mark digit t = some n) : n ≤ t.length := by
  unfold radixLength? at h
  split at h
  · rename_i z m rest
    dsimp only at h
    split at h
    · have := run_le (fun c => digit c || c == '_') rest
      simp only [Option.some.injEq] at h
      simp only [List.length_cons]
      omega
    · exact absurd h (by simp)
  · exact absurd h (by simp)

theorem fractionLength_le (t : Text) : fractionLength t ≤ t.length := by
  unfold fractionLength
  split
  · rename_i p d rest
    have := run_le isDigitUnit rest
    simp only [List.length_cons]
    split <;> omega
  · exact Nat.zero_le _

theorem exponentLength_le (t : Text) : exponentLength t ≤ t.length := by
  have hbound : ∀ (rest : Text) (sign : Nat) (p : Prop) [Decidable p],
      (if p ∧ 0 < run CodeUnit.isDigit (rest.drop sign)
        then 1 + sign + run CodeUnit.isDigit (rest.drop sign) else 0) ≤ rest.length + 1 := by
    intro rest sign p _
    have := run_le CodeUnit.isDigit (rest.drop sign)
    rw [List.length_drop] at this
    split <;> omega
  unfold exponentLength
  split
  · exact hbound _ _ _
  · exact Nat.zero_le _

theorem decimalLength_le (t : Text) : decimalLength t ≤ t.length := by
  have hwhole := run_le isDigitUnit t
  have hfraction := fractionLength_le (t.drop (run isDigitUnit t))
  have hexponent := exponentLength_le
    (t.drop (run isDigitUnit t + fractionLength (t.drop (run isDigitUnit t))))
  simp only [List.length_drop] at hfraction hexponent
  unfold decimalLength
  dsimp only
  omega

theorem number_fits (pos : Nat) (t : Text) : (number t).Fits pos t.length := by
  refine ⟨?_, trivial⟩
  show Option.getD _ _ ≤ _
  cases h : (radixLength? 'x' CodeUnit.isHexDigit t).or
    (radixLength? 'b' (fun c => c == '0' || c == '1') t) with
  | none => exact decimalLength_le t
  | some n =>
    rcases Option.or_eq_some_iff.1 h with h | ⟨-, h⟩
    · exact radixLength?_le h
    · exact radixLength?_le h

theorem wordLength_le (t : Text) : wordLength t ≤ t.length := by
  have hrun := run_le CodeUnit.isIdentUnit t
  unfold wordLength
  dsimp only
  split
  · rename_i m rest h
    have := congrArg List.length h
    simp only [List.length_drop, List.length_cons] at this
    split <;> omega
  · exact hrun

theorem word_fits (pos : Nat) (afterDot : Bool) (t : Text) :
    (word afterDot t).Fits pos t.length := by
  have hlen := wordLength_le t
  unfold word
  dsimp only
  split
  · rename_i hlabel
    refine ⟨?_, trivial⟩
    cases hdrop : t.drop (wordLength t) with
    | nil => simp [hdrop, startsLabelColon] at hlabel
    | cons c rest =>
      have := congrArg List.length hdrop
      simp only [List.length_drop, List.length_cons] at this
      show wordLength t + 1 ≤ t.length
      omega
  · split
    · exact ⟨hlen, trivial⟩
    · split <;> exact ⟨hlen, trivial⟩

theorem sigilName_fits (pos : Nat) (c : CodeUnit) (rest : Text) :
    (sigilName (c :: rest)).Fits pos (rest.length + 1) := by
  refine ⟨?_, ?_⟩
  · show (if rest.head? = some '@' then 2 else 1) + run CodeUnit.isIdentUnit
      ((c :: rest).drop (if rest.head? = some '@' then 2 else 1)) ≤ _
    have hrun := run_le CodeUnit.isIdentUnit
      ((c :: rest).drop (if rest.head? = some '@' then 2 else 1))
    simp only [List.length_drop, List.length_cons] at hrun
    split
    · rename_i h
      rw [if_pos h] at hrun
      cases rest with
      | nil => simp at h
      | cons d more =>
        simp only [List.length_cons] at hrun ⊢
        omega
    · rename_i h
      rw [if_neg h] at hrun
      omega
  · unfold sigilName spelled
    trivial

theorem symbolLength_le (t : Text) : symbolLength t ≤ t.length := by
  have hrun := run_le CodeUnit.isIdentUnit t
  unfold symbolLength
  dsimp only
  split
  · rename_i m rest h
    have := congrArg List.length h
    simp only [List.length_drop, List.length_cons] at this
    split <;> omega
  · exact hrun

theorem symbol?_fits {pos : Nat} {c : CodeUnit} {rest : Text} {l : Lexeme}
    (h : symbol? pos (c :: rest) = some l) : l.Fits pos (rest.length + 1) := by
  unfold symbol? at h
  simp only [List.tail_cons] at h
  cases rest with
  | nil => exact absurd h (by simp)
  | cons d more =>
    dsimp only at h
    split at h
    · have hread := Quoted.ofText_fits (.quotes d (d == '\x22')) (pos + 2) more
      split at h
      · injection h with h
        subst h
        refine ⟨Nat.add_le_add_right hread.1 2, fun part hpart => ?_⟩
        exact (hread.2 part hpart).mono (Nat.le_add_right _ _) (by simp only [List.length_cons]; omega)
      · exact absurd h (by simp)
    · split at h
      · injection h with h
        subst h
        exact ⟨Nat.succ_le_succ (symbolLength_le (d :: more)), trivial⟩
      · exact absurd h (by simp)

theorem regexLength?_le {inClass : Bool} {t : Text} {n : Nat}
    (h : regexLength? inClass t = some n) : n ≤ t.length := by
  fun_induction regexLength? inClass t generalizing n with
  | case1 => exact absurd h (by simp)
  | case2 => exact absurd h (by simp)
  | case3 => exact absurd h (by simp)
  | case4 => exact absurd h (by simp)
  | case5 inClass d rest hc hd ih =>
    obtain ⟨m, hm, rfl⟩ := Option.map_eq_some_iff.1 h
    exact Nat.add_le_add_right (ih hm) 2
  | case6 inClass c rest =>
    simp only [Option.some.injEq] at h
    subst h
    simp
  | case7 inClass c rest =>
    rename_i ih
    obtain ⟨m, hm, rfl⟩ := Option.map_eq_some_iff.1 h
    exact Nat.succ_le_succ (ih hm)

theorem regex?_fits {pos : Nat} {c : CodeUnit} {rest : Text} {l : Lexeme}
    (h : regex? (c :: rest) = some l) : l.Fits pos (rest.length + 1) := by
  obtain ⟨n, hn, rfl⟩ := Option.map_eq_some_iff.1 h
  have hlen := regexLength?_le hn
  have hrun := run_le isRegexFlag ((c :: rest).drop (n + 1))
  simp only [List.tail_cons] at hlen
  simp only [List.length_drop, List.length_cons] at hrun
  refine ⟨?_, trivial⟩
  show n + 1 + run isRegexFlag ((c :: rest).drop (n + 1)) ≤ rest.length + 1
  omega

theorem percentBody?_fits {letter : Option CodeUnit} {pos lead : Nat} {rest : Text} {l : Lexeme}
    (h : percentBody? letter pos lead rest = some l) : l.Fits pos (lead + rest.length) := by
  unfold percentBody? at h
  cases rest with
  | nil => exact absurd h (by simp)
  | cons opener body =>
    dsimp only at h
    split at h
    · exact absurd h (by simp)
    · generalize hread : Quoted.ofText _ (pos + lead + 1) body = read at h
      have hfits : read.Fits (pos + lead + 1) body.length := hread ▸ Quoted.ofText_fits _ _ _
      have hlen := hfits.1
      rw [List.length_cons]
      split at h
      · exact absurd h (by simp)
      · split at h
        · injection h with h
          subst h
          exact ⟨by dsimp only; omega, trivial⟩
        · split at h
          · injection h with h
            subst h
            have hrun := run_le isRegexFlag (body.drop read.length)
            rw [List.length_drop] at hrun
            exact ⟨by dsimp only; omega, trivial⟩
          · injection h with h
            subst h
            exact ⟨by dsimp only; omega, fun part hpart =>
              (hfits.2 part hpart).mono (by omega) (by omega)⟩

theorem percent?_fits {pos : Nat} {c : CodeUnit} {rest : Text} {l : Lexeme}
    (h : percent? pos (c :: rest) = some l) : l.Fits pos (rest.length + 1) := by
  unfold percent? at h
  simp only [List.tail_cons] at h
  cases rest with
  | nil => exact absurd h (by simp)
  | cons d more =>
    dsimp only at h
    have hcomm : 2 + more.length = (d :: more).length + 1 := by rw [List.length_cons]; omega
    split at h
    · split at h
      · rw [← hcomm]
        exact percentBody?_fits h
      · exact absurd h (by simp)
    · have := percentBody?_fits h
      rwa [Nat.add_comm] at this

/-- A mark that may stand at the start of a text, and what follows it. -/
theorem length_skipMark (t : Text) (p : CodeUnit → Bool) :
    (if (t.head?.filter p).isSome then 1 else 0) +
      (if (t.head?.filter p).isSome then t.tail else t).length = t.length := by
  cases t with
  | nil => rfl
  | cons c rest =>
    split
    · simp only [List.tail_cons, List.length_cons]
      omega
    · simp

theorem heredoc?_le {t : Text} {opener : HeredocOpener} (h : heredoc? t = some opener) :
    opener.length ≤ t.length := by
  unfold heredoc? at h
  split at h
  · rename_i a b rest
    split at h
    · dsimp only at h
      generalize hmark : rest.head?.filter (fun (c : CodeUnit) => c == '~' || c == '-') = mark at h
      have hrest := length_skipMark rest fun (c : CodeUnit) => c == '~' || c == '-'
      rw [hmark] at hrest
      generalize (if mark.isSome then rest.tail else rest) = after at h hrest
      generalize hquote :
        after.head?.filter (fun (c : CodeUnit) => c == '\x22' || c == '\x27' || c == '\x60') = quote at h
      have hafter := length_skipMark after fun (c : CodeUnit) => c == '\x22' || c == '\x27' || c == '\x60'
      rw [hquote] at hafter
      generalize (if quote.isSome then after.tail else after) = name at h hafter
      have hrun : (if name.head?.any CodeUnit.isNameStart then run CodeUnit.isNameUnit name else 0) ≤
          name.length := by
        split
        · exact run_le _ _
        · exact Nat.zero_le _
      generalize (if name.head?.any CodeUnit.isNameStart then run CodeUnit.isNameUnit name else 0) = n
        at h hrun
      split at h
      · exact absurd h (by simp)
      · split at h
        · exact absurd h (by simp)
        · rename_i hzero hclosed
          split at h
          · exact absurd h (by simp)
          · injection h with h
            subst h
            simp only [List.length_cons]
            cases quote with
            | none =>
              simp only [Option.isSome_none, Bool.false_eq_true, if_false] at hafter ⊢
              omega
            | some q =>
              -- the closing quote stands after the name
              have hquoted : (name.drop n).head? = some q := by
                by_contra hne
                exact hclosed ⟨rfl, hne⟩
              obtain ⟨more, hmore⟩ := List.head?_eq_some_iff.1 hquoted
              have hlen := congrArg List.length hmore
              simp only [List.length_drop, List.length_cons] at hlen
              simp only [Option.isSome_some, if_true] at hafter ⊢
              omega
    · exact absurd h (by simp)
  · exact absurd h (by simp)

theorem punct_fits (pos : Nat) (c : CodeUnit) (rest : Text) :
    (punct (c :: rest)).Fits pos (rest.length + 1) := by
  refine ⟨?_, trivial⟩
  show Option.getD _ _ ≤ _
  cases h : punctuators.find? fun p => p.isPrefixOf (c :: rest) with
  | none => exact Nat.succ_le_succ (Nat.zero_le _)
  | some p =>
    have hp := List.find?_some h
    exact (List.isPrefixOf_iff_prefix.1 hp).length_le

end Lexeme

/-! ### The scan -/

/-- A heredoc takes the lines before the first one that ends it and that one with them, or all lines. -/
theorem PendingHeredoc.body_cases (h : PendingHeredoc) (lines : List Text) :
    (∃ body line more, lines = body ++ line :: more ∧ (∀ l ∈ body, h.isTerminator l = false) ∧
      h.isTerminator line = true ∧
      h.body lines = (body.flatten, body.flatten.length + line.length, true)) ∨
    ((∀ l ∈ lines, h.isTerminator l = false) ∧
      h.body lines = (lines.flatten, lines.flatten.length, false)) := by
  cases hfind : lines.find? h.isTerminator with
  | none =>
    have hopen : ∀ l ∈ lines, h.isTerminator l = false := by
      simpa using List.find?_eq_none.1 hfind
    refine .inr ⟨hopen, ?_⟩
    unfold body
    rw [hfind, List.takeWhile_eq_self_iff.2 fun l hl => by simp [hopen l hl]]
  | some line =>
    obtain ⟨hline, body, more, rfl, hbefore⟩ := List.find?_eq_some_iff_append.1 hfind
    have hopen : ∀ l ∈ body, h.isTerminator l = false := fun l hl => by simpa using hbefore l hl
    refine .inl ⟨body, line, more, rfl, hopen, hline, ?_⟩
    unfold PendingHeredoc.body
    rw [hfind, List.takeWhile_append_of_pos fun l hl => by simp [hopen l hl]]
    simp [hline]

theorem PendingHeredoc.body_le (h : PendingHeredoc) (t : Text) :
    (h.body t.lines).1.length ≤ t.length ∧ (h.body t.lines).2.1 ≤ t.length := by
  have ht := congrArg List.length (Text.flatten_lines t)
  rcases h.body_cases t.lines with ⟨body, line, more, hlines, -, -, hbody⟩ | ⟨-, hbody⟩
  · rw [hlines] at ht
    simp only [List.flatten_append, List.flatten_cons, List.length_append] at ht
    rw [hbody]
    exact ⟨by dsimp only; omega, by dsimp only; omega⟩
  · rw [hbody]
    exact ⟨ht.le, ht.le⟩

theorem PendingHeredoc.between_parts (h : PendingHeredoc) (pos : Nat) (body : Text) :
    ∀ part ∈ h.parts pos body, part.Between pos (pos + body.length) := by
  have hread := Quoted.ofText_fits (.body h.opener.interpolates) pos body
  unfold PendingHeredoc.parts
  dsimp only
  split
  · exact between_dedent hread.2
  · exact hread.2

namespace LexState

theorem lexeme_fits (s : LexState) (pos : Nat) (c : CodeUnit) (rest : Text) :
    ((s.literal? pos c rest).getD (s.plainLexeme c rest)).Fits pos (rest.length + 1) := by
  cases hliteral : s.literal? pos c rest with
  | some l =>
    unfold literal? at hliteral
    split at hliteral
    · exact Lexeme.percent?_fits hliteral
    · split at hliteral
      · exact Lexeme.regex?_fits hliteral
      · split at hliteral
        · exact Lexeme.symbol?_fits hliteral
        · exact absurd hliteral (by simp)
  | none =>
    rw [Option.getD_none]
    unfold plainLexeme
    split
    · exact Lexeme.number_fits pos _
    · split
      · exact Lexeme.sigilName_fits pos c rest
      · split
        · exact Lexeme.word_fits pos _ _
        · exact Lexeme.punct_fits pos c rest

def Between (lo hi : Nat) (s : LexState) : Prop := ∀ t ∈ s.tokens, t.Between lo hi

section Steps

variable {lo hi : Nat} {s : LexState} {pos : Nat} (hs : s.Between lo hi) (hlo : lo ≤ pos)

include hs hlo

theorem Between.push {t : Text} {l : Lexeme} (hhi : pos + t.length ≤ hi) (hl : l.Fits pos t.length) :
    (s.push pos t l).1.Between lo hi := by
  intro token htoken
  rcases Array.mem_push.1 htoken with htoken | rfl
  · exact hs token htoken
  · have hlen := hl.1
    refine ⟨hlo, Nat.le_add_right _ _, by dsimp only; omega, ?_⟩
    have hcontent := hl.2
    dsimp only
    cases hc : l.content with
    | string flavor parts =>
      rw [hc] at hcontent
      exact fun part hpart => (hcontent part hpart).mono hlo hhi
    | name kind value => trivial
    | words items symbols => trivial
    | regex => trivial
    | newline => trivial

theorem Between.fill {t : Text} (hhi : pos + t.length ≤ hi) (waiting : List PendingHeredoc) :
    (s.fill pos t waiting).1.Between lo hi := by
  induction waiting generalizing s pos t with
  | nil => exact hs
  | cons h more ih =>
    rw [fill_cons]
    obtain ⟨hbody, htaken⟩ := h.body_le t
    refine ih ?_ (hlo.trans (Nat.le_add_right _ _)) (by rw [List.length_drop]; omega)
    intro token htoken
    obtain ⟨i, hi', rfl⟩ := Array.mem_iff_getElem.1 htoken
    have hsize : i < s.tokens.size := by simpa [fillOne] using hi'
    have hold := hs _ (Array.getElem_mem hsize)
    simp only [fillOne, Array.getElem_modify]
    split
    · refine ⟨hold.start, hold.order, hold.stop, fun part hpart => ?_⟩
      exact (h.between_parts pos _ part hpart).mono hlo (by omega)
    · exact hold

theorem Between.string {quote : CodeUnit} {rest : Text} (hhi : pos + (rest.length + 1) ≤ hi) :
    (s.string pos quote rest).1.Between lo hi := by
  -- what lies within the quotes starts one unit on
  have hfits : ∀ (r : Quoted) (flavor : Flavor) (n : Nat), r.Fits (pos + 1) n → n ≤ rest.length →
      (TokenContent.string flavor r.parts).Between pos (pos + (rest.length + 1)) := by
    intro r flavor n hr hn part hpart
    exact (hr.2 part hpart).mono (Nat.le_add_right _ _) (by omega)
  unfold LexState.string
  dsimp only
  split
  · have hread := Quoted.ofText_fits (.quotes quote (quote != '\x27')) (pos + 1) rest
    exact hs.push hlo hhi ⟨Nat.succ_le_succ hread.1, hfits _ _ _ hread le_rfl⟩
  · have hline : rest.firstLine.length ≤ rest.length := (List.takeWhile_prefix _).length_le
    have hread := Quoted.ofText_fits (.body (quote != '\x27')) (pos + 1) rest.firstLine
    refine Between.push (s := { s with problems := _ }) hs hlo hhi
      ⟨Nat.succ_le_succ hline, hfits _ _ _ hread hline⟩

theorem Between.lexeme {c : CodeUnit} {rest : Text} (hhi : pos + (rest.length + 1) ≤ hi) :
    (s.lexeme pos c rest).1.Between lo hi := by
  rw [lexeme_eq]
  split
  · exact hs.string hlo hhi
  · split
    · rename_i opener hopener
      unfold opener? at hopener
      split at hopener
      · exact absurd hopener (by simp)
      · refine Between.push (s := { s with pending := _ }) hs hlo hhi
          ⟨Lexeme.heredoc?_le hopener, fun part hpart => absurd hpart List.not_mem_nil⟩
    · exact hs.push hlo hhi (s.lexeme_fits pos c rest)

theorem Between.step {c : CodeUnit} {rest : Text} (hhi : pos + (rest.length + 1) ≤ hi) :
    (s.step pos c rest).1.Between lo hi := by
  unfold LexState.step
  split
  · exact hs
  · split
    · exact hs
    · split
      · exact hs
      · split
        · exact hs
        · split
          · exact hs
          · split
            · refine Between.fill (s := { s with tokens := _, spaced := _, atLineStart := _ }) ?_
                (hlo.trans (Nat.le_add_right _ _)) (by omega) _
              intro token htoken
              rcases Array.mem_push.1 htoken with htoken | rfl
              · exact hs token htoken
              · exact ⟨hlo, Nat.le_add_right _ _, by dsimp only; omega, trivial⟩
            · exact Between.lexeme (s := { s with atLineStart := false }) hs hlo hhi

end Steps

/-! ### The number of tokens -/

theorem size_fill (s : LexState) (pos : Nat) (t : Text) (waiting : List PendingHeredoc) :
    (s.fill pos t waiting).1.tokens.size = s.tokens.size := by
  induction waiting generalizing s pos t with
  | nil => rfl
  | cons h more ih =>
    rw [fill_cons]
    simp only [ih]
    simp [fillOne]

theorem size_push (s : LexState) (pos : Nat) (t : Text) (l : Lexeme) :
    (s.push pos t l).1.tokens.size = s.tokens.size + 1 := by
  simp [push]

theorem size_step (s : LexState) (pos : Nat) (c : CodeUnit) (rest : Text) :
    (s.step pos c rest).1.tokens.size ≤ s.tokens.size + 1 := by
  unfold step
  split
  · exact Nat.le_succ _
  · split
    · exact Nat.le_succ _
    · split
      · exact Nat.le_succ _
      · split
        · exact Nat.le_succ _
        · split
          · exact Nat.le_succ _
          · split
            · rw [size_fill]
              simp
            · rw [lexeme_eq]
              split
              · unfold string
                dsimp only
                split <;> exact (size_push _ _ _ _).le
              · split <;> exact (size_push _ _ _ _).le

/-- A scan stays within the text and sees at most one token for each unit. -/
theorem scan_between {lo hi : Nat} {s : LexState} {pos : Nat} {t : Text} (skip : Nat)
    (hs : s.Between lo hi) (hlo : lo ≤ pos) (hhi : pos + t.length ≤ hi) :
    (scan pos skip s t).Between lo hi ∧ (scan pos skip s t).tokens.size ≤ s.tokens.size + t.length := by
  induction t generalizing pos skip s with
  | nil =>
    rw [scan]
    exact ⟨hs.fill hlo hhi _, (size_fill s pos [] _).le⟩
  | cons c rest ih =>
    rw [List.length_cons] at hhi
    cases skip with
    | zero =>
      rw [scan]
      have hstep : (s.step pos c rest).1.Between lo hi := hs.step hlo hhi
      have hsize := s.size_step pos c rest
      have hrest := ih (s.step pos c rest).2 hstep (hlo.trans (Nat.le_succ _)) (by omega)
      refine ⟨hrest.1, hrest.2.trans ?_⟩
      rw [List.length_cons]
      omega
    | succ skip =>
      rw [scan]
      have hrest := ih skip hs (hlo.trans (Nat.le_succ _)) (by omega)
      refine ⟨hrest.1, hrest.2.trans ?_⟩
      rw [List.length_cons]
      omega

end LexState

theorem lex_fits (text : Text) (base : Nat) :
    (∀ t ∈ (lex text base).tokens, t.Between base (base + text.length)) ∧
      (lex text base).tokens.length ≤ text.length := by
  have hstart : LexState.start.Between base (base + text.length) :=
    fun t ht => absurd ht (Array.not_mem_empty t)
  obtain ⟨hbetween, hsize⟩ := LexState.scan_between 0 hstart le_rfl le_rfl
  refine ⟨fun t ht => hbetween t (Array.mem_toList_iff.1 ht), ?_⟩
  simpa [lex, LexState.start] using hsize

/-- Tokens and their code lie within the text. -/
theorem lex_between (text : Text) (base : Nat) :
    ∀ t ∈ (lex text base).tokens, t.Between base (base + text.length) := (lex_fits text base).1

/-- There are no more tokens than units. -/
theorem length_lex_le (text : Text) (base : Nat) : (lex text base).tokens.length ≤ text.length :=
  (lex_fits text base).2

end Cookbook
