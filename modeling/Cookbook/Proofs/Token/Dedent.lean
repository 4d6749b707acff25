import Cookbook.Token.Literal
import Mathlib.Data.List.Chain
import Mathlib.Data.List.Forall2
import Mathlib.Data.List.TakeWhile
import Mathlib.Data.Set.Basic
import Mathlib.Order.Bounds.Basic
import Mathlib.Tactic.Common

/-!
The removal of indentation from a squiggly heredoc, told of its lines. A line may start in one part of the
literal and go on in the next ones, so lines are made of units, each a unit of text or a whole piece of
code.

* `StringPart.lines` are the lines of a literal, `IsCommonIndent` says what they have in common;
* `StringPart.Apart` says that no two parts are text side by side, `Quoted.read_apart` that reading leaves
  them so; then a line that starts in a part of text has its indentation there, and removing it is one scan
  over the units (`units_dedentParts`);
* `splitOn_dedentUnits` says what the scan makes of the lines, `isCommonIndent_commonIndent` which width it
  is given;
* `dedent_lines` is the result.
-/

namespace Cookbook

/-! ### Units and lines -/

/-- The text has no other white space than spaces, tabs and newlines. -/
def Text.IsPlainlySpaced (t : Text) : Prop :=
  ∀ c : CodeUnit, c ∈ t → c.isSpace = true → c = ' ' ∨ c = '\t' ∨ c = '\n'

/-- What a line of a literal is made of: a unit of text, or a piece of code, which counts as one. -/
inductive LiteralUnit where
  | text (c : CodeUnit)
  | code (source : Text) (offset : Nat)
deriving DecidableEq

namespace LiteralUnit

def newline : LiteralUnit := text '\n'

def isBlank : LiteralUnit → Bool
  | text c => c == ' ' || c == '\t'
  | code _ _ => false

/-- The unit in the outline of the literal. -/
def letter : LiteralUnit → CodeUnit
  | text c => c
  | code _ _ => 'x'

/-- The unit is no white space but a space, a tab or a newline. -/
def IsOrdinary (u : LiteralUnit) : Prop := u.letter.isSpace = true → u.isBlank = true ∨ u = newline

end LiteralUnit

namespace StringPart

def unitsOf : StringPart → List LiteralUnit
  | text value => value.map .text
  | code source offset => [.code source offset]

def units (parts : List StringPart) : List LiteralUnit := parts.flatMap unitsOf

def lines (parts : List StringPart) : List (List LiteralUnit) := (units parts).splitOn .newline

/-- Both parts are text, or both are the same code. -/
inductive SamePlace : StringPart → StringPart → Prop
  | text (value value' : Text) : SamePlace (text value) (text value')
  | code (source : Text) (offset : Nat) : SamePlace (code source offset) (code source offset)

end StringPart

def indentation (line : List LiteralUnit) : Nat := (line.takeWhile LiteralUnit.isBlank).length

def IsBlankLine (line : List LiteralUnit) : Prop := ∀ u ∈ line, u.isBlank = true

def indentations (lines : List (List LiteralUnit)) : Set Nat :=
  {n | ∃ line ∈ lines, ¬IsBlankLine line ∧ n = indentation line}

/-- The smallest indentation of the lines that are not blank; zero when all are. -/
def IsCommonIndent (lines : List (List LiteralUnit)) (m : Nat) : Prop :=
  IsLeast (indentations lines) m ∨ (indentations lines = ∅ ∧ m = 0)

/-! ### Parts side by side -/

namespace StringPart

def isText : StringPart → Bool
  | text _ => true
  | code _ _ => false

/-- No two parts side by side are text. -/
def Apart (parts : List StringPart) : Prop := parts.IsChain fun a b => a.isText = true → b.isText = false

theorem Apart.consText {parts : List StringPart} (h : Apart parts) (value : Text) :
    Apart (consText value parts) := by
  unfold StringPart.consText
  split
  · exact h
  · split
    · -- the text joins the first part, which stays a text
      unfold Apart at h ⊢
      rw [List.isChain_cons] at h ⊢
      exact h
    · rename_i hhead
      refine List.isChain_cons.2 ⟨fun part hpart _ => ?_, h⟩
      cases part with
      | text more =>
        obtain ⟨rest, hrest⟩ := List.head?_eq_some_iff.1 hpart
        exact absurd hrest (hhead more rest)
      | code source offset => rfl

theorem Apart.tail {part : StringPart} {rest : List StringPart} (h : Apart (part :: rest)) : Apart rest :=
  (List.isChain_cons.1 h).2

end StringPart

/-- Reading makes one part of all text between two pieces of code. -/
theorem Quoted.read_apart (q : Quoting) (pos depth skip : Nat) (t : Text) :
    StringPart.Apart (read q pos depth skip t).parts := by
  fun_induction read q pos depth skip t with
  | case1 => exact List.isChain_nil
  | case2 pos depth skip c rest ih => exact ih.consText []
  | case3 pos depth => exact StringPart.Apart.consText List.isChain_nil q.lastEscape
  | case4 pos depth next rest ih => exact ih.consText _
  | case5 pos depth c rest hc n hcode more ih =>
    exact List.isChain_cons.2 ⟨fun _ _ htext => absurd htext (by simp [StringPart.isText]), ih⟩
  | case6 pos depth c rest hc hcode hopen ih => exact ih.consText [c]
  | case7 pos c rest hc hcode hopen hclose => exact List.isChain_nil
  | case8 pos depth c rest hc hcode hopen hclose hdepth ih => exact ih.consText [c]
  | case9 pos depth c rest hc hcode hopen hclose ih => exact ih.consText [c]

/-! ### One scan over the units -/

/-- The units without up to `width` blanks at the start of each line. `atStart` says whether only blanks
were seen on the line so far, `removed` how many of them were removed. -/
def dedentUnits (width : Nat) : (atStart : Bool) → (removed : Nat) → List LiteralUnit → List LiteralUnit
  | _, _, [] => []
  | atStart, removed, u :: rest =>
    if u = .newline then u :: dedentUnits width true 0 rest
    else if atStart = true ∧ u.isBlank = true ∧ removed < width then
      dedentUnits width true (removed + 1) rest
    else u :: dedentUnits width false removed rest

section Scan

variable (width : Nat)

/-- Behind the indentation of a line nothing more is removed from it. -/
theorem dedentUnits_false (removed : Nat) (us : List LiteralUnit) :
    dedentUnits width false removed us = dedentUnits width false 0 us := by
  induction us with
  | nil => rfl
  | cons u rest ih => simp [dedentUnits, ih]

theorem dedentUnits_code (atStart : Bool) (removed : Nat) (source : Text) (offset : Nat)
    (us : List LiteralUnit) : dedentUnits width atStart removed (.code source offset :: us) =
      .code source offset :: dedentUnits width false 0 us := by
  rw [dedentUnits, if_neg (by simp [LiteralUnit.newline]), if_neg (by simp [LiteralUnit.isBlank]),
    dedentUnits_false]

/-- The scan of a text, before units that it treats alike wherever it stands. -/
theorem dedentUnits_text {more : List LiteralUnit}
    (hmore : ∀ atStart removed, dedentUnits width atStart removed more = dedentUnits width false 0 more)
    (atStart : Bool) (removed : Nat) (value : Text) :
    dedentUnits width atStart removed (value.map .text ++ more) =
      (dedentText width atStart removed value).1.map .text ++ dedentUnits width false 0 more := by
  induction value generalizing atStart removed with
  | nil => exact hmore atStart removed
  | cons c rest ih =>
    have hnewline : (LiteralUnit.text c = .newline) ↔ c = '\n' := by simp [LiteralUnit.newline]
    have hblank : (LiteralUnit.text c).isBlank = true ↔ c = ' ' ∨ c = '\t' := by simp [LiteralUnit.isBlank]
    rw [List.map_cons, List.cons_append, dedentUnits, dedentText]
    simp only [hnewline, hblank]
    split
    · rw [ih, List.map_cons, List.cons_append]
    · split
      · rw [ih]
      · rw [ih, List.map_cons, List.cons_append]

/-- When no two parts side by side are text, dedenting the parts is the scan over their units. -/
theorem units_dedentParts {parts : List StringPart} (h : StringPart.Apart parts) (atStart : Bool) :
    StringPart.units (dedentParts width atStart parts) =
      dedentUnits width atStart 0 (StringPart.units parts) := by
  induction parts generalizing atStart with
  | nil => rfl
  | cons part rest ih =>
    have hrest := ih h.tail
    cases part with
    | code source offset =>
      show LiteralUnit.code source offset :: StringPart.units (dedentParts width false rest) = _
      rw [hrest]
      exact (dedentUnits_code width atStart 0 source offset _).symm
    | text value =>
      have hmore : ∀ atStart removed, dedentUnits width atStart removed (StringPart.units rest) =
          dedentUnits width false 0 (StringPart.units rest) := by
        cases rest with
        | nil => exact fun _ _ => rfl
        | cons next rest =>
          cases next with
          | text more => exact absurd ((List.isChain_cons_cons.1 h).1 rfl) (by simp [StringPart.isText])
          | code source offset =>
            intro atStart removed
            exact (dedentUnits_code width atStart removed source offset _).trans
              (dedentUnits_code width false 0 source offset _).symm
      show (dedentText width atStart 0 value).1.map .text ++
        StringPart.units (dedentParts width (dedentText width atStart 0 value).2 rest) = _
      rw [hrest, hmore]
      exact (dedentUnits_text width hmore atStart 0 value).symm

theorem samePlace_dedentParts (atStart : Bool) (parts : List StringPart) :
    List.Forall₂ StringPart.SamePlace parts (dedentParts width atStart parts) := by
  induction parts generalizing atStart with
  | nil => exact .nil
  | cons part rest ih =>
    cases part with
    | text value => exact .cons (.text _ _) (ih _)
    | code source offset => exact .cons (.code _ _) (ih _)

end Scan

/-! ### What the scan makes of lines -/

def outdent (width : Nat) (line : List LiteralUnit) : List LiteralUnit :=
  line.drop (min width (indentation line))

theorem outdent_zero (line : List LiteralUnit) : outdent 0 line = line := by simp [outdent]

theorem outdent_nil (width : Nat) : outdent width [] = [] := by simp [outdent]

theorem outdent_cons_blank {u : LiteralUnit} (hu : u.isBlank = true) (width : Nat) (line : List LiteralUnit) :
    outdent (width + 1) (u :: line) = outdent width line := by
  have hindent : indentation (u :: line) = indentation line + 1 := by
    rw [indentation, List.takeWhile_cons_of_pos hu]
    rfl
  rw [outdent, hindent, Nat.add_min_add_right, List.drop_succ_cons, outdent]

theorem outdent_cons_other {u : LiteralUnit} (hu : u.isBlank = false) (width : Nat)
    (line : List LiteralUnit) : outdent width (u :: line) = u :: line := by
  have hindent : indentation (u :: line) = 0 := by
    rw [indentation, List.takeWhile_cons_of_neg (by simp [hu])]
    rfl
  rw [outdent, hindent, Nat.min_zero, List.drop_zero]

/-- The scan takes each line's indentation, up to the width; of the first one, what is left to remove, when
the scan starts in front of the line. -/
theorem splitOn_dedentUnits (width : Nat) (atStart : Bool) (removed : Nat) (us : List LiteralUnit) :
    ∃ first more, us.splitOn .newline = first :: more ∧
      (dedentUnits width atStart removed us).splitOn .newline =
        (if atStart = true then outdent (width - removed) first else first) :: more.map (outdent width) := by
  induction us generalizing atStart removed with
  | nil => exact ⟨[], [], List.splitOn_nil _, by simp [dedentUnits, outdent_nil]⟩
  | cons u rest ih =>
    rw [dedentUnits, List.splitOn_cons_eq_if_modifyHead]
    by_cases hnewline : u = .newline
    · obtain ⟨first, more, hlines, hscan⟩ := ih true 0
      refine ⟨[], rest.splitOn .newline, by rw [if_pos (by simpa using hnewline)], ?_⟩
      rw [if_pos hnewline, List.splitOn_cons_eq_if_modifyHead, if_pos (by simpa using hnewline), hscan,
        hlines]
      simp [outdent_nil]
    · rw [if_neg hnewline, if_neg (by simpa using hnewline)]
      by_cases hblank : atStart = true ∧ u.isBlank = true ∧ removed < width
      · obtain ⟨hstart, hu, hlt⟩ := hblank
        obtain ⟨first, more, hlines, hscan⟩ := ih true (removed + 1)
        refine ⟨u :: first, more, by rw [hlines]; rfl, ?_⟩
        obtain ⟨left, hleft⟩ : ∃ left, width - removed = left + 1 := ⟨width - removed - 1, by omega⟩
        have hnext : width - (removed + 1) = left := by omega
        rw [if_pos ⟨hstart, hu, hlt⟩, hscan, if_pos rfl, if_pos hstart, hleft, hnext,
          outdent_cons_blank hu]
      · obtain ⟨first, more, hlines, hscan⟩ := ih false removed
        refine ⟨u :: first, more, by rw [hlines]; rfl, ?_⟩
        rw [if_neg hblank, List.splitOn_cons_eq_if_modifyHead, if_neg (by simpa using hnewline), hscan]
        -- the unit stays: the indentation ends here, or enough of it is removed
        have hkeep : (if atStart = true then outdent (width - removed) (u :: first) else u :: first) =
            u :: first := by
          cases atStart with
          | false => rfl
          | true =>
            cases hu : u.isBlank with
            | false => exact outdent_cons_other hu _ _
            | true =>
              have hdone : width - removed = 0 := by
                have hle : ¬removed < width := fun hlt => hblank ⟨rfl, hu, hlt⟩
                omega
              rw [if_pos rfl, hdone, outdent_zero]
        rw [hkeep]
        rfl

theorem lines_dedentParts {parts : List StringPart} (h : StringPart.Apart parts) (width : Nat) :
    StringPart.lines (dedentParts width true parts) = (StringPart.lines parts).map (outdent width) := by
  obtain ⟨first, more, hlines, hscan⟩ := splitOn_dedentUnits width true 0 (StringPart.units parts)
  unfold StringPart.lines
  rw [units_dedentParts width h, hscan, hlines]
  rfl

/-! ### The common indentation -/

theorem outline_eq (parts : List StringPart) :
    StringPart.outline parts = (StringPart.units parts).map LiteralUnit.letter := by
  unfold StringPart.outline StringPart.units
  rw [List.map_flatMap]
  congr 1
  funext part
  cases part with
  | text value => simp [StringPart.unitsOf, Function.comp_def, LiteralUnit.letter]
  | code source offset => rfl

theorem letter_eq_newline_iff {u : LiteralUnit} : u.letter = '\n' ↔ u = .newline := by
  cases u with
  | text c => simp [LiteralUnit.letter, LiteralUnit.newline]
  | code source offset => simp [LiteralUnit.letter, LiteralUnit.newline]; decide

/-- The lines of the outline are those of the literal. -/
theorem splitOn_map_letter (us : List LiteralUnit) :
    Text.splitOn (us.map LiteralUnit.letter) '\n' =
      (us.splitOn .newline).map (List.map LiteralUnit.letter) := by
  unfold Text.splitOn
  induction us with
  | nil => rfl
  | cons u rest ih =>
    rw [List.map_cons, Text.split, ih, List.splitOn_cons_eq_if_modifyHead]
    by_cases hu : u = .newline
    · rw [if_pos (by simpa using letter_eq_newline_iff.2 hu), if_pos (by simpa using hu)]
      rfl
    · rw [if_neg (by simpa using fun h => hu (letter_eq_newline_iff.1 h)), if_neg (by simpa using hu)]
      cases hlines : rest.splitOn .newline with
      | nil => exact absurd hlines (List.splitOn_ne_nil _ _)
      | cons first more => rfl

/-- The units of a line are units of the literal, and none ends a line. -/
theorem mem_of_mem_splitOn {us line : List LiteralUnit} (hline : line ∈ us.splitOn .newline)
    {u : LiteralUnit} (hu : u ∈ line) : u ∈ us ∧ u ≠ .newline := by
  induction us generalizing line with
  | nil =>
    obtain rfl : line = [] := by simpa using hline
    exact absurd hu List.not_mem_nil
  | cons v rest ih =>
    rw [List.splitOn_cons_eq_if_modifyHead] at hline
    split at hline
    · rcases List.mem_cons.1 hline with rfl | hline
      · exact absurd hu List.not_mem_nil
      · exact ⟨List.mem_cons_of_mem _ (ih hline hu).1, (ih hline hu).2⟩
    · rename_i hv
      obtain ⟨first, more, hlines⟩ :=
        List.exists_cons_of_ne_nil (List.splitOn_ne_nil LiteralUnit.newline rest)
      rw [hlines] at hline
      rcases List.mem_cons.1 hline with rfl | hline
      · rcases List.mem_cons.1 hu with rfl | hu
        · exact ⟨List.mem_cons_self, by simpa using hv⟩
        · have hfirst := ih (hlines ▸ List.mem_cons_self) hu
          exact ⟨List.mem_cons_of_mem _ hfirst.1, hfirst.2⟩
      · have hmore := ih (hlines ▸ List.mem_cons_of_mem _ hline) hu
        exact ⟨List.mem_cons_of_mem _ hmore.1, hmore.2⟩

theorem Text.isEmpty_trim (t : Text) : t.trim.isEmpty = t.all CodeUnit.isSpace := by
  rw [Bool.eq_iff_iff, List.isEmpty_iff, List.all_eq_true]
  unfold trim trimEnd
  rw [List.reverse_eq_nil_iff, List.dropWhile_eq_nil_iff]
  constructor
  · intro h
    -- what is left at the start would start with no white space
    have hstart : t.trimStart = [] := by
      cases htrim : t.trimStart with
      | nil => rfl
      | cons c rest =>
        have hhead := List.head?_dropWhile_not CodeUnit.isSpace t
        rw [show t.dropWhile CodeUnit.isSpace = c :: rest from htrim] at hhead
        have hother : c.isSpace = false := hhead
        rw [h c (by simp [htrim])] at hother
        exact absurd hother (by decide)
    exact List.dropWhile_eq_nil_iff.1 hstart
  · intro h c hc
    exact h c ((List.dropWhile_sublist _).subset (List.mem_reverse.1 hc))

section Ordinary

variable {line : List LiteralUnit} (hspace : ∀ u ∈ line, u.letter.isSpace = u.isBlank)

include hspace

/-- The lines of the outline that trimming leaves nothing of are the blank ones. -/
theorem isEmpty_trim_map_letter :
    (Text.trim (line.map LiteralUnit.letter)).isEmpty = line.all LiteralUnit.isBlank := by
  rw [Text.isEmpty_trim, List.all_map, Bool.eq_iff_iff, List.all_eq_true, List.all_eq_true]
  exact forall₂_congr fun u hu => by rw [Function.comp_apply, hspace u hu]

/-- What trimming takes off the start of a line of the outline is its indentation. -/
theorem length_sub_length_trimStart :
    (line.map LiteralUnit.letter).length - (Text.trimStart (line.map LiteralUnit.letter)).length =
      indentation line := by
  have hdrop : (line.map LiteralUnit.letter).dropWhile CodeUnit.isSpace =
      (line.dropWhile LiteralUnit.isBlank).map LiteralUnit.letter := by
    induction line with
    | nil => rfl
    | cons u rest ih =>
      rw [List.map_cons, List.dropWhile_cons, List.dropWhile_cons, hspace u List.mem_cons_self]
      split
      · exact ih fun v hv => hspace v (List.mem_cons_of_mem _ hv)
      · rfl
  have hlength := congrArg List.length
    (List.takeWhile_append_dropWhile (p := LiteralUnit.isBlank) (l := line))
  rw [List.length_append] at hlength
  unfold Text.trimStart indentation
  rw [hdrop, List.length_map, List.length_map]
  omega

end Ordinary

theorem isSpace_letter_of_isBlank {u : LiteralUnit} (h : u.isBlank = true) : u.letter.isSpace = true := by
  cases u with
  | text c =>
    have hc : c = ' ' ∨ c = '\t' := by simpa [LiteralUnit.isBlank] using h
    rcases hc with rfl | rfl <;> decide
  | code source offset => exact absurd h (by simp [LiteralUnit.isBlank])

theorem isSpace_letter_of_mem_lines {parts : List StringPart}
    (h : ∀ u ∈ StringPart.units parts, u.IsOrdinary) :
    ∀ line ∈ StringPart.lines parts, ∀ u ∈ line, u.letter.isSpace = u.isBlank := by
  intro line hline u hu
  obtain ⟨hmem, hne⟩ := mem_of_mem_splitOn hline hu
  exact Bool.eq_iff_iff.2 ⟨fun hspace => (h u hmem hspace).resolve_right hne, isSpace_letter_of_isBlank⟩

/-- The width that is removed, told of the lines of the literal. -/
theorem commonIndent_outline {parts : List StringPart} (h : ∀ u ∈ StringPart.units parts, u.IsOrdinary) :
    commonIndent (StringPart.outline parts) =
      ((((StringPart.lines parts).filter fun line => !line.all LiteralUnit.isBlank).map
        indentation).min?).getD 0 := by
  have hspace := isSpace_letter_of_mem_lines h
  have hfilter : (((StringPart.lines parts).map (List.map LiteralUnit.letter)).filter
      fun line => !(Text.trim line).isEmpty) =
        ((StringPart.lines parts).filter fun line => !line.all LiteralUnit.isBlank).map
          (List.map LiteralUnit.letter) := by
    rw [List.filter_map]
    congr 1
    refine List.filter_congr fun line hline => ?_
    rw [Function.comp_apply, isEmpty_trim_map_letter (hspace line hline)]
  unfold commonIndent
  dsimp only
  rw [outline_eq, splitOn_map_letter]
  unfold StringPart.lines at hfilter hspace ⊢
  rw [hfilter, List.map_map]
  congr 2
  refine List.map_congr_left fun line hline => ?_
  exact length_sub_length_trimStart (hspace line (List.mem_filter.1 hline).1)

/-- The width that is removed is the common indentation of the lines. -/
theorem isCommonIndent_commonIndent {parts : List StringPart}
    (h : ∀ u ∈ StringPart.units parts, u.IsOrdinary) :
    IsCommonIndent (StringPart.lines parts) (commonIndent (StringPart.outline parts)) := by
  rw [commonIndent_outline h]
  generalize StringPart.lines parts = lines
  have hmem : ∀ n, n ∈ (lines.filter fun line => !line.all LiteralUnit.isBlank).map indentation ↔
      n ∈ indentations lines := by
    intro n
    simp only [List.mem_map, List.mem_filter, Bool.not_eq_true', ← Bool.not_eq_true, List.all_eq_true]
    constructor
    · rintro ⟨line, ⟨hline, hblank⟩, rfl⟩
      exact ⟨line, hline, hblank, rfl⟩
    · rintro ⟨line, hline, hblank, rfl⟩
      exact ⟨line, ⟨hline, hblank⟩, rfl⟩
  cases hmin : ((lines.filter fun line => !line.all LiteralUnit.isBlank).map indentation).min? with
  | none =>
    rw [List.min?_eq_none_iff.1 hmin] at hmem
    refine .inr ⟨Set.eq_empty_of_forall_notMem fun n hn => ?_, rfl⟩
    exact absurd ((hmem n).2 hn) List.not_mem_nil
  | some m =>
    obtain ⟨hm, hle⟩ := List.min?_eq_some_iff.1 hmin
    exact .inl ⟨(hmem m).1 hm, fun n hn => hle n ((hmem n).2 hn)⟩

/-! ### The result -/

/-- At the start of a line, up to its indentation, stand blanks. -/
theorem isBlank_of_mem_take {line : List LiteralUnit} {m : Nat} (hm : m ≤ indentation line) :
    ∀ u ∈ line.take m, u.isBlank = true := by
  intro u hu
  rw [← List.takeWhile_append_dropWhile (p := LiteralUnit.isBlank) (l := line),
    List.take_append_of_le_length hm] at hu
  exact List.mem_takeWhile_imp (List.mem_of_mem_take hu)

/-- The common indentation is removed from each line in full; a blank line may have less of it, and loses
all. -/
theorem IsCommonIndent.outdent_eq {lines : List (List LiteralUnit)} {m : Nat} (h : IsCommonIndent lines m)
    {line : List LiteralUnit} (hline : line ∈ lines) :
    outdent m line = line.drop m ∧ ∀ u ∈ line.take m, u.isBlank = true := by
  unfold outdent
  by_cases hblank : IsBlankLine line
  · have hall : indentation line = line.length := by
      rw [indentation, List.takeWhile_eq_self_iff.2 hblank]
    refine ⟨?_, fun u hu => hblank u (List.mem_of_mem_take hu)⟩
    rw [hall]
    rcases Nat.le_total m line.length with hm | hm
    · rw [Nat.min_eq_left hm]
    · rw [Nat.min_eq_right hm, List.drop_length, List.drop_eq_nil_of_le hm]
  · have hmem : indentation line ∈ indentations lines := ⟨line, hline, hblank, rfl⟩
    have hm : m ≤ indentation line := by
      rcases h with hleast | ⟨hempty, rfl⟩
      · exact hleast.2 hmem
      · exact Nat.zero_le _
    exact ⟨by rw [Nat.min_eq_left hm], isBlank_of_mem_take hm⟩

theorem isOrdinary_of_mem_units {parts : List StringPart}
    (h : ∀ value, .text value ∈ parts → value.IsPlainlySpaced) :
    ∀ u ∈ StringPart.units parts, u.IsOrdinary := by
  intro u hu hspace
  obtain ⟨part, hpart, hunit⟩ := List.mem_flatMap.1 hu
  cases part with
  | text value =>
    obtain ⟨c, hc, rfl⟩ := List.mem_map.1 hunit
    have hcases := h value hpart c hc hspace
    simpa [LiteralUnit.isBlank, LiteralUnit.newline, or_assoc] using hcases
  | code source offset =>
    obtain rfl := List.mem_singleton.1 hunit
    exact absurd (show CodeUnit.isSpace 'x' = true from hspace) (by decide)

/-- Dedenting a literal that was read, with no other white space than spaces, tabs and newlines, leaves its
code and its parts in place, and takes from the start of each line the common indentation, which is made of
blanks: all of it from a line that is not blank, and from a blank one as much as there is. -/
theorem dedent_lines (q : Quoting) (pos : Nat) (t : Text)
    (hspace : ∀ value, .text value ∈ (Quoted.ofText q pos t).parts → value.IsPlainlySpaced) :
    let parts := (Quoted.ofText q pos t).parts
    List.Forall₂ StringPart.SamePlace parts (dedent parts) ∧
      ∃ m, IsCommonIndent (StringPart.lines parts) m ∧
        StringPart.lines (dedent parts) = (StringPart.lines parts).map (List.drop m) ∧
        ∀ line ∈ StringPart.lines parts, ∀ u ∈ line.take m, u.isBlank = true := by
  intro parts
  have happart : StringPart.Apart parts := Quoted.read_apart q pos 0 0 t
  have hcommon := isCommonIndent_commonIndent (isOrdinary_of_mem_units hspace)
  have hlines : StringPart.lines (dedent parts) =
      (StringPart.lines parts).map (outdent (commonIndent (StringPart.outline parts))) := by
    unfold dedent
    dsimp only
    split
    · rename_i hzero
      rw [hzero, List.map_congr_left fun line _ => outdent_zero line, List.map_id']
    · exact lines_dedentParts happart _
  refine ⟨?_, _, hcommon, ?_, fun line hline => (hcommon.outdent_eq hline).2⟩
  · unfold dedent
    dsimp only
    split
    · refine List.forall₂_same.2 fun part _ => ?_
      cases part with
      | text value => exact .text value value
      | code source offset => exact .code source offset
    · exact samePlace_dedentParts _ true parts
  · rw [hlines]
    exact List.map_congr_left fun line hline => (hcommon.outdent_eq hline).1

/-- A body with a blank line, a tab, and lines that start with code or go on behind it. -/
theorem dedent_lines_across_parts :
    let parts := (Quoted.ofText (.body true) 9 "  a #{b}\n \n\t  c\n   #{d} e\n").parts
    (∀ value, .text value ∈ parts → value.IsPlainlySpaced) ∧
      dedent parts = [.text "a ", .code "b" 15, .text "\n\n c\n ", .code "d" 30, .text " e\n"] ∧
      List.Forall₂ StringPart.SamePlace parts (dedent parts) ∧
      ∃ m, IsCommonIndent (StringPart.lines parts) m ∧
        StringPart.lines (dedent parts) = (StringPart.lines parts).map (List.drop m) ∧
        ∀ line ∈ StringPart.lines parts, ∀ u ∈ line.take m, u.isBlank = true := by
  intro parts
  have hall : (StringPart.outline parts).all
      (fun c => !c.isSpace || (c == ' ' || c == '\t' || c == '\n')) = true := by decide +kernel
  have hspace : ∀ value, .text value ∈ parts → value.IsPlainlySpaced := by
    intro value hvalue c hc hblank
    have hplain := List.all_eq_true.1 hall c (List.mem_flatMap.2 ⟨_, hvalue, hc⟩)
    simpa [hblank, or_assoc] using hplain
  exact ⟨hspace, by decide +kernel, dedent_lines (.body true) 9 _ hspace⟩

end Cookbook
