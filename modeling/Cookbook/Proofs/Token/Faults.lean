import Cookbook.Diagnostic.Finding
import Cookbook.Proofs.Token.Shift
import Mathlib.Data.List.Nodup

/-!
# What is wrong with literals

The scan reports a literal where it opens, and comes to each place of the text once, so no two of its
problems are at one place.

* `Fault.IsOfLiteral` are the faults that the scan may report;
* `lex_problems_nodup` says that the problems of a text are at different places.
-/

namespace Cookbook

/-- The fault is that of a literal without an end. -/
def Fault.IsOfLiteral : Fault → Prop
  | openString _ => True
  | openHeredoc _ => True
  | _ => False

namespace LexState

/-- The places at which something is reported, or will be if its body has no end. -/
def marks (s : LexState) : List Nat :=
  s.problems.toList.map Problem.offset ++ s.pending.map PendingHeredoc.start

/-- The marks are different and lie before `pos`, and all that is reported is about literals. -/
structure Marked (pos : Nat) (s : LexState) : Prop where
  nodup : s.marks.Nodup
  lt : ∀ x ∈ s.marks, x < pos
  literal : ∀ p ∈ s.problems.toList, p.fault.IsOfLiteral

variable {s : LexState} {pos pos' : Nat}

theorem Marked.mono (h : s.Marked pos) (hpos : pos ≤ pos') : s.Marked pos' :=
  ⟨h.nodup, fun x hx => Nat.lt_of_lt_of_le (h.lt x hx) hpos, h.literal⟩

theorem Marked.congr {s' : LexState} (h : s.Marked pos) (hproblems : s'.problems = s.problems)
    (hpending : s'.pending = s.pending) : s'.Marked pos := by
  have hmarks : s'.marks = s.marks := by simp only [marks, hproblems, hpending]
  exact ⟨hmarks ▸ h.nodup, hmarks ▸ h.lt, hproblems ▸ h.literal⟩

theorem Marked.mark {s' : LexState} (h : s.Marked pos) (hmarks : s'.marks.Perm (pos :: s.marks))
    (hliteral : ∀ p ∈ s'.problems.toList, p.fault.IsOfLiteral) : s'.Marked (pos + 1) where
  nodup := hmarks.nodup_iff.2 (List.nodup_cons.2 ⟨fun hmem => Nat.lt_irrefl _ (h.lt pos hmem), h.nodup⟩)
  lt := by
    intro x hx
    obtain rfl | hx := List.mem_cons.1 (hmarks.mem_iff.1 hx)
    · exact Nat.lt_succ_self _
    · exact Nat.lt_succ_of_lt (h.lt x hx)
  literal := hliteral

theorem marks_fill (s : LexState) (pos : Nat) (t : Text) (waiting : List PendingHeredoc) :
    ((s.fill pos t waiting).1.marks).Sublist
      (s.problems.toList.map Problem.offset ++ waiting.map PendingHeredoc.start) := by
  induction waiting generalizing s pos t with
  | nil => exact List.Sublist.refl _
  | cons h more ih =>
    rw [fill_cons]
    refine (ih _ _ _).trans ?_
    unfold fillOne
    dsimp only
    split_ifs
    · exact (List.sublist_cons_self _ _).append_left _
    · simp

theorem literal_fill (h : ∀ p ∈ s.problems.toList, p.fault.IsOfLiteral) (pos : Nat) (t : Text)
    (waiting : List PendingHeredoc) :
    ∀ p ∈ (s.fill pos t waiting).1.problems.toList, p.fault.IsOfLiteral := by
  induction waiting generalizing s pos t with
  | nil => exact h
  | cons awaited more ih =>
    rw [fill_cons]
    refine ih ?_ _ _
    unfold fillOne
    dsimp only
    split_ifs
    · exact h
    · intro p hp
      rw [Array.toList_push] at hp
      rcases List.mem_append.1 hp with hp | hp
      · exact h p hp
      · rw [List.mem_singleton.1 hp]
        trivial

section Steps

variable (hs : s.Marked pos)

include hs

theorem Marked.fill (at' : Nat) (t : Text) : (s.fill at' t s.pending).1.Marked pos :=
  have hsub := marks_fill s at' t s.pending
  ⟨hs.nodup.sublist hsub, fun x hx => hs.lt x (hsub.subset hx), literal_fill hs.literal _ _ _⟩

theorem Marked.lexeme (c : CodeUnit) (rest : Text) : (s.lexeme pos c rest).1.Marked (pos + 1) := by
  rw [lexeme_eq]
  split
  · unfold LexState.string
    dsimp only
    split
    · exact (hs.mono (Nat.le_succ _)).congr rfl rfl
    · refine hs.mark ?_ ?_
      · simp [LexState.push, marks]
      · intro p hp
        have hp : p ∈ s.problems.toList ++ [⟨.openString c, pos⟩] := by
          simpa [LexState.push] using hp
        rcases List.mem_append.1 hp with hp | hp
        · exact hs.literal p hp
        · rw [List.mem_singleton.1 hp]
          trivial
  · split
    · refine hs.mark ?_ hs.literal
      simp only [LexState.heredoc, LexState.push, marks, List.map_append, ← List.append_assoc]
      exact List.perm_append_comm
    · exact (hs.mono (Nat.le_succ _)).congr rfl rfl

theorem Marked.step (c : CodeUnit) (rest : Text) : (s.step pos c rest).1.Marked (pos + 1) := by
  have hstay : s.Marked (pos + 1) := hs.mono (Nat.le_succ _)
  unfold LexState.step
  split
  · exact hstay
  · split_ifs
    · exact hstay
    · exact hstay.congr rfl rfl
    · exact hstay.congr rfl rfl
    · exact hstay
    · have hnewline : LexState.Marked (pos + 1) { s with
          tokens := s.tokens.push ⟨.newline, pos, pos + 1, "\n", false⟩
          spaced := false
          atLineStart := true } := hstay.congr rfl rfl
      exact hnewline.fill _ _
    · exact Marked.lexeme (s := { s with atLineStart := false }) (hs.congr rfl rfl) c rest

end Steps

theorem Marked.scan {skip : Nat} (hs : s.Marked (pos + skip)) (t : Text) :
    ∃ pos', (LexState.scan pos skip s t).Marked pos' := by
  induction t generalizing pos skip s with
  | nil => exact ⟨_, hs.fill pos []⟩
  | cons c rest ih =>
    cases skip with
    | zero =>
      rw [LexState.scan]
      exact ih ((hs.step c rest).mono (Nat.le_add_right _ _))
    | succ skip =>
      rw [LexState.scan]
      exact ih (hs.mono (by omega))

end LexState

/-- The problems of a text's literals are at different places. -/
theorem lex_problems_nodup (text : Text) (base : Nat) :
    ((lex text base).problems.map Problem.offset).Nodup ∧
      ∀ p ∈ (lex text base).problems, p.fault.IsOfLiteral := by
  have hstart : LexState.start.Marked (base + 0) :=
    ⟨List.nodup_nil, fun x hx => absurd hx List.not_mem_nil, fun p hp => absurd hp List.not_mem_nil⟩
  obtain ⟨pos, h⟩ := hstart.scan text
  exact ⟨h.nodup.sublist (List.sublist_append_left _ _), h.literal⟩

end Cookbook
