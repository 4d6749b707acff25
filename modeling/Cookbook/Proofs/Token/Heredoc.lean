import Cookbook.Proofs.Position
import Cookbook.Proofs.Token.Bounds
import Mathlib.Tactic.Common

/-!
Lines as the scan passes over them: up to their ends, up to a line that closes a block of comments, and
by the bodies of heredocs, each of which takes whole lines from those that come first.

* `Text.RestOfLine` says that some units reach up to the end of their line, `Text.FirstAt` where a
  pattern stands for the first time;
* `HeredocBodies` says which lines heredocs leave, `LexState.fill_bodies` that these are the lines left
  when bodies are filled in.
-/

namespace Cookbook

/-! ### Lines -/

namespace Text

/-- The text that starts so is at the end of a line, or empty. -/
def AtLineEnd (t : Text) : Prop := ∀ c ∈ t.head?, c = '\n'

/-- The units reach up to the end of their line and not beyond; `after` is what follows them. -/
def RestOfLine (line after : Text) : Prop := ('\n' : CodeUnit) ∉ line ∧ after.AtLineEnd

/-- The pattern stands at place `n` of the text and nowhere before. -/
def FirstAt (pattern t : Text) (n : Nat) : Prop :=
  pattern <+: t.drop n ∧ ∀ k < n, ¬pattern <+: t.drop k

theorem restOfLine_firstLine (t : Text) : ∃ after, t.firstLine ++ after = t ∧ RestOfLine t.firstLine after := by
  refine ⟨t.dropWhile (· != '\n'), List.takeWhile_append_dropWhile, fun hmem => ?_, fun c hc => ?_⟩
  · exact absurd (List.mem_takeWhile_imp hmem) (by simp)
  · have hhead := List.head?_dropWhile_not (fun c : CodeUnit => c != '\n') t
    rw [Option.mem_def.1 hc] at hhead
    simpa using hhead

/-- The lines that follow some lines are the lines of what follows them. -/
theorem lines_flatten_of_append {t : Text} {before after : List Text} (h : lines t = before ++ after) :
    lines after.flatten = after := by
  have hall : ∀ t : Text, lines (lines t).flatten = lines t := fun t => by rw [flatten_lines]
  induction t generalizing before with
  | nil =>
    obtain ⟨-, rfl⟩ := List.append_eq_nil_iff.1 h.symm
    rfl
  | cons c rest ih =>
    cases before with
    | nil =>
      rw [List.nil_append] at h
      rw [← h, hall]
    | cons first before =>
      -- the first line goes, so the rest are lines of what follows the first unit
      rw [lines] at h
      split at h
      · exact ih (List.cons.inj h).2
      · split at h
        · obtain ⟨-, rfl⟩ := List.append_eq_nil_iff.1 (List.cons.inj h).2.symm
          rfl
        · rename_i line more hlines
          obtain ⟨-, hmore⟩ := List.cons.inj h
          exact @ih (line :: before) (by rw [hlines, hmore]; rfl)

theorem getLast?_of_append {t : Text} {before after : List Text} (h : lines t = before ++ after)
    (hbefore : before ≠ []) (hafter : after ≠ []) : before.flatten.getLast? = some ('\n' : CodeUnit) := by
  induction t generalizing before with
  | nil => exact absurd (List.append_eq_nil_iff.1 h.symm).2 hafter
  | cons c rest ih =>
    obtain ⟨first, before, rfl⟩ := List.exists_cons_of_ne_nil hbefore
    rw [lines] at h
    split at h
    · rename_i hc
      obtain ⟨rfl, hrest⟩ := List.cons.inj h
      by_cases hnil : before = []
      · rw [hnil, hc]
        rfl
      · rw [List.flatten_cons, List.getLast?_append, ih hrest hnil]
        rfl
    · split at h
      · exact absurd (List.append_eq_nil_iff.1 (List.cons.inj h).2.symm).2 hafter
      · rename_i line more hlines
        obtain ⟨rfl, hmore⟩ := List.cons.inj h
        have hline := @ih (line :: before) (by rw [hlines, hmore]; rfl) (List.cons_ne_nil _ _)
        rw [List.flatten_cons] at hline ⊢
        rw [List.cons_append, List.getLast?_cons, hline]
        rfl

theorem endsLine_of_append {t : Text} {before after : List Text} (h : lines t = before ++ after)
    (hafter : after ≠ []) : EndsLine before.flatten := by
  by_cases hbefore : before = []
  · exact .inl (by rw [hbefore]; rfl)
  · exact .inr (getLast?_of_append h hbefore hafter)

theorem EndsLine.append {t u : Text} (hu : EndsLine u) (ht : t.getLast? = some ('\n' : CodeUnit)) :
    EndsLine (t ++ u) := by
  rcases hu with rfl | hlast
  · exact .inr (by rw [List.append_nil, ht])
  · exact .inr (by rw [List.getLast?_append, hlast]; rfl)

end Text

theorem LexState.find?_eq_some {pattern t : Text} {n : Nat} (h : find? pattern t = some n) :
    Text.FirstAt pattern t n := by
  induction t generalizing n with
  | nil =>
    rw [find?] at h
    split at h
    · obtain rfl := Option.some.inj h
      rename_i hnil
      exact ⟨hnil ▸ List.nil_prefix, fun k hk => absurd hk (Nat.not_lt_zero k)⟩
    · exact absurd h (by simp)
  | cons c rest ih =>
    rw [find?] at h
    split at h
    · obtain rfl := Option.some.inj h
      rename_i hhere
      exact ⟨List.isPrefixOf_iff_prefix.1 hhere, fun k hk => absurd hk (Nat.not_lt_zero k)⟩
    · rename_i hhere
      obtain ⟨m, hm, rfl⟩ := Option.map_eq_some_iff.1 h
      obtain ⟨hthere, hbefore⟩ := ih hm
      refine ⟨hthere, fun k hk => ?_⟩
      cases k with
      | zero => exact fun hpre => hhere (List.isPrefixOf_iff_prefix.2 hpre)
      | succ k => exact hbefore k (Nat.lt_of_succ_lt_succ hk)

theorem LexState.find?_eq_none {pattern t : Text} (hpattern : pattern ≠ []) (h : find? pattern t = none)
    (k : Nat) : ¬pattern <+: t.drop k := by
  induction t generalizing k with
  | nil =>
    rw [List.drop_nil, List.prefix_nil]
    exact hpattern
  | cons c rest ih =>
    rw [find?] at h
    split at h
    · exact absurd h (by simp)
    · rename_i hhere
      cases k with
      | zero => exact fun hpre => hhere (List.isPrefixOf_iff_prefix.2 hpre)
      | succ k => exact ih (Option.map_eq_none_iff.1 h) k

/-! ### Heredocs -/

/-- The line ends the body of a heredoc that was opened so. -/
def Lexeme.HeredocOpener.Ends (o : Lexeme.HeredocOpener) (line : Text) : Prop :=
  (PendingHeredoc.mk o 0 0).isTerminator line = true

/-- The lines that heredocs leave: each takes the lines before the first one that ends it and that one
with them, or all that are there. -/
inductive HeredocBodies : List Lexeme.HeredocOpener → (lines left : List Text) → Prop
  | none (lines : List Text) : HeredocBodies [] lines lines
  | ended {o : Lexeme.HeredocOpener} {more : List Lexeme.HeredocOpener} {body : List Text} {line : Text}
      {lines left : List Text} (hbody : ∀ l ∈ body, ¬o.Ends l) (hline : o.Ends line)
      (hmore : HeredocBodies more lines left) : HeredocBodies (o :: more) (body ++ line :: lines) left
  | unended {o : Lexeme.HeredocOpener} {more : List Lexeme.HeredocOpener} {body : List Text}
      (hbody : ∀ l ∈ body, ¬o.Ends l) (hmore : HeredocBodies more [] []) :
      HeredocBodies (o :: more) body []

/-- The bodies that are filled in are those of the heredocs, from the lines that come first. -/
theorem LexState.fill_bodies (s : LexState) (pos : Nat) (t : Text) (waiting : List PendingHeredoc) :
    ∃ taken left, t.lines = taken ++ left ∧ (s.fill pos t waiting).2 = taken.flatten.length ∧
      HeredocBodies (waiting.map (·.opener)) t.lines left := by
  induction waiting generalizing s pos t with
  | nil => exact ⟨[], t.lines, rfl, rfl, .none _⟩
  | cons h more ih =>
    rw [fill_cons]
    have hends : ∀ body : List Text, (∀ l ∈ body, h.isTerminator l = false) → ∀ l ∈ body, ¬h.opener.Ends l :=
      fun body hbody l hl hends => absurd ((hbody l hl).symm.trans hends) (by simp)
    rcases h.body_cases t.lines with ⟨body, line, rest, hlines, hbody, hline, htaken⟩ | ⟨hbody, htaken⟩
    · have hdrop : t.drop (body.flatten.length + line.length) = rest.flatten := by
        have ht := Text.flatten_lines t
        rw [hlines, List.flatten_append, List.flatten_cons, ← List.append_assoc] at ht
        rw [← ht, ← List.length_append, List.drop_left]
      have hleft : Text.lines rest.flatten = rest :=
        Text.lines_flatten_of_append (hlines.trans (List.append_cons body line rest))
      obtain ⟨taken, left, hsplit, hlength, hbodies⟩ :=
        ih (s.fillOne pos t h) (pos + (body.flatten.length + line.length)) rest.flatten
      rw [hleft] at hsplit hbodies
      refine ⟨body ++ line :: taken, left, ?_, ?_, ?_⟩
      · rw [hlines, hsplit, List.append_assoc]
        rfl
      · rw [htaken]
        dsimp only
        rw [hdrop, hlength, List.flatten_append, List.flatten_cons, List.length_append,
          List.length_append, Nat.add_assoc]
      · rw [hlines]
        exact .ended (hends body hbody) hline hbodies
    · -- the body goes on to the end of the text, and nothing is left for other heredocs
      have hdrop : t.drop t.lines.flatten.length = [] := by
        rw [Text.flatten_lines, List.drop_length]
      obtain ⟨taken, left, hsplit, hlength, hbodies⟩ :=
        ih (s.fillOne pos t h) (pos + t.lines.flatten.length) []
      obtain ⟨rfl, rfl⟩ := List.append_eq_nil_iff.1 hsplit.symm
      refine ⟨t.lines, [], (List.append_nil _).symm, ?_, .unended (hends _ hbody) hbodies⟩
      rw [htaken]
      dsimp only
      rw [hdrop, hlength]
      rfl

end Cookbook
