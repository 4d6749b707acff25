import Cookbook.Proofs.Value.Lexing

/-!
Brackets and commas of a printed value. The tokens of a value keep their brackets in pairs and have no
comma outside them, so the lists and the hashes around it are cut where they were printed.

* `Passes` is what the search for brackets and commas makes of a run, `passes_pieces` the case of a
  value;
* `closing?_enclosed` and `filter_splitTopLevel` are about what stands in brackets.
-/

namespace Cookbook

/-! ### Brackets and commas -/

/-- A run that is passed over as a whole: within brackets it does not close them, and from depth `low`
on it stays in one piece. -/
structure Passes (low : Int) (run : List Token) : Prop where
  closing : ∀ depth : Int, 0 < depth → ∀ more,
    closing? depth (run ++ more) = (closing? depth more).map (· + run.length)
  pieces : ∀ depth : Int, low ≤ depth → ∀ more,
    pieces "," depth (run ++ more) = (pieces "," depth more).modifyHead (run ++ ·)

namespace Passes

variable {low : Int} {run more : List Token}

theorem nil : Passes low [] where
  closing _ _ more := by simp
  pieces depth _ more := by
    show _ = (Cookbook.pieces "," depth more).modifyHead id
    rw [List.modifyHead_id, List.nil_append, id]

theorem append (h : Passes low run) (hmore : Passes low more) : Passes low (run ++ more) where
  closing depth hdepth rest := by
    rw [List.append_assoc, h.closing depth hdepth, hmore.closing depth hdepth, Option.map_map,
      List.length_append]
    congr 1
    funext n
    show n + more.length + run.length = n + (run.length + more.length)
    omega
  pieces depth hdepth rest := by
    rw [List.append_assoc, h.pieces depth hdepth, hmore.pieces depth hdepth, List.modifyHead_modifyHead]
    simp [Function.comp_def]

theorem mono {high : Int} (hle : low ≤ high) (h : Passes low run) : Passes high run where
  closing := h.closing
  pieces depth hdepth := h.pieces depth (hle.trans hdepth)

/-- A token that is no bracket, and no comma unless commas are passed. -/
theorem token {t : Token} (hopener : t.isOpener = false) (hcloser : t.isCloser = false)
    (hcomma : t.isPunct [","] = false ∨ 0 < low) : Passes low [t] := by
  have hdepth : ∀ depth, depthAfter depth t = depth := fun depth => by
    simp [depthAfter, hopener, hcloser]
  constructor
  · intro depth _ more
    simp [closing?, hdepth, hcloser]
  · intro depth hlow more
    have hsplit : ¬(depthAfter depth t = 0 ∧ t.isPunct [","] = true) := by
      rintro ⟨hzero, ht⟩
      rw [hdepth] at hzero
      rcases hcomma with hcomma | hcomma
      · rw [ht] at hcomma
        exact absurd hcomma (by decide)
      · omega
    rw [List.singleton_append, pieces_cons hsplit, hdepth]
    rfl

section Bracketed

variable {opener closer : Token} (hopener : opener.isOpener = true)
  (hopener' : opener.isCloser = false) (hcloser : closer.isCloser = true)
  (hcloser' : closer.isOpener = false) (h : Passes 1 run)

include hopener hopener' hcloser hcloser' h

theorem closing?_bracketed {depth : Int} (hdepth : 0 ≤ depth) (more : List Token) :
    closing? depth (opener :: (run ++ closer :: more)) =
      if depth = 0 then some (run.length + 1)
      else (closing? depth more).map (· + (run.length + 2)) := by
  have hin : depthAfter depth opener = depth + 1 := by simp [depthAfter, hopener]
  have hout : depthAfter (depth + 1) closer = depth := by simp [depthAfter, hcloser, hcloser']
  rw [closing?, hin, hopener', h.closing (depth + 1) (by omega), closing?, hout, hcloser]
  by_cases hzero : depth = 0
  · simp [hzero]
  · have hadd : ∀ n, n + 1 + run.length + 1 = n + (run.length + 2) := by omega
    simp [hzero, Function.comp_def, hadd]

/-- A run in brackets is passed over, with the commas in it. -/
theorem bracketed (hcomma : opener.isPunct [","] = false) (hcomma' : closer.isPunct [","] = false) :
    Passes 0 (opener :: (run ++ [closer])) where
  closing depth hdepth more := by
    have hclosing := closing?_bracketed hopener hopener' hcloser hcloser' h hdepth.le more
    rw [if_neg (by omega)] at hclosing
    simpa using hclosing
  pieces depth hdepth more := by
    have hin : depthAfter depth opener = depth + 1 := by simp [depthAfter, hopener]
    have hout : depthAfter (depth + 1) closer = depth := by simp [depthAfter, hcloser, hcloser']
    rw [List.cons_append, List.append_assoc, pieces_cons (by simp [hcomma]), hin,
      h.pieces (depth + 1) (by omega), List.singleton_append, pieces_cons (by simp [hcomma']), hout,
      List.modifyHead_modifyHead, List.modifyHead_modifyHead]
    simp [Function.comp_def]

end Bracketed

theorem pieces_self (h : Passes 0 run) : Cookbook.pieces "," 0 run = [run] := by
  have hrun := h.pieces 0 le_rfl []
  simpa [Cookbook.pieces] using hrun

end Passes

namespace Written

/-! ### Runs of values -/

theorem isPunct_word (pos : Nat) (spaced : Bool) (w : Text) (values : List Text) :
    ((⟨spaced, .word w⟩ : Placed).token pos).isPunct values = false := by
  simp only [Token.isPunct, Token.isOneOf, PlacedPiece.token, isPiece_content, Piece.content]
  cases keywords.contains w <;> rfl

theorem passes_word (pos : Nat) (spaced : Bool) (w : Text) :
    Passes 0 [(⟨spaced, .word w⟩ : Placed).token pos] :=
  .token (isPunct_word _ _ _ _) (isPunct_word _ _ _ _) (.inl (isPunct_word _ _ _ _))

theorem layout_enclosed (pos : Nat) (spaced : Bool) (opener closer : Text) (runs : List (List Placed)) :
    layout pos (enclosed spaced opener closer runs) =
      let start := pos + (⟨spaced, .mark opener⟩ : Placed).text.length
      (⟨spaced, .mark opener⟩ : Placed).token pos :: (layout start (commaSeparated runs) ++
        [(mark closer).token (start + (printed (commaSeparated runs)).length)]) := by
  rw [enclosed, layout, layout_append]
  rfl

theorem layout_commaSeparated (pos : Nat) (run next : List Placed) (runs : List (List Placed)) :
    layout pos (commaSeparated (run :: next :: runs)) =
      layout pos run ++ (mark ",").token (pos + (printed run).length) ::
        layout (pos + (printed run).length + 1) (commaSeparated (next :: runs)) := by
  unfold commaSeparated
  rw [List.intercalate_cons_cons, List.append_assoc, layout_append]
  rfl

theorem passes_commaSeparated {runs : List (List Placed)}
    (h : ∀ run ∈ runs, ∀ pos, Passes 0 (layout pos run)) (pos : Nat) :
    Passes 1 (layout pos (commaSeparated runs)) := by
  induction runs generalizing pos with
  | nil => exact .nil
  | cons run runs ih =>
    have hrun : Passes 1 (layout pos run) := (h run List.mem_cons_self pos).mono (by decide)
    cases runs with
    | nil => simpa [commaSeparated] using hrun
    | cons next runs =>
      have hcomma : Passes 1 [(mark ",").token (pos + (printed run).length)] :=
        .token rfl rfl (.inr (by decide))
      rw [layout_commaSeparated]
      exact hrun.append (hcomma.append (ih (fun run hrun => h run (List.mem_cons_of_mem _ hrun)) _))

/-- The two kinds of brackets a value may stand in. -/
def brackets : List (Text × Text) := [("[", "]"), ("\x7b", "\x7d")]

section Enclosed

variable {opener closer : Text} (hbrackets : (opener, closer) ∈ brackets)
  {runs : List (List Placed)} (h : ∀ run ∈ runs, ∀ pos, Passes 0 (layout pos run)) (pos : Nat)
  (spaced : Bool)

include hbrackets

theorem bracket_tokens (pos pos' : Nat) (spaced : Bool) :
    let opening := (⟨spaced, .mark opener⟩ : Placed).token pos
    let closing := (mark closer).token pos'
    (opening.isOpener = true ∧ opening.isCloser = false ∧ opening.isPunct [","] = false) ∧
      closing.isCloser = true ∧ closing.isOpener = false ∧ closing.isPunct [","] = false := by
  simp only [brackets, List.mem_cons, List.not_mem_nil, or_false, Prod.mk.injEq] at hbrackets
  rcases hbrackets with ⟨rfl, rfl⟩ | ⟨rfl, rfl⟩ <;> exact ⟨⟨rfl, rfl, rfl⟩, rfl, rfl, rfl⟩

include h

theorem passes_enclosed : Passes 0 (layout pos (enclosed spaced opener closer runs)) := by
  rw [layout_enclosed]
  obtain ⟨⟨ho, ho', hoc⟩, hc, hc', hcc⟩ := bracket_tokens hbrackets pos
    (pos + (⟨spaced, .mark opener⟩ : Placed).text.length + (printed (commaSeparated runs)).length) spaced
  exact .bracketed ho ho' hc hc' (passes_commaSeparated h _) hoc hcc

theorem closing?_enclosed :
    closing? 0 (layout pos (enclosed spaced opener closer runs)) =
      some ((commaSeparated runs).length + 1) := by
  rw [layout_enclosed]
  obtain ⟨⟨ho, ho', -⟩, hc, hc', -⟩ := bracket_tokens hbrackets pos
    (pos + (⟨spaced, .mark opener⟩ : Placed).text.length + (printed (commaSeparated runs)).length) spaced
  have hclosing := Passes.closing?_bracketed ho ho' hc hc' (passes_commaSeparated h
    (pos + (⟨spaced, .mark opener⟩ : Placed).text.length)) le_rfl []
  rw [if_pos rfl, length_layout] at hclosing
  exact hclosing

end Enclosed

theorem passes_pathPieces (pos : Nat) (spaced : Bool) (scope : Scope) (keys : List Text) :
    Passes 0 (layout pos (pathPieces spaced scope keys)) := by
  have hkeys : ∀ pos, Passes 0 (layout pos (keys.flatMap keyPieces)) := by
    induction keys with
    | nil => exact fun _ => .nil
    | cons key keys ih =>
      intro pos
      have hkey : Passes 1 [(⟨false, .string key⟩ : Placed).token (pos + 1)] :=
        .token rfl rfl (.inl rfl)
      have hbracketed : Passes 0 (layout pos (keyPieces key)) :=
        Passes.bracketed rfl rfl rfl rfl hkey rfl rfl
      rw [List.flatMap_cons, layout_append]
      exact hbracketed.append (ih _)
  rw [pathPieces, layout]
  exact (passes_word pos spaced scope.word).append (hkeys _)

theorem passes_entryPieces {e : Entry} (h : ∀ pos, Passes 0 (layout pos (pieces true e.value)))
    (spaced : Bool) (pos : Nat) : Passes 0 (layout pos (entryPieces spaced e)) :=
  Passes.append (.token rfl rfl (.inl rfl)) (Passes.append (.token rfl rfl (.inl rfl)) (h _))

/-- The tokens of a value keep their brackets in pairs, and no comma stands outside them. -/
theorem passes_pieces {v : Value} (h : v.isPrintable = true) (spaced : Bool) (pos : Nat) :
    Passes 0 (layout pos (pieces spaced v)) := by
  revert spaced pos
  apply Value.printable_ind (h := h)
  case text => exact fun t spaced pos => .token rfl rfl (.inl rfl)
  case number =>
    intro n _ spaced pos
    rw [pieces, intPieces]
    have hnumber : ∀ spaced pos, Passes 0 [(⟨spaced, .number n.num.natAbs⟩ : Placed).token pos] :=
      fun spaced pos => .token rfl rfl (.inl rfl)
    split
    · exact Passes.append (.token rfl rfl (.inl rfl)) (hnumber false _)
    · exact hnumber spaced pos
  case bool => exact fun b spaced pos => passes_word pos spaced _
  case nil => exact fun spaced pos => passes_word pos spaced _
  case symbol => exact fun name spaced pos => .token rfl rfl (.inl rfl)
  case path => exact fun scope keys _ spaced pos => passes_pathPieces pos spaced scope keys
  case interpolation =>
    exact fun segments _ spaced pos => .token rfl rfl (.inl rfl)
  case list =>
    intro items _ ih spaced pos
    rw [pieces_list]
    refine passes_enclosed (by decide) (fun run hrun pos => ?_) pos spaced
    obtain ⟨spaced', v, hv, rfl⟩ := mem_runsOf hrun
    exact ih v hv spaced' pos
  case map =>
    intro entries _ ih spaced pos
    rw [pieces_map]
    refine passes_enclosed (by decide) (fun run hrun pos => ?_) pos spaced
    obtain ⟨spaced', e, he, rfl⟩ := mem_runsOf hrun
    exact passes_entryPieces (ih e he true) spaced' pos

/-! ### Cutting at commas -/

/-- The runs of tokens of some runs of pieces with commas between them. -/
def layouts : (pos : Nat) → List (List Placed) → List (List Token)
  | _, [] => []
  | pos, run :: runs => layout pos run :: layouts (pos + (printed run).length + 1) runs

/-- Runs with commas between them are cut at these commas. -/
theorem pieces_commaSeparated {run : List Placed} {runs : List (List Placed)}
    (h : ∀ r ∈ run :: runs, ∀ pos, Passes 0 (layout pos r)) (pos : Nat) :
    Cookbook.pieces "," 0 (layout pos (commaSeparated (run :: runs))) = layouts pos (run :: runs) := by
  induction runs generalizing run pos with
  | nil =>
    have hrun := (h run List.mem_cons_self pos).pieces_self
    simpa [commaSeparated, layouts] using hrun
  | cons next runs ih =>
    rw [layout_commaSeparated, (h run List.mem_cons_self pos).pieces 0 le_rfl, layouts,
      ← ih fun r hr => h r (List.mem_cons_of_mem _ hr)]
    have hcomma : ∀ rest, Cookbook.pieces "," 0 ((mark ",").token (pos + (printed run).length) :: rest) =
        [] :: Cookbook.pieces "," 0 rest := fun rest => rfl
    rw [hcomma, List.modifyHead_cons, List.append_nil]

theorem mem_layouts {pos : Nat} {runs : List (List Placed)} {r : List Token} (h : r ∈ layouts pos runs) :
    ∃ run ∈ runs, ∃ pos', r = layout pos' run := by
  induction runs generalizing pos with
  | nil => exact absurd h List.not_mem_nil
  | cons run runs ih =>
    rcases List.mem_cons.1 h with rfl | h
    · exact ⟨run, List.mem_cons_self, pos, rfl⟩
    · obtain ⟨other, hother, pos', rfl⟩ := ih h
      exact ⟨other, List.mem_cons_of_mem _ hother, pos', rfl⟩

/-- The pieces between the commas are the runs, and none of them is empty. -/
theorem filter_splitTopLevel {runs : List (List Placed)}
    (h : ∀ run ∈ runs, run ≠ [] ∧ ∀ pos, Passes 0 (layout pos run)) (pos : Nat) :
    (splitTopLevel "," (layout pos (commaSeparated runs))).filter (!·.isEmpty) = layouts pos runs := by
  cases runs with
  | nil => rfl
  | cons run runs =>
    have hne : commaSeparated (run :: runs) ≠ [] := by
      have hrun := (h run List.mem_cons_self).1
      cases runs with
      | nil => simpa [commaSeparated] using hrun
      | cons next runs =>
        unfold commaSeparated
        rw [List.intercalate_cons_cons]
        simp [hrun]
    have hempty : (layout pos (commaSeparated (run :: runs))).isEmpty = false := by
      simpa using layout_ne_nil hne pos
    unfold splitTopLevel
    rw [hempty, if_neg Bool.false_ne_true, pieces_commaSeparated fun r hr => (h r hr).2,
      List.filter_eq_self]
    intro r hr
    obtain ⟨run, hrun, pos', rfl⟩ := mem_layouts hr
    simpa using layout_ne_nil (h run hrun).1 pos'

end Written

end Cookbook
