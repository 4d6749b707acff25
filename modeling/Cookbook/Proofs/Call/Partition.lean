import Cookbook.Proofs.Lists
import Cookbook.Proofs.Call.Brackets
import Mathlib.Data.List.Forall2

/-!
What becomes of the tokens of a run that is split, and of a call that is read. Splitting takes the
separators outside brackets away and nothing else, and what it leaves of a balanced run is balanced;
reading a call takes the commas, the parentheses and the marks between keys and values.

* `CutsFrom` says how a run is made of pieces and the separators between them, `exists_cuts` that splitting
  cuts it so, `Paired.mem_pieces` that balanced runs have balanced pieces;
* `Argument.Spells` and `Call.Spells` say which tokens an argument and a call are read from;
* `splitting_and_matching_keep_tokens` is the result, and `arrow_in_no_part` says that the marks have to
  be named in it.
-/

namespace Cookbook

/-! ### Separators outside brackets -/

def bracketMarks : List Text := ["(", "[", "\x7b", ")", "]", "\x7d"].map Text.ofString

/-- How many more openers than closers a run has. -/
def bracketDepth (run : List Token) : Int := run.countP Token.isOpener - run.countP Token.isCloser

/-- Some pieces of a run, each with the separator after it, one after another. -/
def rejoin (cuts : List (List Token × Token)) : List Token := cuts.flatMap fun cut => cut.1 ++ [cut.2]

/-- The token behind `before` is one of the separators after the pieces. -/
def RemovedAt (cuts : List (List Token × Token)) (before : List Token) (t : Token) : Prop :=
  ∃ done piece more, cuts = done ++ (piece, t) :: more ∧ before = rejoin done ++ piece

/-- The pieces with the separators after them, and the last piece, make up the run, which starts at bracket
depth `depth`; and the tokens of the run between the pieces are the separators at depth zero, all of them. -/
structure CutsFrom (separator : Text) (depth : Int) (run : List Token) (cuts : List (List Token × Token))
    (last : List Token) : Prop where
  rejoined : rejoin cuts ++ last = run
  removed_iff : ∀ before t after, run = before ++ t :: after →
    (RemovedAt cuts before t ↔ t.isPunct [separator] = true ∧ depth + bracketDepth before = 0)

@[simp] theorem rejoin_cons (piece : List Token) (t : Token) (cuts : List (List Token × Token)) :
    rejoin ((piece, t) :: cuts) = piece ++ t :: rejoin cuts := by
  simp [rejoin]

theorem bracketDepth_cons (depth : Int) (t : Token) (run : List Token) :
    depth + bracketDepth (t :: run) = depthAfter depth t + bracketDepth run := by
  unfold bracketDepth
  rw [List.countP_cons, List.countP_cons]
  cases ho : t.isOpener with
  | true =>
    rw [Token.not_isCloser_of_isOpener ho, depthAfter_opener ho]
    simp
    omega
  | false =>
    cases hc : t.isCloser with
    | true =>
      rw [depthAfter_of_isCloser hc]
      simp
      omega
    | false =>
      rw [depthAfter_other ho hc]
      simp

theorem not_removedAt_nil (before : List Token) (t : Token) : ¬RemovedAt [] before t := by
  rintro ⟨done, piece, more, h, -⟩
  exact absurd h (by simp)

theorem removedAt_cons_iff {piece before : List Token} {s t : Token} {cuts : List (List Token × Token)} :
    RemovedAt ((piece, s) :: cuts) before t ↔
      (before = piece ∧ t = s) ∨ ∃ behind, before = piece ++ s :: behind ∧ RemovedAt cuts behind t := by
  constructor
  · rintro ⟨done, piece', more, hcuts, rfl⟩
    cases done with
    | nil =>
      obtain ⟨hcut, -⟩ := List.cons.inj hcuts
      obtain ⟨rfl, rfl⟩ := Prod.mk.inj hcut
      exact .inl ⟨rfl, rfl⟩
    | cons first done =>
      obtain ⟨rfl, rfl⟩ := List.cons.inj hcuts
      exact .inr ⟨rejoin done ++ piece', by simp, done, piece', more, rfl, rfl⟩
  · rintro (⟨rfl, rfl⟩ | ⟨behind, rfl, done, piece', more, rfl, rfl⟩)
    · exact ⟨[], before, cuts, rfl, rfl⟩
    · exact ⟨(piece, s) :: done, piece', more, rfl, by simp⟩

section Cuts

variable {separator : Text} (hseparator : separator ∉ bracketMarks)

include hseparator

theorem depthAfter_separator {t : Token} (ht : t.isPunct [separator] = true) (depth : Int) :
    depthAfter depth t = depth := by
  obtain ⟨ho, hc⟩ := Token.not_bracket_of_isPunct ht fun v hv => List.mem_singleton.1 hv ▸ hseparator
  exact depthAfter_other ho hc depth

theorem CutsFrom.cons_separator {t : Token} {run last : List Token} {cuts : List (List Token × Token)}
    (ht : t.isPunct [separator] = true) (h : CutsFrom separator 0 run cuts last) :
    CutsFrom separator 0 (t :: run) (([], t) :: cuts) last where
  rejoined := by rw [rejoin_cons, List.nil_append, List.cons_append, h.rejoined]
  removed_iff before u after hrun := by
    rw [removedAt_cons_iff]
    cases before with
    | nil =>
      obtain ⟨rfl, -⟩ := List.cons.inj hrun
      simp [ht, bracketDepth]
    | cons b before =>
      obtain ⟨rfl, hrest⟩ := List.cons.inj hrun
      rw [bracketDepth_cons, depthAfter_separator hseparator ht, ← h.removed_iff before u after hrest]
      simp

theorem CutsFrom.cons_token {t : Token} {depth : Int} {run last : List Token}
    {cuts : List (List Token × Token)} (ht : ¬(depthAfter depth t = 0 ∧ t.isPunct [separator] = true))
    (h : CutsFrom separator (depthAfter depth t) run cuts last) :
    ∃ cuts' last', cuts'.map Prod.fst ++ [last'] = (cuts.map Prod.fst ++ [last]).modifyHead (t :: ·) ∧
      CutsFrom separator depth (t :: run) cuts' last' := by
  have hfirst : ¬(t.isPunct [separator] = true ∧ depth + bracketDepth [] = 0) := by
    rintro ⟨hpunct, hzero⟩
    exact ht ⟨by rw [depthAfter_separator hseparator hpunct]; simpa [bracketDepth] using hzero, hpunct⟩
  cases cuts with
  | nil =>
    refine ⟨[], t :: last, rfl, by rw [← h.rejoined]; rfl, fun before u after hrun => ?_⟩
    cases before with
    | nil =>
      obtain ⟨rfl, -⟩ := List.cons.inj hrun
      exact iff_of_false (not_removedAt_nil _ _) hfirst
    | cons b before =>
      obtain ⟨rfl, hrest⟩ := List.cons.inj hrun
      rw [bracketDepth_cons, ← h.removed_iff before u after hrest]
      exact iff_of_false (not_removedAt_nil _ _) (not_removedAt_nil _ _)
  | cons first cuts =>
    obtain ⟨piece, s⟩ := first
    refine ⟨(t :: piece, s) :: cuts, last, rfl, ?_, fun before u after hrun => ?_⟩
    · rw [← h.rejoined]
      simp
    · cases before with
      | nil =>
        obtain ⟨rfl, -⟩ := List.cons.inj hrun
        refine iff_of_false ?_ hfirst
        rw [removedAt_cons_iff]
        simp
      | cons b before =>
        obtain ⟨rfl, hrest⟩ := List.cons.inj hrun
        rw [bracketDepth_cons, ← h.removed_iff before u after hrest, removedAt_cons_iff, removedAt_cons_iff]
        simp

/-- The pieces of a run are what stands between its separators at depth zero. -/
theorem exists_cuts (depth : Int) (run : List Token) :
    ∃ cuts last, pieces separator depth run = cuts.map Prod.fst ++ [last] ∧
      CutsFrom separator depth run cuts last := by
  induction run generalizing depth with
  | nil => exact ⟨[], [], rfl, rfl, fun before t after h => absurd h (by simp)⟩
  | cons t rest ih =>
    obtain ⟨cuts, last, hpieces, hcuts⟩ := ih (depthAfter depth t)
    by_cases ht : depthAfter depth t = 0 ∧ t.isPunct [separator] = true
    · obtain ⟨hzero, hpunct⟩ := ht
      have hdepth : depth = 0 := by rw [← depthAfter_separator hseparator hpunct depth, hzero]
      rw [hzero] at hcuts
      rw [hdepth]
      refine ⟨([], t) :: cuts, last, ?_, hcuts.cons_separator hseparator hpunct⟩
      rw [hdepth] at hzero hpieces
      rw [pieces, if_pos ⟨hzero, hpunct⟩, hpieces]
      rfl
    · obtain ⟨cuts', last', hhead, hcuts'⟩ := hcuts.cons_token hseparator ht
      exact ⟨cuts', last', by rw [pieces_cons ht, hpieces, hhead], hcuts'⟩

/-- Splitting a run cuts it at its separators at depth zero; a run without tokens has no piece. -/
theorem splitTopLevel_cuts (run : List Token) :
    (run = [] ∧ splitTopLevel separator run = []) ∨
      ∃ cuts last, splitTopLevel separator run = cuts.map Prod.fst ++ [last] ∧
        CutsFrom separator 0 run cuts last := by
  cases run with
  | nil => exact .inl ⟨rfl, rfl⟩
  | cons t rest => exact .inr (exists_cuts hseparator 0 (t :: rest))

namespace Paired

variable {fits : Token → Token → Prop} {run : List Token}

/-- The pieces of a balanced run are balanced. -/
theorem mem_pieces (h : Paired fits run) : ∀ piece ∈ pieces separator 0 run, Paired fits piece := by
  induction h with
  | nil => simpa [pieces] using Paired.nil
  | plain t rest hopener hcloser _ ih =>
    have hdepth := depthAfter_other hopener hcloser 0
    by_cases ht : depthAfter 0 t = 0 ∧ t.isPunct [separator] = true
    · rw [pieces, if_pos ht, hdepth]
      exact List.forall_mem_cons.2 ⟨.nil, ih⟩
    · rw [pieces_cons ht, hdepth]
      exact forall_mem_modifyHead (fun first hfirst => .plain t first hopener hcloser hfirst) ih
  | bracketed o inner c rest ho hc hfits hinner _ _ ih =>
    have hopen : ¬(depthAfter 0 o = 0 ∧ o.isPunct [separator] = true) := by
      rw [depthAfter_opener ho]
      omega
    have hback := depthAfter_succ_of_isCloser hc 0
    have hclose : ¬(depthAfter (0 + 1) c = 0 ∧ c.isPunct [separator] = true) := by
      rintro ⟨-, hpunct⟩
      rw [depthAfter_separator hseparator hpunct] at hback
      exact absurd hback (by decide)
    rw [pieces_cons hopen, depthAfter_opener ho, hinner.pieces_append (by omega), pieces_cons hclose,
      hback, List.modifyHead_modifyHead, List.modifyHead_modifyHead]
    -- the brackets and what is between them go in front of the first piece of the rest
    exact forall_mem_modifyHead (fun first hfirst => .bracketed o inner c first ho hc hfits hinner hfirst) ih

theorem mem_splitTopLevel (h : Paired fits run) :
    ∀ piece ∈ splitTopLevel separator run, Paired fits piece := by
  unfold splitTopLevel
  split
  · simp
  · exact h.mem_pieces hseparator

end Paired

end Cuts

/-! ### Arguments -/

namespace Argument

/-- The mark stands between a string and the value it is the key of: an arrow, or a colon right behind. -/
def IsKeyMark (mark : Token) : Prop :=
  mark.isPunct ["=>"] = true ∨ (mark.isPunct [":"] = true ∧ mark.spaceBefore = false)

/-- The token and the mark behind it make a key: a symbol before an arrow, or a string without code. -/
inductive IsMarkedKey (token mark : Token) (key : Text) : Prop
  | symbol (hkey : token.content = .name .symbol key) (hmark : mark.isPunct ["=>"] = true)
  | string (flavor : Flavor) (parts : List StringPart) (hkey : token.content = .string flavor parts)
      (hflavor : flavor ≠ .heredoc) (hplain : StringPart.plain? parts = some key) (hmark : IsKeyMark mark)

/-- The tokens an argument is read from: those of a value with no key before it, or with a label before
them, or with a key and a mark. -/
inductive Spells : Argument → List Token → Prop
  | positional (tokens : List Token) (hkey : key? tokens = none) : Spells (.positional tokens) tokens
  | label (token : Token) (key : Text) (tokens : List Token) (hkey : token.content = .name .label key) :
      Spells (.keyword key token tokens) (token :: tokens)
  | marked (token mark : Token) (key : Text) (tokens : List Token) (hkey : IsMarkedKey token mark key) :
      Spells (.keyword key token tokens) (token :: mark :: tokens)

/-- A key takes its token, and the mark behind it unless it is a label. -/
theorem spells_of_key? {piece : List Token} {key : Text} {token : Token} {n : Nat}
    (h : key? piece = some (key, token, n)) : (keyword key token (piece.drop n)).Spells piece := by
  cases piece with
  | nil => exact absurd h (by simp [key?])
  | cons first rest =>
    unfold key? at h
    dsimp only at h
    split at h
    · rename_i hcontent
      simp only [Option.some.injEq, Prod.mk.injEq] at h
      obtain ⟨rfl, rfl, rfl⟩ := h
      exact .label _ _ _ hcontent
    · rename_i value hcontent
      obtain ⟨harrow, hsome⟩ := Option.ite_none_right_eq_some.1 h
      simp only [Option.some.injEq, Prod.mk.injEq] at hsome
      obtain ⟨rfl, rfl, rfl⟩ := hsome
      cases rest with
      | nil => exact absurd harrow (by simp)
      | cons mark tokens =>
        exact .marked first mark _ tokens (.symbol hcontent (by simpa using harrow))
    · rename_i flavor parts hcontent
      obtain ⟨hflavor, h⟩ := Option.ite_none_left_eq_some.1 h
      obtain ⟨hmark, h⟩ := Option.ite_none_right_eq_some.1 h
      obtain ⟨value, hplain, hsome⟩ := Option.map_eq_some_iff.1 h
      simp only [Prod.mk.injEq] at hsome
      obtain ⟨rfl, rfl, rfl⟩ := hsome
      cases rest with
      | nil => exact absurd hmark (by simp)
      | cons mark tokens =>
        have hmark' : IsKeyMark mark := by simpa [IsKeyMark] using hmark
        exact .marked first mark _ tokens (.string flavor parts hcontent hflavor hplain hmark')
    · exact absurd h (by simp)

theorem spells_ofPiece (piece : List Token) : (ofPiece piece).Spells piece := by
  unfold ofPiece
  split
  · exact spells_of_key? ‹_›
  · exact .positional piece ‹_›

/-- The arguments are those of the pieces of a run between its commas at depth zero; the pieces without tokens
have none. -/
def SpellAll (args : List Argument) (run : List Token) : Prop :=
  ∃ cuts last, CutsFrom "," 0 run cuts last ∧
    List.Forall₂ Spells args ((cuts.map Prod.fst ++ [last]).filter (!·.isEmpty))

theorem SpellAll.ofRun (run : List Token) : SpellAll (ofRun run) run := by
  have hspells : ∀ pieces : List (List Token), List.Forall₂ Spells (pieces.map ofPiece) pieces := by
    intro pieces
    rw [List.forall₂_map_left_iff, List.forall₂_same]
    exact fun piece _ => spells_ofPiece piece
  unfold Argument.ofRun
  have hcomma : ("," : Text) ∉ bracketMarks := by decide
  rcases splitTopLevel_cuts hcomma run with ⟨rfl, hnone⟩ | ⟨cuts, last, hpieces, hcuts⟩
  · exact ⟨[], [], ⟨rfl, fun before t after h => absurd h (by simp)⟩, by simp [hnone]⟩
  · exact ⟨cuts, last, hcuts, hpieces ▸ hspells _⟩

end Argument

/-! ### Calls -/

theorem exists_of_closing?_eq_some {depth : Int} {run : List Token} {n : Nat}
    (h : closing? depth run = some n) :
    ∃ c, c.isCloser = true ∧ run = run.take n ++ c :: run.drop (n + 1) := by
  induction run generalizing depth n with
  | nil => exact absurd h (by simp [closing?])
  | cons t rest ih =>
    rw [closing?] at h
    split at h
    · obtain rfl := Option.some.inj h
      exact ⟨t, (‹_ ∧ _› : t.isCloser = true ∧ _).1, rfl⟩
    · obtain ⟨m, hm, rfl⟩ := Option.map_eq_some_iff.1 h
      obtain ⟨c, hc, hrest⟩ := ih hm
      exact ⟨c, hc, by rw [List.take_succ_cons, List.cons_append, List.drop_succ_cons, ← hrest]⟩

namespace Call

/-- The token is a parenthesis right after the name of a call. -/
def IsOpening (o : Token) : Prop := o.isPunct ["("] = true ∧ o.spaceBefore = false

/-- The tokens a call is read from: its name and its arguments, without parentheses; or with an opening
one, the bracket that closes it and what stands behind that; or with an opening one that is never closed. -/
inductive Spells : Call → List Token → Prop
  | bare (name : Token) (args : List Argument) (inside : List Token)
      (hopen : ∀ o ∈ inside.head?, ¬IsOpening o) (hargs : Argument.SpellAll args inside) :
      Spells ⟨name, args, []⟩ (name :: inside)
  | enclosed (name o : Token) (args : List Argument) (inside : List Token) (c : Token) (trailing : List Token)
      (ho : IsOpening o) (hc : c.isCloser = true)
      (hclosing : closingIndex? (name :: o :: (inside ++ c :: trailing)) 1 = some (inside.length + 2))
      (hargs : Argument.SpellAll args inside) :
      Spells ⟨name, args, trailing⟩ (name :: o :: (inside ++ c :: trailing))
  | unclosed (name o : Token) (args : List Argument) (inside : List Token) (ho : IsOpening o)
      (hclosing : closingIndex? (name :: o :: inside) 1 = none) (hargs : Argument.SpellAll args inside) :
      Spells ⟨name, args, []⟩ (name :: o :: inside)

theorem IsOpening.isOpener {o : Token} (h : IsOpening o) : o.isOpener = true := by
  obtain ⟨mark, hmark, hcontent⟩ := Token.isOneOf_iff.1 h.1
  exact Token.isOneOf_iff.2 ⟨mark, by simp_all, hcontent⟩

/-- Every run with a token is read as a call, of all its tokens. -/
theorem exists_spells {run : List Token} (h : run ≠ []) :
    ∃ call, ofRun? run = some call ∧ call.Spells run := by
  obtain ⟨name, rest, rfl⟩ := List.exists_cons_of_ne_nil h
  rw [ofRun?]
  split
  · rename_i hopening
    cases rest with
    | nil => exact absurd hopening (by simp)
    | cons o tail =>
      have ho : IsOpening o := by simpa [IsOpening] using hopening
      have hindex : closingIndex? (name :: o :: tail) 1 = (closing? 0 (o :: tail)).map (· + 1) := rfl
      cases hclosing : closing? 0 (o :: tail) with
      | none => exact ⟨_, rfl, .unclosed name o _ tail ho (by rw [hindex, hclosing]; rfl) (.ofRun tail)⟩
      | some n =>
        obtain ⟨c, hc, htail⟩ := exists_of_closing?_eq_some hclosing
        cases n with
        | zero =>
          -- the opening parenthesis itself closes nothing
          exact absurd (List.cons.inj htail).1 (Token.ne_of_isOpener_of_isCloser ho.isOpener hc)
        | succ m =>
          have hsplit : tail.take m ++ c :: tail.drop (m + 1) = tail := (List.cons.inj htail).2.symm
          have hm : m < tail.length := Nat.lt_of_succ_lt_succ (closing?_lt hclosing)
          have hlength : (tail.take m).length = m := by rw [List.length_take]; omega
          have hspells : Spells ⟨name, Argument.ofRun (tail.take m), tail.drop (m + 1)⟩
              (name :: o :: (tail.take m ++ c :: tail.drop (m + 1))) := by
            refine .enclosed name o _ _ c _ ho hc ?_ (.ofRun _)
            rw [hsplit, hindex, hclosing, hlength]
            rfl
          rw [hsplit] at hspells
          exact ⟨_, rfl, hspells⟩
  · rename_i hopening
    refine ⟨_, rfl, .bare name _ rest (fun o ho => ?_) (.ofRun rest)⟩
    rw [Option.mem_def] at ho
    simpa [ho, IsOpening] using hopening

end Call

/-! ### The result -/

/-- The tokens that an argument keeps: those of its value, and the token of its key. -/
def Argument.kept : Argument → List Token
  | positional tokens => tokens
  | keyword _ token tokens => token :: tokens

/-- The arrow behind a key is a token of the call, and it is not the name, not kept by an argument, not
behind the call, no comma and no parenthesis. -/
theorem arrow_in_no_part :
    let run := (lex "f :a => 1" 0).tokens
    ∃ call, Call.ofRun? run = some call ∧
      ∀ separators parentheses : List Token, (∀ t ∈ separators, t.isPunct [","] = true) →
        (∀ t ∈ parentheses, t.isPunct ["(", ")"] = true) →
          ¬run.Perm ([call.name] ++ call.args.flatMap Argument.kept ++ call.trailing ++ separators ++
            parentheses) := by
  intro run
  let arrow : Token := ⟨.name .punct "=>", 5, 7, "=>", true⟩
  have hrun : (Call.ofRun? run).isSome = true ∧ arrow ∈ run ∧ ∀ call ∈ Call.ofRun? run,
      arrow ∉ [call.name] ++ call.args.flatMap Argument.kept ++ call.trailing := by decide +kernel
  obtain ⟨hsome, harrow, hnot⟩ := hrun
  obtain ⟨call, hcall⟩ := Option.isSome_iff_exists.1 hsome
  refine ⟨call, hcall, fun separators parentheses hcomma hparen hperm => ?_⟩
  rcases List.mem_append.1 (hperm.subset harrow) with hkept | hmem
  · rcases List.mem_append.1 hkept with hkept | hmem
    · exact hnot call hcall hkept
    · exact absurd (hcomma arrow hmem) (by decide)
  · exact absurd (hparen arrow hmem) (by decide)

/-- Splitting takes away the separators at bracket depth zero and nothing else, balanced runs have balanced
pieces, and the bracket found for an opener in them ends the shortest balanced run from there on. So a run
with a token is read as a call whose name, arguments, commas and marks, parentheses and tokens behind are
the run. -/
theorem splitting_and_matching_keep_tokens (run : List Token) :
    (∀ separator, separator ∉ bracketMarks →
      ((run = [] ∧ splitTopLevel separator run = []) ∨
        ∃ cuts last, splitTopLevel separator run = cuts.map Prod.fst ++ [last] ∧
          CutsFrom separator 0 run cuts last) ∧
      ∀ fits, Paired fits run → ∀ piece ∈ splitTopLevel separator run, Paired fits piece) ∧
    (∀ fits, Paired fits run → ∀ start o, run[start]? = some o → o.isOpener = true →
      ∃ k, closingIndex? run start = some k ∧
        IsLeast {k | start ≤ k ∧ Paired fits ((run.take (k + 1)).drop start)} k) ∧
    (run ≠ [] → ∃ call, Call.ofRun? run = some call ∧ call.Spells run) :=
  ⟨fun _ hseparator => ⟨splitTopLevel_cuts hseparator run,
      fun _ hpaired => hpaired.mem_splitTopLevel hseparator⟩,
    fun _ hpaired _ _ hstart ho => hpaired.isLeast_closingIndex? hstart ho, Call.exists_spells⟩

/-- A call with a list and a keyword, a method of its result, and another piece behind a comma. -/
theorem splitting_and_matching_keep_chained_call :
    let run := (lex "f([b, c], k: 1).d, 2" 0).tokens
    let fits : Token → Token → Prop := fun o c => o.closedBy c = true
    (Paired fits run ∧ run ≠ [] ∧ (run[1]?.any Token.isOpener) = true) ∧
      (∃ cuts last, splitTopLevel "," run = cuts.map Prod.fst ++ [last] ∧ CutsFrom "," 0 run cuts last) ∧
      (∀ piece ∈ splitTopLevel "," run, Paired fits piece) ∧
      IsLeast {k | 1 ≤ k ∧ Paired fits ((run.take (k + 1)).drop 1)} 10 ∧
      ∃ call, Call.ofRun? run = some call ∧ call.Spells run := by
  intro run fits
  have hrun : WellNested run ∧ run ≠ [] ∧ (run[1]?.any Token.isOpener) = true ∧
      closingIndex? run 1 = some 10 := by decide +kernel
  obtain ⟨hnested, hne, hopener, hten⟩ := hrun
  have hpaired : Paired fits run := wellNested_iff_paired.1 hnested
  obtain ⟨o, hstart, ho⟩ := (Option.any_eq_true _ _).1 hopener
  obtain ⟨hsplit, hclosing, hcall⟩ := splitting_and_matching_keep_tokens run
  obtain ⟨hcuts, hpieces⟩ := hsplit "," (by decide)
  obtain ⟨k, hk, hleast⟩ := hclosing fits hpaired 1 o hstart ho
  obtain rfl : k = 10 := Option.some.inj (hk.symm.trans hten)
  exact ⟨⟨hpaired, hne, hopener⟩, hcuts.resolve_left fun hnil => hne hnil.1, hpieces fits hpaired,
    hleast, hcall hne⟩

end Cookbook
