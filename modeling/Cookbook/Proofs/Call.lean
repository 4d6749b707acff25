import Cookbook.Call
import Cookbook.Proofs.Token.Shift
import Mathlib.Data.List.TakeWhile
import Mathlib.Tactic.Common

/-!
Splitting runs into pieces and arguments. The pieces of a run are made of its own tokens, and
splitting looks at no offset, so that the pieces of moved tokens are the moved pieces.

* `sublist_of_mem_pieces`, `Argument.sublist_of_mem_ofRun` and
  `Argument.length_lt_of_keyword?_mem_ofRun` bound what is read inside a run;
* `splitTopLevel_shift`, `Argument.ofRun_shift` and `Call.ofRun?_shift` move it.
-/

namespace Cookbook

/-! ### Brackets -/

@[simp] theorem depthAfter_shift (k : Nat) (depth : Int) (t : Token) :
    depthAfter depth (t.shift k) = depthAfter depth t := by
  simp [depthAfter]

theorem depthAfter_opener {t : Token} (h : t.isOpener = true) (depth : Int) :
    depthAfter depth t = depth + 1 := by
  simp [depthAfter, h]

theorem depthAfter_closer {t : Token} (h : t.isOpener = false) (h' : t.isCloser = true) (depth : Int) :
    depthAfter depth t = depth - 1 := by
  simp [depthAfter, h, h']

theorem depthAfter_other {t : Token} (h : t.isOpener = false) (h' : t.isCloser = false) (depth : Int) :
    depthAfter depth t = depth := by
  simp [depthAfter, h, h']

theorem closing?_shift (k : Nat) (depth : Int) (run : List Token) :
    closing? depth (run.map (Token.shift k)) = closing? depth run := by
  induction run generalizing depth with
  | nil => rfl
  | cons t rest ih => simp [closing?, ih]

theorem closing?_lt {depth : Int} {run : List Token} {n : Nat} (h : closing? depth run = some n) :
    n < run.length := by
  induction run generalizing depth n with
  | nil => exact absurd h (by simp [closing?])
  | cons t rest ih =>
    rw [closing?] at h
    split at h
    · obtain rfl := Option.some.inj h
      simp
    · obtain ⟨m, hm, rfl⟩ := Option.map_eq_some_iff.1 h
      exact Nat.succ_lt_succ (ih hm)

theorem pieces_ne_nil (separator : Text) (depth : Int) (run : List Token) :
    pieces separator depth run ≠ [] := by
  cases run with
  | nil => exact List.cons_ne_nil _ _
  | cons t rest =>
    rw [pieces]
    split
    · exact List.cons_ne_nil _ _
    · split <;> exact List.cons_ne_nil _ _

/-- A token that does not separate stays with the piece after it. -/
theorem pieces_cons {separator : Text} {depth : Int} {t : Token}
    (h : ¬(depthAfter depth t = 0 ∧ t.isPunct [separator] = true)) (rest : List Token) :
    pieces separator depth (t :: rest) =
      (pieces separator (depthAfter depth t) rest).modifyHead (t :: ·) := by
  have hne := pieces_ne_nil separator (depthAfter depth t) rest
  rw [pieces, if_neg h]
  cases hpieces : pieces separator (depthAfter depth t) rest with
  | nil => exact absurd hpieces hne
  | cons piece more => rfl

theorem pieces_shift (k : Nat) (separator : Text) (depth : Int) (run : List Token) :
    pieces separator depth (run.map (Token.shift k)) =
      (pieces separator depth run).map (List.map (Token.shift k)) := by
  induction run generalizing depth with
  | nil => rfl
  | cons t rest ih =>
    simp only [List.map_cons, pieces, depthAfter_shift, Token.isPunct_shift, ih]
    split
    · rfl
    · cases pieces separator (depthAfter depth t) rest <;> rfl

theorem splitTopLevel_shift (k : Nat) (separator : Text) (run : List Token) :
    splitTopLevel separator (run.map (Token.shift k)) =
      (splitTopLevel separator run).map (List.map (Token.shift k)) := by
  unfold splitTopLevel
  rw [List.isEmpty_map]
  split
  · rfl
  · exact pieces_shift k separator 0 run

theorem nonemptyPieces_shift (k : Nat) (run : List Token) :
    ((splitTopLevel "," (run.map (Token.shift k))).filter (!·.isEmpty)) =
      ((splitTopLevel "," run).filter (!·.isEmpty)).map (List.map (Token.shift k)) := by
  have hempty : (fun piece : List Token => !piece.isEmpty) ∘ List.map (Token.shift k) =
      fun piece => !piece.isEmpty := by
    funext piece
    simp
  rw [splitTopLevel_shift, List.filter_map, hempty]

/-- A piece is made of tokens of the run, in their order. -/
theorem sublist_of_mem_pieces {separator : Text} {depth : Int} {run piece : List Token}
    (h : piece ∈ pieces separator depth run) : List.Sublist piece run := by
  induction run generalizing depth piece with
  | nil =>
    obtain rfl : piece = [] := by simpa [pieces] using h
    exact List.Sublist.refl _
  | cons t rest ih =>
    rw [pieces] at h
    split at h
    · rcases List.mem_cons.1 h with rfl | h
      · exact List.nil_sublist _
      · exact (ih h).cons t
    · split at h
      · rename_i hnil
        exact absurd hnil (pieces_ne_nil _ _ _)
      · rename_i first more hpieces
        rcases List.mem_cons.1 h with rfl | h
        · exact (ih (hpieces ▸ List.mem_cons_self)).cons_cons t
        · exact (ih (hpieces ▸ List.mem_cons_of_mem _ h)).cons t

theorem sublist_of_mem_splitTopLevel {separator : Text} {run piece : List Token}
    (h : piece ∈ splitTopLevel separator run) : List.Sublist piece run := by
  unfold splitTopLevel at h
  split at h
  · exact absurd h List.not_mem_nil
  · exact sublist_of_mem_pieces h

/-! ### Arguments -/

namespace Argument

def shift (k : Nat) : Argument → Argument
  | positional tokens => positional (tokens.map (Token.shift k))
  | keyword key token tokens => keyword key (token.shift k) (tokens.map (Token.shift k))

variable (k : Nat)

theorem key?_shift (piece : List Token) :
    key? (piece.map (Token.shift k)) =
      (key? piece).map fun (key, token, n) => (key, token.shift k, n) := by
  cases piece with
  | nil => rfl
  | cons first rest =>
    simp only [List.map_cons, key?, List.head?_map, Option.any_map,
      Token.isPunct_shift, Token.spaceBefore_shift]
    generalize rest.head?.any (fun t => t.isPunct ["=>"]) = arrow
    generalize rest.head?.any (fun t => t.isPunct [":"] && !t.spaceBefore) = colon
    obtain ⟨content, start, stop, text, spaceBefore⟩ := first
    cases content with
    | name kind value => cases kind <;> simp [Token.shift, TokenContent.shift]
    | string flavor parts =>
      simp only [Token.shift, TokenContent.shift, StringPart.plain?_shift]
      split
      · rfl
      · split
        · cases StringPart.plain? parts <;> rfl
        · rfl
    | words items symbols => rfl
    | regex => rfl
    | newline => rfl

theorem ofPiece_shift (piece : List Token) :
    ofPiece (piece.map (Token.shift k)) = (ofPiece piece).shift k := by
  unfold ofPiece
  rw [key?_shift]
  cases key? piece with
  | none => rfl
  | some found => simp [shift]

theorem ofRun_shift (run : List Token) :
    ofRun (run.map (Token.shift k)) = (ofRun run).map (shift k) := by
  unfold ofRun
  rw [nonemptyPieces_shift, List.map_map, List.map_map]
  exact List.map_congr_left fun piece _ => ofPiece_shift k piece

theorem positional?_shift (arg : Argument) :
    (arg.shift k).positional? = arg.positional?.map (List.map (Token.shift k)) := by
  cases arg <;> rfl

theorem keyword?_shift (arg : Argument) :
    (arg.shift k).keyword? = arg.keyword?.map fun (key, tokens) => (key, tokens.map (Token.shift k)) := by
  cases arg <;> rfl

theorem filterMap_positional?_shift (args : List Argument) :
    (args.map (shift k)).filterMap positional? =
      (args.filterMap positional?).map (List.map (Token.shift k)) := by
  have hshift : positional? ∘ shift k = fun arg => arg.positional?.map (List.map (Token.shift k)) :=
    funext (positional?_shift k)
  rw [List.filterMap_map, List.map_filterMap, hshift]

theorem mapM_keyword?_shift (args : List Argument) :
    (args.map (shift k)).mapM keyword? =
      (args.mapM keyword?).map (List.map fun (key, tokens) => (key, tokens.map (Token.shift k))) := by
  induction args with
  | nil => rfl
  | cons arg rest ih =>
    simp only [List.map_cons, List.mapM_cons, keyword?_shift, ih]
    cases arg.keyword? with
    | none => rfl
    | some pair => cases rest.mapM keyword? <;> rfl

theorem key?_pos {piece : List Token} {key : Text} {token : Token} {n : Nat}
    (h : key? piece = some (key, token, n)) : 0 < n ∧ 0 < piece.length := by
  cases piece with
  | nil => exact absurd h (by simp [key?])
  | cons first rest =>
    refine ⟨?_, by simp⟩
    unfold key? at h
    dsimp only at h
    split at h
    · simp only [Option.some.injEq, Prod.mk.injEq] at h
      omega
    · split at h
      · simp only [Option.some.injEq, Prod.mk.injEq] at h
        omega
      · exact absurd h (by simp)
    · split at h
      · exact absurd h (by simp)
      · split at h
        · obtain ⟨value, -, h⟩ := Option.map_eq_some_iff.1 h
          simp only [Prod.mk.injEq] at h
          omega
        · exact absurd h (by simp)
    · exact absurd h (by simp)

/-- The value of an argument is made of tokens of its piece. -/
theorem sublist_ofPiece (piece : List Token) : List.Sublist (ofPiece piece).tokens piece := by
  unfold ofPiece
  split
  · exact List.drop_sublist _ _
  · exact List.Sublist.refl _

theorem sublist_of_mem_ofRun {run : List Token} {arg : Argument} (h : arg ∈ ofRun run) :
    List.Sublist arg.tokens run := by
  obtain ⟨piece, hpiece, rfl⟩ := List.mem_map.1 h
  exact (sublist_ofPiece piece).trans (sublist_of_mem_splitTopLevel (List.mem_filter.1 hpiece).1)

theorem tokens_of_keyword? {arg : Argument} {key : Text} {tokens : List Token}
    (h : arg.keyword? = some (key, tokens)) : arg.tokens = tokens := by
  cases arg with
  | positional tokens => exact absurd h (by simp [keyword?])
  | keyword key token tokens =>
    simp only [keyword?, Option.some.injEq, Prod.mk.injEq] at h
    exact h.2

/-- The value of a keyword argument leaves out at least the key. -/
theorem length_lt_of_keyword?_mem_ofRun {run tokens : List Token} {arg : Argument} {key : Text}
    (h : arg ∈ ofRun run) (hkey : arg.keyword? = some (key, tokens)) :
    tokens.length < run.length := by
  obtain ⟨piece, hpiece, rfl⟩ := List.mem_map.1 h
  have hlen := (sublist_of_mem_splitTopLevel (List.mem_filter.1 hpiece).1).length_le
  unfold ofPiece at hkey
  split at hkey
  · rename_i key' token n hfound
    obtain ⟨hn, hpos⟩ := key?_pos hfound
    simp only [keyword?, Option.some.injEq, Prod.mk.injEq] at hkey
    rw [← hkey.2, List.length_drop]
    omega
  · exact absurd hkey (by simp [keyword?])

end Argument

/-! ### Calls -/

def Call.shift (k : Nat) (c : Call) : Call :=
  ⟨c.name.shift k, c.args.map (Argument.shift k), c.trailing.map (Token.shift k)⟩

theorem Call.ofRun?_shift (k : Nat) (run : List Token) :
    Call.ofRun? (run.map (Token.shift k)) = (Call.ofRun? run).map (Call.shift k) := by
  cases run with
  | nil => rfl
  | cons name rest =>
    simp only [List.map_cons, Call.ofRun?, List.head?_map, Option.any_map,
      Token.isPunct_shift, Token.spaceBefore_shift, closing?_shift]
    split
    · split
      · rw [← List.map_tail, Argument.ofRun_shift]
        rfl
      · rw [← List.map_take, ← List.map_drop, ← List.map_drop, Argument.ofRun_shift]
        rfl
    · rw [Argument.ofRun_shift]
      rfl

/-- The arguments of a call are made of tokens of its run. -/
theorem Call.sublist_of_mem_args {run : List Token} {call : Call} (h : Call.ofRun? run = some call)
    {arg : Argument} (harg : arg ∈ call.args) : List.Sublist arg.tokens run := by
  cases run with
  | nil => exact absurd h (by simp [Call.ofRun?])
  | cons name rest =>
    rw [Call.ofRun?] at h
    split at h
    · split at h
      · obtain rfl := Option.some.inj h
        exact (Argument.sublist_of_mem_ofRun harg).trans ((List.tail_sublist _).cons _)
      · obtain rfl := Option.some.inj h
        refine (Argument.sublist_of_mem_ofRun harg).trans (List.Sublist.cons _ ?_)
        exact (List.drop_sublist _ _).trans (List.take_sublist _ _)
    · obtain rfl := Option.some.inj h
      exact (Argument.sublist_of_mem_ofRun harg).cons _

end Cookbook
