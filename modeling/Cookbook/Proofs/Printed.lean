import Cookbook.Text.Basic
import Cookbook.Token.Basic

/-!
Texts that are printed in pieces, with a blank before some of them. Each piece has one token, so the
tokens of the text are laid out piece by piece.

* `PlacedPiece` is a piece with its blank, `printed` the text of some pieces and `layout` their tokens;
* `layout_append` says where the tokens of later pieces start.
-/

namespace Cookbook

/-- Pieces: how each is printed, and what the token of one at an offset is. -/
class IsPiece (P : Type) where
  text : P → Text
  content : (pos : Nat) → P → TokenContent

/-- A piece, with or without a blank before it. -/
structure PlacedPiece (P : Type) where
  spaced : Bool
  piece : P

variable {P : Type} [IsPiece P]

namespace PlacedPiece

def blank (spaced : Bool) : Text := if spaced then " " else []

@[simp] theorem blank_true : blank true = [(' ' : CodeUnit)] := rfl

@[simp] theorem blank_false : blank false = [] := rfl

def text (p : PlacedPiece P) : Text := blank p.spaced ++ IsPiece.text p.piece

/-- The token of a piece that is printed at offset `pos`. -/
def token (pos : Nat) (p : PlacedPiece P) : Token :=
  let start := pos + (blank p.spaced).length
  ⟨IsPiece.content start p.piece, start, start + (IsPiece.text p.piece).length, IsPiece.text p.piece,
    p.spaced⟩

end PlacedPiece

def printed (pieces : List (PlacedPiece P)) : Text := pieces.flatMap PlacedPiece.text

/-- The tokens of some pieces that are printed at offset `pos`. -/
def layout : (pos : Nat) → List (PlacedPiece P) → List Token
  | _, [] => []
  | pos, p :: rest => p.token pos :: layout (pos + p.text.length) rest

theorem printed_cons (p : PlacedPiece P) (rest : List (PlacedPiece P)) :
    printed (p :: rest) = p.text ++ printed rest :=
  List.flatMap_cons

theorem printed_append (pieces more : List (PlacedPiece P)) :
    printed (pieces ++ more) = printed pieces ++ printed more :=
  List.flatMap_append

theorem layout_append (pos : Nat) (pieces more : List (PlacedPiece P)) :
    layout pos (pieces ++ more) = layout pos pieces ++ layout (pos + (printed pieces).length) more := by
  induction pieces generalizing pos with
  | nil => rfl
  | cons p rest ih =>
    simp only [List.cons_append, layout, ih, printed_cons, List.length_append, Nat.add_assoc]

theorem length_layout (pos : Nat) (pieces : List (PlacedPiece P)) :
    (layout pos pieces).length = pieces.length := by
  induction pieces generalizing pos with
  | nil => rfl
  | cons p rest ih => simp [layout, ih]

theorem mem_layout {pos : Nat} {run : List (PlacedPiece P)} {t : Token} (h : t ∈ layout pos run) :
    ∃ p ∈ run, ∃ pos', t = p.token pos' := by
  induction run generalizing pos with
  | nil => exact absurd h List.not_mem_nil
  | cons p run ih =>
    rcases List.mem_cons.1 h with rfl | h
    · exact ⟨p, List.mem_cons_self, pos, rfl⟩
    · obtain ⟨q, hq, pos', rfl⟩ := ih h
      exact ⟨q, List.mem_cons_of_mem _ hq, pos', rfl⟩

end Cookbook
