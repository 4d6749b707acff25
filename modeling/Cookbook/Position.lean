import Cookbook.Text.Basic

/-!
Places in a source text. Offsets count code units from zero, lines and columns count from one, and
only a newline ends a line.
-/

namespace Cookbook

/-- A place in a text, by line and column and by offset. -/
structure Position where
  line : Nat
  column : Nat
  offset : Nat
deriving DecidableEq, Repr

namespace Position

/-- The start of every text. -/
def origin : Position := ⟨1, 1, 0⟩

end Position

/-- A stretch of a text, from its first place to the place after its last. -/
structure Span where
  start : Position
  stop : Position
deriving DecidableEq, Repr

namespace Span

/-- The empty stretch at the start of a text. -/
def origin : Span := ⟨.origin, .origin⟩

/-- The least stretch that covers two; at equal offsets the places of the first are kept. -/
def join (a b : Span) : Span where
  start := if a.start.offset ≤ b.start.offset then a.start else b.start
  stop := if b.stop.offset ≤ a.stop.offset then a.stop else b.stop

/-- Whether one stretch lies in another, by offsets. -/
def within (inner outer : Span) : Bool :=
  outer.start.offset ≤ inner.start.offset && inner.stop.offset ≤ outer.stop.offset

end Span

/-- The offsets at which the lines of a text start, when the text itself starts at `offset`. -/
def lineStartsFrom (offset : Nat) : Text → List Nat
  | [] => []
  | c :: rest =>
    if c = '\n' then (offset + 1) :: lineStartsFrom (offset + 1) rest
    else lineStartsFrom (offset + 1) rest

/-- A text with the offsets of its line starts, in increasing order. -/
structure LineIndex where
  text : Text
  starts : List Nat

namespace LineIndex

/-- The line index of a text: the first line starts at zero, each other one after a newline. -/
def ofText (text : Text) : LineIndex := ⟨text, 0 :: lineStartsFrom 0 text⟩

/-- Halving: the last of the lines `lo` to `hi` that starts at or before an offset, or `lo` where none of
them does. Each round leaves fewer lines, so as many rounds as there are lines are enough. -/
def bisect (starts : List Nat) (offset : Int) : Nat → Nat → Nat → Nat
  | 0, lo, _ => lo
  | rounds + 1, lo, hi =>
    if lo < hi then
      let middle := (lo + hi + 1) / 2
      if (starts.getD middle 0 : Int) ≤ offset then bisect starts offset rounds middle hi
      else bisect starts offset rounds lo (middle - 1)
    else lo

/-- The number, from zero, of the line that holds an offset. -/
def lineOf (index : LineIndex) (offset : Int) : Nat :=
  bisect index.starts offset index.starts.length 0 (index.starts.length - 1)

/-- The place of an offset; offsets outside the text count as its nearer end. -/
def position (index : LineIndex) (offset : Int) : Position :=
  let clamped := (min offset index.text.length).toNat
  let line := index.lineOf clamped
  ⟨line + 1, clamped - index.starts.getD line 0 + 1, clamped⟩

def span (index : LineIndex) (start stop : Int) : Span :=
  ⟨index.position start, index.position stop⟩

/-- The empty stretch at an offset. -/
def spot (index : LineIndex) (offset : Int) : Span := index.span offset offset

/-- The column of the first unit other than a space or tab on the line of an offset. A line of
blanks alone ends in the column after them. -/
def indent (index : LineIndex) (offset : Int) : Nat :=
  let line := index.text.drop (index.starts.getD (index.lineOf offset) 0)
  (line.takeWhile fun (c : CodeUnit) => c == ' ' || c == '\t').length + 1

end LineIndex

end Cookbook
