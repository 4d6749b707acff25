/-!
Text as a list of UTF-16 code units. Offsets, lengths, slices and the order of names all count
code units, and a literal may be cut between the two halves of a surrogate pair, so the unit and
not the character is what a text is made of.
-/

namespace Cookbook

/-- One UTF-16 code unit. -/
abbrev CodeUnit := UInt16

/-- The code unit of a character below `U+10000`. -/
def CodeUnit.ofChar (c : Char) : CodeUnit := c.toNat.toUInt16

instance : Coe Char CodeUnit := ⟨CodeUnit.ofChar⟩

/-- A text: the list of its code units. -/
abbrev Text := List CodeUnit

namespace Text

/-- The code units of one character: itself, or a high and a low surrogate. -/
def ofChar (c : Char) : Text :=
  if c.toNat < 0x10000 then [c.toNat.toUInt16]
  else
    let above := c.toNat - 0x10000
    [(0xD800 + above / 0x400).toUInt16, (0xDC00 + above % 0x400).toUInt16]

def ofString (s : String) : Text := s.toList.flatMap ofChar

instance : Coe String Text := ⟨ofString⟩

def ofNat (n : Nat) : Text := (Nat.toDigits 10 n).map CodeUnit.ofChar

/-! ### Cutting and joining -/

/-- The units from position `i` up to, not including, position `j`; empty when `j ≤ i`. -/
def slice (t : Text) (i j : Nat) : Text := (t.drop i).take (j - i)

/-- The pieces of a text between the units that satisfy `p`; always at least one piece. -/
def split (p : CodeUnit → Bool) : Text → List Text
  | [] => [[]]
  | c :: rest =>
    if p c then [] :: split p rest
    else match split p rest with
      | [] => [[c]]
      | piece :: pieces => (c :: piece) :: pieces

/-- The pieces of a text between the units equal to `sep`. -/
def splitOn (t : Text) (sep : CodeUnit) : List Text := split (· == sep) t

/-- The lines of a text, each with the newline that ends it; the last may have none. -/
def lines : Text → List Text
  | [] => []
  | c :: rest =>
    if c = '\n' then [c] :: lines rest
    else match lines rest with
      | [] => [[c]]
      | line :: more => (c :: line) :: more

/-- The texts one after another with `sep` between neighbours. -/
def join (sep : Text) (pieces : List Text) : Text := sep.intercalate pieces

/-- The units before the first newline, or all of them. -/
def firstLine (t : Text) : Text := t.takeWhile (· != '\n')

/-- The text with every unit equal to `old` written as `new`. -/
def replaceUnit (t : Text) (old : CodeUnit) (new : Text) : Text :=
  t.flatMap fun c => if c = old then new else [c]

/-- The text without `tail` at its end, when it ends so. -/
def dropTail? (t tail : Text) : Option Text :=
  if tail.isSuffixOf t then some (t.take (t.length - tail.length)) else none

/-- The text in single quotes, as messages quote names and source. -/
def quoted (t : Text) : Text := "'" ++ t ++ "'"

/-! ### Order -/

/-- The order of texts: unit by unit, a text before its extensions. -/
def le : Text → Text → Bool
  | [], _ => true
  | _ :: _, [] => false
  | a :: s, b :: t => if a = b then le s t else a < b

/-! ### Small facts -/

@[simp] theorem length_slice_le (t : Text) (i j : Nat) : (t.slice i j).length ≤ j - i := by
  simp only [slice, List.length_take]; omega

theorem flatten_lines (t : Text) : (lines t).flatten = t := by
  induction t with
  | nil => rfl
  | cons c rest ih =>
    unfold lines
    split
    · simp [ih]
    · split <;> simp_all

theorem split_ne_nil (p : CodeUnit → Bool) (t : Text) : split p t ≠ [] := by
  cases t with
  | nil => simp [split]
  | cons c rest =>
    unfold split
    split
    · simp
    · split <;> simp

end Text

end Cookbook
