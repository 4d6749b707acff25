import Cookbook.Proofs.Token.Shift

/-!
Tokens without their place. What a token is does not depend on where it stands or on the blanks
before it, and no question asked of a token looks at more than what it is.

* `Token.placeless` is the token with its offsets and its blanks forgotten;
* `KeepsSpelling r` says that a map of tokens changes nothing else, as `Token.shift` does.
-/

namespace Cookbook

def StringPart.placeless : StringPart → StringPart
  | .text value => .text value
  | .code source _ => .code source 0

def TokenContent.placeless : TokenContent → TokenContent
  | .name kind value => .name kind value
  | .string flavor parts => .string flavor (parts.map StringPart.placeless)
  | .words items symbols => .words items symbols
  | .regex => .regex
  | .newline => .newline

def Token.placeless (t : Token) : Token := ⟨t.content.placeless, 0, 0, t.text, false⟩

/-- A map of tokens that changes no more than where they stand. -/
def KeepsSpelling (r : Token → Token) : Prop := ∀ t, (r t).placeless = t.placeless

namespace Token

variable (t : Token)

@[simp] theorem text_placeless : t.placeless.text = t.text := rfl

@[simp] theorem valueOf?_placeless (kind : NameKind) :
    t.placeless.valueOf? kind = t.valueOf? kind := by
  unfold valueOf? placeless
  cases t.content <;> rfl

@[simp] theorem isOneOf_placeless (kind : NameKind) (values : List Text) :
    t.placeless.isOneOf kind values = t.isOneOf kind values := by
  unfold isOneOf placeless
  cases t.content <;> rfl

@[simp] theorem isNewline_placeless : t.placeless.isNewline = t.isNewline := by
  unfold isNewline placeless
  cases t.content <;> rfl

end Token

theorem keepsSpelling_placeless : KeepsSpelling Token.placeless := by
  have hpart : ∀ part : StringPart, part.placeless.placeless = part.placeless := by
    intro part
    cases part <;> rfl
  rintro ⟨content, start, stop, text, spaceBefore⟩
  cases content <;> simp [Token.placeless, TokenContent.placeless, hpart]

theorem keepsSpelling_shift (k : Nat) : KeepsSpelling (Token.shift k) := by
  have hpart : ∀ part : StringPart, (part.shift k).placeless = part.placeless := by
    intro part
    cases part <;> rfl
  rintro ⟨content, start, stop, text, spaceBefore⟩
  cases content <;> simp [Token.placeless, Token.shift, TokenContent.placeless, TokenContent.shift, hpart]

namespace Token

variable {t t' : Token} (h : t'.placeless = t.placeless)

include h

theorem text_eq_of_placeless : t'.text = t.text := by
  rw [← t'.text_placeless, h, t.text_placeless]

theorem isOneOf_eq_of_placeless (kind : NameKind) (values : List Text) :
    t'.isOneOf kind values = t.isOneOf kind values := by
  rw [← t'.isOneOf_placeless, h, t.isOneOf_placeless]

theorem isPunct_eq_of_placeless (values : List Text) : t'.isPunct values = t.isPunct values :=
  isOneOf_eq_of_placeless h _ _

theorem isKeyword_eq_of_placeless (words : List Text) : t'.isKeyword words = t.isKeyword words :=
  isOneOf_eq_of_placeless h _ _

theorem isNewline_eq_of_placeless : t'.isNewline = t.isNewline := by
  rw [← t'.isNewline_placeless, h, t.isNewline_placeless]

theorem isOpener_eq_of_placeless : t'.isOpener = t.isOpener := isPunct_eq_of_placeless h _

theorem isCloser_eq_of_placeless : t'.isCloser = t.isCloser := isPunct_eq_of_placeless h _

theorem isSeparator_eq_of_placeless : t'.isSeparator = t.isSeparator := by
  unfold isSeparator
  rw [isNewline_eq_of_placeless h, isPunct_eq_of_placeless h]

end Token

end Cookbook
