import Cookbook.Number.Shortest
import Cookbook.Proofs.Number.Integers

/-!
The parts of the text of a number: digits, perhaps a point with digits behind it, perhaps an exponent with
its sign, and a minus sign in front of a negative one.
-/

namespace Cookbook

namespace Number

/-- Digits, or digits on both sides of a point. -/
def IsMantissa (t : Text) : Prop :=
  Text.isDigits t = true ∨
    ∃ whole fraction : Text, whole.isDigits = true ∧ fraction.isDigits = true ∧ t = whole ++ "." ++ fraction

/-- Nothing, or a mark with a sign and digits behind it. -/
def IsExponent (t : Text) : Prop :=
  t = [] ∨ ∃ sign digits : Text, (sign = "+" ∨ sign = "-") ∧ digits.isDigits = true ∧
    t = "e" ++ (sign ++ digits)

/-- A mantissa with an exponent or without one. -/
def IsDecimal (t : Text) : Prop :=
  ∃ mantissa exponent : Text, IsMantissa mantissa ∧ IsExponent exponent ∧ t = mantissa ++ exponent

theorem IsMantissa.isDecimal {t : Text} (h : IsMantissa t) : IsDecimal t :=
  ⟨t, [], h, .inl rfl, (List.append_nil t).symm⟩

theorem isDigits_iff {t : Text} : t.isDigits = true ↔ t ≠ [] ∧ ∀ c ∈ t, CodeUnit.isDigit c = true := by
  simp [Text.isDigits]

theorem isDigits_ofNat (n : Nat) : (Text.ofNat n).isDigits = true :=
  isDigits_iff.2 ⟨Text.ofNat_ne_nil n, fun _ => Text.isDigit_of_mem_ofNat⟩

theorem isDecimal_text (d : Decimal) : IsDecimal d.text := by
  obtain ⟨hne, hdigits⟩ := isDigits_iff.1 (isDigits_ofNat d.digits)
  have hpositive : 0 < (Text.ofNat d.digits).length := List.length_pos_of_ne_nil hne
  have hzeros : ∀ count, ∀ c ∈ List.replicate count (CodeUnit.ofChar '0'), CodeUnit.isDigit c = true := by
    intro count c hc
    rw [List.eq_of_mem_replicate hc]
    decide
  have htake : ∀ count, 0 < count → Text.isDigits ((Text.ofNat d.digits).take count) = true := by
    intro count hcount
    refine isDigits_iff.2 ⟨?_, fun c hc => hdigits c (List.mem_of_mem_take hc)⟩
    simp only [ne_eq, List.take_eq_nil_iff, not_or]
    exact ⟨hcount.ne', hne⟩
  have hdrop : ∀ count, count < (Text.ofNat d.digits).length →
      Text.isDigits ((Text.ofNat d.digits).drop count) = true := by
    intro count hcount
    refine isDigits_iff.2 ⟨?_, fun c hc => hdigits c (List.mem_of_mem_drop hc)⟩
    simpa using hcount
  unfold Decimal.text
  dsimp only
  split
  · refine IsMantissa.isDecimal (.inl (isDigits_iff.2 ⟨by simp [hne], ?_⟩))
    exact List.forall_mem_append.2 ⟨hdigits, hzeros _⟩
  · split
    · exact IsMantissa.isDecimal (.inr ⟨_, _, htake _ (by omega), hdrop _ (by omega), rfl⟩)
    · split
      · refine IsMantissa.isDecimal (.inr ⟨"0",
          List.replicate (-d.point).toNat (CodeUnit.ofChar '0') ++ Text.ofNat d.digits, by decide, ?_, ?_⟩)
        · exact isDigits_iff.2 ⟨by simp [hne], List.forall_mem_append.2 ⟨hzeros _, hdigits⟩⟩
        · rw [List.append_assoc]
          rfl
      · rw [List.append_assoc, List.append_assoc]
        refine ⟨_, _, ?_, .inr ⟨_, _, ?_, isDigits_ofNat _, rfl⟩, rfl⟩
        · split
          · exact .inl (isDigits_ofNat _)
          · exact .inr ⟨_, _, htake 1 (by decide), hdrop 1 (by omega), rfl⟩
        · split
          · exact .inr rfl
          · exact .inl rfl

def isDecimalUnit (c : CodeUnit) : Bool := c.isDigit || (".e+-" : Text).contains c

theorem IsDecimal.all_isDecimalUnit {t : Text} (h : IsDecimal t) : t.all isDecimalUnit = true := by
  have hdigits : ∀ {u : Text}, u.isDigits = true → u.all isDecimalUnit = true := by
    intro u hu
    refine List.all_eq_true.2 fun c hc => ?_
    rw [isDecimalUnit, (isDigits_iff.1 hu).2 c hc, Bool.true_or]
  obtain ⟨mantissa, exponent, hmantissa, hexponent, rfl⟩ := h
  rw [List.all_append, Bool.and_eq_true]
  constructor
  · rcases hmantissa with hwhole | ⟨whole, fraction, hwhole, hfraction, rfl⟩
    · exact hdigits hwhole
    · rw [List.all_append, List.all_append, hdigits hwhole, hdigits hfraction]
      rfl
  · rcases hexponent with rfl | ⟨sign, digits, hsign, hd, rfl⟩
    · rfl
    · rw [List.all_append, List.all_append, hdigits hd]
      rcases hsign with rfl | rfl <;> rfl

/-- The text of a number is a decimal, with a minus sign in front of a negative one. -/
theorem isDecimal_or_minus (n : Number) :
    IsDecimal n.text ∨ ∃ t, IsDecimal t ∧ n.text = "-" ++ t := by
  unfold text
  split
  · exact .inl (IsMantissa.isDecimal (.inl (by decide)))
  · split
    · exact .inr ⟨_, isDecimal_text _, rfl⟩
    · exact .inl (isDecimal_text _)

end Number

end Cookbook
