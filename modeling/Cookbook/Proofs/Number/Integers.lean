import Cookbook.Number.Reading
import Cookbook.Proofs.Number.Rounding
import Mathlib.Data.List.TakeWhile
import Mathlib.Data.Nat.Digits.Lemmas

/-!
Integers in decimal are read back exactly. Up to 53 bits every integer is a binary64 value of its own,
so rounding leaves it alone.

* `Text.toNat_ofNat` and `Text.isDigit_of_mem_ofNat` are about the digits;
* `Number.nearest?_natCast` is about rounding;
* `Number.ofText?_ofNat` is the result.
-/

namespace Cookbook

/-! ### Digits -/

namespace Text

theorem ofNat_ne_nil (n : Nat) : ofNat n ≠ [] := by
  simp [ofNat, Nat.toDigits_ne_nil]

section Char

variable {c : Char} (h : c.isDigit = true)

include h

theorem toNat_ofChar : (CodeUnit.ofChar c).toNat = c.toNat := by
  have hle : c.toNat ≤ 57 := by
    simp only [Char.isDigit, Bool.and_eq_true, decide_eq_true_eq] at h
    exact h.2
  show c.toNat % 65536 = c.toNat
  omega

theorem isDigit_ofChar : (CodeUnit.ofChar c).isDigit = true := by
  have hc := toNat_ofChar h
  simp only [Char.isDigit, Bool.and_eq_true, decide_eq_true_eq] at h
  have hlow : 48 ≤ c.toNat := h.1
  have hhigh : c.toNat ≤ 57 := h.2
  simp only [CodeUnit.isDigit, Bool.and_eq_true, decide_eq_true_eq, UInt16.le_iff_toNat_le, hc]
  exact ⟨hlow, hhigh⟩

theorem digitValue_ofChar : digitValue (CodeUnit.ofChar c) = c.toNat - '0'.toNat := by
  unfold digitValue
  rw [isDigit_ofChar h, if_pos rfl, toNat_ofChar h]
  rfl

end Char

theorem isDigit_of_mem_toDigits {n : Nat} {c : Char} (h : c ∈ Nat.toDigits 10 n) :
    c.isDigit = true :=
  Nat.isDigit_of_mem_toDigits (by decide) (by decide) h

theorem isDigit_of_mem_ofNat {n : Nat} {c : CodeUnit} (h : c ∈ ofNat n) : c.isDigit = true := by
  obtain ⟨d, hd, rfl⟩ := List.mem_map.1 h
  exact isDigit_ofChar (isDigit_of_mem_toDigits hd)

theorem toNat_ofNat (n : Nat) : toNat 10 (ofNat n) = n := by
  have hfold : ∀ (digits : List Char) (init : Nat), (∀ c ∈ digits, c.isDigit = true) →
      (digits.map CodeUnit.ofChar).foldl (fun n c => n * 10 + digitValue c) init =
        Nat.ofDigitChars 10 digits init := by
    intro digits
    induction digits with
    | nil => exact fun _ _ => rfl
    | cons c rest ih =>
      intro init hdigits
      rw [List.map_cons, List.foldl_cons, Nat.ofDigitChars_cons,
        ih _ fun d hd => hdigits d (List.mem_cons_of_mem _ hd),
        digitValue_ofChar (hdigits c List.mem_cons_self), Nat.mul_comm]
  unfold toNat ofNat
  rw [hfold _ _ fun c hc => isDigit_of_mem_toDigits hc]
  exact Nat.ofDigitChars_ten_toDigits

/-- Only zero is printed with a zero in front. -/
theorem ofNat_of_head? {n : Nat} (h : (ofNat n).head? = some (CodeUnit.ofChar '0')) : n = 0 := by
  induction n using Nat.strong_induction_on with
  | _ n ih =>
    unfold ofNat at h
    rcases Nat.lt_or_ge n 10 with hn | hn
    · rw [Nat.toDigits_of_lt_base hn] at h
      interval_cases n <;> first | rfl | exact absurd h (by decide)
    · rw [Nat.toDigits_of_base_le (by decide) hn, List.map_append, List.head?_append_of_ne_nil] at h
      · have := ih (n / 10) (Nat.div_lt_self (by omega) (by decide)) h
        omega
      · simp [Nat.toDigits_ne_nil]

/-- A number of two digits or more has no zero in front. -/
theorem ne_zero_of_ofNat_eq {n : Nat} {c d : CodeUnit} {rest : Text} (h : ofNat n = c :: d :: rest) :
    c ≠ CodeUnit.ofChar '0' := by
  rintro rfl
  have hn : n = 0 := ofNat_of_head? (by rw [h]; rfl)
  rw [hn, show ofNat 0 = [CodeUnit.ofChar '0'] from by decide] at h
  exact absurd h (by simp)

end Text

/-! ### Reading -/

namespace Number

/-- Nothing between the blank and the delete unit of ASCII is white space. -/
theorem not_isSpace_of_visible {c : CodeUnit} (hlow : 0x20 < c.toNat) (hhigh : c.toNat < 0x7F) :
    c.isSpace = false := by
  simp only [CodeUnit.isSpace, Bool.or_eq_false_iff, Bool.and_eq_false_iff, decide_eq_false_iff_not,
    beq_eq_false_iff_ne, UInt16.le_iff_toNat_le, UInt16.reduceToNat, ne_eq, ← UInt16.toNat_inj]
  omega

theorem not_isSpace_of_isHexDigit {c : CodeUnit} (h : c.isHexDigit = true) : c.isSpace = false := by
  simp only [CodeUnit.isHexDigit, CodeUnit.isDigit, Bool.or_eq_true, Bool.and_eq_true, decide_eq_true_eq,
    UInt16.le_iff_toNat_le, UInt16.reduceToNat] at h
  exact not_isSpace_of_visible (by omega) (by omega)

theorem isHexDigit_of_isDigit {c : CodeUnit} (h : c.isDigit = true) : c.isHexDigit = true := by
  simp [CodeUnit.isHexDigit, h]

theorem radix?_of_isDigit {c : CodeUnit} (h : c.isDigit = true) : radix? c = none := by
  have hne : ∀ d : CodeUnit, d.isDigit = false → c ≠ d := by
    rintro d hd rfl
    rw [hd] at h
    exact absurd h (by decide)
  simp only [radix?, hne 'x' (by decide), hne 'X' (by decide), hne 'o' (by decide), hne 'O' (by decide),
    hne 'b' (by decide), hne 'B' (by decide), or_self, if_false]

theorem takeSign_of_isDigit {t : Text} (h : ∀ c ∈ t.head?, CodeUnit.isDigit c = true) :
    takeSign t = (false, t) := by
  cases t with
  | nil => rfl
  | cons c rest =>
    have hc := h c rfl
    have hminus : c ≠ CodeUnit.ofChar '-' := by
      rintro rfl
      exact absurd hc (by decide)
    have hplus : c ≠ CodeUnit.ofChar '+' := by
      rintro rfl
      exact absurd hc (by decide)
    simp [takeSign, hminus, hplus]

theorem trim_eq_self {t : Text} (h : ∀ c ∈ t, CodeUnit.isSpace c = false) : t.trim = t := by
  have hdrop : ∀ t : Text, (∀ c ∈ t, CodeUnit.isSpace c = false) → t.dropWhile CodeUnit.isSpace = t :=
    fun t ht => List.dropWhile_eq_self_iff.2 fun hpos => Bool.eq_false_iff.1 (ht _ (List.getElem_mem hpos))
  unfold Text.trim Text.trimStart Text.trimEnd
  rw [hdrop _ h, hdrop _ fun c hc => h c (List.mem_reverse.1 hc), List.reverse_reverse]

theorem two_pow_le_ten_pow {i k : Nat} (h : i ≤ 3 * k) : 2 ^ i ≤ 10 ^ k :=
  calc 2 ^ i ≤ 2 ^ (3 * k) := Nat.pow_le_pow_right (by decide) h
    _ = (2 ^ 3) ^ k := pow_mul 2 3 k
    _ ≤ 10 ^ k := Nat.pow_le_pow_left (by decide) k

/-- The shortcut for large sizes is right for natural numbers: nothing of more than 400 digits is
finite. -/
theorem ofScientific?_zero (n : Nat) : ofScientific? n 0 = nearest? (n : Rat) := by
  unfold ofScientific?
  dsimp only
  split
  · rename_i hn
    rw [hn]
    rfl
  · split
    · rename_i hlong
      obtain ⟨k, hk⟩ : ∃ k, (Nat.toDigits 10 n).length = k + 1 :=
        ⟨(Nat.toDigits 10 n).length - 1, by omega⟩
      have hlarge : 10 ^ k ≤ n := by
        by_contra hn
        have := (Nat.length_toDigits_le_iff (k := k) (by decide) (by omega)).2 (not_le.1 hn)
        omega
      have htop : 2 ^ 1024 ≤ 10 ^ k := two_pow_le_ten_pow (by omega)
      have hoverflow : overflow ≤ n := (Nat.sub_le _ _).trans (htop.trans hlarge)
      rw [nearest?_natCast, if_neg hoverflow.not_gt]
    · rw [if_neg (by omega)]
      have hone : tenPow 0 = 1 := by simp [tenPow]
      rw [hone, mul_one]

section Digits

variable {t : Text} (h : t.isDigits = true)

include h

theorem isDigit_of_isDigits {c : CodeUnit} (hc : c ∈ t) : c.isDigit = true := by
  simp only [Text.isDigits, Bool.and_eq_true] at h
  exact List.all_eq_true.1 h.2 c hc

theorem ofSigned?_of_isDigits : ofSigned? t = nearest? (Text.toNat 10 t : Nat) := by
  have hdigits : ∀ c ∈ t, CodeUnit.isDigit c = true := fun c => isDigit_of_isDigits h
  have hnil : t ≠ [] := by
    rintro rfl
    exact absurd h (by decide)
  have hdecimal : ofDecimal? t = nearest? (Text.toNat 10 t : Nat) := by
    unfold ofDecimal?
    rw [List.takeWhile_eq_self_iff.2 hdigits, List.dropWhile_eq_nil_iff.2 hdigits]
    simp [hnil, exponent?, ofScientific?_zero]
  unfold ofSigned?
  rw [takeSign_of_isDigit fun c hc => hdigits c (List.mem_of_mem_head? hc)]
  dsimp only
  rw [hdecimal]
  simp

/-- Decimal digits read as the value nearest to their number, zeros in front or not. -/
theorem ofText?_of_isDigits : ofText? t = nearest? (Text.toNat 10 t : Nat) := by
  unfold ofText?
  rw [trim_eq_self fun c hc => not_isSpace_of_isHexDigit (isHexDigit_of_isDigit (isDigit_of_isDigits h hc))]
  split
  · exact absurd h (by decide)
  · rename_i c mark rest
    have hmark := isDigit_of_isDigits h (List.mem_cons_of_mem c List.mem_cons_self)
    rw [radix?_of_isDigit hmark, ite_self]
    exact ofSigned?_of_isDigits h
  · exact ofSigned?_of_isDigits h

end Digits

theorem not_isSpace_of_radix? {mark : CodeUnit} {base : Nat} (h : radix? mark = some base) :
    mark.isSpace = false := by
  have hmarks : (['x', 'X', 'o', 'O', 'b', 'B'] : List CodeUnit).all (!CodeUnit.isSpace ·) = true := by
    decide
  have hmark : mark ∈ (['x', 'X', 'o', 'O', 'b', 'B'] : List CodeUnit) := by
    by_contra hmark
    simp only [List.mem_cons, List.not_mem_nil, or_false, not_or] at hmark
    simp [radix?, hmark] at h
  simpa using List.all_eq_true.1 hmarks mark hmark

/-- Digits after the mark of a base read as the value nearest to their number in that base. -/
theorem ofText?_radix {mark : CodeUnit} {base : Nat} (hmark : radix? mark = some base) {t : Text}
    (h : ∀ c ∈ t, CodeUnit.isHexDigit c = true ∧ Text.digitValue c < base) :
    ofText? (CodeUnit.ofChar '0' :: mark :: t) =
      if t = [] then none else nearest? (Text.toNat base t : Nat) := by
  have hspace : ∀ c ∈ CodeUnit.ofChar '0' :: mark :: t, CodeUnit.isSpace c = false := by
    simp only [List.forall_mem_cons]
    exact ⟨by decide, not_isSpace_of_radix? hmark, fun c hc => not_isSpace_of_isHexDigit (h c hc).1⟩
  have hall : (t.all fun c => c.isHexDigit && Text.digitValue c < base) = true :=
    List.all_eq_true.2 fun c hc => by simp [h c hc]
  unfold ofText?
  rw [trim_eq_self hspace]
  dsimp only
  rw [if_pos rfl, hmark]
  dsimp only
  unfold ofDigits?
  rw [hall]
  cases t <;> simp

theorem ofText?_ofNat {n : Nat} (h : n ≤ maxSafe) : ofText? (Text.ofNat n) = some (n : Rat) := by
  have hdigits : (Text.ofNat n).isDigits = true := by
    simp only [Text.isDigits, Bool.and_eq_true, Bool.not_eq_true', List.isEmpty_eq_false_iff,
      List.all_eq_true]
    exact ⟨Text.ofNat_ne_nil n, fun c => Text.isDigit_of_mem_ofNat⟩
  rw [ofText?_of_isDigits hdigits, Text.toNat_ofNat, nearest?_natCast, if_pos (lt_overflow_of_le h),
    rounded_of_le h]

end Number

end Cookbook
