import Cookbook.Number.Basic
import Mathlib.Data.Nat.Log
import Mathlib.Data.Rat.Floor
import Mathlib.Tactic.FieldSimp
import Mathlib.Tactic.Linarith
import Mathlib.Tactic.Ring

/-!
Natural numbers in binary64. A number is rounded to a multiple of what its 53rd bit is worth, so it
is kept when that divides it, and it has no value from halfway between the greatest finite one and
`2 ^ 1024` on.

* `le_roundEven`, `roundEven_le` and `roundEven_lt_two_mul_iff` are about rounding to an integer;
* `rounded` is the rounding of a natural number, `nearest?_natCast` says that it is the one there is;
* `rounded_eq_self_iff` and `rounded_lt_iff` say which numbers are kept and which have a value.
-/

namespace Cookbook

namespace Number

/-! ### Rounding to an integer -/

theorem roundEven_intCast (n : Int) : roundEven n = n := by
  unfold roundEven
  have hhalf : (0 : Rat) < mkRat 1 2 := by norm_num [Rat.mkRat_eq_div]
  simp [Rat.floor_intCast, hhalf]

theorem floor_le_roundEven (r : Rat) : r.floor ≤ roundEven r := by
  unfold roundEven
  dsimp only
  split
  · exact le_rfl
  · split
    · omega
    · split <;> omega

theorem roundEven_le_floor_add_one (r : Rat) : roundEven r ≤ r.floor + 1 := by
  unfold roundEven
  dsimp only
  split
  · omega
  · split
    · exact le_rfl
    · split <;> omega

section RoundEven

variable {r : Rat} {k : Int}

theorem le_roundEven (h : (k : Rat) ≤ r) : k ≤ roundEven r :=
  (Rat.le_floor_iff.2 h).trans (floor_le_roundEven r)

theorem roundEven_le (h : r ≤ k) : roundEven r ≤ k := by
  rcases h.lt_or_eq with hlt | rfl
  · have hfloor : r.floor < k := Rat.floor_lt_iff.2 hlt
    have := roundEven_le_floor_add_one r
    omega
  · exact (roundEven_intCast k).le

theorem roundEven_lt_two_mul_iff : roundEven r < 2 * k ↔ r < 2 * k - 1 / 2 := by
  have hhalf : mkRat 1 2 = 1 / 2 := by norm_num [Rat.mkRat_eq_div]
  have hle : (r.floor : Rat) ≤ r := Rat.floor_le r
  have hlt : r < r.floor + 1 := by exact_mod_cast Rat.lt_floor_add_one r
  rcases lt_trichotomy r.floor (2 * k - 1) with hbelow | hat | habove
  · have hround : roundEven r < 2 * k := by
      have := roundEven_le_floor_add_one r
      omega
    have hfloor : (r.floor : Rat) ≤ 2 * k - 2 := by exact_mod_cast (by omega : r.floor ≤ 2 * k - 2)
    exact iff_of_true hround (by linarith)
  · -- the integer below is odd, so a half goes up
    have hodd : ¬(2 * k - 1) % 2 = 0 := by omega
    unfold roundEven
    rw [hhalf, hat]
    dsimp only
    rw [if_neg hodd]
    push_cast
    split
    · exact iff_of_true (by omega) (by linarith)
    · rw [ite_self]
      exact iff_of_false (by omega) (by linarith)
  · have hround : ¬roundEven r < 2 * k := by
      have := floor_le_roundEven r
      omega
    have hfloor : (2 * k : Rat) ≤ r.floor := by exact_mod_cast (by omega : 2 * k ≤ r.floor)
    exact iff_of_false hround (by linarith)

end RoundEven

/-! ### Powers of two -/

theorem twoPow_natCast (k : Nat) : twoPow (k : Int) = 2 ^ k := by
  simp [twoPow]

theorem twoPow_neg_natCast (k : Nat) : twoPow (-(k : Int)) = 1 / 2 ^ k := by
  cases k with
  | zero => simp [twoPow]
  | succ k =>
    have hneg : ¬(0 : Int) ≤ -((k + 1 : Nat) : Int) := by omega
    unfold twoPow
    rw [if_neg hneg, Rat.mkRat_eq_div]
    simp

theorem binaryExponent_natCast {n : Nat} (h : n ≠ 0) : binaryExponent (n : Rat) = n.log2 := by
  have hle : ((2 ^ n.log2 : Nat) : Rat) ≤ n := by exact_mod_cast Nat.log2_self_le h
  have hestimate : ((n.log2 : Int) - ((1 : Nat).log2 : Int)) = n.log2 := by
    rw [show (1 : Nat).log2 = 0 from by decide]
    omega
  unfold binaryExponent
  simp only [Rat.num_natCast, Rat.den_natCast, Int.natAbs_natCast, hestimate, twoPow_natCast]
  rw [if_pos]
  push_cast at hle ⊢
  simpa using hle

/-! ### Rounding natural numbers -/

/-- What the 53rd bit of a natural number is worth, from its first one on; at least one. -/
def lastPlace (n : Nat) : Nat := 2 ^ (n.log2 - 52)

/-- A natural number rounded to 53 bits, a tie going to the even one. -/
def rounded (n : Nat) : Nat := (roundEven (n / lastPlace n)).toNat * lastPlace n

section Rounded

variable {n : Nat}

theorem lastPlace_pos (n : Nat) : 0 < lastPlace n := Nat.two_pow_pos _

theorem lastPlace_dvd_two_pow {k : Nat} (h : n.log2 ≤ k) : lastPlace n ∣ 2 ^ k :=
  Nat.pow_dvd_pow 2 (by omega)

theorem roundEven_nonneg (n : Nat) : 0 ≤ roundEven (n / lastPlace n) :=
  le_roundEven (by positivity)

theorem natCast_rounded (n : Nat) : (rounded n : Rat) = roundEven (n / lastPlace n) * lastPlace n := by
  have htoNat : ((roundEven (n / lastPlace n)).toNat : Rat) = roundEven (n / lastPlace n) := by
    exact_mod_cast Int.toNat_of_nonneg (roundEven_nonneg n)
  rw [rounded, Nat.cast_mul, htoNat]

theorem le_rounded {k : Nat} (h : k * lastPlace n ≤ n) : k * lastPlace n ≤ rounded n := by
  have hplace : (0 : Rat) < lastPlace n := by exact_mod_cast lastPlace_pos n
  have hround : (k : Int) ≤ roundEven (n / lastPlace n) :=
    le_roundEven ((le_div_iff₀ hplace).2 (by exact_mod_cast h))
  exact Nat.mul_le_mul_right _ (by omega)

theorem rounded_le {k : Nat} (h : n ≤ k * lastPlace n) : rounded n ≤ k * lastPlace n := by
  have hplace : (0 : Rat) < lastPlace n := by exact_mod_cast lastPlace_pos n
  have hround : roundEven (n / lastPlace n) ≤ (k : Int) :=
    roundEven_le ((div_le_iff₀ hplace).2 (by exact_mod_cast h))
  exact Nat.mul_le_mul_right _ (by omega)

/-- A number is kept exactly when no bit after its 53rd is set. -/
theorem rounded_eq_self_iff : rounded n = n ↔ lastPlace n ∣ n := by
  constructor
  · intro h
    exact Dvd.intro_left _ h
  · rintro ⟨k, hk⟩
    rw [mul_comm] at hk
    rw [le_antisymm (rounded_le hk.le) (le_rounded hk.ge), ← hk]

theorem two_pow_log2_le_rounded (hn : n ≠ 0) : 2 ^ n.log2 ≤ rounded n := by
  obtain ⟨k, hk⟩ := lastPlace_dvd_two_pow (n := n) le_rfl
  rw [mul_comm] at hk
  rw [hk]
  exact le_rounded (hk ▸ Nat.log2_self_le hn)

theorem rounded_le_two_pow (n : Nat) : rounded n ≤ 2 ^ (n.log2 + 1) := by
  obtain ⟨k, hk⟩ := lastPlace_dvd_two_pow (n := n) (Nat.le_succ n.log2)
  rw [mul_comm] at hk
  rw [hk]
  exact rounded_le (hk ▸ Nat.lt_log2_self.le)

/-- Every number of at most 53 bits is kept. -/
theorem rounded_of_le (h : n ≤ maxSafe) : rounded n = n := by
  have hbits : n.log2 ≤ 52 := by
    rcases eq_or_ne n 0 with rfl | hn
    · decide
    · have : n.log2 < 53 := (Nat.log2_lt hn).2 (by unfold maxSafe at h; omega)
      omega
  refine rounded_eq_self_iff.2 ?_
  rw [lastPlace, Nat.sub_eq_zero_of_le hbits, Nat.pow_zero]
  exact one_dvd n

/-- No larger number is rounded to one of at most 53 bits. -/
theorem rounded_le_maxSafe_iff : rounded n ≤ maxSafe ↔ n ≤ maxSafe := by
  refine ⟨fun h => ?_, fun h => (rounded_of_le h).trans_le h⟩
  by_contra hn
  unfold maxSafe at h hn
  have hbits : 53 ≤ n.log2 := (Nat.le_log2 (by omega)).2 (by omega)
  have hpow : 2 ^ 53 ≤ 2 ^ n.log2 := Nat.pow_le_pow_right (by decide) hbits
  have := two_pow_log2_le_rounded (n := n) (by omega)
  omega

/-- The least natural number without a finite value: halfway between the greatest finite value and
`2 ^ 1024`. -/
def overflow : Nat := 2 ^ 1024 - 2 ^ 970

/-- A number stays below the next power of two exactly when it is closer to a number of 53 bits. -/
theorem rounded_lt_of_log2_eq {k : Nat} (h : n.log2 = k + 53) :
    rounded n < 2 ^ (k + 54) ↔ n < 2 ^ (k + 54) - 2 ^ k := by
  have hplace : lastPlace n = 2 ^ (k + 1) := by
    rw [lastPlace, h, show k + 53 - 52 = k + 1 from by omega]
  have hround : rounded n < 2 ^ (k + 54) ↔ roundEven (n / lastPlace n) < 2 * (2 ^ 52 : Int) := by
    have hnonneg := roundEven_nonneg n
    have hsplit : 2 ^ (k + 54) = 2 ^ 53 * lastPlace n := by rw [hplace, ← pow_add, Nat.add_comm 53]
    rw [rounded, hsplit, Nat.mul_lt_mul_right (lastPlace_pos n)]
    omega
  have hpos : (0 : Rat) < 2 ^ (k + 1) := by positivity
  have hbound : ((2 : Rat) * (2 ^ 52 : Int) - 1 / 2) * 2 ^ (k + 1) = (2 ^ (k + 54) - 2 ^ k : Nat) := by
    rw [Nat.cast_sub (Nat.pow_le_pow_right (by decide) (by omega))]
    push_cast
    ring
  rw [hround, roundEven_lt_two_mul_iff, hplace]
  push_cast at hbound ⊢
  rw [div_lt_iff₀ hpos, hbound]
  exact_mod_cast Iff.rfl

/-- A number has a value exactly when it is closer to a finite one than to `2 ^ 1024`. -/
theorem rounded_lt_iff : rounded n < 2 ^ 1024 ↔ n < overflow := by
  have hpow : ∀ {i j : Nat}, i ≤ j → 2 ^ i ≤ 2 ^ j := Nat.pow_le_pow_right (by decide)
  rcases lt_trichotomy n.log2 1023 with hlow | hat | hhigh
  · have hn : n < 2 ^ (n.log2 + 1) := Nat.lt_log2_self
    have hrounded := rounded_le_two_pow n
    have hexponent := hpow (show n.log2 + 1 ≤ 1023 by omega)
    have hhalf : 2 ^ 1024 = 2 ^ 1023 + 2 ^ 1023 := by rw [← two_mul, ← pow_succ']
    have hfirst : 2 ^ 970 ≤ 2 ^ 1023 := hpow (by decide)
    unfold overflow
    generalize 2 ^ 1024 = top at *
    generalize 2 ^ 1023 = half at *
    omega
  · rw [overflow, show (1024 : Nat) = 970 + 54 from rfl]
    exact rounded_lt_of_log2_eq hat
  · have hn : n ≠ 0 := by
      rintro rfl
      exact absurd hhigh (by decide)
    have hself := Nat.log2_self_le hn
    have hrounded := two_pow_log2_le_rounded hn
    have hexponent := hpow (show 1024 ≤ n.log2 by omega)
    exact iff_of_false (by omega) (by unfold overflow; omega)

theorem lt_overflow_of_le (h : n ≤ maxSafe) : n < overflow := by
  have hpow : ∀ k, 53 ≤ k → 2 ^ 53 ≤ 2 ^ k := fun k => Nat.pow_le_pow_right (by decide)
  have hmax : maxSafe < 2 ^ 53 := by decide
  exact rounded_lt_iff.1 (((rounded_of_le h).trans_le h).trans_lt (hmax.trans_le (hpow 1024 (by decide))))

/-- The places after the point play no part in the rounding of a natural number. -/
theorem quantum_natCast (n : Nat) :
    (roundEven (n / twoPow (max ((n.log2 : Int) - 52) (-1074))) : Rat) *
      twoPow (max ((n.log2 : Int) - 52) (-1074)) = rounded n := by
  rcases Nat.lt_or_ge n.log2 52 with hshort | hlong
  · obtain ⟨k, hk⟩ : ∃ k : Nat, max ((n.log2 : Int) - 52) (-1074) = -(k : Int) :=
      ⟨52 - n.log2, by omega⟩
    have hplace : lastPlace n = 1 := by rw [lastPlace, Nat.sub_eq_zero_of_le hshort.le, Nat.pow_zero]
    have hkept : rounded n = n := rounded_eq_self_iff.2 (hplace ▸ one_dvd n)
    have hscaled : (n : Rat) / (1 / 2 ^ k) = ((n * 2 ^ k : Nat) : Int) := by
      push_cast
      field_simp
    rw [hk, twoPow_neg_natCast, hscaled, roundEven_intCast, hkept]
    push_cast
    field_simp
  · have hk : max ((n.log2 : Int) - 52) (-1074) = ((n.log2 - 52 : Nat) : Int) := by omega
    rw [hk, twoPow_natCast, natCast_rounded, lastPlace]
    push_cast
    rfl

/-- The value nearest to a natural number. -/
theorem nearest?_natCast (n : Nat) :
    nearest? (n : Rat) = if n < overflow then some (rounded n : Rat) else none := by
  rcases eq_or_ne n 0 with rfl | hn
  · have hkept : rounded 0 = 0 := rounded_eq_self_iff.2 (dvd_zero _)
    rw [if_pos (rounded_lt_iff.1 (hkept.trans_lt (by positivity))), hkept]
    rfl
  · have htop : ∀ k : Nat, twoPow (k : Int) = ((2 ^ k : Nat) : Rat) := fun k => by
      rw [twoPow_natCast, Nat.cast_pow, Nat.cast_ofNat]
    have hrange : (rounded n : Rat) < twoPow 1024 ∧ -twoPow 1024 < (rounded n : Rat) ↔ n < overflow := by
      rw [show (1024 : Int) = ((1024 : Nat) : Int) from rfl, htop, Nat.cast_lt, rounded_lt_iff, and_iff_left]
      have hpos : (0 : Rat) < (2 ^ 1024 : Nat) := Nat.cast_pos.2 (by positivity)
      exact (neg_lt_zero.2 hpos).trans_le (Nat.cast_nonneg _)
    unfold nearest?
    rw [if_neg (by exact_mod_cast hn), binaryExponent_natCast hn]
    dsimp only
    rw [quantum_natCast]
    exact if_congr hrange rfl rfl

end Rounded

theorem isSafeInteger_natCast (n : Nat) : isSafeInteger (n : Rat) = decide (n ≤ maxSafe) := by
  unfold isSafeInteger isInteger
  rw [Rat.den_natCast, Rat.num_natCast, Int.natAbs_natCast]
  rfl

end Number

end Cookbook
