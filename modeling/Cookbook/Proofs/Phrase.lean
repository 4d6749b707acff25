import Mathlib.Data.List.Basic

/-!
Phrases of signs and operands, read by how tightly the signs bind. A grammar gives each sign a level,
and each level one way to stand: between two phrases, before one or after one. A phrase is a list of
symbols; what it says is a tree that fits the levels and has these symbols from left to right.

* `Tree` and `Tree.symbols` are the trees and their symbols, `Fits` says which trees the levels allow;
* `Fits.le_of_outer` is about the signs of a phrase that stand in no bracket;
* `Fits.eq_of_symbols_eq` says that no phrase can be read in two ways;
* `Tree.eval` is the value of a tree under a meaning of its symbols.
-/

namespace Cookbook

namespace Phrase

/-- How the signs of a level stand. -/
inductive Fixity where
  /-- Between two phrases, in chains that group to the left. -/
  | left
  /-- Between two phrases, without chains. -/
  | apart
  /-- Before a phrase. -/
  | before
  /-- After a phrase. -/
  | after
deriving DecidableEq

inductive Role where
  | operand
  | opens
  | closes
  | sign (level : Nat)
deriving DecidableEq

/-- The roles of symbols, and how the signs of each level stand. A sign of a higher level binds
tighter. -/
structure Grammar (S : Type) where
  role : S → Role
  fixity : Nat → Fixity

/-- A reading of a phrase. -/
inductive Tree (S : Type) where
  /-- An operand. -/
  | leaf (s : S)
  /-- A phrase in brackets. -/
  | group (opener : S) (t : Tree S) (closer : S)
  /-- A sign between two phrases. -/
  | join (l : Tree S) (s : S) (r : Tree S)
  /-- A sign before a phrase. -/
  | before (s : S) (t : Tree S)
  /-- A sign after a phrase. -/
  | after (t : Tree S) (s : S)

variable {S : Type}

namespace Tree

def symbols : Tree S → List S
  | leaf s => [s]
  | group opener t closer => opener :: (t.symbols ++ [closer])
  | join l s r => l.symbols ++ s :: r.symbols
  | before s t => s :: t.symbols
  | after t s => t.symbols ++ [s]

end Tree

/-- A tree whose signs, outside brackets, bind at least as tightly as the level, and whose parts bind
as tightly as the sign above them asks. -/
inductive Fits (g : Grammar S) : Nat → Tree S → Prop
  | leaf {k s} (hs : g.role s = .operand) : Fits g k (.leaf s)
  | group {k opener t closer} (hopener : g.role opener = .opens) (hcloser : g.role closer = .closes)
      (ht : Fits g 0 t) : Fits g k (.group opener t closer)
  | left {k n l s r} (hs : g.role s = .sign n) (hn : g.fixity n = .left) (hk : k ≤ n)
      (hl : Fits g n l) (hr : Fits g (n + 1) r) : Fits g k (.join l s r)
  | apart {k n l s r} (hs : g.role s = .sign n) (hn : g.fixity n = .apart) (hk : k ≤ n)
      (hl : Fits g (n + 1) l) (hr : Fits g (n + 1) r) : Fits g k (.join l s r)
  | before {k n s t} (hs : g.role s = .sign n) (hn : g.fixity n = .before) (hk : k ≤ n)
      (ht : Fits g n t) : Fits g k (.before s t)
  | after {k n s t} (hs : g.role s = .sign n) (hn : g.fixity n = .after) (hk : k ≤ n)
      (ht : Fits g n t) : Fits g k (.after t s)

structure Reads (g : Grammar S) (phrase : List S) (t : Tree S) : Prop where
  fits : Fits g 0 t
  symbols : t.symbols = phrase

theorem Fits.mono {g : Grammar S} {k k' : Nat} {t : Tree S} (h : Fits g k t) (hk : k' ≤ k) :
    Fits g k' t := by
  cases h with
  | leaf hs => exact .leaf hs
  | group hopener hcloser ht => exact .group hopener hcloser ht
  | left hs hn hle hl hr => exact .left hs hn (by omega) hl hr
  | apart hs hn hle hl hr => exact .apart hs hn (by omega) hl hr
  | before hs hn hle ht => exact .before hs hn (by omega) ht
  | after hs hn hle ht => exact .after hs hn (by omega) ht

section Parts

variable {g : Grammar S} {k n : Nat} {s : S} {l r t : Tree S}

theorem fits_group_iff {opener closer : S} :
    Fits g k (.group opener t closer) ↔
      g.role opener = .opens ∧ g.role closer = .closes ∧ Fits g 0 t := by
  constructor
  · rintro (_ | ⟨hopener, hcloser, ht⟩)
    exact ⟨hopener, hcloser, ht⟩
  · rintro ⟨hopener, hcloser, ht⟩
    exact .group hopener hcloser ht

theorem fits_left_iff (hs : g.role s = .sign n) (hn : g.fixity n = .left) :
    Fits g k (.join l s r) ↔ k ≤ n ∧ Fits g n l ∧ Fits g (n + 1) r := by
  constructor
  · intro h
    cases h with
    | left hs' _ hk hl hr =>
      obtain rfl := Role.sign.inj (hs.symm.trans hs')
      exact ⟨hk, hl, hr⟩
    | apart hs' hn' =>
      obtain rfl := Role.sign.inj (hs.symm.trans hs')
      exact absurd (hn.symm.trans hn') (by decide)
  · rintro ⟨hk, hl, hr⟩
    exact .left hs hn hk hl hr

theorem fits_apart_iff (hs : g.role s = .sign n) (hn : g.fixity n = .apart) :
    Fits g k (.join l s r) ↔ k ≤ n ∧ Fits g (n + 1) l ∧ Fits g (n + 1) r := by
  constructor
  · intro h
    cases h with
    | left hs' hn' =>
      obtain rfl := Role.sign.inj (hs.symm.trans hs')
      exact absurd (hn.symm.trans hn') (by decide)
    | apart hs' _ hk hl hr =>
      obtain rfl := Role.sign.inj (hs.symm.trans hs')
      exact ⟨hk, hl, hr⟩
  · rintro ⟨hk, hl, hr⟩
    exact .apart hs hn hk hl hr

end Parts

/-! ### Brackets -/

/-- The bracket depth after a symbol; none when it closes a bracket that was not opened. -/
def Role.depthAfter : Role → Nat → Option Nat
  | opens, depth => some (depth + 1)
  | closes, 0 => none
  | closes, depth + 1 => some depth
  | operand, depth => some depth
  | sign _, depth => some depth

theorem Role.depthAfter_add {role : Role} {depth e : Nat} (h : role.depthAfter depth = some e)
    (high : Nat) : role.depthAfter (depth + high) = some (e + high) := by
  cases role with
  | opens =>
    obtain rfl : depth + 1 = e := by simpa [depthAfter] using h
    simp only [depthAfter, Option.some.injEq]
    omega
  | closes =>
    cases depth with
    | zero => exact absurd h (by simp [depthAfter])
    | succ depth =>
      obtain rfl : depth = e := by simpa [depthAfter] using h
      rw [Nat.add_right_comm]
      rfl
  | operand =>
    obtain rfl : depth = e := by simpa [depthAfter] using h
    rfl
  | sign n =>
    obtain rfl : depth = e := by simpa [depthAfter] using h
    rfl

section Brackets

/-- The bracket depth after some symbols. -/
def walk (g : Grammar S) (depth : Nat) (symbols : List S) : Option Nat :=
  symbols.foldlM (fun depth s => (g.role s).depthAfter depth) depth

variable {g : Grammar S}

theorem walk_cons (depth : Nat) (s : S) (rest : List S) :
    walk g depth (s :: rest) = ((g.role s).depthAfter depth).bind fun depth => walk g depth rest :=
  List.foldlM_cons

theorem walk_append (depth : Nat) (a b : List S) :
    walk g depth (a ++ b) = (walk g depth a).bind fun depth => walk g depth b :=
  List.foldlM_append

theorem walk_sign {s : S} {n : Nat} (hs : g.role s = .sign n) (depth : Nat) (rest : List S) :
    walk g depth (s :: rest) = walk g depth rest := by
  rw [walk_cons, hs]
  rfl

theorem walk_opens {s : S} (hs : g.role s = .opens) (depth : Nat) (rest : List S) :
    walk g depth (s :: rest) = walk g (depth + 1) rest := by
  rw [walk_cons, hs]
  rfl

theorem walk_closes {s : S} (hs : g.role s = .closes) (depth : Nat) (rest : List S) :
    walk g (depth + 1) (s :: rest) = walk g depth rest := by
  rw [walk_cons, hs]
  rfl

theorem walk_add {depth e : Nat} {a : List S} (h : walk g depth a = some e) (high : Nat) :
    walk g (depth + high) a = some (e + high) := by
  induction a generalizing depth with
  | nil =>
    obtain rfl : depth = e := by simpa [walk] using h
    rfl
  | cons s a ih =>
    rw [walk_cons] at h
    obtain ⟨next, hnext, hrest⟩ := Option.bind_eq_some_iff.1 h
    rw [walk_cons, Role.depthAfter_add hnext, Option.bind_some, ih hrest]

/-- The brackets of a tree are in pairs. -/
theorem Fits.walk {k : Nat} {t : Tree S} (h : Fits g k t) (depth : Nat) :
    walk g depth t.symbols = some depth := by
  induction h generalizing depth with
  | leaf hs =>
    rw [Tree.symbols, walk_cons, hs]
    rfl
  | group hopener hcloser _ ih =>
    rw [Tree.symbols, walk_opens hopener, walk_append, ih, Option.bind_some, walk_closes hcloser]
    rfl
  | left hs _ _ _ _ ihl ihr =>
    rw [Tree.symbols, walk_append, ihl, Option.bind_some, walk_sign hs, ihr]
  | apart hs _ _ _ _ ihl ihr =>
    rw [Tree.symbols, walk_append, ihl, Option.bind_some, walk_sign hs, ihr]
  | before hs _ _ _ ih => rw [Tree.symbols, walk_sign hs, ih]
  | after hs _ _ _ ih =>
    rw [Tree.symbols, walk_append, ih, Option.bind_some, walk_sign hs]
    rfl

end Brackets

/-! ### Signs outside brackets -/

/-- A symbol in a list of two parts stands in the first or in the second. -/
theorem append_eq_append_cons {x y a b : List S} {s : S} (h : x ++ y = a ++ s :: b) :
    (∃ b', x = a ++ s :: b' ∧ b = b' ++ y) ∨ ∃ a', a = x ++ a' ∧ y = a' ++ s :: b := by
  rcases List.append_eq_append_iff.1 h with ⟨a', ha, hy⟩ | ⟨c, hx, hb⟩
  · exact .inr ⟨a', ha, hy⟩
  · cases c with
    | nil =>
      right
      refine ⟨[], ?_, ?_⟩
      · simpa using hx.symm
      · simpa using hb.symm
    | cons c rest =>
      obtain ⟨rfl, rfl⟩ : s = c ∧ b = rest ++ y := by simpa using hb
      exact .inl ⟨rest, hx, rfl⟩

/-- The symbol is a sign of the level that stands outside the brackets of the phrase. -/
def Outer (g : Grammar S) (n : Nat) (phrase : List S) : Prop :=
  ∃ a s b, phrase = a ++ s :: b ∧ walk g 0 a = some 0 ∧ g.role s = .sign n

section Outer

variable {g : Grammar S} {k n : Nat}

theorem not_outer_nil : ¬Outer g n [] := by
  rintro ⟨a, s, b, heq, -⟩
  simp at heq

/-- A sign outside the brackets of two phrases stands in one of them. -/
theorem Outer.of_append {x y : List S} (hx : walk g 0 x = some 0) (h : Outer g n (x ++ y)) :
    Outer g n x ∨ Outer g n y := by
  obtain ⟨a, s, b, heq, ha, hs⟩ := h
  rcases append_eq_append_cons heq with ⟨b', hin, -⟩ | ⟨a', rfl, hin⟩
  · exact .inl ⟨a, s, b', hin, ha, hs⟩
  · rw [walk_append, hx, Option.bind_some] at ha
    exact .inr ⟨a', s, b, hin, ha, hs⟩

theorem Outer.of_sign_cons {s : S} {m : Nat} {y : List S} (hs : g.role s = .sign m)
    (h : Outer g n (s :: y)) : m = n ∨ Outer g n y := by
  obtain ⟨a, s', b, heq, ha, hs'⟩ := h
  cases a with
  | nil =>
    obtain ⟨rfl, -⟩ : s = s' ∧ y = b := by simpa using heq
    rw [hs] at hs'
    exact .inl (by simpa using hs')
  | cons c a =>
    obtain ⟨rfl, rfl⟩ : s = c ∧ y = a ++ s' :: b := by simpa using heq
    rw [walk_sign hs] at ha
    exact .inr ⟨a, s', b, rfl, ha, hs'⟩

theorem not_outer_leaf {s : S} (hs : g.role s = .operand) : ¬Outer g n [s] := by
  rintro ⟨a, s', b, heq, -, hs'⟩
  cases a with
  | nil =>
    obtain ⟨rfl, -⟩ : s = s' ∧ [] = b := by simpa using heq
    exact absurd (hs.symm.trans hs') (by simp)
  | cons c a => simp at heq

/-- No sign of a phrase in brackets stands outside them. -/
theorem not_outer_group {opener closer : S} {t : Tree S} (hopener : g.role opener = .opens)
    (hcloser : g.role closer = .closes) (ht : Fits g 0 t) :
    ¬Outer g n (opener :: (t.symbols ++ [closer])) := by
  rintro ⟨a, s, b, heq, ha, hs⟩
  cases a with
  | nil =>
    obtain ⟨rfl, -⟩ : opener = s ∧ t.symbols ++ [closer] = b := by simpa using heq
    exact absurd (hopener.symm.trans hs) (by simp)
  | cons c a =>
    rw [List.cons_append, List.cons.injEq] at heq
    obtain ⟨rfl, heq⟩ := heq
    rw [walk_opens hopener] at ha
    rcases append_eq_append_cons heq with ⟨b', hin, -⟩ | ⟨a', -, hlast⟩
    · -- within the brackets the depth stays above zero
      have hwalk := ht.walk 0
      rw [hin, walk_append] at hwalk
      obtain ⟨e, he, -⟩ := Option.bind_eq_some_iff.1 hwalk
      rw [walk_add he 1] at ha
      simp at ha
    · cases a' with
      | nil =>
        obtain ⟨rfl, -⟩ : closer = s ∧ [] = b := by simpa using hlast
        exact absurd (hcloser.symm.trans hs) (by simp)
      | cons c a' => simp at hlast

/-- The signs of a tree that stand outside brackets bind at least as tightly as its level asks. -/
theorem Fits.le_of_outer {t : Tree S} (h : Fits g k t) (ho : Outer g n t.symbols) : k ≤ n := by
  induction h with
  | leaf hs => exact absurd ho (not_outer_leaf hs)
  | group hopener hcloser ht => exact absurd ho (not_outer_group hopener hcloser ht)
  | left hs _ hk hl hr ihl ihr =>
    rcases ho.of_append (hl.walk 0) with ho | ho
    · have := ihl ho
      omega
    · rcases ho.of_sign_cons hs with rfl | ho
      · exact hk
      · have := ihr ho
        omega
  | apart hs _ hk hl hr ihl ihr =>
    rcases ho.of_append (hl.walk 0) with ho | ho
    · have := ihl ho
      omega
    · rcases ho.of_sign_cons hs with rfl | ho
      · exact hk
      · have := ihr ho
        omega
  | before hs _ hk ht ih =>
    rcases ho.of_sign_cons hs with rfl | ho
    · exact hk
    · have := ih ho
      omega
  | after hs _ hk ht ih =>
    rcases ho.of_append (ht.walk 0) with ho | ho
    · have := ih ho
      omega
    · rcases ho.of_sign_cons hs with rfl | ho
      · exact hk
      · exact absurd ho not_outer_nil

end Outer

/-! ### One reading -/

/-- A tree with a sign of the level at its root, and how it stands. -/
inductive Rooted (g : Grammar S) (n : Nat) : Fixity → Tree S → Prop
  | left {l s r} (hs : g.role s = .sign n) (hn : g.fixity n = .left) (hl : Fits g n l)
      (hr : Fits g (n + 1) r) : Rooted g n .left (.join l s r)
  | apart {l s r} (hs : g.role s = .sign n) (hn : g.fixity n = .apart) (hl : Fits g (n + 1) l)
      (hr : Fits g (n + 1) r) : Rooted g n .apart (.join l s r)
  | before {s t} (hs : g.role s = .sign n) (hn : g.fixity n = .before) (ht : Fits g n t) :
      Rooted g n .before (.before s t)
  | after {s t} (hs : g.role s = .sign n) (hn : g.fixity n = .after) (ht : Fits g n t) :
      Rooted g n .after (.after t s)

section Unique

variable {g : Grammar S}

theorem Fits.not_outer {n : Nat} {t : Tree S} (h : Fits g (n + 1) t) : ¬Outer g n t.symbols := by
  intro ho
  have := h.le_of_outer ho
  omega

namespace Rooted

variable {n : Nat} {f : Fixity} {t : Tree S}

theorem fits (h : Rooted g n f t) : Fits g n t := by
  cases h with
  | left hs hn hl hr => exact .left hs hn (Nat.le_refl n) hl hr
  | apart hs hn hl hr => exact .apart hs hn (Nat.le_refl n) hl hr
  | before hs hn ht => exact .before hs hn (Nat.le_refl n) ht
  | after hs hn ht => exact .after hs hn (Nat.le_refl n) ht

theorem fixity_eq (h : Rooted g n f t) : g.fixity n = f := by
  cases h <;> assumption

theorem outer (h : Rooted g n f t) : Outer g n t.symbols := by
  cases h with
  | left hs _ hl _ => exact ⟨_, _, _, rfl, hl.walk 0, hs⟩
  | apart hs _ hl _ => exact ⟨_, _, _, rfl, hl.walk 0, hs⟩
  | before hs _ _ => exact ⟨[], _, _, rfl, rfl, hs⟩
  | after hs _ ht => exact ⟨_, _, [], rfl, ht.walk 0, hs⟩

/-- The sign at the root is the loosest one outside brackets, so the phrase tells its level. -/
theorem level_eq {m : Nat} {f' : Fixity} {u : Tree S} (ht : Rooted g n f t) (hu : Rooted g m f' u)
    (heq : t.symbols = u.symbols) : n = m ∧ f = f' := by
  have hle : n ≤ m := ht.fits.le_of_outer (heq ▸ hu.outer)
  have hge : m ≤ n := hu.fits.le_of_outer (heq ▸ ht.outer)
  obtain rfl : n = m := by omega
  exact ⟨rfl, ht.fixity_eq.symm.trans hu.fixity_eq⟩

/-- A tree with the same symbols has a sign of the same level at its root. -/
theorem of_symbols_eq {k : Nat} {u : Tree S} (ht : Rooted g n f t) (hu : Fits g k u)
    (heq : t.symbols = u.symbols) : Rooted g n f u := by
  have hroot : ∀ {m f'}, Rooted g m f' u → Rooted g n f u := by
    intro m f' hroot
    obtain ⟨rfl, rfl⟩ := ht.level_eq hroot heq
    exact hroot
  cases hu with
  | leaf hs => exact absurd (heq ▸ ht.outer) (not_outer_leaf hs)
  | group hopener hcloser hu => exact absurd (heq ▸ ht.outer) (not_outer_group hopener hcloser hu)
  | left hs hn _ hl hr => exact hroot (.left hs hn hl hr)
  | apart hs hn _ hl hr => exact hroot (.apart hs hn hl hr)
  | before hs hn _ hu => exact hroot (.before hs hn hu)
  | after hs hn _ hu => exact hroot (.after hs hn hu)

end Rooted

/-- A tree fits the next level, or has a sign of its own level at the root. -/
theorem Fits.succ_or_rooted {k : Nat} {t : Tree S} (h : Fits g k t) :
    Fits g (k + 1) t ∨ ∃ f, Rooted g k f t := by
  cases h with
  | leaf hs => exact .inl (.leaf hs)
  | group hopener hcloser ht => exact .inl (.group hopener hcloser ht)
  | left hs hn hk hl hr =>
    rcases Nat.eq_or_lt_of_le hk with rfl | hlt
    · exact .inr ⟨_, .left hs hn hl hr⟩
    · exact .inl (.left hs hn hlt hl hr)
  | apart hs hn hk hl hr =>
    rcases Nat.eq_or_lt_of_le hk with rfl | hlt
    · exact .inr ⟨_, .apart hs hn hl hr⟩
    · exact .inl (.apart hs hn hlt hl hr)
  | before hs hn hk ht =>
    rcases Nat.eq_or_lt_of_le hk with rfl | hlt
    · exact .inr ⟨_, .before hs hn ht⟩
    · exact .inl (.before hs hn hlt ht)
  | after hs hn hk ht =>
    rcases Nat.eq_or_lt_of_le hk with rfl | hlt
    · exact .inr ⟨_, .after hs hn ht⟩
    · exact .inl (.after hs hn hlt ht)

/-- The loosest sign of a phrase is the last of its level outside brackets, so that two ways to cut a
phrase at it are one. -/
theorem join_eq_join {n : Nat} {l r l' r' : List S} {s s' : S} (hl : walk g 0 l = some 0)
    (hl' : walk g 0 l' = some 0) (hs : g.role s = .sign n) (hs' : g.role s' = .sign n)
    (hr : ¬Outer g n r) (hr' : ¬Outer g n r') (heq : l ++ s :: r = l' ++ s' :: r') :
    l = l' ∧ s = s' ∧ r = r' := by
  rcases append_eq_append_cons heq with ⟨b, hlong, hrest⟩ | ⟨a, rfl, hrest⟩
  · rw [hlong, walk_append, hl', Option.bind_some, walk_sign hs'] at hl
    exact (hr' ⟨b, s, r, hrest, hl, hs⟩).elim
  · cases a with
    | nil =>
      obtain ⟨rfl, rfl⟩ : s = s' ∧ r = r' := by simpa using hrest
      exact ⟨(List.append_nil l).symm, rfl, rfl⟩
    | cons c a =>
      obtain ⟨rfl, rfl⟩ : s = c ∧ r = a ++ s' :: r' := by simpa using hrest
      rw [walk_append, hl, Option.bind_some, walk_sign hs] at hl'
      exact (hr ⟨a, s', r', rfl, hl', hs'⟩).elim

/-- No phrase has two readings. -/
theorem Fits.eq_of_symbols_eq {k k' : Nat} {t u : Tree S} (ht : Fits g k t) (hu : Fits g k' u)
    (heq : t.symbols = u.symbols) : t = u := by
  induction ht generalizing k' u with
  | @leaf k s hs =>
    cases hu with
    | leaf => simpa [Tree.symbols] using heq
    | group => simp [Tree.symbols] at heq
    | left hs' hn _ hl hr => exact absurd (heq ▸ (Rooted.left hs' hn hl hr).outer) (not_outer_leaf hs)
    | apart hs' hn _ hl hr =>
      exact absurd (heq ▸ (Rooted.apart hs' hn hl hr).outer) (not_outer_leaf hs)
    | before hs' hn _ hu => exact absurd (heq ▸ (Rooted.before hs' hn hu).outer) (not_outer_leaf hs)
    | after hs' hn _ hu => exact absurd (heq ▸ (Rooted.after hs' hn hu).outer) (not_outer_leaf hs)
  | @group k opener t closer hopener hcloser ht ih =>
    have hnone : ∀ {n f}, ¬Rooted g n f u := fun hroot =>
      absurd (heq ▸ hroot.outer) (not_outer_group hopener hcloser ht)
    cases hu with
    | leaf => simp [Tree.symbols] at heq
    | group _ _ hu =>
      simp only [Tree.symbols, List.cons.injEq] at heq
      obtain ⟨rfl, heq⟩ := heq
      obtain ⟨hinner, hlast⟩ := List.append_inj' heq rfl
      obtain rfl := List.singleton_inj.1 hlast
      rw [ih hu hinner]
    -- a tree with a sign outside brackets is rooted at its last such sign, which the other tree shares
    | left hs hn _ hl hr => exact absurd (.left hs hn hl hr) hnone
    | apart hs hn _ hl hr => exact absurd (.apart hs hn hl hr) hnone
    | before hs hn _ hu => exact absurd (.before hs hn hu) hnone
    | after hs hn _ hu => exact absurd (.after hs hn hu) hnone
  | left hs hn _ hl hr ihl ihr =>
    cases (Rooted.left hs hn hl hr).of_symbols_eq hu heq with
    | left hs' _ hl' hr' =>
      obtain ⟨hleft, rfl, hright⟩ := join_eq_join (hl.walk 0) (hl'.walk 0) hs hs' hr.not_outer
        hr'.not_outer heq
      rw [ihl hl' hleft, ihr hr' hright]
  | apart hs hn _ hl hr ihl ihr =>
    cases (Rooted.apart hs hn hl hr).of_symbols_eq hu heq with
    | apart hs' _ hl' hr' =>
      obtain ⟨hleft, rfl, hright⟩ := join_eq_join (hl.walk 0) (hl'.walk 0) hs hs' hr.not_outer
        hr'.not_outer heq
      rw [ihl hl' hleft, ihr hr' hright]
  | before hs hn _ ht ih =>
    cases (Rooted.before hs hn ht).of_symbols_eq hu heq with
    | before _ _ hu' =>
      simp only [Tree.symbols, List.cons.injEq] at heq
      obtain ⟨rfl, heq⟩ := heq
      rw [ih hu' heq]
  | after hs hn _ ht ih =>
    cases (Rooted.after hs hn ht).of_symbols_eq hu heq with
    | after _ _ hu' =>
      obtain ⟨hinner, hlast⟩ := List.append_inj' heq rfl
      obtain rfl := List.singleton_inj.1 hlast
      rw [ih hu' hinner]

theorem Reads.unique {phrase : List S} {t u : Tree S} (ht : Reads g phrase t) (hu : Reads g phrase u) :
    t = u :=
  ht.fits.eq_of_symbols_eq hu.fits (ht.symbols.trans hu.symbols.symm)

end Unique

/-! ### Chains of one sign -/

/-- Trees with one sign between them, grouped to the left. -/
def Tree.joinAll (s : S) (t : Tree S) (ts : List (Tree S)) : Tree S :=
  ts.foldl (fun l r => .join l s r) t

theorem Tree.symbols_joinAll (s : S) (t : Tree S) (ts : List (Tree S)) :
    (Tree.joinAll s t ts).symbols = [s].intercalate ((t :: ts).map symbols) := by
  induction ts generalizing t with
  | nil => simp [joinAll, List.intercalate]
  | cons u ts ih =>
    have hstep : Tree.joinAll s t (u :: ts) = Tree.joinAll s (.join t s u) ts := rfl
    rw [hstep, ih]
    cases ts with
    | nil => simp [symbols, List.intercalate]
    | cons w ts =>
      simp only [List.map_cons, List.intercalate_cons_cons, symbols, List.append_assoc,
        List.cons_append, List.nil_append]

/-- What the symbols of a chain spell, when each symbol spells something. -/
theorem flatMap_intercalate {C : Type} (spell : S → List C) (s : S) (parts : List (List S)) :
    ([s].intercalate parts).flatMap spell =
      (spell s).intercalate (parts.map fun part => part.flatMap spell) := by
  induction parts with
  | nil => rfl
  | cons part rest ih =>
    cases rest with
    | nil => simp [List.intercalate]
    | cons next rest =>
      simp only [List.map_cons, List.intercalate_cons_cons, List.flatMap_append] at ih ⊢
      rw [ih]
      simp

theorem Fits.joinAll {g : Grammar S} {n : Nat} {s : S} {t : Tree S} {ts : List (Tree S)}
    (hs : g.role s = .sign n) (hn : g.fixity n = .left) (ht : Fits g n t)
    (hts : ∀ u ∈ ts, Fits g (n + 1) u) : Fits g n (Tree.joinAll s t ts) := by
  induction ts generalizing t with
  | nil => exact ht
  | cons u ts ih =>
    obtain ⟨hu, hts⟩ := List.forall_mem_cons.1 hts
    exact ih (.left hs hn (Nat.le_refl n) ht hu) hts

/-! ### Values -/

/-- What operands, brackets and signs mean. -/
structure Meaning (S D : Type) where
  leaf : S → D
  group : S → D → S → D
  join : D → S → D → D
  before : S → D → D
  after : D → S → D

def Tree.eval {D : Type} (m : Meaning S D) : Tree S → D
  | leaf s => m.leaf s
  | group opener t closer => m.group opener (t.eval m) closer
  | join l s r => m.join (l.eval m) s (r.eval m)
  | before s t => m.before s (t.eval m)
  | after t s => m.after (t.eval m) s

end Phrase

end Cookbook
