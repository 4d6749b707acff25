import Cookbook.Condition.Command
import Mathlib.Data.List.TakeWhile
import Mathlib.Tactic.Common

/-!
What the patterns of shell commands match. A pattern spells the texts that its parts spell one after
another, whichever of their forms each part takes; the search tries the preferred form of each part
and finds every text that is spelled, because no form that it passes over could go on.

* `PatternPart.Spells` and `Spelling` say which texts are spelled, and with what subject, letter and
  negation;
* `CommandPattern.spelling_of_find?` says that what is found is spelled, `CommandPattern.isSome_find?_iff`
  that all that is spelled is found;
* `Spelling.around` cuts a text into its subject and what the pattern itself has around it.
-/

namespace Cookbook

/-! ### Forms of a part -/

def IsBlanks (t : Text) : Prop := t ≠ [] ∧ ∀ c ∈ t, CodeUnit.isSpace c = true

/-- A text between two quotes of one kind, without such a quote in it. -/
def IsQuoted (raw : Text) : Prop :=
  ∃ (q : CodeUnit) (inner : Text), (q = '\x22' ∨ q = '\x27') ∧ q ∉ inner ∧ raw = q :: inner ++ [q]

def IsBare (raw : Text) : Prop := raw ≠ [] ∧ ∀ c ∈ raw, CodeUnit.isSpace c = false

namespace PatternPart

/-- The texts that a part spells; from what was found before it, what has been found after it. -/
inductive Spells : PatternPart → CommandMatch → Text → CommandMatch → Prop
  | exactly {m : CommandMatch} (t : Text) : Spells (.exactly t) m t m
  | present {m : CommandMatch} (t : Text) : Spells (.perhaps t) m t m
  | absent {m : CommandMatch} (t : Text) : Spells (.perhaps t) m [] m
  | blanks {m : CommandMatch} {b : Text} (hb : IsBlanks b) : Spells .blanks m b m
  | negated {m : CommandMatch} {b : Text} (hb : IsBlanks b) :
      Spells .negation m ('!' :: b) { m with negated := true }
  | affirmed {m : CommandMatch} : Spells .negation m [] m
  | option {m : CommandMatch} {spellings : List Text} {o b : Text} (ho : o ∈ spellings)
      (hb : IsBlanks b) : Spells (.option spellings) m (o ++ b) m
  | noOption {m : CommandMatch} (spellings : List Text) : Spells (.option spellings) m [] m
  | letter {m : CommandMatch} {letters : Text} {c : CodeUnit} (hc : c ∈ letters) :
      Spells (.letter letters) m [c] { m with letter := some c }
  | quoted {m : CommandMatch} {raw : Text} (h : IsQuoted raw) :
      Spells .subject m raw { m with subject := raw }
  | bare {m : CommandMatch} {raw : Text} (h : IsBare raw) :
      Spells .subject m raw { m with subject := raw }

end PatternPart

/-- The texts that some parts spell one after another. -/
inductive Spelling : List PatternPart → CommandMatch → Text → CommandMatch → Prop
  | nil {m : CommandMatch} : Spelling [] m [] m
  | cons {part : PatternPart} {parts : List PatternPart} {m m' m'' : CommandMatch} {lead rest : Text}
      (hpart : part.Spells m lead m') (hparts : Spelling parts m' rest m'') :
      Spelling (part :: parts) m (lead ++ rest) m''

/-! ### What is found is spelled -/

theorem after?_eq_some {lead t rest : Text} : after? lead t = some rest ↔ t = lead ++ rest := by
  unfold after?
  constructor
  · intro h
    split at h
    · rename_i hprefix
      obtain ⟨more, rfl⟩ := List.isPrefixOf_iff_prefix.1 hprefix
      rw [List.drop_left] at h
      rw [Option.some.inj h]
    · exact absurd h (by simp)
  · rintro rfl
    rw [if_pos (List.isPrefixOf_iff_prefix.2 (List.prefix_append _ _)), List.drop_left]

theorem trimStart_eq (t : Text) : ∃ b, t = b ++ t.trimStart ∧ ∀ c ∈ b, CodeUnit.isSpace c = true :=
  ⟨t.takeWhile CodeUnit.isSpace, List.takeWhile_append_dropWhile.symm, fun _ => List.mem_takeWhile_imp⟩

theorem afterBlanks?_eq_some {t rest : Text} (h : afterBlanks? t = some rest) :
    ∃ b, t = b ++ rest ∧ IsBlanks b := by
  unfold afterBlanks? at h
  split at h
  · rename_i hblank
    obtain rfl := Option.some.inj h
    obtain ⟨b, ht, hb⟩ := trimStart_eq t
    refine ⟨b, ht, ?_, hb⟩
    rintro rfl
    -- a text that starts with a blank does not stay as it is
    cases t with
    | nil => exact absurd hblank (by simp)
    | cons c t =>
      have hc : CodeUnit.isSpace c = true := hblank
      have hlength := congrArg List.length ht
      have hdrop : (Text.trimStart (c :: t)).length ≤ t.length := by
        unfold Text.trimStart
        rw [List.dropWhile_cons_of_pos hc]
        exact (List.dropWhile_sublist _).length_le
      simp only [List.nil_append, List.length_cons] at hlength
      omega
  · exact absurd h (by simp)

theorem drop_takeWhile (p : CodeUnit → Bool) (t : Text) : t.drop (t.takeWhile p).length = t.dropWhile p := by
  have hdrop : (t.takeWhile p ++ t.dropWhile p).drop (t.takeWhile p).length = t.dropWhile p := List.drop_left
  rwa [List.takeWhile_append_dropWhile] at hdrop

theorem quotedStart?_eq_some {q : CodeUnit} (hq : q = '\x22' ∨ q = '\x27') {t raw rest : Text}
    (h : quotedStart? q t = some (raw, rest)) : t = raw ++ rest ∧ IsQuoted raw := by
  cases t with
  | nil => exact absurd h (by simp [quotedStart?])
  | cons c t =>
    rw [quotedStart?] at h
    split at h
    · rename_i hquote
      obtain ⟨rfl, hclosed⟩ := hquote
      obtain ⟨rfl, rfl⟩ := Prod.mk.inj (Option.some.inj h)
      have hinner : c ∉ t.takeWhile (· != c) := fun hmem => by simpa using List.mem_takeWhile_imp hmem
      refine ⟨?_, c, t.takeWhile (· != c), hq, hinner, rfl⟩
      -- what follows the text between the quotes starts with the second quote
      have hrest : t.dropWhile (· != c) = c :: t.drop ((t.takeWhile (· != c)).length + 1) := by
        rw [← List.drop_drop, drop_takeWhile]
        cases hdrop : t.dropWhile (· != c) with
        | nil => simpa using List.dropWhile_eq_nil_iff.1 hdrop c (List.contains_iff_mem.1 hclosed)
        | cons d after =>
          have hhead := List.head?_dropWhile_not (· != c) t
          rw [hdrop] at hhead
          rw [show d = c by simpa using hhead]
          rfl
      rw [List.append_assoc, List.cons_append, List.singleton_append, ← hrest,
        List.takeWhile_append_dropWhile]
    · exact absurd h (by simp)

theorem bareStart?_eq_some {t raw rest : Text} (h : bareStart? t = some (raw, rest)) :
    t = raw ++ rest ∧ IsBare raw := by
  unfold bareStart? at h
  dsimp only at h
  split at h
  · exact absurd h (by simp)
  · rename_i hne
    obtain ⟨rfl, rfl⟩ := Prod.mk.inj (Option.some.inj h)
    refine ⟨?_, by simpa using hne, fun c hc => ?_⟩
    · rw [drop_takeWhile, List.takeWhile_append_dropWhile]
    · simpa using List.mem_takeWhile_imp hc

namespace PatternPart

/-- A way in which a part stands at the start of a text is a form of the part. -/
theorem spells_of_mem_ways {part : PatternPart} {m m' : CommandMatch} {t rest : Text}
    (h : (m', rest) ∈ part.ways m t) : ∃ lead, t = lead ++ rest ∧ part.Spells m lead m' := by
  cases part with
  | exactly lead =>
    obtain ⟨rest', hrest, heq⟩ : ∃ rest', after? lead t = some rest' ∧ (m, rest') = (m', rest) := by
      simpa [ways] using h
    obtain ⟨rfl, rfl⟩ := Prod.mk.inj heq
    exact ⟨lead, after?_eq_some.1 hrest, .exactly lead⟩
  | perhaps lead =>
    obtain ⟨rfl, rfl⟩ := Prod.mk.inj (List.mem_singleton.1 h)
    cases hlead : after? lead t with
    | none => exact ⟨[], rfl, .absent lead⟩
    | some rest => exact ⟨lead, after?_eq_some.1 hlead, .present lead⟩
  | blanks =>
    obtain ⟨rest', hrest, heq⟩ : ∃ rest', afterBlanks? t = some rest' ∧ (m, rest') = (m', rest) := by
      simpa [ways] using h
    obtain ⟨rfl, rfl⟩ := Prod.mk.inj heq
    obtain ⟨b, ht, hb⟩ := afterBlanks?_eq_some hrest
    exact ⟨b, ht, .blanks hb⟩
  | negation =>
    unfold ways at h
    dsimp only at h
    split at h
    · rename_i rest' hrest
      obtain ⟨rfl, rfl⟩ := Prod.mk.inj (List.mem_singleton.1 h)
      obtain ⟨after, hbang, hblanks⟩ := Option.bind_eq_some_iff.1 hrest
      obtain ⟨b, rfl, hb⟩ := afterBlanks?_eq_some hblanks
      exact ⟨('!' : CodeUnit) :: b, by rw [after?_eq_some.1 hbang]; rfl, .negated hb⟩
    · obtain ⟨rfl, rfl⟩ := Prod.mk.inj (List.mem_singleton.1 h)
      exact ⟨[], rfl, .affirmed⟩
  | option spellings =>
    rcases List.mem_append.1 h with h | h
    · obtain ⟨o, ho, hway⟩ := List.mem_filterMap.1 h
      obtain ⟨rest', hrest, heq⟩ := Option.map_eq_some_iff.1 hway
      obtain ⟨rfl, rfl⟩ := Prod.mk.inj heq
      obtain ⟨after, hoption, hblanks⟩ := Option.bind_eq_some_iff.1 hrest
      obtain ⟨b, rfl, hb⟩ := afterBlanks?_eq_some hblanks
      exact ⟨o ++ b, by rw [after?_eq_some.1 hoption, List.append_assoc], .option ho hb⟩
    · obtain ⟨rfl, rfl⟩ := Prod.mk.inj (List.mem_singleton.1 h)
      exact ⟨[], rfl, .noOption spellings⟩
  | letter letters =>
    cases t with
    | nil => exact absurd h List.not_mem_nil
    | cons c t =>
      unfold ways at h
      dsimp only at h
      split at h
      · rename_i hc
        obtain ⟨rfl, rfl⟩ := Prod.mk.inj (List.mem_singleton.1 h)
        exact ⟨[c], rfl, .letter (List.contains_iff_mem.1 hc)⟩
      · exact absurd h List.not_mem_nil
  | subject =>
    -- a subject in quotes is found as a run without blanks, too, so three ways are open
    obtain ⟨⟨raw, rest'⟩, hfound, heq⟩ := List.mem_map.1 h
    obtain ⟨rfl, rfl⟩ := Prod.mk.inj heq
    obtain ⟨found, hmem, rfl⟩ := List.mem_filterMap.1 hfound
    simp only [List.mem_cons, List.not_mem_nil, or_false] at hmem
    rcases hmem with hdouble | hsingle | hbare
    · obtain ⟨ht, hraw⟩ := quotedStart?_eq_some (.inl rfl) hdouble.symm
      exact ⟨raw, ht, .quoted hraw⟩
    · obtain ⟨ht, hraw⟩ := quotedStart?_eq_some (.inr rfl) hsingle.symm
      exact ⟨raw, ht, .quoted hraw⟩
    · obtain ⟨ht, hraw⟩ := bareStart?_eq_some hbare.symm
      exact ⟨raw, ht, .bare hraw⟩

end PatternPart

namespace CommandPattern

/-- What some parts find after what was found before them. -/
def follow (parts : List PatternPart) (found : List (CommandMatch × Text)) : List (CommandMatch × Text) :=
  parts.foldl (fun found part => found.flatMap fun (m, rest) => part.ways m rest) found

theorem spelling_of_mem_follow {parts : List PatternPart} {found : List (CommandMatch × Text)}
    {m' : CommandMatch} {rest : Text} (h : (m', rest) ∈ follow parts found) :
    ∃ m t, (m, t) ∈ found ∧ ∃ lead, t = lead ++ rest ∧ Spelling parts m lead m' := by
  induction parts generalizing found with
  | nil => exact ⟨m', rest, h, [], rfl, .nil⟩
  | cons part parts ih =>
    obtain ⟨m₁, t₁, hmem, lead₁, rfl, hparts⟩ := ih h
    obtain ⟨⟨m, t⟩, hfound, hway⟩ := List.mem_flatMap.1 hmem
    obtain ⟨lead, rfl, hpart⟩ := PatternPart.spells_of_mem_ways hway
    exact ⟨m, _, hfound, lead ++ lead₁, (List.append_assoc _ _ _).symm, .cons hpart hparts⟩

def start : CommandMatch := ⟨false, none, []⟩

theorem find?_eq (parts : List PatternPart) (t : Text) :
    find? parts t = ((follow parts [(start, t)]).find? fun (_, rest) => rest.isEmpty).map (·.1) := rfl

/-- What a pattern finds in a text is spelled by the text. -/
theorem spelling_of_find? {parts : List PatternPart} {t : Text} {m : CommandMatch}
    (h : find? parts t = some m) : Spelling parts start t m := by
  rw [find?_eq] at h
  obtain ⟨⟨m', rest⟩, hfound, rfl⟩ := Option.map_eq_some_iff.1 h
  obtain ⟨m₀, t₀, hmem, lead, hlead, hspelling⟩ := spelling_of_mem_follow (List.mem_of_find?_eq_some hfound)
  obtain ⟨rfl, rfl⟩ := Prod.mk.inj (List.mem_singleton.1 hmem)
  have hrest : rest = [] := List.isEmpty_iff.1 (by simpa using List.find?_some hfound)
  rw [hlead, hrest, List.append_nil]
  exact hspelling

end CommandPattern

/-! ### What is spelled is found -/

/-- A class of units, with whether a blank may be in it and whether another unit may. -/
structure UnitClass where
  holds : CodeUnit → Bool
  inBlanks : Bool
  inRuns : Bool
  blank_of : ∀ c, c.isSpace = true → holds c = true → inBlanks = true
  run_of : ∀ c, c.isSpace = false → holds c = true → inRuns = true

namespace UnitClass

def blank : UnitClass where
  holds := CodeUnit.isSpace
  inBlanks := true
  inRuns := false
  blank_of _ _ _ := rfl
  run_of c hc h := absurd (hc.symm.trans h) (by decide)

def only (u : CodeUnit) : UnitClass where
  holds c := c == u
  inBlanks := u.isSpace
  inRuns := !u.isSpace
  blank_of c hc h := by rw [← beq_iff_eq.1 h, hc]
  run_of c hc h := by rw [← beq_iff_eq.1 h, hc]; rfl

variable (k : UnitClass)

/-- Whether a text starts with a unit of the class; `none` tells when it is empty. -/
def starts (t : Text) (none : Bool) : Bool :=
  match t with
  | [] => none
  | c :: _ => k.holds c

/-- Whether a text that some parts spell may start with a unit of the class. -/
def mayStart : List PatternPart → Bool
  | [] => false
  | .exactly t :: rest => k.starts t (mayStart rest)
  | .perhaps t :: rest => k.starts t (mayStart rest) || mayStart rest
  | .blanks :: _ => k.inBlanks
  | .negation :: rest => k.holds '!' || mayStart rest
  | .option spellings :: rest => (spellings.any fun o => k.starts o k.inBlanks) || mayStart rest
  | .letter letters :: _ => letters.any k.holds
  | .subject :: _ => k.inRuns

variable {k}

theorem starts_append {t u : Text} {other : Bool} (h : (t ++ u).head?.any k.holds = true)
    (hother : u.head?.any k.holds = true → other = true) : k.starts t other = true := by
  cases t with
  | nil => exact hother h
  | cons c t => exact h

theorem inBlanks_of_starts {b u : Text} (hb : IsBlanks b) (h : (b ++ u).head?.any k.holds = true) :
    k.inBlanks = true := by
  obtain ⟨hne, hblank⟩ := hb
  cases b with
  | nil => exact absurd rfl hne
  | cons c b => exact k.blank_of c (hblank c List.mem_cons_self) h

/-- A text that some parts spell starts with a unit with which it may start. -/
theorem mayStart_of_spelling {parts : List PatternPart} {m m' : CommandMatch} {t : Text}
    (hspelling : Spelling parts m t m') (h : t.head?.any k.holds = true) : k.mayStart parts = true := by
  induction hspelling with
  | nil => exact absurd h (by simp)
  | @cons part parts m m₁ m₂ lead rest hpart _ ih =>
    cases hpart with
    | exactly t => exact starts_append h ih
    | present t => exact Bool.or_eq_true_iff.2 (.inl (starts_append h ih))
    | absent t => exact Bool.or_eq_true_iff.2 (.inr (ih h))
    | blanks hb => exact inBlanks_of_starts hb h
    | negated hb => exact Bool.or_eq_true_iff.2 (.inl h)
    | affirmed => exact Bool.or_eq_true_iff.2 (.inr (ih h))
    | option ho hb =>
      rw [List.append_assoc] at h
      have hstarts := starts_append h (inBlanks_of_starts hb)
      exact Bool.or_eq_true_iff.2 (.inl (List.any_eq_true.2 ⟨_, ho, hstarts⟩))
    | noOption spellings => exact Bool.or_eq_true_iff.2 (.inr (ih h))
    | letter hc => exact List.any_eq_true.2 ⟨_, hc, h⟩
    | quoted hraw =>
      obtain ⟨q, inner, hq, -, rfl⟩ := hraw
      refine k.run_of q ?_ h
      rcases hq with rfl | rfl <;> decide
    | bare hraw =>
      obtain ⟨hne, hrun⟩ := hraw
      obtain ⟨c, raw, rfl⟩ := List.exists_cons_of_ne_nil hne
      exact k.run_of c (hrun c List.mem_cons_self) h

end UnitClass

/-- Whether the form that a part takes is told by what follows: no other form could go on with a text
that the rest spell. -/
def PatternPart.isSettled (rest : List PatternPart) : PatternPart → Bool
  | .exactly _ => true
  | .perhaps t => !t.head?.any fun c => (UnitClass.only c).mayStart rest
  | .blanks => !UnitClass.blank.mayStart rest
  | .negation => !UnitClass.blank.mayStart rest && !(UnitClass.only '!').mayStart rest
  | .option _ => !UnitClass.blank.mayStart rest
  | .letter _ => true
  | .subject => match rest with
    | [] => true
    | .blanks :: _ => true
    | _ => false

/-- Whether every part is settled by those after it. -/
def areSettled : List PatternPart → Bool
  | [] => true
  | part :: rest => part.isSettled rest && areSettled rest

theorem afterBlanks?_append {b t : Text} (hb : IsBlanks b) (ht : t.head?.any CodeUnit.isSpace = false) :
    afterBlanks? (b ++ t) = some t := by
  obtain ⟨hne, hblank⟩ := hb
  have htrim : Text.trimStart t = t := by
    cases t with
    | nil => rfl
    | cons c t => exact List.dropWhile_cons_of_neg (by simpa using ht)
  have hhead : (b ++ t).head?.any CodeUnit.isSpace = true := by
    obtain ⟨c, b, rfl⟩ := List.exists_cons_of_ne_nil hne
    exact hblank c List.mem_cons_self
  unfold afterBlanks?
  rw [if_pos hhead, Text.trimStart, List.dropWhile_append_of_pos hblank]
  exact congrArg some htrim

theorem quotedStart?_append (q : CodeUnit) {inner : Text} (hinner : q ∉ inner) (t : Text) :
    quotedStart? q (q :: inner ++ [q] ++ t) = some (q :: inner ++ [q], t) := by
  have htake : (inner ++ q :: t).takeWhile (· != q) = inner := by
    rw [List.takeWhile_append_of_pos fun c hc => by simpa using ne_of_mem_of_not_mem hc hinner,
      List.takeWhile_cons_of_neg (by simp), List.append_nil]
  have hclosed : (inner ++ q :: t).contains q = true := by simp
  have htext : q :: inner ++ [q] ++ t = q :: (inner ++ q :: t) := by simp
  rw [htext, quotedStart?, if_pos ⟨rfl, hclosed⟩, htake]
  simp

theorem bareStart?_append {raw t : Text} (hraw : IsBare raw) (ht : t.head?.all CodeUnit.isSpace = true) :
    bareStart? (raw ++ t) = some (raw, t) := by
  obtain ⟨hne, hrun⟩ := hraw
  have hnil : t.takeWhile (!CodeUnit.isSpace ·) = [] := by
    cases t with
    | nil => rfl
    | cons c t => exact List.takeWhile_cons_of_neg (by simpa using ht)
  have htake : (raw ++ t).takeWhile (!CodeUnit.isSpace ·) = raw := by
    rw [List.takeWhile_append_of_pos fun c hc => by simp [hrun c hc], hnil, List.append_nil]
  unfold bareStart?
  simp only [htake]
  simp [hne]

theorem after?_eq_none {c : CodeUnit} {t : Text} (h : t.head?.any (UnitClass.only c).holds = false)
    (lead : Text) : after? (c :: lead) t = none := by
  unfold after?
  rw [if_neg]
  intro hprefix
  obtain ⟨more, rfl⟩ := List.isPrefixOf_iff_prefix.1 hprefix
  exact absurd h (by simp [UnitClass.only])

/-- Blanks stand behind a subject that is settled, or nothing does. -/
theorem Spelling.isSpace_of_subject {parts : List PatternPart} {m m' : CommandMatch} {t : Text}
    (h : Spelling parts m t m') (hsettled : PatternPart.subject.isSettled parts = true) :
    t.head?.all CodeUnit.isSpace = true := by
  cases h with
  | nil => rfl
  | @cons next more m₁ m₂ m₃ lead rest hnext _ =>
    cases hnext with
    | blanks hb =>
      obtain ⟨hne, hblank⟩ := hb
      obtain ⟨c, lead, rfl⟩ := List.exists_cons_of_ne_nil hne
      exact hblank c List.mem_cons_self
    | exactly | present | absent | negated | affirmed | option | noOption | letter | quoted | bare =>
      exact absurd hsettled (by simp [PatternPart.isSettled])

/-- A form of a part that is settled by what follows is a way in which the part stands there. -/
theorem PatternPart.mem_ways {part : PatternPart} {parts : List PatternPart} {m m' m'' : CommandMatch}
    {lead t : Text} (hpart : part.Spells m lead m') (hparts : Spelling parts m' t m'')
    (hsettled : part.isSettled parts = true) : (m', t) ∈ part.ways m (lead ++ t) := by
  -- What a part could take more of is what nothing behind it starts with.
  have hstart : ∀ k : UnitClass, k.mayStart parts = false → t.head?.any k.holds = false := by
    intro k hk
    by_contra hhead
    exact absurd (UnitClass.mayStart_of_spelling hparts (by simpa using hhead)) (by simp [hk])
  cases hpart with
  | exactly lead => simp [ways, after?_eq_some.2 rfl]
  | present lead => simp [ways, after?_eq_some.2 rfl]
  | absent lead =>
    cases lead with
    | nil => simp [ways, after?]
    | cons c lead =>
      have hother := after?_eq_none (hstart (.only c) (by simpa [isSettled] using hsettled)) lead
      simp [ways, hother]
  | blanks hb =>
    have hhead := hstart .blank (by simpa [isSettled] using hsettled)
    simp [ways, afterBlanks?_append hb hhead]
  | @negated m b hb =>
    have hhead : t.head?.any CodeUnit.isSpace = false := by
      refine hstart .blank ?_
      simp only [isSettled, Bool.and_eq_true, Bool.not_eq_true'] at hsettled
      exact hsettled.1
    have hbang : after? "!" (('!' : CodeUnit) :: b ++ t) = some (b ++ t) := after?_eq_some.2 rfl
    unfold ways
    rw [hbang, Option.bind_some, afterBlanks?_append hb hhead]
    exact List.mem_singleton_self _
  | affirmed =>
    have hhead : t.head?.any (UnitClass.only '!').holds = false := by
      refine hstart (.only '!') ?_
      simp only [isSettled, Bool.and_eq_true, Bool.not_eq_true'] at hsettled
      exact hsettled.2
    have hbang : after? "!" t = none := after?_eq_none hhead []
    unfold ways
    rw [List.nil_append, hbang]
    exact List.mem_singleton_self _
  | @option m spellings o b ho hb =>
    have hhead := hstart .blank (by simpa [isSettled] using hsettled)
    have hoption : after? o (o ++ b ++ t) = some (b ++ t) :=
      after?_eq_some.2 (List.append_assoc _ _ _)
    refine List.mem_append_left _ (List.mem_filterMap.2 ⟨o, ho, ?_⟩)
    rw [hoption, Option.bind_some, afterBlanks?_append hb hhead]
    rfl
  | noOption spellings => exact List.mem_append_right _ (List.mem_singleton_self _)
  | letter hc => simp [ways, hc]
  | quoted hraw =>
    obtain ⟨q, inner, hq, hinner, rfl⟩ := hraw
    refine List.mem_map.2 ⟨(q :: inner ++ [q], t), List.mem_filterMap.2 ⟨_, ?_, rfl⟩, rfl⟩
    rw [← quotedStart?_append q hinner t]
    rcases hq with rfl | rfl <;> simp
  | bare hraw =>
    have hhead := hparts.isSpace_of_subject hsettled
    refine List.mem_map.2 ⟨(lead, t), List.mem_filterMap.2 ⟨_, ?_, rfl⟩, rfl⟩
    rw [← bareStart?_append hraw hhead]
    simp

namespace CommandPattern

theorem mem_follow {parts : List PatternPart} {found : List (CommandMatch × Text)} {m m' : CommandMatch}
    {t : Text} (hspelling : Spelling parts m t m') (hsettled : areSettled parts = true)
    (hfound : (m, t) ∈ found) : (m', []) ∈ follow parts found := by
  induction hspelling generalizing found with
  | nil => exact hfound
  | cons hpart hparts ih =>
    rw [areSettled, Bool.and_eq_true] at hsettled
    refine ih hsettled.2 (List.mem_flatMap.2 ⟨_, hfound, ?_⟩)
    exact PatternPart.mem_ways hpart hparts hsettled.1

/-- A pattern whose parts are settled finds something in exactly the texts that it spells. -/
theorem isSome_find?_iff {parts : List PatternPart} (hsettled : areSettled parts = true) (t : Text) :
    (find? parts t).isSome = true ↔ ∃ m, Spelling parts start t m := by
  constructor
  · intro h
    obtain ⟨m, hm⟩ := Option.isSome_iff_exists.1 h
    exact ⟨m, spelling_of_find? hm⟩
  · rintro ⟨m, hm⟩
    rw [find?_eq, Option.isSome_map, List.find?_isSome]
    exact ⟨(m, []), mem_follow hm hsettled List.mem_cons_self, rfl⟩

theorem settled_of_mem_all : ∀ pattern ∈ all, areSettled pattern.parts = true := by
  decide

end CommandPattern

/-! ### Around the subject -/

namespace PatternPart

def isSubject : PatternPart → Bool
  | .subject => true
  | _ => false

def units : PatternPart → Text
  | .exactly t => t
  | .perhaps t => t
  | .negation => "!"
  | .option spellings => spellings.flatten
  | .letter letters => letters
  | _ => []

end PatternPart

/-- The units of the words of some parts, and blanks. -/
def OwnUnit (parts : List PatternPart) (c : CodeUnit) : Prop :=
  c.isSpace = true ∨ ∃ part ∈ parts, c ∈ part.units

theorem OwnUnit.cons {part : PatternPart} {parts : List PatternPart} {c : CodeUnit} (h : OwnUnit parts c) :
    OwnUnit (part :: parts) c :=
  h.imp_right fun ⟨p, hp, hc⟩ => ⟨p, List.mem_cons_of_mem _ hp, hc⟩

namespace PatternPart

variable {part : PatternPart} {m m' : CommandMatch} {lead : Text}

/-- A part that is no subject spells only its own words and blanks, and finds no subject. -/
theorem Spells.own (parts : List PatternPart) (h : part.Spells m lead m') (hpart : part.isSubject = false) :
    m'.subject = m.subject ∧ ∀ c ∈ lead, OwnUnit (part :: parts) c := by
  have hword : ∀ c ∈ part.units, OwnUnit (part :: parts) c := fun c hc =>
    .inr ⟨part, List.mem_cons_self, hc⟩
  cases h with
  | exactly t => exact ⟨rfl, hword⟩
  | present t => exact ⟨rfl, hword⟩
  | absent t => exact ⟨rfl, by simp⟩
  | blanks hb => exact ⟨rfl, fun c hc => .inl (hb.2 c hc)⟩
  | negated hb =>
    exact ⟨rfl, List.forall_mem_cons.2 ⟨hword _ List.mem_cons_self, fun c hc => .inl (hb.2 c hc)⟩⟩
  | affirmed => exact ⟨rfl, by simp⟩
  | option ho hb =>
    refine ⟨rfl, fun c hc => ?_⟩
    rcases List.mem_append.1 hc with hc | hc
    · exact hword c (List.mem_flatten.2 ⟨_, ho, hc⟩)
    · exact .inl (hb.2 c hc)
  | noOption spellings => exact ⟨rfl, by simp⟩
  | letter hc => exact ⟨rfl, fun d hd => hword d (by rwa [List.mem_singleton.1 hd])⟩
  | quoted hraw => exact absurd hpart (by decide)
  | bare hraw => exact absurd hpart (by decide)

theorem Spells.raw (h : part.Spells m lead m') (hpart : part.isSubject = true) :
    m'.subject = lead ∧ (IsQuoted lead ∨ IsBare lead) := by
  cases h with
  | quoted hraw => exact ⟨rfl, .inl hraw⟩
  | bare hraw => exact ⟨rfl, .inr hraw⟩
  | exactly | present | absent | blanks | negated | affirmed | option | noOption | letter =>
    exact absurd hpart Bool.false_ne_true

end PatternPart

namespace Spelling

variable {parts : List PatternPart} {m m' : CommandMatch} {t : Text}

theorem own (h : Spelling parts m t m') (hparts : parts.countP PatternPart.isSubject = 0) :
    m'.subject = m.subject ∧ ∀ c ∈ t, OwnUnit parts c := by
  induction h with
  | nil => exact ⟨rfl, by simp⟩
  | @cons part parts m m₁ m₂ lead rest hpart _ ih =>
    rw [List.countP_eq_zero, List.forall_mem_cons] at hparts
    obtain ⟨hfirst, hmore⟩ := hparts
    obtain ⟨hsubject, hlead⟩ := hpart.own parts (by simpa using hfirst)
    obtain ⟨hsubject', hrest⟩ := ih (List.countP_eq_zero.2 hmore)
    refine ⟨hsubject'.trans hsubject, fun c hc => ?_⟩
    rcases List.mem_append.1 hc with hc | hc
    · exact hlead c hc
    · exact (hrest c hc).cons

/-- A text that is spelled by parts with one subject among them is that subject, with the parts' own
words and blanks around it. -/
theorem around (h : Spelling parts m t m') (hparts : parts.countP PatternPart.isSubject = 1) :
    ∃ before after, t = before ++ m'.subject ++ after ∧ (IsQuoted m'.subject ∨ IsBare m'.subject) ∧
      (∀ c ∈ before, OwnUnit parts c) ∧ ∀ c ∈ after, OwnUnit parts c := by
  induction h with
  | nil => exact absurd hparts (by simp)
  | @cons part parts m m₁ m₂ lead rest hpart hrest ih =>
    by_cases hsubject : part.isSubject = true
    · rw [List.countP_cons_of_pos hsubject, Nat.add_eq_right] at hparts
      obtain ⟨hraw, hform⟩ := hpart.raw hsubject
      obtain ⟨hkept, hown⟩ := hrest.own hparts
      rw [hkept, hraw]
      exact ⟨[], rest, by simp, hform, by simp, fun c hc => (hown c hc).cons⟩
    · rw [List.countP_cons_of_neg hsubject] at hparts
      obtain ⟨before, after, rfl, hform, hbefore, hafter⟩ := ih hparts
      have hlead := (hpart.own parts (by simpa using hsubject)).2
      refine ⟨lead ++ before, after, by simp, hform, fun c hc => ?_, fun c hc => (hafter c hc).cons⟩
      rcases List.mem_append.1 hc with hc | hc
      · exact hlead c hc
      · exact (hbefore c hc).cons

end Spelling

/-- The units that stand for something else than themselves, in a shell or as a mark. -/
def specialUnits : List CodeUnit :=
  [markUnit, '\x22', '\x27', '\\', ';', '&', '|', '<', '>', '\x60', '$', '(']

/-- The words of the known commands have no special unit. -/
theorem CommandPattern.not_special {pattern : CommandPattern} (h : pattern ∈ all) {c : CodeUnit}
    (hc : OwnUnit pattern.parts c) : c ∉ specialUnits := by
  intro hmem
  rcases hc with hspace | ⟨part, hpart, hc⟩
  · have hblanks : specialUnits.any CodeUnit.isSpace = false := by decide
    exact List.any_eq_false.1 hblanks c hmem hspace
  · have hwords : (all.all fun pattern => pattern.parts.all fun part =>
        !part.units.any specialUnits.contains) = true := by decide
    have hunits := List.all_eq_true.1 (List.all_eq_true.1 hwords pattern h) part hpart
    rw [Bool.not_eq_true', List.any_eq_false] at hunits
    exact hunits c hc (List.contains_iff_mem.2 hmem)

theorem CommandPattern.one_subject : ∀ pattern ∈ all, pattern.parts.countP PatternPart.isSubject = 1 := by
  decide

end Cookbook
