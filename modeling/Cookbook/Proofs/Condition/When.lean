import Cookbook.Condition.Render
import Cookbook.Proofs.Condition.Truth
import Cookbook.Proofs.Phrase

/-!
Rendered conditions keep their structure. In a `when` expression `not` binds tighter than `and`, and
`and` tighter than `or`. The text of a condition is a phrase of these signs, of parentheses and of the
texts of conditions without members, and the phrase can be read in one way only.

* `phrase` is the text of a condition with its operands marked, `text_phrase` says that it is the text;
* `reading` is the tree of a condition, `matches_reading` says that it fits the levels of the signs;
* `render_reads_as_condition` puts these together.
-/

namespace Cookbook

open Phrase

namespace When

/-! ### Phrases -/

inductive Symbol where
  /-- The text of a condition without members. -/
  | operand (c : Condition)
  | opener
  | closer
  | not
  | and
  | or

def Symbol.text : Symbol → Text
  | operand c => c.render
  | opener => "("
  | closer => ")"
  | not => "not "
  | and => " and "
  | or => " or "

def grammar : Grammar Symbol where
  role
    | .operand _ => .operand
    | .opener => .opens
    | .closer => .closes
    | .not => .sign 2
    | .and => .sign 1
    | .or => .sign 0
  fixity
    | 2 => .before
    | _ => .left

/-- The truth of a reading, given which operands hold. -/
def value (σ : Condition → Bool) : Phrase.Tree Symbol → Bool :=
  Tree.eval {
    leaf := fun | .operand c => σ c | _ => false
    group := fun _ v _ => v
    join := fun v s w => match s with | .and => v && w | _ => v || w
    before := fun _ v => !v
    after := fun v _ => v }

def grouped (c : Condition) (symbols : List Symbol) : List Symbol :=
  if c.needsGroup then .opener :: (symbols ++ [.closer]) else symbols

mutual

def phrase : Condition → List Symbol
  | .not c => .not :: grouped c (phrase c)
  | .all cs => [.and].intercalate (phraseParts cs)
  | .any cs => [.or].intercalate (phraseParts cs)
  | c => [.operand c]

def phraseParts : List Condition → List (List Symbol)
  | [] => []
  | c :: rest => grouped c (phrase c) :: phraseParts rest

end

def text (symbols : List Symbol) : Text := symbols.flatMap Symbol.text

theorem text_grouped {c : Condition} {symbols : List Symbol} (h : text symbols = c.render) :
    text (grouped c symbols) = c.group c.render := by
  unfold grouped Condition.group
  split
  · rw [← h]
    simp [text, Symbol.text]
  · exact h

theorem phraseParts_eq (cs : List Condition) : phraseParts cs = cs.map fun c => grouped c (phrase c) := by
  induction cs with
  | nil => rfl
  | cons c rest ih => rw [phraseParts, ih, List.map_cons]

theorem renderParts_eq (cs : List Condition) : renderParts cs = cs.map fun c => c.group c.render := by
  induction cs with
  | nil => rfl
  | cons c rest ih => rw [renderParts, ih, List.map_cons]

theorem text_intercalate (s : Symbol) (parts : List (List Symbol)) :
    text ([s].intercalate parts) = Text.join s.text (parts.map text) :=
  flatMap_intercalate Symbol.text s parts

/-- The symbols of a condition spell its text. -/
theorem text_phrase (c : Condition) : text (phrase c) = c.render := by
  have hparts : ∀ cs : List Condition, (∀ c ∈ cs, text (phrase c) = c.render) →
      (phraseParts cs).map text = renderParts cs := by
    intro cs ih
    rw [phraseParts_eq, renderParts_eq, List.map_map]
    exact List.map_congr_left fun c hc => text_grouped (ih c hc)
  induction c using Condition.members_ind with
  | not c ih =>
    have htext : text (phrase (.not c)) = "not " ++ text (grouped c (phrase c)) := by
      rw [phrase]
      rfl
    rw [htext, text_grouped ih, Condition.render]
  | all cs ih =>
    rw [phrase, text_intercalate, hparts cs ih, Condition.render]
    rfl
  | any cs ih =>
    rw [phrase, text_intercalate, hparts cs ih, Condition.render]
    rfl
  | const | test | compare | truthy | verbatim => simp [phrase, text, Symbol.text]

/-! ### Readings -/

def groupedTree (c : Condition) (t : Phrase.Tree Symbol) : Phrase.Tree Symbol :=
  if c.needsGroup then .group .opener t .closer else t

mutual

/-- The tree of a condition, with its parts in parentheses where the text has them. -/
def reading : Condition → Phrase.Tree Symbol
  | .not c => .before .not (groupedTree c (reading c))
  | .all cs =>
    match readings cs with
    | [] => .leaf (.operand (.all cs))
    | t :: ts => Tree.joinAll .and t ts
  | .any cs =>
    match readings cs with
    | [] => .leaf (.operand (.any cs))
    | t :: ts => Tree.joinAll .or t ts
  | c => .leaf (.operand c)

def readings : List Condition → List (Phrase.Tree Symbol)
  | [] => []
  | c :: rest => groupedTree c (reading c) :: readings rest

end

mutual

/-- Whether each conjunction and disjunction in a condition has members. -/
def isProper : Condition → Bool
  | .not c => isProper c
  | .all cs => !cs.isEmpty && areProper cs
  | .any cs => !cs.isEmpty && areProper cs
  | _ => true

def areProper : List Condition → Bool
  | [] => true
  | c :: rest => isProper c && areProper rest

end

theorem areProper_iff (cs : List Condition) : areProper cs = true ↔ ∀ c ∈ cs, isProper c = true := by
  induction cs with
  | nil => simp [areProper]
  | cons c rest ih => simp [areProper, ih]

theorem proper_ind {motive : Condition → Prop}
    (leaf : ∀ c, phrase c = [.operand c] → reading c = .leaf (.operand c) →
      (∀ σ, c.holds σ = σ c) → motive c)
    (not : ∀ c, motive c → motive (.not c))
    (all : ∀ c cs, (∀ d ∈ c :: cs, motive d) → motive (.all (c :: cs)))
    (any : ∀ c cs, (∀ d ∈ c :: cs, motive d) → motive (.any (c :: cs)))
    {c : Condition} (h : isProper c = true) : motive c := by
  induction c using Condition.members_ind with
  | not c ih => exact not c (ih h)
  | all cs ih =>
    simp only [isProper, Bool.and_eq_true, areProper_iff] at h
    cases cs with
    | nil => exact absurd h.1 (by decide)
    | cons c cs => exact all c cs fun d hd => ih d hd (h.2 d hd)
  | any cs ih =>
    simp only [isProper, Bool.and_eq_true, areProper_iff] at h
    cases cs with
    | nil => exact absurd h.1 (by decide)
    | cons c cs => exact any c cs fun d hd => ih d hd (h.2 d hd)
  | const | test | compare | truthy | verbatim =>
    exact leaf _ (by rw [phrase] <;> simp) (by rw [reading] <;> simp) fun σ => by simp [Condition.holds]

theorem readings_eq (cs : List Condition) :
    readings cs = cs.map fun c => groupedTree c (reading c) := by
  induction cs with
  | nil => rfl
  | cons c rest ih => rw [readings, ih, List.map_cons]

theorem value_joinAll_and (σ : Condition → Bool) (t : Phrase.Tree Symbol) (ts : List (Phrase.Tree Symbol)) :
    value σ (Tree.joinAll .and t ts) = ((t :: ts).map (value σ)).all id := by
  induction ts generalizing t with
  | nil => simp [Tree.joinAll]
  | cons u ts ih =>
    have hstep : value σ (.join t .and u) = (value σ t && value σ u) := rfl
    have hnext := ih (.join t .and u)
    rw [List.map_cons, List.all_cons, hstep, id_eq, Bool.and_assoc] at hnext
    exact hnext

theorem value_joinAll_or (σ : Condition → Bool) (t : Phrase.Tree Symbol) (ts : List (Phrase.Tree Symbol)) :
    value σ (Tree.joinAll .or t ts) = ((t :: ts).map (value σ)).any id := by
  induction ts generalizing t with
  | nil => simp [Tree.joinAll]
  | cons u ts ih =>
    have hstep : value σ (.join t .or u) = (value σ t || value σ u) := rfl
    have hnext := ih (.join t .or u)
    rw [List.map_cons, List.any_cons, hstep, id_eq, Bool.or_assoc] at hnext
    exact hnext

/-- The tree belongs to the condition, and binds at least as tightly as the level asks. -/
structure Matches (k : Nat) (c : Condition) (symbols : List Symbol) (t : Phrase.Tree Symbol) : Prop where
  symbols : t.symbols = symbols
  fits : Fits grammar k t
  value : ∀ σ, value σ t = c.holds σ

/-- A part that stands without parentheses binds as tightly as a negation. -/
theorem Matches.part {c : Condition} (h : Matches 0 c (phrase c) (reading c))
    (hbare : c.needsGroup = false → Fits grammar 2 (reading c)) :
    Matches 2 c (grouped c (phrase c)) (groupedTree c (reading c)) := by
  unfold grouped groupedTree
  split
  · exact ⟨by rw [Tree.symbols, h.symbols], .group rfl rfl h.fits, h.value⟩
  · rename_i hgroup
    exact ⟨h.symbols, hbare (by simpa using hgroup), h.value⟩

section Members

variable {c : Condition} {cs : List Condition}

theorem parts_symbols (h : ∀ d ∈ c :: cs, Matches 2 d (grouped d (phrase d)) (groupedTree d (reading d))) :
    (readings (c :: cs)).map Tree.symbols = phraseParts (c :: cs) := by
  rw [readings_eq, phraseParts_eq, List.map_map]
  exact List.map_congr_left fun d hd => (h d hd).symbols

theorem parts_value {σ : Condition → Bool}
    (h : ∀ d ∈ c :: cs, Matches 2 d (grouped d (phrase d)) (groupedTree d (reading d))) :
    (readings (c :: cs)).map (value σ) = (c :: cs).map (·.holds σ) := by
  rw [readings_eq, List.map_map]
  exact List.map_congr_left fun d hd => (h d hd).value σ

theorem matches_joined {s : Symbol} {n : Nat} {whole : Condition} (hs : grammar.role s = .sign n)
    (hn : grammar.fixity n = .left) (hle : n ≤ 1)
    (h : ∀ d ∈ c :: cs, Matches 2 d (grouped d (phrase d)) (groupedTree d (reading d)))
    (hphrase : phrase whole = [s].intercalate (phraseParts (c :: cs)))
    (hreading : reading whole = Tree.joinAll s (groupedTree c (reading c)) (readings cs))
    (hvalue : ∀ σ, value σ (reading whole) = whole.holds σ) :
    Matches 0 whole (phrase whole) (reading whole) := by
  refine ⟨?_, ?_, hvalue⟩
  · rw [hreading, Tree.symbols_joinAll, hphrase, ← parts_symbols h, readings]
  · rw [hreading]
    refine Fits.mono (.joinAll hs hn ((h c List.mem_cons_self).fits.mono (by omega)) ?_) (Nat.zero_le n)
    rw [readings_eq, List.forall_mem_map]
    exact fun d hd => (h d (List.mem_cons_of_mem _ hd)).fits.mono (by omega)

theorem matches_all (h : ∀ d ∈ c :: cs, Matches 2 d (grouped d (phrase d)) (groupedTree d (reading d))) :
    Matches 0 (.all (c :: cs)) (phrase (.all (c :: cs))) (reading (.all (c :: cs))) := by
  have hreading : reading (.all (c :: cs)) = Tree.joinAll .and (groupedTree c (reading c)) (readings cs) := by
    rw [reading, readings]
  refine matches_joined rfl rfl (Nat.le_refl 1) h (by rw [phrase]) hreading fun σ => ?_
  rw [hreading, value_joinAll_and, ← readings, parts_value h, List.all_map, Condition.holds_all]
  rfl

theorem matches_any (h : ∀ d ∈ c :: cs, Matches 2 d (grouped d (phrase d)) (groupedTree d (reading d))) :
    Matches 0 (.any (c :: cs)) (phrase (.any (c :: cs))) (reading (.any (c :: cs))) := by
  have hreading : reading (.any (c :: cs)) = Tree.joinAll .or (groupedTree c (reading c)) (readings cs) := by
    rw [reading, readings]
  refine matches_joined rfl rfl (Nat.zero_le 1) h (by rw [phrase]) hreading fun σ => ?_
  rw [hreading, value_joinAll_or, ← readings, parts_value h, List.any_map, Condition.holds_any]
  rfl

end Members

/-- The tree of a condition spells its text and has its truth. -/
theorem matches_reading {c : Condition} (h : isProper c = true) :
    Matches 0 c (phrase c) (reading c) ∧ (c.needsGroup = false → Fits grammar 2 (reading c)) := by
  refine proper_ind (motive := fun c => Matches 0 c (phrase c) (reading c) ∧
    (c.needsGroup = false → Fits grammar 2 (reading c))) ?leaf ?not ?all ?any h
  case leaf =>
    intro c hphrase hreading hholds
    rw [hphrase, hreading]
    exact ⟨⟨rfl, .leaf rfl, fun σ => (hholds σ).symm⟩, fun _ => .leaf rfl⟩
  case not =>
    intro c ih
    have hpart := ih.1.part ih.2
    rw [phrase, reading]
    have hfits : Fits grammar 2 (.before .not (groupedTree c (reading c))) :=
      .before rfl rfl (Nat.le_refl 2) hpart.fits
    refine ⟨⟨by rw [Tree.symbols, hpart.symbols], hfits.mono (by decide), fun σ => ?_⟩, fun _ => hfits⟩
    rw [Condition.holds, ← hpart.value σ]
    rfl
  case all =>
    intro c cs ih
    exact ⟨matches_all fun d hd => (ih d hd).1.part (ih d hd).2,
      fun hgroup => absurd hgroup (by simp [Condition.needsGroup])⟩
  case any =>
    intro c cs ih
    exact ⟨matches_any fun d hd => (ih d hd).1.part (ih d hd).2,
      fun hgroup => absurd hgroup (by simp [Condition.needsGroup])⟩

/-- The text of a condition has one reading, and it has the truth of the condition. -/
theorem render_reads_as_condition {c : Condition} (h : isProper c = true) :
    text (phrase c) = c.render ∧
      ∃ t, (∀ u, Reads grammar (phrase c) u ↔ u = t) ∧ ∀ σ, value σ t = c.holds σ := by
  obtain ⟨hmatches, -⟩ := matches_reading h
  have hreads : Reads grammar (phrase c) (reading c) := ⟨hmatches.fits, hmatches.symbols⟩
  refine ⟨text_phrase c, reading c, fun u => ?_, hmatches.value⟩
  constructor
  · exact fun hu => hu.unique hreads
  · rintro rfl
    exact hreads

/-- A negated disjunction of a conjunction, a negated comparison and a double negation. -/
theorem render_reads_as_condition_nested :
    let a : Condition := .truthy (.path .node ["a"])
    let c : Condition := .not (.any [.all [a, .not (.compare (.path .node ["b"]) .eq .nil)], .not (.not a)])
    isProper c = true ∧ text (phrase c) = c.render ∧
      ∃ t, (∀ u, Reads grammar (phrase c) u ↔ u = t) ∧ ∀ σ, value σ t = c.holds σ :=
  ⟨by decide, render_reads_as_condition (by decide)⟩

end When

end Cookbook
