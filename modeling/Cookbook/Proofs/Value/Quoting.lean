import Cookbook.Proofs.Number.Spelling
import Cookbook.Proofs.Value.Reporting
import Cookbook.Value.Render

/-!
Quoted pieces of an expression. Texts, keys of paths that are no names, and keys of hashes stand in
single quotes, and a backslash in a string takes the next unit as it is. Texts are escaped for this and
keys are not, so a key with a quote or a backslash is read as another one, or ends where it should not.

* `QuoteScan` goes through an expression, `quotedContents?` is what it finds;
* `Value.quotedPieces` are the pieces that the expression of a value quotes;
* `Quotes` sets a text against its pieces: it is read as them when the keys are plain, and as something
  else when one is not. `Value.quotes_expression` is the induction on the value;
* `quotedContents?_expression_iff` is the result.
-/

namespace Cookbook

/-! ### Expressions of lists -/

theorem expressions_eq (vs : List Value) : expressions vs = vs.map Value.expression := by
  induction vs with
  | nil => rfl
  | cons v rest ih => rw [expressions, ih, List.map_cons]

theorem entryExpressions_eq (entries : List Entry) :
    entryExpressions entries =
      entries.map fun e => e.key.quoted ++ (": " : Text) ++ e.value.expression := by
  induction entries with
  | nil => rfl
  | cons e rest ih =>
    obtain ⟨key, v⟩ := e
    rw [entryExpressions, ih, List.map_cons]

/-! ### Strings -/

abbrev quoteMark : CodeUnit := '\x27'

/-- The unit that takes the next one into a string as it is. -/
abbrev escapeMark : CodeUnit := '\\'

/-- Where a scan of an expression stands: outside of strings, or in one with the content so far, perhaps
right behind a backslash. -/
inductive Spot where
  | outside
  | inside (content : Text)
  | escaped (content : Text)
deriving DecidableEq

namespace Spot

/-- One unit further. A quote begins and ends a string, and a backslash in it takes the next unit as it
is. -/
def next : Spot → CodeUnit → Spot
  | outside, c => if c = quoteMark then inside [] else outside
  | inside t, c =>
    if c = quoteMark then outside else if c = escapeMark then escaped t else inside (t ++ [c])
  | escaped t, c => inside (t ++ [c])

/-- The content of the string that a unit ends. -/
def ended? : Spot → CodeUnit → Option Text
  | inside t, c => if c = quoteMark then some t else none
  | _, _ => none

end Spot

/-! ### Scanning -/

/-- A scan of an expression: where it stands, the brackets that are open, the last first, and the
contents of the strings that have ended. -/
structure QuoteScan where
  spot : Spot
  openers : Text
  contents : List Text

namespace QuoteScan

def openerOf? (c : CodeUnit) : Option CodeUnit :=
  if c = ')' then some '(' else if c = ']' then some '[' else if c = '\x7d' then some '\x7b' else none

/-- The open brackets, the last first, after one more unit. A closing bracket must close the last. -/
def nesting (openers : Text) (c : CodeUnit) : Option Text :=
  if c = '(' ∨ c = '[' ∨ c = '\x7b' then some (c :: openers)
  else match openerOf? c with
    | none => some openers
    | some opener => if openers.head? = some opener then some openers.tail else none

/-- One unit further; brackets count outside of strings. -/
def step (s : QuoteScan) (c : CodeUnit) : Option QuoteScan :=
  let contents := s.contents ++ (s.spot.ended? c).toList
  match s.spot with
  | .outside => (nesting s.openers c).map fun openers => ⟨s.spot.next c, openers, contents⟩
  | _ => some ⟨s.spot.next c, s.openers, contents⟩

/-- The scan of a text, when no bracket in it closes another one than the last. -/
def run (s : QuoteScan) (t : Text) : Option QuoteScan := t.foldlM step s

end QuoteScan

/-- The contents of the strings in an expression, in order, when it ends outside of strings and its
brackets are balanced. -/
def quotedContents? (expression : Text) : Option (List Text) :=
  match QuoteScan.run ⟨.outside, [], []⟩ expression with
  | some ⟨.outside, [], contents⟩ => some contents
  | _ => none

namespace QuoteScan

theorem run_cons (s : QuoteScan) (c : CodeUnit) (t : Text) : s.run (c :: t) = (s.step c).bind (·.run t) :=
  List.foldlM_cons

theorem run_append (s : QuoteScan) (a b : Text) : s.run (a ++ b) = (s.run a).bind (·.run b) :=
  List.foldlM_append

theorem contents_prefix_of_run {s r : QuoteScan} {t : Text} (h : s.run t = some r) :
    s.contents <+: r.contents := by
  induction t generalizing s with
  | nil =>
    obtain rfl := Option.some.inj h
    exact List.prefix_rfl
  | cons c rest ih =>
    rw [run_cons] at h
    obtain ⟨mid, hstep, hrun⟩ := Option.bind_eq_some_iff.1 h
    have hmid : s.contents <+: mid.contents := by
      unfold step at hstep
      split at hstep
      · obtain ⟨openers, -, rfl⟩ := Option.map_eq_some_iff.1 hstep
        exact List.prefix_append _ _
      · obtain rfl := Option.some.inj hstep
        exact List.prefix_append _ _
    exact hmid.trans (ih hrun)

section Steps

variable (w : Text) (openers : Text) (contents : List Text)

theorem step_escaped (c : CodeUnit) :
    step ⟨.escaped w, openers, contents⟩ c = some ⟨.inside (w ++ [c]), openers, contents⟩ := by
  simp [step, Spot.next, Spot.ended?]

theorem step_inside_quote :
    step ⟨.inside w, openers, contents⟩ quoteMark = some ⟨.outside, openers, contents ++ [w]⟩ := by
  simp [step, Spot.next, Spot.ended?]

theorem step_inside_backslash :
    step ⟨.inside w, openers, contents⟩ escapeMark = some ⟨.escaped w, openers, contents⟩ := by
  have hne : escapeMark ≠ quoteMark := by decide
  simp [step, Spot.next, Spot.ended?, hne]

variable {c : CodeUnit}

theorem step_inside (hquote : c ≠ quoteMark) (hbackslash : c ≠ escapeMark) :
    step ⟨.inside w, openers, contents⟩ c = some ⟨.inside (w ++ [c]), openers, contents⟩ := by
  simp [step, Spot.next, Spot.ended?, hquote, hbackslash]

theorem step_outside_quote :
    step ⟨.outside, openers, contents⟩ quoteMark = some ⟨.inside [], openers, contents⟩ := by
  have hnest : nesting openers quoteMark = some openers := rfl
  simp [step, Spot.next, Spot.ended?, hnest]

theorem step_outside (hquote : c ≠ quoteMark) :
    step ⟨.outside, openers, contents⟩ c =
      (nesting openers c).map fun openers => ⟨.outside, openers, contents⟩ := by
  simp [step, Spot.next, Spot.ended?, hquote]

end Steps

/-! ### Reading a string -/

section Strings

variable {w : Text} {openers : Text} {contents : List Text} {r : QuoteScan}

/-- A unit as it stands in an escaped text. -/
def escapeUnit (c : CodeUnit) : Text :=
  if c = escapeMark then "\\\\" else if c = quoteMark then "\\'" else [c]

theorem quotedString_eq (t : Text) : quotedString t = Text.quoted (t.flatMap escapeUnit) := by
  unfold quotedString Text.replaceUnit
  rw [List.flatMap_assoc]
  congr 1
  refine List.flatMap_congr fun c _ => ?_
  unfold escapeUnit
  by_cases hbackslash : c = escapeMark
  · subst hbackslash
    decide
  · rw [if_neg hbackslash, if_neg hbackslash, List.flatMap_singleton]

theorem run_escaped (t rest : Text) :
    run ⟨.inside w, openers, contents⟩ (t.flatMap escapeUnit ++ rest) =
      run ⟨.inside (w ++ t), openers, contents⟩ rest := by
  induction t generalizing w with
  | nil => simp
  | cons c t ih =>
    have hunit : ∀ more, run ⟨.inside w, openers, contents⟩ (escapeUnit c ++ more) =
        run ⟨.inside (w ++ [c]), openers, contents⟩ more := by
      intro more
      have htwo : ∀ d : CodeUnit, run ⟨.inside w, openers, contents⟩ (escapeMark :: d :: more) =
          run ⟨.inside (w ++ [d]), openers, contents⟩ more := by
        intro d
        rw [run_cons, step_inside_backslash, Option.bind_some, run_cons, step_escaped, Option.bind_some]
      unfold escapeUnit
      split
      · rename_i h
        rw [h]
        exact htwo _
      · split
        · rename_i h
          rw [h]
          exact htwo _
        · rename_i hbackslash hquote
          rw [List.singleton_append, run_cons, step_inside w openers contents hquote hbackslash,
            Option.bind_some]
    rw [List.flatMap_cons, List.append_assoc, hunit, ih, List.append_assoc, List.singleton_append]

/-- A text without quotes and backslashes is read as it is. -/
theorem run_plain {t : Text} (h : ∀ c ∈ t, c ≠ quoteMark ∧ c ≠ escapeMark) (rest : Text) :
    run ⟨.inside w, openers, contents⟩ (t ++ rest) = run ⟨.inside (w ++ t), openers, contents⟩ rest := by
  induction t generalizing w with
  | nil => simp
  | cons c t ih =>
    obtain ⟨⟨hquote, hbackslash⟩, hrest⟩ := List.forall_mem_cons.1 h
    rw [List.cons_append, run_cons, step_inside w openers contents hquote hbackslash, Option.bind_some,
      ih hrest, List.append_assoc, List.singleton_append]

theorem getElem?_contents (h : contents ++ [w] <+: r.contents) : r.contents[contents.length]? = some w := by
  obtain ⟨more, hmore⟩ := h
  rw [← hmore]
  simp

end Strings

/-- The string that a scan is in, with `w` read of it and `t` ahead, ends and has a content. -/
def EndsAs (w t content : Text) : Prop :=
  ∃ openers contents r, run ⟨.inside w, openers, contents⟩ t = some r ∧
    r.contents[contents.length]? = some content

section Content

variable {w t content : Text} {c : CodeUnit}

theorem EndsAs.quote (h : EndsAs w (quoteMark :: t) content) : content = w := by
  obtain ⟨openers, contents, r, hrun, hcontent⟩ := h
  rw [run_cons, step_inside_quote, Option.bind_some] at hrun
  rw [getElem?_contents (contents_prefix_of_run hrun)] at hcontent
  exact (Option.some.inj hcontent).symm

theorem EndsAs.escape (h : EndsAs w (escapeMark :: c :: t) content) : EndsAs (w ++ [c]) t content := by
  obtain ⟨openers, contents, r, hrun, hcontent⟩ := h
  rw [run_cons, step_inside_backslash, Option.bind_some, run_cons, step_escaped, Option.bind_some] at hrun
  exact ⟨openers, contents, r, hrun, hcontent⟩

theorem EndsAs.unit (hquote : c ≠ quoteMark) (hbackslash : c ≠ escapeMark)
    (h : EndsAs w (c :: t) content) : EndsAs (w ++ [c]) t content := by
  obtain ⟨openers, contents, r, hrun, hcontent⟩ := h
  rw [run_cons, step_inside w openers contents hquote hbackslash, Option.bind_some] at hrun
  exact ⟨openers, contents, r, hrun, hcontent⟩

theorem not_endsAs_nil : ¬ EndsAs w [] content := by
  rintro ⟨openers, contents, r, hrun, hcontent⟩
  obtain rfl := Option.some.inj hrun
  simp at hcontent

theorem not_endsAs_escape : ¬ EndsAs w [escapeMark] content := by
  rintro ⟨openers, contents, r, hrun, hcontent⟩
  rw [run_cons, step_inside_backslash] at hrun
  obtain rfl := Option.some.inj hrun
  simp at hcontent

/-- The content starts with what was read of it. -/
theorem EndsAs.isPrefix (h : EndsAs w t content) : w <+: content := by
  induction hlength : t.length using Nat.strong_induction_on generalizing t w with
  | _ length ih =>
    cases t with
    | nil => exact absurd h not_endsAs_nil
    | cons c t =>
      have hmore : ∀ {d : CodeUnit} {more : Text}, EndsAs (w ++ [d]) more content →
          more.length < length → w <+: content :=
        fun hd hlt => (List.prefix_append _ _).trans (ih _ hlt hd rfl)
      by_cases hquote : c = quoteMark
      · subst hquote
        rw [h.quote]
      · by_cases hbackslash : c = escapeMark
        · subst hbackslash
          cases t with
          | nil => exact absurd h not_endsAs_escape
          | cons d t => exact hmore h.escape (by simp only [List.length_cons] at hlength; omega)
        · exact hmore (h.unit hquote hbackslash) (by simp only [List.length_cons] at hlength; omega)

/-- The next unit that is read is the next one of the content. -/
theorem EndsAs.head? {more : Text} (h : EndsAs (w ++ [c]) t (w ++ more)) : more.head? = some c := by
  obtain ⟨rest, hrest⟩ := h.isPrefix
  rw [List.append_assoc] at hrest
  rw [← List.append_cancel_left hrest]
  rfl

/-- A reading that is behind a content with backslashes first does not catch up: a backslash takes a unit
that must be a backslash of the content too, and leaves it one more behind. -/
theorem not_endsAs_behind {k rest : Text} (behind : Nat) :
    ¬ EndsAs w (k ++ quoteMark :: rest) (w ++ escapeMark :: (List.replicate behind escapeMark ++ k)) := by
  intro h
  induction hlength : k.length using Nat.strong_induction_on generalizing k w behind with
  | _ length ih =>
    cases k with
    | nil => simpa using h.quote
    | cons c k =>
      by_cases hquote : c = quoteMark
      · subst hquote
        simpa using EndsAs.quote h
      · by_cases hbackslash : c = escapeMark
        · subst hbackslash
          cases k with
          | nil => exact absurd (Option.some.inj (EndsAs.escape h).head?) (by decide)
          | cons d k =>
            obtain rfl : escapeMark = d := Option.some.inj (EndsAs.escape h).head?
            have hbehind : List.replicate behind escapeMark ++ escapeMark :: escapeMark :: k =
                escapeMark :: (List.replicate (behind + 1) escapeMark ++ k) := by
              rw [List.append_cons, ← List.replicate_succ', List.replicate_succ, List.cons_append,
                List.append_cons, ← List.replicate_succ', List.replicate_succ]
            rw [hbehind, List.append_cons w] at h
            have hlt : k.length < length := by
              simp only [List.length_cons] at hlength
              omega
            exact ih _ hlt (behind + 1) (EndsAs.escape h) rfl
        · exact hbackslash (Option.some.inj (EndsAs.unit hquote hbackslash h).head?).symm

/-- What is read of a key between quotes is the key only when it is plain. -/
theorem EndsAs.isPlain {k rest : Text} (h : EndsAs w (k ++ quoteMark :: rest) (w ++ k)) :
    ∀ c ∈ k, c ≠ quoteMark ∧ c ≠ escapeMark := by
  induction k generalizing w with
  | nil => simp
  | cons c k ih =>
    by_cases hquote : c = quoteMark
    · subst hquote
      simpa using EndsAs.quote h
    · by_cases hbackslash : c = escapeMark
      · subst hbackslash
        cases k with
        | nil => exact absurd (Option.some.inj (EndsAs.escape h).head?) (by decide)
        | cons d k =>
          obtain rfl : escapeMark = d := Option.some.inj (EndsAs.escape h).head?
          rw [List.append_cons w] at h
          exact absurd (EndsAs.escape h) (not_endsAs_behind 0)
      · have hunit := EndsAs.unit hquote hbackslash h
        rw [List.append_cons w c k] at hunit
        exact List.forall_mem_cons.2 ⟨⟨hquote, hbackslash⟩, ih hunit⟩

end Content

end QuoteScan

/-! ### Pieces -/

/-- A piece that an expression quotes: a text, or a key of a path or of a hash. -/
inductive QuotedPiece where
  | literal (t : Text)
  | key (t : Text)

namespace QuotedPiece

def text : QuotedPiece → Text
  | literal t => t
  | key t => t

def written : QuotedPiece → Text
  | literal t => quotedString t
  | key t => t.quoted

/-- A text is safe whatever is in it, a key when it has no quote and no backslash. -/
def IsSafe : QuotedPiece → Prop
  | literal _ => True
  | key t => ∀ c ∈ t, c ≠ quoteMark ∧ c ≠ escapeMark

end QuotedPiece

/-- The keys of a path that are no names, which it quotes. -/
def quotedKeys (keys : List Text) : List QuotedPiece := (keys.filter (!·.isName)).map .key

theorem quotedKeys_append (keys more : List Text) :
    quotedKeys (keys ++ more) = quotedKeys keys ++ quotedKeys more := by
  rw [quotedKeys, List.filter_append, List.map_append]
  rfl

theorem quotedKeys_name {key : Text} (h : key.isName = true) : quotedKeys [key] = [] := by
  simp [quotedKeys, h]

theorem quotedKeys_not_name {key : Text} (h : ¬ key.isName = true) : quotedKeys [key] = [.key key] := by
  simp [quotedKeys, h]

mutual

/-- The pieces that the expression of a value quotes, from left to right: its texts, the keys of its
paths that are no names, and the keys of its hashes. -/
def Value.quotedPieces : Value → List QuotedPiece
  | .literal (.text t) => [.literal t]
  | .symbol name => [.literal name]
  | .path _ keys => quotedKeys keys
  | .interpolation segments => quotedPiecesIn segments
  | .list items => quotedPiecesIn items
  | .map entries => quotedPiecesOf entries
  | _ => []

def quotedPiecesIn : List Value → List QuotedPiece
  | [] => []
  | v :: rest => v.quotedPieces ++ quotedPiecesIn rest

def quotedPiecesOf : List Entry → List QuotedPiece
  | [] => []
  | ⟨key, v⟩ :: rest => .key key :: v.quotedPieces ++ quotedPiecesOf rest

end

theorem quotedPiecesIn_eq (values : List Value) :
    quotedPiecesIn values = values.flatMap Value.quotedPieces := by
  induction values with
  | nil => rfl
  | cons v rest ih => rw [quotedPiecesIn, ih, List.flatMap_cons]

theorem quotedPiecesOf_eq (entries : List Entry) :
    quotedPiecesOf entries = entries.flatMap fun e => .key e.key :: e.value.quotedPieces := by
  induction entries with
  | nil => rfl
  | cons e rest ih =>
    obtain ⟨key, v⟩ := e
    rw [quotedPiecesOf, ih, List.flatMap_cons]

/-! ### Texts without marks -/

/-- The units with a meaning outside of strings: the quote and the brackets. -/
def expressionMarks : Text := [quoteMark, '(', ')', '[', ']', '\x7b', '\x7d']

/-- A text has neither a quote nor a bracket. -/
def Unmarked (t : Text) : Prop := ∀ c ∈ t, c ∉ expressionMarks

instance (t : Text) : Decidable (Unmarked t) := List.decidableBAll (· ∉ expressionMarks) t

theorem Unmarked.append {a b : Text} (ha : Unmarked a) (hb : Unmarked b) : Unmarked (a ++ b) :=
  List.forall_mem_append.2 ⟨ha, hb⟩

theorem Unmarked.subset {a b : Text} (h : Unmarked b) (hsubset : a ⊆ b) : Unmarked a :=
  fun c hc => h c (hsubset hc)

theorem Unmarked.of_class {p : CodeUnit → Bool} (hp : (expressionMarks.any p) = false) {t : Text}
    (h : ∀ c ∈ t, p c = true) : Unmarked t :=
  fun c hc hmark => List.any_eq_false.1 hp c hmark (h c hc)

theorem unmarked_of_isName {t : Text} (h : t.isName = true) : Unmarked t := by
  refine .of_class (p := CodeUnit.isNameUnit) (by decide) ?_
  cases t with
  | nil => exact absurd h (by decide)
  | cons c rest =>
    obtain ⟨hfirst, hrest⟩ := Bool.and_eq_true_iff.1 h
    refine List.forall_mem_cons.2 ⟨?_, List.all_eq_true.1 hrest⟩
    rw [CodeUnit.isNameUnit, hfirst, Bool.true_or]

theorem Number.unmarked_text (n : Number) : Unmarked n.text := by
  have hdecimal : ∀ {t : Text}, Number.IsDecimal t → Unmarked t := by
    intro t ht
    exact .of_class (p := Number.isDecimalUnit) (by decide) (List.all_eq_true.1 ht.all_isDecimalUnit)
  rcases n.isDecimal_or_minus with h | ⟨t, h, heq⟩
  · exact hdecimal h
  · rw [heq]
    exact Unmarked.append (by decide) (hdecimal h)

/-! ### Expressions and their pieces -/

/-- A text as part of an expression, with the pieces it quotes: it is read as these when they are safe,
and as something else when one is not. -/
structure Quotes (t : Text) (pieces : List QuotedPiece) : Prop where
  reads : (∀ p ∈ pieces, p.IsSafe) → ∀ openers contents,
    QuoteScan.run ⟨.outside, openers, contents⟩ t =
      some ⟨.outside, openers, contents ++ pieces.map QuotedPiece.text⟩
  misreads : (¬ ∀ p ∈ pieces, p.IsSafe) → ∀ openers contents rest r,
    QuoteScan.run ⟨.outside, openers, contents⟩ (t ++ rest) = some r →
      ¬ contents ++ pieces.map QuotedPiece.text <+: r.contents

namespace Quotes

open QuoteScan

variable {a b t : Text} {ps qs : List QuotedPiece}

theorem append (ha : Quotes a ps) (hb : Quotes b qs) : Quotes (a ++ b) (ps ++ qs) where
  reads h openers contents := by
    obtain ⟨hps, hqs⟩ := List.forall_mem_append.1 h
    rw [run_append, ha.reads hps, Option.bind_some, hb.reads hqs, List.map_append, List.append_assoc]
  misreads h openers contents rest r hrun := by
    rw [List.append_assoc] at hrun
    rw [List.map_append, ← List.append_assoc]
    by_cases hps : ∀ p ∈ ps, p.IsSafe
    · have hqs : ¬ ∀ p ∈ qs, p.IsSafe := fun hqs => h (List.forall_mem_append.2 ⟨hps, hqs⟩)
      rw [run_append, ha.reads hps, Option.bind_some] at hrun
      exact hb.misreads hqs _ _ _ _ hrun
    · intro hprefix
      exact ha.misreads hps _ _ _ _ hrun ((List.prefix_append _ _).trans hprefix)

theorem unmarked (h : Unmarked t) : Quotes t [] where
  reads _ openers contents := by
    rw [List.map_nil, List.append_nil]
    induction t with
    | nil => rfl
    | cons c t ih =>
      obtain ⟨hc, ht⟩ := List.forall_mem_cons.1 h
      have hquote : c ≠ quoteMark := fun heq => hc (heq ▸ List.mem_cons_self)
      have hnest : nesting openers c = some openers := by
        simp only [expressionMarks, List.mem_cons, List.not_mem_nil, or_false, not_or] at hc
        simp [nesting, openerOf?, hc]
      rw [run_cons, step_outside openers contents hquote, hnest]
      exact ih ht
  misreads h := absurd (by simp) h

theorem piece (p : QuotedPiece) : Quotes p.written [p] where
  reads h openers contents := by
    have hsafe := List.forall_mem_singleton.1 h
    cases p with
    | literal t =>
      show run _ (quotedString t) = _
      rw [quotedString_eq]
      show run _ (quoteMark :: (t.flatMap escapeUnit ++ [quoteMark])) = _
      rw [run_cons, step_outside_quote, Option.bind_some, run_escaped, run_cons, step_inside_quote]
      rfl
    | key t =>
      show run _ (quoteMark :: (t ++ [quoteMark])) = _
      rw [run_cons, step_outside_quote, Option.bind_some, run_plain hsafe, run_cons, step_inside_quote]
      rfl
  misreads h openers contents rest r hrun hprefix := by
    rw [List.forall_mem_singleton] at h
    cases p with
    | literal t => exact h trivial
    | key t =>
      have htext : (QuotedPiece.key t).written ++ rest = quoteMark :: (t ++ quoteMark :: rest) := by
        show quoteMark :: (t ++ [quoteMark]) ++ rest = _
        rw [List.cons_append, List.append_assoc, List.singleton_append]
      rw [htext, run_cons, step_outside_quote, Option.bind_some] at hrun
      have hends : EndsAs [] (t ++ quoteMark :: rest) ([] ++ t) :=
        ⟨_, _, r, hrun, getElem?_contents hprefix⟩
      exact h hends.isPlain

theorem bracketed (opener closer : CodeUnit) (h : Quotes t ps)
    (hopens : ∀ openers, nesting openers opener = some (opener :: openers))
    (hcloses : ∀ openers, nesting (opener :: openers) closer = some openers)
    (hopener : opener ≠ quoteMark) (hcloser : closer ≠ quoteMark) :
    Quotes (opener :: (t ++ [closer])) ps where
  reads hps openers contents := by
    rw [run_cons, step_outside openers contents hopener, hopens, Option.map_some, Option.bind_some,
      run_append, h.reads hps, Option.bind_some, run_cons, step_outside _ _ hcloser, hcloses]
    rfl
  misreads hps openers contents rest r hrun := by
    rw [List.cons_append, List.append_assoc, run_cons, step_outside openers contents hopener, hopens,
      Option.map_some, Option.bind_some] at hrun
    exact h.misreads hps _ _ _ _ hrun

theorem join {α : Type} {sep : Text} (hsep : Unmarked sep) {f : α → Text} {pieces : α → List QuotedPiece}
    {xs : List α} (h : ∀ x ∈ xs, Quotes (f x) (pieces x)) :
    Quotes (Text.join sep (xs.map f)) (xs.flatMap pieces) := by
  induction xs with
  | nil => exact unmarked (by simp [Text.join, Unmarked])
  | cons x xs ih =>
    obtain ⟨hx, hxs⟩ := List.forall_mem_cons.1 h
    cases xs with
    | nil => simpa [Text.join] using hx
    | cons y xs =>
      have hjoin : Text.join sep ((x :: y :: xs).map f) =
          f x ++ (sep ++ Text.join sep ((y :: xs).map f)) := by
        simp [Text.join, List.intercalate]
      rw [hjoin, List.flatMap_cons]
      exact hx.append ((unmarked hsep).append (ih hxs))

end Quotes

/-! ### Values -/

theorem quotes_bracketedKey (key : Text) : Quotes ("['" ++ key ++ "']") [.key key] := by
  have htext : ("['" ++ key ++ "']" : Text) =
      ('[' : CodeUnit) :: (QuotedPiece.written (.key key) ++ [(']' : CodeUnit)]) := by
    show [('[' : CodeUnit), quoteMark] ++ key ++ [quoteMark, (']' : CodeUnit)] =
      ('[' : CodeUnit) :: ([quoteMark] ++ key ++ [quoteMark] ++ [(']' : CodeUnit)])
    simp
  rw [htext]
  exact (Quotes.piece (.key key)).bracketed '[' ']' (fun _ => rfl) (fun _ => rfl) (by decide) (by decide)

theorem quotes_keyAccess (key : Text) : Quotes (keyAccess key) (quotedKeys [key]) := by
  unfold keyAccess
  split
  · rename_i hname
    rw [quotedKeys_name hname]
    exact .unmarked (Unmarked.append (by decide) (unmarked_of_isName hname))
  · rename_i hname
    rw [quotedKeys_not_name hname]
    exact quotes_bracketedKey key

theorem quotes_variableName (keys : List Text) : Quotes (variableName keys) (quotedKeys keys) := by
  cases keys with
  | nil => exact .unmarked (by decide)
  | cons first rest =>
    have hfirst : Quotes (if first.isName then first else "vars['" ++ first ++ "']") (quotedKeys [first]) := by
      split
      · rename_i hname
        rw [quotedKeys_name hname]
        exact .unmarked (unmarked_of_isName hname)
      · rename_i hname
        rw [quotedKeys_not_name hname]
        exact (Quotes.unmarked (by decide : Unmarked "vars")).append (quotes_bracketedKey first)
    have hrest : Quotes (rest.flatMap keyAccess) (quotedKeys rest) := by
      induction rest with
      | nil => exact .unmarked (by decide)
      | cons key rest ih =>
        rw [List.flatMap_cons, ← List.singleton_append, quotedKeys_append]
        exact (quotes_keyAccess key).append ih
    rw [← List.singleton_append, quotedKeys_append]
    exact hfirst.append hrest

/-- An expression without code kept as written has the pieces of its value. -/
theorem Value.quotes_expression {v : Value} (h : v.verbatims = []) : Quotes v.expression v.quotedPieces := by
  induction v using Value.parts_ind with
  | literal s =>
    cases s with
    | text t => exact Quotes.piece (.literal t)
    | number n => exact .unmarked n.unmarked_text
    | bool b => cases b <;> exact .unmarked (by decide)
    | nil => exact .unmarked (by decide)
  | symbol name => exact Quotes.piece (.literal name)
  | path scope keys => exact quotes_variableName keys
  | interpolation segments ih =>
    rw [verbatims, verbatimsIn_eq, List.flatMap_eq_nil_iff] at h
    rw [expression, expressions_eq, quotedPieces, quotedPiecesIn_eq]
    exact .join (by decide) fun v hv => ih v hv (h v hv)
  | list items ih =>
    rw [verbatims, verbatimsIn_eq, List.flatMap_eq_nil_iff] at h
    rw [expression, expressions_eq, quotedPieces, quotedPiecesIn_eq]
    have hitems : Quotes (Text.join ", " (items.map expression)) (items.flatMap quotedPieces) :=
      .join (by decide) fun v hv => ih v hv (h v hv)
    exact hitems.bracketed '[' ']' (fun _ => rfl) (fun _ => rfl) (by decide) (by decide)
  | map entries ih =>
    rw [verbatims, verbatimsOf_eq, List.flatMap_eq_nil_iff] at h
    rw [expression, entryExpressions_eq, quotedPieces, quotedPiecesOf_eq]
    have hentries : Quotes
        (Text.join ", " (entries.map fun e => e.key.quoted ++ (": " : Text) ++ e.value.expression))
        (entries.flatMap fun e => .key e.key :: e.value.quotedPieces) :=
      .join (by decide) fun e he =>
        ((Quotes.piece (.key e.key)).append (.unmarked (by decide))).append (ih e he (h e he))
    exact hentries.bracketed '\x7b' '\x7d' (fun _ => rfl) (fun _ => rfl) (by decide) (by decide)
  | verbatim raw => cases h

/-- An expression without code kept as written ends outside of strings with its brackets balanced and has
the quoted pieces of its value as its strings exactly when no key in quotes has a quote or a backslash. -/
theorem quotedContents?_expression_iff {v : Value} (h : v.isClear = true) :
    quotedContents? v.expression = some (v.quotedPieces.map QuotedPiece.text) ↔
      ∀ p ∈ v.quotedPieces, p.IsSafe := by
  have hquotes : Quotes v.expression v.quotedPieces := Value.quotes_expression (List.isEmpty_iff.1 h)
  constructor
  · intro hcontents
    by_contra hunsafe
    unfold quotedContents? at hcontents
    split at hcontents
    · rename_i contents hrun
      rw [← List.append_nil v.expression] at hrun
      refine hquotes.misreads hunsafe [] [] [] _ hrun ?_
      rw [Option.some.inj hcontents]
      exact List.prefix_rfl
    · cases hcontents
  · intro hsafe
    have hrun := hquotes.reads hsafe [] []
    unfold quotedContents?
    rw [hrun]
    rfl

/-- The key of a hash with a quote in it ends its string early; a text with one is escaped. -/
theorem quote_in_key_ends_string :
    (Value.map [⟨"it's", .literal (.bool true)⟩]).isClear = true ∧
      quotedContents? (Value.map [⟨"it's", .literal (.bool true)⟩]).expression ≠ some [("it's" : Text)] ∧
      quotedContents? (Value.ofText "it's").expression = some [("it's" : Text)] := by
  have hkey := quotedContents?_expression_iff (v := .map [⟨"it's", .literal (.bool true)⟩]) rfl
  have htext := quotedContents?_expression_iff (v := .ofText "it's") rfl
  refine ⟨rfl, fun h => ?_, htext.2 fun p hp => List.mem_singleton.1 hp ▸ trivial⟩
  exact absurd (hkey.1 h _ List.mem_cons_self quoteMark (by decide)).1 (by decide)

end Cookbook
