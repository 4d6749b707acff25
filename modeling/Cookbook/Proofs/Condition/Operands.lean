import Cookbook.Condition.Render
import Cookbook.Proofs.Condition.Expression

/-!
Operands of rendered conditions. A test, a comparison or the truth of a value is rendered by a template
into which the texts of the values are spliced, and the whole is read as one expression.

* `Value.IsPlain` are the values whose text is an expression by itself, `readsChain_operand` says so, and
  that it is read in as many parts between `~` as the value has;
* `intended?` puts the readings of the values into the tree of a template, `slots` tells how tightly a
  template holds each of its values;
* `reads_as_intended_iff` is the result: the text of a condition is read as intended when each value fits
  its slot, so that filters and tests fail after a value of more than one part.
-/

namespace Cookbook

open Phrase Expression

/-! ### Values -/

/-- A value whose text is an expression by itself: no code kept as written, no interpolation of nothing, keys
that can stand between quotes, and no path that begins with a reserved word. -/
inductive Value.IsPlain : Value → Prop
  | literal (s : Scalar) : IsPlain (.literal s)
  | symbol (name : Text) : IsPlain (.symbol name)
  | path (scope : Scope) {first : Text} {rest : List Text} (hfirst : first ∉ reservedWords)
      (hkeys : ∀ p ∈ quotedKeys (first :: rest), p.IsSafe) : IsPlain (.path scope (first :: rest))
  | interpolation {segments : List Value} (hne : segments ≠ []) (h : ∀ v ∈ segments, IsPlain v) :
      IsPlain (.interpolation segments)
  | list {items : List Value} (h : ∀ v ∈ items, IsPlain v) : IsPlain (.list items)
  | map {entries : List Entry} (hkeys : ∀ e ∈ entries, (QuotedPiece.key e.key).IsSafe)
      (h : ∀ e ∈ entries, IsPlain e.value) : IsPlain (.map entries)

mutual

/-- The number of parts of a value between `~`. -/
def Value.chained : Value → Nat
  | .interpolation segments => chainedIn segments
  | _ => 1

def chainedIn : List Value → Nat
  | [] => 0
  | v :: rest => v.chained + chainedIn rest

end

namespace Operands

theorem join_cons (sep first : Text) (rest : List Text) :
    Text.join sep (first :: rest) = first ++ rest.flatMap (sep ++ ·) := by
  induction rest generalizing first with
  | nil => simp [Text.join, List.intercalate]
  | cons next rest ih =>
    have hstep : Text.join sep (first :: next :: rest) = first ++ (sep ++ Text.join sep (next :: rest)) := by
      simp [Text.join, List.intercalate_cons_cons]
    rw [hstep, ih, List.flatMap_cons, List.append_assoc]

section Joining

variable {p : Place} {a b sep : Text} {as bs : List Symbol} {s : Symbol}

/-- A fixed text that is a sign between two operands. -/
structure Separates (sep : Text) (s : Symbol) : Prop where
  leads : Leads .ended sep [s] .start
  outside : (scan .outside sep).2 = .outside
  breaks : sep.head?.any isBreak = true

theorem Separates.between (hsep : Separates sep s) (ha : Leads p a as .ended)
    (hb : Leads .start b bs .ended) : Leads p (a ++ (sep ++ b)) (as ++ s :: bs) .ended := by
  refine ha.append (hsep.leads.before hsep.outside hb) ?_
  have hbreaks := hsep.breaks
  cases sep with
  | nil => cases hbreaks
  | cons c sep => exact hbreaks

theorem separates_comma : Separates ", " .comma := by constructor <;> decide +kernel

theorem separates_colon : Separates ": " .colon := by constructor <;> decide +kernel

theorem separates_tilde : Separates " ~ " .tilde := by constructor <;> decide +kernel

theorem separates_sign (op : CompareOp) : Separates (" " ++ op.sign ++ " ") (.relation op.sign) := by
  cases op <;> constructor <;> decide +kernel

end Joining

section Series

variable {α : Type} {f : α → Text} {t : Text} {e : Expr}

theorem readAs_brackets {c d : CodeUnit} (hpair : (c, d) ∈ openers.zip closers) (h : ReadAs 0 t e) :
    ReadAs 6 (c :: (t ++ [d])) (.group (.opener c) e (.closer d)) := by
  have hopener : Leads .start [c] [.opener c] .opened ∧ (scan .outside [c]).2 = .outside := by
    have hall : (openers.all fun c =>
        decide (Leads .start [c] [.opener c] .opened ∧ (scan .outside [c]).2 = .outside)) = true := by
      decide +kernel
    exact of_decide_eq_true (List.all_eq_true.1 hall c (List.of_mem_zip hpair).1)
  have hcloser : Leads .ended [d] [.closer d] .ended ∧ isBreak d = true := by
    have hall : (closers.all fun d =>
        decide (Leads .ended [d] [.closer d] .ended ∧ isBreak d = true)) = true := by decide +kernel
    exact of_decide_eq_true (List.all_eq_true.1 hall d (List.of_mem_zip hpair).2)
  have hinside := h.leads.opened.append hcloser.1 hcloser.2
  exact .of_leads (hopener.1.before hopener.2 hinside) (isExpr_brackets.2 ⟨hpair, h.isExpr⟩)

theorem readAs_empty : ReadAs 6 ("[]" : Text) (.group (.opener '[') (.leaf (.operand [])) (.closer ']')) ∧
    ReadAs 6 ("\x7b\x7d" : Text)
      (.group (.opener '\x7b') (.leaf (.operand [])) (.closer '\x7d')) := by
  constructor <;> exact ⟨by decide +kernel, by simp⟩

theorem exists_readAs_series {xs : List α} (h : ∀ x ∈ xs, ∃ e, ReadAs 1 (f x) e) (hne : xs ≠ []) :
    ∃ e, ReadAs 0 (Text.join ", " (xs.map f)) e := by
  obtain ⟨x, xs, rfl⟩ := List.exists_cons_of_ne_nil hne
  obtain ⟨⟨first, hfirst⟩, hxs⟩ := List.forall_mem_cons.1 h
  rw [List.map_cons, join_cons, List.flatMap_map]
  replace hfirst := hfirst.mono (Nat.zero_le 1)
  generalize f x = t at hfirst
  clear h hne
  induction xs generalizing t first with
  | nil => exact ⟨first, by simpa using hfirst⟩
  | cons y ys ih =>
    obtain ⟨⟨e, he⟩, hys⟩ := List.forall_mem_cons.1 hxs
    have hstep : ReadAs 0 (t ++ (", " ++ f y)) (.join first .comma e) :=
      .of_leads (separates_comma.between hfirst.leads he.leads)
        (isExpr_comma.2 ⟨Nat.le_refl 0, hfirst.isExpr, he.isExpr⟩)
    rw [List.flatMap_cons, ← List.append_assoc]
    exact ih hys _ _ hstep

theorem exists_readAs_brackets {c d : CodeUnit} (hpair : (c, d) ∈ openers.zip closers)
    (hempty : ∃ e, ReadAs 6 [c, d] e) {xs : List α} (h : ∀ x ∈ xs, ∃ e, ReadAs 1 (f x) e) :
    ∃ e, ReadAs 6 (c :: (Text.join ", " (xs.map f) ++ [d])) e := by
  cases xs with
  | nil => exact hempty
  | cons x xs =>
    obtain ⟨e, he⟩ := exists_readAs_series h (List.cons_ne_nil x xs)
    exact ⟨_, readAs_brackets hpair he⟩

/-- A text that is read as a value of the given number of parts between `~`. -/
def ReadsChain (t : Text) (parts : Nat) : Prop :=
  1 ≤ parts ∧ ∃ e, ReadAs 3 t e ∧ (IsExpr 4 e ↔ parts ≤ 1)

theorem readsChain_of_readAs (h : ReadAs 4 t e) : ReadsChain t 1 :=
  ⟨Nat.le_refl 1, e, h.mono (by decide), fun _ => Nat.le_refl 1, fun _ => h.isExpr⟩

theorem ReadsChain.exists_readAs {n k : Nat} (h : ReadsChain t n) (hk : k ≤ 3) : ∃ e, ReadAs k t e := by
  obtain ⟨-, e, he, -⟩ := h
  exact ⟨e, he.mono hk⟩

theorem ReadsChain.append {a b : Text} {m n : Nat} (ha : ReadsChain a m) (hb : ReadsChain b n) :
    ReadsChain (a ++ (" ~ " ++ b)) (m + n) := by
  obtain ⟨hm, l, hl, -⟩ := ha
  obtain ⟨hn, r, hr, -⟩ := hb
  have hchain : IsExpr 3 (chain l r) := isExpr_chain.2 ⟨Nat.le_refl 3, hl.isExpr, hr.isExpr⟩
  refine ⟨by omega, chain l r, .of_leads ?_ hchain, ?_⟩
  · rw [symbols_chain]
    exact separates_tilde.between hl.leads hr.leads
  · exact ⟨fun h => absurd h (not_isExpr_chain l r), fun h => by omega⟩

end Series

/-! ### Paths -/

/-- A text that is read as a variable with accesses to it, and ends with a name or a bracket. -/
def ReadsPath (t : Text) : Prop :=
  ∃ tokens e, tokens? t = some tokens ∧ symbolsFrom? .start tokens = some (e.symbols, .ended) ∧
    IsExpr 5 e ∧ ∀ kind w, tokens.getLast? = some (.run kind w) → kind = .name

section Paths

variable {t key : Text}

theorem readsPath_variable (h : isVariable t = true) : ReadsPath t := by
  refine ⟨[.run .name t], .leaf (.operand t), tokens?_name (Bool.and_eq_true_iff.1 h).1, ?_, by simp, ?_⟩
  · simp [symbolsFrom?, Place.step, begin?, h, Tree.symbols]
  · rintro kind w hlast
    obtain ⟨rfl, -⟩ : RunKind.name = kind ∧ t = w := by simpa using hlast
    rfl

theorem ReadsPath.member (h : ReadsPath t) (hkey : key.isName = true) : ReadsPath (t ++ ("." ++ key)) := by
  obtain ⟨tokens, e, htokens, hsymbols, hfits, hlast⟩ := h
  have hmember : symbolsFrom? .ended [.run .name ("." ++ key)] =
      some ([.access, .operand ("." ++ key)], .ended) := by
    have hname : isMember ("." ++ key) = true := by
      show isMember (CodeUnit.ofChar '.' :: key) = true
      simp [isMember, hkey]
    have hword : ∀ c (w : Text), c ≠ CodeUnit.ofChar '.' → ("." ++ key : Text) ≠ c :: w := by
      rintro c w hne heq
      exact hne (List.cons.inj heq).1.symm
    have his : ("." ++ key : Text) ≠ "is" := hword _ _ (by decide)
    have hin : ("." ++ key : Text) ≠ "in" := hword _ _ (by decide)
    simp [symbolsFrom?, Place.step, continue?, his, hin, hname]
  refine ⟨tokens ++ [.run .name ("." ++ key)], .join e .access (.leaf (.operand ("." ++ key))),
    ?_, ?_, ?_, ?_⟩
  · refine tokens?_append htokens (tokens?_member hkey) fun c hc kind w hrun => ?_
    obtain rfl := hlast kind w hrun
    obtain rfl : CodeUnit.ofChar '.' = c := Option.some.inj hc
    rfl
  · exact symbolsFrom?_append hsymbols hmember
  · simp [hfits]
  · rintro kind w hrun
    obtain ⟨rfl, -⟩ : RunKind.name = kind ∧ ("." ++ key : Text) = w := by simpa using hrun
    rfl

theorem ReadsPath.quoted (h : ReadsPath t) (hkey : (QuotedPiece.key key).IsSafe) :
    ReadsPath (t ++ ("['" ++ key ++ "']")) := by
  obtain ⟨tokens, e, htokens, hsymbols, hfits, -⟩ := h
  have htext : ("['" ++ key ++ "']" : Text) = "[" ++ (key.quoted ++ "]") := by
    show (CodeUnit.ofChar '[' :: quoteMark :: key) ++ [quoteMark, CodeUnit.ofChar ']'] =
      CodeUnit.ofChar '[' :: ((quoteMark :: key) ++ [quoteMark] ++ [CodeUnit.ofChar ']'])
    simp
  have haccess : tokens? ("['" ++ key ++ "']") = some [.mark '[', .string key, .mark ']'] := by
    rw [htext]
    have hends := endsAtQuote_of_isSafe hkey
    have hbehind : tokens? (key.quoted ++ "]") = some ([.string key] ++ [.mark ']']) :=
      tokens?_append_of_outside (tokens?_quoted hends) (by rw [scan_quoted hends]) rfl
    have hopener : tokens? "[" = some [.mark '['] := rfl
    exact tokens?_append_of_outside hopener rfl hbehind
  refine ⟨tokens ++ [.mark '[', .string key, .mark ']'],
    .join e .access (.group (.opener '[') (.leaf (.operand key.quoted)) (.closer ']')), ?_, ?_, ?_, ?_⟩
  · refine tokens?_append htokens haccess fun c hc => parts_of_isBreak ?_ tokens
    obtain rfl : CodeUnit.ofChar '[' = c := Option.some.inj hc
    rfl
  · exact symbolsFrom?_append hsymbols rfl
  · simp [hfits]
  · rintro kind w hrun
    simp at hrun

theorem ReadsPath.exists_readAs (h : ReadsPath t) : ∃ e, ReadAs 5 t e := by
  obtain ⟨tokens, e, htokens, hsymbols, hfits, -⟩ := h
  exact ⟨e, .of_leads (leads_iff.2 ⟨tokens, htokens, hsymbols⟩) hfits⟩

theorem readsPath_variableName {first : Text} {rest : List Text} (hfirst : first ∉ reservedWords)
    (hkeys : ∀ p ∈ quotedKeys (first :: rest), p.IsSafe) : ReadsPath (variableName (first :: rest)) := by
  have hquoted : ∀ key ∈ first :: rest, ¬ key.isName = true → (QuotedPiece.key key).IsSafe := by
    intro key hkey hname
    refine hkeys _ (List.mem_map.2 ⟨key, List.mem_filter.2 ⟨hkey, by simpa using hname⟩, rfl⟩)
  obtain ⟨hhead, hrest⟩ := List.forall_mem_cons.1 hquoted
  rw [variableName]
  have hstart : ReadsPath (if first.isName then first else "vars['" ++ first ++ "']") := by
    split
    · rename_i hname
      exact readsPath_variable (by simp [isVariable, hname, hfirst])
    · rename_i hname
      exact (readsPath_variable (t := "vars") (by decide)).quoted (hhead hname)
  generalize (if first.isName then first else "vars['" ++ first ++ "']") = t at hstart
  clear hkeys hquoted hhead
  induction rest generalizing t with
  | nil => simpa using hstart
  | cons key rest ih =>
    obtain ⟨hkey, hrest⟩ := List.forall_mem_cons.1 hrest
    have hstep : ReadsPath (t ++ keyAccess key) := by
      unfold keyAccess
      split
      · rename_i hname
        exact hstart.member hname
      · rename_i hname
        exact hstart.quoted (hkey hname)
    rw [List.flatMap_cons, ← List.append_assoc]
    exact ih hrest _ hstep

end Paths

/-! ### Values -/

theorem readsChain_variable {t : Text} (h : isVariable t = true) : ReadsChain t 1 :=
  readsChain_of_readAs (.of_leads (e := .leaf _) (leads_variable h) (isExpr_operand _))

theorem readsChain_quoted {t : Text} (h : EndsAtQuote t) : ReadsChain t.quoted 1 :=
  readsChain_of_readAs (.of_leads (e := .leaf _) (leads_quoted h) (isExpr_operand _))

theorem readsChain_quotedString (t : Text) : ReadsChain (quotedString t) 1 := by
  rw [QuoteScan.quotedString_eq]
  exact readsChain_quoted (endsAtQuote_escaped t)

/-- Values with `~` between them. -/
theorem readsChain_interpolation {segments : List Value} (hne : segments ≠ [])
    (h : ∀ v ∈ segments, ReadsChain v.expression v.chained) :
    ReadsChain (Text.join " ~ " (segments.map Value.expression)) (chainedIn segments) := by
  obtain ⟨v, rest, rfl⟩ := List.exists_cons_of_ne_nil hne
  obtain ⟨hfirst, hrest⟩ := List.forall_mem_cons.1 h
  rw [List.map_cons, join_cons, List.flatMap_map, chainedIn]
  generalize v.expression = t at hfirst
  generalize v.chained = n at hfirst
  clear h hne
  induction rest generalizing t n with
  | nil => simpa [chainedIn] using hfirst
  | cons w rest ih =>
    obtain ⟨hw, hrest⟩ := List.forall_mem_cons.1 hrest
    rw [List.flatMap_cons, ← List.append_assoc, chainedIn, ← Nat.add_assoc]
    exact ih hrest _ _ (hfirst.append hw)

/-- The text of a plain value is an expression by itself, which binds as tightly as the number of its parts
lets it. -/
theorem readsChain_expression {v : Value} (h : v.IsPlain) : ReadsChain v.expression v.chained := by
  induction h with
  | literal s =>
    cases s with
    | text t => exact readsChain_quotedString t
    | number n => exact readsChain_of_readAs (.of_leads (e := .leaf _) (leads_number n) (isExpr_operand _))
    | bool b => cases b <;> exact readsChain_variable (by decide)
    | nil => exact readsChain_variable (by decide)
  | symbol name => exact readsChain_quotedString name
  | path scope hfirst hkeys =>
    obtain ⟨e, he⟩ := (readsPath_variableName hfirst hkeys).exists_readAs
    exact readsChain_of_readAs (he.mono (by decide))
  | interpolation hne _ ih =>
    rw [Value.expression, expressions_eq]
    exact readsChain_interpolation hne ih
  | list _ ih =>
    rw [Value.expression, expressions_eq]
    obtain ⟨e, he⟩ := exists_readAs_brackets (c := '[') (d := ']') (by decide)
      ⟨_, readAs_empty.1⟩ fun v hv => (ih v hv).exists_readAs (by decide)
    exact readsChain_of_readAs (he.mono (by decide))
  | map hkeys _ ih =>
    rw [Value.expression, entryExpressions_eq]
    obtain ⟨e, he⟩ := exists_readAs_brackets (c := '\x7b') (d := '\x7d') (by decide)
      ⟨_, readAs_empty.2⟩ fun entry hentry => by
        obtain ⟨e, he⟩ := (ih entry hentry).exists_readAs (by decide : 2 ≤ 3)
        have hkey := leads_quoted (endsAtQuote_of_isSafe (hkeys entry hentry))
        have hleads := separates_colon.between hkey he.leads
        rw [← List.append_assoc] at hleads
        exact ⟨_, .of_leads (e := .join (.leaf _) .colon e) hleads
          (isExpr_colon.2 ⟨Nat.le_refl 1, isExpr_operand _, he.isExpr⟩)⟩
    exact readsChain_of_readAs (he.mono (by decide))

/-! ### Facts -/

def ansibleFact (keys : List Text) : Expr :=
  keys.foldl (fun e key => .join e .access (.group (.opener '[') (.leaf (.operand key.quoted)) (.closer ']')))
    (.leaf (.operand "ansible_facts"))

def loweredFact (key : Text) : Expr := .join (ansibleFact [key]) .filter (.leaf (.operand "lower"))

theorem readAs_loweredFact : ReadAs 4 platformFact (loweredFact "distribution") ∧
    ReadAs 4 platformFamilyFact (loweredFact "os_family") := by
  constructor <;> exact ⟨by decide +kernel, by simp [loweredFact, ansibleFact]⟩

/-- Each fact is read as an expression that a filter or a test takes as a whole. -/
theorem exists_readAs_fact {fact : Text} (h : fact ∈ facts.map (·.2)) : ∃ e, ReadAs 4 fact e := by
  simp only [facts, List.map_cons, List.map_nil, List.mem_cons, List.not_mem_nil, or_false] at h
  rcases h with rfl | rfl | rfl | rfl | rfl | rfl
  · exact ⟨_, readAs_loweredFact.1⟩
  · exact ⟨_, readAs_loweredFact.2⟩
  · exact ⟨ansibleFact ["distribution_version"], by decide +kernel, by simp [ansibleFact]⟩
  · exact ⟨ansibleFact ["hostname"], by decide +kernel, by simp [ansibleFact]⟩
  · exact ⟨ansibleFact ["fqdn"], by decide +kernel, by simp [ansibleFact]⟩
  · exact ⟨ansibleFact ["default_ipv4", "address"], by decide +kernel, by simp [ansibleFact]⟩

/-- A plain value, and if it stands for a fact then for one of the target system. -/
def IsPlainOperand (v : Value) : Prop :=
  v.IsPlain ∧ ∀ fact, v.fact? = some fact → fact ∈ facts.map (·.2)

theorem readsChain_operand {v : Value} (h : IsPlainOperand v) : ReadsChain v.operand v.chained := by
  obtain ⟨hplain, hfact⟩ := h
  unfold Value.operand
  cases hv : v.fact? with
  | none => exact readsChain_expression hplain
  | some fact =>
    have hone : v.chained = 1 := by
      unfold Value.fact? at hv
      split at hv
      · rfl
      · cases hv
    obtain ⟨e, he⟩ := exists_readAs_fact (hfact fact hv)
    rw [hone]
    exact readsChain_of_readAs he

/-! ### Templates -/

/-- A command with its operand put in, whose output is not empty. -/
def piped (command : Text) (operand : Expr) : Expr :=
  let line : Expr :=
    .join (.join (.leaf (.operand command)) .tilde operand) .tilde (.leaf (.operand "' || true'"))
  let arguments : Expr := .join (.leaf (.operand "'ansible.builtin.pipe'")) .comma line
  let call : Expr := .join (.leaf (.operand "lookup")) .access (.group (.opener '(') arguments (.closer ')'))
  .join (.join call .filter (.leaf (.operand "length"))) (.relation ">") (.leaf (.operand "0"))

def serviceIs (field state : Text) (operand : Expr) : Expr :=
  let services : Expr := .join (.leaf (.operand "ansible_facts")) .access (.leaf (.operand ".services"))
  let name : Expr := .join operand .tilde (.leaf (.operand "'.service'"))
  let service : Expr := .join services .access (.group (.opener '[') name (.closer ']'))
  let default : Expr :=
    .join (.leaf (.operand "default")) .access (.group (.opener '(') (.leaf (.operand "''")) (.closer ')'))
  .join (.join (.join service .access (.leaf (.operand field))) .filter default) (.relation "==")
    (.leaf (.operand state))

/-- An operand that is a member of something known. -/
def isIn (operand known : Expr) : Expr := .join operand (.relation "in") known

def asks (operand : Expr) (sign name : Text) : Expr := .join operand (.test sign) (.leaf (.operand name))

/-- A value as the right side of a membership test, given the tree of its text. -/
def membersTree (operand : Expr) : Value → Expr
  | .list _ => operand
  | _ => .group (.opener '[') operand (.closer ']')

/-- The tree of a test, given that of its subject. -/
def testTree? (kind : TestKind) (subject : Value) (operand : Expr) : Option Expr :=
  match kind with
  | .pathExists => some (asks operand "is" "exists")
  | .fileExists => some (asks operand "is" "file")
  | .directoryExists => some (asks operand "is" "directory")
  | .commandAvailable => some (piped "'command -v '" operand)
  | .processRunning => some (piped "'pgrep -f '" operand)
  | .serviceActive => some (serviceIs ".state" "'running'" operand)
  | .serviceEnabled => some (serviceIs ".status" "'enabled'" operand)
  | .packageInstalled => some (isIn operand
      (.join (.leaf (.operand "ansible_facts")) .access (.leaf (.operand ".packages"))))
  | .userExists => some (isIn operand (.leaf (.operand "getent_passwd")))
  | .groupExists => some (isIn operand (.leaf (.operand "getent_group")))
  | .platform => some (isIn (loweredFact "distribution") (membersTree operand subject))
  | .platformFamily => some (isIn (loweredFact "os_family") (membersTree operand subject))
  | .inherited _ => none

/-- The sign of the test that a comparison with nil is. -/
def nilTest? : CompareOp → Value → Option Text
  | .eq, .literal .nil => some "is"
  | .ne, .literal .nil => some "is not"
  | _, _ => none

/-- The tree of a test, a comparison or the truth of a value: the sign of the template is on the whole of
each value, whose trees are given. -/
def intended? (T : Value → Expr) : Condition → Option Expr
  | .test kind subject => testTree? kind subject (T subject)
  | .compare left op right =>
    match nilTest? op right with
    | some sign => some (asks (T left) sign "none")
    | none => some (.join (T left) (.relation op.sign) (T right))
  | .truthy v => some (.join (T v) .filter (.leaf (.operand "bool")))
  | _ => none

/-- A place of a template for the text of a value, and the level of the signs around it. -/
structure Slot where
  value : Value
  level : Nat

/-- The place of the subject of a test: before a test, beside `~` or a comparison, or in brackets. -/
def testSlot (kind : TestKind) (subject : Value) : Slot :=
  match kind, subject with
  | .pathExists, v | .fileExists, v | .directoryExists, v => ⟨v, 4⟩
  | .platform, .list items | .platformFamily, .list items => ⟨.list items, 3⟩
  | .platform, v | .platformFamily, v => ⟨v, 2⟩
  | _, v => ⟨v, 3⟩

/-- The places of a condition for the texts of its values. -/
def slots : Condition → List Slot
  | .test kind subject => [testSlot kind subject]
  | .compare left op right =>
    if (nilTest? op right).isSome then [⟨left, 4⟩] else [⟨left, 3⟩, ⟨right, 3⟩]
  | .truthy v => [⟨v, 4⟩]
  | _ => []

section Templates

variable {v : Value} {t : Text} {ss : List Symbol} {e i : Expr}

theorem leads_between {q : Place} {before behind : Text} {ps us : List Symbol} (h : Leads q t ss .ended)
    (hbefore : Leads .start before ps q ∧ (scan .outside before).2 = .outside)
    (hbehind : Leads .ended behind us .ended ∧ behind.head?.all isBreak = true) :
    Leads .start (before ++ t ++ behind) (ps ++ ss ++ us) .ended :=
  (hbefore.1.before hbefore.2 h).append hbehind.1 hbehind.2

theorem symbols_asks (sign name : Text) :
    (asks e sign name).symbols = e.symbols ++ [.test sign, .operand name] :=
  rfl

theorem symbols_piped (command : Text) :
    (piped command e).symbols =
      [.operand "lookup", .access, .opener '(', .operand "'ansible.builtin.pipe'", .comma, .operand command,
        .tilde] ++ e.symbols ++
      [.tilde, .operand "' || true'", .closer ')', .filter, .operand "length", .relation ">",
        .operand "0"] := by
  simp [piped, Tree.symbols]

theorem symbols_serviceIs (field state : Text) :
    (serviceIs field state e).symbols =
      [.operand "ansible_facts", .access, .operand ".services", .access, .opener '['] ++ e.symbols ++
      [.tilde, .operand "'.service'", .closer ']', .access, .operand field, .filter, .operand "default",
        .access, .opener '(', .operand "''", .closer ')', .relation "==", .operand state] := by
  simp [serviceIs, Tree.symbols]

theorem symbols_isIn (known : Expr) : (isIn e known).symbols = e.symbols ++ .relation "in" :: known.symbols :=
  rfl

theorem leads_members (h : ReadAs 2 v.operand e) :
    Leads .start v.members (membersTree e v).symbols .ended := by
  cases v with
  | list items => exact h.leads
  | literal | symbol | path | interpolation | map | verbatim =>
    have hopener : Leads .start "[" [.opener '['] .opened ∧ (scan .outside "[").2 = .outside := by decide
    have hcloser : Leads .ended "]" [.closer ']'] .ended ∧
        (Text.ofString "]").head?.all isBreak = true := by decide
    simpa [membersTree, Tree.symbols, Value.members] using leads_between h.leads.opened hopener hcloser

theorem leads_isIn {members : Text} {known : Expr} (h : ReadAs 4 t e)
    (hknown : Leads .start members known.symbols .ended) :
    Leads .start (t ++ " in " ++ members) (isIn e known).symbols .ended := by
  have hin : Separates " in " (.relation "in") := by constructor <;> decide +kernel
  rw [List.append_assoc]
  exact hin.between h.leads hknown

theorem leads_test {kind : TestKind} (h : ReadAs 2 v.operand e) (hi : testTree? kind v e = some i) :
    Leads .start (kind.render v) i.symbols .ended := by
  have hsubject := h.leads
  cases kind with
  | pathExists | fileExists | directoryExists =>
    obtain rfl := Option.some.inj hi
    rw [symbols_asks]
    exact hsubject.append (by decide +kernel) (by decide +kernel)
  | commandAvailable | processRunning =>
    obtain rfl := Option.some.inj hi
    rw [symbols_piped]
    exact leads_between hsubject (by decide +kernel) (by decide +kernel)
  | serviceActive | serviceEnabled =>
    obtain rfl := Option.some.inj hi
    rw [symbols_serviceIs]
    exact leads_between hsubject.opened (by decide +kernel) (by decide +kernel)
  | packageInstalled | userExists | groupExists =>
    obtain rfl := Option.some.inj hi
    rw [symbols_isIn]
    exact hsubject.append (by decide +kernel) (by decide +kernel)
  | platform =>
    obtain rfl := Option.some.inj hi
    exact leads_isIn readAs_loweredFact.1 (leads_members h)
  | platformFamily =>
    obtain rfl := Option.some.inj hi
    exact leads_isIn readAs_loweredFact.2 (leads_members h)
  | inherited => cases hi

/-- A comparison with nil is written as a test, any other one with its sign. -/
theorem render_compare_cases (left : Value) (op : CompareOp) (right : Value) :
    (nilTest? op right = some "is" ∧ op.render left right = left.operand ++ " is none") ∨
      (nilTest? op right = some "is not" ∧ op.render left right = left.operand ++ " is not none") ∨
      nilTest? op right = none ∧
        op.render left right = left.operand ++ (" " ++ op.sign ++ " " ++ right.operand) := by
  unfold nilTest?
  split
  · exact .inl ⟨rfl, rfl⟩
  · exact .inr (.inl ⟨rfl, rfl⟩)
  · rename_i heq hne
    refine .inr (.inr ⟨rfl, ?_⟩)
    unfold CompareOp.render
    split
    · exact (heq rfl rfl).elim
    · exact (hne rfl rfl).elim
    · simp only [List.append_assoc]

theorem leads_compare {T : Value → Expr} {left right : Value} {op : CompareOp}
    (h : ∀ s ∈ slots (.compare left op right), ReadAs 2 s.value.operand (T s.value))
    (hi : intended? T (.compare left op right) = some i) :
    Leads .start (op.render left right) i.symbols .ended := by
  rcases render_compare_cases left op right with ⟨hnil, htext⟩ | ⟨hnil, htext⟩ | ⟨hnil, htext⟩
  · simp only [slots, intended?, hnil] at h hi
    obtain rfl := Option.some.inj hi
    rw [htext, symbols_asks]
    exact (h ⟨left, 4⟩ (by simp)).leads.append (by decide +kernel) (by decide +kernel)
  · simp only [slots, intended?, hnil] at h hi
    obtain rfl := Option.some.inj hi
    rw [htext, symbols_asks]
    exact (h ⟨left, 4⟩ (by simp)).leads.append (by decide +kernel) (by decide +kernel)
  · simp only [slots, intended?, hnil] at h hi
    obtain rfl := Option.some.inj hi
    rw [htext]
    exact (separates_sign op).between (h ⟨left, 3⟩ (by simp)).leads (h ⟨right, 3⟩ (by simp)).leads

theorem slot_of_test (kind : TestKind) (v : Value) : (testSlot kind v).value = v := by
  unfold testSlot
  split <;> rfl

/-- The text of a condition has the symbols of its tree. -/
theorem leads_intended {T : Value → Expr} {c : Condition}
    (h : ∀ s ∈ slots c, ReadAs 2 s.value.operand (T s.value)) (hi : intended? T c = some i) :
    Leads .start c.render i.symbols .ended := by
  cases c with
  | test kind subject =>
    have hsubject := h (testSlot kind subject) (List.mem_singleton_self _)
    rw [slot_of_test] at hsubject
    rw [Condition.render]
    exact leads_test hsubject hi
  | compare left op right =>
    rw [Condition.render]
    exact leads_compare h hi
  | truthy v =>
    obtain rfl := Option.some.inj hi
    have hv := h ⟨v, 4⟩ (List.mem_singleton_self _)
    rw [Condition.render]
    have hbool : Leads .ended " | bool" [.filter, .operand "bool"] .ended := by decide +kernel
    exact hv.leads.append hbool (by decide +kernel)
  | const | not | all | any | verbatim => cases hi

/-- The tree of a condition is an expression after its chains are regrouped when each value fits its slot. -/
theorem isExpr_regroup_intended_iff {T : Value → Expr} {c : Condition}
    (h : ∀ s ∈ slots c, IsExpr 2 (T s.value)) (hi : intended? T c = some i) :
    IsExpr 2 (regroup i) ↔ ∀ s ∈ slots c, IsExpr s.level (T s.value) := by
  cases c with
  | test kind subject =>
    simp only [slots, List.forall_mem_singleton, slot_of_test] at h ⊢
    have hsame := regroup_of_fits h.fits
    rw [intended?] at hi
    generalize T subject = e at *
    -- the slot of a test is as high as the sign that the test puts beside its subject
    cases kind with
    | pathExists | fileExists | directoryExists =>
      obtain rfl := Option.some.inj hi
      simp [asks, hsame, testSlot]
    | commandAvailable | processRunning =>
      obtain rfl := Option.some.inj hi
      simp [piped, hsame, testSlot]
    | serviceActive | serviceEnabled =>
      obtain rfl := Option.some.inj hi
      simp [serviceIs, hsame, testSlot]
    | packageInstalled | userExists | groupExists =>
      obtain rfl := Option.some.inj hi
      simp [isIn, hsame, testSlot]
    | platform | platformFamily =>
      obtain rfl := Option.some.inj hi
      have hinside : IsExpr 0 e := h.mono (by decide)
      cases subject <;> simp [isIn, hsame, testSlot, membersTree, loweredFact, ansibleFact, h, hinside]
    | inherited => cases hi
  | compare left op right =>
    simp only [intended?] at hi
    cases hnil : nilTest? op right with
    -- a comparison with nil has no right side
    | some sign =>
      simp only [hnil] at hi
      simp only [slots, hnil, Option.isSome_some, if_true, List.forall_mem_singleton] at h ⊢
      obtain rfl := Option.some.inj hi
      simp [asks, regroup_of_fits h.fits]
    | none =>
      simp only [hnil] at hi
      simp only [slots, hnil, Option.isSome_none, Bool.false_eq_true, if_false, List.forall_mem_cons] at h ⊢
      obtain ⟨hleft, hright, -⟩ := h
      obtain rfl := Option.some.inj hi
      simp [regroup_of_fits hleft.fits, regroup_of_fits hright.fits]
  | truthy v =>
    obtain rfl := Option.some.inj hi
    simp only [slots, List.forall_mem_singleton] at h ⊢
    simp [regroup_of_fits h.fits]
  | const | not | all | any | verbatim => cases hi

end Templates

/-! ### The result -/

/-- A slot is beside `~` or a comparison, in brackets, or before a filter or a test. -/
theorem level_of_mem_slots {c : Condition} {s : Slot} (h : s ∈ slots c) :
    s.level ≤ 3 ∨ s.level = 4 := by
  cases c with
  | test kind subject =>
    obtain rfl := List.mem_singleton.1 h
    unfold testSlot
    split <;> simp
  | compare left op right =>
    simp only [slots] at h
    split at h
    · obtain rfl := List.mem_singleton.1 h
      exact .inr rfl
    · rcases List.mem_pair.1 h with rfl | rfl <;> exact .inl (Nat.le_refl 3)
  | truthy v =>
    obtain rfl := List.mem_singleton.1 h
    exact .inr rfl
  | const | not | all | any | verbatim => cases h

/-- A plain value fits its slot unless a filter or a test comes after it and it has more than one part. -/
theorem exists_trees {c : Condition} (h : ∀ s ∈ slots c, IsPlainOperand s.value) :
    ∃ T : Value → Expr, ∀ s ∈ slots c, ReadAs 2 s.value.operand (T s.value) ∧
      (IsExpr s.level (T s.value) ↔ (s.level = 4 → s.value.chained ≤ 1)) := by
  have hread : ∀ v, ∃ e,
      IsPlainOperand v → ReadAs 3 v.operand e ∧ (IsExpr 4 e ↔ v.chained ≤ 1) := by
    intro v
    by_cases hv : IsPlainOperand v
    · obtain ⟨-, e, he⟩ := readsChain_operand hv
      exact ⟨e, fun _ => he⟩
    · exact ⟨.leaf .comma, fun hplain => absurd hplain hv⟩
  choose T hT using hread
  refine ⟨T, fun s hs => ?_⟩
  obtain ⟨hthree, hfour⟩ := hT s.value (h s hs)
  refine ⟨hthree.mono (by decide), ?_⟩
  rcases level_of_mem_slots hs with hlevel | hlevel
  · exact ⟨fun _ h => by omega, fun _ => hthree.isExpr.mono hlevel⟩
  · simp [hlevel, hfour]

/-- The text of a test, a comparison or the truth of a value is read with the value of the tree in which the
template applies to the whole of each value, as the text of that value by itself is read, exactly when each of
these readings fits its slot. Plain values are read by themselves, and then this fails exactly when a filter
or a test comes after a value of more than one part between `~`. -/
theorem reads_as_intended_iff (c : Condition) :
    (∀ T i, intended? T c = some i → (∀ s ∈ slots c, ReadAs 2 s.value.operand (T s.value)) →
      ((∃ e, ReadAs 2 c.render e ∧ SameValue e i) ↔ ∀ s ∈ slots c, IsExpr s.level (T s.value))) ∧
    ((∀ s ∈ slots c, IsPlainOperand s.value) → ∃ T : Value → Expr,
      (∀ s ∈ slots c, ReadAs 2 s.value.operand (T s.value)) ∧ ∀ i, intended? T c = some i →
        ((∃ e, ReadAs 2 c.render e ∧ SameValue e i) ↔
          ∀ s ∈ slots c, s.level = 4 → s.value.chained ≤ 1)) := by
  have hgeneral : ∀ T i, intended? T c = some i →
      (∀ s ∈ slots c, ReadAs 2 s.value.operand (T s.value)) →
        ((∃ e, ReadAs 2 c.render e ∧ SameValue e i) ↔
          ∀ s ∈ slots c, IsExpr s.level (T s.value)) := by
    intro T i hi hT
    rw [exists_readAs_sameValue_iff (lex?_eq_some_iff.2 (leads_intended hT hi))]
    exact isExpr_regroup_intended_iff (fun s hs => (hT s hs).isExpr) hi
  refine ⟨hgeneral, fun hplain => ?_⟩
  obtain ⟨T, hT⟩ := exists_trees hplain
  refine ⟨T, fun s hs => (hT s hs).1, fun i hi => ?_⟩
  rw [hgeneral T i hi fun s hs => (hT s hs).1]
  exact forall₂_congr fun s hs => (hT s hs).2

/-- The test of a path that is put together is read as one of its last part. -/
theorem path_test_splits :
    let path : Value := .interpolation [.ofText "/etc/", .path .node ["a"]]
    let first : Expr := .leaf (.operand "'/etc/'")
    let last : Expr := .leaf (.operand "a")
    let i := asks (.join first .tilde last) "is" "exists"
    (Condition.test .pathExists path).render = "'/etc/' ~ a is exists" ∧
      ReadAs 2 path.operand (.join first .tilde last) ∧
      ReadAs 2 (Condition.test .pathExists path).render (.join first .tilde (asks last "is" "exists")) ∧
      ¬ ∃ e, ReadAs 2 (Condition.test .pathExists path).render e ∧ SameValue e i := by
  intro path first last i
  have hpath : ReadAs 2 path.operand (.join first .tilde last) :=
    ⟨by decide +kernel, by simp [first, last]⟩
  have hiff := (reads_as_intended_iff (.test .pathExists path)).1 (fun _ => .join first .tilde last) i rfl
    fun s hs => by
      obtain rfl := List.mem_singleton.1 hs
      exact hpath
  refine ⟨by decide +kernel, hpath, ⟨by decide +kernel, by simp [asks, first, last]⟩, ?_⟩
  rw [hiff]
  intro hfits
  have hslot := hfits ⟨path, 4⟩ (List.mem_singleton_self _)
  simp at hslot

end Operands

end Cookbook
