import Cookbook.Proofs.Condition.Chains
import Cookbook.Proofs.Condition.Truth
import Cookbook.Proofs.Phrase

/-!
How tightly the signs of a condition bind where it was written: `!` before a comparison, a comparison
before `&&`, then `||`, then the word `not`, and last the words `and` and `or`, which share one level.
A condition that is written with operands, signs and parentheses has one reading by these levels. The
parser cuts the same tokens into a chain of its own.

* `grammar` gives the levels, `Spells` relates a reading to the code, `value` is the truth of a reading;
* `chain` is the chain of the parser, `chain_reads` says that this is what it reads;
* `parseCondition?_spelled` gives the condition of the code, `holds_of_chain` the truth of it.
-/

namespace Cookbook

open NormalizeContext (opensGroup)
open Phrase

/-! ### Conditions of operands and comparisons -/

theorem matchCommand?_isJoint {v : Value} {c : Condition} (h : matchCommand? v = some c) : c.isJoint = false := by
  simp only [matchCommand?, Option.bind_eq_bind, Option.bind_eq_some_iff] at h
  obtain ⟨marked, -, h⟩ := h
  obtain ⟨pattern, -, h⟩ := List.exists_of_findSome?_eq_some h
  simp only [Option.bind_eq_some_iff, Option.pure_def, Option.some.injEq] at h
  obtain ⟨found, -, rfl⟩ := h
  split <;> rfl

namespace NormalizeContext

section Joint

variable {ctx : NormalizeContext} {run : List Token} {c : Condition}

theorem commandCall?_isJoint (h : ctx.commandCall? run = some c) : c.isJoint = false := by
  simp only [commandCall?, Option.bind_eq_bind, Option.bind_eq_some_iff] at h
  obtain ⟨call, -, h⟩ := h
  split at h
  · obtain ⟨v, -, h⟩ := Option.bind_eq_some_iff.1 h
    exact matchCommand?_isJoint h
  · exact absurd h (by simp)

theorem exitStatus?_isJoint {op : CompareOp} {right : List Token}
    (h : ctx.exitStatus? run op right = some c) : c.isJoint = false := by
  simp only [exitStatus?, Option.bind_eq_bind, Option.bind_eq_some_iff, Option.ite_none_right_eq_some] at h
  obtain ⟨call, -, -, test, htest, h⟩ := h
  have hjoint := commandCall?_isJoint htest
  cases op with
  | eq | ne =>
    obtain rfl := Option.some.inj h
    exact hjoint
  | lt | gt | le | ge => simp at h

theorem predicate?_isJoint (h : ctx.predicate? run = some c) : c.isJoint = false := by
  unfold predicate? at h
  simp only at h
  split at h
  · simp only [Option.bind_eq_bind, Option.bind_eq_some_iff, fileCall?] at h
    obtain ⟨test, -, call, -, h⟩ := h
    split at h
    · simp only [Option.bind_eq_some_iff, Option.pure_def, Option.some.injEq] at h
      obtain ⟨v, -, rfl⟩ := h
      rfl
    · exact absurd h (by simp)
  · split at h
    · simp only [platformCall?, Option.bind_eq_bind, Option.bind_eq_some_iff] at h
      obtain ⟨call, -, h⟩ := h
      split at h
      · exact absurd h (by simp)
      · simp only [Option.bind_eq_some_iff] at h
        obtain ⟨runs, -, values, -, h⟩ := h
        split at h <;>
        · obtain rfl := Option.some.inj h
          rfl
    · split at h
      · simp only [Option.bind_eq_bind, Option.bind_eq_some_iff] at h
        obtain ⟨call, -, h⟩ := h
        split at h
        · exact commandCall?_isJoint h
        · exact absurd h (by simp)
      · unfold nilTest? at h
        split at h
        · split at h
          · obtain ⟨v, -, rfl⟩ := Option.map_eq_some_iff.1 h
            rfl
          · exact absurd h (by simp)
        · exact absurd h (by simp)

theorem comparison?_isJoint {rest : List Token} (h : ctx.comparison? run = some (c, rest)) :
    c.isJoint = false := by
  simp only [comparison?, Option.bind_eq_bind, Option.bind_eq_some_iff] at h
  obtain ⟨operand, -, h⟩ := h
  split at h
  · simp only [Option.bind_eq_some_iff] at h
    obtain ⟨right, -, h⟩ := h
    split at h
    · rename_i hexit
      obtain ⟨rfl, -⟩ := Prod.mk.inj (Option.some.inj h)
      exact exitStatus?_isJoint hexit
    · simp only [Option.bind_eq_some_iff, Option.pure_def, Option.some.injEq, Prod.mk.injEq] at h
      obtain ⟨l, -, r, -, rfl, -⟩ := h
      rfl
  · split at h
    · obtain ⟨rfl, -⟩ := Prod.mk.inj (Option.some.inj h)
      rfl
    · split at h
      · rename_i hpredicate
        obtain ⟨rfl, -⟩ := Prod.mk.inj (Option.some.inj h)
        exact predicate?_isJoint hpredicate
      · simp only [Option.bind_eq_some_iff, Option.pure_def, Option.some.injEq, Prod.mk.injEq] at h
        obtain ⟨v, -, rfl, -⟩ := h
        rfl

end Joint

end NormalizeContext

@[simp] def Link.truth : Link → Bool → Bool → Bool
  | both _, a, b => a && b
  | either _, a, b => a || b

namespace Binding

/-! ### Signs and symbols -/

inductive Sign where
  | bang
  | compare (op : CompareOp)
  | both
  | either
  | not
  | and
  | or

namespace Sign

def content : Sign → TokenContent
  | bang => .name .punct "!"
  | compare op => .name .punct op.sign
  | both => .name .punct "&&"
  | either => .name .punct "||"
  | not => .name .keyword "not"
  | and => .name .keyword "and"
  | or => .name .keyword "or"

/-- How tightly a sign binds. -/
def level : Sign → Nat
  | bang => 5
  | compare _ => 4
  | both => 3
  | either => 2
  | not => 1
  | and => 0
  | or => 0

end Sign

/-- Whether tokens stand for one value: no sign stands among them outside brackets, and they are no
condition in parentheses. -/
def isOperand (run : List Token) : Bool :=
  !run.isEmpty && isWhole 0 run && !run.head?.any Token.negates && !opensGroup run

theorem isOperand_iff {run : List Token} : isOperand run = true ↔
    run ≠ [] ∧ isWhole 0 run = true ∧ run.head?.any Token.negates = false ∧ opensGroup run = false := by
  simp [isOperand, and_assoc]

/-- Tokens that stand for one value. -/
structure Operand where
  run : List Token
  isOperand : isOperand run = true

namespace Operand

variable (o : Operand)

theorem nonempty : o.run ≠ [] := (isOperand_iff.1 o.isOperand).1

theorem whole : isWhole 0 o.run = true := (isOperand_iff.1 o.isOperand).2.1

theorem negatesNothing : o.run.head?.any Token.negates = false := (isOperand_iff.1 o.isOperand).2.2.1

theorem noGroup : opensGroup o.run = false := (isOperand_iff.1 o.isOperand).2.2.2

end Operand

inductive Symbol where
  | operand (o : Operand)
  | opener (t : Token) (h : t.isPunct ["("] = true)
  | closer (t : Token) (h : t.isPunct [")"] = true)
  | sign (s : Sign) (t : Token) (h : t.content = s.content)

namespace Symbol

def tokens : Symbol → List Token
  | operand o => o.run
  | opener t _ => [t]
  | closer t _ => [t]
  | sign _ t _ => [t]

def role : Symbol → Role
  | operand _ => .operand
  | opener _ _ => .opens
  | closer _ _ => .closes
  | sign s _ _ => .sign s.level

def link? : Symbol → Option Link
  | sign .both t _ => some (.both t)
  | sign .and t _ => some (.both t)
  | sign .either t _ => some (.either t)
  | sign .or t _ => some (.either t)
  | _ => none

end Symbol

def grammar : Grammar Symbol where
  role := Symbol.role
  fixity
    | 1 | 5 => .before
    | 4 => .apart
    | _ => .left

abbrev Reading := Phrase.Tree Symbol

def tokens (t : Reading) : List Token := t.symbols.flatMap Symbol.tokens

@[simp] theorem tokens_leaf (s : Symbol) : tokens (.leaf s) = s.tokens := by
  simp [tokens, Tree.symbols]

@[simp] theorem tokens_group (opener : Symbol) (t : Reading) (closer : Symbol) :
    tokens (.group opener t closer) = opener.tokens ++ tokens t ++ closer.tokens := by
  simp [tokens, Tree.symbols]

@[simp] theorem tokens_join (l : Reading) (s : Symbol) (r : Reading) :
    tokens (.join l s r) = tokens l ++ s.tokens ++ tokens r := by
  simp [tokens, Tree.symbols]

@[simp] theorem tokens_before (s : Symbol) (t : Reading) :
    tokens (.before s t) = s.tokens ++ tokens t := by
  simp [tokens, Tree.symbols]

/-- The truth of a reading, given which of its operands and comparisons hold. -/
def value (ρ : Reading → Bool) : Reading → Bool
  | .leaf s => ρ (.leaf s)
  | .group _ t _ => value ρ t
  | .join l s r =>
    match s.link? with
    | some link => link.truth (value ρ l) (value ρ r)
    | none => ρ (.join l s r)
  | .before _ t => !value ρ t
  | .after t _ => value ρ t

/-- The code is a condition with the reading. Line ends and semicolons in it do not count. -/
structure Spells (code : Text) (t : Reading) : Prop where
  fits : Fits grammar 0 t
  tokens : tokens t = (lexInline code 0).filter (!·.isPunct [";"])

def contextOf (code : Text) (constants : Bindings Value) : NormalizeContext :=
  ⟨[], .ofText code, constants⟩

/-! ### Forms of readings -/

theorem Symbol.role_eq_sign {s : Symbol} {n : Nat} (h : s.role = .sign n) :
    ∃ sign token content, s = .sign sign token content ∧ sign.level = n := by
  cases s with
  | sign sign token content => exact ⟨sign, token, content, rfl, by simpa [role] using h⟩
  | operand | opener | closer => simp [role] at h

/-- Induction on a reading: an operand, a condition in parentheses, a comparison, two conditions that a
sign joins, and a condition with one of the two negations before it. -/
theorem fits_ind {motive : Nat → Reading → Prop}
    (operand : ∀ k o, motive k (.leaf (.operand o)))
    (group : ∀ k opener hopener t closer hcloser, Fits grammar 0 t → motive 0 t →
      motive k (.group (.opener opener hopener) t (.closer closer hcloser)))
    (compare : ∀ k op token content l r, k ≤ 4 → Fits grammar 5 l → Fits grammar 5 r → motive 5 l →
      motive 5 r → motive k (.join l (.sign (.compare op) token content) r))
    (joined : ∀ k sign token content link l r, (Symbol.sign sign token content).link? = some link →
      k ≤ sign.level → Fits grammar sign.level l → Fits grammar (sign.level + 1) r →
      motive sign.level l → motive (sign.level + 1) r →
      motive k (.join l (.sign sign token content) r))
    (bang : ∀ k token content t, Fits grammar 5 t → motive 5 t →
      motive k (.before (.sign .bang token content) t))
    (word : ∀ k token content t, k ≤ 1 → Fits grammar 1 t → motive 1 t →
      motive k (.before (.sign .not token content) t))
    {k : Nat} {t : Reading} (h : Fits grammar k t) : motive k t := by
  induction h with
  | @leaf k s hs =>
    cases s with
    | operand o => exact operand k o
    | opener | closer | sign => simp [grammar, Symbol.role] at hs
  | @group k o t c ho hc ht ih =>
    cases o with
    | opener o ho' =>
      cases c with
      | closer c hc' => exact group k o ho' t c hc' ht ih
      | opener | operand | sign => simp [grammar, Symbol.role] at hc
    | closer | operand | sign => simp [grammar, Symbol.role] at ho
  -- the signs of a level stand alike, so a sign that stands otherwise has another level
  | @left k n l s r hs hn hk hl hr ihl ihr =>
    obtain ⟨sign, token, content, rfl, rfl⟩ := Symbol.role_eq_sign hs
    cases sign with
    | both | either | and | or => exact joined k _ token content _ l r rfl hk hl hr ihl ihr
    | bang | not | compare => exact absurd hn (by simp [grammar, Sign.level])
  | @apart k n l s r hs hn hk hl hr ihl ihr =>
    obtain ⟨sign, token, content, rfl, rfl⟩ := Symbol.role_eq_sign hs
    cases sign with
    | compare op => exact compare k op token content l r hk hl hr ihl ihr
    | both | either | and | or | bang | not => exact absurd hn (by simp [grammar, Sign.level])
  | @before k n s t hs hn hk ht ih =>
    obtain ⟨sign, token, content, rfl, rfl⟩ := Symbol.role_eq_sign hs
    cases sign with
    | bang => exact bang k token content t ht ih
    | not => exact word k token content t hk ht ih
    | both | either | and | or | compare => exact absurd hn (by simp [grammar, Sign.level])
  | @after k n s t hs hn hk ht ih =>
    obtain ⟨sign, token, content, rfl, rfl⟩ := Symbol.role_eq_sign hs
    cases sign <;> exact absurd hn (by simp [grammar, Sign.level])

/-- Induction on a side of a comparison. -/
theorem side_ind {motive : Reading → Prop} (operand : ∀ o, motive (.leaf (.operand o)))
    (group : ∀ opener hopener t closer hcloser, Fits grammar 0 t →
      motive (.group (.opener opener hopener) t (.closer closer hcloser)))
    (bang : ∀ token content t, motive t → motive (.before (.sign .bang token content) t))
    {t : Reading} (h : Fits grammar 5 t) : motive t := by
  refine fits_ind (motive := fun k t => 5 ≤ k → motive t) (fun _ o _ => operand o)
    (fun _ opener hopener t closer hcloser ht _ _ => group opener hopener t closer hcloser ht) ?compare
    ?joined (fun _ token content t _ ih _ => bang token content t (ih le_rfl)) ?word h le_rfl
  case compare =>
    intro k op token content l r hk _ _ _ _ hlevel
    omega
  case joined =>
    intro k sign token content link l r hlink hk _ _ _ _ hlevel
    cases sign with
    | both | either | and | or =>
      simp only [Sign.level] at hk
      omega
    | bang | not | compare => simp [Symbol.link?] at hlink
  case word =>
    intro k token content t hk _ _ hlevel
    omega

/-! ### The tokens of a reading -/

section Tokens

variable {k : Nat} {t l r : Reading} {s : Sign} {token : Token}

theorem Sign.not_bracket (h : token.content = s.content) :
    token.isOpener = false ∧ token.isCloser = false := by
  unfold Token.isOpener Token.isCloser Token.isPunct Token.isOneOf
  rw [h]
  cases s with
  | compare op => cases op <;> exact ⟨rfl, rfl⟩
  | bang | both | either | not | and | or => exact ⟨rfl, rfl⟩

theorem Sign.compareOp? {op : CompareOp} (h : token.content = (Sign.compare op).content) :
    token.compareOp? = some op := by
  unfold Token.compareOp? Token.valueOf?
  rw [h]
  cases op <;> rfl

theorem Sign.negates_of_before (h : token.content = Sign.bang.content ∨ token.content = Sign.not.content) :
    token.negates = true := by
  unfold Token.negates Token.isPunct Token.isKeyword Token.isOneOf
  rcases h with h | h <;> rw [h] <;> rfl

theorem isWhole_opener (h : token.isPunct ["("] = true) (depth : Nat) (more : List Token) :
    isWhole depth (token :: more) = isWhole (depth + 1) more := by
  have hopener : token.isOpener = true := Token.isOneOf_of_subset h (by simp)
  rw [isWhole, if_pos hopener]

theorem isWhole_closer (h : token.isPunct [")"] = true) (depth : Nat) (more : List Token) :
    isWhole (depth + 1) (token :: more) = isWhole depth more := by
  have hcloser : token.isCloser = true := Token.isOneOf_of_subset h (by simp)
  have hopener := Token.not_isOpener_of_isCloser hcloser
  simp [isWhole, hopener, hcloser]

theorem isWhole_sign (h : token.content = s.content) (depth : Nat) (more : List Token) :
    isWhole (depth + 1) (token :: more) = isWhole (depth + 1) more := by
  obtain ⟨hopener, hcloser⟩ := Sign.not_bracket h
  simp [isWhole, hopener, hcloser]

theorem isWhole_tokens (h : Fits grammar k t) (depth : Nat) (more : List Token) :
    isWhole (depth + 1) (tokens t ++ more) = isWhole (depth + 1) more := by
  refine fits_ind (motive := fun _ t => ∀ depth more,
    isWhole (depth + 1) (tokens t ++ more) = isWhole (depth + 1) more) ?operand ?group ?compare ?joined
    ?bang ?word h depth more
  case operand =>
    intro k o depth more
    simpa [Symbol.tokens] using isWhole_append o.whole (depth + 1) more
  case group =>
    intro k opener hopener t closer hcloser _ ih depth more
    simp only [tokens_group, Symbol.tokens, List.append_assoc, List.cons_append, List.nil_append]
    rw [isWhole_opener hopener, ih, isWhole_closer hcloser]
  case compare =>
    intro k op token content l r _ _ _ ihl ihr depth more
    simp only [tokens_join, Symbol.tokens, List.append_assoc, List.cons_append, List.nil_append]
    rw [ihl, isWhole_sign content, ihr]
  case joined =>
    intro k sign token content link l r _ _ _ _ ihl ihr depth more
    simp only [tokens_join, Symbol.tokens, List.append_assoc, List.cons_append, List.nil_append]
    rw [ihl, isWhole_sign content, ihr]
  case bang =>
    intro k token content t _ ih depth more
    simp only [tokens_before, Symbol.tokens, List.cons_append, List.nil_append]
    rw [isWhole_sign content, ih]
  case word =>
    intro k token content t _ _ ih depth more
    simp only [tokens_before, Symbol.tokens, List.cons_append, List.nil_append]
    rw [isWhole_sign content, ih]

theorem isWhole_side (h : Fits grammar 5 t) : isWhole 0 (tokens t) = true := by
  refine side_ind (motive := fun t => isWhole 0 (tokens t) = true) ?operand ?group ?bang h
  case operand =>
    intro o
    simpa [Symbol.tokens] using o.whole
  case group =>
    intro opener hopener t closer hcloser ht
    simp only [tokens_group, Symbol.tokens, List.cons_append, List.nil_append]
    rw [isWhole_opener hopener, isWhole_tokens ht, isWhole_closer hcloser]
    rfl
  case bang =>
    intro token content t ih
    obtain ⟨hopener, hcloser⟩ := Sign.not_bracket content
    have hends : token.endsOperand = false := by
      obtain ⟨_, start, stop, text, spaceBefore⟩ := token
      obtain rfl := content
      rfl
    rw [tokens_before, Symbol.tokens, List.singleton_append, isWhole]
    simpa [hopener, hcloser, hends] using ih

end Tokens

/-! ### Operands and comparisons as parts -/

/-- The condition of an operand or a comparison, perhaps with negations before it. -/
def atom? (ctx : NormalizeContext) : List Token → Option Condition
  | [] => none
  | t :: rest =>
    if t.negates then (atom? ctx rest).map .not else (ctx.comparison? (t :: rest)).map Prod.fst

section Atoms

variable {ctx : NormalizeContext} {run : List Token} {l r : Reading} {token : Token}

theorem atom?_of_head (hne : run ≠ []) (h : run.head?.any Token.negates = false) :
    atom? ctx run = (ctx.comparison? run).map Prod.fst := by
  obtain ⟨t, rest, rfl⟩ := List.exists_cons_of_ne_nil hne
  have ht : t.negates = false := h
  simp [atom?, ht]

theorem atom?_isJoint {c : Condition} (h : atom? ctx run = some c) : c.isJoint = false := by
  induction run generalizing c with
  | nil => simp [atom?] at h
  | cons t rest ih =>
    rw [atom?] at h
    split at h
    · obtain ⟨inner, hinner, rfl⟩ := Option.map_eq_some_iff.1 h
      have hjoint : inner.isJoint = false := ih hinner
      exact hjoint
    · obtain ⟨⟨_, rest⟩, hread, rfl⟩ := Option.map_eq_some_iff.1 h
      exact NormalizeContext.comparison?_isJoint hread

theorem reads_operand (o : Operand) : Part.Reads ctx ⟨o.run, atom? ctx o.run⟩ := by
  rw [atom?_of_head o.nonempty o.negatesNothing]
  exact .operand o.nonempty o.whole o.negatesNothing o.noGroup

/-- A comparison is one part, with the negations of its left side before it. -/
theorem reads_compare {op : CompareOp} (content : token.content = (Sign.compare op).content)
    (hl : Fits grammar 5 l) (hr : Fits grammar 5 r) :
    Part.Reads ctx ⟨tokens l ++ token :: tokens r, atom? ctx (tokens l ++ token :: tokens r)⟩ := by
  have hop := Sign.compareOp? content
  have hends : token.endsGroup = false := by
    by_contra hends
    rw [(Token.endsGroup_cases (by simpa using hends)).1] at hop
    exact absurd hop (by simp)
  have hplain : ∀ left : List Token, left ≠ [] → isWhole 0 left = true →
      left.head?.any Token.negates = false →
      Part.Reads ctx ⟨left ++ token :: tokens r, atom? ctx (left ++ token :: tokens r)⟩ := by
    intro left hne hwhole hhead
    rw [atom?_of_head (by simp) (by rwa [List.head?_append_of_ne_nil _ hne])]
    exact .compare hop hne hwhole (isWhole_side hr) hhead (opensGroup_compare hne hwhole hends)
  refine side_ind (motive := fun l => Part.Reads ctx ⟨tokens l ++ token :: tokens r,
    atom? ctx (tokens l ++ token :: tokens r)⟩) ?operand ?group ?bang hl
  case operand =>
    intro o
    rw [tokens_leaf, Symbol.tokens]
    exact hplain o.run o.nonempty o.whole o.negatesNothing
  case group =>
    intro opener hopener t closer hcloser ht
    have hside : Fits grammar 5 (.group (.opener opener hopener) t (.closer closer hcloser)) :=
      .group rfl rfl ht
    refine hplain _ (by simp [Symbol.tokens]) (isWhole_side hside) ?_
    obtain ⟨content, start, stop, text, spaceBefore⟩ := opener
    obtain rfl : content = .name .punct "(" := by simpa [Token.isPunct, Token.isOneOf_iff] using hopener
    rfl
  case bang =>
    intro bang content t ih
    have hnegates := Sign.negates_of_before (.inl content)
    simpa [Symbol.tokens, atom?, hnegates] using ih.negated hnegates

end Atoms

/-! ### The chain of the parser -/

/-- The chain of a reading: the parser does not tell the words from the other signs, and a negation
before a chain goes to its first part. -/
def chainWith {α : Type} (atom : Reading → α) (group : Symbol → Chain α → Symbol → α)
    (negate : Symbol → α → α) : Reading → Chain α
  | .leaf s => .last (atom (.leaf s))
  | .group opener t closer => .last (group opener (chainWith atom group negate t) closer)
  | .join l s r =>
    match s.link? with
    | some link => (chainWith atom group negate l).append link (chainWith atom group negate r)
    | none => .last (atom (.join l s r))
  | .before s t => (chainWith atom group negate t).mapHead (negate s)
  | .after t _ => chainWith atom group negate t

def chain (ctx : NormalizeContext) : Reading → Chain Part :=
  chainWith (fun t => ⟨tokens t, atom? ctx (tokens t)⟩)
    (fun opener c closer => ⟨opener.tokens ++ (c.tokens ++ closer.tokens), c.condition?⟩)
    fun s p => ⟨s.tokens ++ p.run, p.condition?.map .not⟩

section Chain

variable {ctx : NormalizeContext} {k : Nat} {t l r : Reading} {s : Symbol} {link : Link}

theorem Symbol.isJoin_of_link? (h : s.link? = some link) : link.isJoin = true ∧ s.tokens = [link.join] := by
  cases s with
  | sign sign token content =>
    cases sign with
    | both | either | and | or =>
      obtain rfl := Option.some.inj h
      refine ⟨?_, rfl⟩
      simp only [Link.isJoin, Token.isAnd, Token.isOr, Token.isPunct, Token.isKeyword, Token.isOneOf, content]
      rfl
    | bang | not | compare => simp [link?] at h
  | operand | opener | closer => simp [link?] at h

section

variable {α : Type} {atom : Reading → α} {group : Symbol → Chain α → Symbol → α} {negate : Symbol → α → α}

theorem chainWith_joined (h : s.link? = some link) :
    chainWith atom group negate (.join l s r) =
      (chainWith atom group negate l).append link (chainWith atom group negate r) := by
  rw [chainWith, h]

theorem chainWith_apart (h : s.link? = none) :
    chainWith atom group negate (.join l s r) = .last (atom (.join l s r)) := by
  rw [chainWith, h]

end

theorem tokens_mapHead (c : Chain Part) (token : Token) :
    (c.mapHead fun p => ⟨token :: p.run, p.condition?.map .not⟩).tokens = token :: c.tokens := by
  cases c <;> rfl

/-- The parser reads the chain of the reading. -/
theorem chain_reads (h : Fits grammar k t) :
    (chain ctx t).Reads ctx ∧ (chain ctx t).tokens = tokens t := by
  refine fits_ind (motive := fun _ t => (chain ctx t).Reads ctx ∧ (chain ctx t).tokens = tokens t)
    ?operand ?group ?compare ?joined ?bang ?word h
  case operand =>
    intro k o
    refine ⟨?_, rfl⟩
    change Part.Reads ctx ⟨tokens _, atom? ctx (tokens _)⟩
    rw [tokens_leaf]
    exact reads_operand o
  case group =>
    intro k opener hopener t closer hcloser _ ih
    refine ⟨Part.Reads.grouped hopener hcloser ih.1, ?_⟩
    rw [tokens_group, ← ih.2]
    rfl
  case compare =>
    intro k op token content l r _ hl hr _ _
    rw [chain, chainWith_apart rfl]
    refine ⟨?_, rfl⟩
    change Part.Reads ctx ⟨tokens _, atom? ctx (tokens _)⟩
    rw [tokens_join, Symbol.tokens, List.append_assoc, List.singleton_append]
    exact reads_compare content hl hr
  case joined =>
    intro k sign token content link l r hlink _ _ _ ihl ihr
    obtain ⟨hjoin, htokens⟩ := Symbol.isJoin_of_link? hlink
    rw [chain, chainWith_joined hlink]
    refine ⟨ihl.1.append hjoin ihr.1, ?_⟩
    rw [Chain.tokens_append, tokens_join, htokens, ← ihl.2, ← ihr.2]
    simp [chain]
  case bang =>
    intro k token content t _ ih
    refine ⟨ih.1.negated (Sign.negates_of_before (.inl content)), ?_⟩
    rw [tokens_before, ← ih.2]
    exact tokens_mapHead _ token
  case word =>
    intro k token content t _ _ ih
    refine ⟨ih.1.negated (Sign.negates_of_before (.inr content)), ?_⟩
    rw [tokens_before, ← ih.2]
    exact tokens_mapHead _ token

/-- The condition of code is that of the chain of its reading. -/
theorem parseCondition?_spelled {code : Text} (h : Spells code t) (constants : Bindings Value) :
    parseCondition? code constants = (chain (contextOf code constants) t).condition? := by
  have hchain : (chain (contextOf code constants) t).Reads _ ∧ _ = tokens t := chain_reads h.fits
  obtain ⟨hreads, htokens⟩ := hchain
  have hne : (tokens t).isEmpty = false := by
    rw [← htokens]
    simpa using hreads.tokens_ne_nil
  unfold parseCondition?
  rw [← h.tokens, if_neg (by simp [hne]), ← htokens]
  exact condition?_chain hreads

end Chain

end Binding

/-! ### The truth of a chain -/

theorem holds_conjoin (σ : Condition → Bool) (cs : List Condition) :
    (conjoin cs).holds σ = cs.all (·.holds σ) := by
  unfold conjoin
  split
  · simp
  · exact Condition.holds_all σ _

theorem holds_disjoin (σ : Condition → Bool) (cs : List Condition) :
    (disjoin cs).holds σ = cs.any (·.holds σ) := by
  unfold disjoin
  split
  · simp
  · exact Condition.holds_any σ _

def Part.holds (σ : Condition → Bool) (p : Part) : Bool := p.condition?.any (·.holds σ)

namespace Chain

/-- Whether the first conjunction of a chain holds. -/
def lead : Chain Bool → Bool
  | last b => b
  | both b _ rest => b && rest.lead
  | either b _ _ => b

/-- Whether one of the later conjunctions holds. -/
def later : Chain Bool → Bool
  | last _ => false
  | both _ _ rest => rest.later
  | either _ _ rest => rest.lead || rest.later

def holds (c : Chain Bool) : Bool := c.lead || c.later

/-- Whether the condition of each part is known. -/
def Known : Chain Part → Prop
  | last p => p.condition?.isSome = true
  | both p _ rest => p.condition?.isSome = true ∧ rest.Known
  | either p _ rest => p.condition?.isSome = true ∧ rest.Known

section Truth

variable {c d : Chain Part} {σ : Condition → Bool}

theorem known_append {link : Link} : (c.append link d).Known ↔ c.Known ∧ d.Known := by
  induction c with
  | last p => cases link <;> rfl
  | both p join rest ih => simp only [append, Known, ih, and_assoc]
  | either p join rest ih => simp only [append, Known, ih, and_assoc]

theorem all_row? {row : List Condition} (h : c.row? = some row) :
    row.all (·.holds σ) = (c.map (Part.holds σ)).lead := by
  induction c generalizing row with
  | last p =>
    obtain ⟨k, hk, rfl⟩ := Option.map_eq_some_iff.1 h
    simp [map, lead, Part.holds, hk]
  | both p join rest ih =>
    simp only [row?, Option.bind_eq_bind, Option.bind_eq_some_iff, Option.pure_def, Option.some.injEq] at h
    obtain ⟨k, hk, ks, hks, rfl⟩ := h
    simp [map, lead, Part.holds, hk, ih hks]
  | either p join rest ih =>
    obtain ⟨k, hk, rfl⟩ := Option.map_eq_some_iff.1 h
    simp [map, lead, Part.holds, hk]

theorem any_later? {cs : List Condition} (h : c.later? = some cs) :
    cs.any (·.holds σ) = (c.map (Part.holds σ)).later := by
  induction c generalizing cs with
  | last p =>
    obtain rfl := Option.some.inj h
    rfl
  | both p join rest ih => exact ih h
  | either p join rest ih =>
    simp only [later?, Option.bind_eq_bind, Option.bind_eq_some_iff, Option.pure_def, Option.some.injEq] at h
    obtain ⟨row, hrow, later, hlater, rfl⟩ := h
    simp [map, Chain.later, holds_conjoin, all_row? hrow, ih hlater]

/-- The condition of a chain holds when the chain of its parts does. -/
theorem holds_of_condition? {k : Condition} (h : c.condition? = some k) :
    k.holds σ = (c.map (Part.holds σ)).holds := by
  simp only [condition?, Option.bind_eq_bind, Option.bind_eq_some_iff, Option.pure_def,
    Option.some.injEq] at h
  obtain ⟨row, hrow, later, hlater, rfl⟩ := h
  rw [holds_disjoin, List.any_cons, holds_conjoin, all_row? hrow, any_later? hlater, holds]

theorem known_of_rows {row later : List Condition} (hrow : c.row? = some row)
    (hlater : c.later? = some later) : c.Known := by
  induction c generalizing row later with
  | last p =>
    obtain ⟨k, hk, -⟩ := Option.map_eq_some_iff.1 hrow
    simp [Known, hk]
  | both p join rest ih =>
    simp only [row?, Option.bind_eq_bind, Option.bind_eq_some_iff, Option.pure_def] at hrow
    obtain ⟨k, hk, ks, hks, -⟩ := hrow
    exact ⟨by simp [hk], ih hks hlater⟩
  | either p join rest ih =>
    obtain ⟨k, hk, -⟩ := Option.map_eq_some_iff.1 hrow
    simp only [later?, Option.bind_eq_bind, Option.bind_eq_some_iff, Option.pure_def] at hlater
    obtain ⟨ks, hks, later, hlater, -⟩ := hlater
    exact ⟨by simp [hk], ih hks hlater⟩

theorem known_of_condition? {k : Condition} (h : c.condition? = some k) : c.Known := by
  simp only [condition?, Option.bind_eq_bind, Option.bind_eq_some_iff, Option.pure_def] at h
  obtain ⟨row, hrow, later, hlater, -⟩ := h
  exact known_of_rows hrow hlater

/-- A negation of the first part turns its truth around. -/
theorem map_negated (σ : Condition → Bool) {run : List Token}
    (h : (c.mapHead fun p => ⟨run ++ p.run, p.condition?.map .not⟩).Known) :
    c.Known ∧ (c.mapHead fun p => ⟨run ++ p.run, p.condition?.map .not⟩).map (Part.holds σ) =
      (c.map (Part.holds σ)).mapHead (!·) := by
  have hpart : ∀ p : Part, (p.condition?.map Condition.not).isSome = true →
      p.condition?.isSome = true ∧
        Part.holds σ ⟨run ++ p.run, p.condition?.map .not⟩ = !Part.holds σ p := by
    intro p hp
    cases hk : p.condition? with
    | none => simp [hk] at hp
    | some k => simp [Part.holds, hk, Condition.holds]
  cases c with
  | last p => exact ⟨(hpart p h).1, congrArg last (hpart p h).2⟩
  | both p join rest =>
    refine ⟨⟨(hpart p h.1).1, h.2⟩, ?_⟩
    simp only [mapHead, map, (hpart p h.1).2]
  | either p join rest =>
    refine ⟨⟨(hpart p h.1).1, h.2⟩, ?_⟩
    simp only [mapHead, map, (hpart p h.1).2]

end Truth

end Chain

namespace Binding

/-- The truth of the parts of a chain, given that of the operands and comparisons. -/
def cells (α : Reading → Bool) : Reading → Chain Bool :=
  chainWith α (fun _ c _ => c.holds) fun _ b => !b

section Truth

variable {ctx : NormalizeContext} {k : Nat} {t : Reading} {σ : Condition → Bool}

def atomHolds (ctx : NormalizeContext) (σ : Condition → Bool) (t : Reading) : Bool :=
  (atom? ctx (tokens t)).any (·.holds σ)

/-- The truth of the parts depends on that of the operands and comparisons alone. -/
theorem map_chain (h : (chain ctx t).Known) :
    (chain ctx t).map (Part.holds σ) = cells (atomHolds ctx σ) t := by
  induction t with
  | leaf s => rfl
  | group opener t closer ih =>
    have hsome : (chain ctx t).condition?.isSome = true := h
    obtain ⟨k, hk⟩ := Option.isSome_iff_exists.1 hsome
    have hholds : (chain ctx t).condition?.any (·.holds σ) = (cells (atomHolds ctx σ) t).holds := by
      rw [hk, Option.any_some, Chain.holds_of_condition? hk, ih (Chain.known_of_condition? hk)]
    exact congrArg Chain.last hholds
  | join l s r ihl ihr =>
    cases hlink : s.link? with
    | none =>
      rw [chain, cells, chainWith_apart hlink, chainWith_apart hlink]
      rfl
    | some link =>
      rw [chain, chainWith_joined hlink] at h ⊢
      rw [cells, chainWith_joined hlink, Chain.map_append]
      obtain ⟨hl, hr⟩ := Chain.known_append.1 h
      exact congrArg₂ (Chain.append link) (ihl hl) (ihr hr)
  | before s t ih =>
    obtain ⟨hknown, hmap⟩ := Chain.map_negated σ h
    exact hmap.trans (congrArg _ (ih hknown))
  | after t s ih => exact ih h

/-- A condition that was read holds when the chain of its parts does. -/
theorem holds_of_chain {c : Condition} (h : (chain ctx t).condition? = some c) :
    c.holds σ = (cells (atomHolds ctx σ) t).holds := by
  rw [Chain.holds_of_condition? h, map_chain (Chain.known_of_condition? h)]

end Truth

end Binding

end Cookbook
