import Cookbook.Number.Reading
import Cookbook.Proofs.Number.Spelling
import Cookbook.Proofs.Phrase
import Cookbook.Proofs.Value.Quoting

/-!
Reading the text of an expression. The units of the text give tokens, the tokens give symbols, and the
symbols are read by how tightly their signs bind: filters and tests tighter than `~`, and `~` tighter
than comparisons and membership. What stands in brackets directly behind an operand is an access to it,
which binds tightest.

* `lex?` gives the symbols, `ReadAs` is the reading of a text as a tree, `ReadAs.unique` says that there is
  at most one;
* `Leads` is the same for a part of a text, and `Leads.append` puts parts together;
* `regroup` groups chains of `~` to the left, and `exists_readAs_sameValue_iff` says that this decides
  whether a text is read with the value of a tree wherever the grouping of `~` does not matter.
-/

namespace Cookbook

open Phrase

namespace Expression

/-! ### Tokens -/

/-- What a run of units is. -/
inductive RunKind where
  | name
  | number
  | sign
deriving DecidableEq

namespace RunKind

def goesOn : RunKind → CodeUnit → Bool
  | name, c => c.isNameUnit
  | number, c => Number.isDecimalUnit c
  | sign, c => ("=!<>~|" : Text).contains c

/-- The kind of run that a unit begins. A point begins the name of a member. -/
def ofStart? (c : CodeUnit) : Option RunKind :=
  if c.isNameStart || c == '.' then some name
  else if c.isDigit || c == '-' then some number
  else if sign.goesOn c then some sign
  else none

end RunKind

/-- A token. A string is kept as it stands between its quotes. -/
inductive Token where
  | run (kind : RunKind) (t : Text)
  | string (t : Text)
  | mark (c : CodeUnit)
deriving DecidableEq

/-- Where a scan of units stands. -/
inductive Spot where
  | outside
  | run (kind : RunKind) (t : Text)
  | string (t : Text)
  /-- In a string, behind a backslash. -/
  | escaped (t : Text)
deriving DecidableEq

namespace Spot

/-- One unit further from outside. Blanks only part tokens. -/
def enter (c : CodeUnit) : List Token × Spot :=
  if c = quoteMark then ([], string [])
  else if c = ' ' then ([], outside)
  else match RunKind.ofStart? c with
    | some kind => ([], run kind [c])
    | none => ([.mark c], outside)

/-- One unit further: the tokens that have ended, and where the scan stands then. -/
def next : Spot → CodeUnit → List Token × Spot
  | outside, c => enter c
  | run kind t, c =>
    if kind.goesOn c then ([], run kind (t ++ [c])) else (.run kind t :: (enter c).1, (enter c).2)
  | string t, c =>
    if c = quoteMark then ([.string t], outside)
    else if c = escapeMark then ([], escaped (t ++ [c]))
    else ([], string (t ++ [c]))
  | escaped t, c => ([], string (t ++ [c]))

/-- The tokens that the end of a text ends; none within a string. -/
def rest? : Spot → Option (List Token)
  | outside => some []
  | run kind t => some [.run kind t]
  | _ => none

end Spot

/-- The tokens that end in a text, and where the scan stands behind it. -/
def scan : Spot → Text → List Token × Spot
  | spot, [] => ([], spot)
  | spot, c :: t =>
    ((spot.next c).1 ++ (scan (spot.next c).2 t).1, (scan (spot.next c).2 t).2)

def tokens? (t : Text) : Option (List Token) :=
  (scan .outside t).2.rest?.map ((scan .outside t).1 ++ ·)

/-! ### Symbols -/

inductive Symbol where
  | operand (t : Text)
  | opener (c : CodeUnit)
  | closer (c : CodeUnit)
  | comma
  | colon
  /-- A comparison or a membership test. -/
  | relation (t : Text)
  | tilde
  | filter
  | test (t : Text)
  /-- Between an operand and an access to it. -/
  | access
deriving DecidableEq

def grammar : Grammar Symbol where
  role
    | .operand _ => .operand
    | .opener _ => .opens
    | .closer _ => .closes
    | .comma => .sign 0
    | .colon => .sign 1
    | .relation _ => .sign 2
    | .tilde => .sign 3
    | .filter => .sign 4
    | .test _ => .sign 4
    | .access => .sign 5
  fixity
    | 1 | 2 => .apart
    | _ => .left

def reservedWords : List Text := ["and", "or", "not", "in", "is", "if", "else"]

def isVariable (t : Text) : Bool := t.isName && !reservedWords.contains t

def isMember : Text → Bool
  | c :: name => c == '.' && Text.isName name
  | [] => false

/-- Digits, on both sides of an optional point, and an optional exponent. -/
def isUnsigned (t : Text) : Bool :=
  let behind := t.dropWhile CodeUnit.isDigit
  t.head?.any CodeUnit.isDigit &&
    if behind.head? = some '.' then
      behind.tail.head?.any CodeUnit.isDigit &&
        (Number.exponent? (behind.tail.dropWhile CodeUnit.isDigit)).isSome
    else (Number.exponent? behind).isSome

def isNumeral (t : Text) : Bool := isUnsigned (Number.takeSign t).2

/-- Where the reading of tokens stands. -/
inductive Place where
  /-- Before an operand. -/
  | start
  /-- Behind an opening bracket. -/
  | opened
  /-- Behind the sign of a test. -/
  | asked
  /-- Behind an operand or a closing bracket. -/
  | ended
deriving DecidableEq

def openers : Text := "([\x7b"

def closers : Text := ")]\x7d"

def begin? : Token → Option (List Symbol × Place)
  | .run .name t => if isVariable t then some ([.operand t], .ended) else none
  | .run .number t => if isNumeral t then some ([.operand t], .ended) else none
  | .run .sign _ => none
  | .string t => some ([.operand t.quoted], .ended)
  | .mark c => if c ∈ openers then some ([.opener c], .opened) else none

def comparisons : List Text := ["==", "!=", "<", ">", "<=", ">="]

def signOf? (t : Text) : Option Symbol :=
  if t = "~" then some .tilde
  else if t = "|" then some .filter
  else if comparisons.contains t then some (.relation t)
  else none

/-- A token behind an operand. A bracket there opens an access, unless it is a brace. -/
def continue? : Token → Option (List Symbol × Place)
  | .run .name t =>
    if t = "is" then some ([], .asked)
    else if t = "in" then some ([.relation t], .start)
    else if isMember t then some ([.access, .operand t], .ended)
    else none
  | .run .sign t => (signOf? t).map fun s => ([s], .start)
  | .mark c =>
    if c ∈ closers then some ([.closer c], .ended)
    else if c = '(' ∨ c = '[' then some ([.access, .opener c], .opened)
    else if c = ',' then some ([.comma], .start)
    else if c = ':' then some ([.colon], .start)
    else none
  | _ => none

/-- One token further. Brackets with nothing in them have an operand without text. -/
def Place.step : Place → Token → Option (List Symbol × Place)
  | start, token => begin? token
  | opened, .mark c => if c ∈ closers then some ([.operand [], .closer c], ended) else begin? (.mark c)
  | opened, token => begin? token
  | asked, token =>
    if token = .run .name "not" then some ([.test "is not"], start)
    else (begin? token).map fun (symbols, place) => (.test "is" :: symbols, place)
  | ended, token => continue? token

/-- The symbols of some tokens, and where the reading stands behind them. -/
def symbolsFrom? : Place → List Token → Option (List Symbol × Place)
  | place, [] => some ([], place)
  | place, token :: tokens => do
    let (symbols, place) ← place.step token
    let (more, place) ← symbolsFrom? place tokens
    pure (symbols ++ more, place)

/-- A part of a text has the given symbols and leads from one place to another. -/
def Leads (p : Place) (t : Text) (symbols : List Symbol) (q : Place) : Prop :=
  (tokens? t).bind (symbolsFrom? p) = some (symbols, q)

instance (p : Place) (t : Text) (symbols : List Symbol) (q : Place) : Decidable (Leads p t symbols q) :=
  inferInstanceAs (Decidable (_ = _))

def lex? (t : Text) : Option (List Symbol) := do
  let tokens ← tokens? t
  match ← symbolsFrom? .start tokens with
  | (symbols, .ended) => some symbols
  | _ => none

/-- The first bracket opens an access, the second a list. -/
example : lex? "vars['a'] in ['b' ~ c]" =
    some [.operand "vars", .access, .opener '[', .operand "'a'", .closer ']', .relation "in",
      .opener '[', .operand "'b'", .tilde, .operand "c", .closer ']'] := by decide +kernel

theorem leads_iff {p q : Place} {t : Text} {symbols : List Symbol} :
    Leads p t symbols q ↔
      ∃ tokens, tokens? t = some tokens ∧ symbolsFrom? p tokens = some (symbols, q) :=
  Option.bind_eq_some_iff

theorem lex?_eq_some_iff {t : Text} {symbols : List Symbol} :
    lex? t = some symbols ↔ Leads .start t symbols .ended := by
  unfold lex? Leads
  cases tokens? t with
  | none => simp
  | some tokens =>
    cases hfrom : symbolsFrom? .start tokens with
    | none => simp [hfrom]
    | some result =>
      obtain ⟨found, place⟩ := result
      cases place <;> simp [hfrom]

/-! ### Parts of a text -/

theorem scan_append (spot : Spot) (a b : Text) :
    scan spot (a ++ b) = ((scan spot a).1 ++ (scan (scan spot a).2 b).1, (scan (scan spot a).2 b).2) := by
  induction a generalizing spot with
  | nil => rfl
  | cons c a ih => simp only [List.cons_append, scan, ih, List.append_assoc]

/-- The unit goes on with no run that the text may end with. -/
def Parts (tokens : List Token) (c : CodeUnit) : Prop :=
  ∀ kind t, tokens.getLast? = some (.run kind t) → kind.goesOn c = false

/-- A unit that goes on with no run at all. -/
def isBreak (c : CodeUnit) : Bool :=
  !RunKind.name.goesOn c && !RunKind.number.goesOn c && !RunKind.sign.goesOn c

theorem parts_of_isBreak {c : CodeUnit} (h : isBreak c = true) (tokens : List Token) :
    Parts tokens c := by
  intro kind t _
  simp only [isBreak, Bool.and_eq_true, Bool.not_eq_true'] at h
  cases kind with
  | name => exact h.1.1
  | number => exact h.1.2
  | sign => exact h.2

theorem tokens?_append {a b : Text} {as bs : List Token} (ha : tokens? a = some as)
    (hb : tokens? b = some bs) (h : ∀ c ∈ b.head?, Parts as c) : tokens? (a ++ b) = some (as ++ bs) := by
  obtain ⟨rest, hrest, rfl⟩ := Option.map_eq_some_iff.1 ha
  unfold tokens? at hb ⊢
  rw [scan_append]
  dsimp only
  cases hspot : (scan .outside a).2 with
  | outside =>
    rw [hspot] at hrest
    obtain rfl := Option.some.inj hrest
    obtain ⟨more, hmore, rfl⟩ := Option.map_eq_some_iff.1 hb
    rw [hmore]
    simp
  | run kind t =>
    rw [hspot] at hrest
    obtain rfl := Option.some.inj hrest
    cases b with
    | nil =>
      obtain rfl : [] = bs := by simpa [scan, Spot.rest?] using hb
      simp [scan, Spot.rest?]
    | cons c b =>
      -- the unit ends the run and is read as from outside
      have hgoes : kind.goesOn c = false := h c rfl kind t (by simp)
      have hscan : scan (.run kind t) (c :: b) =
          (.run kind t :: (scan .outside (c :: b)).1, (scan .outside (c :: b)).2) := by
        simp [scan, Spot.next, hgoes]
      obtain ⟨more, hmore, rfl⟩ := Option.map_eq_some_iff.1 hb
      rw [hscan, hmore]
      simp
  | string | escaped =>
    rw [hspot] at hrest
    cases hrest

/-- A text that leaves the scan outside can be put before any other. -/
theorem tokens?_append_of_outside {a b : Text} {as bs : List Token} (ha : tokens? a = some as)
    (houtside : (scan .outside a).2 = .outside) (hb : tokens? b = some bs) :
    tokens? (a ++ b) = some (as ++ bs) := by
  obtain ⟨more, hmore, rfl⟩ := Option.map_eq_some_iff.1 hb
  obtain rfl : (scan .outside a).1 = as := by simpa [tokens?, houtside, Spot.rest?] using ha
  rw [tokens?, scan_append, houtside, hmore]
  simp

theorem symbolsFrom?_append {p q r : Place} {as bs : List Token} {ss us : List Symbol}
    (ha : symbolsFrom? p as = some (ss, q)) (hb : symbolsFrom? q bs = some (us, r)) :
    symbolsFrom? p (as ++ bs) = some (ss ++ us, r) := by
  induction as generalizing p ss with
  | nil =>
    obtain ⟨rfl, rfl⟩ : [] = ss ∧ p = q := by simpa [symbolsFrom?] using ha
    exact hb
  | cons token as ih =>
    simp only [symbolsFrom?, Option.bind_eq_bind, Option.bind_eq_some_iff, Prod.exists] at ha
    obtain ⟨first, p', hstep, more, q', hmore, heq⟩ := ha
    obtain ⟨rfl, rfl⟩ : first ++ more = ss ∧ q' = q := by simpa using heq
    rw [List.cons_append, symbolsFrom?, hstep]
    simp [ih hmore]

namespace Leads

variable {p q r : Place} {a b : Text} {ss us : List Symbol}

/-- A part and one behind it that begins with a unit that ends every run. -/
theorem append (ha : Leads p a ss q) (hb : Leads q b us r) (h : b.head?.all isBreak = true) :
    Leads p (a ++ b) (ss ++ us) r := by
  obtain ⟨as, hatokens, hasymbols⟩ := leads_iff.1 ha
  obtain ⟨bs, hbtokens, hbsymbols⟩ := leads_iff.1 hb
  refine leads_iff.2 ⟨as ++ bs, ?_, symbolsFrom?_append hasymbols hbsymbols⟩
  exact tokens?_append hatokens hbtokens fun c hc =>
    parts_of_isBreak ((Option.all_eq_true _ _).1 h c hc) as

/-- A part that leaves the scan outside, and one behind it. -/
theorem before (ha : Leads p a ss q) (houtside : (scan .outside a).2 = .outside) (hb : Leads q b us r) :
    Leads p (a ++ b) (ss ++ us) r := by
  obtain ⟨as, hatokens, hasymbols⟩ := leads_iff.1 ha
  obtain ⟨bs, hbtokens, hbsymbols⟩ := leads_iff.1 hb
  exact leads_iff.2 ⟨as ++ bs, tokens?_append_of_outside hatokens houtside hbtokens,
    symbolsFrom?_append hasymbols hbsymbols⟩

theorem opened (h : Leads .start a ss .ended) : Leads .opened a ss .ended := by
  obtain ⟨tokens, htokens, hsymbols⟩ := leads_iff.1 h
  refine leads_iff.2 ⟨tokens, htokens, ?_⟩
  cases tokens with
  | nil => cases hsymbols
  | cons token tokens =>
    simp only [symbolsFrom?, Option.bind_eq_bind, Option.bind_eq_some_iff, Prod.exists] at hsymbols ⊢
    obtain ⟨first, place, hstep, hrest⟩ := hsymbols
    refine ⟨first, place, ?_, hrest⟩
    cases token with
    | run | string => exact hstep
    | mark c =>
      have hopener : c ∈ openers := by
        by_contra hnot
        simp [Place.step, begin?, hnot] at hstep
      have hcloser : c ∉ closers := by
        have hall : (openers.all fun d => !closers.contains d) = true := by decide
        simpa using List.all_eq_true.1 hall c hopener
      rw [Place.step, if_neg hcloser]
      exact hstep

end Leads

/-! ### Operands -/

section Operands

variable {kind : RunKind} {c : CodeUnit} {t more : Text}

theorem scan_run (w : Text) (h : ∀ c ∈ more, kind.goesOn c = true) :
    scan (.run kind w) more = ([], .run kind (w ++ more)) := by
  induction more generalizing w with
  | nil => simp [scan]
  | cons c more ih =>
    obtain ⟨hc, hmore⟩ := List.forall_mem_cons.1 h
    simp [scan, Spot.next, hc, ih _ hmore]

theorem tokens?_run (hstart : RunKind.ofStart? c = some kind) (hmore : ∀ d ∈ more, kind.goesOn d = true) :
    tokens? (c :: more) = some [.run kind (c :: more)] := by
  have hquote : c ≠ quoteMark := by
    rintro rfl
    cases hstart
  have hblank : c ≠ CodeUnit.ofChar ' ' := by
    rintro rfl
    cases hstart
  have henter : Spot.enter c = ([], .run kind [c]) := by
    simp [Spot.enter, hquote, hblank, hstart]
  simp [tokens?, scan, Spot.next, henter, scan_run [c] hmore, Spot.rest?]

theorem tokens?_name (h : t.isName = true) : tokens? t = some [.run .name t] := by
  cases t with
  | nil => exact absurd h (by decide)
  | cons c more =>
    obtain ⟨hfirst, hmore⟩ := Bool.and_eq_true_iff.1 h
    refine tokens?_run ?_ (List.all_eq_true.1 hmore)
    simp [RunKind.ofStart?, hfirst]

theorem tokens?_member (h : t.isName = true) : tokens? ("." ++ t) = some [.run .name ("." ++ t)] := by
  cases t with
  | nil => exact absurd h (by decide)
  | cons c more =>
    obtain ⟨hfirst, hmore⟩ := Bool.and_eq_true_iff.1 h
    refine tokens?_run (by decide) (List.forall_mem_cons.2 ⟨?_, List.all_eq_true.1 hmore⟩)
    simp [RunKind.goesOn, CodeUnit.isNameUnit, hfirst]

theorem leads_variable (h : isVariable t = true) : Leads .start t [.operand t] .ended := by
  have hname : t.isName = true := (Bool.and_eq_true_iff.1 h).1
  refine leads_iff.2 ⟨_, tokens?_name hname, ?_⟩
  simp [symbolsFrom?, Place.step, begin?, h]

/-! Numbers -/

/-- An exponent is read, and begins with neither a digit nor a point. -/
theorem exponent?_isSome (h : Number.IsExponent t) : (Number.exponent? t).isSome = true ∧
    t.head?.any CodeUnit.isDigit = false ∧ t.head? ≠ some (CodeUnit.ofChar '.') := by
  rcases h with rfl | ⟨sign, digits, hsign, hd, rfl⟩
  · decide
  · have hhead : ("e" ++ (sign ++ digits) : Text).head? = some (CodeUnit.ofChar 'e') := rfl
    have htake : (Number.takeSign (sign ++ digits)).2 = digits := by
      rcases hsign with rfl | rfl <;> rfl
    have hexponent : (Number.exponent? (CodeUnit.ofChar 'e' :: (sign ++ digits))).isSome = true := by
      simp [Number.exponent?, htake, hd]
    rw [hhead]
    exact ⟨hexponent, by decide, by decide⟩

theorem dropWhile_digits {digits rest : Text} (h : digits.isDigits = true)
    (hrest : rest.head?.any CodeUnit.isDigit = false) :
    (digits ++ rest).head?.any CodeUnit.isDigit = true ∧
      (digits ++ rest).dropWhile CodeUnit.isDigit = rest := by
  obtain ⟨hne, hdigits⟩ := Number.isDigits_iff.1 h
  constructor
  · obtain ⟨c, digits, rfl⟩ := List.exists_cons_of_ne_nil hne
    simpa using hdigits c List.mem_cons_self
  · rw [List.dropWhile_append_of_pos hdigits]
    cases rest with
    | nil => rfl
    | cons c rest => exact List.dropWhile_cons_of_neg (by simpa using hrest)

theorem isUnsigned_of_isDecimal (h : Number.IsDecimal t) : isUnsigned t = true := by
  obtain ⟨mantissa, exponent, hmantissa, hexponent, rfl⟩ := h
  obtain ⟨hsome, hdigit, hpoint⟩ := exponent?_isSome hexponent
  unfold isUnsigned
  rcases hmantissa with hwhole | ⟨whole, fraction, hwhole, hfraction, rfl⟩
  · obtain ⟨hfirst, hdrop⟩ := dropWhile_digits hwhole hdigit
    simp [-List.head?_append, hfirst, hdrop, hpoint, hsome]
  · have hpoint : Text.ofString "." ++ (fraction ++ exponent) =
        CodeUnit.ofChar '.' :: (fraction ++ exponent) := rfl
    obtain ⟨hfirst, hdrop⟩ := dropWhile_digits hwhole (congrArg (·.head?.any CodeUnit.isDigit) hpoint)
    obtain ⟨hsecond, hlast⟩ := dropWhile_digits hfraction hdigit
    rw [List.append_assoc, List.append_assoc, hdrop, hfirst, hpoint]
    simp [-List.head?_append, hsecond, hlast, hsome]

theorem ofStart?_of_isDigit (h : c.isDigit = true) : RunKind.ofStart? c = some .number := by
  have hpoint : c ≠ CodeUnit.ofChar '.' := by
    rintro rfl
    exact absurd h (by decide)
  have hname : c.isNameStart = false := by
    have hunderscore : c ≠ CodeUnit.ofChar '_' := by
      rintro rfl
      exact absurd h (by decide)
    simp only [CodeUnit.isDigit, Bool.and_eq_true, decide_eq_true_eq, UInt16.le_iff_toNat_le,
      UInt16.reduceToNat] at h
    simp only [CodeUnit.isNameStart, CodeUnit.isLetter, CodeUnit.isUpper, CodeUnit.isLower,
      Bool.or_eq_false_iff, Bool.and_eq_false_iff, decide_eq_false_iff_not, beq_eq_false_iff_ne,
      UInt16.le_iff_toNat_le, UInt16.reduceToNat]
    exact ⟨⟨.inl (by omega), .inl (by omega)⟩, hunderscore⟩
  simp [RunKind.ofStart?, hname, hpoint, h]

theorem leads_number (n : Number) : Leads .start n.text [.operand n.text] .ended := by
  have hleads : ∀ {c more}, RunKind.ofStart? c = some .number →
      (∀ d ∈ more, RunKind.number.goesOn d = true) →
      isNumeral (c :: more) = true → Leads .start (c :: more) [.operand (c :: more)] .ended := by
    intro c more hstart hmore hnumeral
    refine leads_iff.2 ⟨_, tokens?_run hstart hmore, ?_⟩
    simp [symbolsFrom?, Place.step, begin?, hnumeral]
  rcases n.isDecimal_or_minus with h | ⟨t, h, heq⟩
  · have hunsigned := isUnsigned_of_isDecimal h
    have hgoes := List.all_eq_true.1 h.all_isDecimalUnit
    cases htext : n.text with
    | nil =>
      rw [htext] at hunsigned
      cases hunsigned
    | cons c more =>
      rw [htext] at hunsigned hgoes
      have hdigit : c.isDigit = true := (Bool.and_eq_true_iff.1 hunsigned).1
      refine hleads (ofStart?_of_isDigit hdigit) (List.forall_mem_cons.1 hgoes).2 ?_
      have htake : Number.takeSign (c :: more) = (false, c :: more) := by
        refine Number.takeSign_of_isDigit fun d hd => ?_
        rw [← Option.some.inj hd]
        exact hdigit
      rw [isNumeral, htake, hunsigned]
  · rw [heq]
    exact hleads rfl (List.all_eq_true.1 h.all_isDecimalUnit) (isUnsigned_of_isDecimal h)

/-! Strings -/

/-- A text between quotes that ends where it should. -/
def EndsAtQuote (t : Text) : Prop := ∀ w, scan (.string w) t = ([], .string (w ++ t))

theorem endsAtQuote_of_isSafe (h : (QuotedPiece.key t).IsSafe) : EndsAtQuote t := by
  intro w
  induction t generalizing w with
  | nil => simp [scan]
  | cons c key ih =>
    obtain ⟨⟨hquote, hescape⟩, hkey⟩ := List.forall_mem_cons.1 h
    simp [scan, Spot.next, hquote, hescape, ih hkey]

theorem endsAtQuote_escaped (t : Text) : EndsAtQuote (t.flatMap QuoteScan.escapeUnit) := by
  intro w
  induction t generalizing w with
  | nil => simp [scan]
  | cons c t ih =>
    have hunit :
        scan (.string w) (QuoteScan.escapeUnit c) = ([], .string (w ++ QuoteScan.escapeUnit c)) := by
      have htwo : ∀ d : CodeUnit,
          scan (.string w) [escapeMark, d] = ([], .string (w ++ [escapeMark, d])) := by
        intro d
        have hne : escapeMark ≠ quoteMark := by decide
        simp [scan, Spot.next, hne]
      unfold QuoteScan.escapeUnit
      split
      · exact htwo _
      · split
        · exact htwo _
        · rename_i hescape hquote
          simp [scan, Spot.next, hescape, hquote]
    rw [List.flatMap_cons, scan_append, hunit, ih]
    simp

theorem scan_quoted (h : EndsAtQuote t) : scan .outside t.quoted = ([.string t], .outside) := by
  have htext : t.quoted = quoteMark :: (t ++ [quoteMark]) := by
    show [quoteMark] ++ t ++ [quoteMark] = _
    simp
  have hinside := h []
  rw [htext, scan, scan_append]
  simp [Spot.next, Spot.enter, hinside, scan]

theorem tokens?_quoted (h : EndsAtQuote t) : tokens? t.quoted = some [.string t] := by
  rw [tokens?, scan_quoted h]
  rfl

theorem leads_quoted (h : EndsAtQuote t) : Leads .start t.quoted [.operand t.quoted] .ended :=
  leads_iff.2 ⟨[.string t], tokens?_quoted h, rfl⟩

end Operands

/-! ### Readings -/

abbrev Expr := Phrase.Tree Symbol

/-- Whether the brackets of a tree are of one kind each. -/
def matched : Expr → Bool
  | .leaf _ => true
  | .group (.opener c) t (.closer d) => (openers.zip closers).contains (c, d) && matched t
  | .group _ _ _ => false
  | .join l _ r => matched l && matched r
  | .before _ t => matched t
  | .after t _ => matched t

/-- A tree whose signs, outside brackets, bind at least as tightly as the level. -/
structure IsExpr (k : Nat) (e : Expr) : Prop where
  fits : Fits grammar k e
  matched : matched e = true

section Levels

variable {k n a b : Nat} {s : Symbol} {l r t : Expr}

theorem IsExpr.mono (h : IsExpr n t) (hk : k ≤ n) : IsExpr k t := ⟨h.fits.mono hk, h.matched⟩

@[simp] theorem isExpr_operand (w : Text) : IsExpr k (.leaf (.operand w)) := ⟨.leaf rfl, rfl⟩

@[simp] theorem round_mem_brackets :
    ((CodeUnit.ofChar '(', CodeUnit.ofChar ')') : CodeUnit × CodeUnit) ∈ openers.zip closers := by decide

@[simp] theorem square_mem_brackets :
    ((CodeUnit.ofChar '[', CodeUnit.ofChar ']') : CodeUnit × CodeUnit) ∈ openers.zip closers := by decide

@[simp] theorem curly_mem_brackets :
    ((CodeUnit.ofChar '\x7b', CodeUnit.ofChar '\x7d') : CodeUnit × CodeUnit) ∈ openers.zip closers := by
  decide

@[simp] theorem isExpr_brackets {c d : CodeUnit} :
    IsExpr k (.group (.opener c) t (.closer d)) ↔ (c, d) ∈ openers.zip closers ∧ IsExpr 0 t := by
  constructor
  · rintro ⟨hfits, hmatched⟩
    simp only [matched, Bool.and_eq_true, List.contains_iff_mem] at hmatched
    exact ⟨hmatched.1, (fits_group_iff.1 hfits).2.2, hmatched.2⟩
  · rintro ⟨hpair, ht⟩
    refine ⟨.group rfl rfl ht.fits, ?_⟩
    simp only [matched, Bool.and_eq_true, List.contains_iff_mem]
    exact ⟨hpair, ht.matched⟩

theorem isExpr_join_of_fits
    (h : Fits grammar k (.join l s r) ↔ k ≤ n ∧ Fits grammar a l ∧ Fits grammar b r) :
    IsExpr k (.join l s r) ↔ k ≤ n ∧ IsExpr a l ∧ IsExpr b r := by
  constructor
  · rintro ⟨hfits, hmatched⟩
    obtain ⟨hk, hl, hr⟩ := h.1 hfits
    obtain ⟨hl', hr'⟩ := Bool.and_eq_true_iff.1 hmatched
    exact ⟨hk, ⟨hl, hl'⟩, hr, hr'⟩
  · rintro ⟨hk, hl, hr⟩
    exact ⟨h.2 ⟨hk, hl.fits, hr.fits⟩, Bool.and_eq_true_iff.2 ⟨hl.matched, hr.matched⟩⟩

@[simp] theorem isExpr_comma : IsExpr k (.join l .comma r) ↔ k ≤ 0 ∧ IsExpr 0 l ∧ IsExpr 1 r :=
  isExpr_join_of_fits (fits_left_iff rfl rfl)

@[simp] theorem isExpr_colon : IsExpr k (.join l .colon r) ↔ k ≤ 1 ∧ IsExpr 2 l ∧ IsExpr 2 r :=
  isExpr_join_of_fits (fits_apart_iff rfl rfl)

@[simp] theorem isExpr_relation {w : Text} :
    IsExpr k (.join l (.relation w) r) ↔ k ≤ 2 ∧ IsExpr 3 l ∧ IsExpr 3 r :=
  isExpr_join_of_fits (fits_apart_iff rfl rfl)

@[simp] theorem isExpr_tilde : IsExpr k (.join l .tilde r) ↔ k ≤ 3 ∧ IsExpr 3 l ∧ IsExpr 4 r :=
  isExpr_join_of_fits (fits_left_iff rfl rfl)

@[simp] theorem isExpr_filter : IsExpr k (.join l .filter r) ↔ k ≤ 4 ∧ IsExpr 4 l ∧ IsExpr 5 r :=
  isExpr_join_of_fits (fits_left_iff rfl rfl)

@[simp] theorem isExpr_test {w : Text} :
    IsExpr k (.join l (.test w) r) ↔ k ≤ 4 ∧ IsExpr 4 l ∧ IsExpr 5 r :=
  isExpr_join_of_fits (fits_left_iff rfl rfl)

@[simp] theorem isExpr_access : IsExpr k (.join l .access r) ↔ k ≤ 5 ∧ IsExpr 5 l ∧ IsExpr 6 r :=
  isExpr_join_of_fits (fits_left_iff rfl rfl)

end Levels

/-- The text is an expression whose signs outside brackets bind at least as tightly as the level, and the
tree is what it is read as. -/
structure ReadAs (k : Nat) (t : Text) (e : Expr) : Prop where
  symbols : lex? t = some e.symbols
  isExpr : IsExpr k e

namespace ReadAs

variable {k n : Nat} {t : Text} {e u : Expr}

theorem unique (he : ReadAs k t e) (hu : ReadAs n t u) : e = u :=
  he.isExpr.fits.eq_of_symbols_eq hu.isExpr.fits (Option.some.inj (he.symbols.symm.trans hu.symbols))

theorem leads (h : ReadAs k t e) : Leads .start t e.symbols .ended := lex?_eq_some_iff.1 h.symbols

theorem of_leads (h : Leads .start t e.symbols .ended) (he : IsExpr k e) : ReadAs k t e :=
  ⟨lex?_eq_some_iff.2 h, he⟩

theorem mono (h : ReadAs n t e) (hk : k ≤ n) : ReadAs k t e := ⟨h.symbols, h.isExpr.mono hk⟩

end ReadAs

/-! ### Chains of `~` -/

/-- A meaning in which the grouping of a chain of `~` does not matter. -/
def Concatenates {D : Type} (m : Meaning Symbol D) : Prop :=
  ∀ a b c, m.join (m.join a .tilde b) .tilde c = m.join a .tilde (m.join b .tilde c)

/-- Two trees have the same value wherever the grouping of `~` does not matter. -/
def SameValue (t u : Expr) : Prop :=
  ∀ (D : Type) (m : Meaning Symbol D), Concatenates m → t.eval m = u.eval m

/-- Two trees with `~` between them, grouped to the left. -/
def chain (l : Expr) : Expr → Expr
  | .join r .tilde last => .join (chain l r) .tilde last
  | r => .join l .tilde r

/-- The meaning of a tree that is the tree with its chains grouped to the left. -/
def regrouping : Meaning Symbol Expr where
  leaf := .leaf
  group := .group
  join l s r := if s = .tilde then chain l r else .join l s r
  before := .before
  after := .after

/-- The tree with its chains of `~` grouped to the left. -/
def regroup (t : Expr) : Expr := t.eval regrouping

section Chain

variable {k : Nat} {l r t : Expr} {D : Type} {m : Meaning Symbol D}

theorem chain_of_forall_ne (h : ∀ first last, r = .join first .tilde last → False) :
    chain l r = .join l .tilde r := by
  unfold chain
  split
  · exact (h _ _ rfl).elim
  · rfl

theorem chain_assoc (a b c : Expr) : chain (chain a b) c = chain a (chain b c) := by
  fun_induction chain b c with
  | case1 first last ih => simp only [chain, ih]
  | case2 c hlast =>
    rw [chain_of_forall_ne hlast]
    rfl

theorem symbols_chain (l r : Expr) : (chain l r).symbols = l.symbols ++ .tilde :: r.symbols := by
  fun_induction chain l r with
  | case1 first last ih => simp [Tree.symbols, ih]
  | case2 r _ => rfl

theorem eval_chain (hm : Concatenates m) (l r : Expr) :
    (chain l r).eval m = m.join (l.eval m) .tilde (r.eval m) := by
  fun_induction chain l r with
  | case1 first last ih =>
    rw [Tree.eval, Tree.eval, ih]
    exact hm _ _ _
  | case2 r _ => rfl

/-- Only `~` has the level of `~`. -/
theorem eq_tilde_of_role {s : Symbol} (h : grammar.role s = .sign 3) : s = .tilde := by
  cases s with
  | tilde => rfl
  | _ => cases h

/-- A tree of the level of `~` that has no `~` at its root is one of the next level. -/
theorem isExpr_of_forall_ne (h : ∀ first last, t = .join first .tilde last → False) :
    IsExpr 3 t ↔ IsExpr 4 t := by
  refine ⟨fun ht => ?_, fun ht => ht.mono (by omega)⟩
  rcases ht.fits.succ_or_rooted with hfits | ⟨f, hroot⟩
  · exact ⟨hfits, ht.matched⟩
  · cases hroot with
    | left hs =>
      obtain rfl := eq_tilde_of_role hs
      exact (h _ _ rfl).elim
    | apart _ hn | before _ hn | after _ hn => cases hn

@[simp] theorem isExpr_chain : IsExpr k (chain l r) ↔ k ≤ 3 ∧ IsExpr 3 l ∧ IsExpr 3 r := by
  fun_induction chain l r generalizing k with
  | case1 first last ih => simp [ih, and_assoc]
  | case2 r hlast => simp [isExpr_of_forall_ne hlast]

theorem not_isExpr_chain (l r : Expr) : ¬ IsExpr 4 (chain l r) := by
  simp

end Chain

section Regroup

variable {k : Nat} {t u : Expr}

@[simp] theorem regroup_leaf (s : Symbol) : regroup (.leaf s) = .leaf s := rfl

@[simp] theorem regroup_group (opener closer : Symbol) :
    regroup (.group opener t closer) = .group opener (regroup t) closer := rfl

@[simp] theorem regroup_tilde : regroup (.join t .tilde u) = chain (regroup t) (regroup u) := rfl

@[simp] theorem regroup_join {s : Symbol} (h : s ≠ .tilde) :
    regroup (.join t s u) = .join (regroup t) s (regroup u) := by
  simp [regroup, regrouping, Tree.eval, h]

theorem concatenates_regrouping : Concatenates regrouping := by
  intro a b c
  simp [regrouping, chain_assoc]

theorem symbols_regroup (t : Expr) : (regroup t).symbols = t.symbols := by
  induction t with
  | leaf => rfl
  | group opener t closer ih => simpa [regroup, regrouping, Tree.eval, Tree.symbols] using ih
  | join l s r ihl ihr =>
    simp only [regroup, Tree.eval, regrouping] at ihl ihr ⊢
    split
    · rename_i hs
      rw [symbols_chain, ihl, ihr, hs]
      rfl
    · simp only [Tree.symbols, ihl, ihr]
  | before s t ih => simpa [regroup, regrouping, Tree.eval, Tree.symbols] using ih
  | after t s ih => simpa [regroup, regrouping, Tree.eval, Tree.symbols] using ih

/-- Grouping changes no value where it does not matter. -/
theorem sameValue_regroup (t : Expr) : SameValue (regroup t) t := by
  intro D m hm
  induction t with
  | leaf => rfl
  | group opener t closer ih =>
    simpa [regroup, regrouping, Tree.eval] using congrArg (m.group opener · closer) ih
  | join l s r ihl ihr =>
    simp only [regroup, Tree.eval, regrouping] at ihl ihr ⊢
    split
    · rename_i hs
      rw [eval_chain hm, ihl, ihr, hs]
    · simp only [Tree.eval, ihl, ihr]
  | before s t ih => simpa [regroup, regrouping, Tree.eval] using congrArg (m.before s ·) ih
  | after t s ih => simpa [regroup, regrouping, Tree.eval] using congrArg (m.after · s) ih

/-- What fits the levels is grouped to the left. -/
theorem regroup_of_fits (h : Fits grammar k t) : regroup t = t := by
  induction h with
  | leaf => rfl
  | group _ _ _ ih => simpa [regroup, regrouping, Tree.eval] using ih
  | @left k n l s r hs hn hk hl hr ihl ihr =>
    simp only [regroup, Tree.eval, regrouping] at ihl ihr ⊢
    rw [ihl, ihr]
    split
    · rename_i htilde
      subst htilde
      obtain rfl : 3 = n := by simpa [grammar] using hs
      refine chain_of_forall_ne fun first last heq => ?_
      rw [heq, fits_left_iff rfl rfl] at hr
      omega
    · rfl
  | @apart k n l s r hs hn hk hl hr ihl ihr =>
    simp only [regroup, Tree.eval, regrouping] at ihl ihr ⊢
    rw [ihl, ihr, if_neg]
    rintro rfl
    obtain rfl : 3 = n := by simpa [grammar] using hs
    simp [grammar] at hn
  | before _ _ _ _ ih => simpa [regroup, regrouping, Tree.eval] using ih
  | after _ _ _ _ ih => simpa [regroup, regrouping, Tree.eval] using ih

/-- The one tree that fits the levels and has the value of another one is that one regrouped. -/
theorem sameValue_iff (ht : Fits grammar k t) : SameValue t u ↔ t = regroup u := by
  constructor
  · intro h
    have heval := h Expr regrouping concatenates_regrouping
    exact (regroup_of_fits ht).symm.trans heval
  · rintro rfl
    exact sameValue_regroup u

/-- A text is read with the value of a tree, whose symbols it has, when the tree is an expression after
regrouping. -/
theorem exists_readAs_sameValue_iff {text : Text} (h : lex? text = some u.symbols) :
    (∃ e, ReadAs k text e ∧ SameValue e u) ↔ IsExpr k (regroup u) := by
  constructor
  · rintro ⟨e, he, hvalue⟩
    rw [← (sameValue_iff he.isExpr.fits).1 hvalue]
    exact he.isExpr
  · intro hfits
    exact ⟨regroup u, ⟨by rw [symbols_regroup, h], hfits⟩, sameValue_regroup u⟩

end Regroup

end Expression

end Cookbook
