import Cookbook.Proofs.Canonical.Lexing
import Cookbook.Proofs.Value.Interpolation
import Cookbook.Proofs.Value.Reading

/-!
Values as text. A value that is free of code kept as written, whose numbers are integers of at most 53
bits and whose interpolations are in normal form, is printed as an expression; the text is made of
pieces that have one token each.

* `Value.isPrintable` says which values are printed, `Value.print` how;
* `Value.printable_ind` is the induction on such values;
* `Written.pieces` are the pieces, and `Written.printed_pieces` says that they make up the text.
-/

namespace Cookbook

open Canonical (escaped quoted)

/-! ### What is printed -/

def Value.isText : Value → Bool
  | .literal (.text _) => true
  | _ => false

/-- Whether the value may be a segment: a text that is not empty, or a path. -/
def Value.isSegment : Value → Bool
  | .literal (.text t) => !t.isEmpty
  | .path _ keys => !keys.isEmpty
  | _ => false

/-- Whether no text stands next to another. -/
def textsApart : List Value → Bool
  | v :: w :: rest => !(v.isText && w.isText) && textsApart (w :: rest)
  | _ => true

/-- Whether the segments are those of an interpolation in normal form: texts and paths, one path at
least, and no two texts in a row. -/
def isNormal (segments : List Value) : Bool :=
  segments.all Value.isSegment && segments.any (!·.isText) && textsApart segments

mutual

def Value.isPrintable : Value → Bool
  | .literal (.number n) => n.isSafeInteger
  | .literal _ => true
  | .symbol _ => true
  | .path _ keys => !keys.isEmpty
  | .interpolation segments => isNormal segments
  | .list items => arePrintable items
  | .map entries => entriesPrintable entries
  | .verbatim _ => false

def arePrintable : List Value → Bool
  | [] => true
  | v :: rest => v.isPrintable && arePrintable rest

def entriesPrintable : List Entry → Bool
  | [] => true
  | ⟨_, v⟩ :: rest => v.isPrintable && entriesPrintable rest

end

/-- A segment is a text that is not empty, or a path. -/
theorem Value.isSegment_cases {v : Value} (h : v.isSegment = true) :
    (∃ t, t ≠ [] ∧ v = .literal (.text t)) ∨ ∃ scope keys, keys ≠ [] ∧ v = .path scope keys := by
  cases v with
  | literal s =>
    cases s with
    | text t => exact .inl ⟨t, by simpa [isSegment] using h, rfl⟩
    | number n => exact absurd h Bool.false_ne_true
    | bool b => exact absurd h Bool.false_ne_true
    | nil => exact absurd h Bool.false_ne_true
  | path scope keys => exact .inr ⟨scope, keys, by simpa [isSegment] using h, rfl⟩
  | symbol name => exact absurd h Bool.false_ne_true
  | interpolation segments => exact absurd h Bool.false_ne_true
  | list items => exact absurd h Bool.false_ne_true
  | map entries => exact absurd h Bool.false_ne_true
  | verbatim raw => exact absurd h Bool.false_ne_true

/-- Neighbouring texts are apart when the first has no text after it and the rest are apart. -/
theorem textsApart_cons {v : Value} {rest : List Value} :
    textsApart (v :: rest) = true ↔
      (v.isText = true → rest.head?.any Value.isText = false) ∧ textsApart rest = true := by
  cases rest with
  | nil => simp [textsApart]
  | cons w rest =>
    simp only [textsApart, Bool.and_eq_true, List.head?_cons, Option.any_some]
    cases v.isText <;> cases w.isText <;> simp

theorem arePrintable_iff (items : List Value) :
    arePrintable items = true ↔ ∀ v ∈ items, v.isPrintable = true := by
  induction items with
  | nil => simp [arePrintable]
  | cons v rest ih => simp [arePrintable, ih]

theorem entriesPrintable_iff (entries : List Entry) :
    entriesPrintable entries = true ↔ ∀ e ∈ entries, e.value.isPrintable = true := by
  induction entries with
  | nil => simp [entriesPrintable]
  | cons e rest ih =>
    obtain ⟨key, v⟩ := e
    simp [entriesPrintable, ih]

theorem Value.printable_ind {motive : Value → Prop} (text : ∀ t, motive (.literal (.text t)))
    (number : ∀ n : Number, n.isSafeInteger = true → motive (.literal (.number n)))
    (bool : ∀ b, motive (.literal (.bool b))) (nil : motive (.literal .nil))
    (symbol : ∀ name, motive (.symbol name))
    (path : ∀ scope keys, keys ≠ [] → motive (.path scope keys))
    (interpolation : ∀ segments, isNormal segments = true → motive (.interpolation segments))
    (list : ∀ items, (∀ v ∈ items, v.isPrintable = true) → (∀ v ∈ items, motive v) →
      motive (.list items))
    (map : ∀ entries, (∀ e ∈ entries, e.value.isPrintable = true) → (∀ e ∈ entries, motive e.value) →
      motive (.map entries)) {v : Value}
    (h : v.isPrintable = true) : motive v := by
  induction v using Value.parts_ind with
  | literal s =>
    cases s with
    | text t => exact text t
    | number n => exact number n h
    | bool b => exact bool b
    | nil => exact nil
  | symbol name => exact symbol name
  | path scope keys => exact path scope keys (by simpa [isPrintable] using h)
  | interpolation segments _ => exact interpolation segments h
  | list items ih =>
    have hitems := (arePrintable_iff items).1 h
    exact list items hitems fun v hv => ih v hv (hitems v hv)
  | map entries ih =>
    have hentries := (entriesPrintable_iff entries).1 h
    exact map entries hentries fun e he => ih e he (hentries e he)
  | verbatim raw => exact absurd h Bool.false_ne_true

/-! ### How it is printed -/

/-- A text with a backslash before each backslash, double quote and number sign. -/
def escapedDouble (value : Text) : Text :=
  value.flatMap fun (c : CodeUnit) => if c = '\\' ∨ c = '\x22' ∨ c = '#' then ['\\', c] else [c]

def printKey (key : Text) : Text := "[" ++ quoted key ++ "]"

/-- A path: the word of its scope, and each key between brackets. -/
def printPath (scope : Scope) (keys : List Text) : Text := scope.word ++ keys.flatMap printKey

def printSegment : Value → Text
  | .literal (.text t) => escapedDouble t
  | .path scope keys => "#\x7b" ++ printPath scope keys ++ "\x7d"
  | _ => []

def printInt (n : Int) : Text := (if n < 0 then "-" else "") ++ Text.ofNat n.natAbs

mutual

def Value.print : Value → Text
  | .literal (.text t) => quoted t
  | .literal (.number n) => printInt n.num
  | .literal (.bool b) => if b then "true" else "false"
  | .literal .nil => "nil"
  | .symbol name => ":" ++ quoted name
  | .path scope keys => printPath scope keys
  | .interpolation segments => "\x22" ++ segments.flatMap printSegment ++ "\x22"
  | .list items => "[" ++ Text.join ", " (printEach items) ++ "]"
  | .map entries => "\x7b" ++ Text.join ", " (printEntries entries) ++ "\x7d"
  | .verbatim raw => raw

def printEach : List Value → List Text
  | [] => []
  | v :: rest => v.print :: printEach rest

def printEntries : List Entry → List Text
  | [] => []
  | ⟨key, v⟩ :: rest => (quoted key ++ " => " ++ v.print) :: printEntries rest

end

namespace Written

/-! ### Pieces -/

/-- A piece of a printed value. -/
inductive Piece where
  | string (value : Text)
  | symbol (name : Text)
  | template (segments : List Value)
  | word (text : Text)
  | number (n : Nat)
  | mark (text : Text)

/-- The parts of a text in double quotes whose content starts at an offset. -/
def templateParts : (pos : Nat) → List Value → List StringPart
  | _, [] => []
  | pos, v :: rest =>
    let more := templateParts (pos + (printSegment v).length) rest
    match v with
    | .literal (.text t) => .text t :: more
    | .path scope keys => .code (printPath scope keys) (pos + 2) :: more
    | _ => more

namespace Piece

def text : Piece → Text
  | string value => quoted value
  | symbol name => ":" ++ quoted name
  | template segments => "\x22" ++ segments.flatMap printSegment ++ "\x22"
  | word text => text
  | number n => Text.ofNat n
  | mark text => text

def content (pos : Nat) : Piece → TokenContent
  | string value => .string .single (StringPart.consText value [])
  | symbol name => .string .symbol (StringPart.consText name [])
  | template segments => .string .double (templateParts (pos + 1) segments)
  | word text => .name (if keywords.contains text then .keyword else .ident) text
  | number n => .name .number (Text.ofNat n)
  | mark text => .name .punct text

end Piece

instance : IsPiece Piece := ⟨Piece.text, Piece.content⟩

@[simp] theorem isPiece_text (p : Piece) : IsPiece.text p = p.text := rfl

@[simp] theorem isPiece_content (pos : Nat) (p : Piece) : IsPiece.content pos p = p.content pos := rfl

abbrev Placed := PlacedPiece Piece

/-! ### The pieces of a value -/

/-- A mark right after the piece before. -/
def mark (text : Text) : Placed := ⟨false, .mark text⟩

def keyPieces (key : Text) : List Placed := [mark "[", ⟨false, .string key⟩, mark "]"]

def pathPieces (spaced : Bool) (scope : Scope) (keys : List Text) : List Placed :=
  ⟨spaced, .word scope.word⟩ :: keys.flatMap keyPieces

def intPieces (spaced : Bool) (n : Int) : List Placed :=
  if n < 0 then [⟨spaced, .mark "-"⟩, ⟨false, .number n.natAbs⟩] else [⟨spaced, .number n.natAbs⟩]

def commaSeparated (runs : List (List Placed)) : List Placed := [mark ","].intercalate runs

def enclosed (spaced : Bool) (opener closer : Text) (runs : List (List Placed)) : List Placed :=
  ⟨spaced, .mark opener⟩ :: (commaSeparated runs ++ [mark closer])

mutual

/-- The pieces of a value, with or without a blank before them. -/
def pieces : (spaced : Bool) → Value → List Placed
  | spaced, .literal (.text t) => [⟨spaced, .string t⟩]
  | spaced, .literal (.number n) => intPieces spaced n.num
  | spaced, .literal (.bool b) => [⟨spaced, .word (if b then "true" else "false")⟩]
  | spaced, .literal .nil => [⟨spaced, .word "nil"⟩]
  | spaced, .symbol name => [⟨spaced, .symbol name⟩]
  | spaced, .path scope keys => pathPieces spaced scope keys
  | spaced, .interpolation segments => [⟨spaced, .template segments⟩]
  | spaced, .list items => enclosed spaced "[" "]" (itemRuns false items)
  | spaced, .map entries => enclosed spaced "\x7b" "\x7d" (entryRuns false entries)
  | _, .verbatim _ => []

/-- The pieces of each value of a list; all but the first have a blank before them. -/
def itemRuns : (spaced : Bool) → List Value → List (List Placed)
  | _, [] => []
  | spaced, v :: rest => pieces spaced v :: itemRuns true rest

def entryRuns : (spaced : Bool) → List Entry → List (List Placed)
  | _, [] => []
  | spaced, ⟨key, v⟩ :: rest =>
    (⟨spaced, .string key⟩ :: ⟨true, .mark "=>"⟩ :: pieces true v) :: entryRuns true rest

end

def entryPieces (spaced : Bool) (e : Entry) : List Placed :=
  ⟨spaced, .string e.key⟩ :: ⟨true, .mark "=>"⟩ :: pieces true e.value

/-- The runs of some items, given the run of each; all but the first have a blank before them. -/
def runsOf {α : Type} (run : Bool → α → List Placed) : (spaced : Bool) → List α → List (List Placed)
  | _, [] => []
  | spaced, a :: rest => run spaced a :: runsOf run true rest

theorem pieces_list (spaced : Bool) (items : List Value) :
    pieces spaced (.list items) = enclosed spaced "[" "]" (runsOf pieces false items) := by
  have hruns : ∀ spaced, itemRuns spaced items = runsOf pieces spaced items := by
    induction items with
    | nil => exact fun _ => rfl
    | cons v rest ih => exact fun spaced => congrArg (pieces spaced v :: ·) (ih true)
  rw [pieces, hruns]

theorem pieces_map (spaced : Bool) (entries : List Entry) :
    pieces spaced (.map entries) = enclosed spaced "\x7b" "\x7d" (runsOf entryPieces false entries) := by
  have hruns : ∀ spaced, entryRuns spaced entries = runsOf entryPieces spaced entries := by
    induction entries with
    | nil => exact fun _ => rfl
    | cons e rest ih =>
      obtain ⟨key, v⟩ := e
      exact fun spaced => congrArg (entryPieces spaced ⟨key, v⟩ :: ·) (ih true)
  rw [pieces, hruns]

section Runs

variable {α : Type} {run : Bool → α → List Placed} {spaced : Bool} {items : List α}

theorem mem_runsOf {r : List Placed} (h : r ∈ runsOf run spaced items) :
    ∃ spaced', ∃ a ∈ items, r = run spaced' a := by
  induction items generalizing spaced with
  | nil => exact absurd h List.not_mem_nil
  | cons a rest ih =>
    rcases List.mem_cons.1 h with rfl | h
    · exact ⟨spaced, a, List.mem_cons_self, rfl⟩
    · obtain ⟨spaced', b, hb, rfl⟩ := ih h
      exact ⟨spaced', b, List.mem_cons_of_mem _ hb, rfl⟩

variable (run spaced) in
theorem exists_mem_runsOf {a : α} (h : a ∈ items) : ∃ spaced', run spaced' a ∈ runsOf run spaced items := by
  induction items generalizing spaced with
  | nil => exact absurd h List.not_mem_nil
  | cons b rest ih =>
    rcases List.mem_cons.1 h with rfl | h
    · exact ⟨spaced, List.mem_cons_self⟩
    · obtain ⟨spaced', hmem⟩ := ih true h
      exact ⟨spaced', List.mem_cons_of_mem _ hmem⟩

/-- Runs that print as some texts print as these with a comma and a blank between them. -/
theorem printed_runsOf {text : α → Text}
    (h : ∀ a ∈ items, ∀ spaced, printed (run spaced a) = PlacedPiece.blank spaced ++ text a) :
    printed (commaSeparated (runsOf run false items)) = Text.join ", " (items.map text) := by
  have hcons : ∀ (items : List α) (a : α) (spaced : Bool),
      (∀ b ∈ a :: items, ∀ spaced, printed (run spaced b) = PlacedPiece.blank spaced ++ text b) →
      printed (commaSeparated (runsOf run spaced (a :: items))) =
        PlacedPiece.blank spaced ++ Text.join ", " ((a :: items).map text) := by
    intro items
    induction items with
    | nil =>
      intro a spaced h
      simpa [runsOf, commaSeparated, Text.join] using h a List.mem_cons_self spaced
    | cons b items ih =>
      intro a spaced h
      have hrest := ih b true fun c hc => h c (List.mem_cons_of_mem _ hc)
      simp only [runsOf, commaSeparated, Text.join, List.map_cons] at hrest ⊢
      rw [List.intercalate_cons_cons, List.intercalate_cons_cons, printed_append, printed_append,
        h a List.mem_cons_self, hrest]
      simp [printed, mark, PlacedPiece.text, PlacedPiece.blank, Piece.text, Text.ofString, Text.ofChar]
  cases items with
  | nil => rfl
  | cons a items => exact hcons items a false h

end Runs

/-! ### Sizes -/

theorem layout_ne_nil {run : List Placed} (h : run ≠ []) (pos : Nat) : layout pos run ≠ [] := by
  cases run with
  | nil => exact absurd rfl h
  | cons p run => exact List.cons_ne_nil _ _

theorem length_enclosed (spaced : Bool) (opener closer : Text) (runs : List (List Placed)) :
    (enclosed spaced opener closer runs).length = (commaSeparated runs).length + 2 := by
  simp [enclosed]

theorem length_le_commaSeparated {run : List Placed} {runs : List (List Placed)} (h : run ∈ runs) :
    run.length ≤ (commaSeparated runs).length := by
  induction runs with
  | nil => exact absurd h List.not_mem_nil
  | cons first runs ih =>
    cases runs with
    | nil =>
      obtain rfl := List.mem_singleton.1 h
      simp [commaSeparated]
    | cons next runs =>
      unfold commaSeparated at ih ⊢
      rw [List.intercalate_cons_cons, List.length_append, List.length_append]
      rcases List.mem_cons.1 h with rfl | h
      · omega
      · have := ih h
        omega

theorem length_pieces (v : Value) (spaced spaced' : Bool) :
    (pieces spaced v).length = (pieces spaced' v).length := by
  rcases v with (_ | n | _ | _) | _ | _ | _ | _ | _ | _
  case literal.number =>
    simp only [pieces, intPieces]
    split <;> rfl
  all_goals rfl

theorem length_item_lt {items : List Value} {v : Value} (h : v ∈ items) (spaced spaced' : Bool) :
    (pieces spaced' v).length < (pieces spaced (.list items)).length := by
  obtain ⟨spaced'', hmem⟩ := exists_mem_runsOf pieces false h
  have hle := length_le_commaSeparated hmem
  have hlength := length_pieces v spaced' spaced''
  rw [pieces_list, length_enclosed]
  omega

theorem length_entry_lt {entries : List Entry} {e : Entry} (h : e ∈ entries) (spaced spaced' : Bool) :
    (pieces spaced' e.value).length < (pieces spaced (.map entries)).length := by
  obtain ⟨spaced'', hmem⟩ := exists_mem_runsOf entryPieces false h
  have hle := length_le_commaSeparated hmem
  have hlength := length_pieces e.value spaced' true
  rw [entryPieces, List.length_cons, List.length_cons] at hle
  rw [pieces_map, length_enclosed]
  omega

theorem pieces_nonempty {v : Value} (h : v.isPrintable = true) (spaced : Bool) : pieces spaced v ≠ [] := by
  revert spaced
  apply Value.printable_ind (h := h)
  case number =>
    intro n _ spaced
    rw [pieces, intPieces]
    split <;> simp
  all_goals
    intros
    simp [pieces, pathPieces, enclosed]

/-! ### The text of the pieces -/

theorem printed_keys (keys : List Text) : printed (keys.flatMap keyPieces) = keys.flatMap printKey := by
  induction keys with
  | nil => rfl
  | cons key rest ih =>
    rw [List.flatMap_cons, printed_append, ih, List.flatMap_cons]
    simp [keyPieces, printed, mark, PlacedPiece.text, PlacedPiece.blank, Piece.text, printKey]

theorem printed_pathPieces (spaced : Bool) (scope : Scope) (keys : List Text) :
    printed (pathPieces spaced scope keys) = PlacedPiece.blank spaced ++ printPath scope keys := by
  rw [pathPieces, printed_cons, printed_keys, printPath, PlacedPiece.text, List.append_assoc]
  rfl

theorem printed_intPieces (spaced : Bool) (n : Int) :
    printed (intPieces spaced n) = PlacedPiece.blank spaced ++ printInt n := by
  unfold intPieces printInt
  split <;> simp [printed, PlacedPiece.text, PlacedPiece.blank, Piece.text, Text.ofString]

theorem printEach_eq (items : List Value) : printEach items = items.map Value.print := by
  induction items with
  | nil => rfl
  | cons v rest ih => rw [printEach, ih, List.map_cons]

theorem printEntries_eq (entries : List Entry) :
    printEntries entries = entries.map fun e => quoted e.key ++ " => " ++ e.value.print := by
  induction entries with
  | nil => rfl
  | cons e rest ih =>
    obtain ⟨key, v⟩ := e
    rw [printEntries, ih, List.map_cons]

theorem printed_entryPieces {e : Entry}
    (h : ∀ spaced, printed (pieces spaced e.value) = PlacedPiece.blank spaced ++ e.value.print) (spaced : Bool) :
    printed (entryPieces spaced e) =
      PlacedPiece.blank spaced ++ (quoted e.key ++ " => " ++ e.value.print) := by
  rw [entryPieces, printed_cons, printed_cons, h]
  simp [PlacedPiece.text, PlacedPiece.blank, Piece.text, Text.ofString, Text.ofChar]

theorem printed_enclosed (spaced : Bool) (opener closer : Text) (runs : List (List Placed)) :
    printed (enclosed spaced opener closer runs) =
      PlacedPiece.blank spaced ++ (opener ++ printed (commaSeparated runs) ++ closer) := by
  rw [enclosed, printed_cons, printed_append]
  simp [printed, mark, PlacedPiece.text, PlacedPiece.blank, Piece.text]

/-- The pieces of a value are its text. -/
theorem printed_pieces {v : Value} (h : v.isPrintable = true) (spaced : Bool) :
    printed (pieces spaced v) = PlacedPiece.blank spaced ++ v.print := by
  have hsingle : ∀ spaced (p : Piece), printed [⟨spaced, p⟩] = PlacedPiece.blank spaced ++ p.text := fun _ _ =>
    List.append_nil _
  revert spaced
  apply Value.printable_ind (h := h)
  case text => exact fun t spaced => hsingle spaced (.string t)
  case number => exact fun n _ spaced => printed_intPieces spaced n.num
  case bool =>
    intro b spaced
    rw [pieces, hsingle, Value.print]
    cases b <;> rfl
  case nil => exact fun spaced => hsingle spaced (.word "nil")
  case symbol => exact fun name spaced => hsingle spaced (.symbol name)
  case path => exact fun scope keys _ spaced => printed_pathPieces spaced scope keys
  case interpolation => exact fun segments _ spaced => hsingle spaced (.template segments)
  case list =>
    intro items _ ih spaced
    rw [pieces_list, printed_enclosed, printed_runsOf ih, Value.print, printEach_eq]
  case map =>
    intro entries _ ih spaced
    rw [pieces_map, printed_enclosed, printed_runsOf fun e he => printed_entryPieces (ih e he), Value.print,
      printEntries_eq]

end Written

end Cookbook
