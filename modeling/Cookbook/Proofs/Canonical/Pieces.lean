import Cookbook.Proofs.Canonical.Lexing

/-!
The pieces that a recipe is printed with.

* `itemsPieces` are the pieces, line by line; `printItems_eq` says that they are the recipe's text;
* `wellSpaced_itemsPieces` says that each of them has its own token.
-/

namespace Cookbook

namespace Canonical

/-! ### The pieces of a recipe -/

def tight (p : Piece) : Placed := ⟨false, p⟩

def loose (p : Piece) : Placed := ⟨true, p⟩

def symbolPieces : List Word → List Placed
  | [] => []
  | a :: rest =>
    tight (.symbol a.text) :: rest.flatMap fun b => [tight .comma, loose (.symbol b.text)]

def actionLines : List Word → List (List Placed)
  | [] => []
  | actions => [[tight (.word "action"), loose .opener] ++ symbolPieces actions ++ [tight .closer]]

def propertyLine (p : Word × Text) : List Placed := [tight (.word p.1.text), loose (.string p.2)]

def Resource.lines (r : Resource) : List (List Placed) :=
  actionLines r.actions ++ r.properties.map propertyLine

def Resource.head (r : Resource) : List Placed :=
  [tight (.word r.type.text), loose (.string r.name)]

def Resource.pieces (r : Resource) : List Placed :=
  r.head ++ [loose (.word "do"), tight .newline] ++ r.lines.flatMap (· ++ [tight .newline]) ++
    [tight (.word "end"), tight .newline]

def testPieces (key : Text) : List Placed :=
  [loose (.word "node"), tight .opener, tight (.string key), tight .closer]

mutual

def Item.pieces : Item → List Placed
  | .resource r => r.pieces
  | .choice key items none =>
    tight (.word "if") :: testPieces key ++ [tight .newline] ++ itemsPieces items ++
      [tight (.word "end"), tight .newline]
  | .choice key items (some others) =>
    tight (.word "if") :: testPieces key ++ [tight .newline] ++ itemsPieces items ++
      [tight (.word "else"), tight .newline] ++ itemsPieces others ++
      [tight (.word "end"), tight .newline]

def itemsPieces : List Item → List Placed
  | [] => []
  | item :: rest => item.pieces ++ itemsPieces rest

end

theorem printed_symbolPieces (actions : List Word) :
    printed (symbolPieces actions) = Text.join ", " (actions.map fun a => ":" ++ a.text) := by
  cases actions with
  | nil => rfl
  | cons a rest =>
    induction rest generalizing a with
    | nil => simp [symbolPieces, printed, tight, PlacedPiece.text, Piece.text, Text.join]; rfl
    | cons b rest ih =>
      have hb := ih b
      simp only [symbolPieces, printed_cons, List.flatMap_cons, List.map_cons, Text.join,
        List.cons_append, List.nil_append, List.intercalate_cons_cons] at hb ⊢
      rw [← hb, List.append_assoc, List.append_assoc]
      rfl

theorem printed_lines (lines : List (List Placed)) :
    printed (lines.flatMap (· ++ [tight .newline])) =
      lines.flatMap fun line => printed line ++ ("\n" : Text) := by
  induction lines with
  | nil => rfl
  | cons line lines ih =>
    rw [List.flatMap_cons, printed_append, printed_append, ih, List.flatMap_cons]
    rfl

theorem Resource.print_eq (r : Resource) : r.print = printed r.pieces := by
  have hactions : ((actionLines r.actions).flatMap fun line => printed line ++ ("\n" : Text)) =
      printActions r.actions := by
    cases hr : r.actions with
    | nil => rfl
    | cons a rest =>
      rw [actionLines, List.flatMap_singleton, printed_append, printed_append, printed_symbolPieces,
        printActions]
      · simp [printed, tight, loose, PlacedPiece.text, Piece.text]
        rfl
      · exact List.cons_ne_nil _ _
      · exact List.cons_ne_nil _ _
  have hproperties : ((r.properties.map propertyLine).flatMap fun line => printed line ++ ("\n" : Text)) =
      r.properties.flatMap printProperty := by
    rw [List.flatMap_map]
    refine congrArg (List.flatMap · r.properties) (funext fun p => ?_)
    simp [printed, propertyLine, printProperty, tight, loose, PlacedPiece.text, Piece.text]
    rfl
  unfold Resource.print Resource.pieces Resource.lines
  rw [printed_append, printed_append, printed_append, printed_lines, List.flatMap_append, hactions,
    hproperties]
  simp [printed, Resource.head, tight, loose, PlacedPiece.text, Piece.text]
  rfl

theorem printed_if (key : Text) :
    printed (tight (.word "if") :: testPieces key ++ [tight .newline]) = "if " ++ test key ++ "\n" := by
  simp [printed, testPieces, test, tight, loose, PlacedPiece.text, Piece.text]
  rfl

mutual

theorem Item.print_eq : ∀ item : Item, item.print = printed item.pieces
  | .resource r => by rw [Item.print, Item.pieces, r.print_eq]
  | .choice key items none => by
    rw [Item.print, Item.pieces, printed_append, printed_append, printed_if, printItems_eq items]
    rfl
  | .choice key items (some others) => by
    rw [Item.print, Item.pieces, printed_append, printed_append, printed_append, printed_append,
      printed_if, printItems_eq items, printItems_eq others]
    rfl

/-- A recipe is the text of its pieces. -/
theorem printItems_eq : ∀ items : List Item, printItems items = printed (itemsPieces items)
  | [] => rfl
  | item :: rest => by
    rw [printItems, itemsPieces, printed_append, item.print_eq, printItems_eq rest]

end

/-! ### Spacing -/

def endsName (pieces : List Placed) : Bool := pieces.head?.any fun q => q.spaced || q.piece.isMark

theorem wellSpaced_word {text : Text} (hw : isWord text = true) (spaced : Bool) {more : List Placed}
    (hnext : endsName more = true) (hmore : wellSpaced more = true) :
    wellSpaced (⟨spaced, .word text⟩ :: more) = true := by
  unfold endsName at hnext
  simp [wellSpaced, Piece.isSpelled, hw, hmore, hnext]

theorem wellSpaced_symbol {text : Text} (hw : isWord text = true) (spaced : Bool) {more : List Placed}
    (hnext : endsName more = true) (hmore : wellSpaced more = true) :
    wellSpaced (⟨spaced, .symbol text⟩ :: more) = true := by
  unfold endsName at hnext
  simp [wellSpaced, Piece.isSpelled, hw, hmore, hnext]

theorem wellSpaced_string (value : Text) (spaced : Bool) {more : List Placed}
    (hmore : wellSpaced more = true) : wellSpaced (⟨spaced, .string value⟩ :: more) = true := by
  simp [wellSpaced, Piece.isSpelled, Piece.isName, hmore]

theorem wellSpaced_opener {more : List Placed} (hmore : wellSpaced more = true) :
    wellSpaced (tight .opener :: more) = true := by
  simp [wellSpaced, tight, Piece.isSpelled, Piece.isName, hmore]

theorem wellSpaced_symbolPieces {actions : List Word} {more : List Placed}
    (hnext : endsName more = true) (hmore : wellSpaced more = true) :
    wellSpaced (symbolPieces actions ++ more) = true := by
  cases actions with
  | nil => exact hmore
  | cons a rest =>
    have htail : endsName ((rest.flatMap fun b => [tight .comma, loose (.symbol b.text)]) ++ more) = true ∧
        wellSpaced ((rest.flatMap fun b => [tight .comma, loose (.symbol b.text)]) ++ more) = true := by
      induction rest with
      | nil => exact ⟨hnext, hmore⟩
      | cons b rest ih => exact ⟨rfl, wellSpaced_symbol b.isWord true ih.1 ih.2⟩
    exact wellSpaced_symbol a.isWord false htail.1 htail.2

theorem wellSpaced_lines {lines : List (List Placed)}
    (h : ∀ line ∈ lines, wellSpaced (line ++ [tight .newline]) = true) :
    wellSpaced (lines.flatMap (· ++ [tight .newline])) = true := by
  induction lines with
  | nil => rfl
  | cons line lines ih =>
    exact wellSpaced_append (h line List.mem_cons_self)
      (ih fun line hline => h line (List.mem_cons_of_mem _ hline))

theorem Resource.wellSpaced_of_mem_lines (r : Resource) :
    ∀ line ∈ r.lines, wellSpaced (line ++ [tight .newline]) = true := by
  intro line hline
  rcases List.mem_append.1 hline with hline | hline
  · cases hr : r.actions with
    | nil =>
      rw [hr] at hline
      exact absurd hline List.not_mem_nil
    | cons a rest =>
      rw [hr] at hline
      obtain rfl := List.mem_singleton.1 hline
      rw [List.append_assoc, List.append_assoc]
      exact wellSpaced_word (by decide) false rfl (wellSpaced_symbolPieces rfl (by decide))
  · obtain ⟨p, -, rfl⟩ := List.mem_map.1 hline
    exact wellSpaced_word p.1.isWord false rfl (wellSpaced_string p.2 true rfl)

theorem Resource.wellSpaced_pieces (r : Resource) : wellSpaced r.pieces = true := by
  refine wellSpaced_append (wellSpaced_append ?_ (wellSpaced_lines r.wellSpaced_of_mem_lines)) (by decide)
  exact wellSpaced_word r.type.isWord false rfl (wellSpaced_string r.name true (by decide))

theorem wellSpaced_if (key : Text) :
    wellSpaced (tight (.word "if") :: testPieces key ++ [tight .newline]) = true :=
  wellSpaced_word (by decide) false rfl
    (wellSpaced_word (by decide) true rfl (wellSpaced_opener (wellSpaced_string key false (by decide))))

mutual

theorem Item.wellSpaced_pieces : ∀ item : Item, wellSpaced item.pieces = true
  | .resource r => by
    rw [Item.pieces]
    exact r.wellSpaced_pieces
  | .choice key items none => by
    rw [Item.pieces]
    exact wellSpaced_append (wellSpaced_append (wellSpaced_if key) (wellSpaced_itemsPieces items))
      (by decide)
  | .choice key items (some others) => by
    rw [Item.pieces]
    exact wellSpaced_append (wellSpaced_append (wellSpaced_append (wellSpaced_append (wellSpaced_if key)
      (wellSpaced_itemsPieces items)) (by decide)) (wellSpaced_itemsPieces others)) (by decide)

theorem wellSpaced_itemsPieces : ∀ items : List Item, wellSpaced (itemsPieces items) = true
  | [] => rfl
  | item :: rest => by
    rw [itemsPieces]
    exact wellSpaced_append item.wellSpaced_pieces (wellSpaced_itemsPieces rest)

end

end Canonical

end Cookbook
