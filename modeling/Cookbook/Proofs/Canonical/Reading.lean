import Cookbook.Proofs.Canonical.Parsing
import Cookbook.Proofs.Declaration.Body

/-!
The lines of a printed resource, read: a text in quotes is that text, a list of symbols names the
actions, and nothing is said about either.

* `normalize_string` and `normalize_listPieces` are the two values;
* `readBody_propertyLine` and `readBody_actionLine` are the two lines;
* `holds_readBodyList` is a whole block.
-/

namespace Cookbook

namespace Canonical

/-! ### Tokens -/

section Token

variable (pos : Nat)

theorem plain?_consText (value : Text) :
    StringPart.plain? (StringPart.consText value []) = some value := by
  cases value <;> simp [StringPart.consText, StringPart.plain?]

theorem valueOf?_word (w : Word) (spaced : Bool) :
    ((⟨spaced, .word w.text⟩ : Placed).token pos).valueOf? .ident = some w.text := by
  simp only [Token.valueOf?, PlacedPiece.token, isPiece_content, Piece.content, w.notKeyword]
  rfl

end Token

/-! ### Values -/

/-- A run without a comma outside brackets, and without a key, is one argument. -/
theorem ofRun_positional {run : List Token} (hrun : run ≠ []) (hpieces : pieces "," 0 run = [run])
    (hkey : Argument.key? run = none) : Argument.ofRun run = [.positional run] := by
  have hempty : run.isEmpty = false := by simpa using hrun
  unfold Argument.ofRun splitTopLevel
  rw [hempty, if_neg Bool.false_ne_true, hpieces]
  simp [hempty, Argument.ofPiece, hkey]

/-! ### Lists of symbols -/

def NoBrackets (run : List Token) : Prop := ∀ t ∈ run, t.isOpener = false ∧ t.isCloser = false

theorem noBrackets_symbols (pos : Nat) (actions : List Word) :
    NoBrackets (layout pos (symbolPieces actions)) := by
  have hlayout : ∀ (placed : List Placed) (pos : Nat),
      (∀ p ∈ placed, p.piece ≠ .opener ∧ p.piece ≠ .closer) → NoBrackets (layout pos placed) := by
    intro placed
    induction placed with
    | nil => exact fun _ _ _ ht => absurd ht List.not_mem_nil
    | cons p rest ih =>
      intro pos hplaced t ht
      rcases List.mem_cons.1 ht with rfl | ht
      · obtain ⟨ho, hc⟩ := hplaced p List.mem_cons_self
        simp [isOpener_token, isCloser_token, ho, hc]
      · exact ih _ (fun q hq => hplaced q (List.mem_cons_of_mem _ hq)) t ht
  refine hlayout _ pos fun p hp => ?_
  cases actions with
  | nil => exact absurd hp List.not_mem_nil
  | cons a rest =>
    rcases List.mem_cons.1 hp with rfl | hp
    · exact ⟨by simp [tight], by simp [tight]⟩
    · obtain ⟨b, -, hp⟩ := List.mem_flatMap.1 hp
      rcases List.mem_cons.1 hp with rfl | hp
      · exact ⟨by simp [tight], by simp [tight]⟩
      · obtain rfl := List.mem_singleton.1 hp
        exact ⟨by simp [loose], by simp [loose]⟩

section Bracketed

variable {run : List Token} (hrun : NoBrackets run) {closer : Token} (hcloser : closer.isCloser = true)
  (hopener : closer.isOpener = false)

include hrun hcloser hopener

theorem closing?_noBrackets : closing? 1 (run ++ [closer]) = some run.length := by
  induction run with
  | nil => simp [closing?, depthAfter, hcloser, hopener]
  | cons t run ih =>
    obtain ⟨ho, hc⟩ := hrun t List.mem_cons_self
    have hdepth : depthAfter 1 t = 1 := by simp [depthAfter, ho, hc]
    simp [closing?, hdepth, hc, ih fun u hu => hrun u (List.mem_cons_of_mem _ hu)]

theorem pieces_noBrackets (hcomma : closer.isPunct [","] = false) :
    pieces "," 1 (run ++ [closer]) = [run ++ [closer]] := by
  induction run with
  | nil => simp [pieces, depthAfter, hcloser, hopener, hcomma]
  | cons t run ih =>
    obtain ⟨ho, hc⟩ := hrun t List.mem_cons_self
    have hdepth : depthAfter 1 t = 1 := by simp [depthAfter, ho, hc]
    simp [pieces, hdepth, ih fun u hu => hrun u (List.mem_cons_of_mem _ hu)]

end Bracketed

theorem pieces_symbols (a : Word) (rest : List Word) (pos : Nat) (spaced : Bool) :
    ∃ runs, pieces "," 0 (layout pos (⟨spaced, .symbol a.text⟩ ::
        rest.flatMap fun b => [tight .comma, loose (.symbol b.text)])) = runs ∧
      List.Forall₂ (fun (b : Word) run =>
        ∃ spaced at', run = [(⟨spaced, .symbol b.text⟩ : Placed).token at']) (a :: rest) runs := by
  induction rest generalizing a pos spaced with
  | nil => exact ⟨_, rfl, .cons ⟨spaced, pos, rfl⟩ .nil⟩
  | cons b rest ih =>
    obtain ⟨runs, hruns, hall⟩ := ih b (pos + (⟨spaced, .symbol a.text⟩ : Placed).text.length + 1) true
    refine ⟨[(⟨spaced, .symbol a.text⟩ : Placed).token pos] :: runs, ?_, .cons ⟨spaced, pos, rfl⟩ hall⟩
    rw [← hruns]
    rfl

section Value

variable (ctx : NormalizeContext)

section Positional

variable {whole : List Token → Normalized} {run : List Token}
  (hlazy : run.head?.any (·.isIdent ["lazy"]) = false) (hconst : ctx.isUnknownConstant run = false)
  (hargs : Argument.ofRun run = [.positional run])

include hlazy hconst hargs

/-- A run that is one argument is read from its first token on. -/
theorem wholeRun_positional :
    ctx.wholeRun whole run =
      match ctx.primary? whole run with
      | some (n, taken) => if taken = run.length then n else ctx.keep run .unrecognizedValue
      | none => ctx.keep run .unrecognizedValue := by
  have hentries : NormalizeContext.entries? whole [.positional run] = none := rfl
  rw [NormalizeContext.wholeRun_eq, hlazy, hconst, hargs, hentries]
  rfl

/-- A run that is one argument and one value. -/
theorem wholeRun_of_primary {n : Normalized} (h : ctx.primary? whole run = some (n, run.length)) :
    ctx.wholeRun whole run = n := by
  rw [wholeRun_positional ctx hlazy hconst hargs, h]
  exact if_pos rfl

end Positional

theorem wholeRun_string (whole : List Token → Normalized) (pos : Nat) (spaced : Bool) (value : Text) :
    ctx.wholeRun whole [(⟨spaced, .string value⟩ : Placed).token pos] = .clean (.ofText value) := by
  refine wholeRun_of_primary ctx rfl rfl (ofRun_positional (by simp) rfl rfl) ?_
  have hcontent : ((⟨spaced, .string value⟩ : Placed).token pos).content =
      .string .single (StringPart.consText value []) := rfl
  simp [NormalizeContext.primary?, hcontent, NormalizeContext.stringValue, plain?_consText]

theorem wholeRun_symbol (whole : List Token → Normalized) (pos : Nat) (spaced : Bool) (name : Text) :
    ctx.wholeRun whole [(⟨spaced, .symbol name⟩ : Placed).token pos] = .clean (.symbol name) :=
  wholeRun_of_primary ctx rfl rfl (ofRun_positional (by simp) rfl rfl) rfl

theorem normalize_string (pos : Nat) (spaced : Bool) (value : Text) :
    ctx.normalize [(⟨spaced, .string value⟩ : Placed).token pos] = .clean (.ofText value) :=
  wholeRun_string ctx _ pos spaced value

def listPieces (actions : List Word) : List Placed :=
  loose .opener :: symbolPieces actions ++ [tight .closer]

theorem layout_listPieces (pos : Nat) (actions : List Word) :
    layout pos (listPieces actions) =
      (loose .opener).token pos :: (layout (pos + 2) (symbolPieces actions) ++
        [(tight .closer).token (pos + 2 + (printed (symbolPieces actions)).length)]) := by
  unfold listPieces
  rw [List.cons_append, layout, layout_append]
  rfl

theorem ofRun_listPieces (pos : Nat) (actions : List Word) :
    Argument.ofRun (layout pos (listPieces actions)) =
      [.positional (layout pos (listPieces actions))] := by
  rw [layout_listPieces]
  generalize pos + 2 + (printed (symbolPieces actions)).length = p
  have hinner := pieces_noBrackets (noBrackets_symbols (pos + 2) actions)
    (isCloser_token p (tight .closer)) (isOpener_token p (tight .closer))
    (isPunct_token p (tight .closer) [","])
  have hdepth : depthAfter 0 ((loose .opener).token pos) = 1 := rfl
  refine ofRun_positional (List.cons_ne_nil _ _) ?_ rfl
  rw [pieces, hdepth, hinner]
  rfl

theorem gather_symbols (fuel pos : Nat) (actions : List Word) :
    Normalized.gather (((splitTopLevel "," (layout pos (symbolPieces actions))).filter
        (!·.isEmpty)).map (ctx.readRun (fuel + 1))) =
      (actions.map fun a => .symbol a.text, []) := by
  have hall : ∀ {actions : List Word} {runs : List (List Token)},
      List.Forall₂ (fun (b : Word) run =>
        ∃ spaced at', run = [(⟨spaced, .symbol b.text⟩ : Placed).token at']) actions runs →
      Normalized.gather ((runs.filter (!·.isEmpty)).map (ctx.readRun (fuel + 1))) =
        (actions.map fun a => .symbol a.text, []) := by
    intro actions runs h
    induction h with
    | nil => rfl
    | @cons b run actions runs hrun _ ih =>
      obtain ⟨spaced, at', rfl⟩ := hrun
      have hvalue : ctx.readRun (fuel + 1) [(⟨spaced, .symbol b.text⟩ : Placed).token at'] = _ :=
        wholeRun_symbol ctx (ctx.readRun fuel) at' spaced b.text
      simp only [Normalized.gather, Prod.mk.injEq] at ih
      simp only [Normalized.gather, List.filter_cons, List.isEmpty_cons, Bool.not_false, if_true,
        List.map_cons, List.flatMap_cons, hvalue, ih]
      rfl
  cases actions with
  | nil => rfl
  | cons a rest =>
    obtain ⟨runs, hruns, hforall⟩ := pieces_symbols a rest pos false
    have hsplit : splitTopLevel "," (layout pos (symbolPieces (a :: rest))) = runs := hruns
    rw [hsplit]
    exact hall hforall

theorem normalize_listPieces (pos : Nat) (actions : List Word) :
    ctx.normalize (layout pos (listPieces actions)) =
      ⟨.list (actions.map fun a => .symbol a.text), []⟩ := by
  have hargs := ofRun_listPieces pos actions
  have hlength : (layout pos (listPieces actions)).length =
      (layout (pos + 2) (symbolPieces actions)).length + 2 := by
    rw [layout_listPieces]
    simp
  have hprimary : ∀ fuel, ctx.primary? (ctx.readRun (fuel + 1)) (layout pos (listPieces actions)) =
      some (⟨.list (actions.map fun a => .symbol a.text), []⟩,
        (layout pos (listPieces actions)).length) := by
    intro fuel
    have hgather := gather_symbols ctx fuel (pos + 2) actions
    rw [hlength, layout_listPieces]
    generalize pos + 2 + (printed (symbolPieces actions)).length = p
    have hclosing : closing? 0 ((loose .opener).token pos ::
        (layout (pos + 2) (symbolPieces actions) ++ [(tight .closer).token p])) =
        some ((layout (pos + 2) (symbolPieces actions)).length + 1) := by
      have hinner := closing?_noBrackets (noBrackets_symbols (pos + 2) actions)
        (isCloser_token p (tight .closer)) (isOpener_token p (tight .closer))
      have hdepth : depthAfter 0 ((loose .opener).token pos) = 1 := rfl
      have hcloser : ((loose .opener).token pos).isCloser = false := rfl
      rw [closing?, hdepth, hcloser, hinner]
      rfl
    show NormalizeContext.bracketed? _ ((loose .opener).token pos) _ = _
    unfold NormalizeContext.bracketed?
    rw [hclosing]
    have hopener : ((loose .opener).token pos).isPunct ["["] = true := rfl
    simp [hopener, hgather]
  -- the list takes the whole run, so nothing is left over
  have hread : ∀ fuel, ctx.readRun (fuel + 2) (layout pos (listPieces actions)) =
      ⟨.list (actions.map fun a => .symbol a.text), []⟩ := by
    intro fuel
    refine wholeRun_of_primary ctx ?_ ?_ hargs (hprimary fuel)
    · rw [layout_listPieces]
      rfl
    · rw [layout_listPieces]
      cases layout (pos + 2) (symbolPieces actions) <;> rfl
  unfold NormalizeContext.normalize NormalizeContext.fuel
  rw [hlength]
  have hempty : (layout pos (listPieces actions)).isEmpty = false := by
    rw [layout_listPieces]
    rfl
  rw [hempty, if_neg Bool.false_ne_true]
  exact hread (ctx.text.length * (ctx.text.length + 1) +
    (layout (pos + 2) (symbolPieces actions)).length + 1)

end Value

/-! ### Lines -/

theorem plainCall?_word {c : Command} {w : Word} {spaced : Bool} {pos : Nat} {rest : List Token}
    (hhead : c.head = (⟨spaced, .word w.text⟩ : Placed).token pos :: rest)
    (hparen : (rest.head?.any fun t => t.isPunct ["("] && !t.spaceBefore) = false)
    (hargs : Argument.ofRun rest = [.positional rest]) :
    c.plainCall? = some (w.text, [.positional rest]) := by
  unfold Command.plainCall?
  rw [hhead]
  simp only [List.head?_cons, Option.bind_some, valueOf?_word, Call.ofRun?, hparen, hargs]
  rfl

theorem plainCall?_text {c : Command} {w : Word} {pos : Nat} {value : Text}
    (hhead : c.head = layout pos [tight (.word w.text), loose (.string value)]) :
    c.plainCall? =
      some (w.text, [.positional [(loose (.string value)).token (pos + w.text.length)]]) :=
  plainCall?_word hhead rfl (ofRun_positional (List.cons_ne_nil _ _) rfl rfl)

def actionWord : Word := ⟨"action", by decide, by decide⟩

theorem plainCall?_actions {c : Command} {pos : Nat} {actions : List Word}
    (hhead : c.head = layout pos (tight (.word "action") :: listPieces actions)) :
    c.plainCall? = some (("action" : Text), [.positional (layout (pos + 6) (listPieces actions))]) := by
  have hparen : ((layout (pos + 6) (listPieces actions)).head?.any fun t =>
      t.isPunct ["("] && !t.spaceBefore) = false := by
    rw [layout_listPieces]
    rfl
  have hword : c.head = (⟨false, .word actionWord.text⟩ : Placed).token pos ::
      layout (pos + 6) (listPieces actions) := hhead
  exact plainCall?_word hword hparen (ofRun_listPieces _ _)

section Line

variable (ctx : NormalizeContext) (b : ResourceBody) {s : Statement}

theorem readBody_propertyLine {p : Word × Text} (hp : bodyWords.contains p.1.text = false)
    (hs : Spells (propertyLine p) s) :
    ∃ span, s.readBody ctx false b = b.addProperty p.1.text (.ofText p.2) span := by
  obtain ⟨w, value⟩ := p
  obtain ⟨extent, pos, rfl⟩ := hs
  have hnot : ∀ other ∈ bodyWords, w.text ≠ other := by
    intro other hother hw
    rw [List.contains_eq_mem, decide_eq_false_iff_not] at hp
    exact hp (hw ▸ hother)
  have haction : w.text ≠ "action" := hnot _ (by decide)
  have honlyIf : w.text ≠ "only_if" := hnot _ (by decide)
  have hnotIf : w.text ≠ "not_if" := hnot _ (by decide)
  have hnotifies : w.text ≠ "notifies" := hnot _ (by decide)
  have hsubscribes : w.text ≠ "subscribes" := hnot _ (by decide)
  let c : Command := ⟨extent, layout pos (propertyLine (w, value)), none, [], none⟩
  have hcall : c.plainCall? = _ := plainCall?_text (rfl : c.head = _)
  refine ⟨ctx.lines.span extent.start extent.stop, ?_⟩
  show b.command ctx false c = _
  rw [ResourceBody.command_some b ctx false (rfl : c.head.tail.head?.any _ = false) hcall]
  unfold ResourceBody.call
  simp only [haction, honlyIf, hnotIf, hnotifies, hsubscribes, if_false]
  show (b.value ctx _).2.addProperty _ (b.value ctx _).1 _ = _
  have hvalue := normalize_string ctx (pos + w.text.length) true value
  unfold ResourceBody.value
  rw [show loose (.string value) = ⟨true, .string value⟩ from rfl, hvalue]
  simp [Normalized.clean, ResourceBody.addProperty, c]

omit ctx b in
theorem actionNames?_symbols (actions : List Word) :
    ResourceBody.actionNames? (.list (actions.map fun a => Value.symbol a.text)) =
      some (actions.map (·.text)) := by
  unfold ResourceBody.actionNames?
  induction actions with
  | nil => rfl
  | cons a rest ih =>
    have hsymbol : (Value.symbol a.text).literalText? = some a.text := rfl
    simp only [List.map_cons, List.mapM_cons, ih, hsymbol]
    rfl

theorem readBody_actionLine {actions : List Word}
    (hs : Spells (tight (.word "action") :: listPieces actions) s) :
    s.readBody ctx false b = { b with actions := b.actions ++ actions.map (·.text) } := by
  obtain ⟨extent, pos, rfl⟩ := hs
  let c : Command :=
    ⟨extent, layout pos (tight (.word "action") :: listPieces actions), none, [], none⟩
  have hcall : c.plainCall? = _ := plainCall?_actions (rfl : c.head = _)
  have hexpr : c.head.tail.head?.any Token.continuesExpression = false := by
    show (layout (pos + 6) (listPieces actions)).head?.any _ = false
    rw [layout_listPieces]
    rfl
  show b.command ctx false c = _
  rw [ResourceBody.command_some b ctx false hexpr hcall]
  unfold ResourceBody.call
  rw [if_pos rfl]
  simp [ResourceBody.action, ResourceBody.value, normalize_listPieces, actionNames?_symbols,
    ResourceBody.noteModifier, Argument.positional?, c]

/-- The body says what the recipe says, and nothing was noted. -/
structure Holds (b : ResourceBody) (actions : List Word) (properties : List (Word × Text)) : Prop where
  actions : b.actions = actions.map (·.text)
  properties : b.properties.map (fun p => (p.name, p.value)) =
    properties.map fun (p, value) => (p.text, .ofText value)
  guards : b.guards = []
  notifications : b.notifications = []
  diagnostics : b.diagnostics = []

variable {b} in
theorem Holds.properties_lines {actions : List Word} {before : List (Word × Text)}
    (hb : Holds b actions before) {properties : List (Word × Text)}
    (hplain : ∀ p ∈ properties, bodyWords.contains p.1.text = false) {body : List Statement}
    (hbody : List.Forall₂ Spells (properties.map propertyLine) body) :
    Holds (readBodyList ctx false body b) actions (before ++ properties) := by
  induction properties generalizing b before body with
  | nil =>
    cases hbody
    simpa [readBodyList] using hb
  | cons p rest ih =>
    rw [List.map_cons] at hbody
    cases hbody with
    | @cons _ s _ body hs hbody =>
      obtain ⟨span, hread⟩ := readBody_propertyLine ctx b (hplain p List.mem_cons_self) hs
      have hnext : Holds (s.readBody ctx false b) actions (before ++ [p]) := by
        rw [hread]
        exact ⟨hb.actions, by simp [ResourceBody.addProperty, hb.properties], hb.guards,
          hb.notifications, hb.diagnostics⟩
      rw [readBodyList, List.append_cons]
      exact ih hnext (fun q hq => hplain q (List.mem_cons_of_mem _ hq)) hbody

/-- A printed block says what it was printed from. -/
theorem holds_readBodyList (r : Resource) {body : List Statement}
    (hbody : List.Forall₂ Spells r.lines body) :
    Holds (readBodyList ctx false body (.start [])) r.actions r.properties := by
  have hstart : Holds (.start []) [] [] := ⟨rfl, rfl, rfl, rfl, rfl⟩
  unfold Resource.lines at hbody
  cases hactions : r.actions with
  | nil =>
    rw [hactions] at hbody
    exact hstart.properties_lines ctx r.plain hbody
  | cons a rest =>
    rw [hactions] at hbody
    cases hbody with
    | @cons _ s _ body hs hbody =>
      have hnext : Holds (s.readBody ctx false (.start [])) (a :: rest) [] := by
        rw [readBody_actionLine ctx _ hs]
        exact ⟨rfl, rfl, rfl, rfl, rfl⟩
      exact hnext.properties_lines ctx r.plain hbody

end Line

end Canonical

end Cookbook
