import Cookbook.Proofs.Canonical.Reading
import Cookbook.Proofs.Value.Brackets

/-!
Printed values are read back.

* `interpolate_eq_iff` and `number?_ofNat` are about texts with paths in them and about integers;
* `primary?_path`, `primary?_list` and their like are one form of value each;
* `readRun_pieces` is the reading of a value's tokens, `normalizeText_print` the whole round trip.
-/

namespace Cookbook

namespace Written

/-! ### Segments -/

theorem scalar?_of_isSegment {v : Value} (h : v.isSegment = true) :
    v.scalar? = none ↔ v.isText = false := by
  rcases Value.isSegment_cases h with ⟨t, -, rfl⟩ | ⟨scope, keys, -, rfl⟩
  · simp [Value.scalar?, Value.isText]
  · simp [Value.scalar?, Value.isText]

/-- Texts and paths are joined segments when no two texts are neighbours. -/
theorem apart_iff {segments : List Value} (h : segments.all Value.isSegment = true) :
    Value.Apart segments ↔ textsApart segments = true := by
  induction segments with
  | nil => simp [Value.Apart, textsApart]
  | cons v rest ih =>
    obtain ⟨hv, hrest⟩ : v.isSegment = true ∧ rest.all Value.isSegment = true := by simpa using h
    have hstays : v.Stays := by
      rcases Value.isSegment_cases hv with ⟨t, ht, rfl⟩ | ⟨scope, keys, -, rfl⟩
      · exact .inr ⟨_, rfl, by simp, by simpa using ht⟩
      · exact .inl rfl
    have hneighbour : (∀ w ∈ rest.head?, v.scalar? = none ∨ w.scalar? = none) ↔
        (v.isText = true → rest.head?.any Value.isText = false) := by
      cases rest with
      | nil => simp
      | cons w rest =>
        obtain ⟨hw, -⟩ : w.isSegment = true ∧ rest.all Value.isSegment = true := by simpa using hrest
        simp only [List.head?_cons, Option.mem_some_iff, forall_eq', Option.any_some,
          scalar?_of_isSegment hv, scalar?_of_isSegment hw]
        cases v.isText <;> simp
    rw [textsApart_cons, ← hneighbour, ← ih hrest]
    unfold Value.Apart
    rw [List.forall_mem_cons, List.isChain_cons]
    simp only [hstays, true_and]
    exact and_left_comm

/-- An interpolation is in normal form exactly when it is what its segments make. -/
theorem interpolate_eq_iff {segments : List Value} (h : segments.all Value.isSegment = true) :
    Value.interpolate segments = .interpolation segments ↔ isNormal segments = true := by
  have hflat : ∀ v ∈ segments, v.segments = [v] := by
    intro v hv
    rcases Value.isSegment_cases (List.all_eq_true.1 h v hv) with ⟨t, -, rfl⟩ | ⟨scope, keys, -, rfl⟩
    · rfl
    · rfl
  rw [Value.interpolate_eq, Value.ofJoined_eq_iff, Value.joinSegments_eq_self_iff hflat, apart_iff h,
    isNormal, h, Bool.true_and, Bool.and_eq_true, and_comm]
  refine and_congr_left fun hapart => ?_
  rcases segments with - | ⟨v, - | ⟨w, rest⟩⟩
  · simp
  · simp only [List.all_cons, List.all_nil, Bool.and_true] at h
    simp [scalar?_of_isSegment h]
  · -- of the first two one is no text
    simp only [textsApart, Bool.and_eq_true, Bool.not_eq_true'] at hapart
    have hpath : (v :: w :: rest).any (!·.isText) = true := by
      rw [List.any_cons, List.any_cons, ← Bool.or_assoc, ← Bool.not_and, hapart.1]
      rfl
    simp [hpath]

theorem plain?_templateParts {segments : List Value} (h : segments.all Value.isSegment = true)
    (hpath : segments.any (!·.isText) = true) (pos : Nat) :
    StringPart.plain? (templateParts pos segments) = none := by
  induction segments generalizing pos with
  | nil => exact absurd hpath Bool.false_ne_true
  | cons v rest ih =>
    obtain ⟨hv, hrest⟩ : v.isSegment = true ∧ rest.all Value.isSegment = true := by simpa using h
    rcases Value.isSegment_cases hv with ⟨t, -, rfl⟩ | ⟨scope, keys, -, rfl⟩
    · have hrest' : rest.any (!·.isText) = true := hpath
      rw [templateParts, StringPart.plain?, ih hrest hrest', Option.map_none]
    · rfl

theorem filterMap_templateParts {whole : List Token → Normalized}
    (hwhole : ∀ scope keys pos, keys ≠ [] →
      whole (layout pos (pathPieces false scope keys)) = .clean (.path scope keys))
    {segments : List Value} (h : segments.all Value.isSegment = true) (pos : Nat) :
    (templateParts pos segments).filterMap (NormalizeContext.part? whole) = segments.map .clean := by
  induction segments generalizing pos with
  | nil => rfl
  | cons v rest ih =>
    obtain ⟨hv, hrest⟩ : v.isSegment = true ∧ rest.all Value.isSegment = true := by simpa using h
    rcases Value.isSegment_cases hv with ⟨t, -, rfl⟩ | ⟨scope, keys, hkeys, rfl⟩
    · rw [templateParts, List.filterMap_cons, ih hrest]
      rfl
    · have hpart : NormalizeContext.part? whole (.code (printPath scope keys) (pos + 2)) =
          some (.clean (.path scope keys)) := by
        unfold NormalizeContext.part?
        dsimp only
        rw [lexInline_printPath, ← hwhole scope keys (pos + 2) hkeys]
        rfl
      rw [templateParts, List.filterMap_cons, hpart, ih hrest]
      rfl

/-! ### Numbers -/

section Number

variable {k : Nat} (hk : k ≤ Number.maxSafe)

theorem digitsOf_ofNat (k : Nat) : NormalizeContext.digitsOf (Text.ofNat k) = Text.ofNat k := by
  refine List.filter_eq_self.2 fun c hc => ?_
  have hdigit := Text.isDigit_of_mem_ofNat hc
  refine bne_iff_ne.2 ?_
  rintro rfl
  exact absurd hdigit (by decide)

/-- No integer is printed like a file mode. -/
theorem isFileMode_ofNat (k : Nat) : (Text.ofNat k).isFileMode = false := by
  unfold Text.isFileMode
  split
  · rename_i c d rest htext
    simp [Text.ne_zero_of_ofNat_eq htext]
  · rfl

include hk

theorem number?_ofNat (negative : Bool) :
    NormalizeContext.number? (Text.ofNat k) negative =
      some (.literal (.number (if negative then -(k : Rat) else k))) := by
  unfold NormalizeContext.number?
  rw [Number.ofText?_ofNat hk]
  simp [Number.isSafeInteger_natCast, hk]

theorem numberToken?_ofNat :
    NormalizeContext.numberToken? (Text.ofNat k) = some (.literal (.number k)) := by
  unfold NormalizeContext.numberToken?
  dsimp only
  rw [digitsOf_ofNat, isFileMode_ofNat, if_neg Bool.false_ne_true, number?_ofNat hk]
  rfl

end Number

/-! ### Values -/

section Value

variable (ctx : NormalizeContext) (whole : List Token → Normalized) (pos : Nat) (spaced : Bool)

theorem isUnknownConstant_layout (run : List Placed) :
    ctx.isUnknownConstant (layout pos run) = false := by
  rcases run with - | ⟨⟨spaced, p⟩, - | ⟨q, run⟩⟩
  · rfl
  · cases p with
    | word w =>
      simp only [NormalizeContext.isUnknownConstant, layout, Token.valueOf?, PlacedPiece.token, isPiece_content, Piece.content]
      cases keywords.contains w <;> rfl
    | _ => rfl
  · rfl

theorem starts_pieces {v : Value} (h : v.isPrintable = true) :
    (layout pos (pieces spaced v)).head?.any (·.isIdent ["lazy"]) = false ∧
      Argument.key? (layout pos (pieces spaced v)) = none := by
  revert spaced
  apply Value.printable_ind (h := h)
  case number =>
    intro n _ spaced
    rw [pieces, intPieces]
    split <;> exact ⟨rfl, rfl⟩
  case bool =>
    intro b spaced
    cases b <;> exact ⟨rfl, rfl⟩
  case path =>
    intro scope keys _ spaced
    cases scope <;> exact ⟨rfl, rfl⟩
  all_goals
    intros
    exact ⟨rfl, rfl⟩

/-- A value is one argument, so its tokens are read from the first on. -/
theorem wholeRun_pieces {v : Value} (h : v.isPrintable = true)
    (hprimary : ctx.primary? whole (layout pos (pieces spaced v)) =
      some (.clean v, (pieces spaced v).length)) :
    ctx.wholeRun whole (layout pos (pieces spaced v)) = .clean v := by
  refine Canonical.wholeRun_of_primary ctx ?_ (isUnknownConstant_layout ctx pos _)
    (Canonical.ofRun_positional (layout_ne_nil (pieces_nonempty h spaced) pos)
      (passes_pieces h spaced pos).pieces_self (starts_pieces pos spaced h).2) ?_
  · exact (starts_pieces pos spaced h).1
  · rw [length_layout]
    exact hprimary

/-! ### Paths -/

theorem readKeys_layout (dotted : Bool) (constants : Bindings Value) (keys : List Text) :
    readKeys dotted constants (layout pos (keys.flatMap keyPieces)) =
      some (keys, (keys.flatMap keyPieces).length) := by
  induction keys generalizing pos with
  | nil => rfl
  | cons key keys ih =>
    have hkey : keyText? constants ((⟨false, .string key⟩ : Placed).token (pos + 1)) = some key :=
      Canonical.plain?_consText key
    have hopen : ((mark "[").token pos).isPunct ["["] && !((mark "[").token pos).spaceBefore := rfl
    have hclose : ∀ pos, ((mark "]").token pos).isPunct ["]"] = true := fun _ => rfl
    rw [List.flatMap_cons, layout_append]
    show readKeys dotted constants ((mark "[").token pos :: (⟨false, .string key⟩ : Placed).token (pos + 1) ::
      (mark "]").token _ :: layout _ (keys.flatMap keyPieces)) = _
    rw [readKeys, if_pos hopen]
    dsimp only
    rw [if_pos (hclose _), hkey, ih]
    simp [keyPieces]

theorem path?_layout (scope : Scope) {keys : List Text} (hkeys : keys ≠ []) :
    ctx.path? scope.word (layout pos (keys.flatMap keyPieces)) =
      some (.path scope keys, (pathPieces spaced scope keys).length) := by
  -- the token after the root is a bracket, so no level of the node follows
  have hpath : ctx.path? scope.word (layout pos (keys.flatMap keyPieces)) =
      (readKeys (scope == .node || scope == .newResource) ctx.constants
        (layout pos (keys.flatMap keyPieces))).bind fun read =>
          if read.1.isEmpty then none else some (.path scope read.1, 1 + 0 + read.2) := by
    obtain ⟨key, keys, rfl⟩ := List.exists_cons_of_ne_nil hkeys
    cases scope <;> rfl
  rw [hpath, readKeys_layout]
  simp [hkeys, pathPieces, Nat.add_comm]

theorem primary?_path (scope : Scope) {keys : List Text} (hkeys : keys ≠ []) :
    ctx.primary? whole (layout pos (pathPieces spaced scope keys)) =
      some (.clean (.path scope keys), (pathPieces spaced scope keys).length) := by
  have hcontent : ((⟨spaced, .word scope.word⟩ : Placed).token pos).content = .name .ident scope.word := by
    cases scope <;> rfl
  have hnext : (layout (pos + (⟨spaced, .word scope.word⟩ : Placed).text.length)
      (keys.flatMap keyPieces)).head?.any (·.isPunct ["(", ".", "&.", "["]) = true := by
    obtain ⟨key, keys, rfl⟩ := List.exists_cons_of_ne_nil hkeys
    rfl
  rw [pathPieces, layout]
  unfold NormalizeContext.primary?
  simp only [hcontent, hnext, if_true]
  rw [path?_layout ctx _ spaced scope hkeys]
  rfl

theorem wholeRun_path (scope : Scope) {keys : List Text} (hkeys : keys ≠ []) :
    ctx.wholeRun whole (layout pos (pathPieces spaced scope keys)) = .clean (.path scope keys) :=
  wholeRun_pieces ctx whole pos spaced (v := .path scope keys) (by simpa [Value.isPrintable] using hkeys)
    (primary?_path ctx whole pos spaced scope hkeys)

/-! ### Lists and hashes -/

theorem gather_clean (values : List Value) : Normalized.gather (values.map .clean) = (values, []) := by
  induction values with
  | nil => rfl
  | cons v rest ih =>
    simp only [Normalized.gather, Prod.mk.injEq] at ih
    simp [Normalized.gather, Normalized.clean, ih]

theorem map_layouts {items : List Value}
    (h : ∀ v ∈ items, ∀ spaced pos, whole (layout pos (pieces spaced v)) = .clean v) :
    (layouts pos (runsOf pieces spaced items)).map whole = items.map .clean := by
  induction items generalizing pos spaced with
  | nil => rfl
  | cons v rest ih =>
    rw [runsOf, layouts, List.map_cons, h v List.mem_cons_self,
      ih _ _ fun w hw => h w (List.mem_cons_of_mem _ hw), List.map_cons]

theorem entries?_cons {key : Text} {token : Token} {tokens : List Token} {args : List Argument}
    {v : Value} {entries : List Entry} (hv : whole tokens = .clean v)
    (hargs : NormalizeContext.entries? whole args = some (entries, [])) :
    NormalizeContext.entries? whole (.keyword key token tokens :: args) =
      some (⟨key, v⟩ :: entries, []) := by
  unfold NormalizeContext.entries? at hargs ⊢
  cases hpairs : args.mapM Argument.keyword? with
  | none => simp [hpairs] at hargs
  | some pairs =>
    have hkeyword : (Argument.keyword key token tokens).keyword? = some (key, tokens) := rfl
    simp only [hpairs, List.mapM_cons, hkeyword] at hargs ⊢
    obtain ⟨hentries, hdiagnostics⟩ := Prod.mk.inj (Option.some.inj hargs)
    show some ((⟨key, (whole tokens).value⟩ : Entry) :: _,
      (whole tokens).diagnostics ++ List.flatMap _ _) = _
    rw [hv, hentries, hdiagnostics]
    rfl

theorem ofPiece_entry (e : Entry) :
    ∃ token pos', Argument.ofPiece (layout pos (entryPieces spaced e)) =
      .keyword e.key token (layout pos' (pieces true e.value)) := by
  have hkey : ∀ (t arrow : Token) (rest : List Token),
      t.content = .string .single (StringPart.consText e.key []) → arrow.isPunct ["=>"] = true →
      Argument.ofPiece (t :: arrow :: rest) = .keyword e.key t rest := by
    intro t arrow rest ht harrow
    simp [Argument.ofPiece, Argument.key?, ht, harrow, Canonical.plain?_consText]
  exact ⟨_, _, hkey _ _ _ rfl rfl⟩

theorem entries?_layouts {entries : List Entry}
    (h : ∀ e ∈ entries, ∀ spaced pos, whole (layout pos (pieces spaced e.value)) = .clean e.value) :
    NormalizeContext.entries? whole ((layouts pos (runsOf entryPieces spaced entries)).map Argument.ofPiece) =
      some (entries, []) := by
  induction entries generalizing pos spaced with
  | nil => rfl
  | cons e rest ih =>
    obtain ⟨key, v⟩ := e
    obtain ⟨token, pos', hpiece⟩ := ofPiece_entry pos spaced ⟨key, v⟩
    have hrest := ih (pos + (printed (entryPieces spaced ⟨key, v⟩)).length + 1) true
      fun e he => h e (List.mem_cons_of_mem _ he)
    rw [runsOf, layouts, List.map_cons, hpiece]
    exact entries?_cons whole (h ⟨key, v⟩ List.mem_cons_self true pos') hrest

theorem take_drop_enclosed (opener closer : Text) (runs : List (List Placed)) :
    ((layout pos (enclosed spaced opener closer runs)).take ((commaSeparated runs).length + 1)).drop 1 =
      layout (pos + (⟨spaced, .mark opener⟩ : Placed).text.length) (commaSeparated runs) := by
  rw [layout_enclosed]
  dsimp only
  rw [List.take_succ_cons, List.drop_succ_cons, List.drop_zero]
  conv_lhs => rw [← length_layout (pos + (⟨spaced, .mark opener⟩ : Placed).text.length)]
  exact List.take_left

theorem primary?_list {items : List Value} (h : ∀ v ∈ items, v.isPrintable = true)
    (hwhole : ∀ v ∈ items, ∀ spaced pos, whole (layout pos (pieces spaced v)) = .clean v) :
    ctx.primary? whole (layout pos (pieces spaced (.list items))) =
      some (.clean (.list items), (pieces spaced (.list items)).length) := by
  have hruns : ∀ run ∈ runsOf pieces false items, run ≠ [] ∧ ∀ pos, Passes 0 (layout pos run) := by
    intro run hrun
    obtain ⟨spaced', v, hv, rfl⟩ := mem_runsOf hrun
    exact ⟨pieces_nonempty (h v hv) spaced', passes_pieces (h v hv) spaced'⟩
  rw [pieces_list, length_enclosed]
  show NormalizeContext.bracketed? whole ((⟨spaced, .mark "["⟩ : Placed).token pos)
    (layout pos (enclosed spaced "[" "]" (runsOf pieces false items))) = _
  have hopener : ((⟨spaced, .mark "["⟩ : Placed).token pos).isPunct ["["] = true := rfl
  unfold NormalizeContext.bracketed?
  rw [closing?_enclosed (by decide) fun run hrun => (hruns run hrun).2]
  simp only [Option.bind_eq_bind, Option.bind_some, take_drop_enclosed, hopener, if_true,
    filter_splitTopLevel hruns, map_layouts whole _ _ hwhole, gather_clean]
  rfl

theorem primary?_map {entries : List Entry} (h : ∀ e ∈ entries, e.value.isPrintable = true)
    (hwhole : ∀ e ∈ entries, ∀ spaced pos, whole (layout pos (pieces spaced e.value)) = .clean e.value) :
    ctx.primary? whole (layout pos (pieces spaced (.map entries))) =
      some (.clean (.map entries), (pieces spaced (.map entries)).length) := by
  have hruns : ∀ run ∈ runsOf entryPieces false entries, run ≠ [] ∧ ∀ pos, Passes 0 (layout pos run) := by
    intro run hrun
    obtain ⟨spaced', e, he, rfl⟩ := mem_runsOf hrun
    exact ⟨List.cons_ne_nil _ _, passes_entryPieces (passes_pieces (h e he) true) spaced'⟩
  rw [pieces_map, length_enclosed]
  show NormalizeContext.bracketed? whole ((⟨spaced, .mark "\x7b"⟩ : Placed).token pos)
    (layout pos (enclosed spaced "\x7b" "\x7d" (runsOf entryPieces false entries))) = _
  have hsquare : ((⟨spaced, .mark "\x7b"⟩ : Placed).token pos).isPunct ["["] = false := rfl
  have hopener : ((⟨spaced, .mark "\x7b"⟩ : Placed).token pos).isPunct ["\x7b"] = true := rfl
  unfold NormalizeContext.bracketed?
  rw [closing?_enclosed (by decide) fun run hrun => (hruns run hrun).2]
  simp only [Option.bind_eq_bind, Option.bind_some, take_drop_enclosed, hsquare, hopener,
    Bool.false_eq_true, if_false, if_true, Argument.ofRun, filter_splitTopLevel hruns,
    entries?_layouts whole _ _ hwhole]
  rfl

/-! ### Literals and texts -/

theorem primary?_text (t : Text) :
    ctx.primary? whole (layout pos (pieces spaced (.literal (.text t)))) =
      some (.clean (.literal (.text t)), 1) := by
  show some (ctx.stringValue whole _ .single (StringPart.consText t []), 1) = _
  unfold NormalizeContext.stringValue
  rw [Canonical.plain?_consText]
  rfl

theorem primary?_symbol (name : Text) :
    ctx.primary? whole (layout pos (pieces spaced (.symbol name))) = some (.clean (.symbol name), 1) := by
  show some (ctx.stringValue whole _ .symbol (StringPart.consText name []), 1) = _
  unfold NormalizeContext.stringValue
  rw [Canonical.plain?_consText]
  rfl

theorem primary?_interpolation {segments : List Value} (h : isNormal segments = true)
    (hwhole : ∀ scope keys pos, keys ≠ [] →
      whole (layout pos (pathPieces false scope keys)) = .clean (.path scope keys)) :
    ctx.primary? whole (layout pos (pieces spaced (.interpolation segments))) =
      some (.clean (.interpolation segments), 1) := by
  have hparts := h
  simp only [isNormal, Bool.and_eq_true] at hparts
  obtain ⟨⟨hsegments, hpath⟩, -⟩ := hparts
  have hvalue := (interpolate_eq_iff hsegments).2 h
  show some (ctx.stringValue whole _ .double
    (templateParts (pos + (PlacedPiece.blank spaced).length + 1) segments), 1) = _
  unfold NormalizeContext.stringValue
  rw [plain?_templateParts hsegments hpath, filterMap_templateParts hwhole hsegments, gather_clean]
  simp only [reduceCtorEq, if_false, hvalue]
  rfl

theorem primary?_number {n : Number} (h : n.isSafeInteger = true) :
    ctx.primary? whole (layout pos (pieces spaced (.literal (.number n)))) =
      some (.clean (.literal (.number n)), (pieces spaced (.literal (.number n))).length) := by
  simp only [Number.isSafeInteger, Number.isInteger, Bool.and_eq_true, beq_iff_eq,
    decide_eq_true_eq] at h
  obtain ⟨hden, hsafe⟩ := h
  have hcast : (n.num : Rat) = n := Rat.coe_int_num_of_den_eq_one hden
  rw [pieces, intPieces]
  split
  · rename_i hneg
    have hvalue : -(n.num.natAbs : Rat) = n := by
      rw [Nat.cast_natAbs, abs_of_neg hneg, Int.cast_neg, neg_neg, hcast]
    show (do
      let v ← NormalizeContext.number? (NormalizeContext.digitsOf (Text.ofNat n.num.natAbs)) true
      return (Normalized.clean v, 2)) = _
    rw [digitsOf_ofNat, number?_ofNat hsafe, if_pos rfl, hvalue]
    rfl
  · rename_i hneg
    have hvalue : (n.num.natAbs : Rat) = n := by
      rw [Nat.cast_natAbs, abs_of_nonneg (not_lt.1 hneg), hcast]
    show (NormalizeContext.numberToken? (Text.ofNat n.num.natAbs)).map _ = _
    rw [numberToken?_ofNat hsafe, hvalue]
    rfl

end Value

/-- The tokens of a value are read as that value, and nothing is said about them. The reading is as
deep as the value, which has more tokens than that. -/
theorem readRun_pieces (ctx : NormalizeContext) {v : Value} (h : v.isPrintable = true) (spaced : Bool)
    (pos : Nat) {fuel : Nat} (hfuel : (pieces spaced v).length ≤ fuel) :
    ctx.readRun (fuel + 1) (layout pos (pieces spaced v)) = .clean v := by
  revert spaced pos fuel
  apply Value.printable_ind (h := h)
  case text =>
    exact fun t spaced pos fuel _ => wholeRun_pieces ctx _ pos spaced rfl (primary?_text ctx _ pos spaced t)
  case number =>
    exact fun n hn spaced pos fuel _ => wholeRun_pieces ctx _ pos spaced hn (primary?_number ctx _ pos spaced hn)
  case bool =>
    intro b spaced pos fuel _
    refine wholeRun_pieces ctx _ pos spaced rfl ?_
    cases b <;> rfl
  case nil => exact fun spaced pos fuel _ => wholeRun_pieces ctx _ pos spaced rfl rfl
  case symbol =>
    exact fun name spaced pos fuel _ =>
      wholeRun_pieces ctx _ pos spaced rfl (primary?_symbol ctx _ pos spaced name)
  case path =>
    exact fun scope keys hkeys spaced pos fuel _ => wholeRun_path ctx _ pos spaced scope hkeys
  case interpolation =>
    intro segments hsegments spaced pos fuel hfuel
    -- the paths in a text have no values in them, so one unit is enough for them
    obtain ⟨fuel, rfl⟩ := Nat.exists_eq_add_of_le' hfuel
    exact wholeRun_pieces ctx _ pos spaced hsegments (primary?_interpolation ctx _ pos spaced hsegments
      fun scope keys pos hkeys => wholeRun_path ctx _ pos false scope hkeys)
  case list =>
    intro items hitems ih spaced pos fuel hfuel
    refine wholeRun_pieces ctx _ pos spaced ((arePrintable_iff items).2 hitems)
      (primary?_list ctx _ pos spaced hitems fun v hv spaced' pos' => ?_)
    have hlt := length_item_lt hv spaced spaced'
    obtain ⟨fuel, rfl⟩ : ∃ f, fuel = f + 1 := ⟨fuel - 1, by omega⟩
    exact ih v hv spaced' pos' (by omega)
  case map =>
    intro entries hentries ih spaced pos fuel hfuel
    refine wholeRun_pieces ctx _ pos spaced ((entriesPrintable_iff entries).2 hentries)
      (primary?_map ctx _ pos spaced hentries fun e he spaced' pos' => ?_)
    have hlt := length_entry_lt he spaced spaced'
    obtain ⟨fuel, rfl⟩ : ∃ f, fuel = f + 1 := ⟨fuel - 1, by omega⟩
    exact ih e he spaced' pos' (by omega)

end Written

/-- A printed value is read back, and nothing is said about it, whatever names are in force. -/
theorem normalizeText_print {v : Value} (h : v.isPrintable = true) (source : Text)
    (constants : Bindings Value) : normalizeText v.print source constants = .clean v := by
  have hlex := Written.lex_print h 0
  have hne := Written.layout_ne_nil (Written.pieces_nonempty h false) 0
  have hlines : (layout 0 (Written.pieces false v)).filter (!·.isNewline) =
      layout 0 (Written.pieces false v) :=
    List.filter_eq_self.2 fun t ht => by rw [Written.isNewline_layout t ht]; rfl
  have hread : NormalizeContext.normalize ⟨source, .ofText v.print, constants⟩
      (layout 0 (Written.pieces false v)) = .clean v := by
    unfold NormalizeContext.normalize NormalizeContext.fuel
    rw [if_neg (by simpa using hne), length_layout]
    exact Written.readRun_pieces _ h false 0 (Nat.le_add_left _ _)
  unfold normalizeText
  dsimp only
  rw [hlex]
  dsimp only
  rw [hlines, hread]
  rfl

/-- A hash with a key twice, in it a list of a text around a path, a negative number and a symbol. -/
theorem normalizeText_print_nested :
    let path : Value := .path .node ["a]'", "\x7d"]
    let list : Value :=
      .list [.interpolation [.literal (.text "#\x7b\\"), path], .literal (.number (-7)), .symbol "x y"]
    let v : Value := .map [⟨"it's", list⟩, ⟨"it's", .literal .nil⟩]
    v.print = Text.ofString ("\x7b'it\\'s' => [\x22\\#\x7b\\\\#\x7bnode['a]\\'']['\x7d']\x7d\x22, -7, :'x y'], " ++
      "'it\\'s' => nil\x7d") ∧
      v.isPrintable = true ∧ normalizeText v.print "recipe.rb" .empty = .clean v :=
  ⟨by decide, by decide, normalizeText_print (by decide) _ _⟩

end Cookbook
