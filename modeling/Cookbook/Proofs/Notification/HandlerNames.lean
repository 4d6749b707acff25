import Cookbook.Proofs.Condition.Recognition
import Cookbook.Proofs.Notification.Graph
import Mathlib.Data.List.Pairwise

/-!
Which handlers their names tell apart. A handler is kept by the text of its target and its action, and is
named by the action with a capital and by the type and the name that its target spells, so that two
handlers may have one name.

* `TargetRef.parse?_eq_some_iff` says which texts spell a reference, and `handlerName_eq_iff` what stands
  for a target in a name;
* `handlerName_eq_handlerName_iff` says when two targets and actions have one name: `NamedAlike`;
* `NotificationGraph.ofNodes_namesHandlers` is the result: names tell the handlers apart exactly where no
  two are named alike, which no two are when references and actions are written in the usual way.
-/

namespace Cookbook

/-! ### The reference a text spells -/

namespace Text

/-- White space around a text that neither starts nor ends with any is all that trimming takes off. -/
theorem trim_append {before core after : Text} (hbefore : ∀ c ∈ before, CodeUnit.isSpace c = true)
    (hafter : ∀ c ∈ after, CodeUnit.isSpace c = true)
    (hstart : core.dropWhile CodeUnit.isSpace = core)
    (hend : core.reverse.dropWhile CodeUnit.isSpace = core.reverse) (hcore : core ≠ []) :
    (before ++ core ++ after).trim = core := by
  have htrimStart : (before ++ core ++ after).trimStart = core ++ after := by
    unfold trimStart
    rw [List.append_assoc, List.dropWhile_append_of_pos hbefore, List.dropWhile_append, hstart,
      if_neg (by simpa using hcore)]
  unfold trim trimEnd
  rw [htrimStart, List.reverse_append,
    List.dropWhile_append_of_pos fun c hc => hafter c (List.mem_reverse.1 hc), hend, List.reverse_reverse]

/-- A text is what trimming leaves of it, with white space around. -/
theorem exists_trim_around (t : Text) : ∃ before after, t = before ++ t.trim ++ after ∧
    (∀ c ∈ before, CodeUnit.isSpace c = true) ∧ ∀ c ∈ after, CodeUnit.isSpace c = true := by
  obtain ⟨before, hstart, hbefore⟩ := trimStart_eq t
  obtain ⟨after, hend, hafter⟩ := trimEnd_eq t.trimStart
  refine ⟨before, after, ?_, hbefore, hafter⟩
  unfold trim
  rw [List.append_assoc, ← hend]
  exact hstart

end Text

namespace TargetRef

/-- The type is one that a reference may start with: it starts like a name, and has units of names and
colons only. -/
structure HasType (r : TargetRef) : Prop where
  start : r.type.head?.any CodeUnit.isNameStart = true
  units : ∀ c ∈ r.type, isTypeUnit c = true

/-- The reference as it is written: the type, and the name in brackets. -/
def text (r : TargetRef) : Text := r.type ++ ('[' : CodeUnit) :: (r.name ++ [(']' : CodeUnit)])

/-- The text spells the reference: it has the reference as it is written, and white space around it. -/
def SpelledBy (r : TargetRef) (t : Text) : Prop :=
  r.HasType ∧ ∃ before after, t = before ++ r.text ++ after ∧
    (∀ c ∈ before, CodeUnit.isSpace c = true) ∧ ∀ c ∈ after, CodeUnit.isSpace c = true

variable {r : TargetRef}

theorem HasType.exists_cons (h : r.HasType) : ∃ c rest, r.type = c :: rest ∧ c.isNameStart = true := by
  have hstart := h.start
  cases htype : r.type with
  | nil => simp [htype] at hstart
  | cons c rest => exact ⟨c, rest, rfl, by simpa [htype] using hstart⟩

theorem not_isSpace_of_isNameStart {c : CodeUnit} (h : c.isNameStart = true) : c.isSpace = false := by
  have hbound : c.toNat < 128 := by
    simp only [CodeUnit.isNameStart, CodeUnit.isLetter, CodeUnit.isUpper, CodeUnit.isLower, Bool.or_eq_true,
      Bool.and_eq_true, decide_eq_true_eq, beq_iff_eq, UInt16.le_iff_toNat_le] at h
    rcases h with (⟨-, h⟩ | ⟨-, h⟩) | rfl
    · exact Nat.lt_of_le_of_lt h (by decide)
    · exact Nat.lt_of_le_of_lt h (by decide)
    · decide
  have hsmall : ∀ n < 128, CodeUnit.isNameStart (UInt16.ofNat n) = true →
      CodeUnit.isSpace (UInt16.ofNat n) = false := by
    decide
  have hc := hsmall _ hbound
  rw [UInt16.ofNat_toNat] at hc
  exact hc h

theorem trim_of_spelledBy {t : Text} (h : r.SpelledBy t) : t.trim = r.text := by
  obtain ⟨htype, before, after, rfl, hbefore, hafter⟩ := h
  obtain ⟨c, rest, hcons, hc⟩ := htype.exists_cons
  refine Text.trim_append hbefore hafter ?_ ?_ ?_
  · unfold text
    rw [hcons, List.cons_append, List.dropWhile_cons_of_neg (by simp [not_isSpace_of_isNameStart hc])]
  · have hreverse : r.text.reverse = (']' : CodeUnit) :: (r.type ++ ('[' : CodeUnit) :: r.name).reverse := by
      simp [text]
    rw [hreverse, List.dropWhile_cons_of_neg (by decide)]
  · simp [text]

theorem takeWhile_text (h : r.HasType) : r.text.takeWhile isTypeUnit = r.type := by
  unfold text
  rw [List.takeWhile_append_of_pos h.units, List.takeWhile_cons_of_neg (by decide), List.append_nil]

/-- A text reads as the reference that it spells, and as none when it spells none. -/
theorem parse?_eq_some_iff {t : Text} : parse? t = some r ↔ r.SpelledBy t := by
  constructor
  · intro h
    obtain ⟨before, after, ht, hbefore, hafter⟩ := t.exists_trim_around
    unfold parse? at h
    dsimp only at h
    split at h
    · exact absurd h (by simp)
    rename_i hstart
    split at h
    · rename_i c rest hdrop
      obtain ⟨⟨rfl, hlast⟩, hr⟩ := Option.ite_none_right_eq_some.1 h
      obtain rfl := Option.some.inj hr
      refine ⟨⟨by simpa using hstart, fun c hc => List.mem_takeWhile_imp hc⟩, before, after, ?_, hbefore, hafter⟩
      have hrest : rest.dropLast ++ [(']' : CodeUnit)] = rest := List.dropLast_append_getLast? _ hlast
      have htrim : t.trim = t.trim.takeWhile isTypeUnit ++ ('[' : CodeUnit) :: rest := by
        rw [← hdrop, drop_takeWhile, List.takeWhile_append_dropWhile]
      unfold text
      rw [hrest, ← htrim]
      exact ht
    · exact absurd h (by simp)
  · intro h
    have htrim := trim_of_spelledBy h
    have htake := takeWhile_text h.1
    unfold parse?
    dsimp only
    rw [htrim, htake, if_neg (by simp [h.1.start])]
    unfold text
    rw [List.drop_left]
    simp

end TargetRef

/-! ### Names of handlers -/

/-- What stands for a target in the name of a handler: the type and the name of a reference that the text
spells, with a blank between, and the text itself when it spells none. -/
inductive NamedAs (t : Text) : Text → Prop where
  | reference (r : TargetRef) (h : r.SpelledBy t) : NamedAs t (r.type ++ " " ++ r.name)
  | other (h : ∀ r : TargetRef, ¬ r.SpelledBy t) : NamedAs t t

theorem handlerName_eq_iff {action t name : Text} :
    handlerName action t = name ↔ ∃ w, NamedAs t w ∧ name = action.capitalize ++ " " ++ w := by
  unfold handlerName
  constructor
  · rintro rfl
    cases hparse : TargetRef.parse? t with
    | none =>
      refine ⟨t, .other fun r hr => ?_, rfl⟩
      rw [TargetRef.parse?_eq_some_iff.2 hr] at hparse
      exact absurd hparse (by simp)
    | some r =>
      exact ⟨_, .reference r (TargetRef.parse?_eq_some_iff.1 hparse), by simp only [List.append_assoc]⟩
  · rintro ⟨w, hw, rfl⟩
    cases hw with
    | reference r h =>
      rw [TargetRef.parse?_eq_some_iff.2 h]
      simp only [List.append_assoc]
    | other h =>
      rw [Option.eq_none_iff_forall_ne_some.2 fun r hr => h r (TargetRef.parse?_eq_some_iff.1 hr)]

/-- Two texts with a blank between their parts are one text when the parts are the same, or when one of the
first parts goes on, after the other, with a blank and what the second part of the other starts with. -/
theorem append_blank_eq_iff {a b w v : Text} :
    a ++ " " ++ w = b ++ " " ++ v ↔
      (a = b ∧ w = v) ∨ (∃ more : Text, a = b ++ " " ++ more ∧ v = more ++ " " ++ w) ∨
        ∃ more : Text, b = a ++ " " ++ more ∧ w = more ++ " " ++ v := by
  have hblank : Text.ofString " " = [(' ' : CodeUnit)] := rfl
  simp only [hblank, List.append_assoc, List.singleton_append]
  rw [List.append_eq_append_iff]
  constructor
  · rintro (⟨as, rfl, htail⟩ | ⟨bs, rfl, htail⟩)
    · cases as with
      | nil => exact .inl ⟨(List.append_nil _).symm, (List.cons.inj htail).2⟩
      | cons c more =>
        obtain ⟨rfl, rfl⟩ := List.cons.inj htail
        exact .inr (.inr ⟨more, rfl, rfl⟩)
    · cases bs with
      | nil => exact .inl ⟨List.append_nil _, (List.cons.inj htail).2.symm⟩
      | cons c more =>
        obtain ⟨rfl, rfl⟩ := List.cons.inj htail
        exact .inr (.inl ⟨more, rfl, rfl⟩)
  · rintro (⟨rfl, rfl⟩ | ⟨more, rfl, rfl⟩ | ⟨more, rfl, rfl⟩)
    · exact .inl ⟨[], (List.append_nil _).symm, rfl⟩
    · exact .inr ⟨' ' :: more, rfl, rfl⟩
    · exact .inl ⟨' ' :: more, rfl, rfl⟩

/-- The targets and actions `p` and `q` have one name. The actions are the same but for the capital and the
targets are named the same, or the name of one action goes on where that of the other ends. -/
def NamedAlike (p q : Text × Text) : Prop :=
  ∃ w v, NamedAs p.1 w ∧ NamedAs q.1 v ∧
    ((p.2.capitalize = q.2.capitalize ∧ w = v) ∨
      (∃ more : Text, p.2.capitalize = q.2.capitalize ++ " " ++ more ∧ v = more ++ " " ++ w) ∨
      ∃ more : Text, q.2.capitalize = p.2.capitalize ++ " " ++ more ∧ w = more ++ " " ++ v)

theorem handlerName_eq_handlerName_iff {p q : Text × Text} :
    handlerName p.2 p.1 = handlerName q.2 q.1 ↔ NamedAlike p q := by
  rw [handlerName_eq_iff]
  constructor
  · rintro ⟨w, hw, hname⟩
    obtain ⟨v, hv, hname'⟩ := handlerName_eq_iff.1 (Eq.refl (handlerName q.2 q.1))
    exact ⟨w, v, hw, hv, append_blank_eq_iff.1 (hname.symm.trans hname')⟩
  · rintro ⟨w, v, hw, hv, hparts⟩
    refine ⟨w, hw, ?_⟩
    rw [append_blank_eq_iff.2 hparts]
    exact handlerName_eq_iff.2 ⟨v, hv, rfl⟩

theorem NamedAlike.symm {p q : Text × Text} (h : NamedAlike p q) : NamedAlike q p :=
  handlerName_eq_handlerName_iff.1 (handlerName_eq_handlerName_iff.2 h).symm

/-! ### Targets and actions written in the usual way -/

/-- The action starts with a lower-case letter and has no blank. -/
def IsPlainAction (action : Text) : Prop :=
  ∃ c rest, action = c :: rest ∧ CodeUnit.isLower c = true ∧ (' ' : CodeUnit) ∉ rest

/-- The text is a reference as it is written, with nothing around it. -/
def IsPlainTarget (t : Text) : Prop := ∃ r : TargetRef, r.HasType ∧ t = r.text

/-- The node has a plain reference, and so have the targets of its notifications, with plain actions. -/
def GraphNode.IsPlain (node : GraphNode) : Prop :=
  IsPlainTarget node.ref ∧ ∀ n ∈ node.notifications, IsPlainTarget n.targetRef ∧ IsPlainAction n.action

/-- The capital of a lower-case letter is one unit, and no blank. -/
theorem Text.upperUnit_of_isLower {c : CodeUnit} (h : c.isLower = true) :
    Text.upperUnit c = [c - 32] ∧ c - 32 ≠ ' ' := by
  have hbound : c.toNat < 128 := by
    simp only [CodeUnit.isLower, Bool.and_eq_true, decide_eq_true_eq, UInt16.le_iff_toNat_le] at h
    exact Nat.lt_of_le_of_lt h.2 (by decide)
  have hsmall : ∀ n < 128, CodeUnit.isLower (UInt16.ofNat n) = true →
      Text.upperUnit (UInt16.ofNat n) = [UInt16.ofNat n - 32] ∧ UInt16.ofNat n - 32 ≠ CodeUnit.ofChar ' ' := by
    decide +kernel
  have hc := hsmall _ hbound
  rw [UInt16.ofNat_toNat] at hc
  exact hc h

theorem Text.capitalize_of_isLower {c : CodeUnit} {rest : Text} (h : c.isLower = true) :
    Text.capitalize (c :: rest) = (c - 32) :: rest := by
  show Text.upperUnit c ++ rest = _
  rw [(Text.upperUnit_of_isLower h).1, List.singleton_append]

theorem IsPlainAction.eq_of_capitalize_eq {a b : Text} (ha : IsPlainAction a) (hb : IsPlainAction b)
    (h : a.capitalize = b.capitalize) : a = b := by
  obtain ⟨c, rest, rfl, hc, -⟩ := ha
  obtain ⟨d, more, rfl, hd, -⟩ := hb
  rw [Text.capitalize_of_isLower hc, Text.capitalize_of_isLower hd] at h
  obtain ⟨hunit, rfl⟩ := List.cons.inj h
  rw [(UInt16.sub_left_inj 32).1 hunit]

theorem IsPlainAction.blank_notMem_capitalize {a : Text} (ha : IsPlainAction a) :
    (' ' : CodeUnit) ∉ a.capitalize := by
  obtain ⟨c, rest, rfl, hc, hrest⟩ := ha
  rw [Text.capitalize_of_isLower hc, List.mem_cons, not_or]
  exact ⟨(Text.upperUnit_of_isLower hc).2.symm, hrest⟩

theorem TargetRef.HasType.blank_notMem {r : TargetRef} (h : r.HasType) : (' ' : CodeUnit) ∉ r.type :=
  fun hmem => absurd (h.units _ hmem) (by decide)

theorem TargetRef.HasType.spelledBy {r : TargetRef} (h : r.HasType) : r.SpelledBy r.text :=
  ⟨h, [], [], by simp, by simp, by simp⟩

theorem namedAs_text_iff {r : TargetRef} {w : Text} (h : r.HasType) :
    NamedAs r.text w ↔ w = r.type ++ " " ++ r.name := by
  constructor
  · rintro (⟨r', hr'⟩ | hnone)
    · have hsame := (TargetRef.parse?_eq_some_iff.2 hr').symm.trans (TargetRef.parse?_eq_some_iff.2 h.spelledBy)
      rw [Option.some.inj hsame]
    · exact absurd h.spelledBy (hnone r)
  · rintro rfl
    exact .reference r h.spelledBy

theorem mem_append_blank (a more : Text) : (' ' : CodeUnit) ∈ a ++ " " ++ more := by
  have hblank : Text.ofString " " = [(' ' : CodeUnit)] := rfl
  simp [hblank]

/-- Plain targets that are named the same are the same. -/
theorem IsPlainTarget.eq_of_namedAs {t u w : Text} (ht : IsPlainTarget t) (hu : IsPlainTarget u)
    (htw : NamedAs t w) (huw : NamedAs u w) : t = u := by
  obtain ⟨r, hr, rfl⟩ := ht
  obtain ⟨r', hr', rfl⟩ := hu
  have hname := ((namedAs_text_iff hr).1 htw).symm.trans ((namedAs_text_iff hr').1 huw)
  -- no type has a blank, so the two names are cut at one place
  rcases append_blank_eq_iff.1 hname with ⟨htype, hname⟩ | ⟨more, htype, -⟩ | ⟨more, htype, -⟩
  · unfold TargetRef.text
    rw [htype, hname]
  · exact absurd (htype ▸ mem_append_blank _ more) hr.blank_notMem
  · exact absurd (htype ▸ mem_append_blank _ more) hr'.blank_notMem

/-- Plain targets and actions are not named alike, unless they are the same. -/
theorem NamedAlike.eq_of_isPlain {p q : Text × Text} (h : NamedAlike p q) (hp : IsPlainTarget p.1)
    (hq : IsPlainTarget q.1) (hpa : IsPlainAction p.2) (hqa : IsPlainAction q.2) : p = q := by
  obtain ⟨w, v, hw, hv, ⟨haction, rfl⟩ | ⟨more, haction, -⟩ | ⟨more, haction, -⟩⟩ := h
  · exact Prod.ext (hp.eq_of_namedAs hq hw hv) (hpa.eq_of_capitalize_eq hqa haction)
  · exact absurd (haction ▸ mem_append_blank _ more) hpa.blank_notMem_capitalize
  · exact absurd (haction ▸ mem_append_blank _ more) hqa.blank_notMem_capitalize

/-! ### What names tell apart -/

namespace NotificationGraph

/-- The names of the handlers of a graph, and what they stand for. They are distinct exactly when no two
handlers are named alike, and what a node is told stands for one target and action exactly when no other
handler is named like the one that is meant. Where keys tell targets and actions apart, the names are distinct
exactly when no two delayed notifications of different targets or actions are named alike; and of plain nodes
no two are. -/
structure NamesHandlers (nodes : List GraphNode) (g : NotificationGraph) : Prop where
  distinct_iff : (g.handlers.map (·.name)).Nodup ↔
    g.handlers.Pairwise fun h h' => ¬ NamedAlike h.pair h'.pair
  told : ∀ j, ∀ name ∈ g.notifyRefs.getD j [], ∃ h ∈ g.handlers, h.name = name ∧
    ((∃! pair, ∃ h' ∈ g.handlers, h'.name = name ∧ h'.pair = pair) ↔
      ∀ h' ∈ g.handlers, NamedAlike h.pair h'.pair → h'.pair = h.pair)
  delayed : (∀ node ∈ nodes, node.NulFree) → ((g.handlers.map (·.name)).Nodup ↔
    ∀ e ∈ delayedOf nodes, ∀ e' ∈ delayedOf nodes, NamedAlike e.pair e'.pair → e.pair = e'.pair)
  plain : (∀ node ∈ nodes, node.IsPlain) → (g.handlers.map (·.name)).Nodup

variable {source : Text} {nodes : List GraphNode}

theorem name_of_mem {h : HandlerSpec} (hmem : h ∈ (ofNodes source nodes).handlers) :
    h.name = handlerName h.pair.2 h.pair.1 := by
  obtain ⟨e, -, hsome⟩ := mem_handlers_iff.1 hmem
  obtain ⟨-, -, -, -, -, hname, -⟩ := handler?_eq_some hsome
  exact hname

theorem name_eq_name_iff {h h' : HandlerSpec} (hmem : h ∈ (ofNodes source nodes).handlers)
    (hmem' : h' ∈ (ofNodes source nodes).handlers) : h.name = h'.name ↔ NamedAlike h.pair h'.pair := by
  rw [name_of_mem hmem, name_of_mem hmem']
  exact handlerName_eq_handlerName_iff

theorem nodup_names_iff : ((ofNodes source nodes).handlers.map (·.name)).Nodup ↔
    (ofNodes source nodes).handlers.Pairwise fun h h' => ¬ NamedAlike h.pair h'.pair := by
  unfold List.Nodup
  rw [List.pairwise_map]
  exact List.Pairwise.iff_of_mem fun hmem hmem' => not_congr (name_eq_name_iff hmem hmem')

theorem existsUnique_pair_iff {h : HandlerSpec} (hmem : h ∈ (ofNodes source nodes).handlers) :
    (∃! pair, ∃ h' ∈ (ofNodes source nodes).handlers, h'.name = h.name ∧ h'.pair = pair) ↔
      ∀ h' ∈ (ofNodes source nodes).handlers, NamedAlike h.pair h'.pair → h'.pair = h.pair := by
  constructor
  · intro hunique h' hmem' halike
    exact hunique.unique ⟨h', hmem', ((name_eq_name_iff hmem hmem').2 halike).symm, rfl⟩ ⟨h, hmem, rfl, rfl⟩
  · intro hall
    refine ⟨h.pair, ⟨h, hmem, rfl, rfl⟩, ?_⟩
    rintro _ ⟨h', hmem', hname, rfl⟩
    exact hall h' hmem' ((name_eq_name_iff hmem hmem').1 hname.symm)

/-- Where keys tell targets and actions apart, distinct names are a matter of the delayed edges. -/
theorem nodup_names_iff_delayed (hnodes : ∀ node ∈ nodes, node.NulFree) :
    ((ofNodes source nodes).handlers.map (·.name)).Nodup ↔
      ∀ e ∈ delayedOf nodes, ∀ e' ∈ delayedOf nodes, NamedAlike e.pair e'.pair → e.pair = e'.pair := by
  have hpairs : (ofNodes source nodes).handlers.Pairwise (fun h h' => ¬ NamedAlike h.pair h'.pair) ↔
      (((delayedOf nodes).map Edge.pair).eraseDups).Pairwise fun p q => ¬ NamedAlike p q := by
    have hkeys : (ofNodes source nodes).handlers.map HandlerSpec.pair =
        ((delayedOf nodes).map Edge.pair).eraseDups := pairs_handlers hnodes
    rw [← hkeys, List.pairwise_map]
  rw [nodup_names_iff, hpairs]
  constructor
  · intro hpairwise e he e' he' halike
    by_contra hne
    have : Std.Symm fun p q => ¬ NamedAlike p q := ⟨fun _ _ h => h ∘ NamedAlike.symm⟩
    exact hpairwise.forall (List.mem_eraseDups.2 (List.mem_map_of_mem he))
      (List.mem_eraseDups.2 (List.mem_map_of_mem he')) hne halike
  · intro hall
    refine (nodup_eraseDups _).imp_of_mem fun {p q} hp hq hne halike => hne ?_
    obtain ⟨e, he, rfl⟩ := List.mem_map.1 (List.mem_eraseDups.1 hp)
    obtain ⟨e', he', rfl⟩ := List.mem_map.1 (List.mem_eraseDups.1 hq)
    exact hall e he e' he' halike

/-- The handlers have the keys of the delayed edges, each once. -/
theorem keys_handlers : (ofNodes source nodes).handlers.map HandlerSpec.key =
    ((delayedOf nodes).map (·.handlerKey)).eraseDups := by
  show (List.filterMap _ ((delayedOf nodes).map Edge.handlerKey).eraseDups).map _ = _
  rw [List.map_filterMap]
  refine (List.filterMap_congr fun key hkey => ?_).trans List.filterMap_some
  obtain ⟨e, he, rfl⟩ := List.mem_map.1 (List.mem_eraseDups.1 hkey)
  obtain ⟨h, hsome⟩ := exists_handler? nodes he
  show (handler? nodes (delayedOf nodes) e.handlerKey).map HandlerSpec.key = _
  rw [hsome, Option.map_some, key_of_handler? hsome]

section Plain

variable (hnodes : ∀ node ∈ nodes, node.IsPlain)

include hnodes

theorem plain_handler {h : HandlerSpec} (hmem : h ∈ (ofNodes source nodes).handlers) :
    IsPlainTarget h.pair.1 ∧ IsPlainAction h.pair.2 := by
  obtain ⟨e, -, hsome⟩ := mem_handlers_iff.1 hmem
  obtain ⟨first, hfirst, -, htarget, haction, -⟩ := handler?_eq_some hsome
  have hplain := edge_satisfies hnodes (mem_delayedOf.1 hfirst).1
  rwa [← htarget, ← haction] at hplain

theorem nodup_names_of_isPlain : ((ofNodes source nodes).handlers.map (·.name)).Nodup := by
  have hkeys : (ofNodes source nodes).handlers.Pairwise fun h h' => h.key ≠ h'.key := by
    rw [← List.pairwise_map, keys_handlers]
    exact nodup_eraseDups _
  rw [nodup_names_iff]
  refine hkeys.imp_of_mem fun {h h'} hmem hmem' hne halike => hne ?_
  obtain ⟨htarget, haction⟩ := plain_handler hnodes hmem
  obtain ⟨htarget', haction'⟩ := plain_handler hnodes hmem'
  obtain ⟨ht, ha⟩ := Prod.mk.inj (halike.eq_of_isPlain htarget htarget' haction haction')
  unfold HandlerSpec.key
  rw [ht, ha]

end Plain

/-- Names tell the handlers of a graph apart exactly where no two of them are named alike. -/
theorem ofNodes_namesHandlers (source : Text) (nodes : List GraphNode) :
    (ofNodes source nodes).NamesHandlers nodes where
  distinct_iff := nodup_names_iff
  told := by
    intro j name hname
    obtain ⟨e, -, -, h, hmem, -, rfl⟩ := mem_notifyRefs_iff.1 hname
    exact ⟨h, hmem, rfl, existsUnique_pair_iff hmem⟩
  delayed := nodup_names_iff_delayed
  plain := nodup_names_of_isPlain

/-- A template restarts one service twice, with a blank behind the reference the second time: the two handlers
have one name, which is all that the template is told. Without the blank, and with two actions, all is plain. -/
theorem blank_behind_reference_named_alike :
    let node (ref action : Text) : GraphNode :=
      ⟨"template[a]", [⟨"restart", "service[b]", .delayed, .notifies, .origin⟩,
        ⟨action, ref, .delayed, .notifies, .origin⟩]⟩
    let odd := node "service[b] " "restart"
    let plain := node "service[b]" "reload"
    (ofNodes "default.rb" [odd]).notifyRefs = [[Text.ofString "Restart service b"]] ∧
      NamedAlike ("service[b]", "restart") ("service[b] ", "restart") ∧
      ¬ ((ofNodes "default.rb" [odd]).handlers.map (·.name)).Nodup ∧
      plain.IsPlain ∧ ((ofNodes "default.rb" [plain]).handlers.map (·.name)).Nodup := by
  intro node odd plain
  have halike : NamedAlike ("service[b]", "restart") ("service[b] ", "restart") :=
    handlerName_eq_handlerName_iff.1 (by decide +kernel)
  have hodd : ∀ node ∈ [odd], node.NulFree := by decide +kernel
  have hpairs : (delayedOf [odd]).map Edge.pair =
      [(Text.ofString "service[b]", Text.ofString "restart"),
        (Text.ofString "service[b] ", Text.ofString "restart")] := by
    decide +kernel
  have hplain : plain.IsPlain := by
    have htarget : ∀ r : TargetRef, r.HasType → IsPlainTarget r.text := fun r hr => ⟨r, hr, rfl⟩
    have haction : IsPlainAction "restart" ∧ IsPlainAction "reload" :=
      ⟨⟨'r', "estart", rfl, by decide, by decide⟩, ⟨'r', "eload", rfl, by decide, by decide⟩⟩
    refine ⟨htarget ⟨"template", "a"⟩ ⟨by decide, List.all_eq_true.1 (by decide)⟩, ?_⟩
    rintro n (_ | ⟨_, _ | ⟨_, ⟨⟩⟩⟩)
    · exact ⟨htarget ⟨"service", "b"⟩ ⟨by decide, List.all_eq_true.1 (by decide)⟩, haction.1⟩
    · exact ⟨htarget ⟨"service", "b"⟩ ⟨by decide, List.all_eq_true.1 (by decide)⟩, haction.2⟩
  refine ⟨by decide +kernel, halike, fun hnodup => ?_, hplain, ?_⟩
  · obtain ⟨e, he, hpair⟩ := List.mem_map.1 (hpairs ▸ List.mem_cons_self)
    obtain ⟨e', he', hpair'⟩ := List.mem_map.1 (hpairs ▸ List.mem_cons_of_mem _ (List.mem_singleton_self _))
    have hsame := ((ofNodes_namesHandlers "default.rb" [odd]).delayed hodd).1 hnodup e he e' he'
    rw [hpair, hpair'] at hsame
    exact absurd (hsame halike) (by decide)
  · exact (ofNodes_namesHandlers "default.rb" [plain]).plain (by simpa using hplain)

end NotificationGraph

end Cookbook
