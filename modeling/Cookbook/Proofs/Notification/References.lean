import Cookbook.Conversion.Recipe
import Cookbook.Proofs.Notification.HandlerNames

/-!
References to resources are read back. A reference is written as a type and, in brackets, the name as a
template, which may be any text; the first bracket ends the type and the last one the name, so brackets,
blanks and line ends in the name do no harm.

* `Text.IsTypeName` says which types there are;
* `TargetRef.trim_of_parse?` says which text a reference was read from, and `TargetRef.ref_declaration`
  that the declaration made for it refers to itself by that text;
* `resourceRef_reads_back` is the result.
-/

namespace Cookbook

/-- The name of a type: a letter or an underscore, then letters, digits, underscores and colons. -/
def Text.IsTypeName (type : Text) : Prop :=
  ∃ c rest, type = c :: rest ∧ CodeUnit.isNameStart c = true ∧
    ∀ u : CodeUnit, u ∈ rest → u.isNameUnit = true ∨ u = ':'

namespace TargetRef

theorem hasType_iff {r : TargetRef} : r.HasType ↔ r.type.IsTypeName := by
  constructor
  · intro h
    obtain ⟨c, rest, htype, hc⟩ := h.exists_cons
    refine ⟨c, rest, htype, hc, fun u hu => ?_⟩
    simpa [isTypeUnit] using h.units u (htype ▸ List.mem_cons_of_mem c hu)
  · rintro ⟨c, rest, htype, hc, hrest⟩
    refine ⟨by rw [htype]; exact hc, fun u hu => ?_⟩
    rw [htype] at hu
    rcases List.mem_cons.1 hu with rfl | hu
    · simp [isTypeUnit, CodeUnit.isNameUnit, hc]
    · simpa [isTypeUnit] using hrest u hu

theorem text_eq (r : TargetRef) : r.text = r.type ++ "[" ++ r.name ++ "]" := by
  have hopen : Text.ofString "[" = [('[' : CodeUnit)] := rfl
  have hclose : Text.ofString "]" = [(']' : CodeUnit)] := rfl
  rw [text, hopen, hclose]
  simp

/-- The reference to a resource is the one with its type and with its name as a template. -/
theorem text_mk (type : Text) (v : Value) : text ⟨type, v.render⟩ = resourceRef type v := text_eq _

/-- A text that reads as a reference is the reference as it is written, with white space around it. -/
theorem trim_of_parse? {t : Text} {r : TargetRef} (h : parse? t = some r) : t.trim = r.text :=
  trim_of_spelledBy (parse?_eq_some_iff.1 h)

/-- The declaration that a reference stands for has the reference as its own. -/
theorem ref_declaration (r : TargetRef) (action : Text) (span : Span) (source : Text) :
    (r.declaration action span source).ref = r.text := by
  have hname : (Value.ofText r.name).render = r.name := rfl
  rw [text_eq]
  unfold Declaration.ref declaration resourceRef
  rw [hname]

end TargetRef

/-- A reference to a resource reads as its type and its name as a template, whatever that is. A text that
reads as a reference is, white space around it apart, the type and in brackets the name; and the declaration
it stands for has this text as its own reference. -/
theorem resourceRef_reads_back :
    (∀ (type : Text) (v : Value), type.IsTypeName →
      TargetRef.parse? (resourceRef type v) = some ⟨type, v.render⟩) ∧
    ∀ (t : Text) (r : TargetRef), TargetRef.parse? t = some r →
      r.type.IsTypeName ∧ t.trim = r.type ++ "[" ++ r.name ++ "]" ∧
        ∀ action span source, (r.declaration action span source).ref = t.trim := by
  constructor
  · intro type v htype
    have hr : TargetRef.HasType ⟨type, v.render⟩ := TargetRef.hasType_iff.2 htype
    rw [← TargetRef.text_mk]
    exact TargetRef.parse?_eq_some_iff.2 hr.spelledBy
  · intro t r h
    have htrim := TargetRef.trim_of_parse? h
    refine ⟨TargetRef.hasType_iff.1 (TargetRef.parse?_eq_some_iff.1 h).1, ?_, fun action span source => ?_⟩
    · rw [htrim, TargetRef.text_eq]
    · rw [htrim, TargetRef.ref_declaration]

/-- A name with brackets, a line end and blanks at its end, and a reference between blanks. -/
theorem resourceRef_reads_back_brackets :
    (Text.IsTypeName "my::web" ∧ TargetRef.parse? (resourceRef "my::web" (.ofText "]\n[a] ")) =
        some ⟨"my::web", "]\n[a] "⟩) ∧
      TargetRef.parse? "\t file[a ]] \n" = some ⟨"file", "a ]"⟩ ∧
        Text.trim "\t file[a ]] \n" = Text.ofString "file" ++ "[" ++ "a ]" ++ "]" := by
  have hr : TargetRef.HasType ⟨"my::web", "]\n[a] "⟩ := ⟨by decide, List.all_eq_true.1 (by decide)⟩
  have htype : Text.IsTypeName "my::web" := TargetRef.hasType_iff.1 hr
  have hread : TargetRef.parse? "\t file[a ]] \n" = some ⟨"file", "a ]"⟩ := by decide
  exact ⟨⟨htype, resourceRef_reads_back.1 _ _ htype⟩, hread, (resourceRef_reads_back.2 _ _ hread).2.1⟩

end Cookbook
