import Cookbook.Proofs.Task.Assignment

/-!
# The keywords of tasks

Some properties become keywords of the task, some of every type and some of one type alone. The tables
of these are records, so a property named like a member of all records becomes a keyword as well, under
the text of the member.

* `TaskKeyword` are the keywords that are meant, `MemberKeyword` those that come of members, and
  `keywordFor?_eq_some_iff` says that there are no others;
* `keywordFor?_eq_no_log` and `keyword_ne_become` are about the keywords that more than one rule sets;
* `get?_keywordsOf` says which values the keywords have.
-/

namespace Cookbook

def commandTypes : List Text := ["execute", "bash", "script"]

/-- The keyword that a property of a type is meant to become. -/
inductive TaskKeyword (type : Text) : (property keyword : Text) → Prop
  | ignoreErrors : TaskKeyword type "ignore_failure" "ignore_errors"
  | noLog : TaskKeyword type "sensitive" "no_log"
  | retries : TaskKeyword type "retries" "retries"
  | delay : TaskKeyword type "retry_delay" "delay"
  | environment (h : type ∈ commandTypes) : TaskKeyword type "environment" "environment"
  | becomeUser (h : type ∈ commandTypes) : TaskKeyword type "user" "become_user"
  | vars (h : type = ("template" : Text)) : TaskKeyword type "variables" "vars"

/-- The keyword that a property becomes because it names a member. -/
inductive MemberKeyword (type : Text) : (property keyword : Text) → Prop
  /-- The type names a member, and the property something that the member has itself. -/
  | own {t : Inherited} {property keyword : Text} (htype : t.name = type)
    (h : (property, keyword) ∈ t.ownTexts) : MemberKeyword type property keyword
  /-- The property names what every record has. -/
  | shared (m : Inherited) (h : ∀ t : Inherited, t.name = type → m.name ∉ t.ownTexts.map (·.1)) :
    MemberKeyword type m.name m.text

namespace Mapping

/-! ### Which properties are keywords -/

theorem typeKeywords_name (t : Inherited) : typeKeywords t.name = t.ownTexts := by
  have hcommand : ¬ (t.name = ("execute" : Text) ∨ t.name = ("bash" : Text) ∨
      t.name = ("script" : Text)) := by
    cases t <;> decide
  have htemplate : t.name ≠ ("template" : Text) := by cases t <;> decide
  rw [typeKeywords, if_neg hcommand, if_neg htemplate, Inherited.ofName?_name]

theorem typeKeywords_cases (type : Text) :
    (type ∈ commandTypes ∧ typeKeywords type = typeKeywords "bash") ∨
      type = ("template" : Text) ∨ (∃ t : Inherited, t.name = type) ∨ typeKeywords type = [] := by
  by_cases hcommand : type = ("execute" : Text) ∨ type = ("bash" : Text) ∨ type = ("script" : Text)
  · exact .inl ⟨by simpa [commandTypes] using hcommand, by rw [typeKeywords, if_pos hcommand]; rfl⟩
  · by_cases htemplate : type = ("template" : Text)
    · exact .inr (.inl htemplate)
    · refine .inr (.inr ?_)
      rw [typeKeywords, if_neg hcommand, if_neg htemplate]
      cases hmember : Inherited.ofName? type with
      | some t => exact .inl ⟨t, Inherited.ofName?_eq_some_iff.1 hmember⟩
      | none => exact .inr rfl

/-- The keywords of one type and those of all types come of different properties. -/
theorem lookup?_typeKeywords_of_common {property : Text} (h : property ∈ commonKeywords.map (·.1))
    (type : Text) : lookup? property (typeKeywords type) = none := by
  have hdisjoint : ∀ p ∈ commonKeywords.map (·.1), p ∉ (typeKeywords "bash").map (·.1) ∧
      p ∉ (typeKeywords "template").map (·.1) ∧
      ∀ t ∈ Inherited.all, p ∉ t.ownTexts.map (·.1) := by decide +kernel
  obtain ⟨hbash, htemplate, hmembers⟩ := hdisjoint property h
  rw [lookup?_eq_none_iff]
  rcases typeKeywords_cases type with ⟨-, heq⟩ | rfl | ⟨t, rfl⟩ | heq
  · rwa [heq]
  · exact htemplate
  · rw [typeKeywords_name]
    exact hmembers t t.mem_all
  · simp [heq]

/-- No name of a member is the name of a property that is meant to become a keyword. -/
theorem lookup?_name (m : Inherited) :
    lookup? m.name (typeKeywords "bash") = none ∧ lookup? m.name (typeKeywords "template") = none ∧
      lookup? m.name commonKeywords = none := by
  cases m <;> decide +kernel

theorem taskKeyword_of_mem_typeKeywords {type property keyword : Text}
    (h : (property, keyword) ∈ typeKeywords type) :
    TaskKeyword type property keyword ∨ MemberKeyword type property keyword := by
  rcases typeKeywords_cases type with ⟨hcommand, heq⟩ | rfl | ⟨t, rfl⟩ | heq
  · rw [heq] at h
    rcases List.mem_cons.1 h with hfirst | hrest
    · cases hfirst
      exact .inl (.environment hcommand)
    · cases List.mem_singleton.1 hrest
      exact .inl (.becomeUser hcommand)
  · cases List.mem_singleton.1 h
    exact .inl (.vars rfl)
  · rw [typeKeywords_name] at h
    exact .inr (.own rfl h)
  · simp [heq] at h

theorem taskKeyword_of_mem_commonKeywords {type property keyword : Text}
    (h : (property, keyword) ∈ commonKeywords) : TaskKeyword type property keyword := by
  simp only [commonKeywords, List.mem_cons, Prod.mk.injEq, List.not_mem_nil, or_false] at h
  rcases h with ⟨rfl, rfl⟩ | ⟨rfl, rfl⟩ | ⟨rfl, rfl⟩ | ⟨rfl, rfl⟩
  · exact .ignoreErrors
  · exact .noLog
  · exact .retries
  · exact .delay

theorem keywordFor?_of_taskKeyword {type property keyword : Text} (h : TaskKeyword type property keyword) :
    keywordFor? type property = some keyword := by
  -- the keywords of all types are found after those of the type, which have other properties
  have hcommon : ∀ {p k : Text}, lookup? p commonKeywords = some k → keywordFor? type p = some k := by
    intro p k hk
    rw [keywordFor?, lookup?_typeKeywords_of_common (List.mem_map_of_mem (mem_of_lookup? hk)), hk]
    rfl
  have hcommand : ∀ {p k : Text}, type ∈ commandTypes → lookup? p (typeKeywords "bash") = some k →
      keywordFor? type p = some k := by
    intro p k htype hk
    have heq : typeKeywords type = typeKeywords "bash" := by
      rw [typeKeywords, if_pos (by simpa [commandTypes] using htype)]
      rfl
    rw [keywordFor?, heq, hk]
    rfl
  cases h with
  | ignoreErrors => exact hcommon (by decide)
  | noLog => exact hcommon (by decide)
  | retries => exact hcommon (by decide)
  | delay => exact hcommon (by decide)
  | environment h => exact hcommand h (by decide)
  | becomeUser h => exact hcommand h (by decide)
  | vars h => exact h ▸ (by decide)

theorem keywordFor?_of_memberKeyword {type property keyword : Text}
    (h : MemberKeyword type property keyword) : keywordFor? type property = some keyword := by
  cases h with
  | @own t _ _ htype hmem =>
    subst htype
    rw [keywordFor?, typeKeywords_name, (lookup?_eq_some_iff_mem t.nodup_ownTexts).2 hmem]
    rfl
  | shared m hown =>
    obtain ⟨hbash, htemplate, hcommon⟩ := lookup?_name m
    have hnone : lookup? m.name (typeKeywords type) = none := by
      rcases typeKeywords_cases type with ⟨-, heq⟩ | rfl | ⟨t, rfl⟩ | heq
      · rwa [heq]
      · exact htemplate
      · rw [typeKeywords_name, lookup?_eq_none_iff]
        exact hown t rfl
      · rw [heq, lookup?_nil]
    rw [keywordFor?, hnone, hcommon, Inherited.text?, Inherited.ofName?_name]
    rfl

theorem keywordFor?_eq_some_iff {type property keyword : Text} :
    keywordFor? type property = some keyword ↔
      TaskKeyword type property keyword ∨ MemberKeyword type property keyword := by
  refine ⟨fun h => ?_, fun h => h.elim keywordFor?_of_taskKeyword keywordFor?_of_memberKeyword⟩
  rcases Option.or_eq_some_iff.1 h with htype | ⟨hnone, hrest⟩
  · exact taskKeyword_of_mem_typeKeywords (mem_of_lookup? htype)
  · rcases Option.or_eq_some_iff.1 hrest with hcommon | ⟨-, hmember⟩
    · exact .inl (taskKeyword_of_mem_commonKeywords (mem_of_lookup? hcommon))
    · obtain ⟨m, rfl, rfl⟩ := Inherited.text?_eq_some_iff.1 hmember
      refine .inr (.shared m fun t ht => ?_)
      rwa [← lookup?_eq_none_iff, ← typeKeywords_name, ht]

/-! ### Keywords that more than one rule sets -/

/-- The keywords that definitions and placeholders set, and the one that goes with becoming another
user. -/
def sharedKeywords : List Text := ["no_log", "vars", "become"]

theorem memberKeyword_notMem {type property keyword : Text} (h : MemberKeyword type property keyword) :
    keyword ∉ sharedKeywords := by
  have hown : ∀ t ∈ Inherited.all, ∀ pair ∈ t.ownTexts, pair.2 ∉ sharedKeywords := by decide +kernel
  have hshared : ∀ m ∈ Inherited.all, m.text ∉ sharedKeywords := by decide +kernel
  cases h with
  | @own t _ _ _ hmem => exact hown t t.mem_all _ hmem
  | shared m _ => exact hshared m m.mem_all

/-- Only the property `sensitive` becomes the keyword that hides output. -/
theorem keywordFor?_eq_no_log (type name : Text) :
    keywordFor? type name = some ("no_log" : Text) ↔ name = ("sensitive" : Text) := by
  rw [keywordFor?_eq_some_iff]
  constructor
  · rintro (htask | hmember)
    · generalize hkeyword : ("no_log" : Text) = keyword at htask
      cases htask with
      | noLog => rfl
      | _ => exact absurd hkeyword (by decide)
    · exact absurd (memberKeyword_notMem hmember) (by decide)
  · rintro rfl
    exact .inl .noLog

/-- No property is the keyword that goes with becoming another user. -/
theorem keyword_ne_become {type name keyword : Text} (h : keywordFor? type name = some keyword) :
    keyword ≠ ("become" : Text) := by
  rcases keywordFor?_eq_some_iff.1 h with htask | hmember
  · cases htask <;> decide
  · rintro rfl
    exact absurd (memberKeyword_notMem hmember) (by decide)

theorem type_of_keyword_vars {type name : Text} (h : keywordFor? type name = some ("vars" : Text)) :
    type = ("template" : Text) := by
  rcases keywordFor?_eq_some_iff.1 h with htask | hmember
  · generalize hkeyword : ("vars" : Text) = keyword at htask
    cases htask with
    | vars htype => exact htype
    | _ => exact absurd hkeyword (by decide)
  · exact absurd (memberKeyword_notMem hmember) (by decide)

/-! ### The values of keywords -/

theorem get?_addKeyword {keyword : Text} (h : keyword ≠ ("become" : Text)) (type : Text)
    (keywords : Fields TaskValue) (p : Property) :
    (addKeyword type keywords p).get? keyword =
      if keywordFor? type p.name == some keyword then some p.value.task else keywords.get? keyword := by
  unfold addKeyword
  split
  · rename_i hnone
    simp [hnone]
  · rename_i own hown
    have hset : (keywords.set own p.value.task).get? keyword =
        if keywordFor? type p.name == some keyword then some p.value.task else keywords.get? keyword := by
      rw [Fields.get?_set, hown]
      exact if_congr (eq_comm.trans (by simp)) rfl rfl
    by_cases hcommand : own = ("become_user" : Text)
    · rw [if_pos hcommand, Fields.get?_set, if_neg h, hset]
    · rw [if_neg hcommand, hset]

/-- A keyword has the value of the last property that becomes it. -/
theorem get?_keywordsOf {keyword : Text} (h : keyword ≠ ("become" : Text)) (d : Declaration) :
    (keywordsOf d).get? keyword =
      (d.properties.reverse.find? fun p => keywordFor? d.type p.name == some keyword).map
        fun p => p.value.task := by
  unfold keywordsOf
  rw [Fields.get?_foldl (get?_addKeyword h d.type)]
  exact Option.or_none

end Mapping

end Cookbook
