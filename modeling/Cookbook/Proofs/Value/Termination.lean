import Cookbook.Proofs.Token.Code
import Cookbook.Proofs.Value.Reading
import Mathlib.Logic.Relation

/-!
The reading of values ends, although the code in a literal is cut into tokens again. What is read on the
way is a shorter run of the same tokens, or the tokens of some code that is shorter than the text in which
the literal stands, also where the literal is a heredoc and its code lies far from its token.

* `ReadsInside` and `ReadsCode` say what may be read on the way to the value of a run, and
  `NormalizeContext.wholeRun_congr` that nothing else is;
* `NormalizeContext.ReadsAs` is the value of a run with no bound on the depth of the reading: it is unique
  (`NormalizeContext.ReadsAs.unique`), and `NormalizeContext.readsAs_readRun` says that it is there and that
  enough fuel gives it;
* `CodeShorter` bounds the code in the literals of a run, `Excerpt.Leads.decreases` is one step of the
  reading and `Excerpt.codeShorter_run` what holds along all steps;
* `normalize_terminates` is the result.
-/

namespace Cookbook

/-! ### What is read on the way -/

/-- A run made of tokens of another one that may be read for its value: the value of a key, with or without
braces around all keys, an item of a list, or what stands between parentheses. -/
inductive ReadsInside (run : List Token) : List Token → Prop
  | argument {arg : Argument} {key : Text} {sub : List Token} (harg : arg ∈ Argument.ofRun run)
      (hkey : arg.keyword? = some (key, sub)) : ReadsInside run sub
  | item {opener : Token} {n : Nat} {piece : List Token} (hhead : run.head? = some opener)
      (hopener : opener.isPunct ["["] = true) (hclose : closing? 0 run = some n)
      (hpiece : piece ∈ splitTopLevel "," ((run.take n).drop 1)) (hne : piece ≠ []) : ReadsInside run piece
  | field {opener : Token} {n : Nat} {arg : Argument} {key : Text} {sub : List Token}
      (hhead : run.head? = some opener) (hopener : opener.isPunct ["\x7b"] = true)
      (hclose : closing? 0 run = some n) (harg : arg ∈ Argument.ofRun ((run.take n).drop 1))
      (hkey : arg.keyword? = some (key, sub)) : ReadsInside run sub
  | group {opener : Token} {n : Nat} (hhead : run.head? = some opener)
      (hopener : opener.isPunct ["("] = true) (hclose : closing? 0 run = some n)
      (hne : (run.take n).drop 1 ≠ []) : ReadsInside run ((run.take n).drop 1)

/-- Some code, at its offset, that is cut into tokens and read for the value of a run: a part of the string
literal that the run starts with. -/
inductive ReadsCode (run : List Token) (source : Text) (offset : Nat) : Prop
  | intro {t : Token} {flavor : Flavor} {parts : List StringPart} (hhead : run.head? = some t)
      (hcontent : t.content = .string flavor parts) (hflavor : flavor ≠ .backtick)
      (hpart : .code source offset ∈ parts) (hne : lexInline source offset ≠ [])

/-- What is read inside a run is made of its tokens and shorter than the run. -/
theorem ReadsInside.shorter {run sub : List Token} (h : ReadsInside run sub) :
    sub ⊆ run ∧ sub.length < run.length := by
  have hinner : ∀ n, closing? 0 run = some n → ((run.take n).drop 1).length < run.length := by
    intro n hn
    have := closing?_lt hn
    rw [List.length_drop, List.length_take]
    omega
  have hsub : ∀ n, ((run.take n).drop 1).Sublist run :=
    fun n => (List.drop_sublist _ _).trans (List.take_sublist _ _)
  cases h with
  | argument harg hkey =>
    refine ⟨?_, Argument.length_lt_of_keyword?_mem_ofRun harg hkey⟩
    exact Argument.tokens_of_keyword? hkey ▸ (Argument.sublist_of_mem_ofRun harg).subset
  | item _ _ hclose hpiece _ =>
    have hpart := sublist_of_mem_splitTopLevel hpiece
    exact ⟨(hpart.trans (hsub _)).subset, hpart.length_le.trans_lt (hinner _ hclose)⟩
  | field _ _ hclose harg hkey =>
    have hpart := Argument.tokens_of_keyword? hkey ▸ Argument.sublist_of_mem_ofRun harg
    exact ⟨(hpart.trans (hsub _)).subset, hpart.length_le.trans_lt (hinner _ hclose)⟩
  | group _ _ hclose _ => exact ⟨(hsub _).subset, hinner _ hclose⟩

namespace NormalizeContext

/-! ### One step -/

section Step

variable {ctx : NormalizeContext} {whole whole' : List Token → Normalized} {run : List Token}

theorem entries?_congr {args : List Argument}
    (h : ∀ arg ∈ args, ∀ key sub, arg.keyword? = some (key, sub) → whole sub = whole' sub) :
    entries? whole args = entries? whole' args := by
  unfold entries?
  cases hpairs : args.mapM Argument.keyword? with
  | none => rfl
  | some pairs =>
    have hvalues : (pairs.map fun pair => (pair.1, whole pair.2)) =
        pairs.map fun pair => (pair.1, whole' pair.2) := by
      apply List.map_congr_left
      intro pair hpair
      obtain ⟨arg, harg, hkey⟩ := mem_of_mapM_eq_some hpairs hpair
      exact congrArg (Prod.mk pair.1) (h arg harg pair.1 pair.2 hkey)
    simp only [Option.bind_eq_bind, Option.bind_some, hvalues]

section Congr

variable (hinside : ∀ sub, ReadsInside run sub → whole sub = whole' sub)
  (hcode : ∀ source offset, ReadsCode run source offset →
    whole (lexInline source offset) = whole' (lexInline source offset))

include hcode in
theorem stringValue_congr {t : Token} {flavor : Flavor} {parts : List StringPart}
    (hhead : run.head? = some t) (hcontent : t.content = .string flavor parts) :
    ctx.stringValue whole t flavor parts = ctx.stringValue whole' t flavor parts := by
  unfold stringValue
  by_cases hflavor : flavor = .backtick
  · rw [if_pos hflavor, if_pos hflavor]
  rw [if_neg hflavor, if_neg hflavor]
  have hparts : parts.filterMap (part? whole) = parts.filterMap (part? whole') := by
    apply List.filterMap_congr
    intro part hpart
    cases part with
    | text value => rfl
    | code source offset =>
      unfold part?
      dsimp only
      cases hlex : lexInline source offset with
      | nil => rfl
      | cons u rest =>
        have hread := hcode source offset ⟨hhead, hcontent, hflavor, hpart, by simp [hlex]⟩
        rw [hlex] at hread
        exact congrArg some hread
  rw [hparts]

include hinside in
theorem bracketed?_congr {opener : Token} (hhead : run.head? = some opener) (hopener : opener.isOpener = true) :
    bracketed? whole opener run = bracketed? whole' opener run := by
  unfold bracketed?
  cases hclose : closing? 0 run with
  | none => rfl
  | some n =>
    simp only [Option.bind_eq_bind, Option.bind_some]
    by_cases hlist : opener.isPunct ["["] = true
    · have hitems : ((splitTopLevel "," ((run.take n).drop 1)).filter (!·.isEmpty)).map whole =
          ((splitTopLevel "," ((run.take n).drop 1)).filter (!·.isEmpty)).map whole' := by
        apply List.map_congr_left
        intro piece hpiece
        rw [List.mem_filter] at hpiece
        exact hinside piece (.item hhead hlist hclose hpiece.1 (by simpa using hpiece.2))
      simp only [if_pos hlist, hitems]
    by_cases hmap : opener.isPunct ["\x7b"] = true
    · have hfields : entries? whole (Argument.ofRun ((run.take n).drop 1)) =
          entries? whole' (Argument.ofRun ((run.take n).drop 1)) :=
        entries?_congr fun arg harg key sub hkey => hinside sub (.field hhead hmap hclose harg hkey)
      simp only [if_neg hlist, if_pos hmap, hfields]
    · -- of the three openers the parenthesis is left
      have hgroup : opener.isPunct ["("] = true := by
        unfold Token.isOpener Token.isPunct Token.isOneOf at hopener
        unfold Token.isPunct Token.isOneOf at hlist hmap ⊢
        split at hopener
        · simp_all
        · cases hopener
      simp only [if_neg hlist, if_neg hmap]
      by_cases hempty : ((run.take n).drop 1).isEmpty = true
      · simp only [if_pos hempty]
      · have hread := hinside _ (.group hhead hgroup hclose (by simpa using hempty))
        simp only [if_neg hempty, hread]

include hinside hcode in
theorem primary?_congr : ctx.primary? whole run = ctx.primary? whole' run := by
  cases run with
  | nil => rfl
  | cons t rest =>
    unfold primary?
    cases hcontent : t.content with
    | string flavor parts =>
      have hstring : ctx.stringValue whole t flavor parts = ctx.stringValue whole' t flavor parts :=
        stringValue_congr hcode rfl hcontent
      simp only [hcontent, hstring]
    | words words symbols => simp only [hcontent]
    | regex => simp only [hcontent]
    | newline => simp only [hcontent]
    | name kind value =>
      cases kind with
      | punct =>
        have hbracketed : (if t.isOpener then bracketed? whole t (t :: rest) else none) =
            if t.isOpener then bracketed? whole' t (t :: rest) else none := by
          split
          · rename_i hopener
            exact bracketed?_congr hinside rfl hopener
          · rfl
        simp only [hcontent, hbracketed]
      | ident | const | instanceVar | globalVar | keyword | label | symbol | number => simp only [hcontent]

include hinside hcode in
/-- The value of a run depends on what is read on the way to it, and on no other run. -/
theorem wholeRun_congr : ctx.wholeRun whole run = ctx.wholeRun whole' run := by
  have hentries : entries? whole (Argument.ofRun run) = entries? whole' (Argument.ofRun run) :=
    entries?_congr fun arg harg key sub hkey => hinside sub (.argument harg hkey)
  rw [wholeRun_eq, wholeRun_eq, hentries, primary?_congr hinside hcode]

end Congr

end Step

/-! ### The whole reading -/

/-- A run is read as a value, with warnings: so is all that is read on the way, and a step makes the value
of that. -/
inductive ReadsAs (ctx : NormalizeContext) : List Token → Normalized → Prop
  | intro {run : List Token} (whole : List Token → Normalized)
      (hinside : ∀ sub, ReadsInside run sub → ReadsAs ctx sub (whole sub))
      (hcode : ∀ source offset, ReadsCode run source offset →
        ReadsAs ctx (lexInline source offset) (whole (lexInline source offset))) :
      ReadsAs ctx run (ctx.wholeRun whole run)

theorem ReadsAs.unique {ctx : NormalizeContext} {run : List Token} {n : Normalized} (h : ctx.ReadsAs run n) :
    ∀ n', ctx.ReadsAs run n' → n' = n := by
  induction h with
  | intro whole _ _ ihinside ihcode =>
    rintro _ ⟨whole', hinside', hcode'⟩
    exact wholeRun_congr (fun sub hsub => ihinside sub hsub _ (hinside' sub hsub))
      fun source offset hread => ihcode source offset hread _ (hcode' source offset hread)

end NormalizeContext

/-! ### Code is shorter than its text -/

/-- The code in the string literals of a run has fewer units than `size`. -/
def CodeShorter (size : Nat) (run : List Token) : Prop :=
  ∀ t ∈ run, ∀ flavor parts, t.content = .string flavor parts →
    ∀ source offset, .code source offset ∈ parts → source.length < size

theorem CodeShorter.subset {size : Nat} {run sub : List Token} (h : CodeShorter size run) (hsub : sub ⊆ run) :
    CodeShorter size sub := fun t ht => h t (hsub ht)

theorem CodeShorter.readsCode {size : Nat} {run : List Token} (h : CodeShorter size run) {source : Text}
    {offset : Nat} (hread : ReadsCode run source offset) : source.length < size := by
  obtain ⟨hhead, hcontent, -, hpart, -⟩ := hread
  exact h _ (List.mem_of_mem_head? hhead) _ _ hcontent source offset hpart

/-- Code stands in its text between the marks of an interpolation, wherever the token of its literal is. -/
theorem codeShorter_lex (text : Text) (base : Nat) : CodeShorter text.length (lex text base).tokens := by
  intro t ht flavor parts hcontent source offset hpart
  have hexact := lex_exact text base t ht
  rw [hcontent] at hexact
  obtain ⟨before, after, htext, -⟩ := hexact source offset hpart
  have hmark : List.length ("#\x7b" : Text) = 2 := rfl
  rw [htext]
  simp only [List.length_append, hmark]
  omega

theorem codeShorter_lexInline (text : Text) (base : Nat) : CodeShorter text.length (lexInline text base) :=
  (codeShorter_lex text base).subset List.filter_sublist.subset

/-- With enough fuel a run is read as what the fuel gives. -/
theorem NormalizeContext.readsAs_readRun {ctx : NormalizeContext} {fuel size : Nat} {run : List Token}
    (hcode : CodeShorter size run) (hfuel : readingDepth size run.length ≤ fuel) :
    ctx.ReadsAs run (ctx.readRun fuel run) := by
  induction fuel generalizing size run with
  | zero => exact absurd hfuel (by simp [readingDepth])
  | succ fuel ih =>
    refine .intro (ctx.readRun fuel) (fun sub hsub => ?_) fun source offset hread => ?_
    · obtain ⟨hsubset, hlength⟩ := hsub.shorter
      refine ih (hcode.subset hsubset) ?_
      unfold readingDepth at hfuel ⊢
      omega
    · have hlength : (lexInline source offset).length ≤ source.length :=
        (List.length_filter_le _ _).trans (length_lex_le source offset)
      have hless := readingDepth_lt (n := run.length) (hcode.readsCode hread) hlength
      exact ih (codeShorter_lexInline source offset) (by omega)

/-! ### The steps of the reading -/

/-- Where the reading stands: a run, and the text whose tokens it is made of. -/
structure Excerpt where
  source : Text
  run : List Token

namespace Excerpt

/-- The reading goes on from a run to what is read inside it, and to the tokens of the code in it. -/
inductive Leads : Excerpt → Excerpt → Prop
  | inside {source : Text} {run sub : List Token} (h : ReadsInside run sub) :
      Leads ⟨source, run⟩ ⟨source, sub⟩
  | code {source code : Text} {run : List Token} {offset : Nat} (h : ReadsCode run code offset) :
      Leads ⟨source, run⟩ ⟨code, lexInline code offset⟩

/-- The units of the text, and then the tokens of the run, become fewer. -/
theorem Leads.decreases {e e' : Excerpt} (h : e.Leads e') (hcode : CodeShorter e.source.length e.run) :
    Prod.Lex (· < ·) (· < ·) (e'.source.length, e'.run.length) (e.source.length, e.run.length) := by
  cases h with
  | inside h => exact .right _ h.shorter.2
  | code h => exact .left _ _ (hcode.readsCode h)

theorem Leads.codeShorter {e e' : Excerpt} (h : e.Leads e') (hcode : CodeShorter e.source.length e.run) :
    CodeShorter e'.source.length e'.run := by
  cases h with
  | inside h => exact hcode.subset h.shorter.1
  | code h => exact codeShorter_lexInline _ _

/-- Wherever the reading of a text comes, the code to come is shorter than the text it stands in. -/
theorem codeShorter_run {e e' : Excerpt} (h : Relation.ReflTransGen Leads e e')
    (hcode : CodeShorter e.source.length e.run) : CodeShorter e'.source.length e'.run := by
  induction h with
  | refl => exact hcode
  | tail _ hstep ih => exact hstep.codeShorter ih

/-- Where a run is read as a value, no chain of steps goes on for ever. -/
theorem acc_of_readsAs {ctx : NormalizeContext} {run : List Token} {n : Normalized} (h : ctx.ReadsAs run n) :
    ∀ source, Acc (fun inner outer => Leads outer inner) ⟨source, run⟩ := by
  induction h with
  | intro whole _ _ ihinside ihcode =>
    refine fun source => .intro _ fun next hnext => ?_
    cases hnext with
    | inside hsub => exact ihinside _ hsub source
    | code hread => exact ihcode _ _ hread _

end Excerpt

/-- The reading of a run of tokens of a text ends, with the one value that the run is read as; no tokens at
all are nil. Code in a text is shorter than the text, what is read inside a run is shorter than the run,
and so at each step of the reading the units of the text or, in one text, the tokens of the run become
fewer, and no chain of steps goes on for ever. -/
theorem normalize_terminates (text file : Text) (constants : Bindings Value) (run : List Token)
    (hrun : run ⊆ (lex text 0).tokens) :
    let ctx : NormalizeContext := ⟨file, .ofText text, constants⟩
    (run = [] → ctx.normalize run = .clean .nil) ∧
    (run ≠ [] → ∀ n, ctx.ReadsAs run n ↔ n = ctx.normalize run) ∧
    Acc (fun inner outer => Excerpt.Leads outer inner) ⟨text, run⟩ ∧
    (∀ source base, CodeShorter source.length (lex source base).tokens) ∧
    (∀ outer sub, ReadsInside outer sub → sub.length < outer.length) ∧
    ∀ e e', Relation.ReflTransGen Excerpt.Leads ⟨text, run⟩ e → e.Leads e' →
      Prod.Lex (· < ·) (· < ·) (e'.source.length, e'.run.length) (e.source.length, e.run.length) := by
  intro ctx
  have hcode : CodeShorter text.length run := (codeShorter_lex text 0).subset hrun
  have hreads : ctx.ReadsAs run (ctx.readRun (ctx.fuel run) run) :=
    NormalizeContext.readsAs_readRun hcode le_rfl
  refine ⟨?_, ?_, Excerpt.acc_of_readsAs hreads text, codeShorter_lex, fun _ _ h => h.shorter.2, ?_⟩
  · rintro rfl
    rfl
  · intro hne n
    have hnormalize : ctx.normalize run = ctx.readRun (ctx.fuel run) run := by
      unfold NormalizeContext.normalize
      rw [if_neg (by simpa using hne)]
    rw [hnormalize]
    exact ⟨hreads.unique n, fun h => h ▸ hreads⟩
  · intro e e' hsteps hstep
    exact hstep.decreases (Excerpt.codeShorter_run hsteps hcode)

/-- A heredoc in a list: its token is at the start of the file, and the code in it two lines further down
is shorter than the file. -/
theorem normalize_terminates_heredoc :
    let text : Text := "[<<A]\n#\x7bb\x7d\nA\n"
    let opener : Token := ⟨.name .punct "[", 0, 1, "[", false⟩
    let heredoc : Token := ⟨.string .heredoc [.code "b" 8, .text "\n"], 1, 4, "<<A", false⟩
    let closer : Token := ⟨.name .punct "]", 4, 5, "]", false⟩
    let run := [opener, heredoc, closer]
    run ⊆ (lex text 0).tokens ∧
      Relation.ReflTransGen Excerpt.Leads ⟨text, run⟩ ⟨text, [heredoc]⟩ ∧
      Excerpt.Leads ⟨text, [heredoc]⟩ ⟨"b", lexInline "b" 8⟩ ∧
      Prod.Lex (· < ·) (· < ·) (1, 1) (List.length text, 1) := by
  intro text opener heredoc closer run
  have hrun : run ⊆ (lex text 0).tokens := by decide +kernel
  have hitem : Excerpt.Leads ⟨text, run⟩ ⟨text, [heredoc]⟩ :=
    .inside (.item (n := 2) rfl (by decide) (by decide) (by decide +kernel) (by simp))
  have hcode : Excerpt.Leads ⟨text, [heredoc]⟩ ⟨"b", lexInline "b" 8⟩ :=
    .code (.intro rfl rfl (by decide) List.mem_cons_self (by decide +kernel))
  refine ⟨hrun, .single hitem, hcode, ?_⟩
  exact (normalize_terminates text "recipe.rb" .empty run hrun).2.2.2.2.2 _ _ (.single hitem) hcode

end Cookbook
