import Cookbook.Proofs.Token.Order
import Cookbook.Proofs.Value.Steps

/-!
Where the warnings about a value stand. A warning is about a run that was kept as written: tokens of the
run that is read, the code of one of its literals, or nothing at all, and such a warning is put at the
start of the file.

* `NormalizeContext.Stands` are these three places;
* `NormalizeContext.Makes.stands` is one step of the reading, `NormalizeContext.normalize_stands` the
  whole.
-/

namespace Cookbook

namespace NormalizeContext

/-- A place of a warning about the value of a run: from one of its tokens to another, at the start of the
file, or within the code of one of its literals. -/
inductive Stands (ctx : NormalizeContext) (run : List Token) (span : Span) : Prop
  | tokens {t u : Token} (ht : t ∈ run) (hu : u ∈ run) (hspan : span = ctx.lines.span t.start u.stop)
  | fileStart (hspan : span = ctx.lines.spot 0)
  | code {t : Token} {flavor : Flavor} {parts : List StringPart} {source : Text} {offset start stop : Nat}
      (ht : t ∈ run) (hcontent : t.content = .string flavor parts) (hpart : .code source offset ∈ parts)
      (hstart : offset ≤ start) (hlt : offset < stop) (hstop : stop ≤ offset + source.length)
      (hspan : span = ctx.lines.span start stop)

theorem Stands.mono {ctx : NormalizeContext} {sub run : List Token} {span : Span} (h : ctx.Stands sub span)
    (hsub : sub ⊆ run) : ctx.Stands run span := by
  cases h with
  | tokens ht hu hspan => exact .tokens (hsub ht) (hsub hu) hspan
  | fileStart hspan => exact .fileStart hspan
  | code ht hcontent hpart hstart hlt hstop hspan =>
    exact .code (hsub ht) hcontent hpart hstart hlt hstop hspan

/-- What stands in the tokens of some code, or in the code of their literals, stands in the code. -/
theorem Stands.of_code {ctx : NormalizeContext} {run : List Token} {t : Token} {flavor : Flavor}
    {parts : List StringPart} {source : Text} {offset : Nat} {span : Span} (ht : t ∈ run)
    (hcontent : t.content = .string flavor parts) (hpart : .code source offset ∈ parts)
    (h : ctx.Stands (lexInline source offset) span) : ctx.Stands run span := by
  have hbetween : ∀ u ∈ lexInline source offset, u.Between offset (offset + source.length) :=
    fun u hu => lex_between source offset u (List.mem_filter.1 hu).1
  cases h with
  | @tokens u v hu hv hspan =>
    have hlt : v.start < v.stop := (lex_inOrder source offset).1 v (List.mem_filter.1 hv).1
    exact .code ht hcontent hpart (hbetween _ hu).start ((hbetween _ hv).start.trans_lt hlt)
      (hbetween _ hv).stop hspan
  | fileStart hspan => exact .fileStart hspan
  | @code u _ inner source' offset' _ _ hu hinner hpart' hstart hlt hstop hspan =>
    have hcode : (StringPart.code source' offset').Between offset (offset + source.length) := by
      have := (hbetween u hu).content
      rw [hinner] at this
      exact this _ hpart'
    exact .code ht hcontent hpart (hcode.1.le.trans hstart) (hcode.1.le.trans_lt hlt)
      (hstop.trans hcode.2) hspan

/-- A run kept as written has its warning where it stands. -/
theorem keep_stands (ctx : NormalizeContext) (run : List Token) (finding : Text → Finding) :
    ∀ d ∈ (ctx.keep run finding).diagnostics, ctx.Stands run d.span := by
  intro d hd
  obtain rfl := List.mem_singleton.1 hd
  show ctx.Stands run (ctx.spanOf run)
  unfold spanOf
  split
  · rename_i first last hfirst hlast
    exact .tokens (List.mem_of_mem_head? hfirst) (List.mem_of_mem_getLast? hlast) rfl
  · exact .fileStart rfl

/-- The warnings of a step are about the run, or about what is read on the way. -/
theorem Makes.stands {ctx : NormalizeContext} {whole : List Token → Normalized}
    (hwhole : ∀ sub, ∀ d ∈ (whole sub).diagnostics, ctx.Stands sub d.span) {run : List Token} {n : Normalized}
    (h : ctx.Makes whole run n) : ∀ d ∈ n.diagnostics, ctx.Stands run d.span := by
  intro d hd
  cases h with
  | kept hsub _ => exact (keep_stands ctx _ _ d hd).mono hsub
  | plain _ => exact absurd hd List.not_mem_nil
  | text ht hcontent =>
    obtain ⟨n, hn, hd⟩ := List.mem_flatMap.1 hd
    obtain ⟨part, hpart, hn⟩ := List.mem_filterMap.1 hn
    obtain ⟨value, rfl⟩ | ⟨source, offset, rfl, rfl⟩ := part?_cases hn
    · exact absurd hd List.not_mem_nil
    · exact .of_code ht hcontent hpart (hwhole _ d hd)
  | list hpieces =>
    obtain ⟨n, hn, hd⟩ := List.mem_flatMap.1 hd
    obtain ⟨piece, hpiece, rfl⟩ := List.mem_map.1 hn
    exact (hwhole piece d hd).mono (hpieces piece hpiece)
  | map hpairs =>
    obtain ⟨pair, hpair, hd⟩ := List.mem_flatMap.1 hd
    exact (hwhole pair.2 d hd).mono (hpairs pair hpair)
  | inside hsub => exact (hwhole _ d hd).mono hsub

/-- The warnings about the value of a run stand in the run, at the start of the file, or in the code of
one of the run's literals. -/
theorem normalize_stands (ctx : NormalizeContext) (run : List Token) :
    ∀ d ∈ (ctx.normalize run).diagnostics, ctx.Stands run d.span :=
  normalize_induct (Q := fun run n => ∀ d ∈ n.diagnostics, ctx.Stands run d.span)
    (fun run => keep_stands ctx run _) (fun _ _ _ hwhole h => h.stands hwhole) run

end NormalizeContext

end Cookbook
