import Cookbook.Proofs.Token.Tiling

/-!
Code within code. The code of an interpolation is read by itself from its own offset, its literals may
hold code again, and so on. A text that starts further right has the same tokens further right, and code
is what its text has at its offset; so whatever is read at any depth is spelled as the whole text is at
its place.

* `CodeWithin` is the code in a text at any depth, and `CodeWithin.found` says where it stands;
* `lex_shift_and_spells_nested` is the result.
-/

namespace Cookbook

/-- The code in a text that starts at `base`: all of the text, and the pieces of code in the literals
among the tokens of such code, each at its own offset. -/
inductive CodeWithin (text : Text) (base : Nat) : (source : Text) → (offset : Nat) → Prop
  | whole : CodeWithin text base text base
  | inside {source code : Text} {offset place : Nat} {t : Token} {flavor : Flavor}
      {parts : List StringPart} (h : CodeWithin text base source offset)
      (ht : t ∈ (lex source offset).tokens) (hcontent : t.content = .string flavor parts)
      (hcode : .code code place ∈ parts) : CodeWithin text base code place

section Within

variable {text source : Text} {base offset : Nat}

/-- Code at any depth stands in the text at its offset. -/
theorem CodeWithin.found (h : CodeWithin text base source offset) :
    ∃ before after : Text, text = before ++ source ++ after ∧ offset = base + before.length := by
  induction h with
  | whole => exact ⟨[], [], (List.append_nil text).symm, rfl⟩
  | @inside source code offset place t flavor parts h ht hcontent hcode ih =>
    obtain ⟨before, after, htext, hoffset⟩ := ih
    have hexact := lex_exact source offset t ht
    rw [hcontent] at hexact
    obtain ⟨lead, trail, hsource, hplace⟩ := hexact code place hcode
    refine ⟨before ++ lead ++ "#\x7b", "\x7d" ++ trail ++ after, ?_, ?_⟩
    · rw [htext, hsource]
      simp only [List.append_assoc]
    · have hmark : List.length ("#\x7b" : Text) = 2 := rfl
      rw [List.length_append, List.length_append, hmark]
      omega

/-- A token of code at any depth is spelled as the text is at its place. -/
theorem CodeWithin.spells (h : CodeWithin text base source offset) {t : Token}
    (ht : t ∈ (lex source offset).tokens) :
    base ≤ t.start ∧ t.stop ≤ base + text.length ∧
      text.slice (t.start - base) (t.stop - base) = t.text := by
  obtain ⟨before, after, htext, hoffset⟩ := h.found
  obtain ⟨hstart, hstop, hslice⟩ := (tiled_lex source offset).slice t ht
  have hlength : before.length + source.length ≤ text.length := by
    rw [htext, List.length_append, List.length_append]
    omega
  have horder : t.start ≤ t.stop := ((lex_inOrder source offset).1 t ht).le
  refine ⟨by omega, by omega, ?_⟩
  have hbegin : t.start - base = t.start - offset + before.length := by omega
  have hend : t.stop - base = t.stop - offset + before.length := by omega
  rw [hbegin, hend, htext, Text.slice_append before source after (.inl (by omega))]
  exact hslice

end Within

/-- A text that starts at `base` has the tokens, the code and the problems that it has at the start of a
file, each that much further right and otherwise the same. The code that is found in it at any depth is
what the text has at its offset, and the tokens of that code, read by itself at its offset, are spelled
as the text is where they stand. -/
theorem lex_shift_and_spells_nested (text : Text) (base : Nat) :
    lex text base = (lex text 0).shift base ∧
      ∀ source offset, CodeWithin text base source offset →
        (base ≤ offset ∧ text.slice (offset - base) (offset - base + source.length) = source) ∧
        ∀ t ∈ (lex source offset).tokens, base ≤ t.start ∧ t.stop ≤ base + text.length ∧
          text.slice (t.start - base) (t.stop - base) = t.text := by
  refine ⟨?_, fun source offset h => ⟨?_, fun t ht => h.spells ht⟩⟩
  · have hadd := lex_add text 0 base
    rwa [Nat.zero_add] at hadd
  · obtain ⟨before, after, htext, rfl⟩ := h.found
    refine ⟨Nat.le_add_right _ _, ?_⟩
    rw [Nat.add_sub_cancel_left, htext, Text.slice, Nat.add_sub_cancel_left, List.append_assoc,
      List.drop_left, List.take_left]

/-- In a literal with a literal in its code, the innermost code is a name, which stands nine units
after the start of the text. -/
theorem lex_shift_and_spells_nested_twice :
    let text : Text := "\"a#\x7bb \"#\x7bc\x7d\"\x7d\""
    let name : Token := ⟨.name .ident "c", 16, 17, "c", false⟩
    CodeWithin text 7 "c" 16 ∧ (lex "c" 16).tokens = [name] ∧ text.slice 9 10 = name.text := by
  intro text name
  let outer : Text := "b \"#\x7bc\x7d\""
  let first : Token := ⟨.string .double [.text "a", .code outer 11], 7, 21, text, false⟩
  let second : Token := ⟨.string .double [.code "c" 16], 13, 19, "\"#\x7bc\x7d\"", true⟩
  have hfirst : first ∈ (lex text 7).tokens := by decide +kernel
  have hsecond : second ∈ (lex outer 11).tokens := by decide +kernel
  have houter : CodeWithin text 7 outer 11 :=
    .inside .whole hfirst rfl (List.mem_cons_of_mem _ List.mem_cons_self)
  have hdeep : CodeWithin text 7 "c" 16 := .inside houter hsecond rfl List.mem_cons_self
  have hname : name ∈ (lex "c" 16).tokens := by decide +kernel
  exact ⟨hdeep, by decide +kernel, ((lex_shift_and_spells_nested text 7).2 "c" 16 hdeep).2 name hname |>.2.2⟩

end Cookbook
