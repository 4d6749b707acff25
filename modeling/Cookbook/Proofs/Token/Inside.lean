import Cookbook.Proofs.Token.Tiling

/-!
The code in a string literal lies inside the token of the literal. The token of a heredoc is only its
opener, so its code stands elsewhere; no other literal has code outside.

* `Quoted.ofText_inside` is the result for what is between delimiters: the code ends where the reading
  does;
* `Lexeme.Inside` says so of one lexeme, `LexState.Inside` of all tokens seen;
* `lex_inside` is the result for whole texts.
-/

namespace Cookbook

/-! ### Between delimiters -/

namespace Quoted

/-- All code that was read lies before the end of the reading. -/
def Inside (r : Quoted) (pos : Nat) : Prop := ∀ part ∈ r.parts, part.Between pos (pos + r.length)

theorem Inside.after {r : Quoted} {pos : Nat} (m : Nat) (value : Text) (h : r.Inside (pos + m)) :
    (r.after m value).Inside pos := by
  refine StringPart.between_consText fun part hpart => ?_
  exact (h part hpart).mono (Nat.le_add_right pos m) (by simp only [Quoted.after]; omega)

/-- The units of an interpolation already taken are part of the reading. -/
theorem skip_le_length (q : Quoting) (pos depth skip : Nat) (t : Text) :
    min skip t.length ≤ (read q pos depth skip t).length := by
  induction t generalizing pos skip with
  | nil => simp
  | cons c rest ih =>
    cases skip with
    | zero => simp
    | succ skip =>
      have hrest := ih (pos + 1) skip
      rw [read, List.length_cons]
      simp only [Quoted.after]
      omega

theorem read_inside (q : Quoting) (pos depth skip : Nat) (t : Text) :
    (read q pos depth skip t).Inside pos := by
  fun_induction read q pos depth skip t with
  | case1 => exact fun part hpart => absurd hpart List.not_mem_nil
  | case2 pos depth skip c rest ih => exact ih.after 1 []
  | case3 pos depth => exact StringPart.between_consText fun part hpart => absurd hpart List.not_mem_nil
  | case4 pos depth next rest ih => exact ih.after 2 _
  | case5 pos depth c rest hc n hcode more ih =>
    intro part hpart
    rcases List.mem_cons.1 hpart with rfl | hpart
    · -- the reading goes on behind the interpolation, so it takes the code with both braces
      have hskip : min (n + 2) rest.length ≤ more.length := skip_le_length q (pos + 1) depth (n + 2) rest
      have hlength : (rest.tail.take n).length + 1 ≤ min (n + 2) rest.length := by
        cases rest with
        | nil => simp [Quoting.codeAt?] at hcode
        | cons b after =>
          simp only [List.tail_cons, List.length_take, List.length_cons]
          omega
      exact ⟨by omega, show _ ≤ pos + (more.length + 1) by omega⟩
    · exact (ih part hpart).mono (Nat.le_add_right pos 1)
        (show pos + 1 + more.length ≤ pos + (more.length + 1) by omega)
  | case6 pos depth c rest hc hcode hopen ih => exact ih.after 1 [c]
  | case7 pos c rest hc hcode hopen hclose => exact fun part hpart => absurd hpart List.not_mem_nil
  | case8 pos depth c rest hc hcode hopen hclose hdepth ih => exact ih.after 1 [c]
  | case9 pos depth c rest hc hcode hopen hclose ih => exact ih.after 1 [c]

theorem ofText_inside (q : Quoting) (pos : Nat) (t : Text) : (ofText q pos t).Inside pos :=
  read_inside q pos 0 0 t

end Quoted

/-! ### Lexemes -/

namespace Lexeme

/-- All code of a lexeme at offset `pos` lies inside it. -/
def Inside (l : Lexeme) (pos : Nat) : Prop := l.content.Between pos (pos + l.length)

/-- Quoted content with `lead` units before it, of which it is a part. -/
theorem inside_of_quoted {r : Quoted} {pos lead n : Nat} (flavor : Flavor) (h : r.Inside (pos + lead))
    (hn : lead + r.length ≤ n) : Inside ⟨.string flavor r.parts, n⟩ pos := by
  intro part hpart
  exact (h part hpart).mono (Nat.le_add_right pos lead) (by dsimp only; omega)

theorem symbol?_inside {pos : Nat} {t : Text} {l : Lexeme} (h : symbol? pos t = some l) : l.Inside pos := by
  unfold symbol? at h
  split at h
  · exact absurd h (by simp)
  · split at h
    · obtain ⟨-, h⟩ := Option.ite_none_right_eq_some.1 h
      obtain rfl := Option.some.inj h
      exact inside_of_quoted _ (Quoted.ofText_inside _ _ _) (by omega)
    · obtain ⟨-, h⟩ := Option.ite_none_right_eq_some.1 h
      obtain rfl := Option.some.inj h
      trivial

theorem percentBody?_inside {letter : Option CodeUnit} {pos lead : Nat} {rest : Text} {l : Lexeme}
    (h : percentBody? letter pos lead rest = some l) : l.Inside pos := by
  unfold percentBody? at h
  split at h
  · exact absurd h (by simp)
  · obtain ⟨-, h⟩ := Option.ite_none_left_eq_some.1 h
    obtain ⟨-, h⟩ := Option.ite_none_left_eq_some.1 h
    split at h
    · obtain rfl := Option.some.inj h
      trivial
    · split at h
      · obtain rfl := Option.some.inj h
        trivial
      · obtain rfl := Option.some.inj h
        exact inside_of_quoted _ (Quoted.ofText_inside _ _ _) le_rfl

theorem percent?_inside {pos : Nat} {t : Text} {l : Lexeme} (h : percent? pos t = some l) :
    l.Inside pos := by
  unfold percent? at h
  split at h
  · exact absurd h (by simp)
  · split at h
    · exact percentBody?_inside (Option.ite_none_right_eq_some.1 h).2
    · exact percentBody?_inside h

end Lexeme

/-! ### The scan -/

namespace LexState

/-- All code of the tokens seen lies inside them, apart from that of heredocs. -/
def Inside (s : LexState) : Prop := ∀ t ∈ s.tokens, t.isHeredoc = true ∨ t.content.Between t.start t.stop

theorem literal?_inside {s : LexState} {pos : Nat} {c : CodeUnit} {rest : Text} {l : Lexeme}
    (h : s.literal? pos c rest = some l) : l.Inside pos := by
  unfold literal? at h
  split at h
  · exact Lexeme.percent?_inside h
  · split at h
    · obtain ⟨n, -, rfl⟩ := Option.map_eq_some_iff.1 h
      trivial
    · exact Lexeme.symbol?_inside (Option.ite_none_right_eq_some.1 h).2

theorem plainLexeme_inside (s : LexState) (c : CodeUnit) (rest : Text) (pos : Nat) :
    (s.plainLexeme c rest).Inside pos := by
  unfold plainLexeme
  split
  · trivial
  · split
    · trivial
    · split
      · unfold Lexeme.word
        dsimp only
        split_ifs <;> trivial
      · trivial

section Steps

variable {s : LexState} (hs : s.Inside)

include hs

theorem Inside.push {pos : Nat} {l : Lexeme} (t : Text) (hl : l.Inside pos) : (s.push pos t l).1.Inside := by
  intro token htoken
  rcases Array.mem_push.1 htoken with htoken | rfl
  · exact hs token htoken
  · exact .inr hl

theorem Inside.fill (pos : Nat) (t : Text) (waiting : List PendingHeredoc) :
    (s.fill pos t waiting).1.Inside := by
  induction waiting generalizing s pos t with
  | nil => exact hs
  | cons h more ih =>
    rw [fill_cons]
    refine ih ?_ _ _
    intro token htoken
    obtain ⟨i, hi, rfl⟩ := Array.mem_iff_getElem.1 htoken
    have hsize : i < s.tokens.size := by simpa [fillOne] using hi
    simp only [fillOne, Array.getElem_modify]
    split
    · exact .inl rfl
    · exact hs _ (Array.getElem_mem hsize)

theorem Inside.string (pos : Nat) (quote : CodeUnit) (rest : Text) : (s.string pos quote rest).1.Inside := by
  unfold LexState.string
  dsimp only
  split
  · exact hs.push _ (Lexeme.inside_of_quoted _ (Quoted.ofText_inside _ _ _) (by omega))
  · have hread := Quoted.ofText_fits (.body (quote != '\x27')) (pos + 1) rest.firstLine
    exact Inside.push (s := { s with problems := _ }) hs _
      (Lexeme.inside_of_quoted _ (Quoted.ofText_inside _ _ _) (by have := hread.1; omega))

theorem Inside.lexeme (pos : Nat) (c : CodeUnit) (rest : Text) : (s.lexeme pos c rest).1.Inside := by
  rw [lexeme_eq]
  split
  · exact hs.string pos c rest
  · split
    · exact Inside.push (s := { s with pending := _ }) hs _ fun part hpart => absurd hpart List.not_mem_nil
    · refine hs.push _ ?_
      cases hliteral : s.literal? pos c rest with
      | some l => exact literal?_inside hliteral
      | none => exact s.plainLexeme_inside c rest pos

theorem Inside.step (pos : Nat) (c : CodeUnit) (rest : Text) : (s.step pos c rest).1.Inside := by
  unfold LexState.step
  split
  · exact hs
  · split
    · exact hs
    · split
      · exact hs
      · split
        · exact hs
        · split
          · exact hs
          · split
            · refine Inside.fill (s := { s with tokens := _, spaced := _, atLineStart := _ }) ?_ _ _ _
              intro token htoken
              rcases Array.mem_push.1 htoken with htoken | rfl
              · exact hs token htoken
              · exact .inr trivial
            · exact Inside.lexeme (s := { s with atLineStart := false }) hs pos c rest

end Steps

theorem Inside.scan {s : LexState} (hs : s.Inside) (pos skip : Nat) (t : Text) :
    (LexState.scan pos skip s t).Inside := by
  induction t generalizing pos skip s with
  | nil =>
    rw [LexState.scan]
    exact hs.fill _ _ _
  | cons c rest ih =>
    cases skip with
    | zero =>
      rw [LexState.scan]
      exact ih (hs.step pos c rest) _ _
    | succ skip =>
      rw [LexState.scan]
      exact ih hs _ _

end LexState

/-- The code in the tokens of a text lies inside the tokens, apart from that of heredocs. -/
theorem lex_inside (text : Text) (base : Nat) :
    ∀ t ∈ (lex text base).tokens, t.isHeredoc = true ∨ t.content.Between t.start t.stop := by
  have hstart : LexState.start.Inside := fun t ht => absurd ht (Array.not_mem_empty t)
  exact fun t ht => hstart.scan base 0 text t (Array.mem_toList_iff.1 ht)

end Cookbook
