import Cookbook.Proofs.Token.Shift
import Mathlib.Data.List.TakeWhile
import Mathlib.Tactic.Common

/-!
Tokens follow one another. Every reader takes at least the unit it stands at, and the scan goes on
right after what was taken, so a token ends by the place where the next one starts. The bodies of
heredocs are filled in later, which changes what a token holds but not where it stands.

* `LexState.literal?_pos` and `LexState.plainLexeme_pos` say that every lexeme takes something;
* `InOrder` is what the scan keeps, `lex_inOrder` the result for a whole text.
-/

namespace Cookbook

/-! ### Every lexeme takes something -/

namespace Lexeme

theorem run_pos {p : CodeUnit → Bool} {c : CodeUnit} (hc : p c = true) (rest : Text) :
    0 < run p (c :: rest) := by
  simp [run, hc]

theorem number_pos {c : CodeUnit} (hc : c.isDigit = true) (rest : Text) :
    0 < (number (c :: rest)).length := by
  have hradix : ∀ {mark : Char} {digit : CodeUnit → Bool} {n : Nat},
      radixLength? mark digit (c :: rest) = some n → 0 < n := by
    intro mark digit n h
    unfold radixLength? at h
    split at h
    · dsimp only at h
      split at h
      · injection h with h
        omega
      · exact absurd h (by simp)
    · exact absurd h (by simp)
  show 0 < Option.getD _ _
  cases h : (radixLength? 'x' CodeUnit.isHexDigit (c :: rest)).or
    (radixLength? 'b' (fun c => c == '0' || c == '1') (c :: rest)) with
  | some n =>
    rcases Option.or_eq_some_iff.1 h with h | ⟨-, h⟩
    · exact hradix h
    · exact hradix h
  | none =>
    have hwhole : 0 < run isDigitUnit (c :: rest) := run_pos (by simp [isDigitUnit, hc]) rest
    rw [Option.getD_none]
    unfold decimalLength
    dsimp only
    omega

theorem word_pos (afterDot : Bool) {c : CodeUnit} (hc : c.isIdentStart = true) (rest : Text) :
    0 < (word afterDot (c :: rest)).length := by
  have hrun : 0 < run CodeUnit.isIdentUnit (c :: rest) :=
    run_pos (by simp [CodeUnit.isIdentUnit, hc]) rest
  have hlength : 0 < wordLength (c :: rest) := by
    unfold wordLength
    dsimp only
    split
    · split <;> omega
    · exact hrun
  unfold word
  dsimp only
  split
  · exact Nat.succ_pos _
  · split
    · exact hlength
    · split <;> exact hlength

theorem sigilName_pos (t : Text) : 0 < (sigilName t).length := by
  show 0 < (if t.tail.head? = some '@' then 2 else 1) + _
  split <;> omega

theorem punct_pos (t : Text) : 0 < (punct t).length := by
  show 0 < Option.getD _ _
  cases h : punctuators.find? fun p => p.isPrefixOf t with
  | none => exact Nat.one_pos
  | some p =>
    have hall : punctuators.all (0 < ·.length) = true := by decide
    simpa using List.all_eq_true.1 hall p (List.mem_of_find?_eq_some h)

theorem symbol?_pos {pos : Nat} {t : Text} {l : Lexeme} (h : symbol? pos t = some l) :
    0 < l.length := by
  unfold symbol? at h
  split at h
  · exact absurd h (by simp)
  · split at h
    · dsimp only at h
      split at h
      · injection h with h
        subst h
        exact Nat.succ_pos _
      · exact absurd h (by simp)
    · split at h
      · injection h with h
        subst h
        exact Nat.succ_pos _
      · exact absurd h (by simp)

theorem regex?_pos {t : Text} {l : Lexeme} (h : regex? t = some l) : 0 < l.length := by
  obtain ⟨n, -, rfl⟩ := Option.map_eq_some_iff.1 h
  show 0 < n + 1 + _
  omega

theorem percentBody?_pos {letter : Option CodeUnit} {pos lead : Nat} {rest : Text} {l : Lexeme}
    (h : percentBody? letter pos lead rest = some l) : 0 < l.length := by
  unfold percentBody? at h
  split at h
  · exact absurd h (by simp)
  · dsimp only at h
    split at h
    · exact absurd h (by simp)
    · split at h
      · exact absurd h (by simp)
      · split at h
        · injection h with h
          subst h
          dsimp only
          omega
        · split at h
          · injection h with h
            subst h
            dsimp only
            omega
          · injection h with h
            subst h
            dsimp only
            omega

theorem percent?_pos {pos : Nat} {t : Text} {l : Lexeme} (h : percent? pos t = some l) :
    0 < l.length := by
  unfold percent? at h
  split at h
  · exact absurd h (by simp)
  · split at h
    · split at h
      · exact percentBody?_pos h
      · exact absurd h (by simp)
    · exact percentBody?_pos h

theorem heredoc?_pos {t : Text} {opener : HeredocOpener} (h : heredoc? t = some opener) :
    0 < opener.length := by
  unfold heredoc? at h
  split at h
  · split at h
    · simp only [Option.ite_none_left_eq_some, Option.some.injEq] at h
      obtain ⟨-, -, -, rfl⟩ := h
      dsimp only
      omega
    · exact absurd h (by simp)
  · exact absurd h (by simp)

end Lexeme

namespace LexState

theorem literal?_pos {s : LexState} {pos : Nat} {c : CodeUnit} {rest : Text} {l : Lexeme}
    (h : s.literal? pos c rest = some l) : 0 < l.length := by
  unfold literal? at h
  split at h
  · exact Lexeme.percent?_pos h
  · split at h
    · exact Lexeme.regex?_pos h
    · split at h
      · exact Lexeme.symbol?_pos h
      · exact absurd h (by simp)

theorem plainLexeme_pos (s : LexState) (c : CodeUnit) (rest : Text) :
    0 < (s.plainLexeme c rest).length := by
  unfold plainLexeme
  split
  · rename_i h
    exact Lexeme.number_pos h rest
  · split
    · exact Lexeme.sigilName_pos _
    · split
      · rename_i h
        exact Lexeme.word_pos _ h rest
      · exact Lexeme.punct_pos _

theorem lexeme_pos (s : LexState) (pos : Nat) (c : CodeUnit) (rest : Text) :
    0 < ((s.literal? pos c rest).getD (s.plainLexeme c rest)).length := by
  cases hliteral : s.literal? pos c rest with
  | some l => exact literal?_pos hliteral
  | none => exact plainLexeme_pos s c rest

end LexState

/-! ### What the scan keeps -/

/-- The tokens take something each, one after another, and end by `pos`. -/
structure InOrder (pos : Nat) (tokens : List Token) : Prop where
  nonempty : ∀ t ∈ tokens, t.start < t.stop
  pairwise : tokens.Pairwise fun t u => t.stop ≤ u.start
  stop : ∀ t ∈ tokens, t.stop ≤ pos

namespace InOrder

variable {pos pos' : Nat} {tokens more : List Token}

theorem mono (h : InOrder pos tokens) (hpos : pos ≤ pos') : InOrder pos' tokens :=
  ⟨h.nonempty, h.pairwise, fun t ht => (h.stop t ht).trans hpos⟩

theorem append_singleton (h : InOrder pos tokens) {t : Token} (hstart : pos ≤ t.start)
    (ht : t.start < t.stop) : InOrder t.stop (tokens ++ [t]) where
  nonempty := by
    intro u hu
    rcases List.mem_append.1 hu with hu | hu
    · exact h.nonempty u hu
    · obtain rfl := List.mem_singleton.1 hu
      exact ht
  pairwise := by
    refine List.pairwise_append.2 ⟨h.pairwise, List.pairwise_singleton _ _, ?_⟩
    intro u hu v hv
    obtain rfl := List.mem_singleton.1 hv
    exact (h.stop u hu).trans hstart
  stop := by
    intro u hu
    rcases List.mem_append.1 hu with hu | hu
    · exact (h.stop u hu).trans (hstart.trans ht.le)
    · obtain rfl := List.mem_singleton.1 hu
      exact le_rfl

theorem of_places (h : InOrder pos tokens)
    (hplaces : more.map (fun t => (t.start, t.stop)) = tokens.map fun t => (t.start, t.stop)) :
    InOrder pos more := by
  have hmem : ∀ t ∈ more, ∃ u ∈ tokens, u.start = t.start ∧ u.stop = t.stop := by
    intro t ht
    have := List.mem_map_of_mem (f := fun t : Token => (t.start, t.stop)) ht
    rw [hplaces] at this
    obtain ⟨u, hu, he⟩ := List.mem_map.1 this
    exact ⟨u, hu, (Prod.mk.inj he).1, (Prod.mk.inj he).2⟩
  refine ⟨?_, ?_, ?_⟩
  · intro t ht
    obtain ⟨u, hu, hstart, hstop⟩ := hmem t ht
    rw [← hstart, ← hstop]
    exact h.nonempty u hu
  · have hpair : (tokens.map fun t => (t.start, t.stop)).Pairwise fun a b => a.2 ≤ b.1 :=
      List.pairwise_map.2 h.pairwise
    rw [← hplaces] at hpair
    exact List.pairwise_map.1 hpair
  · intro t ht
    obtain ⟨u, hu, -, hstop⟩ := hmem t ht
    rw [← hstop]
    exact h.stop u hu

end InOrder

namespace LexState

def InOrder (pos : Nat) (s : LexState) : Prop := Cookbook.InOrder pos s.tokens.toList

theorem places_fill (s : LexState) (pos : Nat) (t : Text) (waiting : List PendingHeredoc) :
    (s.fill pos t waiting).1.tokens.toList.map (fun t => (t.start, t.stop)) =
      s.tokens.toList.map fun t => (t.start, t.stop) := by
  induction waiting generalizing s pos t with
  | nil => rfl
  | cons h more ih =>
    rw [fill_cons]
    dsimp only
    rw [ih]
    refine List.ext_getElem (by simp [fillOne]) fun i _ _ => ?_
    simp only [fillOne, List.getElem_map, Array.getElem_toList, Array.getElem_modify]
    split <;> rfl

section Steps

variable {s : LexState} {pos : Nat} (hs : s.InOrder pos)

include hs

theorem InOrder.push {l : Lexeme} (hl : 0 < l.length) (t : Text) :
    (s.push pos t l).1.InOrder (pos + 1 + (s.push pos t l).2) := by
  have h := Cookbook.InOrder.append_singleton hs
    (t := ⟨l.content, pos, pos + l.length, t.take l.length, s.spaced⟩) le_rfl
    (Nat.lt_add_of_pos_right hl)
  unfold InOrder LexState.push
  rw [Array.toList_push]
  exact h.mono (by dsimp only; omega)

theorem InOrder.fill {pos' : Nat} (t : Text) (waiting : List PendingHeredoc) :
    (s.fill pos' t waiting).1.InOrder pos :=
  Cookbook.InOrder.of_places hs (places_fill s pos' t waiting)

theorem InOrder.lexeme (c : CodeUnit) (rest : Text) :
    (s.lexeme pos c rest).1.InOrder (pos + 1 + (s.lexeme pos c rest).2) := by
  rw [lexeme_eq]
  split
  · unfold LexState.string
    dsimp only
    split
    · exact hs.push (Nat.succ_pos _) _
    · exact InOrder.push (s := { s with problems := _ }) hs (Nat.succ_pos _) _
  · split
    · rename_i opener hopener
      unfold opener? at hopener
      split at hopener
      · exact absurd hopener (by simp)
      · exact InOrder.push (s := { s with pending := _ }) hs (Lexeme.heredoc?_pos hopener) _
    · exact hs.push (s.lexeme_pos pos c rest) _

theorem InOrder.step (c : CodeUnit) (rest : Text) :
    (s.step pos c rest).1.InOrder (pos + 1 + (s.step pos c rest).2) := by
  have hstay : ∀ n, Cookbook.InOrder (pos + 1 + n) s.tokens.toList := fun n => hs.mono (by omega)
  unfold LexState.step
  split
  · exact hstay _
  · split
    · exact hstay _
    · split
      · exact hstay _
      · split
        · exact hstay _
        · split
          · exact hstay _
          · split
            · have h := Cookbook.InOrder.append_singleton hs
                (t := ⟨.newline, pos, pos + 1, "\n", false⟩) le_rfl (Nat.lt_succ_self _)
              rw [← Array.toList_push] at h
              exact (InOrder.fill (s := { s with tokens := _, spaced := _, atLineStart := _ }) h _ _).mono
                (Nat.le_add_right _ _)
            · exact InOrder.lexeme (s := { s with atLineStart := false }) hs c rest

end Steps

/-- A scan keeps the tokens in order; those seen end by the unit it goes on from. -/
theorem InOrder.scan {s : LexState} {pos skip : Nat} (hs : s.InOrder (pos + skip)) (t : Text) :
    ∃ pos', (LexState.scan pos skip s t).InOrder pos' := by
  induction t generalizing pos skip s with
  | nil =>
    rw [LexState.scan]
    exact ⟨_, hs.fill [] _⟩
  | cons c rest ih =>
    cases skip with
    | zero =>
      rw [LexState.scan]
      exact ih (hs.step c rest)
    | succ skip =>
      rw [LexState.scan]
      exact ih (hs.mono (by omega))

end LexState

/-- The tokens of a text take something each and follow one another. -/
theorem lex_inOrder (text : Text) (base : Nat) :
    (∀ t ∈ (lex text base).tokens, t.start < t.stop) ∧
      (lex text base).tokens.Pairwise fun t u => t.stop ≤ u.start := by
  have hstart : LexState.start.InOrder (base + 0) :=
    ⟨fun t ht => absurd ht (by simp [LexState.start]), by simp [LexState.start],
      fun t ht => absurd ht (by simp [LexState.start])⟩
  obtain ⟨pos, h⟩ := hstart.scan text
  exact ⟨h.nonempty, h.pairwise⟩

end Cookbook
