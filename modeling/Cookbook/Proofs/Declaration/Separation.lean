import Cookbook.Proofs.Declaration.Reaching
import Cookbook.Proofs.Position
import Cookbook.Proofs.Statement.Separation
import Cookbook.Proofs.Token.Bounds

/-!
Declarations do not overlap. Extraction goes through the statements in their order and never into the
block of a resource, so the declared commands lie one after another in the file, and nothing that
stands in the block of one of them is declared, whether the block is closed or not.

* `SitesLie` says that the declared commands lie one after another, `sitesLie_list` proves it;
* `statements_and_declarations_apart` is the result for whole files.
-/

namespace Cookbook

/-! ### Declared commands -/

/-- The sites lie between two indices, one after another. -/
structure SitesLie (src : TokenSource) (i j : Nat) (sites : List Site) : Prop where
  lies : ∀ s ∈ sites, s.command.Lies src i j
  pairwise : sites.Pairwise fun s s' => ∃ m, s.command.Lies src i m ∧ s'.command.Lies src m j

namespace SitesLie

variable {src : TokenSource} {i i' j j' m : Nat} {sites more : List Site}

theorem nil : SitesLie src i j [] := ⟨fun _ h => absurd h List.not_mem_nil, .nil⟩

theorem mono (h : SitesLie src i j sites) (hi : i' ≤ i) (hj : j ≤ j') : SitesLie src i' j' sites where
  lies := fun s hs => (h.lies s hs).mono hi hj
  pairwise := by
    refine h.pairwise.imp ?_
    rintro s s' ⟨m, hs, hs'⟩
    exact ⟨m, hs.mono hi le_rfl, hs'.mono le_rfl hj⟩

theorem append (h : SitesLie src i m sites) (hmore : SitesLie src m j more) (him : i ≤ m)
    (hmj : m ≤ j) : SitesLie src i j (sites ++ more) where
  lies := by
    intro s hs
    rcases List.mem_append.1 hs with hs | hs
    · exact (h.lies s hs).mono le_rfl hmj
    · exact (hmore.lies s hs).mono him le_rfl
  pairwise := by
    refine List.pairwise_append.2 ⟨(h.mono le_rfl hmj).pairwise, (hmore.mono him le_rfl).pairwise, ?_⟩
    intro s hs s' hs'
    exact ⟨m, h.lies s hs, hmore.lies s' hs'⟩

/-- Of two sites one lies before the other. -/
theorem before_or_after (h : SitesLie src i j sites) {x y : Site} (hx : x ∈ sites) (hy : y ∈ sites) :
    x = y ∨ (∃ m, x.command.Lies src i m ∧ y.command.Lies src m j) ∨
      ∃ m, y.command.Lies src i m ∧ x.command.Lies src m j :=
  eq_or_rel_of_pairwise h.pairwise hx hy

theorem map {f : Site → Site} (hf : ∀ s, (f s).command = s.command) (h : SitesLie src i j sites) :
    SitesLie src i j (sites.map f) where
  lies := by
    intro s hs
    obtain ⟨s', hs', rfl⟩ := List.mem_map.1 hs
    rw [hf]
    exact h.lies s' hs'
  pairwise := by
    refine List.pairwise_map.2 (h.pairwise.imp ?_)
    intro s s' hm
    rw [hf, hf]
    exact hm

end SitesLie

section Sites

variable (r : RecipeReader) {src : TokenSource}

theorem Command.sitesLie {c : Command} {i j : Nat} (h : c.Lies src i j)
    (hbody : ∀ b, c.block = some b → ∀ {k m}, listLies src k m b.body →
      SitesLie src k m (listSites r 0 b.body)) : SitesLie src i j (c.sites r) := by
  cases ha : RecipeReader.assignedName? c with
  | some name =>
    rw [Command.sites_of_assigned r (by rw [ha]; rfl)]
    exact .nil
  | none =>
    cases hd : r.declared? c with
    | some declared =>
      rw [Command.sites_of_declared r ha (by rw [hd]; rfl)]
      refine ⟨?_, List.pairwise_singleton _ _⟩
      intro s hs
      obtain rfl := List.mem_singleton.1 hs
      exact h
    | none =>
      cases hb : c.block with
      | none =>
        rw [Command.sites_of_rest r ha hd hb]
        exact .nil
      | some b =>
        obtain ⟨hextent, hblock⟩ := Command.lies_iff.1 h
        obtain ⟨k, m, hk, hm, hlies⟩ := (Block.lies_iff.1 (hblock b hb)).inside
        rw [Command.sites_of_block r ha hd hb]
        exact (hbody b hb hlies).mono (by have := hextent.lower; omega) hm

mutual

theorem Statement.sitesLie : ∀ (s : Statement) {i j : Nat}, s.Lies src i j →
    SitesLie src i j (s.sites r)
  | .command ⟨extent, head, none, inner, modifier⟩, i, j, h => by
    rw [Statement.sites]
    exact Command.sitesLie r h fun _ hb => absurd hb (by simp)
  | .command ⟨extent, head, some ⟨kind, opener, closer, params, body⟩, inner, modifier⟩, i, j, h => by
    rw [Statement.sites]
    exact Command.sitesLie r h fun b hb => Option.some.inj hb ▸ sitesLie_list body 0
  | .conditional ⟨extent, word, subject, branches, opener, closer⟩, i, j, h => by
    obtain ⟨hextent, hinside⟩ := Statement.lies_conditional.1 h
    obtain ⟨k, m, hk, hm, hlies⟩ := hinside.inside
    rw [Statement.sites]
    exact (sitesLie_branches branches 0 hlies).mono
      (by have := hextent.lower; dsimp only at hk this; omega) hm
  | .compound ⟨extent, head, body, opener, closer⟩, i, j, h => by
    obtain ⟨hextent, hinside⟩ := Statement.lies_compound.1 h
    obtain ⟨k, m, hk, hm, hlies⟩ := hinside.inside
    rw [Statement.sites]
    split
    · exact (sitesLie_list body 0 hlies).mono
        (by have := hextent.lower; dsimp only at hk this; omega) hm
    · exact .nil

theorem sitesLie_list : ∀ (body : List Statement) (n : Nat) {i j : Nat}, listLies src i j body →
    SitesLie src i j (listSites r n body)
  | [], _, _, _, _ => by
    rw [listSites]
    exact .nil
  | s :: rest, n, i, j, h => by
    obtain ⟨m, hs, hrest⟩ := h
    rw [listSites]
    exact ((Statement.sitesLie s hs).map (f := Site.under n) fun _ => rfl).append
      (sitesLie_list rest (n + 1) hrest) (hs.extent.lower.trans hs.extent.upper.le) hrest.le

theorem sitesLie_branches : ∀ (branches : List Branch) (n : Nat) {i j : Nat},
    branchesLie src i j branches → SitesLie src i j (branchSites r n branches)
  | [], _, _, _, _ => by
    rw [branchSites]
    exact .nil
  | ⟨_, _, body, _⟩ :: rest, n, i, j, h => by
    obtain ⟨m, hbody, hrest⟩ := branchesLie_cons.1 h
    rw [branchSites]
    exact ((sitesLie_list body 0 hbody).map (f := Site.under n) fun _ => rfl).append
      (sitesLie_branches rest (n + 1) hrest) hbody.le hrest.le

end

end Sites

/-! ### Whole files -/

theorem Extent.Lies.start_lt {text : Text} {i j : Nat} {e : Extent}
    (h : e.Lies (TokenSource.ofText text) i j) : e.start < text.length := by
  obtain ⟨t, ht, hstart⟩ := h.first
  have hmem := List.mem_of_getElem? ht
  have hlt := (TokenSource.inOrder_ofText text).nonempty t hmem
  have hstop := (lex_between text 0 t hmem).stop
  omega

/-- No declared command starts where a statement in the block of one does. -/
theorem SitesLie.start_ne_nested {src : TokenSource} (hsrc : src.InOrder) {i j : Nat}
    {sites : List Site} (h : SitesLie src i j sites) {x y : Site} (hx : x ∈ sites) (hy : y ∈ sites)
    {b : Block} (hb : x.command.block = some b) {body : List Statement} (hin : ListIn body b.body)
    {s : Statement} (hs : s ∈ body) : y.command.extent.start ≠ s.extent.start := by
  have hnested := (h.lies x hx).nested hb hin hs
  have hafter := (Command.lies_iff.1 (h.lies x hx)).1.start_lt_nested hsrc hnested
  rcases h.before_or_after hx hy with rfl | ⟨m, hxm, hym⟩ | ⟨m, hym, hxm⟩
  · exact hafter.ne
  · have hle := (hxm.nested hb hin hs).stop_le_start (Command.lies_iff.1 hym).1
    exact (hnested.nonempty.trans_le hle).ne'
  · have hle := (Command.lies_iff.1 hym).1.stop_le_start (Command.lies_iff.1 hxm).1
    have hpos := (Command.lies_iff.1 hym).1.nonempty
    omega

section File

variable (source text : Text) (knownTypes : List Text) (constants : Bindings Value)

/-- The declarations of a file are those of its declared commands, in order. -/
theorem extractDeclarations_forall₂_sites :
    let p := Program.ofText text
    let r : RecipeReader := ⟨source, p, knownTypes⟩
    List.Forall₂
      (fun d s =>
        d.span = p.spanOf s.command.extent ∧ ∃ name, r.declared? s.command = some (d.type, name))
      (extractDeclarations source text knownTypes constants).declarations
      (listSites r 0 p.statements) := by
  intro p r
  -- which tests hold decides who is reached, not who is declared
  obtain ⟨more, hmore, hall⟩ := declares_list r (fun _ => true) p.statements
    (Program.wellBranched_ofText text) 0 ⟨[], false⟩
    ⟨constants, [], p.problems.map (Diagnostic.ofProblem source p.lines)⟩
  have heq : (extractDeclarations source text knownTypes constants).declarations = more := hmore
  rw [heq]
  exact hall.imp fun d s h => ⟨h.span, h.type⟩

theorem Program.offset_start_spanOf (e : Extent) :
    ((Program.ofText text).spanOf e).start.offset = min e.start text.length :=
  LineIndex.offset_position _ _

theorem Program.offset_stop_spanOf (e : Extent) :
    ((Program.ofText text).spanOf e).stop.offset = min e.stop text.length :=
  LineIndex.offset_position _ _

end File

/-- In every list of statements of a file the statements start at growing tokens, take something and
do not overlap, and those of a closed block lie between its opener and its closer. So the declarations
of the file are apart and in order: each is that of a command of its own, and no statement that
stands in the block of such a command, at any depth, is declared. -/
theorem statements_and_declarations_apart (source text : Text) (knownTypes : List Text)
    (constants : Bindings Value) :
    let p := Program.ofText text
    let r : RecipeReader := ⟨source, p, knownTypes⟩
    let sites := listSites r 0 p.statements
    let declarations := (extractDeclarations source text knownTypes constants).declarations
    (∀ body, ListIn body p.statements →
      Separated body ∧ ∀ c, Statement.command c ∈ body → ∀ b, c.block = some b → b.Holds) ∧
    (declarations.Pairwise fun d d' => d.span.stop.offset ≤ d'.span.start.offset) ∧
    (∀ d ∈ declarations, d.span.start.offset < d.span.stop.offset) ∧
    List.Forall₂
      (fun d s =>
        d.span = p.spanOf s.command.extent ∧ ∃ name, r.declared? s.command = some (d.type, name))
      declarations sites ∧
    ∀ x ∈ sites, ∀ b, x.command.block = some b → ∀ body, ListIn body b.body → ∀ s ∈ body,
      ∀ d ∈ declarations, d.span ≠ p.spanOf s.extent := by
  intro p r sites declarations
  have hsrc := TokenSource.inOrder_ofText text
  obtain ⟨j, hlies⟩ := Program.listLies_ofText text
  have hsites : SitesLie (TokenSource.ofText text) 0 j sites := sitesLie_list r p.statements 0 hlies
  have hdeclared := extractDeclarations_forall₂_sites source text knownTypes constants
  have hspans : declarations.map Declaration.span = sites.map fun s => p.spanOf s.command.extent := by
    rw [← List.forall₂_eq_eq_eq, List.forall₂_map_left_iff, List.forall₂_map_right_iff]
    exact hdeclared.imp fun d s h => h.1
  have hsite : ∀ d ∈ declarations, ∃ s ∈ sites, d.span = p.spanOf s.command.extent := by
    intro d hd
    have hmem := List.mem_map_of_mem (f := Declaration.span) hd
    rw [hspans] at hmem
    obtain ⟨s, hs, he⟩ := List.mem_map.1 hmem
    exact ⟨s, hs, he.symm⟩
  -- the declarations are those of the sites, and the sites are commands that lie one after another
  refine ⟨?_, ?_, ?_, hdeclared, ?_⟩
  · intro body hin
    have hbody := hlies.of_listIn hin
    refine ⟨hbody.separated, ?_⟩
    intro c hc b hb
    exact ((Command.lies_iff.1 (hbody.mem hc)).2 b hb).holds hsrc
  · have hpair : (sites.map fun s => p.spanOf s.command.extent).Pairwise
        fun a b => a.stop.offset ≤ b.start.offset := by
      refine List.pairwise_map.2 (hsites.pairwise.imp ?_)
      rintro s s' ⟨m, hs, hs'⟩
      have := (Command.lies_iff.1 hs).1.stop_le_start (Command.lies_iff.1 hs').1
      rw [Program.offset_start_spanOf, Program.offset_stop_spanOf]
      omega
    rw [← hspans] at hpair
    exact List.pairwise_map.1 hpair
  · intro d hd
    obtain ⟨s, hs, he⟩ := hsite d hd
    have hextent := (Command.lies_iff.1 (hsites.lies s hs)).1
    have := hextent.nonempty
    have := hextent.start_lt
    rw [he, Program.offset_start_spanOf, Program.offset_stop_spanOf]
    omega
  · intro x hx b hb body hin s hs d hd heq
    obtain ⟨y, hy, he⟩ := hsite d hd
    -- no declared command starts where a statement in the block of one does
    refine hsites.start_ne_nested hsrc hx hy hb hin hs ?_
    have hoffsets := congrArg (·.start.offset) (he.symm.trans heq)
    simp only [p, Program.offset_start_spanOf] at hoffsets
    have := (Command.lies_iff.1 (hsites.lies y hy)).1.start_lt
    have := ((hsites.lies x hx).nested hb hin hs).start_lt
    omega

end Cookbook
