import Cookbook.Proofs.Attribute.Paths
import Cookbook.Proofs.FirstSeen
import Cookbook.Proofs.Value.Reporting
import Mathlib.Data.List.Induction
import Mathlib.Data.List.Nodup
import Mathlib.Data.Prod.Lex

/-!
The values in effect. Of the leaves that assignments give to one path, the one of the highest rank is
in effect, of equal ranks the one with the highest order, and of equal orders the last. The holders
are kept under the text of their path, and the path of no key shares its text with the path of one
empty key, so of these two paths only one can have a value.

* `Candidate.Prevails` says which candidate for a path is in effect;
* `Candidate.Held.contend` is what one more candidate changes, `Candidate.held_foldl` what holds after
  all of them;
* `mem_effectiveAttributes` and `effectiveAttributes_ids` are about the attributes in effect by the
  texts of their paths, `effectiveAttributes_perm` says that their values do not hang on the order of
  the assignments;
* `effectiveAttributes_prevail_iff` says when the paths themselves are told apart.
-/

namespace Cookbook

/-! ### Entries of bindings -/

namespace Bindings

variable {α : Type} {b : Bindings α} {name : Text}

theorem get?_eq_none_iff : b.get? name = none ↔ ∀ entry ∈ b.entries, entry.1 ≠ name := by
  unfold get?
  induction b.entries with
  | nil => simp
  | cons pair rest ih =>
    obtain ⟨k, v⟩ := pair
    by_cases hk : k = name
    · simp [lookup?, hk]
    · simp [lookup?, hk, ih]

theorem entries_set_of_get? {old : α} (h : b.get? name = some old) (value : α) :
    (b.set name value).entries = replaceValue name value b.entries := by
  unfold set contains
  rw [h]
  rfl

theorem entries_set_of_none (h : b.get? name = none) (value : α) :
    (b.set name value).entries = b.entries ++ [(name, value)] := by
  unfold set contains
  rw [h]
  rfl

end Bindings

namespace Candidate

/-! ### Greatest candidates -/

/-- What decides between the candidates for a path: the rank of the level, then the order. -/
def weight (c : Candidate) : ℕ ×ₗ ℤ := toLex (c.assignment.precedence.rank, c.order)

/-- The candidate is the greatest of those in a list with its key, and the last of the greatest. -/
def Prevails {β : Type} (key : Candidate → β) (c : Candidate) (cs : List Candidate) : Prop :=
  ∃ before after, cs = before ++ c :: after ∧
    (∀ d ∈ before, key d = key c → d.weight ≤ c.weight) ∧
    ∀ d ∈ after, key d = key c → d.weight < c.weight

theorem beats_iff (c holder : Candidate) : c.beats holder = true ↔ holder.weight ≤ c.weight := by
  unfold beats weight
  rw [Prod.Lex.toLex_le_toLex]
  dsimp only
  by_cases hrank : c.assignment.precedence.rank = holder.assignment.precedence.rank
  · simp [hrank]
  · rw [if_pos hrank, decide_eq_true_eq]
    exact ⟨.inl, fun h => h.resolve_right fun heq => hrank heq.1.symm⟩

section Prevails

variable {β : Type} {key : Candidate → β} {c d : Candidate} {cs xs ys : List Candidate}

theorem Prevails.mem (h : c.Prevails key cs) : c ∈ cs := by
  obtain ⟨before, after, rfl, -⟩ := h
  exact List.mem_append_right _ List.mem_cons_self

theorem Prevails.le (h : c.Prevails key cs) (hd : d ∈ cs) (hkey : key d = key c) :
    d.weight ≤ c.weight := by
  obtain ⟨before, after, rfl, hbefore, hafter⟩ := h
  rcases List.mem_append.1 hd with hd | hd
  · exact hbefore d hd hkey
  · rcases List.mem_cons.1 hd with rfl | hd
    · exact le_rfl
    · exact (hafter d hd hkey).le

theorem prevails_singleton : c.Prevails key [d] ↔ c = d := by
  constructor
  · intro h
    exact List.mem_singleton.1 h.mem
  · rintro rfl
    exact ⟨[], [], rfl, by simp, by simp⟩

/-- A candidate prevails in two lists, one after the other, when it prevails in one of them and in the
other nothing is greater; later candidates must not even be as great. -/
theorem prevails_append : c.Prevails key (xs ++ ys) ↔
    (c.Prevails key xs ∧ ∀ d ∈ ys, key d = key c → d.weight < c.weight) ∨
    ((∀ d ∈ xs, key d = key c → d.weight ≤ c.weight) ∧ c.Prevails key ys) := by
  constructor
  · rintro ⟨before, after, hsplit, hbefore, hafter⟩
    rcases List.append_eq_append_iff.1 hsplit with ⟨more, rfl, rfl⟩ | ⟨more, rfl, hrest⟩
    · rw [List.forall_mem_append] at hbefore
      exact .inr ⟨hbefore.1, more, after, rfl, hbefore.2, hafter⟩
    · cases more with
      | nil =>
        rw [List.append_nil]
        exact .inr ⟨hbefore, [], after, hrest.symm, by simp, hafter⟩
      | cons first more =>
        obtain ⟨rfl, hafter'⟩ := List.cons.inj hrest
        rw [hafter', List.append_eq, List.forall_mem_append] at hafter
        exact .inl ⟨⟨before, more, rfl, hbefore, hafter.1⟩, hafter.2⟩
  · rintro (⟨⟨before, after, rfl, hbefore, hafter⟩, hys⟩ | ⟨hxs, before, after, rfl, hbefore, hafter⟩)
    · exact ⟨before, after ++ ys, by simp, hbefore, List.forall_mem_append.2 ⟨hafter, hys⟩⟩
    · exact ⟨xs ++ before, after, by simp, List.forall_mem_append.2 ⟨hxs, hbefore⟩, hafter⟩

/-- One candidate of a key prevails at most. -/
theorem Prevails.unique (h : c.Prevails key cs) (hd : d.Prevails key cs) (hkey : key d = key c) :
    d = c := by
  obtain ⟨before, after, rfl, hbefore, hafter⟩ := h
  rcases prevails_append.1 hd with ⟨hd, hless⟩ | ⟨-, hd⟩
  · exact absurd (hless c List.mem_cons_self hkey.symm) (hbefore d hd.mem hkey).not_gt
  · rw [← List.singleton_append] at hd
    rcases prevails_append.1 hd with ⟨hd, -⟩ | ⟨hle, hd⟩
    · exact prevails_singleton.1 hd
    · exact absurd (hafter d hd.mem hkey) (hle c List.mem_cons_self hkey.symm).not_gt

end Prevails

/-! ### Holders -/

/-- The text under which a candidate is held. -/
def id (c : Candidate) : Text := keyPathId c.keyPath

/-- The key tells candidates of the list apart just as the texts of their paths do. -/
def Agree {β : Type} (key : Candidate → β) (cs : List Candidate) : Prop :=
  ∀ c ∈ cs, ∀ d ∈ cs, c.id = d.id ↔ key c = key d

/-- What the holders are after some candidates: one for each key, in the order in which the keys first
occur, and the one that prevails. -/
structure Held {β : Type} [BEq β] (key : Candidate → β) (holders : Bindings Candidate)
    (cs : List Candidate) : Prop where
  named : ∀ entry ∈ holders.entries, entry.1 = entry.2.id
  order : holders.entries.map (fun entry => key entry.2) = (cs.map key).eraseDups
  prevails : ∀ entry ∈ holders.entries, entry.2.Prevails key cs

theorem contend_of_none {holders : Bindings Candidate} {c : Candidate} (h : holders.get? c.id = none) :
    contend holders c = holders.set c.id c := by
  unfold id at h
  simp only [contend, h, id]

theorem contend_of_some {holders : Bindings Candidate} {c holder : Candidate}
    (h : holders.get? c.id = some holder) :
    contend holders c = if c.beats holder then holders.set c.id c else holders := by
  unfold id at h
  simp only [contend, h, id]

section Held

variable {β : Type} [BEq β] [LawfulBEq β] {key : Candidate → β} {holders : Bindings Candidate}
  {cs : List Candidate} {c holder : Candidate}

omit [LawfulBEq β] in
/-- The candidate that is held under the text of another has its key. -/
theorem Held.key_eq (h : Held key holders cs) (hagree : Agree key (cs ++ [c]))
    {entry : Text × Candidate} (hentry : entry ∈ holders.entries) (hname : entry.1 = c.id) :
    key entry.2 = key c :=
  (hagree _ (List.mem_append_left _ (h.prevails entry hentry).mem) c (by simp)).1
    ((h.named entry hentry).symm.trans hname)

/-- A candidate whose text nothing is held under is the first of its key. -/
theorem Held.fresh (h : Held key holders cs) (hagree : Agree key (cs ++ [c]))
    (hnone : holders.get? c.id = none) : ∀ d ∈ cs, key d ≠ key c := by
  intro d hd hkey
  have hmem : key d ∈ holders.entries.map fun entry => key entry.2 := by
    rw [h.order, List.mem_eraseDups]
    exact List.mem_map_of_mem hd
  obtain ⟨entry, hentry, hentryKey⟩ := List.mem_map.1 hmem
  have hid := (hagree _ (List.mem_append_left _ (h.prevails entry hentry).mem) c (by simp)).2
    (hentryKey.trans hkey)
  exact Bindings.get?_eq_none_iff.1 hnone entry hentry ((h.named entry hentry).trans hid)

theorem Held.add (h : Held key holders cs) (hagree : Agree key (cs ++ [c]))
    (hnone : holders.get? c.id = none) : Held key (holders.set c.id c) (cs ++ [c]) := by
  have hfresh := h.fresh hagree hnone
  have hentries := Bindings.entries_set_of_none hnone c
  refine ⟨?_, ?_, ?_⟩
  · rw [hentries, List.forall_mem_append]
    exact ⟨h.named, by simp⟩
  · have hnew : key c ∉ cs.map key := by
      intro hmem
      obtain ⟨d, hd, hkey⟩ := List.mem_map.1 hmem
      exact hfresh d hd hkey
    rw [hentries, List.map_append, h.order, List.map_append]
    exact (eraseDups_concat_of_not_mem hnew).symm
  · rw [hentries, List.forall_mem_append]
    constructor
    · intro entry hentry
      have hne : key c ≠ key entry.2 := (hfresh _ (h.prevails entry hentry).mem).symm
      refine prevails_append.2 (.inl ⟨h.prevails entry hentry, ?_⟩)
      intro d hd hkey
      rw [List.mem_singleton.1 hd] at hkey
      exact absurd hkey hne
    · intro entry hentry
      rw [List.mem_singleton.1 hentry]
      exact prevails_append.2 (.inr ⟨fun d hd hkey => absurd hkey (hfresh d hd),
        prevails_singleton.2 rfl⟩)

/-- The keys with one more candidate of a key that is there already. -/
theorem Held.order_concat (h : Held key holders cs) (hagree : Agree key (cs ++ [c]))
    (hholder : holders.get? c.id = some holder) :
    ((cs ++ [c]).map key).eraseDups = holders.entries.map fun entry => key entry.2 := by
  have hmem := Bindings.mem_of_get? hholder
  have hold : key c ∈ cs.map key := by
    rw [← h.key_eq hagree hmem rfl]
    exact List.mem_map_of_mem (h.prevails _ hmem).mem
  rw [h.order, List.map_append]
  exact eraseDups_concat_of_mem hold

/-- A new candidate that is as great as the one of its key takes its place. -/
theorem Held.replace (h : Held key holders cs) (hagree : Agree key (cs ++ [c]))
    (hholder : holders.get? c.id = some holder) (hle : holder.weight ≤ c.weight) :
    Held key (holders.set c.id c) (cs ++ [c]) := by
  have hentries := Bindings.entries_set_of_get? hholder c
  have hmem := Bindings.mem_of_get? hholder
  have hkey : key holder = key c := h.key_eq hagree hmem rfl
  -- an entry is either the new one or an old one under another text
  have hcases : ∀ entry ∈ (holders.set c.id c).entries,
      entry = (c.id, c) ∨ (entry ∈ holders.entries ∧ entry.1 ≠ c.id) := by
    intro entry hentry
    rw [hentries] at hentry
    obtain ⟨old, hold, rfl⟩ := List.mem_map.1 hentry
    by_cases hname : old.1 = c.id
    · left
      simp [hname]
    · right
      simpa [hname] using hold
  refine ⟨?_, ?_, ?_⟩
  · intro entry hentry
    rcases hcases entry hentry with rfl | ⟨hold, -⟩
    · rfl
    · exact h.named entry hold
  · rw [h.order_concat hagree hholder, hentries, replaceValue, List.map_map]
    apply List.map_congr_left
    intro entry hentry
    by_cases hname : entry.1 = c.id
    · simpa [hname] using (h.key_eq hagree hentry hname).symm
    · simp [hname]
  · intro entry hentry
    rcases hcases entry hentry with rfl | ⟨hold, hname⟩
    · refine prevails_append.2 (.inr ⟨?_, prevails_singleton.2 rfl⟩)
      intro d hd hd'
      exact ((h.prevails _ hmem).le hd (hd'.trans hkey.symm)).trans hle
    · have hprevails := h.prevails entry hold
      refine prevails_append.2 (.inl ⟨hprevails, ?_⟩)
      intro d hd hd'
      rw [List.mem_singleton.1 hd] at hd'
      have hid := (hagree c (by simp) entry.2 (List.mem_append_left _ hprevails.mem)).2 hd'
      exact absurd ((h.named entry hold).trans hid.symm) hname

/-- A new candidate that is less than the one of its key changes nothing. -/
theorem Held.keep (h : Held key holders cs) (hagree : Agree key (cs ++ [c]))
    (hholder : holders.get? c.id = some holder) (hlt : c.weight < holder.weight) :
    Held key holders (cs ++ [c]) := by
  have hmem := Bindings.mem_of_get? hholder
  have hkey : key holder = key c := h.key_eq hagree hmem rfl
  refine ⟨h.named, (h.order_concat hagree hholder).symm, ?_⟩
  intro entry hentry
  have hprevails := h.prevails entry hentry
  refine prevails_append.2 (.inl ⟨hprevails, ?_⟩)
  intro d hd hd'
  rw [List.mem_singleton.1 hd] at hd' ⊢
  have hsame : holder = entry.2 := hprevails.unique (h.prevails _ hmem) (hkey.trans hd')
  exact hsame ▸ hlt

theorem Held.contend (h : Held key holders cs) (hagree : Agree key (cs ++ [c])) :
    Held key (Candidate.contend holders c) (cs ++ [c]) := by
  cases hholder : holders.get? c.id with
  | none =>
    rw [contend_of_none hholder]
    exact h.add hagree hholder
  | some holder =>
    rw [contend_of_some hholder]
    split
    · rename_i hbeats
      exact h.replace hagree hholder ((beats_iff c holder).1 hbeats)
    · rename_i hbeats
      exact h.keep hagree hholder (not_le.1 fun hle => hbeats ((beats_iff c holder).2 hle))

theorem held_foldl (hagree : Agree key cs) :
    Held key (cs.foldl Candidate.contend .empty) cs := by
  induction cs using List.reverseRecOn with
  | nil => exact ⟨by simp [Bindings.empty], rfl, by simp [Bindings.empty]⟩
  | append_singleton cs c ih =>
    rw [List.foldl_append, List.foldl_cons, List.foldl_nil]
    refine Held.contend (ih ?_) hagree
    exact fun a ha b hb => hagree a (List.mem_append_left _ ha) b (List.mem_append_left _ hb)

end Held

end Candidate

/-! ### Attributes in effect -/

def candidatesOf (assignments : List Assignment) : List Candidate :=
  assignments.zipIdx.flatMap fun (a, place) => Candidate.ofAssignment a place

def holdersOf (assignments : List Assignment) : Bindings Candidate :=
  (candidatesOf assignments).foldl Candidate.contend .empty

theorem effectiveAttributes_eq (assignments : List Assignment) :
    effectiveAttributes assignments = (holdersOf assignments).entries.map fun entry => entry.2.effective :=
  rfl

/-- By the texts of their paths, the holders are what they should be for all assignments. -/
theorem held_id (assignments : List Assignment) :
    Candidate.Held Candidate.id (holdersOf assignments) (candidatesOf assignments) :=
  Candidate.held_foldl fun _ _ _ _ => Iff.rfl

theorem effectiveAttributes_ids (assignments : List Assignment) :
    (effectiveAttributes assignments).map (fun e => keyPathId e.keyPath) =
      ((candidatesOf assignments).map Candidate.id).eraseDups := by
  rw [effectiveAttributes_eq, List.map_map]
  exact (held_id assignments).order

theorem nodup_effectiveAttributes_ids (assignments : List Assignment) :
    ((effectiveAttributes assignments).map fun e => keyPathId e.keyPath).Nodup := by
  rw [effectiveAttributes_ids]
  exact nodup_eraseDups _

/-- An attribute is in effect when a candidate gives it that prevails among those of its text. -/
theorem mem_effectiveAttributes {assignments : List Assignment} {e : EffectiveAttribute} :
    e ∈ effectiveAttributes assignments ↔
      ∃ c : Candidate, c.Prevails Candidate.id (candidatesOf assignments) ∧ c.effective = e := by
  have held := held_id assignments
  rw [effectiveAttributes_eq, List.mem_map]
  constructor
  · rintro ⟨entry, hentry, rfl⟩
    exact ⟨entry.2, held.prevails entry hentry, rfl⟩
  · rintro ⟨c, hc, rfl⟩
    have hmem : c.id ∈ (holdersOf assignments).entries.map fun entry => entry.2.id := by
      rw [held.order, List.mem_eraseDups]
      exact List.mem_map_of_mem hc.mem
    obtain ⟨entry, hentry, hid⟩ := List.mem_map.1 hmem
    refine ⟨entry, hentry, ?_⟩
    rw [hc.unique (held.prevails entry hentry) hid]

/-! ### The order of assignments -/

/-- Two assignments with indexes of their own never tie. -/
theorem Candidate.weight_ne {a b : Assignment} (ha : a.index.isSome) (hb : b.index.isSome)
    (hne : a.index ≠ b.index) {place place' : Nat} {c d : Candidate}
    (hc : c ∈ Candidate.ofAssignment a place) (hd : d ∈ Candidate.ofAssignment b place') :
    c.weight ≠ d.weight := by
  obtain ⟨i, hi⟩ := Option.isSome_iff_exists.1 ha
  obtain ⟨j, hj⟩ := Option.isSome_iff_exists.1 hb
  obtain ⟨leaf, -, rfl⟩ := List.mem_map.1 hc
  obtain ⟨leaf', -, rfl⟩ := List.mem_map.1 hd
  intro heq
  have horder := congrArg (fun w => (ofLex w).2) heq
  simp only [weight, hi, hj, ofLex_toLex, Option.getD_some] at horder
  exact hne (by rw [hi, hj, horder])

theorem candidatesOf_of_indexed {assignments : List Assignment}
    (h : ∀ a ∈ assignments, a.index.isSome) :
    candidatesOf assignments = assignments.flatMap (Candidate.ofAssignment · 0) := by
  have hplace : candidatesOf assignments =
      assignments.zipIdx.flatMap fun pair => Candidate.ofAssignment pair.1 0 := by
    apply List.flatMap_congr
    intro pair hpair
    obtain ⟨i, hi⟩ := Option.isSome_iff_exists.1 (h pair.1 (List.fst_mem_of_mem_zipIdx hpair))
    simp [Candidate.ofAssignment, hi]
  rw [hplace, ← List.flatMap_map Prod.fst (Candidate.ofAssignment · 0), List.zipIdx_map_fst]

/-- Two lists without ties between them can change places. -/
theorem Candidate.Prevails.swap {β : Type} {key : Candidate → β} {c : Candidate}
    {xs ys rest : List Candidate} (hties : ∀ x ∈ xs, ∀ y ∈ ys, x.weight ≠ y.weight)
    (h : c.Prevails key (xs ++ (ys ++ rest))) : c.Prevails key (ys ++ (xs ++ rest)) := by
  rcases prevails_append.1 h with ⟨hxs, hless⟩ | ⟨hxs, h⟩
  · rw [List.forall_mem_append] at hless
    exact prevails_append.2 (.inr ⟨fun d hd hkey => (hless.1 d hd hkey).le,
      prevails_append.2 (.inl ⟨hxs, hless.2⟩)⟩)
  · rcases prevails_append.1 h with ⟨hys, hrest⟩ | ⟨hys, hrest⟩
    · refine prevails_append.2 (.inl ⟨hys, List.forall_mem_append.2 ⟨?_, hrest⟩⟩)
      intro d hd hkey
      exact lt_of_le_of_ne (hxs d hd hkey) (hties d hd c hys.mem)
    · exact prevails_append.2 (.inr ⟨hys, prevails_append.2 (.inr ⟨hxs, hrest⟩)⟩)

/-- What prevails does not hang on the order of assignments that have indexes of their own. -/
theorem Candidate.prevails_perm {β : Type} {key : Candidate → β} {as bs : List Assignment}
    (hperm : as.Perm bs) (hindexed : ∀ a ∈ as, a.index.isSome)
    (hnodup : (as.map Assignment.index).Nodup) (c : Candidate) :
    c.Prevails key (as.flatMap (Candidate.ofAssignment · 0)) ↔
      c.Prevails key (bs.flatMap (Candidate.ofAssignment · 0)) := by
  induction hperm with
  | nil => exact Iff.rfl
  | cons a hperm ih =>
    rw [List.forall_mem_cons] at hindexed
    have ih := ih hindexed.2 (List.nodup_cons.1 hnodup).2
    have hmem := fun d => (hperm.flatMap_right (Candidate.ofAssignment · 0)).mem_iff (a := d)
    simp only [List.flatMap_cons, prevails_append, ih, hmem]
  | swap a b rest =>
    rw [List.forall_mem_cons, List.forall_mem_cons] at hindexed
    have hne : b.index ≠ a.index := by
      intro heq
      simp [heq] at hnodup
    have hties : ∀ x ∈ ofAssignment b 0, ∀ y ∈ ofAssignment a 0, x.weight ≠ y.weight :=
      fun x hx y hy => weight_ne hindexed.1 hindexed.2.1 hne hx hy
    simp only [List.flatMap_cons]
    exact ⟨fun h => h.swap hties, fun h => h.swap fun x hx y hy => (hties y hy x hx).symm⟩
  | trans hab hbc ihab ihbc =>
    rw [ihab hindexed hnodup]
    exact ihbc (fun a ha => hindexed a (hab.mem_iff.2 ha)) ((hab.map _).nodup_iff.1 hnodup)

/-- With indexes of their own, assignments in another order put the same values in effect. -/
theorem effectiveAttributes_perm {as bs : List Assignment} (hperm : as.Perm bs)
    (hindexed : ∀ a ∈ as, a.index.isSome) (hnodup : (as.map Assignment.index).Nodup) :
    (effectiveAttributes as).Perm (effectiveAttributes bs) := by
  have hnodup_as := List.Nodup.of_map _ (nodup_effectiveAttributes_ids as)
  have hnodup_bs := List.Nodup.of_map _ (nodup_effectiveAttributes_ids bs)
  rw [List.perm_ext_iff_of_nodup hnodup_as hnodup_bs]
  intro e
  have hindexed' : ∀ b ∈ bs, b.index.isSome := fun b hb => hindexed b (hperm.mem_iff.2 hb)
  simp only [mem_effectiveAttributes, candidatesOf_of_indexed hindexed,
    candidatesOf_of_indexed hindexed', Candidate.prevails_perm hperm hindexed hnodup]

/-! ### Paths told apart -/

/-- The paths that assignments give a value to, each time they do. -/
def leafPathsOf (assignments : List Assignment) : List KeyPath :=
  (candidatesOf assignments).map Candidate.keyPath

/-- For every path that is given a value one attribute is in effect, in the order in which the paths
first occur, and it is the one that prevails. -/
def OnePerPath (assignments : List Assignment) : Prop :=
  (effectiveAttributes assignments).map EffectiveAttribute.keyPath = (leafPathsOf assignments).eraseDups ∧
    ∀ e ∈ effectiveAttributes assignments, ∃ c : Candidate,
      c.Prevails Candidate.keyPath (candidatesOf assignments) ∧ c.effective = e

theorem onePerPath_of_agree {assignments : List Assignment}
    (h : Candidate.Agree Candidate.keyPath (candidatesOf assignments)) : OnePerPath assignments := by
  have held : Candidate.Held Candidate.keyPath (holdersOf assignments) (candidatesOf assignments) :=
    Candidate.held_foldl h
  constructor
  · rw [effectiveAttributes_eq, List.map_map]
    exact held.order
  · intro e he
    rw [effectiveAttributes_eq] at he
    obtain ⟨entry, hentry, rfl⟩ := List.mem_map.1 he
    exact ⟨entry.2, held.prevails entry hentry, rfl⟩

/-- Where keys are free of the unit that stands between them, each path that is given a value has the
value that prevails, unless both the path of no key and the path of one empty key are given values:
these two have one text, and only one of them stays. With indexes of their own, assignments in another
order put the same values in effect. -/
theorem effectiveAttributes_prevail_iff (assignments : List Assignment)
    (hkeys : ∀ path ∈ leafPathsOf assignments, path.NulFree) :
    (OnePerPath assignments ↔
      ¬([] ∈ leafPathsOf assignments ∧ [[]] ∈ leafPathsOf assignments)) ∧
    ∀ reordered : List Assignment, assignments.Perm reordered →
      (∀ a ∈ assignments, a.index.isSome) → (assignments.map Assignment.index).Nodup →
      (effectiveAttributes assignments).Perm (effectiveAttributes reordered) := by
  refine ⟨⟨?_, ?_⟩, fun reordered hperm hindexed hnodup => effectiveAttributes_perm hperm hindexed hnodup⟩
  · rintro ⟨hpaths, -⟩ ⟨hnone, hempty⟩
    have hids : ((leafPathsOf assignments).eraseDups.map keyPathId).Nodup := by
      rw [← hpaths, List.map_map]
      exact nodup_effectiveAttributes_ids assignments
    have hsame := List.inj_on_of_nodup_map hids (List.mem_eraseDups.2 hnone)
      (List.mem_eraseDups.2 hempty) rfl
    exact absurd hsame (List.cons_ne_nil _ _).symm
  · intro hboth
    apply onePerPath_of_agree
    intro c hc d hd
    have hcPath : c.keyPath ∈ leafPathsOf assignments := List.mem_map_of_mem hc
    have hdPath : d.keyPath ∈ leafPathsOf assignments := List.mem_map_of_mem hd
    have hiff := keyPathId_eq_iff (hkeys _ hcPath) (hkeys _ hdPath)
    constructor
    · intro hid
      rcases hiff.1 hid with heq | ⟨hcnil, hdnil⟩ | ⟨hcnil, hdnil⟩
      · exact heq
      · exact absurd ⟨hcnil ▸ hcPath, hdnil ▸ hdPath⟩ hboth
      · exact absurd ⟨hdnil ▸ hdPath, hcnil ▸ hcPath⟩ hboth
    · intro heq
      exact hiff.2 (.inl heq)

/-- A value for the path of no key gives way to one for the path of an empty key, in whichever order
they are assigned. -/
theorem empty_key_displaces_no_key :
    let first : Assignment := ⟨.default, [], .ofText "a", some 0, none, none, false⟩
    let second : Assignment := ⟨.default, [[]], .ofText "b", some 1, none, none, false⟩
    leafPathsOf [first, second] = [[], [[]]] ∧ ¬OnePerPath [first, second] ∧
      (effectiveAttributes [first, second]).map EffectiveAttribute.keyPath = [[[]]] ∧
      (effectiveAttributes [first, second]).Perm (effectiveAttributes [second, first]) := by
  intro first second
  have hpaths : leafPathsOf [first, second] = [[], [[]]] := rfl
  obtain ⟨hiff, hperm⟩ := effectiveAttributes_prevail_iff [first, second] (by rw [hpaths]; decide)
  refine ⟨hpaths, ?_, rfl, ?_⟩
  · rw [hiff, hpaths, not_not]
    decide
  · exact hperm _ (List.Perm.swap _ _ _) (by simp [first, second]) (by simp [first, second])

end Cookbook
