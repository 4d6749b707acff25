import Cookbook.Diagnostic.Basic
import Mathlib.Data.List.Basic

/-!
The order of reports. Reports are put in order by file, start and end, and those of one place stay in the
order in which they were made; so with some of them taken out, the others come in the same order.

* `reportLe_trans` and `reportLe_total` say that the places of reports are in order;
* `mergeSort_sublist` is about sorting in any such order, `Diagnostic.sort_sublist` about diagnostics;
* `Diagnostic.StablySorted` says which list a stable sort has to give, `Diagnostic.stablySorted_iff` that
  diagnostics are put in just that order.
-/

namespace Cookbook

namespace Text

theorem le_total (s t : Text) : (le s t || le t s) = true := by
  induction s generalizing t with
  | nil => simp [le]
  | cons a s ih =>
    cases t with
    | nil => simp [le]
    | cons b t =>
      unfold le
      by_cases hab : a = b
      · simp [hab, ih]
      · have hne : a.toNat ≠ b.toNat := fun h => hab (UInt16.toNat_inj.1 h)
        simp only [hab, if_false, Ne.symm hab, Bool.or_eq_true, decide_eq_true_eq, UInt16.lt_iff_toNat_lt]
        omega

theorem le_trans {s t u : Text} (hst : le s t = true) (htu : le t u = true) : le s u = true := by
  induction s generalizing t u with
  | nil => rfl
  | cons a s ih =>
    cases t with
    | nil => exact absurd hst (by simp [le])
    | cons b t =>
      cases u with
      | nil => exact absurd htu (by simp [le])
      | cons c u =>
        unfold le at hst htu ⊢
        by_cases hab : a = b
        · subst hab
          rw [if_pos rfl] at hst
          by_cases hac : a = c
          · subst hac
            rw [if_pos rfl] at htu ⊢
            exact ih hst htu
          · rw [if_neg hac] at htu ⊢
            exact htu
        · rw [if_neg hab] at hst
          by_cases hbc : b = c
          · subst hbc
            rw [if_neg hab]
            exact hst
          · rw [if_neg hbc] at htu
            simp only [decide_eq_true_eq, UInt16.lt_iff_toNat_lt] at hst htu
            have hac : a ≠ c := by
              rintro rfl
              omega
            rw [if_neg hac]
            simp only [decide_eq_true_eq, UInt16.lt_iff_toNat_lt]
            omega

theorem eq_of_le_of_le {s t : Text} (hst : le s t = true) (hts : le t s = true) : s = t := by
  induction s generalizing t with
  | nil =>
    cases t with
    | nil => rfl
    | cons b t => exact absurd hts (by simp [le])
  | cons a s ih =>
    cases t with
    | nil => exact absurd hst (by simp [le])
    | cons b t =>
      unfold le at hst hts
      by_cases hab : a = b
      · subst hab
        rw [if_pos rfl] at hst hts
        rw [ih hst hts]
      · rw [if_neg hab] at hst
        rw [if_neg (Ne.symm hab)] at hts
        simp only [decide_eq_true_eq, UInt16.lt_iff_toNat_lt] at hst hts
        omega

end Text

/-! ### Places -/

theorem reportLe_total (a b : Text × Span) : (reportLe a b || reportLe b a) = true := by
  unfold reportLe
  by_cases hfile : a.1 = b.1
  · simp only [hfile, ne_eq, not_true_eq_false, if_false]
    by_cases hstart : a.2.start.offset = b.2.start.offset
    · simp only [hstart, not_true_eq_false, if_false, Bool.or_eq_true, decide_eq_true_eq]
      omega
    · simp only [hstart, Ne.symm hstart, not_false_eq_true, if_true, Bool.or_eq_true, decide_eq_true_eq]
      omega
  · simp only [ne_eq, hfile, Ne.symm hfile, not_false_eq_true, if_true]
    exact Text.le_total _ _

/-- One place is before another in the same file when it starts before it, or starts there and ends no later. -/
theorem reportLe_of_file_eq {a b : Text × Span} (hfile : a.1 = b.1) :
    reportLe a b = true ↔ a.2.start.offset < b.2.start.offset ∨
      (a.2.start.offset = b.2.start.offset ∧ a.2.stop.offset ≤ b.2.stop.offset) := by
  unfold reportLe
  rw [if_neg (by simpa using hfile)]
  split
  · rename_i hstart
    simp [hstart]
  · rename_i hstart
    simp only [ne_eq, not_not] at hstart
    simp [hstart]

theorem reportLe_of_file_ne {a b : Text × Span} (hfile : a.1 ≠ b.1) :
    reportLe a b = true ↔ Text.le a.1 b.1 = true := by
  unfold reportLe
  rw [if_pos hfile]

theorem reportLe_trans (a b c : Text × Span) (hab : reportLe a b = true) (hbc : reportLe b c = true) :
    reportLe a c = true := by
  by_cases hfile : a.1 = b.1
  · by_cases hfile' : b.1 = c.1
    · rw [reportLe_of_file_eq hfile] at hab
      rw [reportLe_of_file_eq hfile'] at hbc
      rw [reportLe_of_file_eq (hfile.trans hfile')]
      omega
    · rw [reportLe_of_file_ne hfile'] at hbc
      rw [reportLe_of_file_ne (hfile ▸ hfile'), hfile]
      exact hbc
  · rw [reportLe_of_file_ne hfile] at hab
    by_cases hfile' : b.1 = c.1
    · rw [reportLe_of_file_ne (hfile' ▸ hfile), ← hfile']
      exact hab
    · rw [reportLe_of_file_ne hfile'] at hbc
      have hac : a.1 ≠ c.1 := by
        intro h
        exact hfile (Text.eq_of_le_of_le hab (h ▸ hbc))
      rw [reportLe_of_file_ne hac]
      exact Text.le_trans hab hbc

/-- Two places are before each other when they are the same, by offsets. -/
theorem reportLe_both_iff {a b : Text × Span} : (reportLe a b && reportLe b a) = true ↔
    a.1 = b.1 ∧ a.2.start.offset = b.2.start.offset ∧ a.2.stop.offset = b.2.stop.offset := by
  rw [Bool.and_eq_true]
  by_cases hfile : a.1 = b.1
  · rw [reportLe_of_file_eq hfile, reportLe_of_file_eq hfile.symm, and_iff_right hfile]
    omega
  · rw [reportLe_of_file_ne hfile, reportLe_of_file_ne (Ne.symm hfile)]
    exact ⟨fun h => absurd (Text.eq_of_le_of_le h.1 h.2) hfile, fun h => absurd h.1 hfile⟩

/-! ### Sorting -/

section Sorting

variable {α : Type} {le : α → α → Bool} (htrans : ∀ a b c, le a b = true → le b c = true → le a c = true)
  (htotal : ∀ a b, (le a b || le b a) = true)

include htrans htotal

/-- In a sorted list, an element that was first stands after those that are less than it, and before all
others. -/
theorem exists_mergeSort_cons (a : α) (l : List α) : ∃ before after,
    (a :: l).mergeSort le = before ++ a :: after ∧ l.mergeSort le = before ++ after ∧
      before = (l.mergeSort le).filter (fun b => !le a b) ∧ after = (l.mergeSort le).filter (le a) := by
  obtain ⟨before, after, hcons, hrest, hbefore⟩ := List.mergeSort_cons htrans htotal a l
  have hsorted := List.pairwise_mergeSort htrans htotal (a :: l)
  rw [hcons] at hsorted
  have hafter : ∀ b ∈ after, le a b = true := (List.pairwise_cons.1 (List.pairwise_append.1 hsorted).2.1).1
  refine ⟨before, after, hcons, hrest, ?_, ?_⟩
  · rw [hrest, List.filter_append, List.filter_eq_self.2 hbefore,
      List.filter_eq_nil_iff.2 fun b hb => by simp [hafter b hb], List.append_nil]
  · rw [hrest, List.filter_append, List.filter_eq_self.2 hafter,
      List.filter_eq_nil_iff.2 fun b hb => by simpa using hbefore b hb, List.nil_append]

/-- What is taken out of a list changes nothing about the order of the rest. -/
theorem mergeSort_sublist {l' l : List α} (h : l'.Sublist l) : (l'.mergeSort le).Sublist (l.mergeSort le) := by
  induction h with
  | slnil => exact List.Sublist.refl _
  | @cons l' l a _ ih =>
    obtain ⟨before, after, hcons, hrest, -⟩ := exists_mergeSort_cons htrans htotal a l
    rw [hrest] at ih
    rw [hcons]
    exact ih.trans ((List.sublist_cons_self a after).append_left before)
  | @cons_cons l' l a _ ih =>
    obtain ⟨before, after, hcons, -, hbefore, hafter⟩ := exists_mergeSort_cons htrans htotal a l
    obtain ⟨before', after', hcons', -, hbefore', hafter'⟩ := exists_mergeSort_cons htrans htotal a l'
    rw [hcons, hcons', hbefore, hafter, hbefore', hafter']
    exact (ih.filter _).append ((ih.filter _).cons_cons a)

/-- Elements of which each is less than the others, or like them, stay in their order. -/
theorem filter_mergeSort {q : α → Bool} (hq : ∀ a b, q a = true → q b = true → le a b = true) (l : List α) :
    (l.mergeSort le).filter q = l.filter q := by
  have hpairwise : (l.filter q).Pairwise fun a b => le a b = true := by
    refine List.Pairwise.imp_of_mem (R := fun _ _ => True) (fun {a b} ha hb _ => ?_)
      (List.pairwise_of_forall fun _ _ => trivial)
    exact hq a b (List.mem_filter.1 ha).2 (List.mem_filter.1 hb).2
  have hsub := (List.sublist_mergeSort htrans htotal hpairwise List.filter_sublist).filter q
  rw [List.filter_filter, List.filter_congr fun a _ => Bool.and_self (q a)] at hsub
  exact (hsub.eq_of_length ((List.mergeSort_perm l le).filter q).length_eq.symm).symm

omit htrans

/-- Lists that have the same elements like any given one have the same elements. -/
theorem mem_iff_of_filter {l l' : List α}
    (hlike : ∀ a, (l.filter fun b => le a b && le b a) = l'.filter fun b => le a b && le b a) (a : α) :
    a ∈ l ↔ a ∈ l' := by
  have hrefl : le a a = true := by simpa using htotal a a
  have hfilter : ∀ k : List α, a ∈ k ↔ a ∈ k.filter fun b => le a b && le b a := by simp [hrefl]
  rw [hfilter l, hfilter l', hlike]

/-- Of the lists in order, only one has the elements that are like any given one in a given order. -/
theorem eq_of_pairwise_of_filter {l l' : List α} (h : l.Pairwise fun a b => le a b = true)
    (h' : l'.Pairwise fun a b => le a b = true)
    (hlike : ∀ a, (l.filter fun b => le a b && le b a) = l'.filter fun b => le a b && le b a) : l = l' := by
  have hrefl : ∀ a, le a a = true := fun a => by simpa using htotal a a
  induction l generalizing l' with
  | nil =>
    cases l' with
    | nil => rfl
    | cons b more => exact absurd ((mem_iff_of_filter htotal hlike b).2 List.mem_cons_self) List.not_mem_nil
  | cons a rest ih =>
    cases l' with
    | nil => exact absurd ((mem_iff_of_filter htotal hlike a).1 List.mem_cons_self) List.not_mem_nil
    | cons b more =>
      obtain ⟨hfirst, hrest⟩ := List.pairwise_cons.1 h
      obtain ⟨hfirst', hmore⟩ := List.pairwise_cons.1 h'
      have hab : le a b = true := by
        rcases List.mem_cons.1 ((mem_iff_of_filter htotal hlike b).2 List.mem_cons_self) with rfl | hb
        · exact hrefl b
        · exact hfirst b hb
      have hba : le b a = true := by
        rcases List.mem_cons.1 ((mem_iff_of_filter htotal hlike a).1 List.mem_cons_self) with rfl | ha
        · exact hrefl a
        · exact hfirst' a ha
      -- the first elements are like each other, so they are the same
      have heq := hlike a
      rw [List.filter_cons_of_pos (by simp [hrefl]), List.filter_cons_of_pos (by simp [hab, hba])] at heq
      obtain ⟨rfl, -⟩ := List.cons.inj heq
      refine congrArg (a :: ·) (ih hrest hmore fun c => ?_)
      have hc := hlike c
      rw [List.filter_cons, List.filter_cons] at hc
      split at hc
      · exact (List.cons.inj hc).2
      · exact hc

end Sorting

/-! ### Diagnostics -/

namespace Diagnostic

def le (a b : Diagnostic) : Bool := reportLe (a.source, a.span) (b.source, b.span)

theorem le_trans (a b c : Diagnostic) (hab : a.le b = true) (hbc : b.le c = true) : a.le c = true :=
  reportLe_trans _ _ _ hab hbc

theorem le_total (a b : Diagnostic) : (a.le b || b.le a) = true := reportLe_total _ _

theorem sort_eq (ds : List Diagnostic) : sort ds = ds.mergeSort le := rfl

/-- Reports that are taken out change nothing about the order of the others. -/
theorem sort_sublist {ds' ds : List Diagnostic} (h : ds'.Sublist ds) : (sort ds').Sublist (sort ds) :=
  mergeSort_sublist le_trans le_total h

theorem sort_perm (ds : List Diagnostic) : (sort ds).Perm ds := List.mergeSort_perm _ _

/-- Whether two diagnostics are about the same file and the same stretch of it. -/
def samePlace (a b : Diagnostic) : Bool :=
  a.source == b.source && a.span.start.offset == b.span.start.offset &&
    a.span.stop.offset == b.span.stop.offset

theorem samePlace_eq (a b : Diagnostic) : a.samePlace b = (a.le b && b.le a) := by
  rw [Bool.eq_iff_iff]
  unfold le
  rw [reportLe_both_iff]
  simp [samePlace, and_assoc]

/-- The second list has the diagnostics of the first by file, start and end, and those of each place as they
stand in the first. -/
structure StablySorted (ds sorted : List Diagnostic) : Prop where
  ordered : sorted.Pairwise fun a b => a.le b = true
  stable : ∀ d : Diagnostic, sorted.filter d.samePlace = ds.filter d.samePlace

theorem stablySorted_sort (ds : List Diagnostic) : StablySorted ds (sort ds) where
  ordered := List.pairwise_mergeSort le_trans le_total ds
  stable d := by
    rw [sort_eq]
    refine filter_mergeSort le_trans le_total (fun a b ha hb => ?_) ds
    rw [samePlace_eq, Bool.and_eq_true] at ha hb
    exact le_trans a d b ha.2 hb.1

/-- Diagnostics have one stable sort. -/
theorem stablySorted_iff {ds sorted : List Diagnostic} : StablySorted ds sorted ↔ sorted = sort ds := by
  refine ⟨fun h => ?_, fun h => h ▸ stablySorted_sort ds⟩
  refine eq_of_pairwise_of_filter le_total h.ordered (stablySorted_sort ds).ordered fun d => ?_
  rw [show (fun b => d.le b && b.le d) = d.samePlace from funext fun b => (samePlace_eq d b).symm, h.stable,
    (stablySorted_sort ds).stable]

theorem stablySorted_congr {ds ds' sorted : List Diagnostic}
    (h : ∀ d : Diagnostic, ds'.filter d.samePlace = ds.filter d.samePlace) :
    StablySorted ds' sorted ↔ StablySorted ds sorted where
  mp hsorted := ⟨hsorted.ordered, fun d => (hsorted.stable d).trans (h d)⟩
  mpr hsorted := ⟨hsorted.ordered, fun d => (hsorted.stable d).trans (h d).symm⟩

theorem StablySorted.append_left_iff {ds ds' more sorted : List Diagnostic} (h : StablySorted ds ds') :
    StablySorted (ds' ++ more) sorted ↔ StablySorted (ds ++ more) sorted :=
  stablySorted_congr fun d => by rw [List.filter_append, List.filter_append, h.stable]

theorem StablySorted.append_right_iff {ds more more' sorted : List Diagnostic} (h : StablySorted more more') :
    StablySorted (ds ++ more') sorted ↔ StablySorted (ds ++ more) sorted :=
  stablySorted_congr fun d => by rw [List.filter_append, List.filter_append, h.stable]

theorem count_add_count (ds : List Diagnostic) : count .error ds + count .warning ds = ds.length := by
  unfold count
  rw [List.length_eq_countP_add_countP fun d : Diagnostic => d.severity == .error]
  refine congrArg (_ + ·) (List.countP_congr fun d _ => ?_)
  cases d.severity <;> decide

theorem count_append (s : Severity) (ds more : List Diagnostic) :
    count s (ds ++ more) = count s ds + count s more := List.countP_append

theorem count_sort (s : Severity) (ds : List Diagnostic) : count s (sort ds) = count s ds :=
  (sort_perm ds).countP_eq _

end Diagnostic

end Cookbook
