import Cookbook.Proofs.Lists

/-!
# Results that may be errors

When two computations fail together and otherwise give related values. They stay so step by step, and one
by one along a list.

* `SameOutcome` is the relation, with `SameOutcome.bind` and `SameOutcome.mapM`;
* `Except.bind_eq_ok_iff` and `Except.mapM_eq_ok_iff` say what is known of a computation that succeeded.
-/

namespace Cookbook

variable {ε α β γ δ : Type}

theorem Except.bind_eq_ok_iff {x : Except ε α} {f : α → Except ε β} {b : β} :
    x >>= f = .ok b ↔ ∃ a, x = .ok a ∧ f a = .ok b := by
  cases x with
  | error e => exact ⟨nofun, fun ⟨a, h, _⟩ => nomatch h⟩
  | ok a => exact ⟨fun h => ⟨a, rfl, h⟩, fun ⟨_, h, hb⟩ => Except.ok.inj h ▸ hb⟩

theorem Except.mapM_eq_ok_iff {f : α → Except ε β} {xs : List α} {ys : List β} :
    xs.mapM f = .ok ys ↔ List.Forall₂ (fun x y => f x = .ok y) xs ys := by
  induction xs generalizing ys with
  | nil =>
    rw [List.mapM_nil, List.forall₂_nil_left_iff]
    exact ⟨fun h => (Except.ok.inj h).symm, fun h => congrArg Except.ok h.symm⟩
  | cons x rest ih =>
    rw [List.mapM_cons, Except.bind_eq_ok_iff, List.forall₂_cons_left_iff]
    constructor
    · rintro ⟨y, hy, hrest⟩
      obtain ⟨zs, hzs, h⟩ := Except.bind_eq_ok_iff.1 hrest
      exact ⟨y, zs, hy, ih.1 hzs, (Except.ok.inj h).symm⟩
    · rintro ⟨y, zs, hy, hzs, rfl⟩
      exact ⟨y, hy, Except.bind_eq_ok_iff.2 ⟨zs, ih.2 hzs, rfl⟩⟩

theorem Except.eq_ok_of_toOption {x : Except ε α} {a : α} (h : x.toOption = some a) : x = .ok a := by
  cases x with
  | error e => cases h
  | ok b => exact congrArg Except.ok (Option.some.inj h)

/-- Both computations fail with the same error, or both succeed and their values are related. -/
inductive SameOutcome (R : α → β → Prop) : Except ε α → Except ε β → Prop
  | error (e : ε) : SameOutcome R (.error e) (.error e)
  | ok {a : α} {b : β} (h : R a b) : SameOutcome R (.ok a) (.ok b)

namespace SameOutcome

variable {R : α → β → Prop} {S : γ → δ → Prop}

theorem refl {R : α → α → Prop} (h : ∀ a, R a a) (x : Except ε α) : SameOutcome R x x := by
  cases x with
  | error e => exact .error e
  | ok a => exact .ok (h a)

theorem bind {x : Except ε α} {y : Except ε β} {f : α → Except ε γ} {g : β → Except ε δ}
    (h : SameOutcome R x y) (hfg : ∀ a b, x = .ok a → y = .ok b → R a b → SameOutcome S (f a) (g b)) :
    SameOutcome S (x >>= f) (y >>= g) := by
  cases h with
  | error e => exact .error e
  | ok hab => exact hfg _ _ rfl rfl hab

theorem bind_left {x : Except ε α} {f : α → Except ε γ} {g : α → Except ε δ}
    (h : ∀ a, x = .ok a → SameOutcome S (f a) (g a)) : SameOutcome S (x >>= f) (x >>= g) :=
  (refl (fun _ => rfl) x).bind fun a _ ha _ hab => hab ▸ h a ha

/-- Along a list, the values are related pair by pair. -/
theorem mapM {R : α → γ → δ → Prop} {f : α → Except ε γ} {g : α → Except ε δ} (xs : List α)
    (h : ∀ x ∈ xs, SameOutcome (R x) (f x) (g x)) :
    SameOutcome (fun ys zs => ∃ pairs : List (γ × δ), ys = pairs.map (·.1) ∧ zs = pairs.map (·.2) ∧
      List.Forall₂ (fun x pair => R x pair.1 pair.2) xs pairs) (xs.mapM f) (xs.mapM g) := by
  induction xs with
  | nil =>
    rw [List.mapM_nil, List.mapM_nil]
    exact .ok ⟨[], rfl, rfl, .nil⟩
  | cons x rest ih =>
    obtain ⟨hx, hrest⟩ := List.forall_mem_cons.1 h
    rw [List.mapM_cons, List.mapM_cons]
    refine hx.bind fun y z _ _ hyz => (ih hrest).bind fun ys zs _ _ hall => ?_
    obtain ⟨pairs, rfl, rfl, hpairs⟩ := hall
    exact .ok ⟨(y, z) :: pairs, rfl, rfl, .cons hyz hpairs⟩

end SameOutcome

end Cookbook
