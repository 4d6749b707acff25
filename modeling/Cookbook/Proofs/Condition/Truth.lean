import Cookbook.Condition.Basic
import Mathlib.Data.List.Basic

/-!
The truth of conditions. Given which of the conditions without members hold, a condition holds or does
not.

* `Condition.members_ind` is the induction on a condition with its members at hand;
* `Condition.holds` is the truth of a condition;
* `Condition.holds_core` takes the negations before a condition away.
-/

namespace Cookbook

namespace Condition

theorem members_ind {motive : Condition → Prop} (const : ∀ b, motive (.const b))
    (test : ∀ kind subject, motive (.test kind subject))
    (compare : ∀ left op right, motive (.compare left op right)) (truthy : ∀ v, motive (.truthy v))
    (not : ∀ c, motive c → motive (.not c)) (all : ∀ cs, (∀ c ∈ cs, motive c) → motive (.all cs))
    (any : ∀ cs, (∀ c ∈ cs, motive c) → motive (.any cs)) (verbatim : ∀ raw, motive (.verbatim raw))
    (c : Condition) : motive c :=
  @Condition.rec motive (fun cs => ∀ c ∈ cs, motive c) const test compare truthy not all any verbatim
    (fun _ h => absurd h List.not_mem_nil) (fun _ _ h hs => List.forall_mem_cons.2 ⟨h, hs⟩) c

end Condition

mutual

/-- Whether the condition holds, given which conditions without members do. -/
def Condition.holds (σ : Condition → Bool) : Condition → Bool
  | .not c => !c.holds σ
  | .all cs => allHold σ cs
  | .any cs => someHolds σ cs
  | c => σ c

def allHold (σ : Condition → Bool) : List Condition → Bool
  | [] => true
  | c :: rest => c.holds σ && allHold σ rest

def someHolds (σ : Condition → Bool) : List Condition → Bool
  | [] => false
  | c :: rest => c.holds σ || someHolds σ rest

end

variable (σ : Condition → Bool)

theorem Condition.holds_all (cs : List Condition) : (Condition.all cs).holds σ = cs.all (·.holds σ) := by
  rw [holds]
  induction cs with
  | nil => rfl
  | cons c rest ih => rw [allHold, ih, List.all_cons]

theorem Condition.holds_any (cs : List Condition) : (Condition.any cs).holds σ = cs.any (·.holds σ) := by
  rw [holds]
  induction cs with
  | nil => rfl
  | cons c rest ih => rw [someHolds, ih, List.any_cons]

/-! ### Negations -/

namespace Condition

/-- The condition without the negations before it. -/
def core : Condition → Condition
  | .not c => c.core
  | c => c

/-- Whether an odd number of negations stands before the core. -/
def isFlipped : Condition → Bool
  | .not c => !c.isFlipped
  | _ => false

def isJoint (c : Condition) : Bool :=
  match c.core with
  | .all _ => true
  | .any _ => true
  | _ => false

theorem holds_core {c : Condition} (h : c.isJoint = false) (σ : Condition → Bool) :
    c.holds σ = (σ c.core ^^ c.isFlipped) := by
  induction c using Condition.members_ind with
  | not c ih => rw [holds, ih h, core, isFlipped, Bool.xor_not]
  | all cs _ => simp [isJoint, core] at h
  | any cs _ => simp [isJoint, core] at h
  | const | test | compare | truthy | verbatim => simp [holds, core, isFlipped]

end Condition

end Cookbook
