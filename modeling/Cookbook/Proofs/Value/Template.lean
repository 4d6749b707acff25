import Cookbook.Proofs.Attribute.References
import Cookbook.Value.Render

/-!
The template of an interpolation is that of its parts, one after another, whatever was opened and joined
on the way. It makes no difference either whether the paths in the parts are replaced before or after
they are put together.

* `Value.render_interpolate` is the template of an interpolation;
* `Value.render_substitute_interpolate` is the template of one whose paths are replaced, and
  `AttributeTable.render_resolve_interpolate` the case of the values in effect.
-/

namespace Cookbook

theorem renderAll_eq (values : List Value) : renderAll values = values.flatMap Value.render := by
  induction values with
  | nil => rfl
  | cons v rest ih => rw [renderAll, ih, List.flatMap_cons]

namespace Value

theorem render_of_scalar? {v : Value} {s : Scalar} (h : v.scalar? = some s) : v.render = s.plain := by
  cases v with
  | literal s' =>
    obtain rfl : s' = s := Option.some.inj h
    rfl
  | symbol name =>
    obtain rfl : .text name = s := Option.some.inj h
    rfl
  | path _ _ | interpolation _ | list _ | map _ | verbatim _ => exact absurd h (by simp [scalar?])

theorem render_interpolate (parts : List Value) :
    (interpolate parts).render = parts.flatMap render :=
  @collect_interpolate_of_plain _ render id (fun _ _ => render_of_scalar?) rfl (fun _ _ => rfl)
    (fun segments => by rw [render, renderAll_eq]) parts

/-- A literal or a symbol has no path that could be replaced. -/
theorem substitute_of_scalar? {v : Value} {s : Scalar} (h : v.scalar? = some s)
    (f : Scope → KeyPath → Resolved) : v.substitute f = .unchanged v := by
  cases v with
  | literal _ | symbol _ => rfl
  | path _ _ | interpolation _ | list _ | map _ | verbatim _ => exact absurd h (by simp [scalar?])

/-- Replacing the paths in an interpolation gives the templates of the parts with their paths replaced,
in order. -/
theorem render_substitute_interpolate (f : Scope → KeyPath → Resolved) (parts : List Value) :
    ((interpolate parts).substitute f).value.render =
      parts.flatMap fun v => (v.substitute f).value.render := by
  refine @collect_interpolate_of_plain _ (fun v => (v.substitute f).value.render) id ?_ rfl
    (fun _ _ => rfl) ?_ parts
  · intro v s h
    rw [substitute_of_scalar? h]
    exact render_of_scalar? h
  · intro segments
    rw [substitute_interpolation, render_interpolate, List.flatMap_map]

end Value

/-- Replacing the paths in an interpolation by the values in effect gives the templates of the parts
with their paths replaced, in order. -/
theorem AttributeTable.render_resolve_interpolate (table : AttributeTable) (parts : List Value) :
    (table.resolve (.interpolate parts)).value.render =
      parts.flatMap fun v => (table.resolve v).value.render := by
  unfold AttributeTable.resolve
  rw [followFuel_eq]
  exact Value.render_substitute_interpolate _ parts

end Cookbook
