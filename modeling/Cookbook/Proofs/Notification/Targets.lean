import Cookbook.Proofs.Conversion.Stability
import Cookbook.Proofs.Notification.Placement
import Cookbook.Proofs.Value.Template

/-!
Targets of notifications. A notification may name a resource by a text with the name's expression in it,
or by a call of `resources`; both give the same value. It is written out as the reference of the
resource, before the attributes in it are replaced as well as after, so in a recipe the notification
finds the first declaration with that reference.

* `resourceTarget` is the value of a target, `TargetForms` the ways to write it, and
  `render_resourceTarget` and `render_resolve_resourceTarget` say how it is written out;
* `NotificationGraph.Finds` says that a graph resolves a reference to a node, and `RecipeStage.RunsOn`
  that what runs on the reference in a converted recipe runs on a declaration of it;
* `targets_find_resources` is the result.
-/

namespace Cookbook

/-- The target of a notification to the resource of a type with a name. -/
def resourceTarget (type : Text) (name : Value) : Value :=
  .interpolate [.ofText (type ++ "["), name, .ofText "]"]

theorem render_resourceTarget (type : Text) (name : Value) :
    (resourceTarget type name).render = resourceRef type name := by
  unfold resourceTarget resourceRef
  rw [Value.render_interpolate]
  simp [Value.render, Value.ofText, Scalar.plain, Scalar.text?]

/-- Replacing the attributes in a target gives the target of the resource with its attributes
replaced. -/
theorem render_resolve_resourceTarget (table : AttributeTable) (type : Text) (name : Value) :
    (table.resolve (resourceTarget type name)).value.render =
      resourceRef type (table.resolve name).value := by
  have htext : ∀ t, (table.resolve (.ofText t)).value.render = t := by
    intro t
    unfold AttributeTable.resolve
    rw [table.followFuel_eq]
    rfl
  unfold resourceTarget resourceRef
  rw [table.render_resolve_interpolate]
  simp only [List.flatMap_cons, List.flatMap_nil, List.append_nil, List.append_assoc, htext]

/-! ### The forms of a target -/

/-- The two ways to write the target of a resource: a text with code between `type[` and `]`, and a call of
`resources` with the type and a name. -/
structure TargetForms (type : Text) : Prop where
  text : ∀ (ctx : NormalizeContext) (whole : List Token → Normalized) (t : Token) (flavor : Flavor)
    (code : Text) (offset : Nat), flavor ≠ .backtick → lexInline code offset ≠ [] →
      (ctx.stringValue whole t flavor [.text (type ++ "["), .code code offset, .text "]"]).value =
        resourceTarget type (whole (lexInline code offset)).value
  call : ∀ (b : ResourceBody) (ctx : NormalizeContext) (run tokens : List Token) (key : Token),
    ResourceBody.resourcesArgument? run = some (.keyword type key tokens) →
      (b.target ctx run).1 = resourceTarget type (ctx.normalize tokens).value

theorem targetForms (type : Text) : TargetForms type where
  text := by
    intro ctx whole t flavor code offset hflavor hcode
    have hpart : NormalizeContext.part? whole (.code code offset) = some (whole (lexInline code offset)) := by
      unfold NormalizeContext.part?
      cases hrun : lexInline code offset with
      | nil => exact absurd hrun hcode
      | cons _ _ => simp only [hrun]
    have hplain : StringPart.plain? [.text (type ++ "["), .code code offset, .text "]"] = none := rfl
    unfold NormalizeContext.stringValue
    rw [if_neg hflavor, hplain]
    simp only [List.filterMap_cons, List.filterMap_nil, hpart]
    rfl
  call := by
    intro b ctx run tokens key h
    unfold ResourceBody.target
    rw [h]
    rfl

/-! ### What a graph finds -/

namespace NotificationGraph

/-- The graph resolves a reference to node `k`. The handlers and the actions that run on it know the node,
the node has what is started by it, and no warning says that it is not found. -/
structure Finds (g : NotificationGraph) (ref : Text) (k : Nat) : Prop where
  handlers : ∀ h ∈ g.handlers, h.targetRef = ref → h.targetIndex = some k
  actions : ∀ posts ∈ g.postActions, ∀ p ∈ posts, p.targetRef = ref → p.targetIndex = some k
  names : ∀ e ∈ g.edges, e.origin = ref → e.timing = .delayed →
    ∃ h ∈ g.handlers, h.key = e.handlerKey ∧ h.name ∈ g.notifyRefs.getD k []
  posts : ∀ e ∈ g.edges, e.origin = ref → e.timing = .immediately →
    ∃ p ∈ g.postActions.getD k [], p.targetRef = e.target ∧ p.action = e.action
  known : ∀ d ∈ g.diagnostics, ∀ direction, d.finding ≠ .unresolvedTarget direction ref

variable {source : Text} {nodes : List GraphNode} {ref : Text} {k : Nat}

/-- The graph resolves a reference to the first node that carries it. -/
theorem finds_of_indexOf? (h : indexOf? nodes ref = some k) : (ofNodes source nodes).Finds ref k where
  handlers := by
    intro spec hspec htarget
    obtain ⟨e, -, hsome⟩ := mem_handlers_iff.1 hspec
    obtain ⟨-, -, -, -, -, -, hindex, -⟩ := handler?_eq_some hsome
    rw [hindex, htarget, h]
  actions := by
    intro posts hposts p hp htarget
    obtain ⟨j, hj⟩ := List.getElem?_of_mem hposts
    have hmem : p ∈ (ofNodes source nodes).postActions.getD j [] := by
      rw [List.getD_eq_getElem?_getD, hj]
      exact hp
    obtain ⟨e, -, -, -, rfl⟩ := mem_postActions_iff.1 hmem
    exact (congrArg (indexOf? nodes) htarget).trans h
  names := by
    intro e he horigin htiming
    have hdelayed := mem_delayedOf.2 ⟨he, htiming⟩
    obtain ⟨spec, hspec, hkey⟩ := exists_handler source hdelayed
    exact ⟨spec, hspec, hkey, mem_notifyRefs_iff.2 ⟨e, hdelayed, horigin ▸ h, spec, hspec, hkey, rfl⟩⟩
  posts := by
    intro e he horigin htiming
    exact ⟨_, mem_postActions_iff.2 ⟨e, he, htiming, horigin ▸ h, rfl⟩, rfl, rfl⟩
  known := by
    intro d hd direction heq
    rw [diagnostics_ofNodes] at hd
    obtain ⟨n, hn, rfl⟩ := List.mem_map.1 hd
    obtain ⟨-, hnone⟩ := List.mem_filter.1 hn
    rw [(Finding.unresolvedTarget.inj heq).2, h] at hnone
    exact absurd hnone (by simp)

end NotificationGraph

/-- Whatever runs on the reference in the recipe runs on the declaration made ready, or fails as it does. -/
structure RecipeStage.RunsOn (s : RecipeStage) (ref : Text) (target : ReadyDeclaration) : Prop where
  handlers : ∀ h ∈ s.graph.handlers, h.targetRef = ref →
    s.handler h = (TargetRun.onDeclared s.ctx target h.action h.span).map fun run =>
      ⟨⟨h.name, ref, h.action, run.module, run.parameters, run.condition, true, h.triggeredBy, h.span⟩,
        run.diagnostics⟩
  actions : ∀ posts ∈ s.graph.postActions, ∀ p ∈ posts, p.targetRef = ref → ∀ span,
    s.postAction span p = (TargetRun.onDeclared s.ctx target p.action span).map fun run =>
      ⟨⟨ref, p.action, run.module, run.parameters, run.condition, true⟩, run.diagnostics⟩

theorem RecipeStage.runsOn_of_finds {s : RecipeStage} {ref : Text} {k : Nat} {target : ReadyDeclaration}
    (hfinds : s.graph.Finds ref k) (hk : s.ready[k]? = some target) : s.RunsOn ref target where
  handlers := by
    intro h hh htarget
    have hindex := hfinds.handlers h hh htarget
    unfold handler TargetRun.run
    simp only [hindex, htarget, Option.bind_some, hk, Option.isSome_some]
    rfl
  actions := by
    intro posts hposts p hp htarget span
    have hindex := hfinds.actions posts hposts p hp htarget
    unfold postAction TargetRun.run
    simp only [hindex, htarget, Option.bind_some, hk, Option.isSome_some]
    rfl

/-! ### Recipes -/

namespace RecipeEnvironment

variable (env : RecipeEnvironment)

/-- The value with its attributes replaced, if the settings say so. -/
def valueOf (v : Value) : Value :=
  if env.settings.resolveAttributes then (env.attributes.resolve v).value else v

theorem ref_resolved (d : Declaration) : (env.resolved d).ref = resourceRef d.type (env.valueOf d.name) := by
  unfold resolved valueOf
  split <;> rfl

theorem notifications_resolved (d : Declaration) : (env.resolved d).notifications =
    d.notifications.map fun n => { n with target := env.valueOf n.target } := by
  unfold resolved valueOf
  split
  · exact List.map_map
  · exact (List.map_id _).symm

/-- With either setting the target is written out as the reference of the declaration. -/
theorem render_valueOf_resourceTarget (type : Text) (name : Value) :
    (env.valueOf (resourceTarget type name)).render = resourceRef type (env.valueOf name) := by
  unfold valueOf
  split
  · exact render_resolve_resourceTarget _ type name
  · exact render_resourceTarget type name

end RecipeEnvironment

/-- The notification as the graph sees it, when its target is written out as `ref`. -/
def Notification.to (n : Notification) (ref : Text) : GraphNotification :=
  ⟨n.action, ref, n.timing, n.direction, n.span⟩

namespace RecipeStage

variable {env : RecipeEnvironment} {source text : Text} {i : Nat} {d : Declaration}

theorem getElem?_ready
    (hd : (RecipeStage.ofText env source text).extraction.declarations[i]? = some d) :
    (RecipeStage.ofText env source text).ready[i]? =
      some (.ofDeclaration env source (RecipeStage.ofText env source text).extraction.constants d) := by
  rw [ready_ofText, List.getElem?_map]
  exact congrArg (Option.map _) hd

theorem getElem?_nodes
    (hd : (RecipeStage.ofText env source text).extraction.declarations[i]? = some d) :
    ((RecipeStage.ofText env source text).ready.map (·.node))[i]? =
      some ⟨(env.resolved d).ref, d.notifications.map fun n => n.to (env.valueOf n.target).render⟩ := by
  rw [List.getElem?_map, getElem?_ready hd]
  unfold ReadyDeclaration.node ReadyDeclaration.ref
  rw [Option.map_some, env.declaration_ofDeclaration, env.notifications_resolved, List.map_map]
  rfl

end RecipeStage

/-! ### The result -/

def Value.isAttribute (key : Text) : Value → Bool
  | .path .node keys => keys == [key]
  | _ => false

/-- Whether the value is text with one attribute of the node in it. -/
def Value.isAround (before key after : Text) : Value → Bool
  | .interpolation [.literal (.text t), v, .literal (.text t')] =>
    t == before && v.isAttribute key && t' == after
  | _ => false

theorem Value.eq_of_isAttribute {key : Text} {v : Value} (h : v.isAttribute key = true) :
    v = .path .node [key] := by
  unfold isAttribute at h
  split at h
  · rw [beq_iff_eq.1 h]
  · exact absurd h (by decide)

theorem Value.eq_of_isAround {before key after : Text} {v : Value}
    (h : v.isAround before key after = true) :
    v = .interpolation [.ofText before, .path .node [key], .ofText after] := by
  unfold isAround at h
  split at h
  · simp only [Bool.and_eq_true, beq_iff_eq] at h
    obtain ⟨⟨rfl, hpath⟩, rfl⟩ := h
    rw [eq_of_isAttribute hpath]
    rfl
  · exact absurd h (by decide)

/-- Both ways to write the target of a resource give one value, which is written out as the reference of
the resource, before and after its attributes are replaced. So in a recipe, whether attributes are
replaced or not, a notification whose target is made from the name of a declaration finds the first
declaration with the reference of that one. -/
theorem targets_find_resources (type : Text) (name : Value) :
    TargetForms type ∧
    (resourceTarget type name).render = resourceRef type name ∧
    (∀ table : AttributeTable, (table.resolve (resourceTarget type name)).value.render =
      resourceRef type (table.resolve name).value) ∧
    ∀ (env : RecipeEnvironment) (source text : Text),
      let s := RecipeStage.ofText env source text
      let ref := resourceRef type (env.valueOf name)
      ∀ (i : Nat) d, s.extraction.declarations[i]? = some d → d.type = type → d.name = name →
        ∃ k ≤ i, ∃ target, s.ready[k]? = some target ∧ target.ref = ref ∧
          (∀ k' < k, ∀ r, s.ready[k']? = some r → r.ref ≠ ref) ∧
          s.graph.Finds ref k ∧ s.RunsOn ref target ∧
          ∀ (j : Nat) d', s.extraction.declarations[j]? = some d' →
            ∀ n ∈ d'.notifications, n.target = resourceTarget type name →
              Edge.ofNotification (env.resolved d').ref j (n.to ref) ∈ s.graph.edges ∧
                (n.direction = .notifies → ∃ j' ≤ j, s.graph.HasAt j' (n.to ref)) := by
  refine ⟨targetForms type, render_resourceTarget type name,
    fun table => render_resolve_resourceTarget table type name, ?_⟩
  intro env source text s ref i d hd htype hname
  have href : (env.resolved d).ref = ref := by
    rw [env.ref_resolved, htype, hname]
  -- the graph finds the first node with the reference, at or before the named declaration
  obtain ⟨k, hle, hk⟩ := NotificationGraph.exists_indexOf? (RecipeStage.getElem?_nodes hd)
  rw [href] at hk
  obtain ⟨⟨node, hnode, hnoderef⟩, hfirst⟩ := NotificationGraph.indexOf?_eq_some_iff.1 hk
  rw [List.getElem?_map] at hnode
  obtain ⟨target, htarget, rfl⟩ := Option.map_eq_some_iff.1 hnode
  have hfinds : s.graph.Finds ref k := NotificationGraph.finds_of_indexOf? hk
  refine ⟨k, hle, target, htarget, hnoderef, ?_, hfinds, RecipeStage.runsOn_of_finds hfinds htarget, ?_⟩
  · intro k' hk' r hr
    refine hfirst k' hk' r.node ?_
    rw [List.getElem?_map, hr]
    rfl
  · intro j d' hd' n hn hn'
    have hrender : (env.valueOf n.target).render = ref := by
      rw [hn', env.render_valueOf_resourceTarget]
    have hnode' := RecipeStage.getElem?_nodes hd'
    have hmem : n.to ref ∈ d'.notifications.map fun n => n.to (env.valueOf n.target).render :=
      List.mem_map.2 ⟨n, hn, by rw [hrender]⟩
    refine ⟨NotificationGraph.mem_edgesOf_of_getElem? hnode' hmem, fun hdirection => ?_⟩
    obtain ⟨j', hle', hj'⟩ := NotificationGraph.exists_indexOf? hnode'
    exact ⟨j', hle', NotificationGraph.hasAt_first hnode' hj' hmem hdirection⟩

/-- A service is named by an attribute, and a file notifies it by a text with the attribute in it. The handler
runs on the service. -/
theorem service_named_by_attribute_found :
    let env : RecipeEnvironment := ⟨.standard, .empty,
      ⟨[⟨[Text.ofString "a"], .ofText "nginx", .default, none, none⟩]⟩, .empty⟩
    let text : Text := "service node['a'] do\nend\n" ++
      "file 'f' do\n  notifies :restart, \"service[#\x7bnode['a']\x7d]\"\nend\n"
    let s := RecipeStage.ofText env "a.rb" text
    let name : Value := .path .node [Text.ofString "a"]
    let ref : Text := "service[nginx]"
    resourceRef "service" (env.valueOf name) = ref ∧
      (∃ d, s.extraction.declarations[1]? = some d ∧
        ∃ n ∈ d.notifications, n.target = resourceTarget "service" name ∧
          Edge.ofNotification (env.resolved d).ref 1 (n.to ref) ∈ s.graph.edges) ∧
      s.graph.Finds ref 0 ∧
      s.products.toOption.map (fun made => made.handlers.map fun h => (h.result.targetRef, h.result.resolved)) =
        some [(ref, true)] := by
  intro env text s name ref
  have hrun : (s.extraction.declarations[0]?.any fun d =>
        d.type == Text.ofString "service" && d.name.isAttribute "a") = true ∧
      (s.extraction.declarations[1]?.any fun d =>
        d.notifications.head?.any fun n => n.target.isAround "service[" "a" "]") = true ∧
      resourceRef "service" (env.valueOf name) = ref ∧
      s.products.toOption.map (fun made => made.handlers.map fun h => (h.result.targetRef, h.result.resolved)) =
        some [(ref, true)] := by
    decide +kernel
  obtain ⟨hservice, hfile, href, hhandlers⟩ := hrun
  obtain ⟨d, hd, hdeclared⟩ := (Option.any_eq_true _ _).1 hservice
  obtain ⟨d', hd', hnotifies⟩ := (Option.any_eq_true _ _).1 hfile
  obtain ⟨n, hn, haround⟩ := (Option.any_eq_true _ _).1 hnotifies
  obtain ⟨htype, hname⟩ := (Bool.and_eq_true _ _).mp hdeclared
  have htarget : n.target = resourceTarget "service" name := Value.eq_of_isAround haround
  obtain ⟨-, -, -, hfound⟩ := targets_find_resources "service" name
  obtain ⟨k, hk, target, -, -, -, hfinds, -, hedges⟩ :=
    hfound env "a.rb" text 0 d hd (beq_iff_eq.1 htype) (Value.eq_of_isAttribute hname)
  obtain rfl := Nat.le_zero.1 hk
  have hmem := List.mem_of_mem_head? hn
  have hedge := (hedges 1 d' hd' n hmem htarget).1
  rw [href] at hfinds hedge
  exact ⟨href, ⟨d', hd', n, hmem, htarget, hedge⟩, hfinds, hhandlers⟩

end Cookbook
