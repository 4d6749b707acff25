import Cookbook.Proofs.Notification.Graph

/-!
Where notifications end up. What starts at a resource is kept under the reference of the resource, so
of several nodes with one reference the first has what all of them notify, and the others have nothing.

* `NotificationGraph.HasAt` says that a node has what a notification asks for,
  `NotificationGraph.StaysAt` that a node has its own notifications and none of others;
* `hasAt_first` and `nothing_of_later` say where notifications are and where they are not;
* `notifications_stay_iff` says for which lists of nodes every notification stays with its node.
-/

namespace Cookbook

namespace NotificationGraph

/-- Node `j` has what the notification asks for: the name of the handler with the key of its target and
action, or its action to run at once. -/
def HasAt (g : NotificationGraph) (j : Nat) (n : GraphNotification) : Prop :=
  match n.timing with
  | .delayed => ∃ h ∈ g.handlers, h.key = n.targetRef ++ 0 :: n.action ∧ h.name ∈ g.notifyRefs.getD j []
  | .immediately => ∃ p ∈ g.postActions.getD j [], p.targetRef = n.targetRef ∧ p.action = n.action

/-- An edge that may put something at node `j`: it starts at the reference of the node, and if a node
notifies by it, then that node itself. -/
structure BelongsTo (e : Edge) (j : Nat) (node : GraphNode) : Prop where
  origin : e.origin = node.ref
  own : e.direction = .notifies → e.declaredBy = j

/-- Node `j` has all that it notifies, and nothing that only other nodes notify. -/
structure StaysAt (g : NotificationGraph) (j : Nat) (node : GraphNode) : Prop where
  kept : ∀ n ∈ node.notifications, n.direction = .notifies → g.HasAt j n
  names : ∀ name ∈ g.notifyRefs.getD j [], ∃ e ∈ g.edges, e.timing = .delayed ∧ BelongsTo e j node ∧
    ∃ h ∈ g.handlers, h.key = e.handlerKey ∧ h.name = name
  actions : ∀ p ∈ g.postActions.getD j [], ∃ e ∈ g.edges, e.timing = .immediately ∧ BelongsTo e j node ∧
    p.targetRef = e.target ∧ p.action = e.action

/-- No node notifies that has the reference of an earlier one. -/
def OnlyFirstNotify (nodes : List GraphNode) : Prop :=
  ∀ (i j : Nat) (first later : GraphNode), i < j → nodes[i]? = some first → nodes[j]? = some later →
    first.ref = later.ref → ∀ n ∈ later.notifications, n.direction ≠ .notifies

variable {source : Text} {nodes : List GraphNode} {j : Nat} {node : GraphNode}

theorem mem_edgesOf_of_getElem? (hnode : nodes[j]? = some node) {n : GraphNotification}
    (hn : n ∈ node.notifications) : Edge.ofNotification node.ref j n ∈ edgesOf nodes :=
  mem_edgesOf.2 ⟨⟨j, node.ref, n⟩, mem_declared.2 ⟨node, hnode, rfl, hn⟩, rfl⟩

/-- What a node notifies is at the first node with its reference. -/
theorem hasAt_first (hnode : nodes[j]? = some node) {i : Nat} (hi : indexOf? nodes node.ref = some i)
    {n : GraphNotification} (hn : n ∈ node.notifications) (hdirection : n.direction = .notifies) :
    (ofNodes source nodes).HasAt i n := by
  have hmem := mem_edgesOf_of_getElem? hnode hn
  have hedge : Edge.ofNotification node.ref j n =
      ⟨node.ref, n.targetRef, n.action, n.timing, n.direction, n.span, j⟩ := by
    unfold Edge.ofNotification
    rw [hdirection]
  rw [hedge] at hmem
  unfold HasAt
  split
  · rename_i htiming
    have hdelayed := mem_delayedOf.2 ⟨hmem, htiming⟩
    obtain ⟨h, hh, hkey⟩ := exists_handler source hdelayed
    exact ⟨h, hh, hkey, mem_notifyRefs_iff.2 ⟨_, hdelayed, hi, h, hh, hkey, rfl⟩⟩
  · rename_i htiming
    exact ⟨_, mem_postActions_iff.2 ⟨_, hmem, htiming, hi, rfl⟩, rfl, rfl⟩

/-- What is at a node starts at its reference, and the node is the first with it. -/
theorem indexOf?_of_origin (hnode : nodes[j]? = some node) {e : Edge}
    (horigin : indexOf? nodes e.origin = some j) :
    e.origin = node.ref ∧ indexOf? nodes node.ref = some j := by
  obtain ⟨⟨first, hfirst, href⟩, -⟩ := indexOf?_eq_some_iff.1 horigin
  obtain rfl : first = node := Option.some.inj (hfirst.symm.trans hnode)
  exact ⟨href.symm, href ▸ horigin⟩

/-- A node whose reference is that of an earlier one has nothing. -/
theorem nothing_of_later (source : Text) (hnode : nodes[j]? = some node)
    (hlater : indexOf? nodes node.ref ≠ some j) :
    (ofNodes source nodes).notifyRefs.getD j [] = [] ∧
      (ofNodes source nodes).postActions.getD j [] = [] := by
  constructor
  · refine List.eq_nil_iff_forall_not_mem.2 fun name hname => ?_
    obtain ⟨e, -, horigin, -⟩ := mem_notifyRefs_iff.1 hname
    exact hlater (indexOf?_of_origin hnode horigin).2
  · refine List.eq_nil_iff_forall_not_mem.2 fun p hp => ?_
    obtain ⟨e, -, -, horigin, -⟩ := mem_postActions_iff.1 hp
    exact hlater (indexOf?_of_origin hnode horigin).2

theorem not_hasAt_of_later (hnode : nodes[j]? = some node) (hlater : indexOf? nodes node.ref ≠ some j)
    (n : GraphNotification) : ¬(ofNodes source nodes).HasAt j n := by
  obtain ⟨hrefs, hposts⟩ := nothing_of_later source hnode hlater
  unfold HasAt
  split
  · rintro ⟨h, -, -, hname⟩
    exact List.not_mem_nil (hrefs ▸ hname)
  · rintro ⟨p, hp, -⟩
    exact List.not_mem_nil (hposts ▸ hp)

/-- An edge by which a node notifies starts at the reference of that node. -/
theorem exists_declaring {e : Edge} (he : e ∈ edgesOf nodes) (hdirection : e.direction = .notifies) :
    ∃ declaring, nodes[e.declaredBy]? = some declaring ∧ e.origin = declaring.ref ∧
      ∃ n ∈ declaring.notifications, n.direction = .notifies := by
  obtain ⟨d, hd, rfl⟩ := mem_edgesOf.1 he
  obtain ⟨declaring, hdeclaring, href, hn⟩ := mem_declared.1 hd
  have hnotifies : d.notification.direction = .notifies := d.renders_edge.direction ▸ hdirection
  have hends := d.renders_edge.ends
  rw [hnotifies] at hends
  exact ⟨declaring, d.renders_edge.declaredBy ▸ hdeclaring, hends.1.trans href, _, hn, hnotifies⟩

theorem belongsTo_of_origin (honly : OnlyFirstNotify nodes) (hnode : nodes[j]? = some node)
    {e : Edge} (he : e ∈ edgesOf nodes) (hindex : indexOf? nodes e.origin = some j) :
    BelongsTo e j node := by
  obtain ⟨horigin, hfirst⟩ := indexOf?_of_origin hnode hindex
  refine ⟨horigin, fun hdirection => ?_⟩
  obtain ⟨declaring, hdeclaring, href, n, hn, hnotifies⟩ := exists_declaring he hdirection
  rcases Nat.lt_trichotomy e.declaredBy j with hlt | heq | hgt
  · exact absurd (href.symm.trans horigin)
      ((indexOf?_eq_some_iff.1 hfirst).2 _ hlt declaring hdeclaring)
  · exact heq
  · exact absurd hnotifies
      (honly j _ node declaring hgt hnode hdeclaring (horigin.symm.trans href) n hn)

/-- What nodes with one reference notify is at the first of them, and nothing is at the others. So every
notification stays with the node that declares it exactly when no node notifies that has the reference
of an earlier one. -/
theorem notifications_stay_iff (source : Text) (nodes : List GraphNode) :
    (∀ (j : Nat) node, nodes[j]? = some node → ∃ i ≤ j, indexOf? nodes node.ref = some i ∧
      (∀ n ∈ node.notifications, n.direction = .notifies → (ofNodes source nodes).HasAt i n) ∧
      (i < j → (ofNodes source nodes).notifyRefs.getD j [] = [] ∧
        (ofNodes source nodes).postActions.getD j [] = [])) ∧
    ((∀ (j : Nat) node, nodes[j]? = some node → (ofNodes source nodes).StaysAt j node) ↔
      OnlyFirstNotify nodes) := by
  refine ⟨?_, ⟨?_, ?_⟩⟩
  · intro j node hnode
    obtain ⟨i, hle, hi⟩ := exists_indexOf? hnode
    refine ⟨i, hle, hi, fun n hn hdirection => hasAt_first hnode hi hn hdirection, fun hlt => ?_⟩
    refine nothing_of_later source hnode fun hj => ?_
    exact absurd (Option.some.inj (hi.symm.trans hj)) (Nat.ne_of_lt hlt)
  · intro hstay i j first later hlt hfirst hlater href n hn hdirection
    refine not_hasAt_of_later hlater (fun hindex => ?_) n ((hstay j later hlater).kept n hn hdirection)
    exact (indexOf?_eq_some_iff.1 hindex).2 i hlt first hfirst href
  · intro honly j node hnode
    refine ⟨?_, ?_, ?_⟩
    · intro n hn hdirection
      have hfirst : indexOf? nodes node.ref = some j :=
        indexOf?_eq_some_iff.2 ⟨⟨node, hnode, rfl⟩, fun k hk earlier hearlier heq =>
          honly k j earlier node hk hearlier hnode heq n hn hdirection⟩
      exact hasAt_first hnode hfirst hn hdirection
    · intro name hname
      obtain ⟨e, he, hindex, hhandler⟩ := mem_notifyRefs_iff.1 hname
      obtain ⟨hedge, htiming⟩ := mem_delayedOf.1 he
      exact ⟨e, hedge, htiming, belongsTo_of_origin honly hnode hedge hindex, hhandler⟩
    · intro p hp
      obtain ⟨e, hedge, htiming, hindex, rfl⟩ := mem_postActions_iff.1 hp
      exact ⟨e, hedge, htiming, belongsTo_of_origin honly hnode hedge hindex, rfl, rfl⟩

/-- Of two templates with one name the second notifies, and the handler is put at the first. -/
theorem first_of_two_notifies :
    let nodes : List GraphNode :=
      [⟨"template[a]", []⟩, ⟨"template[a]", [⟨"restart", "service[b]", .delayed, .notifies, .origin⟩]⟩,
       ⟨"service[b]", []⟩]
    (ofNodes "default.rb" nodes).notifyRefs = [[Text.ofString "Restart service b"], [], []] ∧
      ¬∀ (j : Nat) node, nodes[j]? = some node → (ofNodes "default.rb" nodes).StaysAt j node := by
  intro nodes
  refine ⟨by decide, fun hstay => ?_⟩
  exact (notifications_stay_iff "default.rb" nodes).2.1 hstay 0 1 _ _ Nat.zero_lt_one rfl rfl rfl _
    List.mem_cons_self rfl

end NotificationGraph

end Cookbook
