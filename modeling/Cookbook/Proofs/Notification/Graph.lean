import Cookbook.Proofs.Lists
import Cookbook.Notification.Graph
import Cookbook.Proofs.FirstSeen
import Mathlib.Data.List.Forall2
import Mathlib.Tactic.Common

/-!
What the graph of a recipe makes of its notifications. Each declared notification is one edge. The
delayed edges with one key share a handler, and where no reference has the unit `U+0000` in it a key is
a target and an action, no more and no less. A node is told the names of the handlers of its delayed
edges, and keeps its immediate edges as they are.

* `NotificationGraph.indexOf?_eq_some_iff` says which node a reference stands for;
* `mem_handlers_iff`, `mem_notifyRefs_iff` and `mem_postActions_iff` say what is in each output, for any
  references at all;
* `NotificationGraph.Accounts` is the account of all notifications, `ofNodes_accounts` the result.
-/

namespace Cookbook

/-! ### Declared notifications -/

/-- A notification with the index and the reference of the node that declares it. -/
structure DeclaredNotification where
  index : Nat
  ref : Text
  notification : GraphNotification

def DeclaredNotification.edge (d : DeclaredNotification) : Edge :=
  Edge.ofNotification d.ref d.index d.notification

/-- The edge says what the notification does. It runs from the node that declares it to the target when
the node notifies, and the other way when the node subscribes. -/
structure Edge.Renders (e : Edge) (d : DeclaredNotification) : Prop where
  declaredBy : e.declaredBy = d.index
  action : e.action = d.notification.action
  timing : e.timing = d.notification.timing
  direction : e.direction = d.notification.direction
  span : e.span = d.notification.span
  ends : match d.notification.direction with
    | .notifies => e.origin = d.ref ∧ e.target = d.notification.targetRef
    | .subscribes => e.origin = d.notification.targetRef ∧ e.target = d.ref

theorem DeclaredNotification.renders_edge (d : DeclaredNotification) : d.edge.Renders d := by
  obtain ⟨index, ref, action, targetRef, timing, direction, span⟩ := d
  cases direction <;> exact ⟨rfl, rfl, rfl, rfl, rfl, rfl, rfl⟩

theorem DeclaredNotification.otherEnd_edge (d : DeclaredNotification) :
    d.edge.otherEnd = d.notification.targetRef := by
  obtain ⟨index, ref, action, targetRef, timing, direction, span⟩ := d
  cases direction <;> rfl

theorem DeclaredNotification.ownEnd_edge (d : DeclaredNotification) : d.edge.ownEnd = d.ref := by
  obtain ⟨index, ref, action, targetRef, timing, direction, span⟩ := d
  cases direction <;> rfl

def Edge.pair (e : Edge) : Text × Text := (e.target, e.action)

def HandlerSpec.pair (h : HandlerSpec) : Text × Text := (h.targetRef, h.action)

def HandlerSpec.key (h : HandlerSpec) : Text := h.targetRef ++ 0 :: h.action

namespace NotificationGraph

def declared (nodes : List GraphNode) : List DeclaredNotification :=
  nodes.zipIdx.flatMap fun (node, index) => node.notifications.map fun n => ⟨index, node.ref, n⟩

def delayedOf (nodes : List GraphNode) : List Edge := (edgesOf nodes).filter Edge.isDelayed

variable {source : Text} {nodes : List GraphNode}

theorem edgesOf_eq (nodes : List GraphNode) :
    edgesOf nodes = (declared nodes).map DeclaredNotification.edge := by
  unfold edgesOf declared
  rw [List.map_flatMap]
  refine List.flatMap_congr fun pair _ => ?_
  rw [List.map_map]
  rfl

theorem mem_declared {d : DeclaredNotification} :
    d ∈ declared nodes ↔ ∃ node, nodes[d.index]? = some node ∧ d.ref = node.ref ∧
      d.notification ∈ node.notifications := by
  unfold declared
  rw [List.mem_flatMap]
  constructor
  · rintro ⟨⟨node, index⟩, hpair, hd⟩
    obtain ⟨n, hn, rfl⟩ := List.mem_map.1 hd
    exact ⟨node, List.mem_zipIdx_iff_getElem?.1 hpair, rfl, hn⟩
  · rintro ⟨node, hnode, href, hn⟩
    refine ⟨(node, d.index), List.mem_zipIdx_iff_getElem?.2 hnode, List.mem_map.2 ⟨_, hn, ?_⟩⟩
    rw [← href]

theorem mem_edgesOf {e : Edge} : e ∈ edgesOf nodes ↔ ∃ d ∈ declared nodes, d.edge = e := by
  rw [edgesOf_eq, List.mem_map]

theorem mem_delayedOf {e : Edge} : e ∈ delayedOf nodes ↔ e ∈ edgesOf nodes ∧ e.timing = .delayed := by
  unfold delayedOf
  rw [List.mem_filter]
  simp [Edge.isDelayed]

/-! ### The node of a reference -/

/-- A reference stands for the first node that carries it. -/
theorem indexOf?_eq_some_iff {ref : Text} {i : Nat} :
    indexOf? nodes ref = some i ↔
      (∃ node, nodes[i]? = some node ∧ node.ref = ref) ∧
        ∀ k < i, ∀ node, nodes[k]? = some node → node.ref ≠ ref := by
  unfold indexOf?
  rw [List.findIdx?_eq_some_iff_getElem]
  constructor
  · rintro ⟨hi, href, hbefore⟩
    refine ⟨⟨nodes[i], List.getElem?_eq_getElem hi, by simpa using href⟩, fun k hk node hnode heq => ?_⟩
    obtain ⟨hlt, rfl⟩ := List.getElem?_eq_some_iff.1 hnode
    exact hbefore k hk (by simpa using heq)
  · rintro ⟨⟨node, hnode, href⟩, hbefore⟩
    obtain ⟨hi, rfl⟩ := List.getElem?_eq_some_iff.1 hnode
    refine ⟨hi, by simpa using href, fun k hk heq => ?_⟩
    exact hbefore k hk _ (List.getElem?_eq_getElem (Nat.lt_trans hk hi)) (by simpa using heq)

theorem indexOf?_eq_none_iff {ref : Text} :
    indexOf? nodes ref = none ↔ ∀ node ∈ nodes, node.ref ≠ ref := by
  unfold indexOf?
  rw [List.findIdx?_eq_none_iff]
  simp

/-- The reference of a node stands for that node or an earlier one. -/
theorem exists_indexOf? {j : Nat} {node : GraphNode} (hnode : nodes[j]? = some node) :
    ∃ i ≤ j, indexOf? nodes node.ref = some i := by
  cases hi : indexOf? nodes node.ref with
  | none => exact absurd rfl (indexOf?_eq_none_iff.1 hi node (List.mem_of_getElem? hnode))
  | some i =>
    refine ⟨i, ?_, rfl⟩
    by_contra hlt
    exact (indexOf?_eq_some_iff.1 hi).2 j (Nat.not_le.1 hlt) node hnode rfl

/-! ### Handlers -/

/-- The handler of a key is made from the first delayed edge with that key. -/
theorem handler?_eq_some {delayed : List Edge} {key : Text} {h : HandlerSpec}
    (hsome : handler? nodes delayed key = some h) :
    ∃ e ∈ delayed, e.handlerKey = key ∧ h.targetRef = e.target ∧ h.action = e.action ∧
      h.name = handlerName h.action h.targetRef ∧ h.targetIndex = indexOf? nodes h.targetRef ∧
      h.triggeredBy = ((delayed.filter (·.handlerKey == key)).map (·.origin)).eraseDups := by
  unfold handler? at hsome
  dsimp only at hsome
  obtain ⟨e, hhead, rfl⟩ := Option.map_eq_some_iff.1 hsome
  obtain ⟨he, hkey⟩ := List.mem_filter.1 (List.mem_of_mem_head? hhead)
  exact ⟨e, he, by simpa using hkey, rfl, rfl, rfl, rfl, rfl⟩

theorem exists_handler? (nodes : List GraphNode) {delayed : List Edge} {e : Edge} (he : e ∈ delayed) :
    ∃ h, handler? nodes delayed e.handlerKey = some h := by
  have hmem : e ∈ delayed.filter (·.handlerKey == e.handlerKey) := List.mem_filter.2 ⟨he, by simp⟩
  unfold handler?
  dsimp only
  cases hhead : (delayed.filter (·.handlerKey == e.handlerKey)).head? with
  | none =>
    rw [List.head?_eq_none_iff] at hhead
    exact absurd hmem (by simp [hhead])
  | some first => exact ⟨_, rfl⟩

theorem key_of_handler? {delayed : List Edge} {key : Text} {h : HandlerSpec}
    (hsome : handler? nodes delayed key = some h) : h.key = key := by
  obtain ⟨e, -, hkey, htarget, haction, -⟩ := handler?_eq_some hsome
  rw [← hkey]
  unfold HandlerSpec.key Edge.handlerKey
  rw [htarget, haction]

/-- The handlers are those of the keys of delayed edges, and no two have one key. -/
theorem mem_handlers_iff {h : HandlerSpec} :
    h ∈ (ofNodes source nodes).handlers ↔
      ∃ e ∈ delayedOf nodes, handler? nodes (delayedOf nodes) e.handlerKey = some h := by
  show h ∈ List.filterMap _ _ ↔ _
  rw [List.mem_filterMap]
  constructor
  · rintro ⟨key, hkey, hsome⟩
    obtain ⟨e, he, rfl⟩ := List.mem_map.1 (List.mem_eraseDups.1 hkey)
    exact ⟨e, he, hsome⟩
  · rintro ⟨e, he, hsome⟩
    exact ⟨_, List.mem_eraseDups.2 (List.mem_map_of_mem he), hsome⟩

theorem handler?_key {h : HandlerSpec} (hmem : h ∈ (ofNodes source nodes).handlers) :
    handler? nodes (delayedOf nodes) h.key = some h := by
  obtain ⟨e, -, hsome⟩ := mem_handlers_iff.1 hmem
  rw [key_of_handler? hsome]
  exact hsome

/-- Every delayed edge has a handler. -/
theorem exists_handler (source : Text) {e : Edge} (he : e ∈ delayedOf nodes) :
    ∃ h ∈ (ofNodes source nodes).handlers, h.key = e.handlerKey := by
  obtain ⟨h, hsome⟩ := exists_handler? nodes he
  exact ⟨h, mem_handlers_iff.2 ⟨e, he, hsome⟩, key_of_handler? hsome⟩

/-! ### What stays with a node -/

def startingAt (nodes : List GraphNode) (j : Nat) (edges : List Edge) : List Edge :=
  edges.filter fun e => indexOf? nodes e.origin == some j

theorem mem_startingAt {j : Nat} {edges : List Edge} {e : Edge} :
    e ∈ startingAt nodes j edges ↔ e ∈ edges ∧ indexOf? nodes e.origin = some j := by
  unfold startingAt
  rw [List.mem_filter]
  simp

theorem getElem?_notifyRefs (source : Text) (nodes : List GraphNode) (j : Nat) :
    (ofNodes source nodes).notifyRefs[j]? = if j < nodes.length then
      some ((startingAt nodes j (delayedOf nodes)).filterMap fun e =>
        (handler? nodes (delayedOf nodes) e.handlerKey).map (·.name)).eraseDups else none :=
  getElem?_map_range _ _ j

theorem getElem?_postActions (source : Text) (nodes : List GraphNode) (j : Nat) :
    (ofNodes source nodes).postActions[j]? = if j < nodes.length then
      some ((startingAt nodes j ((edgesOf nodes).filter (!·.isDelayed))).map fun e =>
        ⟨e.target, e.action, indexOf? nodes e.target⟩) else none :=
  getElem?_map_range _ _ j

theorem lt_length_of_indexOf? {ref : Text} {j : Nat} (h : indexOf? nodes ref = some j) :
    j < nodes.length := by
  obtain ⟨⟨node, hnode, -⟩, -⟩ := indexOf?_eq_some_iff.1 h
  exact (List.getElem?_eq_some_iff.1 hnode).1

/-- A node is told the names of the handlers of the delayed edges that start at it. -/
theorem mem_notifyRefs_iff {j : Nat} {name : Text} :
    name ∈ (ofNodes source nodes).notifyRefs.getD j [] ↔
      ∃ e ∈ delayedOf nodes, indexOf? nodes e.origin = some j ∧
        ∃ h ∈ (ofNodes source nodes).handlers, h.key = e.handlerKey ∧ h.name = name := by
  rw [List.getD_eq_getElem?_getD, getElem?_notifyRefs]
  constructor
  · intro hmem
    split at hmem
    · rw [Option.getD_some, List.mem_eraseDups, List.mem_filterMap] at hmem
      obtain ⟨e, he, hname⟩ := hmem
      obtain ⟨h, hsome, rfl⟩ := Option.map_eq_some_iff.1 hname
      obtain ⟨hdelayed, hindex⟩ := mem_startingAt.1 he
      exact ⟨e, hdelayed, hindex, h, mem_handlers_iff.2 ⟨e, hdelayed, hsome⟩, key_of_handler? hsome, rfl⟩
    · exact absurd hmem List.not_mem_nil
  · rintro ⟨e, he, hindex, h, hh, hkey, rfl⟩
    rw [if_pos (lt_length_of_indexOf? hindex), Option.getD_some, List.mem_eraseDups, List.mem_filterMap]
    refine ⟨e, mem_startingAt.2 ⟨he, hindex⟩, ?_⟩
    rw [← hkey, handler?_key hh]
    rfl

theorem mem_postActions_iff {j : Nat} {p : PostAction} :
    p ∈ (ofNodes source nodes).postActions.getD j [] ↔
      ∃ e ∈ edgesOf nodes, e.timing = .immediately ∧ indexOf? nodes e.origin = some j ∧
        p = ⟨e.target, e.action, indexOf? nodes e.target⟩ := by
  have himmediate : ∀ e : Edge, (!e.isDelayed) = true ↔ e.timing = .immediately := by
    rintro ⟨_, _, _, timing, _, _, _⟩
    cases timing <;> simp [Edge.isDelayed]
  rw [List.getD_eq_getElem?_getD, getElem?_postActions]
  constructor
  · intro hmem
    split at hmem
    · obtain ⟨e, he, rfl⟩ := List.mem_map.1 (by simpa using hmem)
      obtain ⟨hedge, hindex⟩ := mem_startingAt.1 he
      obtain ⟨hedge, htiming⟩ := List.mem_filter.1 hedge
      exact ⟨e, hedge, (himmediate e).1 htiming, hindex, rfl⟩
    · exact absurd hmem List.not_mem_nil
  · rintro ⟨e, he, htiming, hindex, rfl⟩
    rw [if_pos (lt_length_of_indexOf? hindex), Option.getD_some]
    exact List.mem_map.2 ⟨e, mem_startingAt.2 ⟨List.mem_filter.2 ⟨he, (himmediate e).2 htiming⟩, hindex⟩, rfl⟩

end NotificationGraph

/-! ### Targets and actions -/

/-- No reference and no action of the node has the unit that stands between them in a key. -/
def GraphNode.NulFree (node : GraphNode) : Prop :=
  (0 : CodeUnit) ∉ node.ref ∧
    ∀ n ∈ node.notifications, (0 : CodeUnit) ∉ n.targetRef ∧ (0 : CodeUnit) ∉ n.action

instance GraphNode.decidableNulFree (node : GraphNode) : Decidable node.NulFree :=
  inferInstanceAs (Decidable (_ ∧ ∀ n ∈ node.notifications, _))

namespace NotificationGraph

/-- An edge takes its target and its action from a node and a notification of it. -/
theorem edge_satisfies {P Q : Text → Prop} {nodes : List GraphNode}
    (hnodes : ∀ node ∈ nodes, P node.ref ∧ ∀ n ∈ node.notifications, P n.targetRef ∧ Q n.action) {e : Edge}
    (he : e ∈ edgesOf nodes) : P e.target ∧ Q e.action := by
  obtain ⟨d, hd, rfl⟩ := mem_edgesOf.1 he
  obtain ⟨node, hnode, href, hn⟩ := mem_declared.1 hd
  obtain ⟨hown, hall⟩ := hnodes node (List.mem_of_getElem? hnode)
  obtain ⟨htarget, haction⟩ := hall _ hn
  have hedge := d.renders_edge
  refine ⟨?_, hedge.action ▸ haction⟩
  have hends := hedge.ends
  split at hends
  · exact hends.2 ▸ htarget
  · exact hends.2 ▸ href ▸ hown

section Pairs

variable {source : Text} {nodes : List GraphNode} (hnodes : ∀ node ∈ nodes, node.NulFree)

include hnodes

/-- Two edges have one key exactly when they have one target and one action. -/
theorem handlerKey_eq_iff {e e' : Edge} (he : e ∈ edgesOf nodes) :
    e.handlerKey = e'.handlerKey ↔ e.pair = e'.pair := by
  obtain ⟨htarget, haction⟩ := edge_satisfies (P := fun t => 0 ∉ t) (Q := fun t => 0 ∉ t) hnodes he
  unfold Edge.handlerKey Edge.pair
  rw [List.append_cons_inj_of_notMem htarget haction, Prod.mk.injEq]
  simp

theorem pair_of_handler? {e : Edge} {h : HandlerSpec} (he : e ∈ delayedOf nodes)
    (hsome : handler? nodes (delayedOf nodes) e.handlerKey = some h) : h.pair = e.pair := by
  obtain ⟨first, -, hkey, htarget, haction, -⟩ := handler?_eq_some hsome
  rw [(handlerKey_eq_iff hnodes (mem_delayedOf.1 he).1).1 hkey.symm]
  unfold HandlerSpec.pair Edge.pair
  rw [htarget, haction]

/-- The handlers have the targets and actions of the delayed edges, each once and as first seen. -/
theorem pairs_handlers : (ofNodes source nodes).handlers.map HandlerSpec.pair =
    ((delayedOf nodes).map Edge.pair).eraseDups := by
  let key : Text × Text → Text := fun p => p.1 ++ 0 :: p.2
  have hkeys : (delayedOf nodes).map Edge.handlerKey = ((delayedOf nodes).map Edge.pair).map key := by
    rw [List.map_map]
    rfl
  have hinj : ∀ p ∈ (delayedOf nodes).map Edge.pair, ∀ p' ∈ (delayedOf nodes).map Edge.pair,
      key p = key p' → p = p' := by
    intro p hp p' hp' heq
    obtain ⟨e, he, rfl⟩ := List.mem_map.1 hp
    obtain ⟨e', -, rfl⟩ := List.mem_map.1 hp'
    exact (handlerKey_eq_iff hnodes (mem_delayedOf.1 he).1).1 heq
  have hpair : ∀ p ∈ ((delayedOf nodes).map Edge.pair).eraseDups,
      (handler? nodes (delayedOf nodes) (key p)).map HandlerSpec.pair = some p := by
    intro p hp
    obtain ⟨e, he, rfl⟩ := List.mem_map.1 (List.mem_eraseDups.1 hp)
    obtain ⟨h, hsome⟩ := exists_handler? nodes he
    show (handler? nodes (delayedOf nodes) e.handlerKey).map HandlerSpec.pair = _
    rw [hsome, Option.map_some, pair_of_handler? hnodes he hsome]
  show (List.filterMap _ ((delayedOf nodes).map Edge.handlerKey).eraseDups).map _ = _
  rw [hkeys, eraseDups_map hinj, List.filterMap_map, List.map_filterMap]
  exact (List.filterMap_congr hpair).trans List.filterMap_some

/-- The names a node is told are those of the targets and actions of its delayed edges. -/
theorem names_startingAt (j : Nat) :
    ((startingAt nodes j (delayedOf nodes)).filterMap fun e =>
        (handler? nodes (delayedOf nodes) e.handlerKey).map (·.name)) =
      (startingAt nodes j (delayedOf nodes)).map fun e => handlerName e.action e.target := by
  refine List.filterMap_eq_map_iff_forall_eq_some.2 fun e he => ?_
  have he := (mem_startingAt.1 he).1
  obtain ⟨h, hsome⟩ := exists_handler? nodes he
  obtain ⟨-, -, -, -, -, hname, -⟩ := handler?_eq_some hsome
  obtain ⟨htarget, haction⟩ := Prod.mk.inj (pair_of_handler? hnodes he hsome)
  rw [hsome, Option.map_some, hname, htarget, haction]

theorem triggeredBy_of_mem {h : HandlerSpec} (hmem : h ∈ (ofNodes source nodes).handlers) :
    h.triggeredBy =
      (((edgesOf nodes).filter fun e => e.isDelayed && e.pair == h.pair).map (·.origin)).eraseDups := by
  obtain ⟨e, he, hsome⟩ := mem_handlers_iff.1 hmem
  obtain ⟨-, -, -, -, -, -, -, htriggers⟩ := handler?_eq_some hsome
  rw [htriggers, pair_of_handler? hnodes he hsome]
  have hfilter : (delayedOf nodes).filter (·.handlerKey == e.handlerKey) =
      (edgesOf nodes).filter fun e' => e'.isDelayed && e'.pair == e.pair := by
    unfold delayedOf
    rw [List.filter_filter]
    refine List.filter_congr fun e' he' => ?_
    rw [Bool.and_comm, Bool.eq_iff_iff, Bool.and_eq_true, Bool.and_eq_true, beq_iff_eq, beq_iff_eq,
      handlerKey_eq_iff hnodes he']
  rw [hfilter]

end Pairs

/-! ### The account of all notifications -/

/-- The graph has everything that the notifications of the nodes ask for, and nothing else. A
reference stands for the first node that carries it. -/
structure Accounts (source : Text) (nodes : List GraphNode) (g : NotificationGraph) : Prop where
  edges : List.Forall₂ (fun d e => e.Renders d) (declared nodes) g.edges
  pairs : FirstSeen ((g.edges.filter Edge.isDelayed).map Edge.pair) (g.handlers.map HandlerSpec.pair)
  handlers : ∀ h ∈ g.handlers, h.name = handlerName h.action h.targetRef ∧
    h.targetIndex = indexOf? nodes h.targetRef ∧
    FirstSeen ((g.edges.filter fun e => e.isDelayed && e.pair == h.pair).map (·.origin)) h.triggeredBy
  notifyRefs : g.notifyRefs.length = nodes.length ∧ ∀ j names, g.notifyRefs[j]? = some names →
    FirstSeen ((startingAt nodes j (g.edges.filter Edge.isDelayed)).map fun e =>
      handlerName e.action e.target) names
  postActions : g.postActions.length = nodes.length ∧ ∀ j posts, g.postActions[j]? = some posts →
    posts = (startingAt nodes j (g.edges.filter (!·.isDelayed))).map fun e =>
      ⟨e.target, e.action, indexOf? nodes e.target⟩
  triggered : ∀ (j : Nat) node, nodes[j]? = some node → ∀ name ∈ g.notifyRefs.getD j [],
    ∃ h ∈ g.handlers, h.name = name ∧ node.ref ∈ h.triggeredBy
  diagnostics : g.diagnostics =
    ((declared nodes).filter fun d => (indexOf? nodes d.notification.targetRef).isNone).map fun d =>
      ⟨.unresolvedTarget d.notification.direction d.notification.targetRef, source,
        d.notification.span, some d.ref⟩

theorem diagnostics_ofNodes (source : Text) (nodes : List GraphNode) :
    (ofNodes source nodes).diagnostics =
      ((declared nodes).filter fun d => (indexOf? nodes d.notification.targetRef).isNone).map fun d =>
        ⟨.unresolvedTarget d.notification.direction d.notification.targetRef, source,
          d.notification.span, some d.ref⟩ := by
  show (edgesOf nodes).filterMap (unresolved? source nodes) = _
  rw [edgesOf_eq, List.filterMap_map]
  induction declared nodes with
  | nil => rfl
  | cons d rest ih =>
    have hedge : unresolved? source nodes d.edge =
        if (indexOf? nodes d.notification.targetRef).isSome then none else
          some ⟨.unresolvedTarget d.notification.direction d.notification.targetRef, source,
            d.notification.span, some d.ref⟩ := by
      unfold unresolved?
      rw [d.otherEnd_edge, d.ownEnd_edge, d.renders_edge.direction, d.renders_edge.span]
    rw [List.filterMap_cons, Function.comp_apply, hedge, ih]
    cases hindex : indexOf? nodes d.notification.targetRef with
    | none => simp [hindex]
    | some i => simp [hindex]

/-- Where no reference and no action has the unit that stands between them in a key, the graph of the
nodes accounts for all their notifications. -/
theorem ofNodes_accounts (source : Text) (nodes : List GraphNode)
    (hnodes : ∀ node ∈ nodes, node.NulFree) : (ofNodes source nodes).Accounts source nodes where
  edges := by
    show List.Forall₂ _ _ (edgesOf nodes)
    rw [edgesOf_eq, List.forall₂_map_right_iff, List.forall₂_same]
    exact fun d _ => d.renders_edge
  pairs := by
    rw [pairs_handlers hnodes]
    exact firstSeen_eraseDups _
  handlers := by
    intro h hmem
    obtain ⟨e, he, hsome⟩ := mem_handlers_iff.1 hmem
    obtain ⟨-, -, -, -, -, hname, hindex, -⟩ := handler?_eq_some hsome
    refine ⟨hname, hindex, ?_⟩
    rw [triggeredBy_of_mem hnodes hmem]
    exact firstSeen_eraseDups _
  notifyRefs := by
    refine ⟨by simp [ofNodes], fun j names hnames => ?_⟩
    rw [getElem?_notifyRefs, names_startingAt hnodes, Option.ite_none_right_eq_some,
      Option.some.injEq] at hnames
    rw [← hnames.2]
    exact firstSeen_eraseDups _
  postActions := by
    refine ⟨by simp [ofNodes], fun j posts hposts => ?_⟩
    rw [getElem?_postActions, Option.ite_none_right_eq_some, Option.some.injEq] at hposts
    exact hposts.2.symm
  triggered := by
    intro j node hnode name hname
    obtain ⟨e, he, hindex, h, hmem, hkey, rfl⟩ := mem_notifyRefs_iff.1 hname
    refine ⟨h, hmem, rfl, ?_⟩
    obtain ⟨⟨first, hfirst, horigin⟩, -⟩ := indexOf?_eq_some_iff.1 hindex
    obtain rfl : first = node := Option.some.inj (hfirst.symm.trans hnode)
    -- the handler with the key of the edge is the one made for it, so the edge is among its own
    obtain ⟨-, -, -, -, -, -, -, htriggers⟩ := handler?_eq_some (handler?_key hmem)
    rw [htriggers, List.mem_eraseDups, horigin]
    exact List.mem_map_of_mem (List.mem_filter.2 ⟨he, by simp [hkey]⟩)
  diagnostics := diagnostics_ofNodes source nodes

/-- A service that subscribes to a template, which notifies it in turn, both with the same action. -/
theorem ofNodes_accounts_mutual :
    let nodes : List GraphNode :=
      [⟨"template[a]", [⟨"restart", "service[b]", .delayed, .notifies, .origin⟩]⟩,
       ⟨"service[b]", [⟨"restart", "template[a]", .delayed, .subscribes, .origin⟩,
         ⟨"run", "execute[c]", .immediately, .notifies, .origin⟩]⟩]
    (∀ node ∈ nodes, node.NulFree) ∧ (ofNodes "default.rb" nodes).Accounts "default.rb" nodes ∧
      (ofNodes "default.rb" nodes).notifyRefs = [[Text.ofString "Restart service b"], []] := by
  intro nodes
  have hnodes : ∀ node ∈ nodes, node.NulFree := by decide
  exact ⟨hnodes, ofNodes_accounts _ nodes hnodes, by decide⟩

end NotificationGraph

end Cookbook
