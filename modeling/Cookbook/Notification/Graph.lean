import Cookbook.Diagnostic.Basic
import Cookbook.Notification.Ref

/-!
The notifications of a recipe as a graph. Each notification is an edge from the resource that
changes to the one that acts. Delayed edges with one target and action share a handler, in the
order in which they are first seen; immediate edges stay with the resource they start from.
-/

namespace Cookbook

/-- A notification with its target written out. -/
structure GraphNotification where
  action : Text
  targetRef : Text
  timing : Timing
  direction : Direction
  span : Span

/-- A declaration as the graph sees it. -/
structure GraphNode where
  ref : Text
  notifications : List GraphNotification

/-- An edge: the resource that changes, the one that acts, and the node that declares it. -/
structure Edge where
  origin : Text
  target : Text
  action : Text
  timing : Timing
  direction : Direction
  span : Span
  declaredBy : Nat

/-- A handler to be made: the action on a target, which may be a node of the recipe, and the
resources that trigger it. -/
structure HandlerSpec where
  name : Text
  targetRef : Text
  action : Text
  targetIndex : Option Nat
  triggeredBy : List Text
  span : Span

/-- An action to run right after a node. -/
structure PostAction where
  targetRef : Text
  action : Text
  targetIndex : Option Nat

/-- The graph of a recipe; handler names and actions are given for each node. -/
structure NotificationGraph where
  edges : List Edge
  handlers : List HandlerSpec
  notifyRefs : List (List Text)
  postActions : List (List PostAction)
  diagnostics : List Diagnostic

namespace Edge

/-- The edge of a notification of the node with the given index. -/
def ofNotification (ref : Text) (index : Nat) (n : GraphNotification) : Edge :=
  match n.direction with
  | .notifies => ⟨ref, n.targetRef, n.action, n.timing, n.direction, n.span, index⟩
  | .subscribes => ⟨n.targetRef, ref, n.action, n.timing, n.direction, n.span, index⟩

/-- The end of an edge that its declaration names. -/
def otherEnd (e : Edge) : Text :=
  match e.direction with
  | .notifies => e.target
  | .subscribes => e.origin

/-- The end of an edge that declares it. -/
def ownEnd (e : Edge) : Text :=
  match e.direction with
  | .notifies => e.origin
  | .subscribes => e.target

/-- The key of the handler an edge belongs to. -/
def handlerKey (e : Edge) : Text := e.target ++ 0 :: e.action

/-- Whether the action is put off to the end. -/
def isDelayed (e : Edge) : Bool := e.timing == .delayed

end Edge

namespace NotificationGraph

/-- The index of the first node with a reference. -/
def indexOf? (nodes : List GraphNode) (ref : Text) : Option Nat := nodes.findIdx? (·.ref == ref)

/-- The edges of the nodes, in the order declared. -/
def edgesOf (nodes : List GraphNode) : List Edge :=
  nodes.zipIdx.flatMap fun (node, index) =>
    node.notifications.map (Edge.ofNotification node.ref index)

/-- The handler of the delayed edges with a key: its target and action are those of the first. -/
def handler? (nodes : List GraphNode) (delayed : List Edge) (key : Text) : Option HandlerSpec :=
  let own := delayed.filter (·.handlerKey == key)
  own.head?.map fun first =>
    ⟨handlerName first.action first.target, first.target, first.action,
      indexOf? nodes first.target, (own.map (·.origin)).eraseDups, first.span⟩

/-- The warning about an edge whose other end is no node. -/
def unresolved? (source : Text) (nodes : List GraphNode) (e : Edge) : Option Diagnostic :=
  if (indexOf? nodes e.otherEnd).isSome then none
  else some ⟨.unresolvedTarget e.direction e.otherEnd, source, e.span, some e.ownEnd⟩

/-- The graph of the given nodes. -/
def ofNodes (source : Text) (nodes : List GraphNode) : NotificationGraph :=
  let edges := edgesOf nodes
  let delayed := edges.filter Edge.isDelayed
  let immediate := edges.filter (!·.isDelayed)
  let handler (key : Text) := handler? nodes delayed key
  let starting (index : Nat) (es : List Edge) :=
    es.filter fun e => indexOf? nodes e.origin == some index
  { edges
    handlers := (delayed.map (·.handlerKey)).eraseDups.filterMap handler
    notifyRefs := (List.range nodes.length).map fun index =>
      ((starting index delayed).filterMap fun e => (handler e.handlerKey).map (·.name)).eraseDups
    postActions := (List.range nodes.length).map fun index =>
      (starting index immediate).map fun e => ⟨e.target, e.action, indexOf? nodes e.target⟩
    diagnostics := edges.filterMap (unresolved? source nodes) }

end NotificationGraph

end Cookbook
