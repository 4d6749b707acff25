import Cookbook.Condition.Basic
import Cookbook.Value.Render

/-!
Conditions as `when` expressions. Attributes that the target system knows as facts are written as
those facts.
-/

namespace Cookbook

def platformFact : Text := "ansible_facts['distribution'] | lower"

def platformFamilyFact : Text := "ansible_facts['os_family'] | lower"

/-- The facts for automatic attributes. -/
def facts : List (Text × Text) :=
  [("platform", platformFact), ("platform_family", platformFamilyFact),
   ("platform_version", "ansible_facts['distribution_version']"),
   ("hostname", "ansible_facts['hostname']"), ("fqdn", "ansible_facts['fqdn']"),
   ("ipaddress", "ansible_facts['default_ipv4']['address']")]

/-- The fact for an automatic attribute, or the text of the member that it names. -/
def factOf? (name : Text) : Option Text := (lookup? name facts).or (Inherited.text? name)

/-- The fact a value stands for: a path of one key into the node. -/
def Value.fact? : Value → Option Text
  | .path scope [key] => if scope = .newResource then none else factOf? key
  | _ => none

/-- A value as an operand of a condition. -/
def Value.operand (v : Value) : Text := v.fact?.getD v.expression

/-- A value as the right side of a membership test. -/
def Value.members : Value → Text
  | .list items => (Value.list items).operand
  | v => "[" ++ v.operand ++ "]"

/-- The text that stands where a part of an expression has none. -/
def missingText : Text := "undefined"

def TestKind.render (kind : TestKind) (subject : Value) : Text :=
  let s := subject.operand
  match kind with
  | pathExists => s ++ " is exists"
  | fileExists => s ++ " is file"
  | directoryExists => s ++ " is directory"
  | commandAvailable =>
    "lookup('ansible.builtin.pipe', 'command -v ' ~ " ++ s ++ " ~ ' || true') | length > 0"
  | serviceActive =>
    "ansible_facts.services[" ++ s ++ " ~ '.service'].state | default('') == 'running'"
  | serviceEnabled =>
    "ansible_facts.services[" ++ s ++ " ~ '.service'].status | default('') == 'enabled'"
  | processRunning =>
    "lookup('ansible.builtin.pipe', 'pgrep -f ' ~ " ++ s ++ " ~ ' || true') | length > 0"
  | packageInstalled => s ++ " in ansible_facts.packages"
  | userExists => s ++ " in getent_passwd"
  | groupExists => s ++ " in getent_group"
  | platform => platformFact ++ " in " ++ subject.members
  | platformFamily => platformFamilyFact ++ " in " ++ subject.members
  | inherited _ => missingText

/-- A comparison as an expression; equality with nil is a test of its own. -/
def CompareOp.render (op : CompareOp) (left right : Value) : Text :=
  match op, right with
  | .eq, .literal .nil => left.operand ++ " is none"
  | .ne, .literal .nil => left.operand ++ " is not none"
  | _, _ => left.operand ++ " " ++ op.sign ++ " " ++ right.operand

/-- Whether a condition goes into parentheses as a part of another one. -/
def Condition.needsGroup : Condition → Bool
  | .all _ | .any _ | .test _ _ | .compare _ _ _ => true
  | _ => false

/-- The text of a part of a condition. -/
def Condition.group (c : Condition) (text : Text) : Text :=
  if c.needsGroup then "(" ++ text ++ ")" else text

mutual

/-- The condition as a `when` expression, as it stands in larger ones. -/
def Condition.render : Condition → Text
  | .const value => if value then "true" else "false"
  | .test kind subject => kind.render subject
  | .compare left op right => op.render left right
  | .truthy value => value.operand ++ " | bool"
  | .not c => "not " ++ c.group c.render
  | .all cs => Text.join " and " (renderParts cs)
  | .any cs => Text.join " or " (renderParts cs)
  | .verbatim raw => raw

def renderParts : List Condition → List Text
  | [] => []
  | c :: rest => c.group c.render :: renderParts rest

end

/-- The condition as a `when` expression by itself. -/
def Condition.when? : Condition → Option Text
  | .test (.inherited _) _ => none
  | c => some c.render

end Cookbook
