import Cookbook.Value.Render

/-!
The resource table: for each built-in resource type the module that manages it, the parameter that
takes its name, what each action asks of the module, and which properties become which parameters.
-/

namespace Cookbook

/-- What an action asks: parameters, and perhaps another module or another parameter for the
name. -/
structure ActionEffect where
  params : Fields TaskValue
  module : Option Text
  nameParam : Option Text

/-- How a resource type is managed. Properties that are not listed are dropped; without a parameter
for the name the name is a mere label. -/
structure ResourceMapping where
  module : Text
  nameParam : Option Text
  defaultAction : Text
  actions : Fields ActionEffect
  properties : Fields Text

/-- The mapping of each resource type. -/
abbrev ResourceTable := Fields ResourceMapping

namespace ResourceTable

/-! ### Shorthands -/

/-- The effect of an action that sets parameters. -/
def on (params : List (Text × TaskValue)) : ActionEffect := ⟨.ofList params, none, none⟩

/-- A state for the module to reach. -/
def state (s : Text) : ActionEffect := on [("state", .ofText s)]

/-- A switch of the module. -/
def switch (param : Text) (value : Bool) : ActionEffect := on [(param, .ofBool value)]

/-- No effect. -/
def nothing : ActionEffect := on []

/-- The effect of an action on a file that the file module carries out. -/
def fileState (s : Text) : ActionEffect :=
  ⟨.ofList [("state", .ofText s)], some "ansible.builtin.file", some "path"⟩

/-- Properties whose parameters have the same names. -/
def same (names : List Text) : List (Text × Text) := names.map fun name => (name, name)

def named (module nameParam defaultAction : Text) (actions : List (Text × ActionEffect))
    (properties : List (Text × Text)) : ResourceMapping :=
  ⟨module, some nameParam, defaultAction, .ofList actions, .ofList properties⟩

/-- A mapping whose name is a label. -/
def labelled (module defaultAction : Text) (actions : List (Text × ActionEffect))
    (properties : List (Text × Text)) : ResourceMapping :=
  ⟨module, none, defaultAction, .ofList actions, .ofList properties⟩

/-! ### The built-in types -/

def packageActions : List (Text × ActionEffect) :=
  [("install", state "present"), ("upgrade", state "latest"), ("remove", state "absent"),
   ("purge", state "absent"), ("nothing", nothing)]

def serviceActions : List (Text × ActionEffect) :=
  [("start", state "started"), ("stop", state "stopped"), ("restart", state "restarted"),
   ("reload", state "reloaded"), ("enable", switch "enabled" true),
   ("disable", switch "enabled" false), ("nothing", nothing)]

/-- The actions of files whose content comes from somewhere. -/
def contentActions : List (Text × ActionEffect) :=
  [("create", nothing), ("create_if_missing", switch "force" false), ("delete", fileState "absent"),
   ("nothing", nothing)]

/-- The actions of users and groups that both have. -/
def accountActions : List (Text × ActionEffect) :=
  [("create", state "present"), ("manage", state "present"), ("modify", state "present"),
   ("remove", state "absent")]

def fileProperties : List (Text × Text) := same ["owner", "group", "mode", "backup"]

def package (module : Text) : ResourceMapping :=
  named module "name" "install" packageActions [("package_name", "name")]

def packageTypes : List (Text × ResourceMapping) :=
  [("package", package "ansible.builtin.package"),
   ("apt_package", named "ansible.builtin.apt" "name" "install"
      (packageActions.append [("purge", on [("state", .ofText "absent"), ("purge", .ofBool true)])])
      [("package_name", "name"), ("default_release", "default_release"),
       ("options", "dpkg_options")]),
   ("yum_package", package "ansible.builtin.dnf"),
   ("dnf_package", package "ansible.builtin.dnf")]

def serviceTypes : List (Text × ResourceMapping) :=
  [("service", named "ansible.builtin.service" "name" "nothing" serviceActions
      [("service_name", "name"), ("pattern", "pattern")]),
   ("systemd_unit", named "ansible.builtin.systemd_service" "name" "nothing"
      (serviceActions.append [("mask", switch "masked" true), ("unmask", switch "masked" false),
        ("daemon_reload", switch "daemon_reload" true)])
      [("unit_name", "name")])]

def fileTypes : List (Text × ResourceMapping) :=
  [("file", named "ansible.builtin.copy" "dest" "create"
      [("create", nothing), ("create_if_missing", switch "force" false),
       ("touch", fileState "touch"), ("delete", fileState "absent"), ("nothing", nothing)]
      (fileProperties.append [("content", "content"), ("path", "dest")])),
   ("template", named "ansible.builtin.template" "dest" "create" contentActions
      (fileProperties.append [("source", "src"), ("path", "dest")])),
   ("cookbook_file", named "ansible.builtin.copy" "dest" "create" contentActions
      (fileProperties.append [("source", "src"), ("path", "dest")])),
   ("remote_file", named "ansible.builtin.get_url" "dest" "create" contentActions
      (fileProperties.append [("source", "url"), ("path", "dest"), ("checksum", "checksum"),
        ("headers", "headers")])),
   ("directory", named "ansible.builtin.file" "path" "create"
      [("create", state "directory"), ("delete", state "absent"), ("nothing", nothing)]
      [("owner", "owner"), ("group", "group"), ("mode", "mode"), ("recursive", "recurse"),
       ("path", "path")]),
   ("link", named "ansible.builtin.file" "path" "create"
      [("create", state "link"), ("delete", state "absent"), ("nothing", nothing)]
      [("to", "src"), ("target_file", "path"), ("owner", "owner"), ("group", "group"),
       ("mode", "mode")])]

def commandTypes : List (Text × ResourceMapping) :=
  [("execute", named "ansible.builtin.command" "cmd" "run" [("run", nothing), ("nothing", nothing)]
      [("command", "cmd"), ("cwd", "chdir"), ("creates", "creates")]),
   ("bash", labelled "ansible.builtin.shell" "run"
      [("run", on [("executable", .ofText "/bin/bash")]), ("nothing", nothing)]
      [("code", "cmd"), ("cwd", "chdir"), ("creates", "creates")]),
   ("script", labelled "ansible.builtin.shell" "run" [("run", nothing), ("nothing", nothing)]
      [("code", "cmd"), ("interpreter", "executable"), ("cwd", "chdir"), ("creates", "creates")])]

def systemTypes : List (Text × ResourceMapping) :=
  [("user", named "ansible.builtin.user" "name" "create"
      (accountActions.append [("lock", switch "password_lock" true),
        ("unlock", switch "password_lock" false), ("nothing", nothing)])
      ((same ["uid", "home", "shell", "comment", "password", "system"]).append
        [("username", "name"), ("gid", "group"), ("manage_home", "create_home")])),
   ("group", named "ansible.builtin.group" "name" "create"
      (accountActions.append [("nothing", nothing)])
      [("group_name", "name"), ("gid", "gid"), ("system", "system")]),
   ("cron", named "ansible.builtin.cron" "name" "create"
      [("create", state "present"), ("delete", state "absent"), ("nothing", nothing)]
      ((same ["minute", "hour", "day", "month", "weekday", "user"]).append [("command", "job")])),
   ("git", named "ansible.builtin.git" "dest" "sync"
      [("sync", switch "update" true), ("checkout", switch "update" false), ("nothing", nothing)]
      [("repository", "repo"), ("revision", "version"), ("destination", "dest"),
       ("depth", "depth")]),
   ("mount", named "ansible.posix.mount" "path" "mount"
      [("mount", state "mounted"), ("umount", state "unmounted"), ("unmount", state "unmounted"),
       ("remount", state "remounted"), ("enable", state "present"), ("disable", state "absent"),
       ("nothing", nothing)]
      [("device", "src"), ("fstype", "fstype"), ("options", "opts"), ("mount_point", "path"),
       ("dump", "dump"), ("pass", "passno")])]

/-- What recipes do by themselves. -/
def recipeTypes : List (Text × ResourceMapping) :=
  [("log", named "ansible.builtin.debug" "msg" "write" [("write", nothing), ("nothing", nothing)]
      [("message", "msg")]),
   ("include_recipe", named "ansible.builtin.include_role" "name" "include"
      [("include", nothing)] [])]

/-- The built-in types. -/
def builtin : ResourceTable :=
  .ofList (packageTypes ++ serviceTypes ++ fileTypes ++ commandTypes ++ systemTypes ++ recipeTypes)

end ResourceTable

end Cookbook
