import Cookbook.Conversion.Log
import Cookbook.Fields

/-!
Settings of a conversion: defaults, layers laid over them, and settings read from named texts.
-/

namespace Cookbook

/-- The settings of a conversion: the collection of the modules of custom resources, the module of
placeholders, and whether attribute paths are replaced by their values. -/
structure Settings where
  customNamespace : Text
  fallbackModule : Text
  resolveAttributes : Bool
deriving DecidableEq

/-- Settings of which any may be left open. -/
structure SettingsLayer where
  customNamespace : Option Text
  fallbackModule : Option Text
  resolveAttributes : Option Bool

/-- The settings in force, and what the log says about how they were found. -/
structure LoadedSettings where
  settings : Settings
  log : List LogLine

namespace Settings

/-- The settings unless others are given. -/
def standard : Settings := ⟨"local.cookbook", "ansible.builtin.command", true⟩

def overlay (s : Settings) (layer : SettingsLayer) : Settings :=
  ⟨layer.customNamespace.getD s.customNamespace, layer.fallbackModule.getD s.fallbackModule,
    layer.resolveAttributes.getD s.resolveAttributes⟩

/-- The settings under some layers, the first lowest. -/
def ofLayers (layers : List SettingsLayer) : Settings := layers.foldl overlay standard

def parseBool? (t : Text) : Option Bool :=
  if (["true", "yes", "on", "1"].map Text.ofString).contains t then some true
  else if (["false", "no", "off", "0"].map Text.ofString).contains t then some false
  else none

/-- The key of the setting that says whether attribute paths are replaced. -/
def resolveAttributesKey : Text := "ladle.convert.resolve_attributes"

def invalidLine (t : Text) : LogLine :=
  ⟨.warn,
    "invalid ladle.convert configuration, using defaults: (Invalid data at " ++
      resolveAttributesKey ++ ": \"Expected a boolean value but received " ++ t ++ "\")",
    []⟩

/-- The settings given by named texts; of several with one name the last counts. One that cannot be
read makes all settings the standard ones. -/
def ofNamedTexts (texts : List (Text × Text)) : LoadedSettings :=
  let get := (Bindings.ofList texts).get?
  let layer (resolve : Option Bool) : SettingsLayer :=
    ⟨get "ladle.convert.custom_module_namespace", get "ladle.convert.fallback_module", resolve⟩
  match get resolveAttributesKey with
  | none => ⟨standard.overlay (layer none), []⟩
  | some t =>
    match parseBool? t with
    | some b => ⟨standard.overlay (layer (some b)), []⟩
    | none => ⟨standard, [invalidLine t]⟩

/-- The settings of some layers; named texts count only when there is no layer. -/
def load (layers : List SettingsLayer) (texts : List (Text × Text)) : LoadedSettings :=
  if layers.isEmpty then ofNamedTexts texts else ⟨ofLayers layers, []⟩

end Settings

end Cookbook
