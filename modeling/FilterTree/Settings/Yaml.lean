import FilterTree.Settings
import FilterTree.Yaml.Document

/-!
# Settings files

A settings file is a YAML document: a mapping of options to values, or empty for the defaults.
Options with other names are ignored, whatever their values.
-/

namespace FilterTree

/-- The boolean that a value is. Only plain scalars in one of three spellings are booleans. -/
def Yaml.bool? : Yaml → Option Bool
  | .plain text =>
    if text ∈ ["true", "True", "TRUE"] then some true
    else if text ∈ ["false", "False", "FALSE"] then some false
    else none
  | _ => none

namespace Settings

/-- The values that a mapping gives to an option. All keys of the mapping must be scalars. -/
def valuesOf? (option : String) : List (Yaml × Yaml) → Option (List Yaml)
  | [] => some []
  | (key, v) :: entries => do
    let name ← key.scalar?
    let vs ← valuesOf? option entries
    some (if name = option then v :: vs else vs)

/-- The settings of a mapping. The option may be left out, but not given twice. -/
def ofEntries? (entries : List (Yaml × Yaml)) : Option Settings := do
  match ← valuesOf? validateKey entries with
  | [] => some {}
  | [v] => v.bool?.map Settings.mk
  | _ => none

/-- The settings that a file gives. -/
def ofYaml? (text : String) : Option Settings := do
  match ← Yaml.document? text with
  | none | some (.plain "") => some {}
  | some (.mapping entries) => ofEntries? entries
  | _ => none

end Settings

end FilterTree
