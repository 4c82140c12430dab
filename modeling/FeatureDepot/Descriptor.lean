import FeatureDepot.Markup.Record

/-! Feature descriptors. A feature bundles what is installed together: bundles and configuration
files, given by their locations, and other features that it needs. -/
namespace FeatureDepot

/-- A file to install. What a bundle is marked as a dependency for is provided by something else, as
a rule. -/
structure Bundle where
  dependency : Bool := false
  location : String := ""
  deriving DecidableEq, Repr

/-- A feature that another one needs, by its name and perhaps a version. -/
structure FeatureReference where
  version : Option String := none
  name : String := ""
  deriving DecidableEq, Repr

/-- Bundles that are installed only under conditions. -/
structure Conditional where
  conditions : List String := []
  bundles : List Bundle := []
  deriving DecidableEq, Repr

/-- A configuration file, and the name that it is installed under. -/
structure ConfigFile where
  finalName : Option String := none
  location : String := ""
  deriving DecidableEq, Repr

structure Feature where
  name : String := ""
  version : Option String := none
  dependencies : List FeatureReference := []
  bundles : List Bundle := []
  conditionals : List Conditional := []
  configFiles : List ConfigFile := []
  deriving DecidableEq, Repr

/-- A name, and a version if there is one, with a slash between them. -/
def featureId (name : String) (version : Option String) : String :=
  match version with
  | some v => name ++ "/" ++ v
  | none => name

def Feature.id (f : Feature) : String := featureId f.name f.version

/-- A document of features that refers to other such documents by their locations. -/
structure Descriptor where
  name : Option String := none
  repositories : List String := []
  features : List Feature := []
  deriving DecidableEq, Repr

namespace Descriptor

open Markup

def bundleSchema : Schema Bundle where
  field? key := match String.ofList key with
    | "@dependency" => some (.value Source.bool fun v b => { b with dependency := v })
    | "$text" => some (.value Source.string fun v b => { b with location := v })
    | _ => none
  required := ["$text"]

def referenceSchema : Schema FeatureReference where
  field? key := match String.ofList key with
    | "@version" => some (.optional Source.string fun v r => { r with version := v })
    | "$text" => some (.value Source.string fun v r => { r with name := v })
    | _ => none
  required := ["$text"]

/-- Reads a bundle. -/
def readBundle : Source → Except Fault Bundle := Source.record bundleSchema {} "struct Bundle"

def conditionalSchema : Schema Conditional where
  field? key := match String.ofList key with
    | "condition" =>
      some (.many Source.string fun v c => { c with conditions := c.conditions ++ [v] })
    | "bundle" => some (.many readBundle fun v c => { c with bundles := c.bundles ++ [v] })
    | _ => none
  required := []

def configFileSchema : Schema ConfigFile where
  field? key := match String.ofList key with
    | "@finalname" => some (.optional Source.string fun v c => { c with finalName := v })
    | "$text" => some (.value Source.string fun v c => { c with location := v })
    | _ => none
  required := ["$text"]

def featureSchema : Schema Feature where
  field? key := match String.ofList key with
    | "@name" => some (.value Source.string fun v f => { f with name := v })
    | "@version" => some (.optional Source.string fun v f => { f with version := v })
    | "feature" => some (.many (Source.record referenceSchema {} "struct FeatureReference")
        fun v f => { f with dependencies := f.dependencies ++ [v] })
    | "bundle" => some (.many readBundle fun v f => { f with bundles := f.bundles ++ [v] })
    | "conditional" => some (.many (Source.record conditionalSchema {} "struct Conditional")
        fun v f => { f with conditionals := f.conditionals ++ [v] })
    | "configfile" => some (.many (Source.record configFileSchema {} "struct ConfigFile")
        fun v f => { f with configFiles := f.configFiles ++ [v] })
    | _ => none
  required := ["@name"]

def schema : Schema Descriptor where
  field? key := match String.ofList key with
    | "@name" => some (.optional Source.string fun v d => { d with name := v })
    | "repository" =>
      some (.many Source.string fun v d => { d with repositories := d.repositories ++ [v] })
    | "feature" => some (.many (Source.record featureSchema {} "struct Feature")
        fun v d => { d with features := d.features ++ [v] })
    | _ => none
  required := []

/-- Reads a descriptor. -/
def parse (text : String) : Except Fault Descriptor :=
  let document := Document.ofText text.toList
  schema.readRoot {} "struct FeaturesDescriptor" document.fault document.nodes

/-- White space belongs to a location. -/
example : (parse "<f><feature name='n'><bundle> b </bundle></feature></f>").toOption =
    some { features := [{ name := "n", bundles := [⟨false, " b "⟩] }] } := by decide +kernel

end Descriptor
end FeatureDepot
