import FeatureDepot.Descriptor
import FeatureDepot.Proofs.Markup.Fields

/-! Descriptors as they stand in documents. However a document is spelled, whatever the order of its
elements of different names, and whatever else is between them, it is read as the descriptor that
its elements show. -/
namespace FeatureDepot
open Markup

namespace Descriptor

/-- The texts of an attribute for a truth value. It can be left out for one that is false. -/
def flagTexts : Bool → List (List String)
  | true => [["true"], ["1"]]
  | false => [[], ["false"], ["0"]]

def ShowsBundle (p : Piece) (b : Bundle) : Prop :=
  ∃ texts ∈ flagTexts b.dependency, p.Labels "dependency" texts b.location

def ShowsReference (p : Piece) (r : FeatureReference) : Prop :=
  p.Labels "version" r.version.toList r.name

def ShowsConfigFile (p : Piece) (c : ConfigFile) : Prop :=
  p.Labels "finalname" c.finalName.toList c.location

/-- An element that shows the bundles of a conditional and their conditions, each in order, and
perhaps other things. -/
structure ShowsConditional (p : Piece) (c : Conditional) : Prop where
  keeps : p.Keeps [] ["condition", "bundle"]
  conditions : List.Forall₂ Piece.Holds (p.children "condition") c.conditions
  bundles : List.Forall₂ ShowsBundle (p.children "bundle") c.bundles

structure ShowsFeature (p : Piece) (f : Feature) : Prop where
  keeps : p.Keeps ["name", "version"] ["feature", "bundle", "conditional", "configfile"]
  name : p.values "name" = [f.name]
  version : p.values "version" = f.version.toList
  dependencies : List.Forall₂ ShowsReference (p.children "feature") f.dependencies
  bundles : List.Forall₂ ShowsBundle (p.children "bundle") f.bundles
  conditionals : List.Forall₂ ShowsConditional (p.children "conditional") f.conditionals
  configFiles : List.Forall₂ ShowsConfigFile (p.children "configfile") f.configFiles

/-- An element that shows a descriptor, whatever its name is. -/
structure Shows (p : Piece) (d : Descriptor) : Prop where
  keeps : p.Keeps ["name"] ["repository", "feature"]
  name : p.values "name" = d.name.toList
  repositories : List.Forall₂ Piece.Holds (p.children "repository") d.repositories
  features : List.Forall₂ ShowsFeature (p.children "feature") d.features

lemma knows_bundleSchema : bundleSchema.Knows ["dependency"] [] := by
  refine .of_strings (fun name hname => ?_) (by decide) (by decide) (by decide)
  simp only [bundleSchema, String.ofList_toList] at hname
  split at hname <;> first | decide | cases hname

lemma knows_referenceSchema : referenceSchema.Knows ["version"] [] := by
  refine .of_strings (fun name hname => ?_) (by decide) (by decide) (by decide)
  simp only [referenceSchema, String.ofList_toList] at hname
  split at hname <;> first | decide | cases hname

lemma knows_configFileSchema : configFileSchema.Knows ["finalname"] [] := by
  refine .of_strings (fun name hname => ?_) (by decide) (by decide) (by decide)
  simp only [configFileSchema, String.ofList_toList] at hname
  split at hname <;> first | decide | cases hname

lemma knows_conditionalSchema : conditionalSchema.Knows [] ["condition", "bundle"] := by
  refine .of_strings (fun name hname => ?_) (by decide) (by decide) (by decide)
  simp only [conditionalSchema, String.ofList_toList] at hname
  split at hname <;> first | decide | cases hname

lemma knows_featureSchema :
    featureSchema.Knows ["name", "version"] ["feature", "bundle", "conditional", "configfile"] := by
  refine .of_strings (fun name hname => ?_) (by decide) (by decide) (by decide)
  simp only [featureSchema, String.ofList_toList] at hname
  split at hname <;> first | decide | cases hname

lemma knows_schema : schema.Knows ["name"] ["repository", "feature"] := by
  refine .of_strings (fun name hname => ?_) (by decide) (by decide) (by decide)
  simp only [schema, String.ofList_toList] at hname
  split at hname <;> first | decide | cases hname

variable {p : Piece}

lemma gives_reference {r : FeatureReference} (h : ShowsReference p r) :
    p.Gives (Source.record referenceSchema {} "struct FeatureReference") r := by
  refine h.gives knows_referenceSchema (Schema.setsBy_optional rfl h.values) rfl rfl ?_
  obtain ⟨version, name⟩ := r
  cases version <;> rfl

lemma gives_configFile {c : ConfigFile} (h : ShowsConfigFile p c) :
    p.Gives (Source.record configFileSchema {} "struct ConfigFile") c := by
  refine h.gives knows_configFileSchema (Schema.setsBy_optional rfl h.values) rfl rfl ?_
  obtain ⟨finalName, location⟩ := c
  cases finalName <;> rfl

lemma flag_of_mem_flagTexts : ∀ flag, ∀ texts ∈ flagTexts flag, ∀ text ∈ texts,
    bool? (trimBlank text.toList) = some flag := by decide +kernel

lemma gives_bundle {b : Bundle} (h : ShowsBundle p b) : p.Gives readBundle b := by
  obtain ⟨texts, htexts, h⟩ := h
  obtain ⟨read, hread, hgives⟩ :=
    Field.exists_value_eq Source.bool fun flag (b : Bundle) => { b with dependency := flag }
  have hsets : bundleSchema.SetsBy p "dependency"
      (texts.map fun _ b' => { b' with dependency := b.dependency }) :=
        Schema.setsBy_of_forall (congrArg some hread) h.values fun text htext raw hraw =>
          hgives _ _ (bool_value hraw (flag_of_mem_flagTexts _ texts htexts text htext))
  refine h.gives knows_bundleSchema hsets rfl rfl ?_
  obtain ⟨dependency, location⟩ := b
  revert texts
  cases dependency <;> simp [flagTexts]

lemma gives_conditional {c : Conditional} (h : ShowsConditional p c) :
    p.Gives (Source.record conditionalSchema {} "struct Conditional") c := by
  have hconditions : conditionalSchema.CollectsBy p "condition" _ :=
    Schema.collectsBy_many rfl h.conditions fun _ _ h => h.gives_string
  have hbundles : conditionalSchema.CollectsBy p "bundle" _ :=
    Schema.collectsBy_many rfl h.bundles fun _ _ h => gives_bundle h
  refine Piece.gives_record [] [("condition", _), ("bundle", _)] h.keeps knows_conditionalSchema rfl
    (by simp) .nil (List.forall_mem_cons.mpr ⟨hconditions, List.forall_mem_singleton.mpr hbundles⟩)
    ?_ (by simp [conditionalSchema]) ?_
  · simp [Part.Independent]
  · simp only [Part.applyFields_nil, Part.applyFields_cons]
    rw [foldl_many fun values (c : Conditional) => { c with conditions := c.conditions ++ values },
      foldl_many fun values (c : Conditional) => { c with bundles := c.bundles ++ values }] <;> simp

lemma gives_feature {f : Feature} (h : ShowsFeature p f) :
    p.Gives (Source.record featureSchema {} "struct Feature") f := by
  have hname : featureSchema.SetsBy p "name" _ := Schema.setsBy_value rfl h.name
  have hversion : featureSchema.SetsBy p "version" _ := Schema.setsBy_optional rfl h.version
  have hdependencies : featureSchema.CollectsBy p "feature" _ :=
    Schema.collectsBy_many rfl h.dependencies fun _ _ h => gives_reference h
  have hbundles : featureSchema.CollectsBy p "bundle" _ :=
    Schema.collectsBy_many rfl h.bundles fun _ _ h => gives_bundle h
  have hconditionals : featureSchema.CollectsBy p "conditional" _ :=
    Schema.collectsBy_many rfl h.conditionals fun _ _ h => gives_conditional h
  have hconfigFiles : featureSchema.CollectsBy p "configfile" _ :=
    Schema.collectsBy_many rfl h.configFiles fun _ _ h => gives_configFile h
  refine Piece.gives_record [("name", _), ("version", _)]
    [("feature", _), ("bundle", _), ("conditional", _), ("configfile", _)] h.keeps
    knows_featureSchema rfl
    (List.forall_mem_cons.mpr ⟨hname, List.forall_mem_singleton.mpr hversion⟩) ?_
    (List.forall_mem_cons.mpr ⟨hdependencies, List.forall_mem_cons.mpr ⟨hbundles,
      List.forall_mem_cons.mpr ⟨hconditionals, List.forall_mem_singleton.mpr hconfigFiles⟩⟩⟩)
    ?_ ?_ ?_
  · simp [Part.Independent]
  · simp [Part.Independent]
  · intro key hkey
    obtain rfl := List.mem_singleton.mp hkey
    have hmatch : "@name".toList = Schema.attributeKeyOf "name" := by decide
    exact ⟨_, List.mem_cons_self, by simp [h.name], hmatch⟩
  · simp only [Part.applyFields_nil, Part.applyFields_cons]
    rw [foldl_many fun values (f : Feature) => { f with dependencies := f.dependencies ++ values },
      foldl_many fun values (f : Feature) => { f with bundles := f.bundles ++ values },
      foldl_many fun values (f : Feature) => { f with conditionals := f.conditionals ++ values },
      foldl_many fun values (f : Feature) => { f with configFiles := f.configFiles ++ values },
      List.foldl_cons, List.foldl_nil,
      foldl_optional (fun version (f : Feature) => { f with version }) rfl] <;> simp

/-- An element that shows a descriptor is read as the descriptor. -/
theorem gives_descriptor {d : Descriptor} (h : Shows p d) :
    p.Gives (Source.record schema {} "struct FeaturesDescriptor") d := by
  have hname : schema.SetsBy p "name" _ := Schema.setsBy_optional rfl h.name
  have hrepositories : schema.CollectsBy p "repository" _ :=
    Schema.collectsBy_many rfl h.repositories fun _ _ h => h.gives_string
  have hfeatures : schema.CollectsBy p "feature" _ :=
    Schema.collectsBy_many rfl h.features fun _ _ h => gives_feature h
  refine Piece.gives_record [("name", _)] [("repository", _), ("feature", _)] h.keeps knows_schema
    rfl (List.forall_mem_singleton.mpr hname) (List.pairwise_singleton _ _)
    (List.forall_mem_cons.mpr ⟨hrepositories, List.forall_mem_singleton.mpr hfeatures⟩) ?_
    (by simp [schema]) ?_
  · simp [Part.Independent]
  · simp only [Part.applyFields_nil, Part.applyFields_cons]
    rw [foldl_many fun values (d : Descriptor) =>
      { d with repositories := d.repositories ++ values },
        foldl_many fun values (d : Descriptor) => { d with features := d.features ++ values },
        foldl_optional (fun name (d : Descriptor) => { d with name }) rfl] <;> simp

/-- A document is read as the descriptor that its root shows: whatever the spelling of its tags and
texts, whatever the order of elements of different names, whatever else is between them, and
whatever follows the root. -/
theorem parse_of_shows {d : Descriptor} (h : Shows p d)
    (hfront : ∀ cs ∈ p.front.content, cs.all Text.isBlank) (rest : List Char) :
    parse (String.ofList (p.text ++ rest)) = .ok d := by
  obtain ⟨more, hnodes⟩ := p.exists_ofText hfront rest
  unfold parse
  rw [String.toList_ofList]
  dsimp only
  rw [hnodes, (gives_descriptor h).readRoot hfront]

end Descriptor
end FeatureDepot
