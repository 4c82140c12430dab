import FeatureDepot.Proofs.Descriptor.Documents

/-! Documents of descriptors. Every descriptor whose texts can stand in a document is shown by one,
written with references for the characters of markup. -/
namespace FeatureDepot
open Markup

namespace Markup

variable {name text : String}

/-- The name of an attribute that binds no prefix. -/
def IsKey (name : String) : Prop :=
  IsTagName name.toList ∧ "xmlns:".toList.isPrefixOf? name.toList = none

instance (name : String) : Decidable (IsKey name) := inferInstanceAs (Decidable (_ ∧ _))

/-- An attribute as it is written, with references for what would be markup. -/
def AttributeText.written (name : {name : String // IsKey name}) (value : String) :
    AttributeText where
  gap := [' ']
  name := name.val.toList
  before := []
  after := []
  quote := '"'
  raw := escapeValue value.toList
  value := value.toList
  gap_ne_nil := List.cons_ne_nil _ _
  blank_gap := by decide
  isTagName := name.prop.1
  blank_before := List.forall_mem_nil _
  blank_after := List.forall_mem_nil _
  isQuote := .inl rfl
  not_mem_raw := Written.not_mem_escapeValue _
  spells := spellsValue_escapeValue _
  bindable := by
    intro pre hpre
    cases name.prop.2.symm.trans hpre

/-- Text as it is written, with references for what would be markup. -/
def Prose.written (text : String) : Prose :=
  ⟨escapeText text.toList, contentOf text.toList, spells_escapeText _⟩

section Writing

/-- The names of attributes, and their values if they are there. -/
abbrev Values := List ({name : String // IsKey name} × Option String)

variable {values : Values}

lemma Values.nodup_pair {key key' : {name : String // IsKey name}} (h : key ≠ key')
    (value? value'? : Option String) :
    ([(key, value?), (key', value'?)].map (·.1)).Nodup :=
  List.nodup_cons.mpr ⟨fun hmem => h (List.mem_singleton.mp hmem), List.pairwise_singleton _ _⟩

/-- The attributes that have a value. -/
def Values.texts (values : Values) : List AttributeText :=
  values.flatMap fun a => a.2.toList.map (AttributeText.written a.1)

lemma Values.mem_texts {a : AttributeText} (h : a ∈ values.texts) :
    ∃ v ∈ values, a.name = v.1.val.toList := by
  obtain ⟨v, hv, ha⟩ := List.mem_flatMap.mp h
  obtain ⟨value, -, rfl⟩ := List.mem_map.mp ha
  exact ⟨v, hv, rfl⟩

lemma Values.nodup_texts (h : (values.map (·.1)).Nodup) : (values.texts.map (·.name)).Nodup := by
  induction values with
  | nil => exact List.nodup_nil
  | cons v values ih =>
    rw [List.map_cons] at h
    obtain ⟨hnew, hrest⟩ := List.nodup_cons.mp h
    have hfresh : v.1.val.toList ∉ (texts values).map (·.name) := by
      intro hmem
      obtain ⟨a, ha, hname⟩ := List.mem_map.mp hmem
      obtain ⟨w, hw, hwname⟩ := mem_texts ha
      have hsame : w.1 = v.1 := Subtype.ext (String.toList_inj.mp (hwname.symm.trans hname))
      exact hnew (List.mem_map.mpr ⟨w, hw, hsame⟩)
    obtain ⟨key, value?⟩ := v
    cases value? with
    | none => exact ih hrest
    | some value => exact List.nodup_cons.mpr ⟨hfresh, ih hrest⟩

/-- Under a name there is its value, if it has one. -/
theorem Values.filter_texts (h : (values.map (·.1)).Nodup) {key : {name : String // IsKey name}}
    {value? : Option String} (hmem : (key, value?) ∈ values) :
    (values.texts.filter (·.name = key.val.toList)).map (String.ofList ·.value) =
      value?.toList := by
  induction values with
  | nil => cases hmem
  | cons v values ih =>
    rw [List.map_cons] at h
    obtain ⟨hnew, hrest⟩ := List.nodup_cons.mp h
    rw [texts, List.flatMap_cons, List.filter_append, List.map_append, ← texts]
    rcases List.mem_cons.mp hmem with rfl | hmem
    · have hnone : (texts values).filter (·.name = key.val.toList) = [] := by
        refine List.filter_eq_nil_iff.mpr fun a ha hname => ?_
        obtain ⟨w, hw, hwname⟩ := mem_texts ha
        have hsame : w.1 = key :=
          Subtype.ext (String.toList_inj.mp (hwname.symm.trans (of_decide_eq_true hname)))
        exact hnew (List.mem_map.mpr ⟨w, hw, hsame⟩)
      rw [hnone]
      cases value? <;> simp [AttributeText.written]
    · have hne : v.1.val.toList ≠ key.val.toList := by
        intro heq
        have hsame : v.1 = key := Subtype.ext (String.toList_inj.mp heq)
        exact hnew (List.mem_map.mpr ⟨_, hmem, hsame.symm⟩)
      rw [ih hrest hmem]
      obtain ⟨other, value'?⟩ := v
      cases value'? <;> simp [AttributeText.written, hne]

/-- An element as it is written: its attributes, the elements in it, and a text behind them. -/
def Piece.written (name : {name : String // IsKey name})
    (values : {values : Values // (values.map (·.1)).Nodup}) (body : List Piece) (text : String) :
    Piece :=
  .full .none
    ⟨name.val.toList, values.val.texts, [], name.prop.1, Values.nodup_texts values.prop,
      List.forall_mem_nil _⟩
    body (.written text) ⟨[], List.forall_mem_nil _⟩

variable {body : List Piece} {named : {name : String // IsKey name}}
  {once : {values : Values // (values.map (·.1)).Nodup}}

@[simp] theorem Piece.name_written :
    (Piece.written named once body text).tag.name = named.val.toList := rfl

@[simp] theorem Piece.body_written : (Piece.written named once body text).body = body := rfl

lemma Piece.values_written (key : {name : String // IsKey name}) {value? : Option String}
    (h : (key, value?) ∈ once.val) :
    (Piece.written named once body text).values key.val = value?.toList :=
  Values.filter_texts once.prop h

lemma Piece.keeps_written {attributes others : List String}
    (hattributes : ∀ v ∈ once.val, v.1.val ∈ attributes)
    (hothers : ∀ c ∈ body, String.ofList c.tag.name ∈ others) :
    (Piece.written named once body text).Keeps attributes others := by
  refine ⟨fun a ha _ => ?_, fun c hc _ => hothers c hc⟩
  obtain ⟨v, hv, hname⟩ := Values.mem_texts ha
  rw [hname, String.ofList_toList]
  exact hattributes v hv

lemma Piece.holds_written (h : ∀ c ∈ text.toList, IsInLine c) :
    (Piece.written named once [] text).Holds text := by
  refine ⟨rfl, ?_⟩
  have hcontent := getD_contentOf text.toList
  rwa [unifyLineEnds_eq_self h] at hcontent

/-- A text that can stand in an element by itself: not all of it is white space, and no line end but
line feeds is in it. -/
def Standing (text : String) : Prop :=
  ¬ text.toList.all Text.isBlank ∧ ∀ c ∈ text.toList, IsInLine c

instance (text : String) : Decidable (Standing text) := inferInstanceAs (Decidable (_ ∧ _))

lemma Piece.labels_written {key : {name : String // IsKey name}} {value? : Option String}
    (h : Standing text) :
    (Piece.written named ⟨[(key, value?)], List.pairwise_singleton _ _⟩ [] text).Labels key.val
      value?.toList text where
  keeps := keeps_written (by simp) (by simp)
  values := values_written key (List.mem_singleton.mpr rfl)
  holds := holds_written h.2
  telling := h.1

end Writing
end Markup

namespace Descriptor

def writtenBundle (b : Bundle) : Piece :=
  .written ⟨"bundle", by decide⟩
    ⟨[(⟨"dependency", by decide⟩, if b.dependency then some "true" else none)],
      List.pairwise_singleton _ _⟩ [] b.location

def writtenReference (r : FeatureReference) : Piece :=
  .written ⟨"feature", by decide⟩ ⟨[(⟨"version", by decide⟩, r.version)],
    List.pairwise_singleton _ _⟩ [] r.name

def writtenConfigFile (c : ConfigFile) : Piece :=
  .written ⟨"configfile", by decide⟩ ⟨[(⟨"finalname", by decide⟩, c.finalName)],
    List.pairwise_singleton _ _⟩ [] c.location

/-- An element of a text alone. -/
def writtenText (name : {name : String // IsKey name}) (text : String) : Piece :=
  .written name ⟨[], List.nodup_nil⟩ [] text

def writtenConditional (c : Conditional) : Piece :=
  .written ⟨"conditional", by decide⟩ ⟨[], List.nodup_nil⟩
    (c.conditions.map (writtenText ⟨"condition", by decide⟩) ++ c.bundles.map writtenBundle) ""

def writtenFeature (f : Feature) : Piece :=
  .written ⟨"feature", by decide⟩
    ⟨[(⟨"name", by decide⟩, some f.name), (⟨"version", by decide⟩, f.version)],
      Values.nodup_pair (by decide) _ _⟩
    (f.dependencies.map writtenReference ++ f.bundles.map writtenBundle ++
      f.conditionals.map writtenConditional ++
      f.configFiles.map writtenConfigFile) ""

/-- The element that a descriptor is written as. -/
def written (d : Descriptor) : Piece :=
  .written ⟨"features", by decide⟩ ⟨[(⟨"name", by decide⟩, d.name)], List.pairwise_singleton _ _⟩
    (d.repositories.map (writtenText ⟨"repository", by decide⟩) ++ d.features.map writtenFeature) ""

end Descriptor

/-- All texts can stand in elements. -/
structure Conditional.Legible (c : Conditional) : Prop where
  conditions : ∀ text ∈ c.conditions, ∀ ch ∈ text.toList, IsInLine ch
  bundles : ∀ b ∈ c.bundles, Standing b.location

structure Feature.Legible (f : Feature) : Prop where
  dependencies : ∀ r ∈ f.dependencies, Standing r.name
  bundles : ∀ b ∈ f.bundles, Standing b.location
  conditionals : ∀ c ∈ f.conditionals, c.Legible
  configFiles : ∀ c ∈ f.configFiles, Standing c.location

structure Descriptor.Legible (d : Descriptor) : Prop where
  repositories : ∀ text ∈ d.repositories, ∀ ch ∈ text.toList, IsInLine ch
  features : ∀ f ∈ d.features, f.Legible

namespace Descriptor

lemma shows_writtenBundle {b : Bundle} (h : Standing b.location) :
    ShowsBundle (writtenBundle b) b := by
  refine ⟨_, ?_, Piece.labels_written h⟩
  cases b.dependency <;> decide

lemma shows_writtenReference {r : FeatureReference} (h : Standing r.name) :
    ShowsReference (writtenReference r) r :=
  Piece.labels_written h

lemma shows_writtenConfigFile {c : ConfigFile} (h : Standing c.location) :
    ShowsConfigFile (writtenConfigFile c) c :=
  Piece.labels_written h

/-- What is written for the items of a list shows them, if each of them is shown by what is written
for it. -/
theorem forall₂_written {τ : Type} {Shows : Piece → τ → Prop} {write : τ → Piece} {values : List τ}
    (h : ∀ v ∈ values, Shows (write v) v) : List.Forall₂ Shows (values.map write) values := by
  rwa [List.forall₂_map_left_iff, List.forall₂_same]

lemma children_writtenConditional (c : Conditional) :
    (writtenConditional c).children "condition" =
      c.conditions.map (writtenText ⟨"condition", by decide⟩) ∧
      (writtenConditional c).children "bundle" = c.bundles.map writtenBundle := by
  constructor <;> simp [Piece.children, writtenConditional, writtenText, writtenBundle,
    List.filter_map, Function.comp_def]

lemma children_writtenFeature (f : Feature) :
    (writtenFeature f).children "feature" = f.dependencies.map writtenReference ∧
      (writtenFeature f).children "bundle" = f.bundles.map writtenBundle ∧
      (writtenFeature f).children "conditional" = f.conditionals.map writtenConditional ∧
      (writtenFeature f).children "configfile" = f.configFiles.map writtenConfigFile := by
  refine ⟨?_, ?_, ?_, ?_⟩ <;> simp [Piece.children, writtenFeature, writtenReference, writtenBundle,
    writtenConditional, writtenConfigFile, List.filter_map, Function.comp_def]

lemma children_written (d : Descriptor) :
    (written d).children "repository" = d.repositories.map (writtenText ⟨"repository", by decide⟩) ∧
      (written d).children "feature" = d.features.map writtenFeature := by
  constructor <;> simp [Piece.children, written, writtenText, writtenFeature, List.filter_map,
    Function.comp_def]

lemma shows_writtenConditional {c : Conditional} (h : c.Legible) :
    ShowsConditional (writtenConditional c) c where
  keeps := Piece.keeps_written (by simp) (by simp [writtenText, writtenBundle, or_imp, forall_and])
  conditions := by
    rw [(children_writtenConditional c).1]
    exact forall₂_written fun text htext => Piece.holds_written (h.conditions text htext)
  bundles := by
    rw [(children_writtenConditional c).2]
    exact forall₂_written fun b hb => shows_writtenBundle (h.bundles b hb)

lemma shows_writtenFeature {f : Feature} (h : f.Legible) : ShowsFeature (writtenFeature f) f := by
  obtain ⟨hdependencies, hbundles, hconditionals, hconfigFiles⟩ := children_writtenFeature f
  have hname : (writtenFeature f).values "name" = (some f.name).toList :=
    Piece.values_written ⟨"name", by decide⟩ List.mem_cons_self
  refine ⟨Piece.keeps_written (by simp) ?_, hname,
    Piece.values_written ⟨"version", by decide⟩ (List.mem_cons_of_mem _ List.mem_cons_self),
    ?_, ?_, ?_, ?_⟩
  · simp [writtenReference, writtenBundle, writtenConditional, writtenConfigFile,
      or_imp, forall_and]
  · rw [hdependencies]
    exact forall₂_written fun r hr => shows_writtenReference (h.dependencies r hr)
  · rw [hbundles]
    exact forall₂_written fun b hb => shows_writtenBundle (h.bundles b hb)
  · rw [hconditionals]
    exact forall₂_written fun c hc => shows_writtenConditional (h.conditionals c hc)
  · rw [hconfigFiles]
    exact forall₂_written fun c hc => shows_writtenConfigFile (h.configFiles c hc)

lemma shows_written {d : Descriptor} (h : d.Legible) : Shows (written d) d := by
  obtain ⟨hrepositories, hfeatures⟩ := children_written d
  refine ⟨Piece.keeps_written (by simp) ?_,
    Piece.values_written ⟨"name", by decide⟩ List.mem_cons_self, ?_, ?_⟩
  · simp [writtenText, writtenFeature, or_imp, forall_and]
  · rw [hrepositories]
    exact forall₂_written fun text htext => Piece.holds_written (h.repositories text htext)
  · rw [hfeatures]
    exact forall₂_written fun f hf => shows_writtenFeature (h.features f hf)

/-- Every descriptor whose texts can stand in elements is shown by some document. Each document that
shows a descriptor is read as this descriptor, whatever order the elements of different names are
in, whatever else is between them and in their tags, and however the texts are spelled. -/
theorem parse_document (d : Descriptor) :
    (d.Legible → ∃ p, Shows p d ∧ p.front.content = none) ∧
      ∀ p rest, Shows p d → (∀ cs ∈ p.front.content, cs.all Text.isBlank) →
        parse (String.ofList (p.text ++ rest)) = .ok d :=
  ⟨fun h => ⟨written d, shows_written h, rfl⟩, fun _ rest h hfront => parse_of_shows h hfront rest⟩

/-- A feature that needs another one, and bundles. -/
def lamp : Feature where
  name := "lamp"
  version := some "2"
  dependencies := [⟨none, "light"⟩]
  bundles := [⟨true, "mvn:g/a/1"⟩, ⟨false, "mvn:g/b/1"⟩]

/-- An element of a name that no feature knows, behind a comment. -/
def noteText : Piece :=
  .empty ⟨"<!--".toList ++ " bright ".toList ++ "-->".toList ++ [], none,
    .comment (by decide +kernel) .nil⟩
    ⟨"note".toList, [], [' '], by decide, List.nodup_nil, by decide⟩

def lampText : Piece :=
  .written ⟨"feature", by decide⟩
    ⟨[(⟨"version", by decide⟩, some "2"), (⟨"x:of", by decide⟩, some "<3>"),
      (⟨"name", by decide⟩, some "lamp")], by decide⟩
    [writtenBundle ⟨true, "mvn:g/a/1"⟩, writtenReference ⟨none, "light"⟩, noteText,
      writtenBundle ⟨false, "mvn:g/b/1"⟩] ""

lemma shows_lampText : ShowsFeature lampText lamp := by
  refine ⟨⟨by decide, by decide⟩, by decide, by decide, ?_, ?_, .nil, .nil⟩
  · exact .cons (shows_writtenReference (r := ⟨none, "light"⟩) (by decide)) .nil
  · exact .cons (shows_writtenBundle (b := ⟨true, "mvn:g/a/1"⟩) (by decide))
      (.cons (shows_writtenBundle (b := ⟨false, "mvn:g/b/1"⟩) (by decide)) .nil)

/-- A document with a declaration in front, and with a repository behind a feature. -/
def lampsText : Piece :=
  .full ⟨"<?".toList ++ "xml version='1.0'".toList ++ "?>".toList ++ (['\n'] ++ []),
    some (['\n'] ++ []),
      .instruction (by decide +kernel) (by decide)
        (.run (List.cons_ne_nil _ _) (by decide) (fun _ h => (Option.not_mem_none _ h).elim) .nil)⟩
    ⟨"features".toList, [.written ⟨"name", by decide⟩ "a & b"], [],
      by decide, List.pairwise_singleton _ _, by decide⟩
    [lampText, writtenText ⟨"repository", by decide⟩ "mvn:g/r/1"] .none ⟨[], by decide⟩

def lamps : Descriptor := ⟨some "a & b", ["mvn:g/r/1"], [lamp]⟩

lemma shows_lampsText : Shows lampsText lamps :=
  ⟨⟨by decide, by decide⟩, by decide, .cons (Piece.holds_written (by decide)) .nil,
    .cons shows_lampText .nil⟩

lemma legible_lamps : lamps.Legible := by
  have hlamp : lamp.Legible :=
    ⟨by decide, by decide, fun _ hc => (List.not_mem_nil hc).elim, by decide⟩
  exact ⟨by decide, List.forall_mem_singleton.mpr hlamp⟩

theorem parse_document_lamps :
    lamps.Legible ∧ Shows lampsText lamps ∧ (∃ p, Shows p lamps ∧ p.front.content = none) ∧
    parse ("<?xml version='1.0'?>\n<features name=\"a &amp; b\">" ++
      "<feature version=\"2\" x:of=\"&lt;3&gt;\" name=\"lamp\">" ++
      "<bundle dependency=\"true\">mvn:g/a/1</bundle><feature>light</feature>" ++
      "<!-- bright --><note /><bundle>mvn:g/b/1</bundle></feature>" ++
      "<repository>mvn:g/r/1</repository></features>\n") = .ok lamps := by
  obtain ⟨hexists, hparse⟩ := parse_document lamps
  refine ⟨legible_lamps, shows_lampsText, hexists legible_lamps, ?_⟩
  calc parse _ = parse (String.ofList (lampsText.text ++ ['\n'])) :=
    congrArg parse (by decide +kernel)
    _ = .ok lamps := hparse lampsText _ shows_lampsText (by decide)

end Descriptor
end FeatureDepot
