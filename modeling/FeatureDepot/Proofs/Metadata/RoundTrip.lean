import FeatureDepot.Metadata
import FeatureDepot.Proofs.Markup.Reading

/-! The round trip of metadata documents. A document that is written and read again is the same
document, but for the line ends in its texts. -/
namespace FeatureDepot
open Markup Written Schema

/-- A text as it is read after it was written. -/
def Markup.unified (text : String) : String := String.ofList (unifyLineEnds text.toList)

def Snapshot.unified (s : Snapshot) : Snapshot :=
  { s with timestamp := s.timestamp.map Markup.unified }

def Versioning.unified (v : Versioning) : Versioning where
  latest := v.latest.map Markup.unified
  release := v.release.map Markup.unified
  snapshot := v.snapshot.map Snapshot.unified
  versions := v.versions.map Markup.unified
  lastUpdated := v.lastUpdated.map Markup.unified

namespace Metadata

/-- A document with its line ends unified, except in the model version, which is no text of an
element. -/
def unified (m : Metadata) : Metadata where
  toVersioning := m.toVersioning.unified
  modelVersion := m.modelVersion
  group := m.group.map Markup.unified
  name := m.name.map Markup.unified
  version := m.version.map Markup.unified

variable {σ α : Type} {s : Schema σ} {p : Schema.Progress σ} {parent : Tag} {rest : List Node}
  {depth : Nat} {key : String}

lemma readChildren_string {value : Option String} {set : Option String → σ → σ}
    (hname : IsWord key.toList) (hfield : s.field? key.toList = some (.optional Source.string set))
    (hparent : ∀ scope, parent.isNil scope = false) (hseen : key.toList ∉ p.seen) :
    s.readChildren parent .closed p (nodes [] depth (leaf? key value) ++ rest) =
      s.readChildren parent .closed
        (p.take? key.toList (value.map fun v => set (some (Markup.unified v)))) rest := by
  refine readChildren_optional hname hfield hparent hseen fun v _ =>
    ⟨_, node_leaf hname depth v.toList, ?_⟩
  exact string_leaf parent _ v.toList

lemma snapshot_fields (s : Snapshot) (depth : Nat) :
    ∃ q, snapshotSchema.readChildren (.bare "snapshot".toList) .closed
      ⟨{}, []⟩ (nodes [] (depth + 1) (leaf? "timestamp" s.timestamp ++
        leaf? "buildNumber" (s.buildNumber.map fun n => toString n.toNat) ++
        leaf? "localCopy" (s.localCopy.map fun b => if b then "true" else "false")) ++
      [.text (.ok (indent depth))]) =
      .ok q ∧ q.value = s.unified := by
  have hparent := isNil_bare "snapshot".toList
  have hbuild : leaf? "buildNumber" (s.buildNumber.map fun n => toString n.toNat) =
      s.buildNumber.toList.map fun n =>
        leaf "buildNumber".toList (toString n.toNat : String).toList := by
    cases s.buildNumber <;> rfl
  have hcopy : leaf? "localCopy" (s.localCopy.map fun b => if b then "true" else "false") =
      s.localCopy.toList.map fun b =>
        leaf "localCopy".toList (if b then "true" else "false").toList := by
    cases s.localCopy <;> rfl
  have hbuildName : IsWord "buildNumber".toList := ⟨by decide, by decide⟩
  have hcopyName : IsWord "localCopy".toList := ⟨by decide, by decide⟩
  rw [nodes_append, nodes_append, List.append_assoc, List.append_assoc,
    readChildren_string ⟨by decide, by decide⟩ rfl hparent (by simp), hbuild,
    readChildren_optional hbuildName rfl hparent (Progress.not_mem_take? (by simp) (by decide))
      fun n _ => ⟨_, node_leaf hbuildName _ _, word32_leaf n _ _⟩, hcopy,
    readChildren_optional hcopyName rfl hparent
      (Progress.not_mem_take? (Progress.not_mem_take? (by simp) (by decide)) (by decide))
      fun b _ => ⟨_, node_leaf hcopyName _ _, bool_leaf b _ _⟩,
    readChildren_indent, readChildren_nil]
  refine ⟨_, rfl, ?_⟩
  obtain ⟨timestamp, buildNumber, localCopy⟩ := s
  cases timestamp <;> cases buildNumber <;> cases localCopy <;> rfl

lemma snapshot_read (s : Snapshot) (parent : Tag) (depth : Nat) : ∃ children,
    (snapshotElement s).node [] depth = .element (.bare "snapshot".toList) children .closed ∧
      Source.record snapshotSchema {} "struct Snapshot"
        (.element parent (.bare "snapshot".toList) children .closed) = .ok s.unified := by
  obtain ⟨q, hfields, hvalue⟩ := snapshot_fields s depth
  have hread := exists_record parent "struct Snapshot" ⟨by decide, by decide⟩ rfl hfields
  rwa [hvalue] at hread

lemma versions_read {versions : List String} (hne : versions ≠ []) (parent : Tag) (depth : Nat) :
    ∃ children,
      (branch "versions".toList []
          (versions.map fun v => leaf "version".toList v.toList)).node [] depth =
        .element (.bare "versions".toList) children .closed ∧
      Source.record versionsSchema [] "struct Versions"
        (.element parent (.bare "versions".toList) children .closed) =
        .ok (versions.map Markup.unified) := by
  have hname : IsWord "version".toList := ⟨by decide, by decide⟩
  obtain ⟨reader, hreader, hreads⟩ :=
    Field.exists_many_eq Source.string fun v (vs : List String) => vs ++ [v]
  have hfield : versionsSchema.field? "version".toList = some (.list reader) :=
    congrArg some hreader
  have hadd : ∀ (contents : List String) (value : List String), (contents.map String.toList).foldl
      (fun value content => value ++ [String.ofList (unifyLineEnds content)]) value =
        value ++ contents.map Markup.unified := by
    intro contents
    induction contents with
    | nil => simp
    | cons v contents ih =>
      intro value
      rw [List.map_cons, List.foldl_cons, ih, List.map_cons, List.append_assoc,
        List.singleton_append]
      rfl
  cases versions with
  | nil => exact absurd rfl hne
  | cons v versions =>
    have hlist := readChildren_list (p := ⟨[], []⟩) depth hname hfield (by simp)
      (fun content => hreads (.bare "versions".toList) _ _ _ _ (string_leaf _ _ content)) v.toList
      (versions.map String.toList)
    have hmap : (v :: versions).map (fun v => leaf "version".toList v.toList) =
        (v.toList :: versions.map String.toList).map (leaf "version".toList) := by simp
    rw [← hmap] at hlist
    have hread := exists_record parent "struct Versions" ⟨by decide, by decide⟩ rfl hlist
    have hvalue := hadd (v :: versions) []
    rw [List.map_cons, List.nil_append] at hvalue
    rwa [hvalue] at hread

/-- A list of versions, unless it is empty. -/
def listed? (versions : List String) : Option (List String) :=
  if versions = [] then none else some versions

lemma versioning_fields (v : Versioning) (depth : Nat) : ∃ q,
    versioningSchema.readChildren (.bare "versioning".toList) .closed ⟨{}, []⟩
      (nodes [] (depth + 1) (leaf? "latest" v.latest ++ leaf? "release" v.release ++
        (v.snapshot.map snapshotElement).toList ++
        (if v.versions = [] then [] else
          [branch "versions".toList [] (v.versions.map fun v => leaf "version".toList v.toList)]) ++
        leaf? "lastUpdated" v.lastUpdated) ++ [.text (.ok (indent depth))]) = .ok q ∧
    q.value = v.unified := by
  have hparent := isNil_bare "versioning".toList
  have hsnapshot : (v.snapshot.map snapshotElement).toList =
      v.snapshot.toList.map snapshotElement := by
    cases v.snapshot <;> rfl
  have hversions : (if v.versions = [] then [] else
      [branch "versions".toList [] (v.versions.map fun v => leaf "version".toList v.toList)]) =
        (listed? v.versions).toList.map fun vs =>
          branch "versions".toList [] (vs.map fun v => leaf "version".toList v.toList) := by
    unfold listed?
    split <;> rfl
  have hlisted : ∀ vs ∈ listed? v.versions, vs ≠ [] := by
    unfold listed?
    intro vs hvs
    split at hvs
    next => cases hvs
    next hne => exact Option.some.inj hvs ▸ hne
  have hsnapshotName : IsWord "snapshot".toList := ⟨by decide, by decide⟩
  have hversionsName : IsWord "versions".toList := ⟨by decide, by decide⟩
  rw [nodes_append, nodes_append, nodes_append, nodes_append, List.append_assoc, List.append_assoc,
    List.append_assoc, List.append_assoc,
    readChildren_string ⟨by decide, by decide⟩ rfl hparent (by simp),
    readChildren_string ⟨by decide, by decide⟩ rfl hparent
      (Progress.not_mem_take? (by simp) (by decide)), hsnapshot,
    readChildren_optional hsnapshotName rfl hparent
      (Progress.not_mem_take? (Progress.not_mem_take? (by simp) (by decide)) (by decide)) fun s _ =>
      snapshot_read s _ _, hversions,
    readChildren_value hversionsName rfl
      (Progress.not_mem_take?
        (Progress.not_mem_take? (Progress.not_mem_take? (by simp) (by decide)) (by decide))
        (by decide)) fun vs hvs => versions_read (hlisted vs hvs) _ _,
    readChildren_string ⟨by decide, by decide⟩ rfl hparent
      (Progress.not_mem_take?
        (Progress.not_mem_take?
          (Progress.not_mem_take? (Progress.not_mem_take? (by simp) (by decide)) (by decide))
          (by decide)) (by decide)), readChildren_indent, readChildren_nil]
  refine ⟨_, rfl, ?_⟩
  obtain ⟨latest, release, snapshot, versions, lastUpdated⟩ := v
  cases versions <;> cases latest <;> cases release <;> cases snapshot <;> cases lastUpdated <;> rfl

lemma versioning_read (v : Versioning) (parent : Tag) (depth : Nat) : ∃ children,
    (versioningElement v).node [] depth = .element (.bare "versioning".toList) children .closed ∧
      Source.record versioningSchema {} "struct Versioning"
        (.element parent (.bare "versioning".toList) children .closed) = .ok v.unified := by
  obtain ⟨q, hfields, hvalue⟩ := versioning_fields v depth
  have hread := exists_record parent "struct Versioning" ⟨by decide, by decide⟩ rfl hfields
  rwa [hvalue] at hread

/-- The tag of a document. -/
def rootTag (modelVersion : Option String) : Tag :=
  ⟨"metadata".toList,
    modelVersion.toList.map fun v => ⟨"modelVersion".toList, escapeValue v.toList⟩, none, [], none⟩

lemma ofContent_root (modelVersion : Option String) : Tag.ofContent [] (opening "metadata".toList
    (modelVersion.toList.map fun v => ("modelVersion".toList, v.toList))) =
  rootTag modelVersion := by
  have hname : IsWord "metadata".toList := ⟨by decide, by decide⟩
  cases modelVersion with
  | none =>
    have hopening : opening "metadata".toList [] = "metadata".toList := by simp [opening]
    exact (congrArg (Tag.ofContent []) hopening).trans (Tag.ofContent_word hname)
  | some v =>
    have hkey : IsWord "modelVersion".toList := ⟨by decide, by decide⟩
    have hrest : (opening "metadata".toList [("modelVersion".toList, v.toList)]).dropWhile
        (!Text.isBlank ·) = ' ' :: "modelVersion".toList ++ "=\"".toList ++
        escapeValue v.toList ++ ['"'] := by
      simp [opening, Text.isBlank]
    have htake : (opening "metadata".toList [("modelVersion".toList, v.toList)]).takeWhile
        (!Text.isBlank ·) =
        "metadata".toList := name_ofContent_opening hname []
    rw [Option.toList_some, List.map_singleton]
    unfold Tag.ofContent
    rw [htake, hrest]
    simp only [Attribute.scan_written _ _ hkey]
    rfl

lemma isNil_rootTag (modelVersion : Option String) (scope : Scope) :
    (rootTag modelVersion).isNil scope = false := by
  cases modelVersion <;> rfl

/-- The model version is read as it was written: it is the value of an attribute, whose line ends
stay. -/
theorem readAttributes_rootTag (modelVersion : Option String) :
    schema.readAttributes none ⟨{}, []⟩ (rootTag modelVersion).attributes =
      .ok ((⟨{}, []⟩ : Progress Metadata).take? "@modelVersion".toList
        (modelVersion.map fun v m => { m with modelVersion := some v })) := by
  cases modelVersion with
  | none => rfl
  | some v =>
    have htext : Source.text? (.value (escapeValue v.toList)) = .ok v.toList :=
      congrArg resolved (unescape_escapeValue v.toList)
    have hstring : Source.string (.value (escapeValue v.toList)) = .ok v := by
      unfold Source.string
      rw [htext]
      exact congrArg Except.ok String.ofList_toList
    obtain ⟨reader, hreader, hreads⟩ :=
      Field.exists_optional_eq Source.string fun v (m : Metadata) => { m with modelVersion := v }
    have hfield : schema.field? (attributeKey "modelVersion".toList) = some (.single reader) :=
      congrArg some hreader
    have hread := hreads (.value (escapeValue v.toList)) v rfl hstring
    exact readAttributes_single (a := ⟨"modelVersion".toList, escapeValue v.toList⟩)
      hfield (by simp) hread

lemma fields (m : Metadata) (p : Progress Metadata)
    (hseen : ∀ key ∈ p.seen, key = "@modelVersion".toList) : ∃ q,
    schema.readChildren (rootTag m.modelVersion) .closed p
      (nodes [] 1 (leaf? "groupId" m.group ++ leaf? "artifactId" m.name ++
        leaf? "version" m.version ++ [versioningElement m.toVersioning]) ++
        [.text (.ok (indent 0))]) = .ok q ∧
    q.value =
      { (((p.take? "groupId".toList
            (m.group.map fun v m => { m with group := some (Markup.unified v) })).take?
          "artifactId".toList
            (m.name.map fun v m => { m with name := some (Markup.unified v) })).take?
          "version".toList
            (m.version.map fun v m => { m with version := some (Markup.unified v) })).value with
        toVersioning := m.toVersioning.unified } := by
  have hparent := isNil_rootTag m.modelVersion
  have hfresh : ∀ key : List Char, key ≠ "@modelVersion".toList → key ∉ p.seen :=
    fun key hkey hmem => hkey (hseen key hmem)
  have hversioning : [versioningElement m.toVersioning] =
      (some m.toVersioning).toList.map versioningElement := rfl
  have hname : IsWord "versioning".toList := ⟨by decide, by decide⟩
  rw [nodes_append, nodes_append, nodes_append, List.append_assoc, List.append_assoc,
    List.append_assoc,
    readChildren_string ⟨by decide, by decide⟩ rfl hparent (hfresh _ (by decide)),
    readChildren_string ⟨by decide, by decide⟩ rfl hparent
      (Progress.not_mem_take? (hfresh _ (by decide)) (by decide)),
    readChildren_string ⟨by decide, by decide⟩ rfl hparent
      (Progress.not_mem_take? (Progress.not_mem_take? (hfresh _ (by decide)) (by decide))
        (by decide)), hversioning,
    readChildren_value hname rfl
      (Progress.not_mem_take?
        (Progress.not_mem_take? (Progress.not_mem_take? (hfresh _ (by decide)) (by decide))
          (by decide)) (by decide)) fun v _ => versioning_read v _ _, readChildren_indent,
    readChildren_nil]
  exact ⟨_, rfl, rfl⟩

lemma worded_leaf? {name : String} (hname : IsWord name.toList) (value : Option String) :
    ∀ w ∈ leaf? name value, w.Worded := by
  intro w hw
  obtain ⟨v, -, rfl⟩ := List.mem_map.mp hw
  exact hname

lemma worded_branch {name : String} {ws : List Written} (hname : IsWord name.toList)
    (hws : ∀ w ∈ ws, w.Worded) :
    (branch name.toList [] ws).Worded :=
  ⟨hname, fun _ ha => absurd ha List.not_mem_nil, wordedAll_iff.mpr hws⟩

lemma worded_snapshotElement (s : Snapshot) : (snapshotElement s).Worded := by
  refine worded_branch ⟨by decide, by decide⟩ ?_
  simp only [List.forall_mem_append]
  exact ⟨⟨worded_leaf? ⟨by decide, by decide⟩ _, worded_leaf? ⟨by decide, by decide⟩ _⟩,
    worded_leaf? ⟨by decide, by decide⟩ _⟩

lemma worded_versioningElement (v : Versioning) : (versioningElement v).Worded := by
  have hsnapshot : ∀ w ∈ (v.snapshot.map snapshotElement).toList, w.Worded := by
    intro w hw
    obtain ⟨s, -, rfl⟩ := Option.map_eq_some_iff.mp (Option.mem_toList.mp hw)
    exact worded_snapshotElement s
  have hversions : ∀ w ∈ (if v.versions = [] then [] else
      [branch "versions".toList [] (v.versions.map fun v => leaf "version".toList v.toList)]),
    w.Worded := by
    split
    next => simp
    next =>
      rw [List.forall_mem_singleton]
      refine worded_branch ⟨by decide, by decide⟩ fun w hw => ?_
      obtain ⟨v, -, rfl⟩ := List.mem_map.mp hw
      exact ⟨by decide, by decide⟩
  refine worded_branch ⟨by decide, by decide⟩ ?_
  simp only [List.forall_mem_append]
  exact ⟨⟨⟨⟨worded_leaf? ⟨by decide, by decide⟩ _, worded_leaf? ⟨by decide, by decide⟩ _⟩,
    hsnapshot⟩, hversions⟩, worded_leaf? ⟨by decide, by decide⟩ _⟩

lemma worded_element (m : Metadata) : m.element.Worded := by
  refine ⟨⟨by decide, by decide⟩, ?_, wordedAll_iff.mpr ?_⟩
  · intro a ha
    obtain ⟨v, -, rfl⟩ := List.mem_map.mp ha
    have hkey : IsWord "modelVersion".toList := ⟨by decide, by decide⟩
    exact hkey
  · simp only [List.forall_mem_append, List.forall_mem_singleton]
    exact ⟨⟨⟨worded_leaf? ⟨by decide, by decide⟩ _, worded_leaf? ⟨by decide, by decide⟩ _⟩,
      worded_leaf? ⟨by decide, by decide⟩ _⟩, worded_versioningElement _⟩

/-- The nodes of a document that was written. -/
theorem ofText_render (m : Metadata) : Document.ofText m.render.toList =
    ⟨[.text (.ok (indent 0)), m.element.node [] 0, .text (.ok ['\n'])], none⟩ := by
  obtain ⟨cs, hcs⟩ := exists_render 0 m.element
  have htext : m.render.toList = declaration ++ (m.element.render 0 ++ ['\n']) := by
    rw [render, String.toList_ofList, List.append_assoc]
  have hskip : Growth.grow ⟨[], [], false⟩ m.render.toList =
      Growth.grow ⟨[], [], false⟩ (indent 0 ++ (m.element.render 0 ++ ['\n'])) := by
    rw [htext]
    exact Growth.grow_of_skip rfl
  have hlast : Growth.grow ⟨[], [m.element.node [] 0, .text (.ok (indent 0))], false⟩
      (['\n'] ++ []) =
      (⟨[], [.text (.ok ['\n']), m.element.node [] 0, .text (.ok (indent 0))], true⟩, none) := by
    rw [Growth.grow_text (by simp) (by simp) (by simp), Growth.grow_nil]
    rfl
  have hgrow : Growth.grow ⟨[], [], false⟩ m.render.toList =
      (⟨[], [.text (.ok ['\n']), m.element.node [] 0, .text (.ok (indent 0))], true⟩, none) := by
    rw [hskip, hcs, List.cons_append, grow_indent rfl, ← List.cons_append, ← hcs,
      grow_render _ m.worded_element]
    exact hlast
  have hscan : Token.scanDocument m.render.toList = Token.scan m.render.toList := by
    rw [htext]
    rfl
  unfold Document.ofText
  rw [hscan]
  exact congrArg (fun r : Growth × Option Fault => r.1.finish r.2) hgrow

/-- A document is read as it was written, but for its line ends. -/
theorem parse_render_unified (m : Metadata) : parse m.render = .ok m.unified := by
  obtain ⟨q, hfields, hvalue⟩ := m.fields
    ((⟨{}, []⟩ : Progress Metadata).take? "@modelVersion".toList
      (m.modelVersion.map fun v m => { m with modelVersion := some v }))
    (by cases m.modelVersion <;> simp [Progress.take?])
  rw [← readChildren_lined] at hfields
  have hread := read_eq_ok (s := schema) rfl (readAttributes_rootTag m.modelVersion) hfields
  have hnode : m.element.node [] 0 = .element (rootTag m.modelVersion) (lined 0 (nodes [] 1
      (leaf? "groupId" m.group ++ leaf? "artifactId" m.name ++ leaf? "version" m.version ++
        [versioningElement m.toVersioning]))) .closed := by
    rw [element, node, ofContent_root]
    rfl
  have hroot : parse m.render = schema.read {} (rootTag m.modelVersion) (lined 0 (nodes [] 1
      (leaf? "groupId" m.group ++ leaf? "artifactId" m.name ++ leaf? "version" m.version ++
        [versioningElement m.toVersioning]))) .closed := by
    unfold parse
    rw [ofText_render, hnode]
    dsimp only
    rw [readRoot_indent]
    rfl
  rw [hroot, hread, hvalue]
  obtain ⟨v, modelVersion, group, name, version⟩ := m
  cases modelVersion <;> cases group <;> cases name <;> cases version <;> rfl

/-- The texts that a document has elements for. -/
def texts (m : Metadata) : List String :=
  m.group.toList ++ m.name.toList ++ m.version.toList ++ m.latest.toList ++ m.release.toList ++
    (m.snapshot.bind Snapshot.timestamp).toList ++ m.versions ++ m.lastUpdated.toList

/-- A text without line ends, other than line feeds. -/
def OnLines (text : String) : Prop := ∀ c ∈ text.toList, IsInLine c

lemma unified_text (h : OnLines text) : Markup.unified text = text := by
  rw [Markup.unified, unifyLineEnds_eq_self h, String.ofList_toList]

lemma map_unified_eq_self {value : Option String} (h : ∀ text ∈ value.toList, OnLines text) :
    value.map Markup.unified = value := by
  cases value with
  | none => rfl
  | some text => rw [Option.map_some, unified_text (h text (by simp))]

theorem unified_eq_self {m : Metadata} (h : ∀ text ∈ m.texts, OnLines text) : m.unified = m := by
  simp only [texts, List.forall_mem_append] at h
  obtain ⟨⟨⟨⟨⟨⟨⟨hgroup, hname⟩, hversion⟩, hlatest⟩, hrelease⟩, htimestamp⟩, hversions⟩,
    hupdated⟩ := h
  have hsnapshot : m.snapshot.map Snapshot.unified = m.snapshot := by
    cases hs : m.snapshot with
    | none => rfl
    | some s =>
      rw [hs, Option.bind_some] at htimestamp
      rw [Option.map_some, Snapshot.unified, map_unified_eq_self htimestamp]
  have hlist : m.versions.map Markup.unified = m.versions :=
    (List.map_congr_left fun v hv => unified_text (hversions v hv)).trans (List.map_id' _)
  have hinner : m.toVersioning.unified = m.toVersioning := by
    unfold Versioning.unified
    rw [map_unified_eq_self hlatest, map_unified_eq_self hrelease, hsnapshot, hlist,
      map_unified_eq_self hupdated]
  unfold unified
  rw [hinner, map_unified_eq_self hgroup, map_unified_eq_self hname, map_unified_eq_self hversion]

/-- Every document can be written and read again. Of all that it says only the line ends in its
texts change, and without line ends other than line feeds nothing changes at all. -/
theorem parse_render (m : Metadata) : parse m.render = .ok m.unified ∧
    ((∀ text ∈ m.texts, ∀ c ∈ text.toList, c ≠ '\r' ∧ c ≠ '\u0085' ∧ c ≠ '\u2028') →
      parse m.render = .ok m) := by
  have hparse := parse_render_unified m
  refine ⟨hparse, fun h => ?_⟩
  rw [hparse, unified_eq_self h]

theorem parse_render_markup :
    parse (render { name := some " <a>&\"'\n", versions := ["", "]]>"] }) =
    .ok { name := some " <a>&\"'\n", versions := ["", "]]>"] } :=
  (parse_render { name := some " <a>&\"'\n", versions := ["", "]]>"] }).2 (by decide)

/-- An empty model version is kept. -/
theorem parse_render_emptyModel :
    parse (render { modelVersion := some "" }) = .ok { modelVersion := some "" } ∧
    parse (render { modelVersion := some "" }) ≠ .ok { modelVersion := none } := by
  have hparse : parse (render { modelVersion := some "" }) = .ok { modelVersion := some "" } :=
    parse_render_unified { modelVersion := some "" }
  refine ⟨hparse, fun h => ?_⟩
  cases hparse.symm.trans h

example : Metadata.unified { name := some "a\r\nb\u2028", modelVersion := some "\r" } =
    { name := some "a\nb\n", modelVersion := some "\r" } := by decide

end Metadata
end FeatureDepot
