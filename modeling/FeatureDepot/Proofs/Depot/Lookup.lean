import FeatureDepot.Proofs.Depot.Drawing
import FeatureDepot.Proofs.Layout.Nested

/-! Looking up what was materialized. In the nested layout the files of an item lie below the root,
and no file of one item but its artifact's is the artifact's file of another one; so what becomes of
the items behind an artifact has no effect on it. -/
namespace FeatureDepot

theorem FileSystem.resolve_of_read {fs : FileSystem} {root : Path} {a : Artifact} {content : Bytes}
    (h : fs.read (Layout.nested.filePath root a) = .ok content) :
    fs.resolve root a = .ok ⟨a, some (Layout.nested.filePath root a)⟩ := by
  obtain ⟨q, hlocate, -⟩ := read_eq_ok_iff.mp h
  have hexists : fs.exists? (Layout.nested.filePath root a) = .ok true := by
    unfold exists?
    rw [hlocate]
  unfold resolve
  dsimp only
  rw [hexists]
  rfl

namespace Depot
open FileSystem FeatureDepot.Path ChecksumFile

variable {host : Host} {d : Depot} {r : ResolvedArtifact} {a b : Artifact} {file f root : Path}
  {fs fs' : FileSystem} {w q : Place} {s : Segment} {rs : List ResolvedArtifact} {report : Report}

/-- All files that are written for an artifact lie in directories below the root. -/
theorem prefix_of_mem_described (ha : a.Plain) (w : Place) (root : Path) :
    ∀ f ∈ described (Layout.nested.filePath root a), root.place w <+: (f.place w).dropLast := by
  refine forall_mem_described.mpr ⟨?_, ?_, ?_⟩
  · rw [Layout.place_filePath ha, List.append_assoc, List.dropLast_append_of_ne_nil (by simp)]
    exact List.prefix_append _ _
  · rw [Layout.versionMetadata_filePath ha, Layout.place_push_metadataName, List.dropLast_concat,
      Layout.place_versionRoot ha, List.append_assoc]
    exact List.prefix_append _ _
  · rw [Layout.artifactMetadata_filePath ha, Layout.place_push_metadataName, List.dropLast_concat,
      Layout.place_artifactRoot ha, List.append_assoc]
    exact List.prefix_append _ _

lemma prefix_of_mem_describedPlaces (ha : a.Plain)
    (hq : q ∈ describedPlaces w (Layout.nested.filePath root a)) :
    root.place w <+: q := by
  obtain ⟨f, hf, hq⟩ := hq
  have hroot := prefix_of_mem_described ha w root f hf
  obtain ⟨t, hleaf, -⟩ := leaf?_of_mem_described (Layout.leaf?_filePath ha root) f hf
  obtain ⟨directory, hplace, hpath⟩ := place_path (w := w) hleaf
  rw [hplace, List.dropLast_concat] at hroot
  rcases hq with rfl | ⟨kind, rfl⟩
  · rw [hplace]
    exact hroot.trans (List.prefix_append _ _)
  · rw [hpath]
    exact hroot.trans (List.prefix_append _ _)

/-- No file that is written for another artifact's file is an artifact's file. -/
theorem place_not_mem_describedPlaces (ha : a.Plain) (hb : b.Plain)
    (hmetadata : (Layout.fileName a).toList ≠ metadataSegment)
    (hsums : ∀ kind : ChecksumKind, ¬ kind.suffix <:+ (Layout.fileName a).toList)
    (hne : Layout.nested.filePath root b ≠ Layout.nested.filePath root a) :
    (Layout.nested.filePath root a).place w ∉
      describedPlaces w (Layout.nested.filePath root b) := by
  have hleaf := Layout.leaf?_filePath ha root
  have hleaf' := Layout.leaf?_filePath hb root
  have hfiles : ∀ f ∈ described (Layout.nested.filePath root b),
      (Layout.nested.filePath root a).place w ≠ f.place w := by
    refine forall_mem_described.mpr ⟨fun hplace => ?_, ?_, ?_⟩
    · exact hne (Layout.filePath_eq_of_place_eq hb ha hplace.symm)
    · exact place_ne_of_leaf?_ne hleaf (leaf?_versionMetadata _) hmetadata
    · exact place_ne_of_leaf?_ne hleaf (leaf?_artifactMetadata _) hmetadata
  rintro ⟨f, hf, hplace | ⟨kind, hplace⟩⟩
  · exact hfiles f hf hplace
  · obtain ⟨t, ht, -⟩ := leaf?_of_mem_described hleaf' f hf
    refine place_ne_of_leaf?_ne hleaf (leaf?_path ht kind) ?_ hplace
    intro heq
    exact hsums kind (heq ▸ List.suffix_append _ _)

/-- What lies below a place, and directories anywhere. -/
def below (q : Place) : Set (Place × Entry) := {x | x.2 = .directory ∨ q <+: x.1}

lemma besideDescribed_subset_below (ha : a.Plain) :
    besideDescribed w (Layout.nested.filePath root a) ⊆ below (root.place w) := by
  rintro x ⟨f, hf, hdirectory | hbeside⟩
  · exact .inl hdirectory
  · refine .inr ?_
    have hroot := prefix_of_mem_described ha w root f hf
    rw [← hbeside] at hroot
    exact hroot.trans (List.dropLast_prefix _)

/-- A file outside of a directory was there before if all that changes lies inside. -/
theorem get?_of_outside {files : Set Place} {directory : Place} {content : Bytes}
    (h : Changes files (below directory) fs fs') (hfiles : ∀ q ∈ files, directory <+: q)
    (hq : ¬ directory <+: q) (hfile : fs'.get? q = some (.file content)) :
    fs.get? q = some (.file content) := by
  rcases h.get? q with heq | ⟨hmem, -⟩ | ⟨-, entry, hentry, hnew⟩
  · rw [← heq, hfile]
  · exact absurd (hfiles q hmem) hq
  · obtain rfl := Option.some.inj (hentry.symm.trans hfile)
    rcases hnew with hdirectory | hbelow
    · cases hdirectory
    · exact absurd hbelow hq

/-- The places of all files that are written for the items of a batch. -/
def batchPlaces (w : Place) (d : Depot) (rs : List ResolvedArtifact) : Set Place :=
  {q | ∃ r ∈ rs, q ∈ describedPlaces w (d.destination r.artifact)}

theorem destination_of_nested (hlayout : d.layout = .nested) (a : Artifact) :
    d.destination a = Layout.nested.filePath d.root a := by
  rw [destination, hlayout]

lemma prefix_of_mem_batchPlaces (hlayout : d.layout = .nested)
    (hplain : ∀ r ∈ rs, r.artifact.Plain) :
    ∀ q ∈ batchPlaces w d rs, d.root.place w <+: q := by
  rintro q ⟨r, hr, hq⟩
  rw [destination_of_nested hlayout] at hq
  exact prefix_of_mem_describedPlaces (hplain r hr) hq

/-- An item that is reported as copied was materialized. -/
theorem copied_of_add {label : String} {item : ReportItem} {path : Path}
    (h : (d.add host label r).run fs = (item, fs')) (hcopied : item.outcome = .copied path) :
    d.materialize host r fs = (.ok path, fs') := by
  rw [add_run] at h
  rcases hresult : d.materialize host r fs with ⟨failure | destination, next⟩
  · rw [hresult] at h
    obtain ⟨rfl, -⟩ := Prod.mk.inj h
    cases hcopied
  · rw [hresult] at h
    obtain ⟨rfl, rfl⟩ := Prod.mk.inj h
    obtain rfl := Outcome.copied.inj hcopied
    rfl

/-- A batch adds its items one by one. -/
theorem carried_of_run (h : (d.materializeAll host rs).run fs = (report, fs')) :
    Batch.Carried (fun r => d.add host r.artifact.display r) rs fs report fs' := by
  have hall := Batch.carried_mapM (fun r => d.add host r.artifact.display r) rs fs
  rwa [show (rs.mapM fun r => d.add host r.artifact.display r).run fs = _ from h] at hall

/-- A batch changes no more than the files of its items, whatever becomes of them. -/
theorem batch_changes (hlayout : d.layout = .nested) (hfresh : host.Fresh)
    (hplain : ∀ r ∈ rs, r.artifact.Plain)
    (h : Batch.Carried (fun r => d.add host r.artifact.display r) rs fs report fs') :
    Changes (batchPlaces fs.workingDirectory d rs) (below (fs.place d.root)) fs fs' := by
  induction h with
  | nil => exact .refl _
  | @cons r rs item report fs fs₁ fs₂ head tail ih =>
    have hdest := destination_of_nested hlayout r.artifact
    have hr := hplain r List.mem_cons_self
    have hleaf := Layout.leaf?_filePath hr d.root
    rw [← hdest] at hleaf
    have hstate : (d.materialize host r fs).2 = fs₁ := by
      have hrun := head
      rw [add_run] at hrun
      rcases hresult : d.materialize host r fs with ⟨failure | path, next⟩
      · rw [hresult] at hrun
        exact (Prod.mk.inj hrun).2
      · rw [hresult] at hrun
        exact (Prod.mk.inj hrun).2
    have hfirst := materialize_within fs.workingDirectory hfresh hleaf fs rfl
    rw [hstate] at hfirst
    have hrest := ih fun r' hr' => hplain r' (List.mem_cons_of_mem _ hr')
    rw [hfirst.workingDirectory, hfirst.place_eq] at hrest
    have hnew : besideDescribed fs.workingDirectory (d.destination r.artifact) ⊆
        below (fs.place d.root) := by
      rw [hdest]
      exact besideDescribed_subset_below hr
    have hfiles : describedPlaces fs.workingDirectory (d.destination r.artifact) ⊆
        batchPlaces fs.workingDirectory d (r :: rs) := fun q hq => ⟨r, List.mem_cons_self, hq⟩
    have hothers : batchPlaces fs.workingDirectory d rs ⊆
        batchPlaces fs.workingDirectory d (r :: rs) :=
          fun q ⟨r', hr', hq⟩ => ⟨r', List.mem_cons_of_mem _ hr', hq⟩
    exact (hfirst.mono hfiles hnew).trans (hrest.mono hothers subset_rfl)

section Carried

variable {content : Bytes} (hlayout : d.layout = .nested) (hfresh : host.Fresh)
  (hplain : ∀ r ∈ rs, r.artifact.Plain)
  (h : Batch.Carried (fun r => d.add host r.artifact.display r) rs fs report fs')
include hlayout hfresh hplain h

/-- A batch neither changes a file outside of the root nor makes one. -/
theorem read_of_batch {source : Path} (hout : ¬ fs.place d.root <+: fs.place source)
    (hread : fs.read source = .ok content) :
    fs'.read source = .ok content :=
  (batch_changes hlayout hfresh hplain h).read_of_not_mem
    (fun hq => hout (prefix_of_mem_batchPlaces hlayout hplain _ hq)) hread

lemma get?_of_batch {source : Path} (hout : ¬ fs.place d.root <+: fs.place source)
    (hread : fs'.read source = .ok content) :
    fs.get? (fs.place source) = some (.file content) := by
  have hchanges := batch_changes hlayout hfresh hplain h
  have hfile := get?_of_read hread
  rw [hchanges.place_eq] at hfile
  exact get?_of_outside hchanges (prefix_of_mem_batchPlaces hlayout hplain) hout hfile

/-- The file of an artifact that no item of a batch is copied to stays as it is. -/
theorem read_filePath_of_batch (ha : a.Plain)
    (hmetadata : (Layout.fileName a).toList ≠ metadataSegment)
    (hsums : ∀ kind : ChecksumKind, ¬ kind.suffix <:+ (Layout.fileName a).toList)
    (hother : ∀ r ∈ rs, d.destination r.artifact ≠ Layout.nested.filePath d.root a)
    (hread : fs.read (Layout.nested.filePath d.root a) = .ok content) :
    fs'.read (Layout.nested.filePath d.root a) = .ok content := by
  refine (batch_changes hlayout hfresh hplain h).read_of_not_mem ?_ hread
  rintro ⟨r, hr, hq⟩
  have hne := hother r hr
  rw [destination_of_nested hlayout] at hq hne
  exact place_not_mem_describedPlaces ha (hplain r hr) hmetadata hsums hne hq

end Carried

/-- Whatever is materialized can be looked up again. An item that is copied, to where no item behind
it goes, is found where it was copied to once the whole batch is through, and holds what its source
holds before and after the batch. It does not matter which other items fail, or how, so long as no
name that is drawn for a temporary file is in use at that time. -/
theorem materializeAll_resolve {before after : List ResolvedArtifact} {front back : Report}
    {item : ReportItem}
    {path : Path} (hlayout : d.layout = .nested)
    (hunused : ∀ t ∈ d.turns host rs fs, ∀ u ∈ d.draws host t.1 t.2, host.Avoids u.1 u.2)
    (hrefs : ∀ r ∈ rs, ∃ location, Location.artifact? location = some r.artifact)
    (hdots : ∀ r ∈ rs, (r.artifact.name ≠ "." ∧ r.artifact.name ≠ "..") ∧
      (r.artifact.baseVersion ≠ "." ∧ r.artifact.baseVersion ≠ ".."))
    (hnames : ∀ r ∈ rs, (Layout.fileName r.artifact).toList ≠ metadataSegment ∧
      ∀ kind : ChecksumKind, ¬ kind.suffix <:+ (Layout.fileName r.artifact).toList)
    (houtside : ∀ r ∈ rs, ∀ source ∈ r.file, ¬ fs.place d.root <+: fs.place source)
    (hrun : (d.materializeAll host rs).run fs = (front ++ item :: back, fs'))
    (hrs : rs = before ++ r :: after) (hlength : front.length = before.length)
    (hcopied : item.outcome = .copied path)
    (hlast : ∀ r' ∈ after, d.destination r'.artifact ≠ path) :
    fs'.resolve d.root r.artifact = .ok ⟨r.artifact, some path⟩ ∧
      ∃ source content, r.file = some source ∧ fs.get? (fs.place source) = some (.file content) ∧
        fs'.read source = .ok content ∧ fs'.read path = .ok content := by
  have hplain : ∀ r ∈ rs, r.artifact.Plain := by
    intro r hr
    obtain ⟨location, hlocation⟩ := hrefs r hr
    exact Location.plain_of_artifact? hlocation (hdots r hr).1 (hdots r hr).2
  obtain ⟨careful, hfresh, hrun⟩ : ∃ careful : Host,
    careful.Fresh ∧ (d.materializeAll careful rs).run fs = _ :=
      ⟨host.careful, host.fresh_careful, (materializeAll_careful hunused).trans hrun⟩
  have hall := carried_of_run hrun
  have hmem : ∀ r' ∈ r :: after, r' ∈ rs := fun r' hr' => hrs ▸ List.mem_append_right _ hr'
  have hr := hmem r List.mem_cons_self
  -- The batch up to the item, the item itself, and the batch behind it.
  obtain ⟨fs₁, fs₂, hbefore, hitem, hafter⟩ := (hrs ▸ hall).at_position hlength
  have hmaterialize : d.materialize careful r fs₁ = (.ok path, fs₂) := copied_of_add hitem hcopied
  have hplainBefore : ∀ r' ∈ before, r'.artifact.Plain :=
    fun r' hr' => hplain r' (hrs ▸ List.mem_append_left _ hr')
  have hplainAfter : ∀ r' ∈ after, r'.artifact.Plain :=
    fun r' hr' => hplain r' (hmem r' (List.mem_cons_of_mem _ hr'))
  obtain ⟨hmetadata, hsums⟩ := hnames r hr
  have hleafname : ∀ s, path.leaf? = some s → s ≠ metadataSegment ∧
      ∀ kind : ChecksumKind, s ≠ metadataSegment ++ kind.suffix := by
    intro s hleaf
    rw [(materialize_steps hmaterialize).1, destination_of_nested hlayout,
      Layout.leaf?_filePath (hplain r hr)] at hleaf
    obtain rfl := Option.some.inj hleaf
    exact ⟨hmetadata, fun kind heq => hsums kind (heq ▸ List.suffix_append _ _)⟩
  obtain ⟨hpath, ⟨source, content, hsource, hread, hcopy⟩, -, hitself⟩ :=
    materialize_spec hleafname hmaterialize
  rw [destination_of_nested hlayout] at hpath
  rw [hpath] at hcopy hitself hlast ⊢
  have hout := houtside r hr source hsource
  have hbase₁ := (batch_changes hlayout hfresh hplainBefore hbefore).place_eq
  have hbase₂ : ∀ p, fs₂.place p = fs.place p := fun p => (hitself.place_eq p).trans (hbase₁ p)
  have hsource₁ := get?_of_batch hlayout hfresh hplainBefore hbefore hout hread
  have hsource₂ : fs₂.read source = .ok content := by
    refine hitself.read_of_not_mem (fun hq => hout ?_) hread
    rw [← hbase₁ source, ← hbase₁ d.root]
    exact prefix_of_mem_describedPlaces (hplain r hr) hq
  have hsource₃ : fs'.read source = .ok content :=
    read_of_batch hlayout hfresh hplainAfter hafter (by rwa [hbase₂, hbase₂]) hsource₂
  have hfinal : fs'.read (Layout.nested.filePath d.root r.artifact) = .ok content :=
    read_filePath_of_batch hlayout hfresh hplainAfter hafter (hplain r hr) hmetadata
      hsums hlast hcopy
  exact ⟨resolve_of_read hfinal, source, content, hsource, hsource₁, hsource₃, hfinal⟩

/-- An artifact that is there, and behind it one that is not. -/
def oneAndNone : List ResolvedArtifact := [oneArtifact, ⟨.ofVersionText "g" "b" "1", none⟩]

def oneItem : ReportItem :=
  ⟨"g:a:jar:1", some (.artifact (.ofVersionText "g" "a" "1")), .copied ⟨"depot/g/a/1/a-1.jar"⟩⟩

def noneItem : ReportItem :=
  ⟨"g:b:jar:1", some (.artifact (.ofVersionText "g" "b" "1")),
    .failed { cause := .missingContent (.ofVersionText "g" "b" "1") }⟩

theorem materializeAll_resolve_one :
    ∃ fs', (oneDepot.materializeAll oneHost oneAndNone).run oneSource =
      ([oneItem, noneItem], fs') ∧
    fs'.resolve ⟨"depot"⟩ oneArtifact.artifact =
      .ok ⟨oneArtifact.artifact, some ⟨"depot/g/a/1/a-1.jar"⟩⟩ ∧
    fs'.read ⟨"depot/g/a/1/a-1.jar"⟩ = .ok [1, 2] := by
  have hreport : ((oneDepot.materializeAll oneHost oneAndNone).run oneSource).1 =
      [oneItem, noneItem] := by
    decide +kernel
  have hunused : ∀ t ∈ oneDepot.turns oneHost oneAndNone oneSource,
      ∀ u ∈ oneDepot.draws oneHost t.1 t.2, oneHost.Avoids u.1 u.2 := by decide +kernel
  have hrefs : ∀ r ∈ oneAndNone, ∃ location, Location.artifact? location = some r.artifact := by
    simp only [oneAndNone, List.forall_mem_cons, List.not_mem_nil, false_implies,
      implies_true, and_true]
    exact ⟨⟨"mvn:g/a/1", by decide +kernel⟩, ⟨"mvn:g/b/1", by decide +kernel⟩⟩
  have hdots : ∀ r ∈ oneAndNone, (r.artifact.name ≠ "." ∧ r.artifact.name ≠ "..") ∧
      (r.artifact.baseVersion ≠ "." ∧ r.artifact.baseVersion ≠ "..") := by decide +kernel
  have hnames : ∀ r ∈ oneAndNone, (Layout.fileName r.artifact).toList ≠ metadataSegment ∧
      ∀ kind : ChecksumKind, ¬ kind.suffix <:+ (Layout.fileName r.artifact).toList := by
    have hends : ∀ r ∈ oneAndNone, (Layout.fileName r.artifact).toList ≠ metadataSegment ∧
      ¬ ChecksumKind.suffix .md5 <:+ (Layout.fileName r.artifact).toList ∧
      ¬ ChecksumKind.suffix .sha1 <:+ (Layout.fileName r.artifact).toList := by decide +kernel
    intro r hr
    obtain ⟨hmetadata, hmd5, hsha1⟩ := hends r hr
    exact ⟨hmetadata, fun kind => by cases kind <;> assumption⟩
  have hsource : oneSource.get? (oneSource.place ⟨"source"⟩) = some (.file [1, 2]) := by
    decide +kernel
  have hplaces : ¬ oneSource.place oneDepot.root <+: oneSource.place ⟨"source"⟩ := by decide +kernel
  have houtside : ∀ r ∈ oneAndNone, ∀ source ∈ r.file,
      ¬ oneSource.place oneDepot.root <+: oneSource.place source := by
    simp only [oneAndNone, List.forall_mem_cons, List.not_mem_nil, false_implies,
      implies_true, and_true]
    refine ⟨?_, by simp⟩
    rintro source ⟨⟩
    exact hplaces
  have hlast : ∀ r' ∈ oneAndNone.tail, oneDepot.destination r'.artifact ≠
      ⟨"depot/g/a/1/a-1.jar"⟩ := by decide +kernel
  have hsplit : oneAndNone = [] ++ oneArtifact :: oneAndNone.tail := rfl
  rcases hresult : (oneDepot.materializeAll oneHost oneAndNone).run oneSource with ⟨report, fs'⟩
  rw [hresult] at hreport
  obtain rfl : report = [] ++ oneItem :: [noneItem] := hreport
  obtain ⟨hresolve, source, content, hfile, hcontent, -, hread⟩ :=
    materializeAll_resolve rfl hunused hrefs hdots hnames houtside hresult hsplit rfl rfl hlast
  obtain rfl := Option.some.inj hfile
  obtain rfl := Entry.file.inj (Option.some.inj (hcontent.symm.trans hsource))
  exact ⟨fs', rfl, hresolve, hread⟩

end Depot
end FeatureDepot
