import FeatureDepot.Proofs.Depot.Lookup
import FeatureDepot.Proofs.Layout.Documents
import FeatureDepot.Proofs.Metadata.Documents

/-! The metadata documents that a batch leaves behind. Each item changes the two documents that it
is described in and no other one, so that a document comes of what it was before and of the items
that it is about. -/
namespace FeatureDepot.Depot
open FileSystem FeatureDepot.Path ChecksumFile Layout
open Metadata (documentAt)

variable {host : Host} {d : Depot} {r : ResolvedArtifact} {a b : Artifact} {file f root : Path}
  {fs fs' : FileSystem} {w q : Place} {s : Segment} {rs : List ResolvedArtifact} {report : Report}
  {before : Option Metadata}

/-- What describing an artifact makes of the document at a place. -/
def revise (host : Host) (root : Path) (w q : Place) (before : Option Metadata) (a : Artifact) :
    Option Metadata :=
  if q = (versionDocument root a).place w then some ((before.getD {}).addLocalCopy a host.now)
  else if q = (artifactDocument root a).place w then some ((before.getD {}).addArtifact a)
  else before

/-- All documents below a directory are read as they were written. -/
def LegibleBelow (fs : FileSystem) (directory : Place) : Prop :=
  ∀ q, directory <+: q → q.getLast? = some metadataSegment → ∀ m ∈ documentAt fs q, m.Legible

lemma legible_revise (ha : a.Legible) (hnow : Metadata.OnLines host.now)
    (h : ∀ m ∈ before, m.Legible) :
    ∀ m ∈ revise host root w q before a, m.Legible := by
  have hbefore : (before.getD {}).Legible := by
    cases before with
    | none => exact Metadata.legible_empty
    | some m => exact h m rfl
  unfold revise
  split
  next =>
    rintro m ⟨⟩
    exact hbefore.addLocalCopy ha hnow
  next =>
    split
    next =>
      rintro m ⟨⟩
      exact hbefore.addArtifact ha
    next => exact h

/-- Checksum files are no documents. -/
theorem documentAt_of_writeAll (hf : f.leaf? = some s) (hq : q.getLast? = some metadataSegment)
    (h : Changes (ChecksumFile.places w f) ∅ fs fs') : documentAt fs' q = documentAt fs q := by
  refine Metadata.documentAt_of_changes h (by simp) ?_
  rintro ⟨kind, rfl⟩
  rw [getLast?_place (leaf?_path hf kind), Option.some.injEq] at hq
  exact append_suffix_ne_metadataSegment s kind hq

/-- The directories of an artifact whose file is there can be followed. -/
theorem reaches_of_locate (ha : FullyNamed a) (h : fs.locate (nested.filePath root a) = .ok q) :
    (∃ directory, fs.Reaches (versionDirectory root a) directory) ∧
      ∃ directory, fs.Reaches (artifactDirectory root a) directory := by
  rw [filePath_nested ha.plain, ← String.ofList_toList (s := fileName a)] at h
  obtain ⟨directory, hversion⟩ :=
    reaches_of_locate_push (Artifact.isName_fileName ha.plain.fileName) h
  rw [versionDirectory_eq ha, artifactDirectory_eq ha]
  refine ⟨⟨directory, hversion⟩, ?_⟩
  rw [versionRoot, ← String.ofList_toList (s := a.baseVersion)] at hversion
  exact hversion.above ha.plain.baseVersion

lemma legible_of_below {p : Path} (hdocuments : LegibleBelow fs (fs.place root))
    (hp : fs.place root <+: fs.place p) :
    ∀ m ∈ documentAt fs (fs.place (p.push metadataName)), m.Legible := by
  have hplace : fs.place (p.push metadataName) = fs.place p ++ [metadataSegment] :=
    place_push_metadataName p
  rw [hplace]
  exact hdocuments _ (hp.trans (List.prefix_append _ _)) List.getLast?_concat

/-- Updating the two documents of an artifact, in directories that are there, revises them and
nothing else. -/
theorem update_documents {fs₁ : FileSystem} {directory upper : Place} (ha : FullyNamed a)
    (hlegible : a.Legible) (hnow : Metadata.OnLines host.now)
    (hdocuments : LegibleBelow fs (fs.place root))
    (hversionDirectory : fs.Reaches (versionDirectory root a) directory)
    (hartifactDirectory : fs.Reaches (artifactDirectory root a) upper)
    (hversion : Metadata.update host (versionDocument root a) (·.addLocalCopy a host.now) fs =
      (.ok (), fs₁))
    (hall : Metadata.update host (artifactDocument root a) (·.addArtifact a) fs₁ = (.ok (), fs')) :
    (∀ q, documentAt fs' q = revise host root fs.workingDirectory q (documentAt fs q) a) ∧
      fs'.Names (versionDocument root a) directory metadataSegment ∧
      fs'.Names (artifactDocument root a) upper metadataSegment ∧
      Changes {fs.place (versionDocument root a), fs.place (artifactDocument root a)}
        {x | x.2 = .directory} fs fs' := by
  have hapart : fs.place (versionDocument root a) ≠ fs.place (artifactDocument root a) :=
    place_versionDocument_ne ha _ root
  have hrooms : ∀ {w p}, ∀ x ∈ rooms w p, x.2 = .directory := fun x hx => hx.1
  have hversionLegible := legible_of_below hdocuments (root_prefix_versionDirectory ha _ root)
  obtain ⟨hversionNow, hversionChanges, hversionNames⟩ :=
    Metadata.update_documentAt (versionDocument_eq root a) isName_metadataSegment hversionDirectory
      hversionLegible (fun m hm => hm.addLocalCopy hlegible hnow) hversion
  have hplace := hversionChanges.place_eq (artifactDocument root a)
  have hkept : documentAt fs₁ (fs.place (artifactDocument root a)) =
      documentAt fs (fs.place (artifactDocument root a)) :=
    Metadata.documentAt_of_changes hversionChanges hrooms hapart.symm
  have hartifactLegible := legible_of_below hdocuments (root_prefix_artifactDirectory ha _ root)
  rw [← artifactDocument_eq, ← hkept, ← hplace] at hartifactLegible
  obtain ⟨hallNow, hallChanges, hallNames⟩ :=
    Metadata.update_documentAt (artifactDocument_eq root a) isName_metadataSegment
      (hversionChanges.reaches hartifactDirectory) hartifactLegible
      (fun m hm => hm.addArtifact hlegible) hall
  rw [hplace] at hallNow hallChanges
  rw [hkept] at hallNow
  refine ⟨fun q => ?_, hallChanges.names hversionNames, hallNames, ?_⟩
  · unfold revise
    split
    next hq =>
      subst hq
      exact (Metadata.documentAt_of_changes hallChanges hrooms hapart).trans hversionNow
    next hversion =>
      split
      next hq =>
        subst hq
        exact hallNow
      next hartifact =>
        exact (Metadata.documentAt_of_changes hallChanges hrooms hartifact).trans
          (Metadata.documentAt_of_changes hversionChanges hrooms hversion)
  · exact (hversionChanges.mono (by simp) hrooms).trans (hallChanges.mono (by simp) hrooms)

/-- Describing an artifact whose file is there revises the two documents it is described in, and
both are within reach then. -/
theorem describe_documents (ha : FullyNamed a) (hlegible : a.Legible)
    (hnow : Metadata.OnLines host.now) (hdocuments : LegibleBelow fs (fs.place root))
    (hlocate : fs.locate (nested.filePath root a) = .ok q)
    (h : describe host a (nested.filePath root a) fs = (.ok (), fs')) :
    (∀ q, q.getLast? = some metadataSegment →
        documentAt fs' q = revise host root fs.workingDirectory q (documentAt fs q) a) ∧
      (∃ directory, fs'.Names (versionDocument root a) directory metadataSegment) ∧
      (∃ directory, fs'.Names (artifactDocument root a) directory metadataSegment) ∧
      Changes Set.univ Set.univ fs fs' := by
  have hversionDocument := versionMetadata_eq ha root
  have hartifactDocument := artifactMetadata_eq ha root
  have hleaf := leaf?_filePath ha.plain root
  have hversionLeaf := leaf?_versionMetadata (nested.filePath root a)
  have hartifactLeaf := leaf?_artifactMetadata (nested.filePath root a)
  obtain ⟨⟨directory, hversionDirectory⟩, upper, hartifactDirectory⟩ := reaches_of_locate ha hlocate
  obtain ⟨fs₁, fs₂, fs₃, fs₄, _, _, _, hversion, hall, hsum, hversionSum, hallSum⟩ :=
    describe_steps h
  rw [hversionDocument] at hversion hversionSum hversionLeaf
  rw [hartifactDocument] at hall hallSum hartifactLeaf
  obtain ⟨hrevised, hversionNames, hartifactNames, hchanges⟩ :=
    update_documents ha hlegible hnow hdocuments hversionDirectory hartifactDirectory hversion hall
  obtain ⟨-, hsum⟩ := writeAll_spec hleaf hsum
  obtain ⟨-, hversionSum⟩ := writeAll_spec hversionLeaf hversionSum
  obtain ⟨-, hallSum⟩ := writeAll_spec hartifactLeaf hallSum
  have hsums := (hsum.forget.trans hversionSum.forget).trans hallSum.forget
  refine ⟨fun q hq => ?_, ⟨_, hsums.names hversionNames⟩, ⟨_, hsums.names hartifactNames⟩,
    hchanges.forget.trans hsums⟩
  rw [documentAt_of_writeAll hartifactLeaf hq hallSum,
    documentAt_of_writeAll hversionLeaf hq hversionSum,
    documentAt_of_writeAll hleaf hq hsum, hrevised]

/-- What a batch needs so that each document is about one artifact: all items have directories of
their own, no file is a document itself, and all texts that are put into documents can be read
again. -/
structure Documented (a : Artifact) : Prop extends FullyNamed a where
  legible : a.Legible
  fileName : fileName a ≠ metadataName

/-- Materializing an artifact with its documents revises them. -/
theorem materialize_documents {path : Path} (hlayout : d.layout = .nested)
    (hmetadata : d.generateMetadata = true) (ha : Documented r.artifact)
    (hnow : Metadata.OnLines host.now) (hdocuments : LegibleBelow fs (fs.place d.root))
    (h : d.materialize host r fs = (.ok path, fs')) :
    (∀ q, q.getLast? = some metadataSegment →
        documentAt fs' q = revise host d.root fs.workingDirectory q (documentAt fs q) r.artifact) ∧
      (∃ directory, fs'.Names (versionDocument d.root r.artifact) directory metadataSegment) ∧
      (∃ directory, fs'.Names (artifactDocument d.root r.artifact) directory metadataSegment) ∧
      Changes Set.univ Set.univ fs fs' := by
  obtain ⟨hpath, source, copied, -, hcopy, hdescribe⟩ := materialize_steps h
  rw [if_pos hmetadata] at hdescribe
  rw [destination_of_nested hlayout] at hpath
  rw [hpath] at hcopy hdescribe
  obtain ⟨content, -, hstored⟩ := Disk.copy_stored hcopy
  obtain ⟨q, hlocate, -⟩ := read_eq_ok_iff.mp hstored.read
  have hcopied : ∀ q, q.getLast? = some metadataSegment →
      documentAt copied q = documentAt fs q := by
    intro q hq
    refine Metadata.documentAt_of_changes hstored.changes (fun x hx => hx.1) ?_
    intro hplace
    have hlast := getLast?_place (w := fs.workingDirectory) (leaf?_filePath ha.plain d.root)
    rw [Set.mem_singleton_iff.mp hplace, FileSystem.place, hlast, Option.some.injEq] at hq
    exact ha.fileName (String.toList_inj.mp hq)
  have hbelow : LegibleBelow copied (copied.place d.root) := by
    rw [hstored.changes.place_eq]
    intro q hroot hq
    rw [hcopied q hq]
    exact hdocuments q hroot hq
  obtain ⟨hrevised, hversion, hartifact, hchanges⟩ :=
    describe_documents ha.toFullyNamed ha.legible hnow hbelow hlocate hdescribe
  refine ⟨fun q hq => ?_, hversion, hartifact, hstored.changes.forget.trans hchanges⟩
  rw [hrevised q hq, hcopied q hq, hstored.changes.workingDirectory]

/-- A batch of which every item is copied revises documents item by item, and all of them are within
reach in the end. -/
theorem batch_documents (hlayout : d.layout = .nested) (hmetadata : d.generateMetadata = true)
    (hnow : Metadata.OnLines host.now) (hitems : ∀ r ∈ rs, Documented r.artifact)
    (hdocuments : LegibleBelow fs (fs.place d.root))
    (h : Batch.Carried (fun r => d.add host r.artifact.display r) rs fs report fs')
    (hcopied : ∀ item ∈ report, ∃ path, item.outcome = .copied path) :
    (∀ q, q.getLast? = some metadataSegment → documentAt fs' q =
        rs.foldl (fun before r => revise host d.root fs.workingDirectory q before r.artifact)
          (documentAt fs q)) ∧
      (∀ r ∈ rs,
        (∃ directory, fs'.Names (versionDocument d.root r.artifact) directory metadataSegment) ∧
        ∃ directory, fs'.Names (artifactDocument d.root r.artifact) directory metadataSegment) ∧
      Changes Set.univ Set.univ fs fs' := by
  induction h with
  | nil fs => exact ⟨fun _ _ => rfl, by simp, .refl fs⟩
  | @cons r rs item report fs fs₁ fs₂ head tail ih =>
    obtain ⟨path, hpath⟩ := hcopied item List.mem_cons_self
    have hr := hitems r List.mem_cons_self
    have hmaterialize : d.materialize host r fs = (.ok path, fs₁) := copied_of_add head hpath
    obtain ⟨hrevised, hversion, hartifact, hchanges⟩ :=
      materialize_documents hlayout hmetadata hr hnow hdocuments hmaterialize
    have hbelow : LegibleBelow fs₁ (fs₁.place d.root) := by
      rw [hchanges.place_eq]
      intro q hroot hq
      rw [hrevised q hq]
      exact legible_revise hr.legible hnow (hdocuments q hroot hq)
    obtain ⟨hrest, hreached, hchanges'⟩ := ih (fun r' hr' => hitems r' (List.mem_cons_of_mem _ hr'))
      hbelow fun item' hitem' => hcopied item' (List.mem_cons_of_mem _ hitem')
    refine ⟨fun q hq => ?_, ?_, hchanges.trans hchanges'⟩
    · rw [hrest q hq, hrevised q hq, hchanges.workingDirectory, List.foldl_cons]
    · rw [List.forall_mem_cons]
      obtain ⟨directory, hversion⟩ := hversion
      obtain ⟨upper, hartifact⟩ := hartifact
      exact ⟨⟨⟨directory, hchanges'.names hversion⟩, upper, hchanges'.names hartifact⟩, hreached⟩

/-- The document of an artifact is revised by all artifacts with its group and name. -/
theorem revise_artifactDocument (ha : FullyNamed a) (hb : FullyNamed b)
    (h : versionDirectory root b ≠ artifactDirectory root a) :
    revise host root w ((artifactDocument root a).place w) before b =
      if b.group = a.group ∧ b.name = a.name then some ((before.getD {}).addArtifact b)
        else before := by
  unfold revise
  rw [if_neg (place_versionDocument_ne_of_ne hb ha h).symm]
  simp only [place_artifactDocument_eq_iff ha hb]

/-- The document of a version is revised by all artifacts with its base version, and always in the
same way. -/
theorem revise_versionDocument (ha : FullyNamed a) (hb : FullyNamed b)
    (h : versionDirectory root a ≠ artifactDirectory root b) :
    revise host root w ((versionDocument root a).place w) before b =
      if b.group = a.group ∧ b.name = a.name ∧ b.baseVersion = a.baseVersion then
        some ((before.getD {}).addLocalCopy a host.now) else before := by
  unfold revise
  simp only [place_versionDocument_eq_iff ha hb, if_neg (place_versionDocument_ne_of_ne ha hb h)]
  split
  next hsame =>
    obtain ⟨hgroup, hname, hbase⟩ := hsame
    rw [Metadata.addLocalCopy_congr hgroup hname hbase]
  next => rfl

/-- The base versions of the items of a batch with the group and the name of an artifact, in
order. -/
def versionsOf (rs : List ResolvedArtifact) (a : Artifact) : List String :=
  (rs.filter fun r => r.artifact.group = a.group ∧ r.artifact.name = a.name).map
    (·.artifact.baseVersion)

/-- All items of a batch with the group and the name of one of them add their versions to its
document. -/
theorem foldl_revise_artifactDocument (hr : r ∈ rs) (hitems : ∀ r' ∈ rs, FullyNamed r'.artifact)
    (hapart : ∀ r' ∈ rs, versionDirectory root r'.artifact ≠ artifactDirectory root r.artifact)
    (before : Option Metadata) :
    rs.foldl (fun before r' => revise host root w ((artifactDocument root r.artifact).place w)
      before r'.artifact)
        before =
      some { before.getD {} with
        group := some r.artifact.group
        name := some r.artifact.name
        modelVersion := some Metadata.currentModel
        versions := (before.getD {}).versions ++
          Metadata.unlisted (before.getD {}).versions (versionsOf rs r.artifact) } := by
  have hrevise : ∀ before, ∀ r' ∈ rs,
      revise host root w ((artifactDocument root r.artifact).place w) before r'.artifact =
        if r'.artifact.group = r.artifact.group ∧ r'.artifact.name = r.artifact.name then
          some ((before.getD {}).addArtifact r'.artifact) else before :=
    fun before r' hr' => revise_artifactDocument (hitems r hr) (hitems r' hr') (hapart r' hr')
  have hmem : r.artifact ∈ (rs.filter fun r' =>
      r'.artifact.group = r.artifact.group ∧ r'.artifact.name = r.artifact.name).map (·.artifact) :=
    List.mem_map_of_mem (List.mem_filter.mpr ⟨hr, by simp⟩)
  have hsame : ∀ a ∈ (rs.filter fun r' =>
      r'.artifact.group = r.artifact.group ∧ r'.artifact.name = r.artifact.name).map (·.artifact),
      a.group = r.artifact.group ∧ a.name = r.artifact.name := by
    intro a ha
    obtain ⟨r', hr', rfl⟩ := List.mem_map.mp ha
    simpa using (List.mem_filter.mp hr').2
  have hsome : ∃ r' ∈ rs, r'.artifact.group = r.artifact.group ∧
      r'.artifact.name = r.artifact.name := ⟨r, hr, rfl, rfl⟩
  calc
    _ = rs.foldl (fun before r' =>
          if r'.artifact.group = r.artifact.group ∧ r'.artifact.name = r.artifact.name then
            some ((before.getD {}).addArtifact r'.artifact) else before) before :=
      List.foldl_ext _ _ before hrevise
    _ = some ((rs.filter fun r' =>
            r'.artifact.group = r.artifact.group ∧ r'.artifact.name = r.artifact.name).foldl
          (fun m r' => m.addArtifact r'.artifact) (before.getD {})) :=
      Metadata.foldl_changes (fun r' m => m.addArtifact r'.artifact) before hsome
    _ = some (((rs.filter fun r' =>
            r'.artifact.group = r.artifact.group ∧ r'.artifact.name = r.artifact.name).map
          (·.artifact)).foldl Metadata.addArtifact (before.getD {})) := by rw [List.foldl_map]
    _ = _ := by
      rw [Metadata.foldl_addArtifact _ (List.ne_nil_of_mem hmem) hsame, List.map_map]
      rfl

/-- All items of a batch with the base version of one of them make of its document that of one local
copy. -/
theorem foldl_revise_versionDocument (hr : r ∈ rs) (hitems : ∀ r' ∈ rs, FullyNamed r'.artifact)
    (hapart : ∀ r' ∈ rs, versionDirectory root r.artifact ≠ artifactDirectory root r'.artifact)
    (before : Option Metadata) :
    rs.foldl (fun before r' => revise host root w ((versionDocument root r.artifact).place w) before
      r'.artifact) before = some ((before.getD {}).addLocalCopy r.artifact host.now) := by
  have hrevise : ∀ before, ∀ r' ∈ rs,
      revise host root w ((versionDocument root r.artifact).place w) before r'.artifact =
        if r'.artifact.group = r.artifact.group ∧ r'.artifact.name = r.artifact.name ∧
            r'.artifact.baseVersion = r.artifact.baseVersion then
          some ((before.getD {}).addLocalCopy r.artifact host.now) else before :=
    fun before r' hr' => revise_versionDocument (hitems r hr) (hitems r' hr') (hapart r' hr')
  have hmem : r ∈ rs.filter fun r' =>
      r'.artifact.group = r.artifact.group ∧ r'.artifact.name = r.artifact.name ∧
        r'.artifact.baseVersion = r.artifact.baseVersion := List.mem_filter.mpr ⟨hr, by simp⟩
  have hsome : ∃ r' ∈ rs,
      r'.artifact.group = r.artifact.group ∧ r'.artifact.name = r.artifact.name ∧
        r'.artifact.baseVersion = r.artifact.baseVersion := ⟨r, hr, rfl, rfl, rfl⟩
  calc
    _ = rs.foldl (fun before r' =>
          if r'.artifact.group = r.artifact.group ∧ r'.artifact.name = r.artifact.name ∧
              r'.artifact.baseVersion = r.artifact.baseVersion then
            some ((before.getD {}).addLocalCopy r.artifact host.now) else before) before :=
      List.foldl_ext _ _ before hrevise
    _ = some ((rs.filter fun r' =>
            r'.artifact.group = r.artifact.group ∧ r'.artifact.name = r.artifact.name ∧
              r'.artifact.baseVersion = r.artifact.baseVersion).foldl
          (fun m _ => m.addLocalCopy r.artifact host.now) (before.getD {})) :=
      Metadata.foldl_changes (fun _ m => m.addLocalCopy r.artifact host.now) before hsome
    _ = _ := by
      rw [Metadata.foldl_const (Metadata.addLocalCopy_addLocalCopy · r.artifact host.now)
        (List.ne_nil_of_mem hmem)]

/-- A batch of which every item is copied leaves for each artifact a document that lists the
versions that were listed before, and behind them those of the batch that were not, in order and
once each; and for each version a document of a local copy. What else the documents said before they
still say. -/
theorem materializeAll_documents (hlayout : d.layout = .nested)
    (hmetadata : d.generateMetadata = true)
    (hnow : Metadata.OnLines host.now) (hitems : ∀ r ∈ rs, Documented r.artifact)
    (hapart : ∀ r ∈ rs, ∀ r' ∈ rs, r.artifact ≠ r'.artifact →
      versionDirectory d.root r.artifact ≠ artifactDirectory d.root r'.artifact)
    (hdocuments : LegibleBelow fs (fs.place d.root))
    (hrun : (d.materializeAll host rs).run fs = (report, fs'))
    (hcopied : ∀ item ∈ report, ∃ path, item.outcome = .copied path) :
    ∀ r ∈ rs,
      Metadata.load fs' (artifactDocument d.root r.artifact) = .ok (some
        { Metadata.documentOf fs (artifactDocument d.root r.artifact) with
          group := some r.artifact.group
          name := some r.artifact.name
          modelVersion := some Metadata.currentModel
          versions := (Metadata.documentOf fs (artifactDocument d.root r.artifact)).versions ++
            Metadata.unlisted (Metadata.documentOf fs (artifactDocument d.root r.artifact)).versions
              (versionsOf rs r.artifact) }) ∧
      Metadata.load fs' (versionDocument d.root r.artifact) = .ok (some
        { Metadata.documentOf fs (versionDocument d.root r.artifact) with
          group := some r.artifact.group
          name := some r.artifact.name
          modelVersion := some Metadata.currentModel
          version := some r.artifact.baseVersion
          versions := (Metadata.documentOf fs (versionDocument d.root r.artifact)).versions ++
            Metadata.unlisted (Metadata.documentOf fs (versionDocument d.root r.artifact)).versions
              [r.artifact.baseVersion]
          snapshot := some
            { (Metadata.documentOf fs (versionDocument d.root r.artifact)).snapshot.getD {} with
              localCopy := some true }
          lastUpdated := some host.now }) := by
  obtain ⟨hrevised, hreached, hchanges⟩ := batch_documents hlayout hmetadata hnow hitems hdocuments
    (carried_of_run hrun) hcopied
  have hnamed : ∀ r ∈ rs, FullyNamed r.artifact := fun r hr => (hitems r hr).toFullyNamed
  have hdirectories : ∀ r ∈ rs, ∀ r' ∈ rs,
      versionDirectory d.root r.artifact ≠ artifactDirectory d.root r'.artifact := by
    intro r hr r' hr'
    by_cases hsame : r.artifact = r'.artifact
    · rw [hsame]
      exact versionDirectory_ne_artifactDirectory (hnamed r' hr')
    · exact hapart r hr r' hr' hsame
  intro r hr
  obtain ⟨⟨directory, hversion⟩, upper, hartifact⟩ := hreached r hr
  constructor
  · refine Metadata.load_eq_some hartifact (by decide) ?_
    have hlast : (fs.place (artifactDocument d.root r.artifact)).getLast? =
        some metadataSegment := by
      rw [FileSystem.place, place_artifactDocument (hnamed r hr), List.getLast?_concat]
    rw [hchanges.place_eq, hrevised _ hlast]
    unfold Metadata.documentOf FileSystem.place
    exact foldl_revise_artifactDocument hr hnamed (fun r' hr' => hdirectories r' hr' r hr) _
  · refine Metadata.load_eq_some hversion (by decide) ?_
    have hlast : (fs.place (versionDocument d.root r.artifact)).getLast? =
        some metadataSegment := by
      rw [FileSystem.place, place_versionDocument (hnamed r hr), List.getLast?_concat]
    rw [hchanges.place_eq, hrevised _ hlast]
    unfold Metadata.documentOf FileSystem.place
    refine (foldl_revise_versionDocument hr hnamed (hdirectories r hr) _).trans ?_
    rw [Metadata.addLocalCopy_eq]

lemma legibleBelow_oneSource (directory : Place) : LegibleBelow oneSource directory := by
  intro q _ hlast m hm
  obtain ⟨content, _, hfile, -⟩ := Metadata.documentAt_eq_some_iff.mp hm
  have hsource : q = ["source".toList] := by
    by_contra hne
    unfold FileSystem.get? at hfile
    split at hfile
    next => cases hfile
    next =>
      rw [oneSource, List.lookup_cons] at hfile
      simp only [List.lookup_nil] at hfile
      split at hfile
      next heq => exact hne (beq_iff_eq.mp heq)
      next => cases hfile
  have hname : q.getLast? ≠ some metadataSegment := by
    rw [hsource]
    decide
  exact absurd hlast hname

/-- A deployed snapshot. -/
def deployed : ResolvedArtifact := ⟨.ofVersionText "g.h" "a" "1-20240102.030405-6", some ⟨"source"⟩⟩

lemma documented_deployed : Documented deployed.artifact where
  plain :=
    ⟨by decide +kernel, by unfold Path.IsName; decide +kernel,
      by unfold Path.IsName; decide +kernel, by decide +kernel⟩
  group := by decide +kernel
  legible := by
    constructor <;> unfold Metadata.OnLines Markup.IsInLine <;> decide +kernel
  fileName := by decide +kernel

theorem materializeAll_documents_deployed :
    ∃ report fs', (oneDepot.materializeAll oneHost [deployed]).run oneSource =
      (report, fs') ∧
    Metadata.load fs' ⟨"depot/g/h/a/maven-metadata.xml"⟩ = .ok (some
      { group := some "g.h", name := some "a", modelVersion := some "1.1.0"
        versions := ["1-SNAPSHOT"] }) := by
  have hcopied : ∀ item ∈ ((oneDepot.materializeAll oneHost [deployed]).run oneSource).1,
      ∃ path, item.outcome = .copied path := by
    have hall : ((oneDepot.materializeAll oneHost [deployed]).run oneSource).1.map (·.outcome) =
        [.copied ⟨"depot/g/h/a/1-SNAPSHOT/a-1-SNAPSHOT.jar"⟩] := by decide +kernel
    intro item hitem
    have hmem := List.mem_map_of_mem (f := (·.outcome)) hitem
    rw [hall] at hmem
    exact ⟨_, List.mem_singleton.mp hmem⟩
  have hnow : Metadata.OnLines oneHost.now := by
    unfold Metadata.OnLines Markup.IsInLine
    decide +kernel
  have hpath : artifactDocument oneDepot.root deployed.artifact =
      ⟨"depot/g/h/a/maven-metadata.xml"⟩ := by
    decide +kernel
  have hempty : Metadata.documentOf oneSource ⟨"depot/g/h/a/maven-metadata.xml"⟩ = {} := by
    decide +kernel
  have hapart : ∀ r ∈ [deployed], ∀ r' ∈ [deployed], r.artifact ≠ r'.artifact →
      versionDirectory oneDepot.root r.artifact ≠ artifactDirectory oneDepot.root r'.artifact := by
        decide +kernel
  rcases hresult : (oneDepot.materializeAll oneHost [deployed]).run oneSource with ⟨report, fs'⟩
  rw [hresult] at hcopied
  obtain ⟨hload, -⟩ := materializeAll_documents rfl rfl hnow (by simpa using documented_deployed)
    hapart (legibleBelow_oneSource _) hresult hcopied deployed (by simp)
  rw [hpath, hempty] at hload
  exact ⟨report, fs', rfl, hload⟩

/-- An artifact whose name has a slash in it. -/
def slashed : ResolvedArtifact := ⟨.ofVersionText "g" "a/b" "1", some ⟨"source"⟩⟩

/-- With a slash in a name the documents lie elsewhere: where that of all versions is looked for,
there is none. -/
theorem materializeAll_documents_slashed :
    (slashed.artifact.name ≠ "." ∧ slashed.artifact.name ≠ ".." ∧
      slashed.artifact.baseVersion ≠ "." ∧
      slashed.artifact.baseVersion ≠ ".." ∧ [] ∉ slashed.artifact.group.toList.splitOn '.' ∧
      fileName slashed.artifact ≠ metadataName) ∧
    (((oneDepot.materializeAll oneHost [slashed]).run oneSource).1.map (·.outcome),
        (Metadata.load ((oneDepot.materializeAll oneHost [slashed]).run oneSource).2
          (artifactDocument oneDepot.root slashed.artifact)).toOption) =
      ([.copied ⟨"depot/g/a/b/1/a/b-1.jar"⟩], some none) := by
  decide +kernel

end FeatureDepot.Depot
