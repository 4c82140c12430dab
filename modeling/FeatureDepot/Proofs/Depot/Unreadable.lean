import FeatureDepot.Proofs.Depot.Interruption
import FeatureDepot.Proofs.Layout.Surroundings
import FeatureDepot.Proofs.Metadata.Documents

/-! Documents that cannot be read. A file in the place of a document is read before anything is
written to it, so one that holds no document stays as it is; and where it is that of a version, so
does all that would be written behind it. -/
namespace FeatureDepot
open FileSystem FeatureDepot.Path Batch

namespace Disk

variable {host : Host} {fs : FileSystem} {p : Path} {d : Place}

lemma copy_litter (hfresh : host.Fresh) (source p : Path) (fs : FileSystem) :
    Changes {fs.place p} litter fs (copy host source p fs).2 := by
  rcases h : copy host source p fs with ⟨failure | _, copied⟩
  · exact (copy_failed hfresh h).mono (Set.empty_subset _) subset_rfl
  · obtain ⟨_, -, hstored⟩ := copy_stored h
    exact hstored.changes.mono subset_rfl (rooms_subset_litter _ _)

/-- A copy into a directory that can be reached leaves no new one. -/
theorem copy_of_reaches (hfresh : host.Fresh) (h : fs.Reaches (Layout.directoryOf p) d)
    (source : Path) :
    Changes {fs.place p} temporaries fs (copy host source p fs).2 := by
  unfold copy
  rw [bind_eq, look_eq]
  cases fs.openFile source with
  | error e => exact .refl fs
  | ok opened =>
    -- A path without a parent is one in the working directory.
    have hroom : (makeRoom p fs).2 = fs := by
      cases hp : p.parent? with
      | none => rw [makeRoom_eq, hp]
      | some directory =>
        rw [Layout.directoryOf, hp, Option.getD_some] at h
        exact makeRoom_of_reaches hp h
    dsimp only [Except.mapError]
    rw [bind_eq]
    rcases hmade : makeRoom p fs with ⟨failure | _, made⟩
    · rw [hmade] at hroom
      obtain rfl : made = fs := hroom
      exact .refl made
    · rw [hmade] at hroom
      obtain rfl : made = fs := hroom
      exact (replace_changes hfresh p _ made).mono subset_rfl
        (temporary_subset_temporaries hfresh made p)

end Disk

namespace Metadata

variable {host : Host} {f g : Path} {content : Bytes} {fs fs' : FileSystem} {files : Set Place}
  {new : Set (Place × Entry)}

/-- A file that holds no document: what it holds is no text, or a text that is not one. -/
structure Unreadable (fs : FileSystem) (f : Path) (content : Bytes) : Prop where
  read : fs.read f = .ok content
  illegible : Bytes.decode? content = none ∨
    ∃ text fault, Bytes.decode? content = some text ∧ Metadata.parse text = .error fault

namespace Unreadable

lemma of_changes (h : Unreadable fs f content) (hchanges : Changes files new fs fs')
    (hf : fs.place f ∉ files) :
    Unreadable fs' f content := ⟨hchanges.read_of_not_mem hf h.read, h.illegible⟩

lemma documentAt_eq (h : Unreadable fs f content) : documentAt fs (fs.place f) = none := by
  rw [Option.eq_none_iff_forall_ne_some]
  intro m hm
  obtain ⟨content', text, hfile, htext, hparse⟩ := documentAt_eq_some_iff.mp hm
  rw [get?_of_read h.read] at hfile
  obtain rfl := Entry.file.inj (Option.some.inj hfile)
  rcases h.illegible with hnone | ⟨text', fault, htext', hfault⟩
  · rw [hnone] at htext
    cases htext
  · rw [htext] at htext'
    obtain rfl := Option.some.inj htext'
    rw [hparse] at hfault
    cases hfault

lemma of_documentAt (hread : fs.read f = .ok content) (h : documentAt fs (fs.place f) = none) :
    Unreadable fs f content := by
  refine ⟨hread, ?_⟩
  cases htext : Bytes.decode? content with
  | none => exact .inl rfl
  | some text =>
    cases hparse : parse text with
    | error fault => exact .inr ⟨text, fault, rfl, hparse⟩
    | ok m =>
      rw [documentAt_eq_some_iff.mpr ⟨content, text, get?_of_read hread, htext, hparse⟩] at h
      cases h

/-- A file that is there is not taken for a missing one. -/
theorem load_eq (h : Unreadable fs f content) : ∃ cause, load fs f = .error cause := by
  cases hload : load fs f with
  | error cause => exact ⟨cause, rfl⟩
  | ok before =>
    obtain ⟨q, hlocate, -⟩ := read_eq_ok_iff.mp h.read
    cases before with
    | none =>
      have hnone := load_eq_none_iff.mp hload
      rw [hlocate] at hnone
      cases hnone
    | some m =>
      obtain ⟨q', hlocate', hm⟩ := load_eq_some_iff.mp hload
      rw [← place_of_locate hlocate', h.documentAt_eq] at hm
      cases hm

end Unreadable

/-- A document that cannot be loaded is not changed. -/
theorem update_of_load_error {cause : Cause} (h : load fs f = .error cause) (host : Host)
    (change : Metadata → Metadata) :
    update host f change fs = (.error (Failure.around (.reading f) { cause }), fs) := by
  unfold update
  rw [Disk.bind_eq, Disk.during_eq, read_eq, h]
  rfl

lemma Unreadable.update_eq (h : Unreadable fs f content) (host : Host)
    (change : Metadata → Metadata) :
    ∃ failure, update host f change fs = (.error failure, fs) := by
  obtain ⟨cause, hload⟩ := h.load_eq
  exact ⟨_, update_of_load_error hload host change⟩

/-- What is done to another document leaves a file as it is. -/
theorem Unreadable.update (h : Unreadable fs g content) (hfresh : host.Fresh)
    (hother : ∀ before, load fs f = .ok before → fs.place g ≠ fs.place f)
    (change : Metadata → Metadata) :
    Unreadable (Metadata.update host f change fs).2 g content := by
  cases hload : load fs f with
  | error cause => rwa [update_of_load_error hload]
  | ok before =>
    exact h.of_changes (update_litter fs.workingDirectory hfresh f change fs rfl)
      (hother before hload)

end Metadata

namespace Depot
open Disk ChecksumFile Metadata

variable {host : Host} {d : Depot} {r : ResolvedArtifact} {file f : Path} {s : Segment}
  {content : Bytes} {fs fs' : FileSystem} {directory : Place} {outcome : Except Failure Path}

/-- Both documents may be one file under two paths. If one of them is no document, then so is the
other. -/
theorem place_artifactMetadata_ne {before : Option Metadata}
    (h : Unreadable fs (Layout.artifactMetadata file) content)
    (hdirectory : fs.Reaches (Layout.directoryOf file) directory)
    (hload : load fs (Layout.versionMetadata file) = .ok before) :
    fs.place (Layout.artifactMetadata file) ≠ fs.place (Layout.versionMetadata file) := by
  intro hplace
  have hcheck := check_of_load (leaf?_versionMetadata file) hload
  have hnames : fs.Names (Layout.versionMetadata file) directory metadataSegment :=
    hdirectory.names isName_metadataSegment hcheck
  have hbefore := documentAt_of_load hnames hload
  rw [← hplace, h.documentAt_eq] at hbefore
  obtain rfl := hbefore
  have hlocate := load_eq_none_iff.mp hload
  rw [hnames.locate_eq] at hlocate
  have hnone := (child_eq_notFound_iff.mp hlocate).2
  rw [← hnames.place_eq, ← hplace, get?_of_read h.read] at hnone
  cases hnone

lemma describe_of_unreadable_version (h : Unreadable fs (Layout.versionMetadata file) content)
    (host : Host) (a : Artifact) : ∃ failure, describe host a file fs = (.error failure, fs) := by
  obtain ⟨failure, hupdate⟩ := h.update_eq host (·.addLocalCopy a host.now)
  refine ⟨failure, ?_⟩
  rw [describe_eq, bind_eq, hupdate]

lemma describe_of_unreadable_artifact (h : Unreadable fs (Layout.artifactMetadata file) content)
    (hfresh : host.Fresh) (hdirectory : fs.Reaches (Layout.directoryOf file) directory)
    (a : Artifact) :
    ∃ failure fs', describe host a file fs = (.error failure, fs') ∧
    fs'.read (Layout.artifactMetadata file) = .ok content := by
  -- The document of the version may be written by then, but only if it is another file.
  have hkept := h.update hfresh (fun _ hload => place_artifactMetadata_ne h hdirectory hload)
    (·.addLocalCopy a host.now)
  rw [describe_eq, bind_eq]
  rcases hversion : Metadata.update host (Layout.versionMetadata file)
    (·.addLocalCopy a host.now) fs with
    ⟨failure | _, middle⟩
  · rw [hversion] at hkept
    exact ⟨failure, middle, rfl, hkept.read⟩
  · rw [hversion] at hkept
    obtain ⟨failure, hall⟩ := hkept.update_eq host (·.addArtifact a)
    refine ⟨failure, middle, ?_, hkept.read⟩
    dsimp only
    rw [bind_eq, hall]

/-- Materializing an artifact fails before anything is described, or describes what was copied. -/
theorem materialize_split (hmetadata : d.generateMetadata = true)
    (h : d.materialize host r fs = (outcome, fs')) :
    (∃ failure, outcome = .error failure) ∧
      (fs' = fs ∨ ∃ source failure, copy host source (d.destination r.artifact) fs =
        (.error failure, fs')) ∨
    ∃ source copied, copy host source (d.destination r.artifact) fs = (.ok (), copied) ∧
      (describe host r.artifact (d.destination r.artifact) copied).2 = fs' ∧
      ∀ failure, (describe host r.artifact (d.destination r.artifact) copied).1 = .error failure →
        outcome = .error failure := by
  rw [materialize_eq] at h
  cases hsource : r.file with
  | none =>
    rw [hsource] at h
    obtain ⟨houtcome, hfs⟩ := Prod.mk.inj h
    exact .inl ⟨⟨_, houtcome.symm⟩, .inl hfs.symm⟩
  | some source =>
    rw [hsource] at h
    dsimp only at h
    rw [if_pos hmetadata, bind_eq, during_eq] at h
    rcases hcopy : copy host source (d.destination r.artifact) fs with ⟨failure | _, copied⟩
    · rw [hcopy] at h
      obtain ⟨houtcome, hfs⟩ := Prod.mk.inj h
      exact .inl ⟨⟨_, houtcome.symm⟩, .inr ⟨source, failure, hfs ▸ hcopy⟩⟩
    · rw [hcopy] at h
      dsimp only [Except.mapError] at h
      rw [bind_eq] at h
      refine .inr ⟨source, copied, hcopy, ?_⟩
      rcases hdescribe : describe host r.artifact (d.destination r.artifact) copied with
        ⟨failure | _, last⟩
      · rw [hdescribe] at h
        obtain ⟨houtcome, hfs⟩ := Prod.mk.inj h
        refine ⟨hfs, fun _ hfailure => ?_⟩
        rw [← Except.error.inj hfailure, houtcome]
      · rw [hdescribe] at h
        exact ⟨(Prod.mk.inj h).2, fun _ hfailure => by cases hfailure⟩

/-- Where the document of the version cannot be read, nothing is left but a copy. -/
theorem materialize_of_unreadable_version (hfresh : host.Fresh)
    (hmetadata : d.generateMetadata = true)
    (hplace : fs.place (Layout.versionMetadata (d.destination r.artifact)) ≠
      fs.place (d.destination r.artifact))
    (hunreadable : Unreadable fs (Layout.versionMetadata (d.destination r.artifact)) content)
    (h : d.materialize host r fs = (outcome, fs')) :
    (∃ failure, outcome = .error failure) ∧
    Changes {fs.place (d.destination r.artifact)} temporaries fs fs' := by
  obtain ⟨q, hlocate, -⟩ := read_eq_ok_iff.mp hunreadable.read
  obtain ⟨directory, hdirectory⟩ := reaches_of_locate_push isName_metadataSegment hlocate
  have hcopied := copy_of_reaches hfresh hdirectory
  rcases materialize_split hmetadata h with ⟨hfailed, rfl | ⟨source, failure, hcopy⟩⟩ | ⟨source,
    copied, hcopy, hlast, hfailed⟩
  · exact ⟨hfailed, .refl fs'⟩
  · have hchanges := hcopied source
    rw [hcopy] at hchanges
    exact ⟨hfailed, hchanges⟩
  · have hchanges := hcopied source
    rw [hcopy] at hchanges
    obtain ⟨failure, hdescribe⟩ :=
      describe_of_unreadable_version (hunreadable.of_changes hchanges hplace) host r.artifact
    rw [hdescribe] at hlast hfailed
    obtain rfl : copied = fs' := hlast
    exact ⟨⟨failure, hfailed failure rfl⟩, hchanges⟩

/-- Where the document of all versions cannot be read, it stays as it is, whatever becomes of that
of the version. -/
theorem materialize_of_unreadable_artifact (hfresh : host.Fresh)
    (hmetadata : d.generateMetadata = true)
    (hplace : fs.place (Layout.artifactMetadata (d.destination r.artifact)) ≠
      fs.place (d.destination r.artifact))
    (hunreadable : Unreadable fs (Layout.artifactMetadata (d.destination r.artifact)) content)
    (h : d.materialize host r fs = (outcome, fs')) :
    (∃ failure, outcome = .error failure) ∧
      fs'.read (Layout.artifactMetadata (d.destination r.artifact)) = .ok content := by
  have hcopied (source : Path) := copy_litter hfresh source (d.destination r.artifact) fs
  rcases materialize_split hmetadata h with ⟨hfailed, rfl | ⟨source, failure, hcopy⟩⟩ | ⟨source,
    copied, hcopy, hlast, hfailed⟩
  · exact ⟨hfailed, hunreadable.read⟩
  · have hchanges := hcopied source
    rw [hcopy] at hchanges
    exact ⟨hfailed, (hunreadable.of_changes hchanges hplace).read⟩
  · have hchanges := hcopied source
    rw [hcopy] at hchanges
    obtain ⟨_, -, hstored⟩ := copy_stored hcopy
    obtain ⟨s, hleaf⟩ := hstored.leaf
    obtain ⟨q, hlocate, -⟩ := read_eq_ok_iff.mp hstored.read
    obtain ⟨directory, hdirectory⟩ := reaches_directoryOf hleaf hlocate
    obtain ⟨failure, last, hdescribe, hread⟩ :=
      describe_of_unreadable_artifact (hunreadable.of_changes hchanges hplace) hfresh
        hdirectory r.artifact
    rw [hdescribe] at hlast hfailed
    obtain rfl : last = fs' := hlast
    exact ⟨⟨failure, hfailed failure rfl⟩, hread⟩

/-- A document, or a checksum file, is no temporary file. -/
theorem not_mem_temporaries {w : Place} {entry : Entry} (hf : f.leaf? = some s)
    (hs : s.getLast? ≠ some 'g') :
    (f.place w, entry) ∉ temporaries := by
  rintro ⟨name, hname⟩
  rw [getLast?_place hf] at hname
  obtain rfl := Option.some.inj hname
  exact hs (by simp)

/-- A file that holds no document is not written to in the place of one: materializing fails, and it
stays as it is. If it is in the place of the document of the version, then that of all versions and
the checksum files of all three files stay as they are, too, except for one that the artifact itself
is copied to. No name that is drawn for a temporary file is to be in use. -/
theorem materialize_unreadable (hunused : ∀ t ∈ d.draws host r fs, host.Avoids t.1 t.2)
    (hmetadata : d.generateMetadata = true)
    (hversion : fs.place (Layout.versionMetadata (d.destination r.artifact)) ≠
      fs.place (d.destination r.artifact))
    (hartifact : fs.place (Layout.artifactMetadata (d.destination r.artifact)) ≠
      fs.place (d.destination r.artifact))
    (h : d.materialize host r fs = (outcome, fs')) :
    (∀ f ∈ [Layout.versionMetadata (d.destination r.artifact),
      Layout.artifactMetadata (d.destination r.artifact)],
      ∀ content, Unreadable fs f content → (∃ failure, outcome = .error failure) ∧
      fs'.read f = .ok content) ∧
    ∀ content, Unreadable fs (Layout.versionMetadata (d.destination r.artifact)) content →
      fs'.get? (fs'.place (Layout.artifactMetadata (d.destination r.artifact))) =
        fs.get? (fs.place (Layout.artifactMetadata (d.destination r.artifact))) ∧
      ∀ f ∈ described (d.destination r.artifact), ∀ kind,
        fs.place (path f kind) ≠ fs.place (d.destination r.artifact) →
        fs'.get? (fs'.place (path f kind)) = fs.get? (fs.place (path f kind)) := by
  obtain ⟨careful, hfresh, h⟩ : ∃ careful : Host, careful.Fresh ∧ d.materialize careful r fs = _ :=
    ⟨host.careful, host.fresh_careful, (materialize_careful hunused).trans h⟩
  constructor
  · intro f hf content hunreadable
    rcases List.mem_pair.mp hf with hf | hf
    · rw [hf] at hunreadable ⊢
      obtain ⟨hfailed, hchanges⟩ :=
        materialize_of_unreadable_version hfresh hmetadata hversion hunreadable h
      exact ⟨hfailed, hchanges.read_of_not_mem hversion hunreadable.read⟩
    · rw [hf] at hunreadable ⊢
      exact materialize_of_unreadable_artifact hfresh hmetadata hartifact hunreadable h
  · intro content hunreadable
    obtain ⟨-, hchanges⟩ :=
      materialize_of_unreadable_version hfresh hmetadata hversion hunreadable h
    constructor
    · rw [hchanges.place_eq]
      exact hchanges.get?_eq hartifact fun entry =>
        not_mem_temporaries (leaf?_artifactMetadata _) (by decide)
    · intro f hf kind hother
      obtain ⟨s, hs⟩ := exists_leaf?_path f kind
      rw [hchanges.place_eq]
      refine hchanges.get?_eq hother fun entry => not_mem_temporaries hs ?_
      cases kind <;> simp [ChecksumKind.suffix, ChecksumKind.ending]

/-- Beside a document that is none, the older file and its checksum file: the file is replaced, and
nothing else. -/
theorem materialize_unreadable_spoilt : (∃ failure, spoiltRun.1 = .error failure) ∧
    spoiltRun.2.read ⟨"depot/g/a/1/maven-metadata.xml"⟩ = .ok (Bytes.encode "none") ∧
    spoiltRun.2.get? (spoiltRun.2.place ⟨"depot/g/a/1/a-1.jar.md5"⟩) =
      some (.file (Bytes.encode "55a54008ad1ba589aa210d2629c1df41")) := by
  have hfile : oneDepot.destination oneArtifact.artifact = ⟨"depot/g/a/1/a-1.jar"⟩ := by
    decide +kernel
  have hdocument : Layout.versionMetadata ⟨"depot/g/a/1/a-1.jar"⟩ =
      ⟨"depot/g/a/1/maven-metadata.xml"⟩ := by decide +kernel
  have hpath : path ⟨"depot/g/a/1/a-1.jar"⟩ .md5 = ⟨"depot/g/a/1/a-1.jar.md5"⟩ := by decide +kernel
  have hunreadable : Unreadable spoilt ⟨"depot/g/a/1/maven-metadata.xml"⟩ (Bytes.encode "none") :=
    .of_documentAt (by decide +kernel) (by decide +kernel)
  have hrun : oneDepot.materialize plainHost oneArtifact spoilt = (spoiltRun.1, spoiltRun.2) :=
    (Prod.eta spoiltRun).symm
  obtain ⟨hkept, hothers⟩ :=
    materialize_unreadable avoids_spoiltRun rfl (by decide +kernel) (by decide +kernel) hrun
  rw [hfile, hdocument] at hkept hothers
  obtain ⟨hfailed, hread⟩ := hkept _ List.mem_cons_self _ hunreadable
  have hsum := (hothers _ hunreadable).2 _ List.mem_cons_self .md5 (by decide +kernel)
  rw [hpath] at hsum
  exact ⟨hfailed, hread, hsum.trans (by decide +kernel)⟩

/-- An artifact whose file has the name of a checksum file of a document. -/
def namesake : ResolvedArtifact :=
  ⟨(Artifact.ofVersionText "g" "maven" "metadata.xml").withExtension "md5", some ⟨"s"⟩⟩

def namesakeDepot : Depot := ⟨⟨"r"⟩, .flat, true⟩

/-- A depot that holds a document that is none, and its checksum file. -/
def spoiltFlat : FileSystem where
  workingDirectory := []
  entries := [(["s".toList], .file (Bytes.encode "new")), (["r".toList], .directory),
    (["r".toList, "maven-metadata.xml".toList], .file (Bytes.encode "none")),
    (["r".toList, "maven-metadata.xml.md5".toList], .file (Bytes.encode "old"))]

/-- The document cannot be read, but the artifact was copied over its checksum file by then. -/
theorem checksum_overwritten :
    Location.artifact? "mvn:g/maven/metadata.xml/md5" = some namesake.artifact ∧
    spoiltFlat.place (Layout.versionMetadata (namesakeDepot.destination namesake.artifact)) ≠
      spoiltFlat.place (namesakeDepot.destination namesake.artifact) ∧
    spoiltFlat.place (Layout.artifactMetadata (namesakeDepot.destination namesake.artifact)) ≠
      spoiltFlat.place (namesakeDepot.destination namesake.artifact) ∧
    Unreadable spoiltFlat (Layout.versionMetadata (namesakeDepot.destination namesake.artifact))
      (Bytes.encode "none") ∧
    spoiltFlat.read
      (path (Layout.versionMetadata (namesakeDepot.destination namesake.artifact)) .md5) =
      .ok (Bytes.encode "old") ∧
    (namesakeDepot.materialize plainHost namesake spoiltFlat).2.read
      (path (Layout.versionMetadata (namesakeDepot.destination namesake.artifact)) .md5) =
      .ok (Bytes.encode "new") := by
  refine ⟨by decide +kernel, by decide +kernel, by decide +kernel, ?_,
    by decide +kernel, by decide +kernel⟩
  exact .of_documentAt (by decide +kernel) (by decide +kernel)

end Depot
end FeatureDepot
