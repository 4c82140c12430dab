import FeatureDepot.Depot
import FeatureDepot.Proofs.Depot.Checksums

/-! What materializing an artifact leaves behind. The file, its two metadata documents and their
checksum files are written one after the other, and some of them may be one and the same; in the end
every checksum is that of the content that is there. -/
namespace FeatureDepot.Depot
open FileSystem FeatureDepot.Path ChecksumFile

variable {host : Host} {d : Depot} {r : ResolvedArtifact} {a : Artifact} {file f : Path}
  {fs fs' : FileSystem} {w : Place} {s : Segment} {content : Bytes}

/-- A file of an artifact and its metadata documents. -/
def described (file : Path) : List Path :=
  [file, Layout.versionMetadata file, Layout.artifactMetadata file]

theorem forall_mem_described {P : Path → Prop} : (∀ f ∈ described file, P f) ↔
    P file ∧ P (Layout.versionMetadata file) ∧ P (Layout.artifactMetadata file) := by
  simp [described]

/-- The places of a file, of its metadata documents and of their checksum files. -/
def describedPlaces (w : Place) (file : Path) : Set Place :=
  {q | ∃ f ∈ described file, q = f.place w ∨ q ∈ ChecksumFile.places w f}

/-- The directories that are made for a file and its metadata documents. -/
def describedRooms (w : Place) (file : Path) : Set (Place × Entry) :=
  {x | ∃ f ∈ described file, x ∈ rooms w f}

theorem leaf?_versionMetadata (file : Path) :
    (Layout.versionMetadata file).leaf? = some metadataSegment :=
  leaf?_push_name isName_metadataSegment

theorem leaf?_artifactMetadata (file : Path) :
    (Layout.artifactMetadata file).leaf? = some metadataSegment :=
  leaf?_push_name isName_metadataSegment

theorem leaf?_of_mem_described (hfile : file.leaf? = some s) :
    ∀ f ∈ described file, ∃ t, f.leaf? = some t ∧ (t = s ∨ t = metadataSegment) :=
  forall_mem_described.mpr ⟨⟨s, hfile, .inl rfl⟩, ⟨_, leaf?_versionMetadata file, .inr rfl⟩,
    ⟨_, leaf?_artifactMetadata file, .inr rfl⟩⟩

theorem describe_eq (host : Host) (a : Artifact) (file : Path) : describe host a file = (do
    Metadata.update host (Layout.versionMetadata file) (·.addLocalCopy a host.now)
    Metadata.update host (Layout.artifactMetadata file) (·.addArtifact a)
    let _ ← Disk.during (.writingChecksums file) (writeAll host file)
    let _ ← Disk.during (.writingChecksums (Layout.versionMetadata file))
      (writeAll host (Layout.versionMetadata file))
    let _ ← Disk.during (.writingChecksums (Layout.artifactMetadata file))
      (writeAll host (Layout.artifactMetadata file))
    return ()) := by
  unfold describe
  simp only [List.forIn_cons, List.forIn_nil, bind_assoc, pure_bind]

/-- The five steps of describing a file that succeeds. -/
theorem describe_steps (h : describe host a file fs = (.ok (), fs')) :
    ∃ fs₁ fs₂ fs₃ fs₄ sums₁ sums₂ sums₃,
    Metadata.update host (Layout.versionMetadata file) (·.addLocalCopy a host.now) fs =
      (.ok (), fs₁) ∧
    Metadata.update host (Layout.artifactMetadata file) (·.addArtifact a) fs₁ = (.ok (), fs₂) ∧
    writeAll host file fs₂ = (.ok sums₁, fs₃) ∧
    writeAll host (Layout.versionMetadata file) fs₃ = (.ok sums₂, fs₄) ∧
    writeAll host (Layout.artifactMetadata file) fs₄ = (.ok sums₃, fs') := by
  rw [describe_eq] at h
  obtain ⟨_, fs₁, hversion, h⟩ := Disk.bind_eq_ok_iff.mp h
  obtain ⟨_, fs₂, hall, h⟩ := Disk.bind_eq_ok_iff.mp h
  obtain ⟨sums₁, fs₃, hsum, h⟩ := Disk.bind_eq_ok_iff.mp h
  obtain ⟨sums₂, fs₄, hversionSum, h⟩ := Disk.bind_eq_ok_iff.mp h
  obtain ⟨sums₃, fs₅, hallSum, h⟩ := Disk.bind_eq_ok_iff.mp h
  obtain ⟨-, rfl⟩ := Prod.mk.inj h
  exact ⟨fs₁, fs₂, fs₃, fs₄, sums₁, sums₂, sums₃, hversion, hall, Disk.during_eq_ok_iff.mp hsum,
    Disk.during_eq_ok_iff.mp hversionSum, Disk.during_eq_ok_iff.mp hallSum⟩

lemma changes_of_stored (file : Path) (hf : f ∈ described file)
    (h : Stored f content (rooms fs.workingDirectory f) fs fs') :
    Changes (describedPlaces fs.workingDirectory file)
      (describedRooms fs.workingDirectory file) fs fs' := by
  refine h.changes.mono ?_ fun x hx => ⟨f, hf, hx⟩
  rintro q rfl
  exact ⟨f, hf, .inl rfl⟩

lemma changes_of_checksums (file : Path) (hf : f ∈ described file)
    (h : Changes (ChecksumFile.places fs.workingDirectory f) ∅ fs fs') :
    Changes (describedPlaces fs.workingDirectory file)
      (describedRooms fs.workingDirectory file) fs fs' :=
  h.mono (fun _ hq => ⟨f, hf, .inr hq⟩) (Set.empty_subset _)

/-- The checksum files of one file stay up to date while those of another are written. -/
theorem upToDate_of_writeAll {g : Path} {t : Segment} (hf : f.leaf? = some s)
    (hg : g.leaf? = some t) (hnames : ∀ kind : ChecksumKind, s ≠ t ++ kind.suffix)
    (hplace : fs.place f ≠ fs.place g)
    (hchanges : Changes (ChecksumFile.places fs.workingDirectory g) ∅ fs fs') (h : UpToDate fs f) :
    UpToDate fs' f := by
  refine h.mono hchanges ?_ fun kind => ?_
  · rintro ⟨kind, hq⟩
    exact place_ne_of_leaf?_ne hf (leaf?_path hg kind) (hnames kind) hq
  · rintro ⟨kind', hq⟩
    exact hplace (place_path_inj hf hg hq).1

/-- What describing a file, with the checksums of all three documents behind it, leaves behind. -/
theorem describe_spec (hf : file.leaf? = some s) (hs : s ≠ metadataSegment)
    (hsums : ∀ kind : ChecksumKind, s ≠ metadataSegment ++ kind.suffix)
    (hread : fs.read file = .ok content) (h : describe host a file fs = (.ok (), fs')) :
    fs'.read file = .ok content ∧
      (∀ f ∈ described file, UpToDate fs' f) ∧
      Changes (describedPlaces fs.workingDirectory file)
        (describedRooms fs.workingDirectory file) fs fs' := by
  obtain ⟨fs₁, fs₂, fs₃, fs₄, _, _, _, hversion, hall, hsum, hversionSum, hallSum⟩ :=
    describe_steps h
  have hV := leaf?_versionMetadata file
  have hA := leaf?_artifactMetadata file
  obtain ⟨_, -, hversion⟩ := Metadata.update_stored hversion
  obtain ⟨_, -, hall⟩ := Metadata.update_stored hall
  obtain ⟨hup, hsum⟩ := writeAll_spec hf hsum
  obtain ⟨hversionUp, hversionSum⟩ := writeAll_spec hV hversionSum
  obtain ⟨hallUp, hallSum⟩ := writeAll_spec hA hallSum
  have hneV : ∀ w, file.place w ≠ (Layout.versionMetadata file).place w :=
    fun w => place_ne_of_leaf?_ne hf hV hs
  have hneA : ∀ w, file.place w ≠ (Layout.artifactMetadata file).place w :=
    fun w => place_ne_of_leaf?_ne hf hA hs
  have hmetadata : ∀ kind : ChecksumKind, metadataSegment ≠ metadataSegment ++ kind.suffix :=
    fun kind => (kind.append_suffix_ne_self metadataSegment).symm
  refine ⟨?_, ?_, ?_⟩
  · -- None of the five steps writes to the file itself.
    have hread₁ := hversion.changes.read_of_not_mem (hneV _) hread
    have hread₂ := hall.changes.read_of_not_mem (hneA _) hread₁
    have hread₃ := hsum.read_of_not_mem (fun ⟨kind, hq⟩ => place_path_ne hf kind hq) hread₂
    have hread₄ := hversionSum.read_of_not_mem
      (fun ⟨kind, hq⟩ => place_ne_of_leaf?_ne hf (leaf?_path hV kind) (hsums kind) hq) hread₃
    exact hallSum.read_of_not_mem
      (fun ⟨kind, hq⟩ => place_ne_of_leaf?_ne hf (leaf?_path hA kind) (hsums kind) hq) hread₄
  · refine forall_mem_described.mpr ⟨?_, ?_, hallUp⟩
    · have hup₄ := upToDate_of_writeAll hf hV hsums (hneV _) hversionSum hup
      exact upToDate_of_writeAll hf hA hsums (hneA _) hallSum hup₄
    · -- Both documents are one if the file lies in the root directory.
      by_cases hsame : fs₄.place (Layout.versionMetadata file) =
        fs₄.place (Layout.artifactMetadata file)
      · exact hversionUp.of_place_eq hV hA hallSum hsame hallUp
      · exact upToDate_of_writeAll hV hA hmetadata hsame hallSum hversionUp
  · have hw₁ := hversion.changes.workingDirectory
    have hw₂ := hall.changes.workingDirectory.trans hw₁
    have hw₃ := hsum.workingDirectory.trans hw₂
    have hw₄ := hversionSum.workingDirectory.trans hw₃
    have hchanges₁ := changes_of_stored file (by simp [described]) hversion
    have hchanges₂ := changes_of_stored file (by simp [described]) hall
    have hchanges₃ := changes_of_checksums file (by simp [described]) hsum
    have hchanges₄ := changes_of_checksums file (by simp [described]) hversionSum
    have hchanges₅ := changes_of_checksums file (by simp [described]) hallSum
    rw [hw₁] at hchanges₂
    rw [hw₂] at hchanges₃
    rw [hw₃] at hchanges₄
    rw [hw₄] at hchanges₅
    exact (((hchanges₁.trans hchanges₂).trans hchanges₃).trans hchanges₄).trans hchanges₅

theorem materialize_eq (host : Host) (d : Depot) (r : ResolvedArtifact) :
    materialize host d r = match r.file with
    | none => Disk.fail (.missingContent r.artifact)
    | some source => (do
      Disk.during (.copying source (d.destination r.artifact))
        (Disk.copy host source (d.destination r.artifact))
      (if d.generateMetadata then describe host r.artifact (d.destination r.artifact)
        else pure () : Disk Unit)
      return d.destination r.artifact) := by
  unfold materialize
  cases r.file with
  | none => rfl
  | some source => cases d.generateMetadata <;> simp

/-- A materialized artifact has a source. It is copied first, and described if documents are
wanted. -/
theorem materialize_steps {path : Path} (h : d.materialize host r fs = (.ok path, fs')) :
    path = d.destination r.artifact ∧ ∃ source copied, r.file = some source ∧
      Disk.copy host source path fs = (.ok (), copied) ∧
      if d.generateMetadata then describe host r.artifact path copied = (.ok (), fs')
        else copied = fs' := by
  rw [materialize_eq] at h
  cases hfile : r.file with
  | none =>
    rw [hfile] at h
    cases h
  | some source =>
    rw [hfile] at h
    obtain ⟨_, copied, hcopy, h⟩ := Disk.bind_eq_ok_iff.mp h
    obtain ⟨_, last, hdescribe, h⟩ := Disk.bind_eq_ok_iff.mp h
    obtain ⟨hpath, rfl⟩ := Prod.mk.inj h
    obtain rfl := Except.ok.inj hpath
    refine ⟨rfl, source, copied, rfl, Disk.during_eq_ok_iff.mp hcopy, ?_⟩
    split at hdescribe
    next hmetadata => rwa [if_pos hmetadata]
    next hmetadata => rw [if_neg hmetadata, (Prod.mk.inj hdescribe).2]

/-- An artifact that is materialized holds the content of its source, and its documents, if there
are any, are covered by checksums. -/
theorem materialize_spec {path : Path}
    (hname : ∀ s, path.leaf? = some s →
      s ≠ metadataSegment ∧ ∀ kind : ChecksumKind, s ≠ metadataSegment ++ kind.suffix)
    (h : d.materialize host r fs = (.ok path, fs')) :
    path = d.destination r.artifact ∧
    (∃ source content, r.file = some source ∧ fs.read source = .ok content ∧
        fs'.read path = .ok content) ∧
      (d.generateMetadata = true → ∀ f ∈ described path, UpToDate fs' f) ∧
      Changes (describedPlaces fs.workingDirectory path)
        (describedRooms fs.workingDirectory path) fs fs' := by
  obtain ⟨hpath, source, copied, hfile, hcopy, hdescribe⟩ := materialize_steps h
  obtain ⟨content, hread, hstored⟩ := Disk.copy_stored hcopy
  have hcopied := changes_of_stored path (by simp [described]) hstored
  split at hdescribe
  next =>
    obtain ⟨s, hleaf⟩ := hstored.leaf
    obtain ⟨hs, hsums⟩ := hname s hleaf
    obtain ⟨hfinal, hups, hchanges⟩ := describe_spec hleaf hs hsums hstored.read hdescribe
    rw [hstored.changes.workingDirectory] at hchanges
    exact ⟨hpath, ⟨source, content, hfile, hread, hfinal⟩, fun _ => hups, hcopied.trans hchanges⟩
  next hmetadata =>
    subst hdescribe
    exact ⟨hpath, ⟨source, content, hfile, hread, hstored.read⟩,
      fun h => absurd h hmetadata, hcopied⟩

/-- A file whose name is not that of a metadata document or of a checksum file of one. -/
theorem ne_metadataSegment_of_fileName?
    (hname : ∀ name ∈ file.fileName?, name ≠ Layout.metadataName ∧
      ∀ kind : ChecksumKind, name ≠ Layout.metadataName ++ "." ++ kind.ending)
    (hleaf : file.leaf? = some s) :
    s ≠ metadataSegment ∧ ∀ kind : ChecksumKind, s ≠ metadataSegment ++ kind.suffix := by
  obtain ⟨hs, hsums⟩ := hname (String.ofList s) (fileName?_of_leaf? hleaf)
  constructor
  · rintro rfl
    exact hs String.ofList_toList
  · rintro kind rfl
    refine hsums kind (String.toList_injective ?_)
    rw [String.toList_ofList, String.append_assoc, String.toList_append, kind.toList_suffix]
    rfl

/-- An artifact that is materialized with its documents holds the content of its source; all three
files have checksums that are those of what they hold, and nothing but these nine files and their
directories is touched. -/
theorem materialize_upToDate {path : Path} (hmetadata : d.generateMetadata = true)
    (hname : ∀ name ∈ (d.destination r.artifact).fileName?, name ≠ Layout.metadataName ∧
      ∀ kind : ChecksumKind, name ≠ Layout.metadataName ++ "." ++ kind.ending)
    (h : d.materialize host r fs = (.ok path, fs')) :
    path = d.destination r.artifact ∧
    (∃ source content, r.file = some source ∧ fs.read source = .ok content ∧
        fs'.read path = .ok content) ∧
      (∀ f ∈ described path, UpToDate fs' f) ∧
      Changes (describedPlaces fs.workingDirectory path)
        (describedRooms fs.workingDirectory path) fs fs' := by
  have hsegment : ∀ s, path.leaf? = some s → s ≠ metadataSegment ∧
      ∀ kind : ChecksumKind, s ≠ metadataSegment ++ kind.suffix := by
    rw [← (materialize_steps h).1] at hname
    exact fun s hleaf => ne_metadataSegment_of_fileName? hname hleaf
  obtain ⟨hpath, hcontent, hups, hchanges⟩ := materialize_spec hsegment h
  exact ⟨hpath, hcontent, hups hmetadata, hchanges⟩

/-- Directories anywhere, and what lies beside a file or one of its metadata documents. -/
def besideDescribed (w : Place) (file : Path) : Set (Place × Entry) :=
  {x | ∃ f ∈ described file, x ∈ Disk.beside w f}

lemma describe_within (w : Place) (hfresh : host.Fresh) (a : Artifact)
    (hfile : file.leaf? = some s) :
    Disk.Within w (describedPlaces w file) (besideDescribed w file) (describe host a file) := by
  have hupdate : ∀ f ∈ described file, f.leaf? = some metadataSegment → ∀ change,
      Disk.Within w (describedPlaces w file) (besideDescribed w file)
        (Metadata.update host f change) := by
    intro f hf hleaf change
    refine (Metadata.update_within w hfresh hleaf change).mono ?_ fun x hx => ⟨f, hf, hx⟩
    rintro q rfl
    exact ⟨f, hf, .inl rfl⟩
  have hsums : ∀ f ∈ described file, ∀ t, f.leaf? = some t →
      Disk.Within w (describedPlaces w file) (besideDescribed w file) (writeAll host f) := by
    intro f hf t hleaf
    exact (writeAll_within hfresh hleaf).mono (fun q hq => ⟨f, hf, .inr hq⟩) fun x hx => ⟨f, hf, hx⟩
  have hmem : file ∈ described file ∧ Layout.versionMetadata file ∈ described file ∧
      Layout.artifactMetadata file ∈ described file := by simp [described]
  have hversion := leaf?_versionMetadata file
  have hall := leaf?_artifactMetadata file
  rw [describe_eq]
  exact (hupdate _ hmem.2.1 hversion _).bind fun _ => (hupdate _ hmem.2.2 hall _).bind fun _ =>
    (hsums _ hmem.1 _ hfile).during.bind fun _ => (hsums _ hmem.2.1 _ hversion).during.bind fun _ =>
    (hsums _ hmem.2.2 _ hall).during.bind fun _ => .pure _

/-- Whatever becomes of materializing an artifact, only its own files change. -/
theorem materialize_within (w : Place) (hfresh : host.Fresh)
    (hfile : (d.destination r.artifact).leaf? = some s) :
    Disk.Within w (describedPlaces w (d.destination r.artifact))
      (besideDescribed w (d.destination r.artifact)) (d.materialize host r) := by
  rw [materialize_eq]
  have hmem : d.destination r.artifact ∈ described (d.destination r.artifact) := by simp [described]
  cases r.file with
  | none => exact .fail _
  | some source =>
    have hcopy : Disk.Within w (describedPlaces w (d.destination r.artifact))
        (besideDescribed w (d.destination r.artifact))
        (Disk.copy host source (d.destination r.artifact)) :=
      (Disk.copy_within hfresh hfile source).mono (Set.singleton_subset_iff.mpr ⟨_, hmem, .inl rfl⟩)
        fun x hx => ⟨_, hmem, hx⟩
    refine hcopy.during.bind fun _ => .bind ?_ fun _ => .pure _
    split
    · exact describe_within w hfresh r.artifact hfile
    · exact .pure _

/-- One source beside an empty depot. -/
def oneSource : FileSystem := ⟨[([['s', 'o', 'u', 'r', 'c', 'e']], .file [1, 2])], []⟩

def oneDepot : Depot := ⟨⟨"depot"⟩, .nested, true⟩

def oneHost : Host := ⟨"20260101000000", fun _ _ => "tag"⟩

def oneArtifact : ResolvedArtifact := ⟨.ofVersionText "g" "a" "1", some ⟨"source"⟩⟩

theorem materialize_upToDate_one :
    ∃ path fs', oneDepot.materialize oneHost oneArtifact oneSource = (.ok path, fs') ∧
    path = ⟨"depot/g/a/1/a-1.jar"⟩ ∧ fs'.read path = .ok [1, 2] ∧
    ∀ f ∈ described path, UpToDate fs' f := by
  have hrun : (oneDepot.materialize oneHost oneArtifact oneSource).1.toOption =
      some ⟨"depot/g/a/1/a-1.jar"⟩ := by
    decide +kernel
  have hfile : (oneDepot.destination oneArtifact.artifact).fileName? = some "a-1.jar" := by
    decide +kernel
  have hname : ∀ name ∈ (oneDepot.destination oneArtifact.artifact).fileName?,
      name ≠ Layout.metadataName ∧
      ∀ kind : ChecksumKind, name ≠ Layout.metadataName ++ "." ++ kind.ending := by
    rw [hfile]
    rintro _ ⟨⟩
    exact ⟨by decide, fun kind => by cases kind <;> decide⟩
  have hread : oneSource.read ⟨"source"⟩ = .ok [1, 2] := by decide +kernel
  rcases hresult : oneDepot.materialize oneHost oneArtifact oneSource with ⟨failure | path, fs'⟩
  · rw [hresult] at hrun
    cases hrun
  · rw [hresult] at hrun
    obtain rfl := Option.some.inj hrun
    obtain ⟨-, ⟨source, content, hsource, hcontent, hfinal⟩, hups, -⟩ :=
      materialize_upToDate rfl hname hresult
    obtain rfl := Option.some.inj hsource
    obtain rfl := Except.ok.inj (hread.symm.trans hcontent)
    exact ⟨_, _, rfl, rfl, hfinal, hups⟩

end FeatureDepot.Depot
