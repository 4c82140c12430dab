import FeatureDepot.Proofs.Depot.Redoing
import FeatureDepot.Proofs.Run.Report

/-! What the tasks of a run write: the files that they copy, the documents that they revise, and the
checksums of both. Each task that did not fail comes to these writes, at its turn and when it is
carried out again. -/
namespace FeatureDepot
open FeatureDepot.Path FileSystem Layout

namespace ChecksumFile

variable {w q q' : Place} {f : Path} {now : Place → Option Bytes}

/-- Checksums depend on what a file holds, not on where it is read. -/
theorem applyAll_writes_congr (hsame : (now q).getD [] = (now q').getD [])
    (hq : ∀ kind, q ≠ (path f kind).place w) (hq' : ∀ kind, q' ≠ (path f kind).place w) :
    Write.applyAll (writes w q f) now = Write.applyAll (writes w q' f) now := by
  have happly : ∀ (source : Place), (∀ kind, source ≠ (path f kind).place w) →
      Write.applyAll (writes w source f) now =
        Function.update (Function.update now ((path f .md5).place w)
          (some (Bytes.encode (ChecksumKind.md5.checksum ((now source).getD [])))))
          ((path f .sha1).place w)
          (some (Bytes.encode (ChecksumKind.sha1.checksum ((now source).getD [])))) := by
    intro source hsource
    have hread := Write.apply_of_ne (w := ⟨source, (path f .md5).place w, fun bytes =>
      Bytes.encode (ChecksumKind.md5.checksum (bytes.getD []))⟩) (hsource .md5) now
    unfold writes ChecksumKind.all
    rw [List.map_cons, List.map_singleton, Write.applyAll_cons, Write.applyAll_cons,
      Write.applyAll_nil]
    conv_lhs => rw [Write.apply]
    dsimp only
    rw [hread]
    rfl
  rw [happly q hq, happly q' hq', hsame]

theorem mem_writes_iff {source : Place} {x : Write} :
    x ∈ writes w source f ↔ ∃ kind : ChecksumKind, x =
      ⟨source, (path f kind).place w,
        fun bytes => Bytes.encode (kind.checksum (bytes.getD []))⟩ := by
  unfold writes ChecksumKind.all
  simp only [List.map_cons, List.map_nil, List.mem_cons, List.not_mem_nil, or_false]
  constructor
  · rintro (rfl | rfl)
    · exact ⟨.md5, rfl⟩
    · exact ⟨.sha1, rfl⟩
  · rintro ⟨kind | kind, rfl⟩
    · exact .inl rfl
    · exact .inr rfl

theorem spec_of_mem_writes {source : Place} {x : Write} (h : x ∈ writes w source f) :
    x.source = source ∧ ∃ kind, x.target = (path f kind).place w := by
  obtain ⟨kind, rfl⟩ := mem_writes_iff.mp h
  exact ⟨rfl, kind, rfl⟩

lemma mem_map_target_writes {source : Place} :
    q ∈ (writes w source f).map Write.target ↔ q ∈ places w f := by
  simp only [List.mem_map, mem_writes_iff]
  constructor
  · rintro ⟨_, ⟨kind, rfl⟩, rfl⟩
    exact ⟨kind, rfl⟩
  · rintro ⟨kind, rfl⟩
    exact ⟨_, ⟨kind, rfl⟩, rfl⟩

end ChecksumFile

namespace Depot

variable {host host' : Host} {last fs fs' : FileSystem} {written : Set Place} {d : Depot}
  {a : Artifact} {r : ResolvedArtifact} {file path : Path} {source q w : Place} {now : String}

/-- The checksums of a file and of its documents. Those of the file are of what it was copied
from. -/
def sums (w source : Place) (file : Path) : List Write :=
  ChecksumFile.writes w source file ++
    ChecksumFile.writes w ((versionMetadata file).place w) (versionMetadata file) ++
    ChecksumFile.writes w ((artifactMetadata file).place w) (artifactMetadata file)

/-- What describing a file comes to. -/
def describeWrites (now : String) (w source : Place) (a : Artifact) (file : Path) : List Write :=
  [Revision.write now ((versionMetadata file).place w) ⟨a, true⟩,
    Revision.write now ((artifactMetadata file).place w) ⟨a, false⟩] ++ sums w source file

/-- What materializing an artifact from a source comes to. -/
def writes (d : Depot) (now : String) (w source : Place) (a : Artifact) : List Write :=
  Write.copy source ((d.destination a).place w) ::
    if d.generateMetadata then describeWrites now w source a (d.destination a) else []

/-- Describing a file that lies in the depot revises its documents and writes checksums once
more. -/
theorem describe_redoes (hh : host.Successor host' last) (hs : fs.Sound)
    (hwritten : written ⊆ documents) (ha : a.Plain) (hlegible : a.Legible)
    (hnow : Metadata.OnLines host.now) (hlocate : fs.locate (d.destination a) = .ok q)
    (h : describe host a (d.destination a) fs = (.ok (), fs')) :
    Redoes last written (describe host' a (d.destination a)) (.ok ())
      (describeWrites host.now fs.workingDirectory (fs.place (d.destination a)) a (d.destination a))
      fs fs' := by
  obtain ⟨⟨inner, hinner⟩, upper, hupper⟩ := reaches_of_locate_destination hs ha hlocate
  have hleaf := leaf?_destination ha d
  obtain ⟨fs₁, fs₂, fs₃, fs₄, _, _, _, hversion, hall, hsum, hversionSum, hallSum⟩ :=
    describe_steps h
  have hone : Redoes last written _ _ _ _ _ :=
    update_redoes (r := ⟨a, true⟩) hh hs hinner hlegible hnow hversion
  have htwo : Redoes last written _ _ _ _ _ :=
    update_redoes (r := ⟨a, false⟩) hh hone.sound (hone.grown.reaches hupper) hlegible hnow hall
  have hthree := ChecksumFile.writeAll_redoes hh htwo.sound hwritten hleaf hsum
  have hfour :=
    ChecksumFile.writeAll_redoes hh hthree.sound hwritten (leaf?_versionMetadata _) hversionSum
  have hfive :=
    ChecksumFile.writeAll_redoes hh hfour.sound hwritten (leaf?_artifactMetadata _) hallSum
  have hlast : Redoes last written (pure () : Disk Unit) (.ok ()) [] fs' fs' :=
    .done hfive.sound fun _ => rfl
  have hdescribe :=
    hone.andThen
      (htwo.andThen ((hthree.during (.writingChecksums (d.destination a))).andThen
        ((hfour.during (.writingChecksums (versionMetadata (d.destination a)))).andThen
          ((hfive.during (.writingChecksums (artifactMetadata (d.destination a)))).andThen hlast))))
  have hworking₁ := hone.grown.workingDirectory
  have hworking₂ := htwo.grown.workingDirectory.trans hworking₁
  have hworking₃ := hthree.grown.workingDirectory.trans hworking₂
  have hworking₄ := hfour.grown.workingDirectory.trans hworking₃
  simp only [FileSystem.place, hworking₁, hworking₂, hworking₃, hworking₄,
    List.append_nil] at hdescribe
  rw [describe_eq, hh.now]
  unfold describeWrites sums
  rw [List.append_assoc (ChecksumFile.writes _ _ _)]
  exact hdescribe

theorem destination_not_mem_documents (ha : a.Plain) (hname : fileName a ≠ metadataName) (d : Depot)
    (w : Place) :
    (d.destination a).place w ∉ documents := by
  intro hmem
  have hlast : ((d.destination a).place w).getLast? = some metadataSegment := hmem
  rw [getLast?_place (leaf?_destination ha d), Option.some.injEq] at hlast
  exact hname (String.toList_inj.mp hlast)

theorem versionMetadata_mem_documents (file : Path) (w : Place) :
    (versionMetadata file).place w ∈ documents :=
  getLast?_place (leaf?_versionMetadata file)

theorem artifactMetadata_mem_documents (file : Path) (w : Place) :
    (artifactMetadata file).place w ∈ documents :=
  getLast?_place (leaf?_artifactMetadata file)

theorem mem_map_target_describeWrites : q ∈ (describeWrites now w source a file).map Write.target ↔
    q = (versionMetadata file).place w ∨ q = (artifactMetadata file).place w ∨
      ∃ f ∈ described file, q ∈ ChecksumFile.places w f := by
  have hdescribed : (∃ f ∈ described file, q ∈ ChecksumFile.places w f) ↔
      q ∈ ChecksumFile.places w file ∨
      q ∈ ChecksumFile.places w (versionMetadata file) ∨
      q ∈ ChecksumFile.places w (artifactMetadata file) := by
    simp [described]
  rw [describeWrites, sums, hdescribed, List.map_append, List.map_append, List.map_append,
    List.mem_append, List.mem_append, List.mem_append, ChecksumFile.mem_map_target_writes,
    ChecksumFile.mem_map_target_writes, ChecksumFile.mem_map_target_writes, List.map_cons,
    List.map_singleton, List.mem_cons, List.mem_singleton, Revision.write_target,
    Revision.write_target, or_assoc, or_assoc]

lemma mem_describedPlaces_of_mem_writes (h : q ∈ (d.writes now w source a).map Write.target) :
    q ∈ describedPlaces w (d.destination a) := by
  rw [writes, List.map_cons, List.mem_cons] at h
  rcases h with hcopy | h
  · exact ⟨d.destination a, List.mem_cons_self, .inl hcopy⟩
  · split at h
    next =>
      rcases mem_map_target_describeWrites.mp h with hversion | hartifact | ⟨f, hf, hq⟩
      · exact ⟨_, (forall_mem_described.mp fun _ => id).2.1, .inl hversion⟩
      · exact ⟨_, (forall_mem_described.mp fun _ => id).2.2, .inl hartifact⟩
      · exact ⟨f, hf, .inr hq⟩
    next => exact absurd h List.not_mem_nil

/-- All that is written for an artifact lies below the root or, if need be, in a directory above
it. -/
theorem root_or_above_of_mem_describedPlaces (ha : a.Plain)
    (h : q ∈ describedPlaces w (d.destination a)) :
    d.root.place w <+: q.dropLast ∨ q.dropLast <+: d.root.place w := by
  obtain ⟨f, hf, hq⟩ := h
  have hroot := root_or_above_of_mem_described ha d w f hf
  obtain ⟨s, hleaf, -⟩ := leaf?_of_mem_described (leaf?_destination ha d) f hf
  obtain ⟨directory, hplace, hpath⟩ := ChecksumFile.place_path (w := w) hleaf
  rw [hplace, List.dropLast_concat] at hroot
  rcases hq with rfl | ⟨kind, rfl⟩
  · rwa [hplace, List.dropLast_concat]
  · rwa [hpath, List.dropLast_concat]

/-- What lies in another directory than the depot is not written to for an artifact. -/
theorem not_mem_writes {other : Place} (ha : a.Plain)
    (hother : ¬ d.root.place w <+: other ∧ ¬ other <+: d.root.place w) (hq : other <+: q.dropLast) :
    q ∉ (d.writes now w source a).map Write.target := by
  intro hmem
  rcases root_or_above_of_mem_describedPlaces ha
    (mem_describedPlaces_of_mem_writes hmem) with hbelow | habove
  · exact (List.prefix_or_prefix_of_prefix hbelow hq).elim hother.1 hother.2
  · exact hother.2 (hq.trans habove)

/-- Once a file is copied, its checksums are those of its source, if that is not written to. -/
theorem applyAll_writes_destination (ha : a.Plain) (hname : fileName a ≠ metadataName)
    (hmetadata : d.generateMetadata) (hsource : source ∉ (d.writes now w source a).map Write.target)
    (before : Place → Option Bytes) :
    Write.applyAll (Write.copy source ((d.destination a).place w) ::
        describeWrites now w ((d.destination a).place w) a (d.destination a)) before =
      Write.applyAll (d.writes now w source a) before := by
  rw [writes, if_pos hmetadata, List.map_cons, List.mem_cons,
    mem_map_target_describeWrites] at hsource
  obtain ⟨hcopy, hrest⟩ := not_or.mp hsource
  obtain ⟨hversionSource, hrest⟩ := not_or.mp hrest
  obtain ⟨hartifactSource, hsums⟩ := not_or.mp hrest
  have hsourceSums : ∀ kind, source ≠ (ChecksumFile.path (d.destination a) kind).place w :=
    fun kind heq => hsums ⟨d.destination a, List.mem_cons_self, kind, heq⟩
  have hdocument := destination_not_mem_documents ha hname d w
  have hversion :=
    ne_of_mem_of_not_mem (versionMetadata_mem_documents (d.destination a) w) hdocument
  have hartifact :=
    ne_of_mem_of_not_mem (artifactMetadata_mem_documents (d.destination a) w) hdocument
  have hkept : ∀ {q : Place} {before : Place → Option Bytes},
      q ≠ (versionMetadata (d.destination a)).place w →
      q ≠ (artifactMetadata (d.destination a)).place w →
      (Revision.write now ((artifactMetadata (d.destination a)).place w) ⟨a, false⟩).apply
        ((Revision.write now ((versionMetadata (d.destination a)).place w) ⟨a, true⟩).apply before)
        q = before q := by
    intro q before hversion hartifact
    rw [Revision.apply_write_of_ne hartifact, Revision.apply_write_of_ne hversion]
  rw [writes, if_pos hmetadata]
  unfold describeWrites sums
  simp only [Write.applyAll_cons, Write.applyAll_append, Write.applyAll_nil]
  rw [ChecksumFile.applyAll_writes_congr ?_
    (ChecksumFile.place_path_ne (leaf?_destination ha d)) hsourceSums]
  rw [hkept hversion.symm hartifact.symm, hkept hversionSource hartifactSource,
    Write.apply_of_ne (w := Write.copy source ((d.destination a).place w)) hcopy,
    Write.apply_copy_self, Option.getD_some]

/-- Materializing an artifact again copies it and describes it once more. -/
theorem materialize_redoes (hh : host.Successor host' last) (hs : fs.Sound)
    (hwritten : written ⊆ documents) (ha : r.artifact.Plain)
    (hname : fileName r.artifact ≠ metadataName) (hlegible : r.artifact.Legible)
    (hnow : Metadata.OnLines host.now) (hfile : r.file = some file)
    (hsource : fs.place file ∉
      (d.writes host.now fs.workingDirectory (fs.place file) r.artifact).map Write.target)
    (h : d.materialize host r fs = (.ok path, fs')) :
    Redoes last written (d.materialize host' r) (.ok path)
      (d.writes host.now fs.workingDirectory (fs.place file) r.artifact) fs fs' := by
  obtain ⟨rfl, _, copied, hsome, hcopy, hdescribe⟩ := materialize_steps h
  obtain rfl := Option.some.inj (hfile.symm.trans hsome)
  have hdestination := destination_not_mem_documents ha hname d fs.workingDirectory
  have hone := copy_redoes hh hs (fun hmem => hdestination (hwritten hmem)) hcopy
  rw [materialize_eq, hfile]
  by_cases hmetadata : d.generateMetadata = true
  · rw [if_pos hmetadata] at hdescribe ⊢
    obtain ⟨_, -, hstored⟩ := Disk.copy_stored hcopy
    obtain ⟨q, hlocate, -⟩ := read_eq_ok_iff.mp hstored.read
    have htwo := describe_redoes hh hone.sound hwritten ha hlegible hnow hlocate hdescribe
    have hlast : Redoes last written (pure (d.destination r.artifact) : Disk Path)
        (.ok (d.destination r.artifact)) []
      fs' fs' := .done htwo.sound fun _ => rfl
    have hall :=
      (hone.during (.copying file (d.destination r.artifact))).andThen (htwo.andThen hlast)
    rw [hone.grown.place_eq, hone.grown.workingDirectory, List.append_nil] at hall
    refine hall.congr (applyAll_writes_destination ha hname hmetadata hsource) fun q hq => ?_
    rw [writes, if_pos hmetadata, List.map_cons, List.mem_cons, mem_map_target_describeWrites]
    rwa [List.singleton_append, List.map_cons, List.mem_cons, mem_map_target_describeWrites] at hq
  · rw [if_neg hmetadata] at hdescribe ⊢
    subst hdescribe
    have hlast : Redoes last written (pure (d.destination r.artifact) : Disk Path)
        (.ok (d.destination r.artifact)) []
      copied copied := .done hone.sound fun _ => rfl
    have hall :=
      (hone.during (.copying file (d.destination r.artifact))).andThen
        ((Redoes.done hone.sound fun _ => rfl : Redoes last written (pure () : Disk Unit) (.ok ())
          [] copied copied).andThen hlast)
    rw [writes, if_neg hmetadata]
    exact hall

end Depot
end FeatureDepot
