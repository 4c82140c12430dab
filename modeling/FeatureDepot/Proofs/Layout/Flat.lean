import FeatureDepot.Proofs.Layout.Surroundings

/-! The flat layout: files lie right in the root, and the document of their versions beside them.
The document of all versions lies where the text of the root shows its directory. That is one
directory up for a root that ends in a name, and for an empty one; behind a root that ends in dots
it is the root itself or a directory below it. -/
namespace FeatureDepot
open FeatureDepot.Path

lemma eq_nil_of_length_le_dropLast {α : Type} {xs : List α} (h : xs.length ≤ xs.dropLast.length) :
    xs = [] := by
  rw [List.length_dropLast] at h
  exact List.eq_nil_of_length_eq_zero (by omega)

lemma eq_dropLast_iff {α : Type} {xs : List α} : xs = xs.dropLast ↔ xs = [] := by
  refine ⟨fun h => eq_nil_of_length_le_dropLast (congrArg List.length h).le, ?_⟩
  rintro rfl
  rfl

lemma eq_dropLast_dropLast_iff {α : Type} {xs : List α} : xs = xs.dropLast.dropLast ↔ xs = [] := by
  constructor
  · intro h
    have hlength := (List.dropLast_prefix xs.dropLast).length_le
    rw [← h] at hlength
    exact eq_nil_of_length_le_dropLast hlength
  · rintro rfl
    rfl

namespace Path

variable {p q : Path} {s : Segment} {w : Place}

/-- Paths that differ only in slashes and dots behind their last names. -/
structure Alike (p q : Path) : Prop where
  isAbsolute : p.isAbsolute = q.isAbsolute
  trim_segments : trim p.segments = trim q.segments

lemma Alike.place_eq (h : p.Alike q) (w : Place) : p.place w = q.place w := by
  unfold place
  rw [← foldl_enter_trim p.segments, h.isAbsolute, h.trim_segments, foldl_enter_trim]

lemma Alike.parent?_eq (h : p.Alike q) : p.parent? = q.parent? := by
  unfold parent?
  rw [h.isAbsolute, h.trim_segments]

lemma Alike.place_above (h : p.Alike q) (w : Place) : p.above.place w = q.above.place w := by
  have hdots (p : Path) : (p.push "..").place w = (p.place w).dropLast := place_push (by decide)
  unfold above
  rw [h.parent?_eq]
  cases q.parent? with
  | none => rw [Option.getD_none, Option.getD_none, hdots, hdots, h.place_eq]
  | some directory => rfl

lemma trim_stem (segments : List Segment) : trim (stem segments) = trim segments := by
  unfold stem
  split
  next h =>
    obtain ⟨front, rfl⟩ := List.getLast?_eq_some_iff.mp h
    have hhead : (front ++ [[]]).head? = some ['.'] ↔ front.head? = some ['.'] := by
      cases front <;> simp
    have hdrop : (front ++ [[]]).reverse.dropWhile isIdle = front.reverse.dropWhile isIdle := by
      rw [List.reverse_append, List.reverse_singleton, List.singleton_append,
        List.dropWhile_cons_of_pos rfl]
    unfold trim
    rw [List.dropLast_concat, hdrop]
    simp only [hhead]
  next => rfl

/-- Text shows what a name is pushed onto as its directory. -/
theorem parent?_push_alike (hs : IsName s) (p : Path) :
    ∃ directory, (p.push (String.ofList s)).parent? = some directory ∧ directory.Alike p := by
  have hsegments : (p.push (String.ofList s)).segments = stem p.segments ++ [s] :=
    segments_push_name hs
  have htrim : trim (p.push (String.ofList s)).segments = stem p.segments ++ [s] := by
    rw [hsegments, trim_concat _ hs.2.1]
  have hparent := parent?_of_trim htrim
  refine ⟨_, hparent, ?_, ?_⟩
  · rw [(parent?_segments htrim hparent).1, isAbsolute_push hs.head?_ne]
  · rw [trim_stem]
    by_cases hnil : trim p.segments = []
    · rw [if_pos hnil, hnil]
      cases (p.push (String.ofList s)).isAbsolute <;> decide
    · rw [if_neg hnil, segments_ofSegments hnil fun _ => not_mem_of_mem_trim, trim_trim]

/-- The last segment that leads somewhere is made of dots. -/
def EndsInDots (p : Path) : Prop :=
  (trim p.segments).getLast? = some ['.'] ∨ (trim p.segments).getLast? = some ['.', '.']

instance (p : Path) : Decidable p.EndsInDots := inferInstanceAs (Decidable (_ ∨ _))

/-- What text shows above a path is one directory up, unless the path ends in dots. -/
theorem place_above_eq_dropLast_iff :
    p.above.place w = (p.place w).dropLast ↔ ¬ p.EndsInDots ∨ p.above.place w = [] := by
  unfold EndsInDots
  cases p.ending w with
  | nothing h habove => simp [h, habove]
  | dot h hplace =>
    rw [hplace, eq_dropLast_iff]
    simp [h]
  | dots h hplace =>
    rw [hplace, eq_dropLast_dropLast_iff]
    simp [h]
  | name s hs h hplace =>
    have hdot : s ≠ ['.'] := by
      rintro rfl
      simpa [isIdle] using hs.2.1
    simp [h, hplace, hdot, hs.2.2]

/-- What text shows above a path is where the path itself leads for a dot only, or at the top. -/
theorem place_above_eq_place_iff : p.above.place w = p.place w ↔
    trim p.segments = [['.']] ∨ p.place w = [] ∧ p.above.place w = [] := by
  cases p.ending w with
  | nothing h habove =>
    rw [habove, eq_comm, eq_dropLast_iff, h]
    simp +contextual
  | dot h hplace => simp [h, hplace]
  | dots h hplace =>
    have hdot : trim p.segments ≠ [['.']] := by
      intro hdot
      simp [hdot] at h
    rw [hplace, eq_dropLast_iff]
    simp +contextual [hdot]
  | name s hs h hplace =>
    have hdot : trim p.segments ≠ [['.']] := by
      intro hdot
      obtain rfl : ['.'] = s := by simpa [hdot] using h
      simpa [isIdle] using hs.2.1
    simp [hdot, hplace]

end Path

namespace Layout

variable {a : Artifact} {w : Place}

lemma filePath_flat (ha : '/' ∉ (fileName a).toList) (root : Path) :
    flat.filePath root a = root.push (String.ofList (fileName a).toList) := by
  unfold filePath
  rw [segments_relativePath_flat ha]
  rfl

/-- The directory that a file names is the root as it is written, up to slashes and dots at its
end. -/
theorem directoryOf_filePath_flat (ha : '/' ∉ (fileName a).toList) (root : Path) :
    (directoryOf (flat.filePath root a)).Alike root := by
  obtain ⟨directory, hparent, halike⟩ := parent?_push_alike (Artifact.isName_fileName ha) root
  rw [filePath_flat ha, directoryOf, hparent]
  exact halike

lemma place_versionMetadata_flat (ha : '/' ∉ (fileName a).toList) (root : Path) :
    (versionMetadata (flat.filePath root a)).place w = root.place w ++ [metadataSegment] := by
  rw [versionMetadata, place_push_metadataName, (directoryOf_filePath_flat ha root).place_eq]

lemma place_artifactMetadata_flat (ha : '/' ∉ (fileName a).toList) (root : Path) :
    (artifactMetadata (flat.filePath root a)).place w =
      root.above.place w ++ [metadataSegment] := by
  rw [Depot.artifactMetadata_eq_above, place_push_metadataName,
    (directoryOf_filePath_flat ha root).place_above]

/-- The document of all versions lies one directory above that of one version for a root that does
not end in dots, and only for such a root unless the place is the top, from where no directory is
up. Both are one file for a root that is a dot, and at the top. -/
theorem place_flat_documents {location : String} (h : Location.artifact? location = some a)
    (root : Path) (w : Place) :
    (versionMetadata (flat.filePath root a)).place w = root.place w ++ [metadataSegment] ∧
    (artifactMetadata (flat.filePath root a)).place w = root.above.place w ++ [metadataSegment] ∧
    ((artifactMetadata (flat.filePath root a)).place w =
      ((versionMetadata (flat.filePath root a)).place w).dropLast.dropLast ++ [metadataSegment] ↔
        ¬ root.EndsInDots ∨ root.above.place w = []) ∧
    ((artifactMetadata (flat.filePath root a)).place w =
      (versionMetadata (flat.filePath root a)).place w ↔
      trim root.segments = [['.']] ∨ root.place w = [] ∧ root.above.place w = []) := by
  have ha := (Location.slashless_of_artifact? h).fileName
  have hversion := place_versionMetadata_flat (w := w) ha root
  have hartifact := place_artifactMetadata_flat (w := w) ha root
  refine ⟨hversion, hartifact, ?_, ?_⟩
  · rw [hartifact, hversion, List.dropLast_concat, List.append_left_inj]
    exact place_above_eq_dropLast_iff
  · rw [hartifact, hversion, List.append_left_inj]
    exact place_above_eq_place_iff

theorem place_flat_documents_repo :
    Location.artifact? "mvn:g/a/1" = some (.ofVersionText "g" "a" "1") ∧
    (artifactMetadata (flat.filePath ⟨"x/repo/."⟩ (.ofVersionText "g" "a" "1"))).place [] =
      ["x".toList, metadataSegment] := by
  have h : Location.artifact? "mvn:g/a/1" = some (.ofVersionText "g" "a" "1") := by decide +kernel
  obtain ⟨hversion, -, hup, -⟩ := place_flat_documents h ⟨"x/repo/."⟩ []
  refine ⟨h, (hup.mpr (.inl (by decide +kernel))).trans ?_⟩
  rw [hversion, List.dropLast_concat]
  decide +kernel

/-- In the working directory, both documents are one file; behind two dots, one lies below the
other. -/
theorem flat_documents_behind_dots :
    Location.artifact? "mvn:g/a/1" = some (.ofVersionText "g" "a" "1") ∧
    (artifactMetadata (flat.filePath ⟨"."⟩ (.ofVersionText "g" "a" "1"))).place ["w".toList] =
      (versionMetadata (flat.filePath ⟨"."⟩ (.ofVersionText "g" "a" "1"))).place ["w".toList] ∧
    (versionMetadata (flat.filePath ⟨"r/.."⟩ (.ofVersionText "g" "a" "1"))).place ["w".toList] =
      ["w".toList, metadataSegment] ∧
    (artifactMetadata (flat.filePath ⟨"r/.."⟩ (.ofVersionText "g" "a" "1"))).place ["w".toList] =
      ["w".toList, "r".toList, metadataSegment] := by
  decide +kernel

end Layout
end FeatureDepot
