import FeatureDepot.Proofs.Depot.Materialize
import FeatureDepot.Proofs.Layout.Destinations

/-! Where the documents of a file lie, in either layout. That of one version lies beside the file;
that of all versions lies in the directory above, as text shows it, which is above the root where
files lie right in it. -/
namespace FeatureDepot
open FeatureDepot.Path FileSystem

namespace Path

variable {p directory : Path} {front : List Segment} {s : Segment}

/-- The path of the directory above, as text shows it; two dots where it shows none. -/
def above (p : Path) : Path := p.parent?.getD (p.push "..")

lemma exists_concat_of_parent? (hd : p.parent? = some directory) :
    ∃ front s, trim p.segments = front ++ [s] := by
  rcases List.eq_nil_or_concat (trim p.segments) with hnil | ⟨front, s, hsegments⟩
  · unfold parent? at hd
    rw [hnil] at hd
    cases hd
  · exact ⟨front, s, by rw [hsegments, List.concat_eq_append]⟩

/-- How a path ends, and where it and what its text shows above it lead from there. -/
inductive Ending (w : Place) (p : Path) : Prop
  | nothing (h : trim p.segments = []) (habove : p.above.place w = (p.place w).dropLast)
  | dot (h : trim p.segments = [['.']]) (hplace : p.place w = p.above.place w)
  | dots (h : (trim p.segments).getLast? = some ['.', '.'])
      (hplace : p.place w = (p.above.place w).dropLast)
  | name (s : Segment) (hs : IsName s) (h : (trim p.segments).getLast? = some s)
    (hplace : p.place w = p.above.place w ++ [s])

/-- The last segment leads to a place from the one that text shows above it. -/
theorem place_eq_enter_above {front : List Segment} (h : trim p.segments = front ++ [s])
    (w : Place) :
    p.place w = enter (p.above.place w) s := by
  have hparent := parent?_of_trim h
  rw [above, hparent, Option.getD_some]
  exact place_parent?_enter h hparent w

theorem ending (w : Place) (p : Path) : p.Ending w := by
  rcases trim_cases p.segments with hnil | hdot | ⟨front, s, htrim, hs⟩
  · have hparent : p.parent? = none := by
      unfold parent?
      rw [hnil]
    refine .nothing hnil ?_
    rw [above, hparent, Option.getD_none]
    exact place_push (by decide)
  · have hlast : trim p.segments = [] ++ [['.']] := hdot
    refine .dot hdot ?_
    rw [place_eq_enter_above hlast, enter_of_isIdle _ rfl]
  · have hlast : (trim p.segments).getLast? = some s := by rw [htrim, List.getLast?_concat]
    have hplace := place_eq_enter_above htrim w
    by_cases hdots : s = ['.', '.']
    · refine .dots (hdots ▸ hlast) ?_
      rw [hplace, hdots]
      rfl
    · have hname : IsName s := ⟨not_mem_of_mem_trim (List.mem_of_getLast? hlast), hs, hdots⟩
      exact .name s hname hlast (by rw [hplace, enter_of_isName _ hname])

/-- What text shows to be above is above or, behind dots, below. -/
theorem place_above (p : Path) (w : Place) :
    p.above.place w <+: p.place w ∨ p.place w <+: p.above.place w := by
  cases p.ending w with
  | nothing h habove =>
    rw [habove]
    exact .inl (List.dropLast_prefix _)
  | dot h hplace =>
    rw [hplace]
    exact .inl List.prefix_rfl
  | dots h hplace =>
    rw [hplace]
    exact .inr (List.dropLast_prefix _)
  | name s hs h hplace =>
    rw [hplace]
    exact .inl (List.prefix_append _ _)

end Path

namespace FileSystem

variable {fs : FileSystem} {p directory : Path} {front rest : List Segment} {s : Segment}
  {d q : Place}

/-- Whoever follows a path reaches its parent on the way. -/
theorem reaches_parent? (htrim : trim p.segments = front ++ [s]) (hd : p.parent? = some directory)
    (h : fs.walk (fs.base p) (front ++ s :: rest) = .ok q) : ∃ d, fs.Reaches directory d := by
  rw [walk_append] at h
  obtain ⟨d, hfront, h⟩ := Batch.bind_eq_ok_iff.mp h
  have hdirectory := directory_of_walk_cons h
  obtain ⟨habsolute, hsegments⟩ := parent?_segments htrim hd
  have hbase : fs.base directory = fs.base p := by
    unfold base
    rw [habsolute]
  rcases hsegments with hsegments | ⟨hidle, hidleFront⟩
  · obtain ⟨tail, htail, hsplit⟩ := exists_eq_trim_append front
    have hne : trim front ≠ [] := hsegments ▸ List.splitOn_ne_nil _ _
    rw [hsplit, walk_append] at hfront
    obtain ⟨inner, hinner, htail'⟩ := Batch.bind_eq_ok_iff.mp hfront
    obtain rfl : inner = d := (foldl_enter_of_isIdle htail).symm.trans (foldl_enter_of_walk htail')
    refine ⟨inner, ?_, hdirectory⟩
    rw [hbase, hsegments, Disk.stem_trim hne, hinner]
  · have hfold := foldl_enter_of_walk hfront
    rw [foldl_enter_of_isIdle hidleFront] at hfold
    refine ⟨d, ?_, hdirectory⟩
    rw [hbase, hfold]
    refine Disk.walk_of_isIdle hdirectory fun t ht => hidle t ?_
    unfold stem at ht
    split at ht
    next => exact List.mem_of_mem_dropLast ht
    next => exact ht

/-- From a directory that is reached, the one above is reached. -/
theorem Reaches.above_text (hs : fs.Sound) (h : fs.Reaches p d) :
    ∃ upper, fs.Reaches p.above upper := by
  unfold Path.above
  cases hd : p.parent? with
  | none =>
    rw [Option.getD_none]
    refine ⟨d.dropLast, ?_, hs.above d (by rw [h.2, Option.isSome_some])⟩
    have hsegments : (p.push "..").segments = stem p.segments ++ [['.', '.']] :=
      segments_push (by decide)
    have hbase : fs.base (p.push "..") = fs.base p := by
      unfold base
      rw [isAbsolute_push (by decide)]
    rw [hbase, hsegments, stem_concat _ (by decide), walk_append, h.1]
    dsimp only [bind, Except.bind]
    rw [walk, if_neg (by simp [h.2]), if_neg (by decide), if_pos rfl]
    rfl
  | some directory =>
    obtain ⟨front, s, htrim⟩ := exists_concat_of_parent? hd
    obtain ⟨tail, htail, hsplit⟩ := exists_eq_trim_append p.segments
    have hstem : ∃ rest, stem p.segments = front ++ s :: rest := by
      rw [hsplit, htrim, List.append_assoc, List.singleton_append]
      unfold stem
      split
      next hlast =>
        rcases List.eq_nil_or_concat tail with rfl | ⟨rest, t, rfl⟩
        · rw [List.getLast?_concat] at hlast
          obtain rfl := Option.some.inj hlast
          rcases isIdle_of_getLast?_trim (htrim ▸ List.getLast?_concat) with hdot | hidle
          · cases hdot
          · cases hidle
        · refine ⟨rest, ?_⟩
          rw [List.concat_eq_append, ← List.cons_append, ← List.append_assoc, List.dropLast_concat]
      next => exact ⟨tail, rfl⟩
    obtain ⟨rest, hrest⟩ := hstem
    exact reaches_parent? htrim hd (hrest ▸ h.1)

end FileSystem

namespace Depot
open Layout

variable {fs : FileSystem} {d : Depot} {a : Artifact} {q w : Place}

theorem artifactMetadata_eq_above (file : Path) :
    artifactMetadata file = (directoryOf file).above.push metadataName := rfl

/-- The segments of a plain artifact's path lead down, and its file name is the last one. -/
theorem relative_of_plain (ha : a.Plain) (d : Depot) :
    ['.', '.'] ∉ d.relative a ∧ ∃ front, d.relative a = front ++ [(fileName a).toList] := by
  have hname := (Artifact.isName_fileName ha.fileName).2.2
  unfold relative
  cases d.layout with
  | flat =>
    rw [segments_relativePath_flat ha.fileName]
    exact ⟨by simpa using Ne.symm hname, [], rfl⟩
  | nested =>
    rw [segments_relativePath ha.slashless]
    refine ⟨fun hmem => ?_, a.group.toList.splitOn '.' ++ [a.name.toList, a.baseVersion.toList],
      by simp⟩
    rcases List.mem_append.mp hmem with hmem | hmem
    · exact not_mem_of_mem_splitOn hmem (by simp)
    · simp only [List.mem_cons, List.not_mem_nil, or_false] at hmem
      rcases hmem with h | h | h
      · exact ha.name.2.2 h.symm
      · exact ha.baseVersion.2.2 h.symm
      · exact hname h.symm

theorem leaf?_destination (ha : a.Plain) (d : Depot) :
    (d.destination a).leaf? = some (fileName a).toList := by
  obtain ⟨-, front, hfront⟩ := relative_of_plain ha d
  have hpush : d.destination a =
      (d.root.pushAll front).push (String.ofList (fileName a).toList) := by
    unfold destination filePath pushAll
    rw [← relative, hfront, List.foldl_append]
    rfl
  rw [hpush]
  exact leaf?_push_name (Artifact.isName_fileName ha.fileName)

/-- The file of an artifact lies below the root of the depot. -/
theorem root_prefix_destination (ha : a.Plain) (d : Depot) (w : Place) :
    d.root.place w <+: ((d.destination a).place w).dropLast := by
  obtain ⟨before, name, tail, hbelow⟩ := exists_below_destination (relative_of_plain ha d).1
  exact hbelow.root_prefix_dropLast w

lemma place_directoryOf_destination (ha : a.Plain) (d : Depot) (w : Place) :
    (directoryOf (d.destination a)).place w = ((d.destination a).place w).dropLast := by
  obtain ⟨hname, front, hfront⟩ := leaf?_eq_some_iff.mp (leaf?_destination ha d)
  have hd := parent?_of_segments hfront hname.2.1
  rw [place_parent? (leaf?_destination ha d) hd, List.dropLast_concat, directoryOf, hd,
    Option.getD_some]

/-- The files of an artifact and its documents lie below the root or, if need be, in a directory
above it. -/
theorem root_or_above_of_mem_described (ha : a.Plain) (d : Depot) (w : Place) :
    ∀ f ∈ described (d.destination a),
      d.root.place w <+: (f.place w).dropLast ∨ (f.place w).dropLast <+: d.root.place w := by
  have hroot := root_prefix_destination ha d w
  refine forall_mem_described.mpr ⟨.inl hroot, ?_, ?_⟩
  · rw [versionMetadata, place_push_metadataName, List.dropLast_concat,
      place_directoryOf_destination ha]
    exact .inl hroot
  · rw [artifactMetadata_eq_above, place_push_metadataName, List.dropLast_concat]
    rw [← place_directoryOf_destination ha] at hroot
    rcases place_above (directoryOf (d.destination a)) w with habove | hbelow
    · exact (List.prefix_or_prefix_of_prefix hroot habove)
    · exact .inl (hroot.trans hbelow)

/-- Where a file is found, its directory is reached. -/
theorem reaches_directoryOf {file : Path} {s : Segment} (hleaf : file.leaf? = some s)
    (h : fs.locate file = .ok q) :
    ∃ directory, fs.Reaches (directoryOf file) directory := by
  obtain ⟨hname, front, hfront⟩ := leaf?_eq_some_iff.mp hleaf
  have hd := parent?_of_segments hfront hname.2.1
  have hwalk := (locate_eq_ok_iff.mp h).2
  rw [hfront] at hwalk
  rw [directoryOf, hd, Option.getD_some]
  exact reaches_parent? (by rw [hfront, trim_concat front hname.2.1]) hd hwalk

/-- Where the file of an artifact is found, the directories of its documents are reached. -/
theorem reaches_of_locate_destination (hs : fs.Sound) (ha : a.Plain)
    (h : fs.locate (d.destination a) = .ok q) :
    (∃ inner, fs.Reaches (directoryOf (d.destination a)) inner) ∧
      ∃ upper, fs.Reaches (directoryOf (d.destination a)).above upper := by
  obtain ⟨inner, hinner⟩ := reaches_directoryOf (leaf?_destination ha d) h
  exact ⟨⟨inner, hinner⟩, hinner.above_text hs⟩

end Depot
end FeatureDepot
