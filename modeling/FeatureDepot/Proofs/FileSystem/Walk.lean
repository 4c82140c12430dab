import FeatureDepot.FileSystem.Access
import FeatureDepot.Proofs.Batch
import FeatureDepot.Proofs.Path.Place

/-! Where paths lead. A path that leads anywhere leads to the place that its text names, and it goes
on doing so as long as directories stay directories and the place holds something. -/
namespace FeatureDepot.FileSystem
open FeatureDepot.Path Batch

variable {fs fs' : FileSystem} {p : Path} {w q directory : Place} {name : Segment}
  {segments : List Segment}

/-- The place that a path names. -/
def place (fs : FileSystem) (p : Path) : Place := p.place fs.workingDirectory

theorem child_eq_ok_iff : fs.child directory name = .ok q ↔
    Text.size name ≤ maxName ∧ q = directory ++ [name] ∧ (fs.get? q).isSome := by
  unfold child
  split
  next h =>
    have hsize := Nat.not_le.mpr h
    simp only [reduceCtorEq, hsize, false_and]
  next h =>
    have hsize := Nat.not_lt.mp h
    split
    next hsome =>
      simp only [Except.ok.injEq, hsize, true_and]
      constructor
      · rintro rfl
        exact ⟨rfl, hsome⟩
      · exact fun h => h.1.symm
    next hnone =>
      simp only [reduceCtorEq, false_iff, not_and]
      rintro - rfl
      exact hnone

theorem child_eq_notFound_iff : fs.child directory name = .error .notFound ↔
    Text.size name ≤ maxName ∧ fs.get? (directory ++ [name]) = none := by
  unfold child
  split
  next h =>
    have hsize := Nat.not_le.mpr h
    simp only [Except.error.injEq, reduceCtorEq, hsize, false_and]
  next h =>
    have hsize := Nat.not_lt.mp h
    split
    next hsome => simp [Option.isSome_iff_ne_none.mp hsome]
    next hnone =>
      simp only [hsize, true_and, true_iff]
      simpa using hnone

theorem walk_append (fs : FileSystem) (w : Place) (front back : List Segment) :
    fs.walk w (front ++ back) = fs.walk w front >>= (fs.walk · back) := by
  induction front generalizing w with
  | nil => rfl
  | cons s front ih =>
    rw [List.cons_append, walk, walk]
    split
    · rfl
    · split
      · exact ih w
      · split
        · exact ih _
        · cases fs.child w s with
          | error e => rfl
          | ok q => exact ih q

theorem foldl_enter_of_walk (h : fs.walk w segments = .ok q) : segments.foldl enter w = q := by
  induction segments generalizing w with
  | nil => exact Except.ok.inj h
  | cons s segments ih =>
    rw [walk] at h
    rw [List.foldl_cons, enter]
    split at h
    · cases h
    · split at h
      next hidle => rw [if_pos hidle, ih h]
      next hidle =>
        rw [if_neg hidle]
        split at h
        next hdots => rw [if_pos hdots, ih h]
        next hdots =>
          obtain ⟨r, hr, h⟩ := bind_eq_ok_iff.mp h
          obtain ⟨-, rfl, -⟩ := child_eq_ok_iff.mp hr
          rw [if_neg hdots, ih h]

/-- A walk goes on from directories only. -/
theorem directory_of_walk_cons (h : fs.walk w (s :: segments) = .ok q) :
    fs.get? w = some .directory := by
  rw [walk] at h
  split at h
  next => cases h
  next hdirectory => simpa using hdirectory

/-- Only what it goes through matters to a walk. -/
theorem walk_of_isSome
    (hdirectory : ∀ q, fs.get? q = some .directory → fs'.get? q = some .directory)
    (h : fs.walk w segments = .ok q) (hq : (fs'.get? q).isSome) : fs'.walk w segments = .ok q := by
  induction segments generalizing w with
  | nil => exact h
  | cons s segments ih =>
    rw [walk] at h ⊢
    split at h
    next => cases h
    next hw =>
      rw [if_neg (by simpa using hdirectory w (by simpa using hw))]
      split at h
      next hidle => rw [if_pos hidle, ih h]
      next hidle =>
        rw [if_neg hidle]
        split at h
        next hdots => rw [if_pos hdots, ih h]
        next hdots =>
          obtain ⟨r, hr, h⟩ := bind_eq_ok_iff.mp h
          obtain ⟨hsize, rfl, hsome⟩ := child_eq_ok_iff.mp hr
          -- The place behind this step is either the last one or a directory.
          have hthere : (fs'.get? (w ++ [s])).isSome := by
            cases segments with
            | nil =>
              obtain rfl := Except.ok.inj h
              exact hq
            | cons t segments => rw [hdirectory _ (directory_of_walk_cons h), Option.isSome_some]
          rw [if_neg hdots]
          exact bind_eq_ok_iff.mpr ⟨w ++ [s], child_eq_ok_iff.mpr ⟨hsize, rfl, hthere⟩, ih h⟩

theorem locate_eq_ok_iff : fs.locate p = .ok q ↔
    checkPath p = .ok () ∧ fs.walk (fs.base p) p.segments = .ok q := by
  unfold locate
  rw [bind_eq_ok_iff]
  exact ⟨fun ⟨_, hcheck, hwalk⟩ => ⟨hcheck, hwalk⟩, fun ⟨hcheck, hwalk⟩ => ⟨(), hcheck, hwalk⟩⟩

theorem place_of_locate (h : fs.locate p = .ok q) : fs.place p = q :=
  foldl_enter_of_walk (locate_eq_ok_iff.mp h).2

theorem base_congr (hw : fs'.workingDirectory = fs.workingDirectory) (p : Path) :
    fs'.base p = fs.base p := by
  unfold base
  rw [hw]

theorem locate_of_isSome (hw : fs'.workingDirectory = fs.workingDirectory)
    (hdirectory : ∀ q, fs.get? q = some .directory → fs'.get? q = some .directory)
    (h : fs.locate p = .ok q) (hq : (fs'.get? q).isSome) : fs'.locate p = .ok q := by
  obtain ⟨hcheck, h⟩ := locate_eq_ok_iff.mp h
  rw [locate_eq_ok_iff, base_congr hw]
  exact ⟨hcheck, walk_of_isSome hdirectory h hq⟩

theorem read_eq_ok_iff {content : Bytes} : fs.read p = .ok content ↔
    ∃ q, fs.locate p = .ok q ∧ fs.get? q = some (.file content) := by
  unfold read
  rw [bind_eq_ok_iff]
  refine exists_congr fun q => and_congr_right fun _ => ?_
  rcases fs.get? q with - | - | - <;> simp

theorem get?_of_read {content : Bytes} (h : fs.read p = .ok content) :
    fs.get? (fs.place p) = some (.file content) := by
  obtain ⟨q, hlocate, hq⟩ := read_eq_ok_iff.mp h
  rw [place_of_locate hlocate, hq]

theorem readText_eq_ok_iff {text : String} : fs.readText p = .ok text ↔
    ∃ content, fs.read p = .ok content ∧ Bytes.decode? content = some text := by
  unfold readText
  rw [bind_eq_ok_iff]
  refine exists_congr fun content => and_congr_right fun _ => ?_
  cases Bytes.decode? content <;> simp

/-- A path that names something in a directory that is there. -/
structure Names (fs : FileSystem) (p : Path) (directory : Place) (name : Segment) : Prop where
  check : checkPath p = .ok ()
  walk : ∃ front, p.segments = front ++ [name] ∧ fs.walk (fs.base p) front = .ok directory
  isDirectory : fs.get? directory = some .directory
  isName : IsName name

namespace Names

theorem leaf? (h : fs.Names p directory name) : p.leaf? = some name := by
  obtain ⟨front, hfront, -⟩ := h.walk
  exact leaf?_eq_some_iff.mpr ⟨h.isName, front, hfront⟩

theorem place_eq (h : fs.Names p directory name) : fs.place p = directory ++ [name] := by
  obtain ⟨front, hfront, hwalk⟩ := h.walk
  have hfold := foldl_enter_of_walk hwalk
  unfold FileSystem.place
  rw [place_of_segments hfront h.isName, ← hfold]
  rfl

theorem locate_eq (h : fs.Names p directory name) : fs.locate p = fs.child directory name := by
  obtain ⟨front, hfront, hwalk⟩ := h.walk
  obtain ⟨-, hidle, hdots⟩ := h.isName
  unfold locate
  rw [h.check, hfront]
  simp only [bind, Except.bind]
  rw [walk_append, hwalk]
  simp only [bind, Except.bind]
  rw [FileSystem.walk, if_neg (by simp [h.isDirectory]), if_neg (by simp [hidle]), if_neg hdots]
  cases fs.child directory name <;> rfl

/-- Directories that stay keep the names in them within reach. -/
theorem mono (h : fs.Names p directory name) (hw : fs'.workingDirectory = fs.workingDirectory)
    (hdirectory : ∀ q, fs.get? q = some .directory → fs'.get? q = some .directory) :
    fs'.Names p directory name where
  check := h.check
  walk := by
    obtain ⟨front, hfront, hwalk⟩ := h.walk
    refine ⟨front, hfront, ?_⟩
    rw [base_congr hw]
    exact walk_of_isSome hdirectory hwalk (by rw [hdirectory _ h.isDirectory, Option.isSome_some])
  isDirectory := hdirectory _ h.isDirectory
  isName := h.isName

end Names

/-- A path that ends in a name and leads somewhere names what it leads to. -/
theorem names_of_locate (hp : p.leaf? = some name) (h : fs.locate p = .ok q) :
    ∃ directory, fs.Names p directory name ∧ q = directory ++ [name] := by
  obtain ⟨hname, front, hfront⟩ := leaf?_eq_some_iff.mp hp
  obtain ⟨hcheck, hwalk⟩ := locate_eq_ok_iff.mp h
  rw [hfront, walk_append] at hwalk
  obtain ⟨directory, hdirectory, hlast⟩ := bind_eq_ok_iff.mp hwalk
  have hnames : fs.Names p directory name :=
    ⟨hcheck, ⟨front, hfront, hdirectory⟩, directory_of_walk_cons hlast, hname⟩
  exact ⟨directory, hnames, (place_of_locate h).symm.trans hnames.place_eq⟩

/-- A path behind which names can be followed: it leads to a directory. A slash at its end does not
matter. -/
def Reaches (fs : FileSystem) (p : Path) (directory : Place) : Prop :=
  fs.walk (fs.base p) (stem p.segments) = .ok directory ∧ fs.get? directory = some .directory

theorem base_push_name (hname : IsName name) (p : Path) :
    fs.base (p.push (String.ofList name)) = fs.base p := by
  unfold base
  rw [isAbsolute_push hname.head?_ne]

lemma reaches_of_walk_push (hname : IsName name)
    (h : fs.walk (fs.base (p.push (String.ofList name))) (p.push (String.ofList name)).segments =
      .ok q) :
    ∃ directory, fs.Reaches p directory := by
  rw [segments_push_name hname, base_push_name hname, walk_append] at h
  obtain ⟨directory, hwalk, h⟩ := bind_eq_ok_iff.mp h
  exact ⟨directory, hwalk, directory_of_walk_cons h⟩

theorem reaches_of_locate_push (hname : IsName name)
    (h : fs.locate (p.push (String.ofList name)) = .ok q) :
    ∃ directory, fs.Reaches p directory :=
  reaches_of_walk_push hname (locate_eq_ok_iff.mp h).2

namespace Reaches

/-- The directory above is reached on the way. -/
theorem above (hname : IsName name) (h : fs.Reaches (p.push (String.ofList name)) directory) :
    ∃ upper, fs.Reaches p upper := by
  have hstem : stem (p.push (String.ofList name)).segments =
      (p.push (String.ofList name)).segments := by
    rw [segments_push_name hname, stem_concat _ hname.ne_nil]
  exact reaches_of_walk_push hname (hstem ▸ h.1)

theorem names (h : fs.Reaches p directory) (hname : IsName name)
    (hcheck : checkPath (p.push (String.ofList name)) = .ok ()) :
    fs.Names (p.push (String.ofList name)) directory name where
  check := hcheck
  walk := ⟨stem p.segments, segments_push_name hname, by rw [base_push_name hname, h.1]⟩
  isDirectory := h.2
  isName := hname

end Reaches

lemma dropWhile_nil_eq (segments : List Segment) :
    ∃ count, segments = (segments.reverse.dropWhile (· == [])).reverse ++
      List.replicate count [] := by
  refine ⟨(segments.reverse.takeWhile (· == [])).length, ?_⟩
  have htail : (segments.reverse.takeWhile (· == [])).reverse =
      List.replicate (segments.reverse.takeWhile (· == [])).length [] := by
    rw [List.eq_replicate_iff]
    refine ⟨List.length_reverse, fun s hs => ?_⟩
    simpa using (List.all_eq_true.mp List.all_takeWhile) s (List.mem_reverse.mp hs)
  rw [← htail, ← List.reverse_append, List.takeWhile_append_dropWhile, List.reverse_reverse]

/-- A target with a name says where its path leads. -/
theorem target_spec {t : Target} (h : fs.target p = .ok t) (hname : t.name = some name) :
    fs.place p = t.directory ++ [name] ∧ (t.slashed = false → fs.Names p t.directory name) := by
  unfold target at h
  obtain ⟨u, hcheck, h⟩ := bind_eq_ok_iff.mp h
  obtain ⟨directory, hwalk, h⟩ := bind_eq_ok_iff.mp h
  split at h
  next => cases h
  next hdirectory =>
    obtain rfl := Except.ok.inj h
    obtain ⟨count, hsegments⟩ := dropWhile_nil_eq p.segments
    simp only [Option.filter_eq_some_iff, List.getLast?_eq_some_iff] at hname
    obtain ⟨⟨front, hfront⟩, hdots⟩ := hname
    have hne : name ≠ [] := by
      rintro rfl
      have hhead := List.head?_dropWhile_not (· == []) p.segments.reverse
      rw [List.reverse_eq_iff.mp hfront] at hhead
      simp at hhead
    rw [hfront] at hsegments hwalk
    rw [List.dropLast_concat] at hwalk
    have hslash : '/' ∉ name := not_mem_of_mem_segments (p := p) (by simp [hsegments])
    have hisName : IsName name := by
      simp only [Bool.and_eq_true, bne_iff_ne] at hdots
      exact ⟨hslash, by simp [isIdle, hne, hdots.1], hdots.2⟩
    refine ⟨?_, fun hslashed => ⟨hcheck, ⟨front, ?_, hwalk⟩, by simpa using hdirectory, hisName⟩⟩
    · have hidle : ∀ s ∈ List.replicate count ([] : Segment), isIdle s := fun s hs => by
        rw [List.eq_of_mem_replicate hs]
        rfl
      unfold FileSystem.place Path.place
      rw [hsegments, List.foldl_append, foldl_enter_of_isIdle hidle, List.foldl_append,
        List.foldl_cons, List.foldl_nil, enter_of_isName _ hisName, ← foldl_enter_of_walk hwalk]
      rfl
    · cases count with
      | zero => simpa using hsegments
      | succ count =>
        rw [hsegments, List.replicate_succ', ← List.append_assoc, List.getLast?_concat] at hslashed
        simp at hslashed

/-- What a path names is its target. -/
theorem Names.target_eq (h : fs.Names p directory name) :
    fs.target p = .ok ⟨directory, some name, false⟩ := by
  obtain ⟨front, hfront, hwalk⟩ := h.walk
  have hne := h.isName.ne_nil
  have hdot : name ≠ ['.'] := by
    rintro rfl
    simpa [isIdle] using h.isName.2.1
  have htrim : (p.segments.reverse.dropWhile (· == [])).reverse = front ++ [name] := by
    rw [hfront, List.reverse_append, List.reverse_singleton, List.singleton_append,
      List.dropWhile_cons_of_neg (by simpa using hne), List.reverse_cons, List.reverse_reverse]
  unfold target
  refine bind_eq_ok_iff.mpr ⟨(), h.check, ?_⟩
  dsimp only
  rw [htrim, List.dropLast_concat]
  refine bind_eq_ok_iff.mpr ⟨directory, hwalk, ?_⟩
  rw [if_neg (by simp [h.isDirectory]), List.getLast?_concat, hfront, List.getLast?_concat]
  simp [hdot, h.isName.2.2, hne]

/-- An empty file is made where there is nothing. -/
theorem createFile_spec (h : fs.createFile p = .ok (fs', q)) :
    ∃ directory name, fs.Names p directory name ∧
    Text.size name ≤ maxName ∧ q = directory ++ [name] ∧ fs.get? q = none ∧
    fs' = fs.put q (.file []) := by
  unfold createFile at h
  obtain ⟨t, ht, h⟩ := bind_eq_ok_iff.mp h
  split at h
  next => cases h
  next name hname =>
    split at h
    next => cases h
    next hslashed =>
      split at h
      next => cases h
      next hchild =>
        obtain ⟨rfl, rfl⟩ := Prod.mk.injEq .. ▸ Except.ok.inj h
        obtain ⟨hsize, hnone⟩ := child_eq_notFound_iff.mp hchild
        exact ⟨t.directory, name, (target_spec ht hname).2 (by simpa using hslashed), hsize,
          rfl, hnone, rfl⟩
      next => cases h

/-- A file that a path names can be removed. -/
theorem Names.removeFile (h : fs.Names p directory name) (hsize : Text.size name ≤ maxName)
    {content : Bytes} (hfile : fs.get? (directory ++ [name]) = some (.file content)) :
    fs.removeFile p = .ok (fs.take (directory ++ [name])) := by
  have hchild : fs.child directory name = .ok (directory ++ [name]) :=
    child_eq_ok_iff.mpr ⟨hsize, rfl, by rw [hfile, Option.isSome_some]⟩
  unfold FileSystem.removeFile
  refine bind_eq_ok_iff.mpr ⟨_, h.target_eq, bind_eq_ok_iff.mpr ⟨_, hchild, ?_⟩⟩
  simp [hfile]

theorem removeFile_spec (h : fs.removeFile p = .ok fs') :
    ∃ directory name content, fs.Names p directory name ∧
    fs.get? (directory ++ [name]) = some (.file content) ∧ fs' = fs.take (directory ++ [name]) := by
  unfold removeFile at h
  obtain ⟨t, ht, h⟩ := bind_eq_ok_iff.mp h
  split at h
  next => cases h
  next name hname =>
    obtain ⟨place, hplace, h⟩ := bind_eq_ok_iff.mp h
    obtain ⟨-, rfl, -⟩ := child_eq_ok_iff.mp hplace
    split at h
    next content hcontent =>
      split at h
      next => cases h
      next hslashed =>
        obtain rfl := Except.ok.inj h
        exact ⟨t.directory, name, content, (target_spec ht hname).2 (by simpa using hslashed),
          hcontent, rfl⟩
    next => cases h

/-- A file is moved over nothing or over a file. -/
theorem moveFile_spec {bytes : Bytes} (h : fs.moveFile q bytes p = .ok fs') : ∃ directory name,
    fs.Names p directory name ∧ Text.size name ≤ maxName ∧
    fs.get? (directory ++ [name]) ≠ some .directory ∧
    fs' = (fs.take q).put (directory ++ [name]) (.file bytes) := by
  unfold moveFile at h
  obtain ⟨t, ht, h⟩ := bind_eq_ok_iff.mp h
  split at h
  next => cases h
  next name hname =>
    have hnames := (target_spec ht hname).2
    split at h
    next hchild =>
      obtain ⟨hsize, hnone⟩ := child_eq_notFound_iff.mp hchild
      split at h
      next => cases h
      next hslashed =>
        obtain rfl := Except.ok.inj h
        exact ⟨t.directory, name, hnames (by simpa using hslashed), hsize, by simp [hnone], rfl⟩
    next => cases h
    next there hchild =>
      obtain ⟨hsize, rfl, -⟩ := child_eq_ok_iff.mp hchild
      split at h
      next => cases h
      next hslashed =>
        split at h
        next => cases h
        next hdirectory =>
          obtain rfl := Except.ok.inj h
          exact ⟨t.directory, name, hnames (by simpa using hslashed), hsize, hdirectory, rfl⟩

/-- A file can be moved to a path that names something else than a directory. -/
theorem Names.moveFile (h : fs.Names p directory name) (hsize : Text.size name ≤ maxName)
    (hnot : fs.get? (directory ++ [name]) ≠ some .directory) (q : Place) (bytes : Bytes) :
    fs.moveFile q bytes p = .ok ((fs.take q).put (directory ++ [name]) (.file bytes)) := by
  unfold FileSystem.moveFile
  refine bind_eq_ok_iff.mpr ⟨_, h.target_eq, ?_⟩
  dsimp only
  cases hthere : fs.get? (directory ++ [name]) with
  | none =>
    rw [child_eq_notFound_iff.mpr ⟨hsize, hthere⟩]
    rfl
  | some entry =>
    have hchild : fs.child directory name = .ok (directory ++ [name]) :=
      child_eq_ok_iff.mpr ⟨hsize, rfl, by rw [hthere, Option.isSome_some]⟩
    rw [hchild]
    dsimp only
    rw [if_neg (by decide), if_neg hnot]

theorem makeDirectory_spec (h : fs.makeDirectory p = .ok fs') :
    fs.place p ≠ [] ∧ fs.get? (fs.place p) = none ∧ fs' = fs.put (fs.place p) .directory := by
  unfold makeDirectory at h
  obtain ⟨t, ht, h⟩ := bind_eq_ok_iff.mp h
  split at h
  next => cases h
  next name hname =>
    have hplace := (target_spec ht hname).1
    split at h
    next => cases h
    next hchild =>
      obtain rfl := Except.ok.inj h
      rw [hplace]
      exact ⟨by simp, (child_eq_notFound_iff.mp hchild).2, rfl⟩
    next => cases h

end FeatureDepot.FileSystem
