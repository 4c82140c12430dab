import FeatureDepot.Proofs.FileSystem.Stored
import Mathlib.Logic.Relation

/-! Replacing a file, step by step. Each step may fail for reasons of its own, and writing may fail
after a part of the bytes; until the file that was written is moved, nothing but the temporary file
holds a part of the new content. -/
namespace FeatureDepot.Disk
open FileSystem FeatureDepot.Path

variable {w : Place} {host : Host} {p t : Path} {s : Segment} {fs fs' : FileSystem}
  {pieces : List (Except Cause Bytes)} {files : Set Place} {new : Set (Place × Entry)}

/-- The name of a temporary file. -/
def temporaryName (host : Host) (fs : FileSystem) (p : Path) : Segment :=
  '.' :: (p.fileName?.getD "").toList ++ '.' :: (host.tag fs p).toList ++ ".writing".toList

lemma not_mem_fileName? {name : String} (h : p.fileName? = some name) : '/' ∉ name.toList := by
  unfold fileName? at h
  split at h
  next s hlast =>
    split at h
    next => cases h
    next =>
      obtain rfl := Option.some.inj h
      rw [String.toList_ofList]
      exact not_mem_of_mem_trim (List.mem_of_getLast? hlast)
  next => cases h

theorem isName_temporaryName (htag : '/' ∉ (host.tag fs p).toList) :
    IsName (temporaryName host fs p) := by
  refine ⟨?_, ?_, ?_⟩
  · have hfile : '/' ∉ (p.fileName?.getD "").toList := by
      cases h : p.fileName? with
      | none => simp
      | some name => exact not_mem_fileName? h
    simp [temporaryName, hfile, htag]
  · simp [temporaryName, isIdle]
  · intro h
    have hlength := congrArg List.length h
    simp [temporaryName] at hlength
    omega

theorem temporary_eq (host : Host) (fs : FileSystem) (p : Path) :
    temporary host fs p = p.withFileName (String.ofList (temporaryName host fs p)) := by
  have hname : "." ++ p.fileName?.getD "" ++ "." ++ host.tag fs p ++ ".writing" =
      String.ofList (temporaryName host fs p) := by
    have hdot : ".".toList = ['.'] := rfl
    rw [← String.toList_inj]
    simp [temporaryName, hdot]
  rw [temporary, hname]

/-- The temporary file of a path lies beside it. -/
theorem dropLast_place_temporary (hp : p.leaf? = some s) (htag : '/' ∉ (host.tag fs p).toList) :
    ((temporary host fs p).place w).dropLast = (p.place w).dropLast := by
  obtain ⟨hs, front, hfront⟩ := leaf?_eq_some_iff.mp hp
  obtain ⟨directory, hdirectory⟩ : ∃ directory, p.parent? = some directory :=
    ⟨_, parent?_of_segments hfront hs.2.1⟩
  rw [temporary_eq]
  unfold withFileName
  rw [fileName?_of_leaf? hp, hdirectory, place_push_name (isName_temporaryName htag),
    List.dropLast_concat, place_parent? hp hdirectory, List.dropLast_concat]

/-- A temporary file has its name. -/
theorem getLast?_place_temporary (htag : '/' ∉ (host.tag fs p).toList) :
    ((temporary host fs p).place w).getLast? = some (temporaryName host fs p) := by
  have hname := isName_temporaryName htag
  rw [temporary_eq]
  unfold withFileName
  split
  next => rw [place_push_name hname, List.getLast?_concat]
  next => rw [place_push_name hname, List.getLast?_concat]

/-- A temporary file is not the file that it stands for. -/
theorem place_temporary_ne (htag : '/' ∉ (host.tag fs p).toList) :
    (temporary host fs p).place w ≠ p.place w := by
  intro heq
  have hlast := getLast?_place_temporary (w := w) htag
  cases hname : p.fileName? with
  | some name =>
    rw [heq, getLast?_place_of_fileName? hname] at hlast
    have hlength := congrArg List.length (Option.some.inj hlast)
    simp [temporaryName, hname] at hlength
    omega
  | none =>
    have hbelow : (temporary host fs p).place w = p.place w ++ [temporaryName host fs p] := by
      rw [temporary_eq]
      unfold withFileName
      rw [hname]
      exact place_push_name (isName_temporaryName htag)
    rw [hbelow] at heq
    simpa using congrArg List.length heq

lemma removeFile_of_none (h : fs.get? (fs.place t) = none) : fs.removeFile t ≠ .ok fs' := by
  intro hremove
  obtain ⟨directory, name, content, hnames, hfile, -⟩ := removeFile_spec hremove
  rw [← hnames.place_eq, h] at hfile
  cases hfile

/-- A file that was made can be removed again, whatever it holds by then. -/
theorem removeFile_of_createFile {made : FileSystem} {q : Place}
    (h : fs.createFile t = .ok (made, q)) (bytes : Bytes) :
    (fs.put q (.file bytes)).removeFile t = .ok (fs.take q) := by
  obtain ⟨directory, name, hnames, hsize, rfl, hnone, -⟩ := createFile_spec h
  have hput := changes_put (by simp) hnone (.file bytes)
  rw [(hput.names hnames).removeFile hsize (by rw [get?_put _ _ _ (by simp), if_pos rfl]), take_put]

theorem giveUp_of_createFile {made : FileSystem} {q : Place} (h : fs.createFile t = .ok (made, q))
    (cause : Cause) (bytes : Bytes) :
    giveUp t cause (fs.put q (.file bytes)) = (.error { cause }, fs.take q) := by
  rw [giveUp_eq, removeFile_of_createFile h]

/-- Once its temporary file is made, a file is replaced unless a piece is broken or the path does
not take it. -/
theorem replace_of_createFile {made : FileSystem} {q : Place}
    (h : fs.createFile (temporary host fs p) = .ok (made, q)) (pieces : List (Except Cause Bytes)) :
    replace host p pieces fs = match content pieces with
      | .error cause => (.error { cause }, fs.take q)
      | .ok bytes =>
        match (fs.put q (.file bytes)).moveFile q bytes p with
        | .ok moved => (.ok (), moved)
        | .error e => (.error { cause := .io e }, fs.put q (.file bytes)) := by
  rw [replace_eq, h]
  obtain ⟨-, -, -, -, -, -, rfl⟩ := createFile_spec h
  cases content pieces with
  | error cause => exact giveUp_of_createFile h cause []
  | ok bytes =>
    cases hmove : (fs.put q (.file bytes)).moveFile q bytes p <;> simp only [put_put, hmove]

namespace Replacing

/-- How far a file is replaced: the temporary file is opened; it is at a place and written to, piece
by piece; it is to be removed, since something failed; or all is done. -/
inductive Stage
  | opening (pieces : List (Except Cause Bytes))
  | writing (q : Place) (written : Bytes) (pieces : List (Except Cause Bytes))
  | failing (cause : Cause)
  | ended (outcome : Except Failure Unit)

/-- A step of replacing a file by way of a temporary one. Where writing fails, a front of what was
to be written may be there. -/
inductive Step (t p : Path) : Stage × FileSystem → Stage × FileSystem → Prop
  | opened {q : Place} {fs fs' : FileSystem} {pieces : List (Except Cause Bytes)}
      (h : fs.createFile t = .ok (fs', q)) :
      Step t p (.opening pieces, fs) (.writing q [] pieces, fs')
  | unopened {fs : FileSystem} {pieces : List (Except Cause Bytes)} (e : IoError) :
      Step t p (.opening pieces, fs) (.failing (.io e), fs)
  | wrote {q : Place} {written bytes : Bytes} {fs : FileSystem}
      {pieces : List (Except Cause Bytes)} :
      Step t p (.writing q written (.ok bytes :: pieces), fs) (.writing q (written ++ bytes) pieces,
        fs.put q (.file (written ++ bytes)))
  | unwritten {q : Place} {written bytes left : Bytes} {fs : FileSystem}
      {pieces : List (Except Cause Bytes)} (h : left <+: written ++ bytes) (e : IoError) :
      Step t p (.writing q written (.ok bytes :: pieces), fs) (.failing (.io e),
        fs.put q (.file left))
  | broken {q : Place} {written left : Bytes} {cause : Cause} {fs : FileSystem}
      {pieces : List (Except Cause Bytes)} (h : left <+: written) :
      Step t p (.writing q written (.error cause :: pieces), fs) (.failing cause,
        fs.put q (.file left))
  | unflushed {q : Place} {written left : Bytes} {fs : FileSystem} (h : left <+: written)
      (e : IoError) : Step t p (.writing q written [], fs) (.failing (.io e), fs.put q (.file left))
  | moved {q : Place} {written : Bytes} {fs fs' : FileSystem}
      (h : fs.moveFile q written p = .ok fs') :
      Step t p (.writing q written [], fs) (.ended (.ok ()), fs')
  | unmoved {q : Place} {written : Bytes} {fs : FileSystem} (e : IoError) :
      Step t p (.writing q written [], fs) (.ended (.error { cause := .io e }), fs)
  | removed {cause : Cause} {fs fs' : FileSystem} (h : fs.removeFile t = .ok fs') :
      Step t p (.failing cause, fs) (.ended (.error { cause }), fs')
  | unremoved {cause : Cause} {fs : FileSystem} (e : IoError) :
      Step t p (.failing cause, fs) (.ended (.error { cause, abandoned := some (t, e) }), fs)

/-- What has become of a file system: pieces are written to the temporary file alone, and the path
holds them all once that is moved. -/
def Kept (t p : Path) (pieces : List (Except Cause Bytes)) (fs : FileSystem) :
    Stage × FileSystem → Prop
  | (.opening rest, fs') => rest = pieces ∧ fs' = fs
  | (.writing q written rest, fs') =>
    (∃ made, fs.createFile t = .ok (made, q)) ∧ fs' = fs.put q (.file written) ∧
      ∃ chunks : List Bytes, pieces = chunks.map .ok ++ rest ∧ written = chunks.flatten
  | (.failing _, fs') =>
    fs' = fs ∨ ∃ q left, (∃ made, fs.createFile t = .ok (made, q)) ∧ fs' = fs.put q (.file left)
  | (.ended (.ok _), fs') =>
    ∃ chunks : List Bytes, pieces = chunks.map .ok ∧ Stored p chunks.flatten ∅ fs fs'
  | (.ended (.error _), fs') =>
    fs.get? (fs.place t) = none → Changes ∅ {x | x.1 = fs.place t} fs fs'

variable {m m' : Stage × FileSystem}

/-- A file that is made changes nothing else, whatever it holds. -/
theorem changes_of_createFile {made : FileSystem} {q : Place} (h : fs.createFile t = .ok (made, q))
    (bytes : Bytes) :
    Changes ∅ {x | x.1 = fs.place t} fs (fs.put q (.file bytes)) := by
  obtain ⟨directory, name, hnames, -, rfl, hnone, -⟩ := createFile_spec h
  refine (changes_put (by simp) hnone (.file bytes)).mono subset_rfl ?_
  rintro x rfl
  exact hnames.place_eq.symm

/-- A file that was made and removed again leaves no trace. -/
theorem changes_take {made : FileSystem} {q : Place} (h : fs.createFile t = .ok (made, q)) :
    Changes files new fs (fs.take q) := by
  obtain ⟨directory, name, -, -, rfl, hnone, -⟩ := createFile_spec h
  refine ⟨rfl, fun r => .inl ?_⟩
  rw [get?_take _ _ (by simp)]
  split
  next hr => rw [hr, hnone]
  next => rfl

lemma Kept.changes {cause : Cause} (h : Kept t p pieces fs (.failing cause, fs')) :
    Changes ∅ {x | x.1 = fs.place t} fs fs' := by
  rcases h with rfl | ⟨q, left, ⟨made, hmade⟩, rfl⟩
  · exact .refl _
  · exact changes_of_createFile hmade left

lemma Step.kept (h : Step t p m m') (hm : Kept t p pieces fs m) : Kept t p pieces fs m' := by
  cases h with
  | opened h =>
    obtain ⟨rfl, rfl⟩ := hm
    obtain ⟨-, -, -, -, -, -, hmade⟩ := createFile_spec h
    exact ⟨⟨_, h⟩, hmade, [], rfl, rfl⟩
  | unopened e => exact .inl hm.2
  | @wrote q written bytes =>
    obtain ⟨hmade, rfl, chunks, rfl, rfl⟩ := hm
    refine ⟨hmade, put_put _ _ _ _, chunks ++ [bytes], ?_, ?_⟩
    · simp
    · simp
  | unwritten h e =>
    obtain ⟨hmade, rfl, -⟩ := hm
    exact .inr ⟨_, _, hmade, put_put _ _ _ _⟩
  | broken h =>
    obtain ⟨hmade, rfl, -⟩ := hm
    exact .inr ⟨_, _, hmade, put_put _ _ _ _⟩
  | unflushed h e =>
    obtain ⟨hmade, rfl, -⟩ := hm
    exact .inr ⟨_, _, hmade, put_put _ _ _ _⟩
  | moved h =>
    obtain ⟨⟨made, hmade⟩, rfl, chunks, hpieces, rfl⟩ := hm
    obtain ⟨directory, name, -, -, hq, hnone, -⟩ := createFile_spec hmade
    exact ⟨chunks, by rwa [List.append_nil] at hpieces, stored_of_moveFile (by simp [hq]) hnone h⟩
  | unmoved e =>
    obtain ⟨⟨made, hmade⟩, rfl, -⟩ := hm
    exact fun _ => changes_of_createFile hmade _
  | removed hremove =>
    intro hnone
    rcases hm with rfl | ⟨q, left, ⟨made, hmade⟩, rfl⟩
    · exact absurd hremove (removeFile_of_none hnone)
    · obtain rfl := Except.ok.inj ((removeFile_of_createFile hmade left).symm.trans hremove)
      exact changes_take hmade
  | unremoved e => exact fun _ => hm.changes

theorem kept_of_steps (h : Relation.ReflTransGen (Step t p) (.opening pieces, fs) m) :
    Kept t p pieces fs m := by
  induction h with
  | refl => exact ⟨rfl, rfl⟩
  | tail _ hstep ih => exact hstep.kept ih

/-- Until a file is done, nothing but the temporary file is new. -/
theorem changes_of_steps {stage : Stage} (hnone : fs.get? (fs.place t) = none)
    (h : Relation.ReflTransGen (Step t p) (.opening pieces, fs) (stage, fs'))
    (hstage : stage ≠ .ended (.ok ())) :
    Changes ∅ {x | x.1 = fs.place t} fs fs' := by
  have hkept := kept_of_steps h
  cases stage with
  | opening rest =>
    obtain ⟨-, rfl⟩ := hkept
    exact .refl _
  | writing q written rest =>
    obtain ⟨⟨made, hmade⟩, rfl, -⟩ := hkept
    exact changes_of_createFile hmade written
  | failing cause => exact hkept.changes
  | ended outcome =>
    cases outcome with
    | ok => exact absurd rfl hstage
    | error failure => exact hkept hnone

lemma content_cons_ok (bytes : Bytes) (pieces : List (Except Cause Bytes)) :
    content (.ok bytes :: pieces) = (content pieces).map (bytes ++ ·) := by
  rw [content]
  cases content pieces <;> rfl

/-- Pieces are written one behind the other, up to the first one that is broken. -/
theorem steps_content (t p : Path) (fs : FileSystem) (q : Place) (written : Bytes)
    (pieces : List (Except Cause Bytes)) :
    match content pieces with
    | .ok bytes =>
      Relation.ReflTransGen (Step t p) (.writing q written pieces, fs.put q (.file written))
        (.writing q (written ++ bytes) [], fs.put q (.file (written ++ bytes)))
    | .error cause =>
      ∃ left, Relation.ReflTransGen (Step t p) (.writing q written pieces, fs.put q (.file written))
        (.failing cause, fs.put q (.file left)) := by
  induction pieces generalizing written with
  | nil =>
    have hnone : content [] = .ok [] := rfl
    simp only [hnone, List.append_nil]
    exact .refl
  | cons piece pieces ih =>
    cases piece with
    | error cause =>
      have hbroken : content (.error cause :: pieces) = .error cause := rfl
      have hstep : Step t p (.writing q written (.error cause :: pieces), fs.put q (.file written))
          _ := .broken (List.prefix_refl written)
      rw [put_put] at hstep
      rw [hbroken]
      exact ⟨written, .single hstep⟩
    | ok bytes =>
      have hstep : Step t p (.writing q written (.ok bytes :: pieces),
          fs.put q (.file written)) _ := .wrote
      rw [put_put] at hstep
      have hrest := ih (written ++ bytes)
      rw [content_cons_ok]
      cases hcontent : content pieces with
      | error cause =>
        rw [hcontent] at hrest
        obtain ⟨left, hsteps⟩ := hrest
        exact ⟨left, .head hstep hsteps⟩
      | ok more =>
        rw [hcontent] at hrest
        simp only [Except.map, ← List.append_assoc]
        exact .head hstep hrest

lemma steps_giveUp (t p : Path) (cause : Cause) (fs : FileSystem) :
    Relation.ReflTransGen (Step t p) (.failing cause, fs) (.ended (giveUp t cause fs).1,
      (giveUp t cause fs).2) := by
  rw [giveUp_eq]
  cases h : fs.removeFile t with
  | ok removed => exact .single (.removed h)
  | error e => exact .single (.unremoved e)

/-- What becomes of a file that is replaced is the end of such steps. -/
theorem steps_replace (host : Host) (p : Path) (pieces : List (Except Cause Bytes))
    (fs : FileSystem) :
    Relation.ReflTransGen (Step (temporary host fs p) p) (.opening pieces, fs)
      (.ended (replace host p pieces fs).1, (replace host p pieces fs).2) := by
  cases hcreate : fs.createFile (temporary host fs p) with
  | error e =>
    rw [replace_eq, hcreate]
    exact .head (.unopened e) (steps_giveUp _ p (.io e) fs)
  | ok made =>
    obtain ⟨made, q⟩ := made
    have hopened : Step (temporary host fs p) p (.opening pieces, fs) (.writing q [] pieces,
        made) := .opened hcreate
    have hwritten := steps_content (temporary host fs p) p fs q [] pieces
    rw [replace_of_createFile hcreate]
    obtain ⟨-, -, -, -, -, -, rfl⟩ := createFile_spec hcreate
    refine .head hopened ?_
    cases hcontent : content pieces with
    | error cause =>
      rw [hcontent] at hwritten
      obtain ⟨left, hsteps⟩ := hwritten
      have hgave := steps_giveUp (temporary host fs p) p cause (fs.put q (.file left))
      rw [giveUp_of_createFile hcreate] at hgave
      exact hsteps.trans hgave
    | ok bytes =>
      rw [hcontent] at hwritten
      refine .trans hwritten ?_
      dsimp only
      cases hmove : (fs.put q (.file bytes)).moveFile q bytes p with
      | ok moved => exact .single (.moved hmove)
      | error e => exact .single (.unmoved e)

end Replacing

open Replacing in
/-- A file is replaced as a whole or not at all, whichever step fails. Once that is done, the path
holds all pieces, and the temporary file is gone. At any time before, and after a failure, the path
and all files hold what they held. -/
theorem replace_allOrNothing (host : Host) (p : Path) (pieces : List (Except Cause Bytes))
    (fs : FileSystem) (htag : '/' ∉ (host.tag fs p).toList)
    (hunused : fs.get? (fs.place (temporary host fs p)) = none) :
    Relation.ReflTransGen (Step (temporary host fs p) p) (.opening pieces, fs)
      (.ended (replace host p pieces fs).1, (replace host p pieces fs).2) ∧
    ∀ stage fs', Relation.ReflTransGen (Step (temporary host fs p) p) (.opening pieces,
      fs) (stage, fs') →
      (stage = .ended (.ok ()) →
        (∃ chunks : List Bytes, pieces = chunks.map .ok ∧ fs'.read p = .ok chunks.flatten) ∧
        fs'.get? (fs.place (temporary host fs p)) = none ∧
        (∀ q, q ≠ fs.place p → fs'.get? q = fs.get? q) ∧
        ∀ file content, fs.place file ≠ fs.place p → fs.read file = .ok content →
        fs'.read file = .ok content) ∧
      (stage ≠ .ended (.ok ()) →
        fs'.get? (fs.place p) = fs.get? (fs.place p) ∧
        (∀ q, q ≠ fs.place (temporary host fs p) → fs'.get? q = fs.get? q) ∧
        ∀ file content, fs.read file = .ok content → fs'.read file = .ok content) := by
  have hne : fs.place (temporary host fs p) ≠ fs.place p := place_temporary_ne htag
  refine ⟨steps_replace host p pieces fs, fun stage fs' hsteps => ⟨?_, fun hstage => ?_⟩⟩
  · rintro rfl
    obtain ⟨chunks, hpieces, hstored⟩ := kept_of_steps hsteps
    have hget : ∀ q, q ≠ fs.place p → fs'.get? q = fs.get? q := fun q hq =>
      hstored.changes.get?_eq hq fun _ => Set.notMem_empty _
    refine ⟨⟨chunks, hpieces, hstored.read⟩, by rw [hget _ hne, hunused], hget, ?_⟩
    exact fun file content hfile hread => hstored.changes.read_of_not_mem hfile hread
  · have hchanges : Changes ∅ {x | x.1 = fs.place (temporary host fs p)} fs fs' :=
      changes_of_steps hunused hsteps hstage
    have hget : ∀ q, q ≠ fs.place (temporary host fs p) → fs'.get? q = fs.get? q := fun q hq =>
      hchanges.get?_eq (Set.notMem_empty _) fun _ => hq
    exact ⟨hget _ hne.symm, hget,
      fun file content hread => hchanges.read_of_not_mem (Set.notMem_empty _) hread⟩

/-- A directory with a file in it. -/
def shelf : FileSystem where
  workingDirectory := []
  entries := [(["d".toList], .directory), (["d".toList, "f".toList], .file [1])]

/-- A file keeps its content if the source of the new one breaks. -/
theorem replace_allOrNothing_broken :
    (replace ⟨"", fun _ _ => "0"⟩ ⟨"/d/f"⟩ [.ok [2], .error (.broken "broken source")] shelf).1 =
      .error { cause := .broken "broken source" } ∧
    (replace ⟨"", fun _ _ => "0"⟩ ⟨"/d/f"⟩ [.ok [2], .error (.broken "broken source")] shelf).2.read
      ⟨"/d/f"⟩ = .ok [1] := by
  have hfailed :
      (replace ⟨"", fun _ _ => "0"⟩ ⟨"/d/f"⟩ [.ok [2], .error (.broken "broken source")] shelf).1 =
      .error { cause := .broken "broken source" } := by decide +kernel
  have hbefore : shelf.read ⟨"/d/f"⟩ = .ok [1] := by decide +kernel
  obtain ⟨hsteps, hkept⟩ := replace_allOrNothing ⟨"", fun _ _ => "0"⟩ ⟨"/d/f"⟩
    [.ok [2], .error (.broken "broken source")] shelf (by decide) (by decide +kernel)
  have hnot : Replacing.Stage.ended
      (replace ⟨"", fun _ _ => "0"⟩ ⟨"/d/f"⟩ [.ok [2], .error (.broken "broken source")] shelf).1 ≠
      .ended (.ok ()) := by
    rw [hfailed]
    simp
  exact ⟨hfailed, ((hkept _ _ hsteps).2 hnot).2.2 _ _ hbefore⟩

end FeatureDepot.Disk
