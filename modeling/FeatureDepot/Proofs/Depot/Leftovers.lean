import FeatureDepot.Proofs.Depot.Checksums

/-! Temporary files that are left behind. An action that starts where there are none leaves one
behind if and only if the new content is complete and cannot be moved to its path; whatever else
fails, the temporary file is removed. -/
namespace FeatureDepot
open FileSystem FeatureDepot.Path

/-- A random tag: hexadecimal digits, with dashes between five groups of them. -/
def Host.isTag (cs : List Char) : Bool :=
  (cs.all fun c => c == '-' || c.isDigit || ('a' ≤ c && c ≤ 'f')) &&
    (cs.splitOn '-').map List.length == [8, 4, 4, 4, 12]

/-- Temporary files get names with random tags. -/
def Host.Tagged (host : Host) : Prop := ∀ fs p, isTag (host.tag fs p).toList

theorem Host.not_mem_of_isTag {tag : List Char} (h : isTag tag) : '/' ∉ tag := by
  intro hmem
  rw [isTag, Bool.and_eq_true] at h
  have hslash := List.all_eq_true.mp h.1 _ hmem
  revert hslash
  decide

namespace FileSystem

variable {fs fs' : FileSystem} {p : Path} {q : Place} {name : Segment} {bytes : Bytes}
  {files : Set Place} {new : Set (Place × Entry)}

/-- The names of temporary files. -/
def IsTemporary (name : Segment) : Prop :=
  ∃ front tag, Host.isTag tag ∧ name = '.' :: front ++ '.' :: tag ++ ".writing".toList

/-- No file has the name of a temporary one. -/
def Tidy (fs : FileSystem) : Prop :=
  ∀ q name content, fs.get? q = some (.file content) → q.getLast? = some name → ¬ IsTemporary name

/-- A path at which a temporary file could be meant. -/
def NamesTemporary (p : Path) : Prop := ∃ name, p.leaf? = some name ∧ IsTemporary name

/-- A path that a file can be moved to: it names something in a directory, and no directory. -/
def Takes (fs : FileSystem) (p : Path) : Prop :=
  ∃ directory name, fs.Names p directory name ∧ Text.size name ≤ maxName ∧
  fs.get? (directory ++ [name]) ≠ some .directory

lemma Tidy.of_changes (h : fs.Tidy) (hchanges : Changes files new fs fs')
    (hfiles : ∀ q ∈ files, ∀ name, q.getLast? = some name → ¬ IsTemporary name)
    (hnew : ∀ q content, (q, .file content) ∉ new) : fs'.Tidy := by
  intro q name content hq hname
  rcases hchanges.get? q with heq | ⟨hmem, -⟩ | ⟨-, entry, hentry, hmem⟩
  · exact h q name content (heq ▸ hq) hname
  · exact hfiles q hmem name hname
  · obtain rfl := Option.some.inj (hentry.symm.trans hq)
    exact absurd hmem (hnew q content)

lemma Tidy.take (h : fs.Tidy) (hne : q ≠ []) : (fs.take q).Tidy := by
  intro r name content hr hname
  rw [get?_take _ _ hne] at hr
  split at hr
  next => cases hr
  next => exact h r name content hr hname

lemma not_tidy (hq : fs.get? q = some (.file bytes)) (hname : q.getLast? = some name)
    (h : IsTemporary name) :
    ¬ fs.Tidy := fun htidy => htidy q name bytes hq hname h

lemma tidy_of_entries
    (h : ∀ e ∈ fs.entries, ∀ name, e.1.getLast? = some name → ¬ ".writing".toList <:+ name) :
    fs.Tidy := by
  rintro q name content hq hname ⟨front, tag, -, hwriting⟩
  exact h _ (FileSystem.mem_entries_of_get?_file hq) name hname ⟨_, hwriting.symm⟩

/-- A file that is stored is one that could be meant as temporary, or all stays tidy. -/
theorem Stored.not_tidy_iff (h : Stored p bytes ∅ fs fs') (htidy : fs.Tidy) :
    ¬ fs'.Tidy ↔ NamesTemporary p := by
  obtain ⟨name, hleaf⟩ := h.leaf
  have hlast : (fs.place p).getLast? = some name := getLast?_place hleaf
  constructor
  · intro hnot
    by_contra hnames
    refine hnot (htidy.of_changes h.changes ?_ fun _ _ => Set.notMem_empty _)
    rintro q rfl other hother
    obtain rfl := Option.some.inj (hlast.symm.trans hother)
    exact fun htemporary => hnames ⟨name, hleaf, htemporary⟩
  · rintro ⟨other, hother, htemporary⟩
    obtain rfl := Option.some.inj (hleaf.symm.trans hother)
    exact not_tidy h.get? hlast htemporary

/-- A file that is not there yet can be moved where the path takes one. -/
theorem moveFile_put_iff (hne : q ≠ []) (hnone : fs.get? q = none) (bytes : Bytes) :
    (∃ moved, (fs.put q (.file bytes)).moveFile q bytes p = .ok moved) ↔ fs.Takes p := by
  have hdirectory : ∀ r, (fs.put q (.file bytes)).get? r = some .directory ↔
      fs.get? r = some .directory := by
    intro r
    rw [get?_put _ _ _ hne]
    split
    next hr => simp [hr, hnone]
    next => rfl
  constructor
  · rintro ⟨moved, hmove⟩
    obtain ⟨directory, name, hnames, hsize, hnot, -⟩ := moveFile_spec hmove
    exact ⟨directory, name, hnames.mono rfl fun r => (hdirectory r).mp, hsize,
      fun h => hnot ((hdirectory _).mpr h)⟩
  · rintro ⟨directory, name, hnames, hsize, hnot⟩
    have hput : (fs.put q (.file bytes)).Names p directory name :=
      hnames.mono rfl fun r => (hdirectory r).mpr
    exact ⟨_, hput.moveFile hsize (fun h => hnot ((hdirectory _).mp h)) q bytes⟩

end FileSystem

namespace Disk

variable {host : Host} {p : Path} {pieces : List (Except Cause Bytes)} {fs fs' : FileSystem}

/-- Where replacing a file leaves its temporary file behind: the content is complete, the temporary
file can be made, and the path does not take it. -/
def Leaves (host : Host) (p : Path) (pieces : List (Except Cause Bytes)) (fs : FileSystem) : Prop :=
  (∃ bytes, content pieces = .ok bytes) ∧
  (∃ made, fs.createFile (temporary host fs p) = .ok made) ∧ ¬ fs.Takes p

lemma isTemporary_temporaryName (htag : host.Tagged) (fs : FileSystem) (p : Path) :
    IsTemporary (temporaryName host fs p) := ⟨_, _, htag fs p, rfl⟩

theorem getLast?_place_temporary_of_tagged (htag : host.Tagged) :
    (fs.place (temporary host fs p)).getLast? = some (temporaryName host fs p) :=
  getLast?_place_temporary (Host.not_mem_of_isTag (htag fs p))

lemma giveUp_of_tidy (htag : host.Tagged) (h : fs.Tidy) (cause : Cause) :
    (giveUp (temporary host fs p) cause fs).2 = fs := by
  rw [giveUp_eq]
  split
  next removed hremove =>
    obtain ⟨directory, name, content, hnames, hfile, -⟩ := removeFile_spec hremove
    rw [← hnames.place_eq] at hfile
    exact absurd h (not_tidy hfile (getLast?_place_temporary_of_tagged htag)
      (isTemporary_temporaryName htag fs p))
  next => rfl

/-- What is left behind when a file is replaced. -/
theorem replace_not_tidy_iff (htag : host.Tagged) (h : fs.Tidy) (p : Path)
    (pieces : List (Except Cause Bytes)) :
    ¬ (replace host p pieces fs).2.Tidy ↔
      Leaves host p pieces fs ∨ (replace host p pieces fs).1 = .ok () ∧ NamesTemporary p := by
  cases hcreate : fs.createFile (temporary host fs p) with
  | error e =>
    have hreplace : replace host p pieces fs = giveUp (temporary host fs p) (.io e) fs := by
      rw [replace_eq, hcreate]
    have hnot : ¬ Leaves host p pieces fs := by
      rintro ⟨-, ⟨made, hmade⟩, -⟩
      rw [hcreate] at hmade
      cases hmade
    have hfailed : (giveUp (temporary host fs p) (.io e) fs).1 ≠ .ok () := by
      intro hok
      exact giveUp_ne_ok _ _ (Prod.ext hok rfl)
    rw [hreplace, giveUp_of_tidy htag h]
    simp [h, hnot, hfailed]
  | ok made =>
    obtain ⟨made, q⟩ := made
    obtain ⟨directory, name, hnames, -, hq, hnone, rfl⟩ := createFile_spec hcreate
    have hne : q ≠ [] := by simp [hq]
    have hlast : q.getLast? = some (temporaryName host fs p) := by
      rw [hq, ← hnames.place_eq]
      exact getLast?_place_temporary_of_tagged htag
    have hreplace := replace_of_createFile hcreate pieces
    cases hcontent : content pieces with
    | error cause =>
      have hnot : ¬ Leaves host p pieces fs := by
        rintro ⟨⟨bytes, hbytes⟩, -⟩
        rw [hcontent] at hbytes
        cases hbytes
      rw [hcontent] at hreplace
      rw [hreplace]
      simp [h.take hne, hnot]
    | ok bytes =>
      have hleaves : Leaves host p pieces fs ↔ ¬ fs.Takes p :=
        ⟨fun h => h.2.2, fun htakes => ⟨⟨bytes, hcontent⟩, ⟨_, hcreate⟩, htakes⟩⟩
      rw [hcontent] at hreplace
      dsimp only at hreplace
      rw [hleaves, ← moveFile_put_iff hne hnone bytes, hreplace]
      cases hmove : (fs.put q (.file bytes)).moveFile q bytes p with
      | ok moved => simp [(stored_of_moveFile hne hnone hmove).not_tidy_iff h]
      | error e =>
        have hnot : ¬ (fs.put q (.file bytes)).Tidy :=
          not_tidy (by rw [get?_put _ _ _ hne, if_pos rfl]) hlast
            (isTemporary_temporaryName htag fs p)
        simp [hnot]

lemma makeRoom_tidy (h : fs.Tidy) (p : Path) : (makeRoom p fs).2.Tidy := by
  refine h.of_changes (makeRoom_changes p fs) (fun q hq => absurd hq (Set.notMem_empty q)) ?_
  rintro q content ⟨hdirectory, -⟩
  cases hdirectory

/-- What is left behind when the directories for a file are made first. -/
theorem makeRoom_replace_not_tidy_iff (htag : host.Tagged) (h : fs.Tidy) (p : Path)
    (pieces : List (Except Cause Bytes)) :
    ¬ ((makeRoom p >>= fun _ => replace host p pieces) fs).2.Tidy ↔
      (∃ made, makeRoom p fs = (.ok (), made) ∧ Leaves host p pieces made) ∨
      ((makeRoom p >>= fun _ => replace host p pieces) fs).1 = .ok () ∧ NamesTemporary p := by
  have hmade := makeRoom_tidy h p
  rw [bind_eq]
  rcases hroom : makeRoom p fs with ⟨failure | _, made⟩
  · rw [hroom] at hmade
    constructor
    · exact fun hnot => absurd hmade hnot
    · rintro (⟨_, hok, -⟩ | ⟨hok, -⟩) <;> cases hok
  · rw [hroom] at hmade
    refine (replace_not_tidy_iff htag hmade p pieces).trans (or_congr_left ?_)
    constructor
    · exact fun hleaves => ⟨made, rfl, hleaves⟩
    · rintro ⟨other, hother, hleaves⟩
      cases hother
      exact hleaves

lemma copy_not_tidy_iff (htag : host.Tagged) (h : fs.Tidy) (source p : Path) :
    ¬ (copy host source p fs).2.Tidy ↔
      (∃ opened made, fs.openFile source = .ok opened ∧ makeRoom p fs = (.ok (), made) ∧
        Leaves host p (opened.map (·.mapError .io)) made) ∨
      (copy host source p fs).1 = .ok () ∧ NamesTemporary p := by
  cases hopen : fs.openFile source with
  | error e =>
    have hcopy : copy host source p fs = (.error { cause := .io e }, fs) := by
      unfold copy
      rw [bind_eq, look_eq, hopen]
      rfl
    rw [hcopy]
    constructor
    · exact fun hnot => absurd h hnot
    · rintro (⟨_, _, hok, -⟩ | ⟨hok, -⟩) <;> cases hok
  | ok opened =>
    have hcopy : copy host source p fs =
        (makeRoom p >>= fun _ => replace host p (opened.map (·.mapError .io))) fs := by
      unfold copy
      rw [bind_eq, look_eq, hopen]
      rfl
    rw [hcopy, makeRoom_replace_not_tidy_iff htag h p (opened.map (·.mapError .io))]
    simp

/-- Whatever step fails before a file is moved, removing the temporary file leaves nothing
behind. -/
theorem giveUp_of_steps (htag : host.Tagged) (h : fs.Tidy) {cause : Cause}
    (hsteps : Relation.ReflTransGen (Replacing.Step (temporary host fs p) p) (.opening pieces, fs)
      (.failing cause, fs')) :
    (giveUp (temporary host fs p) cause fs').2.Tidy := by
  rcases Replacing.kept_of_steps hsteps with rfl | ⟨q, left, ⟨made, hmade⟩, rfl⟩
  · rwa [giveUp_of_tidy htag h]
  · rw [giveUp_of_createFile hmade]
    obtain ⟨directory, name, -, -, rfl, -⟩ := createFile_spec hmade
    exact h.take (by simp)

end Disk

namespace ChecksumFile
open Disk

variable {host : Host} {f : Path} {fs : FileSystem}

lemma not_namesTemporary_path (f : Path) (kind : ChecksumKind) :
    ¬ NamesTemporary (path f kind) := by
  rintro ⟨name, hleaf, front, tag, -, hname⟩
  obtain ⟨-, before, hbefore⟩ := leaf?_eq_some_iff.mp hleaf
  obtain ⟨start, last, hsegments⟩ :=
    List.eq_nil_or_concat f.segments |>.resolve_left (List.splitOn_ne_nil _ _)
  rw [List.concat_eq_append] at hsegments
  unfold path at hbefore
  rw [segments_extend hsegments (by rw [kind.toList_suffix]; exact kind.not_mem_suffix),
    kind.toList_suffix] at hbefore
  obtain ⟨-, hsame⟩ := List.append_inj' hbefore rfl
  -- A checksum file ends in a digit.
  have hwriting : name.getLast? = some 'g' := by
    rw [hname, List.getLast?_append_of_ne_nil _ (by decide)]
    rfl
  rw [← List.singleton_inj.mp hsame,
    List.getLast?_append_of_ne_nil _ (by cases kind <;> decide)] at hwriting
  cases kind <;> cases hwriting

/-- What a checksum file is written from. -/
def pieces (kind : ChecksumKind) (content : Bytes) : List (Except Cause Bytes) :=
  [.ok (Bytes.encode (kind.checksum content))]

lemma replace_path_not_tidy_iff (htag : host.Tagged) (h : fs.Tidy) (f : Path) (kind : ChecksumKind)
    (contents : List (Except Cause Bytes)) :
    ¬ (replace host (path f kind) contents fs).2.Tidy ↔ Leaves host (path f kind) contents fs := by
  rw [replace_not_tidy_iff htag h]
  exact or_iff_left fun hown => not_namesTemporary_path f kind hown.2

lemma writeAll_not_tidy_iff (htag : host.Tagged) (h : fs.Tidy) (f : Path) :
    ¬ (writeAll host f fs).2.Tidy ↔ ∃ content, fs.read f = .ok content ∧
      (Leaves host (path f .md5) (pieces .md5 content) fs ∨
        ∃ half, replace host (path f .md5) (pieces .md5 content) fs = (.ok (), half) ∧
          Leaves host (path f .sha1) (pieces .sha1 content) half) := by
  cases hread : fs.read f with
  | error e =>
    have hwrite : writeAll host f fs = (.error { cause := .io e }, fs) := by
      rw [writeAll_eq, bind_eq, look_eq, hread]
      rfl
    rw [hwrite]
    constructor
    · exact fun hnot => absurd h hnot
    · rintro ⟨_, hok, -⟩
      cases hok
  | ok content =>
    have hwrite : writeAll host f fs = (do
        replace host (path f .md5) (pieces .md5 content)
        replace host (path f .sha1) (pieces .sha1 content)
        return [path f .md5, path f .sha1]) fs := by
      rw [writeAll_eq, bind_eq, look_eq, hread]
      rfl
    have hfirst := replace_path_not_tidy_iff htag h f .md5 (pieces .md5 content)
    simp only [Except.ok.injEq, exists_eq_left']
    rw [hwrite, bind_eq]
    rcases hmd5 : replace host (path f .md5) (pieces .md5 content) fs with ⟨failure | _, half⟩
    · rw [hmd5] at hfirst
      refine hfirst.trans (or_iff_left ?_).symm
      rintro ⟨_, hok, -⟩
      cases hok
    · rw [hmd5] at hfirst
      obtain ⟨_, -, hstored⟩ := replace_stored hmd5
      have hhalf : half.Tidy := not_not.mp fun hnot =>
        not_namesTemporary_path f .md5 ((hstored.not_tidy_iff h).mp hnot)
      have hnone : ¬ Leaves host (path f .md5) (pieces .md5 content) fs :=
        fun hleaves => hfirst.mpr hleaves hhalf
      have hsecond := replace_path_not_tidy_iff htag hhalf f .sha1 (pieces .sha1 content)
      dsimp only
      rw [bind_return_snd, hsecond]
      constructor
      · exact fun hleaves => .inr ⟨half, rfl, hleaves⟩
      · rintro (hleaves | ⟨_, hok, hleaves⟩)
        · exact absurd hleaves hnone
        · cases hok
          exact hleaves

end ChecksumFile

namespace Disk
open ChecksumFile

/-- When temporary files are left behind where there were none. Replacing a file leaves one if the
new content is complete and the path does not take it, and so does what replaces files: copying, and
writing documents and checksums. Whatever fails before the file is moved, nothing is left of it. A
path that is itself named like a temporary file counts as one once it is written. -/
theorem not_tidy_iff_leaves (host : Host) (htag : host.Tagged) (fs : FileSystem) (h : fs.Tidy)
    (p : Path) :
    (∀ pieces, ¬ (replace host p pieces fs).2.Tidy ↔
      Leaves host p pieces fs ∨ (replace host p pieces fs).1 = .ok () ∧ NamesTemporary p) ∧
    (∀ source, ¬ (copy host source p fs).2.Tidy ↔
      (∃ opened made, fs.openFile source = .ok opened ∧ makeRoom p fs = (.ok (), made) ∧
        Leaves host p (opened.map (·.mapError .io)) made) ∨
      (copy host source p fs).1 = .ok () ∧ NamesTemporary p) ∧
    (∀ m : Metadata, ¬ (Metadata.write host p m fs).2.Tidy ↔
      (∃ made, makeRoom p fs = (.ok (), made) ∧ Leaves host p [.ok (Bytes.encode m.render)] made) ∨
      (Metadata.write host p m fs).1 = .ok () ∧ NamesTemporary p) ∧
    (¬ (writeAll host p fs).2.Tidy ↔ ∃ content, fs.read p = .ok content ∧
      (Leaves host (path p .md5) (pieces .md5 content) fs ∨
        ∃ half, replace host (path p .md5) (pieces .md5 content) fs = (.ok (), half) ∧
          Leaves host (path p .sha1) (pieces .sha1 content) half)) ∧
    ∀ pieces cause fs',
      Relation.ReflTransGen (Replacing.Step (temporary host fs p) p) (.opening pieces, fs)
        (.failing cause, fs') → (giveUp (temporary host fs p) cause fs').2.Tidy :=
  ⟨replace_not_tidy_iff htag h p, fun source => copy_not_tidy_iff htag h source p,
    fun m => makeRoom_replace_not_tidy_iff htag h p [.ok (Bytes.encode m.render)],
    writeAll_not_tidy_iff htag h p, fun _ _ _ hsteps => giveUp_of_steps htag h hsteps⟩

/-- A host with one tag. -/
def plainHost : Host := ⟨"", fun _ _ => "00000000-0000-4000-8000-000000000000"⟩

theorem tagged_plainHost : plainHost.Tagged := by
  have htag : Host.isTag "00000000-0000-4000-8000-000000000000".toList := by decide +kernel
  exact fun _ _ => htag

lemma tidy_shelf : shelf.Tidy := by
  refine tidy_of_entries fun e he name hname => ?_
  simp only [shelf, List.mem_cons, List.not_mem_nil, or_false] at he
  rcases he with rfl | rfl
  · obtain rfl := Option.some.inj hname
    decide
  · obtain rfl := Option.some.inj hname
    decide

/-- A path with a slash at its end takes no file; a source that breaks leaves nothing behind. -/
theorem not_tidy_iff_leaves_slash :
    ¬ (replace plainHost ⟨"/d/g/"⟩ [.ok [2]] shelf).2.Tidy ∧
    (replace plainHost ⟨"/d/f"⟩ [.ok [2], .error (.broken "broken source")] shelf).2.Tidy := by
  constructor
  · refine ((not_tidy_iff_leaves plainHost tagged_plainHost shelf tidy_shelf ⟨"/d/g/"⟩).1 _).mpr
      (.inl ⟨⟨[2], rfl⟩, ?_, ?_⟩)
    · have hcreate :
          (shelf.createFile (temporary plainHost shelf ⟨"/d/g/"⟩)).toOption.isSome = true := by
        decide +kernel
      cases h : shelf.createFile (temporary plainHost shelf ⟨"/d/g/"⟩) with
      | ok made => exact ⟨made, rfl⟩
      | error e =>
        rw [h] at hcreate
        cases hcreate
    · rintro ⟨directory, name, hnames, -⟩
      have hnone : (Path.mk "/d/g/").leaf? = none := by decide +kernel
      have hleaf := hnames.leaf?
      rw [hnone] at hleaf
      cases hleaf
  · by_contra hnot
    have hfailed :
        (replace plainHost ⟨"/d/f"⟩ [.ok [2], .error (.broken "broken source")] shelf).1 ≠
          .ok () := by decide +kernel
    have hleaves :=
      ((not_tidy_iff_leaves plainHost tagged_plainHost shelf tidy_shelf ⟨"/d/f"⟩).1 _).mp hnot
    rcases hleaves with ⟨⟨bytes, hbytes⟩, -⟩ | ⟨hok, -⟩
    · cases hbytes
    · exact hfailed hok

/-- A directory is in the way of the new file, and the temporary one is left behind. -/
theorem not_tidy_replace_directory :
    shelf.Tidy ∧ (replace plainHost ⟨"/d"⟩ [.ok [2]] shelf).1 =
      .error { cause := .io .isADirectory } ∧
    ¬ (replace plainHost ⟨"/d"⟩ [.ok [2]] shelf).2.Tidy := by
  have hleft : (replace plainHost ⟨"/d"⟩ [.ok [2]] shelf).2.get?
      [".d.00000000-0000-4000-8000-000000000000.writing".toList] = some (.file [2]) := by
        decide +kernel
  have htemporary : IsTemporary ".d.00000000-0000-4000-8000-000000000000.writing".toList :=
    ⟨"d".toList, "00000000-0000-4000-8000-000000000000".toList,
      by decide +kernel, by decide +kernel⟩
  exact ⟨tidy_shelf, by decide +kernel, not_tidy hleft rfl htemporary⟩

end Disk
end FeatureDepot
