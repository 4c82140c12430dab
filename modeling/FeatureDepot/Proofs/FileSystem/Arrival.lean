import FeatureDepot.Proofs.Depot.Leftovers
import FeatureDepot.Proofs.FileSystem.Lineage

/-! Replacing a file whose directories are there. Whether a temporary file can be made beside it is
settled by its path, since all random tags are of one length; and whether it is moved, by what is at
its place. -/
namespace FeatureDepot
open FeatureDepot.Path

namespace Path

variable {p directory : Path} {front tail : List Segment} {name s : Segment} {w q : Place}

/-- A path cut at its last name, behind which it leads nowhere. -/
structure Parted (p : Path) (front : List Segment) (name : Segment) (tail : List Segment) :
    Prop where
  segments : p.segments = front ++ name :: tail
  isName : IsName name
  idle : ∀ s ∈ tail, isIdle s

lemma trim_append_of_isIdle (hs : isIdle s = false) (h : ∀ s ∈ tail, isIdle s)
    (front : List Segment) :
    trim (front ++ s :: tail) = front ++ [s] := by
  have hdrop : (front ++ s :: tail).reverse.dropWhile isIdle = s :: front.reverse := by
    rw [List.reverse_append, List.reverse_cons, List.append_assoc, List.singleton_append,
      List.dropWhile_append_of_pos fun t ht => h t (List.mem_reverse.mp ht),
      List.dropWhile_cons_of_neg (by simp [hs])]
  unfold trim
  rw [hdrop, List.reverse_cons, List.reverse_reverse]
  cases hfront : front ++ [s] with
  | nil => simp at hfront
  | cons t rest => rfl

namespace Parted

lemma trim_segments (h : p.Parted front name tail) : trim p.segments = front ++ [name] := by
  rw [h.segments, trim_append_of_isIdle h.isName.2.1 h.idle]

theorem fileName? (h : p.Parted front name tail) : p.fileName? = some (String.ofList name) := by
  have hdot : name ≠ ['.'] := by
    rintro rfl
    simpa [isIdle] using h.isName.2.1
  simp [Path.fileName?, h.trim_segments, hdot, h.isName.2.2]

theorem place_eq (h : p.Parted front name tail) (w : Place) :
    p.place w = front.foldl enter (if p.isAbsolute then [] else w) ++ [name] := by
  unfold place
  rw [h.segments, List.foldl_append, List.foldl_cons, enter_of_isName _ h.isName,
    foldl_enter_of_isIdle h.idle]

lemma leaf?_eq_some_iff (h : p.Parted front name tail) :
    p.leaf? = some s ↔ tail = [] ∧ s = name := by
  rw [Path.leaf?_eq_some_iff]
  constructor
  · rintro ⟨hs, before, hbefore⟩
    rw [h.segments] at hbefore
    rcases List.eq_nil_or_concat tail with rfl | ⟨tail, t, rfl⟩
    · exact ⟨rfl, (List.singleton_inj.mp (List.append_inj' hbefore rfl).2).symm⟩
    · rw [List.concat_eq_append, ← List.cons_append, ← List.append_assoc] at hbefore
      obtain rfl := List.singleton_inj.mp (List.append_inj' hbefore rfl).2
      have hidle := h.idle t (by simp)
      rw [hs.2.1] at hidle
      cases hidle
  · rintro ⟨rfl, rfl⟩
    exact ⟨h.isName, front, h.segments⟩

/-- The path of the directory that holds a path. -/
theorem parent? (h : p.Parted front name tail) : p.parent? =
    some (if trim front = [] then ⟨if p.isAbsolute then "/" else ""⟩
      else ofSegments (trim front)) :=
  parent?_of_trim h.trim_segments

/-- The directory that holds a path is reached as the path leads to it. -/
theorem directory_segments (h : p.Parted front name tail) (hd : p.parent? = some directory) :
    directory.isAbsolute = p.isAbsolute ∧ (directory.segments = trim front ∨
      ((∀ s ∈ directory.segments, isIdle s) ∧ ∀ s ∈ front, isIdle s)) :=
  parent?_segments h.trim_segments hd

theorem place_directory (h : p.Parted front name tail) (hd : p.parent? = some directory)
    (w : Place) :
    p.place w = directory.place w ++ [name] := by
  rw [place_parent?_enter h.trim_segments hd, enter_of_isName _ h.isName]

/-- On the way to a path, the same places are passed as on the way to its directory. -/
theorem mem_visits_directory (h : p.Parted front name tail) (hd : p.parent? = some directory) :
    q ∈ FileSystem.visits w directory.segments ↔ q ∈ FileSystem.visits w front := by
  rcases (h.directory_segments hd).2 with hsegments | ⟨hidle, hfront⟩
  · rw [hsegments, FileSystem.mem_visits_trim]
  · rw [FileSystem.mem_visits_of_isIdle hidle, FileSystem.mem_visits_of_isIdle hfront]

end Parted

end Path

namespace Host

/-- A tag like all random ones. -/
def someTag : Segment := "00000000-0000-4000-8000-000000000000".toList

lemma isTag_someTag : isTag someTag := by decide +kernel

lemma size_of_isTag {tag : Segment} (h : isTag tag) : Text.size tag = 36 := by
  rw [isTag, Bool.and_eq_true, beq_iff_eq] at h
  obtain ⟨hall, hparts⟩ := h
  have hlength : tag.length = 36 := by
    obtain ⟨a, b, c, d, e, hsplit⟩ : ∃ a b c d e, tag.splitOn '-' = [a, b, c, d, e] := by
      rcases hsplit : tag.splitOn '-' with _ | ⟨a,
        _ | ⟨b, _ | ⟨c, _ | ⟨d, _ | ⟨e, _ | ⟨f, rest⟩⟩⟩⟩⟩⟩ <;> simp_all
    rw [hsplit] at hparts
    have htag : ['-'].intercalate (tag.splitOn '-') = tag := List.intercalate_splitOn '-'
    rw [hsplit] at htag
    rw [← htag]
    simp only [List.map_cons, List.map_nil, List.cons.injEq] at hparts
    simp [List.intercalate_cons_cons]
    omega
  have hsize : ∀ cs : Segment, (∀ c ∈ cs, c == '-' || c.isDigit || ('a' ≤ c && c ≤ 'f')) →
      Text.size cs = cs.length := by
    intro cs hcs
    induction cs with
    | nil => rfl
    | cons c cs ih =>
      have hone : c.utf8Size = 1 := by
        have hc : c = '-' ∨ c.isDigit ∨ ('a' ≤ c ∧ c ≤ 'f') := by
          simpa [or_assoc] using hcs c List.mem_cons_self
        have hval : c.val ≤ 0x7f := by
          rcases hc with rfl | hdigit | ⟨-, hletter⟩
          · decide
          · unfold Char.isDigit at hdigit
            rw [Bool.and_eq_true, decide_eq_true_eq, decide_eq_true_eq] at hdigit
            exact UInt32.le_trans hdigit.2 (by decide)
          · exact UInt32.le_trans hletter (by decide)
        exact if_pos hval
      have hstep : Text.size (c :: cs) = c.utf8Size + Text.size cs := rfl
      rw [hstep, hone, ih fun d hd => hcs d (List.mem_cons_of_mem _ hd),
        List.length_cons, Nat.add_comm]
  rw [hsize tag (by simpa using hall), hlength]

lemma nul_not_mem_of_isTag {tag : Segment} (h : isTag tag) : '\x00' ∉ tag := by
  intro hmem
  rw [isTag, Bool.and_eq_true] at h
  have hnul := List.all_eq_true.mp h.1 _ hmem
  revert hnul
  decide

end Host

namespace Path
open FileSystem

variable {p directory : Path} {front tail : List Segment} {name s t : Segment}

/-- The name of a temporary file for a name. -/
def temporaryOf (name tag : Segment) : Segment := '.' :: name ++ '.' :: tag ++ ".writing".toList

/-- Whether a temporary file can be made beside a path: neither its name nor the path to it is too
long. -/
def roomy (p : Path) : Bool :=
  match p.fileName?, p.parent? with
  | some name, some directory =>
    decide (Text.size (temporaryOf name.toList Host.someTag) ≤ maxName) &&
      (checkPath (directory.push (String.ofList (temporaryOf name.toList Host.someTag)))).isOk
  | _, _ => false

/-- Whether the text of a path allows to move a file to it: it ends in a name, and can be
followed. -/
def settles (p : Path) : Bool := p.leaf?.isSome && (checkPath p).isOk

lemma size_temporaryOf {tag : Segment} (htag : Host.isTag tag) (name : Segment) :
    Text.size (temporaryOf name tag) = Text.size (temporaryOf name Host.someTag) := by
  have hstep : ∀ tag : Segment, temporaryOf name tag =
      '.' :: name ++ ['.'] ++ tag ++ ".writing".toList := by
    intro tag
    simp [temporaryOf]
  rw [hstep, hstep]
  simp only [size_append, Host.size_of_isTag htag, Host.size_of_isTag Host.isTag_someTag]

/-- Whether a path can be followed does not depend on a name at its end, but for its length. -/
theorem checkPath_push_congr (hs : s ≠ []) (ht : t ≠ []) (hslash : '/' ∉ s) (hslash' : '/' ∉ t)
    (hnul : '\x00' ∈ s ↔ '\x00' ∈ t) (hsize : Text.size s = Text.size t) :
    checkPath (p.push (String.ofList s)) = .ok () ↔
    checkPath (p.push (String.ofList t)) = .ok () := by
  obtain ⟨before, hbefore⟩ : ∃ before : List Char, ∀ u : Segment, '/' ∉ u →
      (p.push (String.ofList u)).text.toList = before ++ u := by
    refine ⟨if p.text.toList.getLast?.all (· == '/') then p.text.toList
      else p.text.toList ++ ['/'], fun u hu => ?_⟩
    have hhead : (String.ofList u).toList.head? ≠ some '/' := by
      rw [String.toList_ofList]
      exact fun h => hu (List.mem_of_mem_head? h)
    unfold push
    rw [if_neg hhead]
    split <;> simp
  rw [checkPath_eq_ok_iff, checkPath_eq_ok_iff, hbefore s hslash, hbefore t hslash', size_append,
    size_append, hsize]
  simp [hs, ht, hnul]

end Path

namespace Disk
open FileSystem

variable {host : Host} {p directory : Path} {front tail : List Segment} {name : Segment}
  {fs : FileSystem} {d : Place} {bytes : Bytes} {pieces : List (Except Cause Bytes)}

theorem temporaryName_of_parted (h : p.Parted front name tail) (host : Host) (fs : FileSystem) :
    temporaryName host fs p = temporaryOf name (host.tag fs p).toList := by
  unfold temporaryName
  rw [h.fileName?, Option.getD_some, String.toList_ofList]
  rfl

theorem temporary_of_parted (h : p.Parted front name tail) (hd : p.parent? = some directory)
    (host : Host) (fs : FileSystem) :
    temporary host fs p = directory.push (String.ofList (temporaryName host fs p)) := by
  rw [temporary_eq]
  unfold withFileName
  rw [h.fileName?, hd]

theorem roomy_iff (fs : FileSystem) (htag : host.Tagged) (h : p.Parted front name tail)
    (hd : p.parent? = some directory) :
    p.roomy ↔ Text.size (temporaryName host fs p) ≤ maxName ∧
    checkPath (temporary host fs p) = .ok () := by
  have hslash := Host.not_mem_of_isTag (htag fs p)
  have hname := isName_temporaryName hslash
  have hname' : '/' ∉ temporaryOf name Host.someTag := by
    have hsome := Host.not_mem_of_isTag Host.isTag_someTag
    have hself := h.isName.1
    simp [temporaryOf, hsome, hself]
  rw [temporary_of_parted h hd, temporaryName_of_parted h] at *
  have hnul : '\x00' ∈ temporaryOf name (host.tag fs p).toList ↔
      '\x00' ∈ temporaryOf name Host.someTag := by
    simp [temporaryOf, Host.nul_not_mem_of_isTag (htag fs p),
      Host.nul_not_mem_of_isTag Host.isTag_someTag]
  have hsize := size_temporaryOf (htag fs p) name
  have hcheck := checkPath_push_congr (p := directory) hname.ne_nil (by simp [temporaryOf]) hname.1
    hname' hnul hsize
  unfold roomy
  rw [h.fileName?, hd]
  dsimp only
  rw [Bool.and_eq_true, decide_eq_true_eq, isOk_iff, String.toList_ofList, hcheck, hsize]

/-- A path whose temporary file cannot be made is left alone. -/
theorem replace_of_not_roomy (htag : host.Tagged) (h : p.Parted front name tail)
    (hd : p.parent? = some directory) (hreaches : fs.Reaches directory d) (hroomy : ¬ p.roomy)
    (pieces : List (Except Cause Bytes)) :
    (replace host p pieces fs).1 ≠ .ok () ∧ (replace host p pieces fs).2 = fs := by
  have hname := isName_temporaryName (Host.not_mem_of_isTag (htag fs p))
  rw [roomy_iff fs htag h hd, not_and_or] at hroomy
  have htemporary := temporary_of_parted h hd host fs
  have hfail : ∃ e e', fs.createFile (temporary host fs p) = .error e ∧
      fs.removeFile (temporary host fs p) = .error e' := by
    cases hcheck : checkPath (temporary host fs p) with
    | error e =>
      have htarget : fs.target (temporary host fs p) = .error e := by
        unfold target
        rw [hcheck]
        rfl
      refine ⟨e, e, ?_, ?_⟩
      · unfold createFile
        rw [htarget]
        rfl
      · unfold removeFile
        rw [htarget]
        rfl
    | ok _ =>
      have hsize : maxName < Text.size (temporaryName host fs p) :=
        Nat.not_le.mp (hroomy.resolve_right (not_not.mpr hcheck))
      have hnames := hreaches.names hname (htemporary ▸ hcheck)
      rw [← htemporary] at hnames
      have hchild : fs.child d (temporaryName host fs p) = .error .nameTooLong := if_pos hsize
      refine ⟨.nameTooLong, .nameTooLong, ?_, ?_⟩
      · unfold createFile
        rw [hnames.target_eq]
        dsimp only [bind, Except.bind]
        rw [hchild]
        rfl
      · unfold removeFile
        rw [hnames.target_eq]
        dsimp only [bind, Except.bind]
        rw [hchild]
  obtain ⟨e, e', hcreate, hremove⟩ := hfail
  rw [replace_eq, hcreate]
  dsimp only
  rw [giveUp_eq, hremove]
  exact ⟨nofun, rfl⟩

/-- A temporary file is made where there is nothing and its name fits. -/
theorem createFile_of_roomy (htag : host.Tagged) (h : p.Parted front name tail)
    (hd : p.parent? = some directory) (hreaches : fs.Reaches directory d) (hroomy : p.roomy)
    (hunused : fs.get? (fs.place (temporary host fs p)) = none) :
    fs.createFile (temporary host fs p) =
      .ok (fs.put (fs.place (temporary host fs p)) (.file []), fs.place (temporary host fs p)) := by
  have hname := isName_temporaryName (Host.not_mem_of_isTag (htag fs p))
  obtain ⟨hsize, hcheck⟩ := (roomy_iff fs htag h hd).mp hroomy
  have htemporary := temporary_of_parted h hd host fs
  have hnames := hreaches.names hname (htemporary ▸ hcheck)
  rw [← htemporary] at hnames
  have hplace := hnames.place_eq
  rw [hplace] at hunused ⊢
  unfold createFile
  rw [hnames.target_eq]
  dsimp only [bind, Except.bind]
  rw [if_neg (by decide), child_eq_notFound_iff.mpr ⟨hsize, hunused⟩]

theorem walk_of_isIdle {segments : List Segment} (hd : fs.get? d = some .directory)
    (h : ∀ s ∈ segments, isIdle s) :
    fs.walk d segments = .ok d := by
  induction segments with
  | nil => rfl
  | cons s segments ih =>
    rw [walk, if_neg (by simp [hd]), if_pos (h s List.mem_cons_self)]
    exact ih fun t ht => h t (List.mem_cons_of_mem _ ht)

theorem stem_trim (h : trim front ≠ []) : stem (trim front) = trim front := by
  rcases trim_cases front with hnil | hdot | ⟨start, s, hstart, hs⟩
  · exact absurd hnil h
  · rw [hdot]
    rfl
  · rw [hstart]
    refine stem_concat start ?_
    rintro rfl
    simp [isIdle] at hs

lemma size_le_of_roomy (h : p.Parted front name tail) (hd : p.parent? = some directory)
    (hroomy : p.roomy) :
    Text.size name ≤ maxName := by
  unfold roomy at hroomy
  rw [h.fileName?, hd] at hroomy
  dsimp only at hroomy
  rw [Bool.and_eq_true, decide_eq_true_eq, String.toList_ofList] at hroomy
  have hsplit : temporaryOf name Host.someTag =
      ['.'] ++ name ++ ('.' :: Host.someTag ++ ".writing".toList) := by
    simp [temporaryOf]
  rw [hsplit, size_append, size_append] at hroomy
  omega

/-- A path takes a file in its directory if its text allows it and there is no directory at its
place. -/
theorem takes_iff (h : p.Parted front name tail) (hd : p.parent? = some directory)
    (hreaches : fs.Reaches directory d) (hroomy : p.roomy) :
    fs.Takes p ↔ p.settles ∧ fs.get? (fs.place p) ≠ some .directory := by
  unfold settles
  rw [Bool.and_eq_true, isOk_iff]
  constructor
  · rintro ⟨inside, other, hnames, -, hnot⟩
    rw [← hnames.place_eq] at hnot
    exact ⟨⟨by rw [hnames.leaf?, Option.isSome_some], hnames.check⟩, hnot⟩
  · rintro ⟨⟨hleaf, hcheck⟩, hnot⟩
    obtain ⟨other, hother⟩ := Option.isSome_iff_exists.mp hleaf
    obtain ⟨rfl, rfl⟩ := h.leaf?_eq_some_iff.mp hother
    obtain ⟨habsolute, hsegments⟩ := h.directory_segments hd
    obtain ⟨hwalk, hdirectory⟩ := hreaches
    have hbase : fs.base directory = fs.base p := by
      unfold base
      rw [habsolute]
    rw [hbase] at hwalk
    have hfront : fs.walk (fs.base p) front = .ok d := by
      rcases hsegments with hsegments | ⟨hidle, hfront⟩
      · have hne : trim front ≠ [] := hsegments ▸ List.splitOn_ne_nil _ _
        obtain ⟨rest, hrest, hsplit⟩ := exists_eq_trim_append front
        rw [hsegments, stem_trim hne] at hwalk
        rw [hsplit, walk_append, hwalk]
        exact walk_of_isIdle hdirectory hrest
      · have hd : d = fs.base p := by
          rw [← foldl_enter_of_walk hwalk, foldl_enter_stem, foldl_enter_of_isIdle hidle]
        rw [hd] at hdirectory ⊢
        exact walk_of_isIdle hdirectory hfront
    have hnames : fs.Names p d other := ⟨hcheck, ⟨front, h.segments, hfront⟩, hdirectory, h.isName⟩
    rw [hnames.place_eq] at hnot
    exact ⟨d, other, hnames, size_le_of_roomy h hd hroomy, hnot⟩

/-! What a path with room for a temporary file is replaced to. -/

section Roomy

variable (htag : host.Tagged) (h : p.Parted front name tail) (hd : p.parent? = some directory)
  (hreaches : fs.Reaches directory d) (hroomy : p.roomy)
  (hunused : fs.get? (fs.place (temporary host fs p)) = none)

include htag h hd hreaches hroomy hunused

/-- Broken content leaves nothing behind. -/
theorem replace_of_broken {cause : Cause} (hcontent : content pieces = .error cause) :
    (replace host p pieces fs).1 ≠ .ok () ∧
      (replace host p pieces fs).2.workingDirectory = fs.workingDirectory ∧
      ∀ q, (replace host p pieces fs).2.get? q = fs.get? q := by
  have hreplace :=
    replace_of_createFile (createFile_of_roomy htag h hd hreaches hroomy hunused) pieces
  rw [hcontent] at hreplace
  rw [hreplace]
  have hne := ne_nil_of_none hunused
  refine ⟨nofun, rfl, fun q => ?_⟩
  rw [get?_take _ _ hne]
  split
  next hq => rw [hq, hunused]
  next => rfl

/-- Content that is complete is moved to a path that takes it. -/
theorem replace_of_takes (hcontent : content pieces = .ok bytes) (htakes : fs.Takes p) :
    (replace host p pieces fs).1 = .ok () ∧
      (replace host p pieces fs).2.workingDirectory = fs.workingDirectory ∧
      ∀ q, (replace host p pieces fs).2.get? q = if q = fs.place p then some (.file bytes)
        else fs.get? q := by
  have hcreate := createFile_of_roomy htag h hd hreaches hroomy hunused
  have hne := ne_nil_of_none hunused
  obtain ⟨moved, hmove⟩ := (moveFile_put_iff hne hunused bytes).mpr htakes
  have hreplace := replace_of_createFile hcreate pieces
  rw [hcontent] at hreplace
  dsimp only at hreplace
  rw [hmove] at hreplace
  replace hreplace : replace host p pieces fs = (.ok (), moved) := hreplace
  have hstored := stored_of_moveFile hne hunused hmove
  rw [hreplace]
  refine ⟨rfl, hstored.changes.workingDirectory, fun q => ?_⟩
  split
  next hq => rw [hq, hstored.get?]
  next hq => exact hstored.changes.get?_eq hq fun _ => Set.notMem_empty _

/-- Content that is complete is left in the temporary file if the path does not take it. -/
theorem replace_of_not_takes (hcontent : content pieces = .ok bytes) (htakes : ¬ fs.Takes p) :
    (replace host p pieces fs).1 ≠ .ok () ∧
      (replace host p pieces fs).2 = fs.put (fs.place (temporary host fs p)) (.file bytes) := by
  have hcreate := createFile_of_roomy htag h hd hreaches hroomy hunused
  have hne := ne_nil_of_none hunused
  have hreplace := replace_of_createFile hcreate pieces
  rw [hcontent] at hreplace
  dsimp only at hreplace
  cases hmove : (fs.put (fs.place (temporary host fs p)) (.file bytes)).moveFile
    (fs.place (temporary host fs p)) bytes p with
  | ok moved => exact absurd ((moveFile_put_iff hne hunused bytes).mp ⟨moved, hmove⟩) htakes
  | error e =>
    rw [hmove] at hreplace
    rw [hreplace]
    exact ⟨nofun, rfl⟩

end Roomy

end Disk
end FeatureDepot
