import FeatureDepot.Proofs.Depot.Absence
import FeatureDepot.Proofs.FileSystem.Opening
import FeatureDepot.Proofs.Layout.Destinations

/-! What an item without documents does to a file system: it makes directories, and then either
stores its content, or leaves it in a temporary file, or neither. All this can be told from the file
system at the start of a batch, as long as the items before have kept out of its way. -/
namespace FeatureDepot
open FeatureDepot.Path FileSystem

/-- What became of an item, without the reason of a failure. -/
inductive Fate
  | copied (destination : Path)
  | skipped
  | failed
  deriving DecidableEq, Repr

def Outcome.fate : Outcome → Fate
  | .copied destination => .copied destination
  | .skipped => .skipped
  | .failed _ => .failed

/-- A temporary file that is left behind: the directory it lies in, the name it stands for, and what
it holds. -/
structure Leftover where
  directory : Place
  name : Segment
  content : Bytes
  deriving DecidableEq, Repr

/-- Where a leftover lies, under a random tag. -/
def Leftover.place (l : Leftover) (tag : Segment) : Place := l.directory ++ [temporaryOf l.name tag]

/-- What an item does: the directories it makes if they are missing, and where it stores its content
or leaves it. -/
structure Effect where
  rooms : List Place := []
  stored : Option (Place × Bytes) := none
  left : Option Leftover := none
  deriving DecidableEq, Repr

/-- From one file system to another, an effect took place, with a random tag for what it leaves. -/
structure Effect.Took (e : Effect) (tag : Segment) (fs fs' : FileSystem) : Prop where
  workingDirectory : fs'.workingDirectory = fs.workingDirectory
  sound : fs'.Sound
  stored : ∀ x ∈ e.stored, fs'.get? x.1 = some (.file x.2)
  left : ∀ l ∈ e.left, fs'.get? (l.place tag) = some (.file l.content)
  other (q : Place) : (∀ x ∈ e.stored, q ≠ x.1) → (∀ l ∈ e.left, q ≠ l.place tag) →
    fs'.get? q = if q ∈ e.rooms ∧ fs.get? q = none then some .directory else fs.get? q

lemma FileSystem.Sound.congr {fs fs' : FileSystem} (h : fs.Sound)
    (hworking : fs'.workingDirectory = fs.workingDirectory) (hget : ∀ q, fs'.get? q = fs.get? q) :
    fs'.Sound := by
  refine ⟨by rw [hworking, hget, h.workingDirectory], fun q hq => ?_⟩
  rw [hget] at hq ⊢
  exact h.above q hq

namespace Effect.Took

variable {e : Effect} {tag : Segment} {fs fs' : FileSystem} {q : Place} {entry : Entry}

/-- What is there and is not stored over stays, if what is left lies where nothing is. -/
theorem stays (h : e.Took tag fs fs') (hfree : ∀ l ∈ e.left, fs.get? (l.place tag) = none)
    (hq : fs.get? q = some entry) (hstored : ∀ x ∈ e.stored, q ≠ x.1) :
    fs'.get? q = some entry := by
  rw [h.other q hstored, hq, if_neg (by simp)]
  rintro l hl rfl
  rw [hfree l hl] at hq
  cases hq

/-- A room is a directory then, unless there is a file in its place. -/
theorem room (h : e.Took tag fs fs') (hq : q ∈ e.rooms) (hfile : ¬ fs.isFile q)
    (hstored : ∀ x ∈ e.stored, q ≠ x.1) (hleft : ∀ l ∈ e.left, q ≠ l.place tag) :
    fs'.get? q = some .directory := by
  rw [h.other q hstored hleft]
  rcases hentry : fs.get? q with - | content | -
  · rw [if_pos ⟨hq, rfl⟩]
  · exact absurd (isFile_iff.mpr ⟨content, hentry⟩) hfile
  · rw [if_neg (by simp)]

lemma nothing (hs : fs.Sound) : ({} : Effect).Took tag fs fs :=
  ⟨rfl, hs, by simp, by simp, fun q _ _ => by simp⟩

/-- A file that is put into a directory, after directories were made. -/
theorem file {made : FileSystem} {w : Place} {s : Segment} {bytes : Bytes}
    (hrooms : ({ rooms := e.rooms } : Effect).Took tag fs made)
    (hlies : made.get? w = some .directory) (hfree : made.get? (w ++ [s]) ≠ some .directory)
    (hworking : fs'.workingDirectory = made.workingDirectory)
    (hget : ∀ q, fs'.get? q = if q = w ++ [s] then some (.file bytes) else made.get? q)
    (hstored : ∀ x ∈ e.stored, x = (w ++ [s], bytes))
    (hleft : ∀ l ∈ e.left, l.place tag = w ++ [s] ∧ l.content = bytes)
    (hone : e.stored.isSome ∨ e.left.isSome) :
    e.Took tag fs fs' where
  workingDirectory := hworking.trans hrooms.workingDirectory
  sound := (hrooms.sound.put hlies hfree (.file bytes)).congr hworking fun q => by
    rw [hget, get?_put _ _ _ (by simp)]
  stored x hx := by rw [hstored x hx, hget, if_pos rfl]
  left l hl := by
    obtain ⟨hplace, hcontent⟩ := hleft l hl
    rw [hplace, hcontent, hget, if_pos rfl]
  other q hx hl := by
    have hne : q ≠ w ++ [s] := by
      rcases hone with hone | hone
      · obtain ⟨x, hx'⟩ := Option.isSome_iff_exists.mp hone
        have hq := hx x hx'
        rwa [hstored x hx'] at hq
      · obtain ⟨l, hl'⟩ := Option.isSome_iff_exists.mp hone
        have hq := hl l hl'
        rwa [(hleft l hl').1] at hq
    rw [hget, if_neg hne]
    exact hrooms.other q (by simp) (by simp)

end Effect.Took

namespace Depot

variable {host : Host} {d : Depot} {r : ResolvedArtifact} {fs fs₀ : FileSystem} {source : Path}
  {q : Place} {before tail : List Segment} {name : Segment}

/-- What copying to a path does: nothing but making directories, if they cannot all be made, or no
temporary file, or the content is broken. -/
def arrival (fs : FileSystem) (p : Path) (content : Except Cause Bytes) : Effect :=
  if (fs.ground p).2 ∧ p.roomy then
    match content with
    | .error _ => { rooms := (fs.ground p).1 }
    | .ok bytes =>
      if p.settles ∧ fs.place p ∉ (fs.ground p).1 ∧ fs.get? (fs.place p) ≠ some .directory then
        { rooms := (fs.ground p).1, stored := some (fs.place p, bytes) }
      else { rooms := (fs.ground p).1, left := some ⟨(fs.place p).dropLast,
        (p.fileName?.getD "").toList, bytes⟩ }
  else { rooms := (fs.ground p).1 }

lemma arrival_of_not_ground {p : Path} (h : ¬ ((fs.ground p).2 ∧ p.roomy))
    (content : Except Cause Bytes) :
    arrival fs p content = { rooms := (fs.ground p).1 } := if_neg h

lemma arrival_error (fs : FileSystem) (p : Path) (cause : Cause) :
    arrival fs p (.error cause) = { rooms := (fs.ground p).1 } := ite_self _

lemma arrival_ok {p : Path} (h : (fs.ground p).2 ∧ p.roomy) (bytes : Bytes) :
    arrival fs p (.ok bytes) =
    if p.settles ∧ fs.place p ∉ (fs.ground p).1 ∧ fs.get? (fs.place p) ≠ some .directory then
      { rooms := (fs.ground p).1, stored := some (fs.place p, bytes) }
    else { rooms := (fs.ground p).1, left := some ⟨(fs.place p).dropLast,
      (p.fileName?.getD "").toList, bytes⟩ } :=
  if_pos h

/-- What an item does, as a batch finds things at its start. -/
def effect (d : Depot) (fs : FileSystem) (r : ResolvedArtifact) : Effect :=
  match r.file with
  | none => {}
  | some source =>
    match fs.openFile source with
    | .error _ => {}
    | .ok pieces =>
      arrival fs (d.destination r.artifact) (Disk.content (pieces.map (·.mapError .io)))

lemma effect_of_openFile (d : Depot) {pieces : List (Except IoError Bytes)}
    (hfile : r.file = some source) (hopen : fs.openFile source = .ok pieces) :
    d.effect fs r = arrival fs (d.destination r.artifact)
      (Disk.content (pieces.map (·.mapError .io))) := by
  unfold effect
  rw [hfile]
  dsimp only
  rw [hopen]

lemma effect_of_not_openable (d : Depot) (h : r.openable fs = false) : d.effect fs r = {} := by
  unfold effect
  cases hfile : r.file with
  | none => rfl
  | some source =>
    cases hopen : fs.openFile source with
    | error e =>
      dsimp only
      rw [hopen]
    | ok pieces =>
      rw [ResolvedArtifact.openable_iff.mpr ⟨source, pieces, hfile, hopen⟩] at h
      cases h

/-- The file system in which the random tag of an item is drawn. -/
def prepared (d : Depot) (r : ResolvedArtifact) (fs : FileSystem) : FileSystem :=
  (Disk.makeRoom (d.destination r.artifact) fs).2

/-- The place of the temporary file of an item at its turn. -/
def drawn (host : Host) (d : Depot) (r : ResolvedArtifact) (fs : FileSystem) : Place :=
  (d.prepared r fs).place (Disk.temporary host (d.prepared r fs) (d.destination r.artifact))

/-- The random tag of an item at its turn. -/
def tag (host : Host) (d : Depot) (r : ResolvedArtifact) (fs : FileSystem) : Segment :=
  (host.tag (d.prepared r fs) (d.destination r.artifact)).toList

/-- Where nothing is in the way of a file, its way to the root is one of directories, which are
there or needed. -/
theorem mem_ground_or_get? {p root : Path} (hs : fs.Sound) (hbelow : Below root p before name tail)
    (hclear : (fs.ground p).2) (hq : q ∈ visits (fs.base root) root.segments) :
    q ∈ (fs.ground p).1 ∨ fs.get? q = some .directory := by
  obtain ⟨directory, hd⟩ : ∃ directory, p.parent? = some directory := ⟨_, hbelow.parted.parent?⟩
  obtain ⟨-, hpaving⟩ := Disk.ground_eq_of_true hd hclear
  have hall := hclear
  rw [hpaving] at hall ⊢
  rcases mem_paving_of_mem_visits hall (hbelow.visits_root_subset hd fs hq) with rfl | hmem
  · exact .inr (hs.base directory)
  · exact .inl hmem

lemma arrival_spec {p root : Path} (hs : fs.Sound) (hbelow : Below root p before name tail)
    (content : Except Cause Bytes) :
    (∀ q ∈ (arrival fs p content).rooms, q ∈ visits (fs.base p) p.segments ∧ ¬ fs.isFile q) ∧
    (∀ x ∈ (arrival fs p content).stored, x.1 = fs.place p ∧
      x.1 ∉ visits (fs.base root) root.segments ∧
      fs.get? x.1 ≠ some .directory ∧ x.1 ∉ (arrival fs p content).rooms) ∧
    ∀ l ∈ (arrival fs p content).left, l.directory = (fs.place p).dropLast ∧ l.name = name := by
  have hground : ∀ q ∈ (fs.ground p).1, q ∈ visits (fs.base p) p.segments ∧ ¬ fs.isFile q := by
    intro q hq
    obtain ⟨directory, hd, hvisits, hfile⟩ := Disk.ground_spec hs hq
    exact ⟨hbelow.visits_directory_subset hd fs hvisits, hfile⟩
  unfold arrival
  split
  next hclear =>
    split
    next => exact ⟨hground, by simp, by simp⟩
    next bytes =>
      split
      next hstored =>
        refine ⟨hground, ?_, by simp⟩
        intro x hx
        obtain rfl := Option.some.inj hx
        refine ⟨rfl, fun hroot => ?_, hstored.2.2, hstored.2.1⟩
        exact (mem_ground_or_get? hs hbelow hclear.1 hroot).elim hstored.2.1 hstored.2.2
      next =>
        refine ⟨hground, by simp, ?_⟩
        intro l hl
        obtain rfl := Option.some.inj hl
        rw [hbelow.parted.fileName?, Option.getD_some, String.toList_ofList]
        exact ⟨rfl, rfl⟩
  next => exact ⟨hground, by simp, by simp⟩

/-- Where all that an item touches lies: what it makes is on the way to its path, what it stores is
at its path, and what it leaves is beside its path. -/
theorem effect_spec (hs : fs.Sound)
    (hbelow : Below d.root (d.destination r.artifact) before name tail) :
    (∀ q ∈ (d.effect fs r).rooms,
      q ∈ visits (fs.base (d.destination r.artifact)) (d.destination r.artifact).segments ∧
      ¬ fs.isFile q) ∧
    (∀ x ∈ (d.effect fs r).stored, x.1 = fs.place (d.destination r.artifact) ∧
      x.1 ∉ visits (fs.base d.root) d.root.segments ∧ fs.get? x.1 ≠ some .directory ∧
      x.1 ∉ (d.effect fs r).rooms) ∧
    ∀ l ∈ (d.effect fs r).left, l.directory = (fs.place (d.destination r.artifact)).dropLast ∧
    l.name = name := by
  unfold effect
  split
  next => simp
  next =>
    split
    next => simp
    next => exact arrival_spec hs hbelow _

theorem place_temporary_of_parted {p directory : Path} {front : List Segment} (htag : host.Tagged)
    (h : p.Parted front name tail) (hd : p.parent? = some directory) (fs : FileSystem) :
    fs.place (Disk.temporary host fs p) = (fs.place p).dropLast ++
      [temporaryOf name (host.tag fs p).toList] := by
  have hname := Disk.isName_temporaryName (Host.not_mem_of_isTag (htag fs p))
  rw [Disk.temporaryName_of_parted h] at hname
  unfold FileSystem.place
  rw [h.place_directory hd, List.dropLast_concat, Disk.temporary_of_parted h hd,
    Disk.temporaryName_of_parted h, place_push_name hname]

/-- Once directories are made, one is in the way if it was before, or if it is one of them. -/
theorem makeRoom_ne_directory_iff (hs : fs.Sound) (p : Path) :
    (Disk.makeRoom p fs).2.get? (fs.place p) ≠ some .directory ↔
      fs.place p ∉ (fs.ground p).1 ∧ fs.get? (fs.place p) ≠ some .directory := by
  obtain ⟨-, -, -, hget⟩ := Disk.makeRoom_spec hs p
  rw [hget]
  by_cases hmem : fs.place p ∈ (fs.ground p).1
  · obtain ⟨_, -, -, hfile⟩ := Disk.ground_spec hs hmem
    rcases hentry : fs.get? (fs.place p) with - | content | -
    · simp [hmem]
    · exact absurd (isFile_iff.mpr ⟨content, hentry⟩) hfile
    · simp [hmem]
  · simp [hmem]

/-! What a replacement does where the directories of its file were made. -/

section Made

variable {p directory : Path} {front : List Segment} {rooms : List Place} {made : FileSystem}
  {bytes : Bytes} {pieces : List (Except Cause Bytes)}
variable (htag : host.Tagged) (h : p.Parted front name tail) (hd : p.parent? = some directory)
  (hreaches : made.Reaches directory (made.place directory)) (hroomy : p.roomy)
  (hunused : made.get? (made.place (Disk.temporary host made p)) = none)
  (hrooms : ({ rooms } : Effect).Took (host.tag made p).toList fs made)
include htag h hd hreaches hroomy hunused hrooms

lemma replace_took_nothing {cause : Cause} (hcontent : Disk.content pieces = .error cause) :
    ({ rooms } : Effect).Took (host.tag made p).toList fs (Disk.replace host p pieces made).2 ∧
      (Disk.replace host p pieces made).1 ≠ .ok () := by
  obtain ⟨hfailed, hsame, hback⟩ :=
    Disk.replace_of_broken htag h hd hreaches hroomy hunused hcontent
  refine ⟨⟨hsame.trans hrooms.workingDirectory, hrooms.sound.congr hsame hback,
    by simp, by simp, ?_⟩, hfailed⟩
  intro q hstored hleft
  rw [hback]
  exact hrooms.other q hstored hleft

lemma replace_took_stored (hcontent : Disk.content pieces = .ok bytes) (htakes : made.Takes p) :
    ({ rooms, stored := some (made.place p, bytes) } : Effect).Took (host.tag made p).toList fs
      (Disk.replace host p pieces made).2 ∧ (Disk.replace host p pieces made).1 = .ok () := by
  have hinside : made.place p = made.place directory ++ [name] :=
    h.place_directory hd made.workingDirectory
  obtain ⟨-, hfree⟩ := (Disk.takes_iff h hd hreaches hroomy).mp htakes
  obtain ⟨hok, hsame, hmoved⟩ :=
    Disk.replace_of_takes htag h hd hreaches hroomy hunused hcontent htakes
  rw [hinside] at hfree hmoved
  refine ⟨Effect.Took.file hrooms hreaches.2 hfree hsame hmoved ?_ (by simp) (.inl rfl), hok⟩
  intro x hx
  rw [← Option.some.inj hx, hinside]

lemma replace_took_left (hcontent : Disk.content pieces = .ok bytes) (htakes : ¬ made.Takes p) :
    ({ rooms, left := some ⟨(made.place p).dropLast, (p.fileName?.getD "").toList,
      bytes⟩ } : Effect).Took
      (host.tag made p).toList fs (Disk.replace host p pieces made).2 ∧
    (Disk.replace host p pieces made).1 ≠ .ok () := by
  obtain ⟨hfailed, hsame⟩ :=
    Disk.replace_of_not_takes htag h hd hreaches hroomy hunused hcontent htakes
  rw [place_temporary_of_parted htag h hd made] at hunused hsame
  have hplaced : ∀ q, (Disk.replace host p pieces made).2.get? q =
      if q = (made.place p).dropLast ++ [temporaryOf name (host.tag made p).toList] then
        some (.file bytes)
      else made.get? q := by
    intro q
    rw [hsame, get?_put _ _ _ (by simp)]
  have hlies : made.get? (made.place p).dropLast = some .directory := by
    have hinside : made.place p = made.place directory ++ [name] :=
      h.place_directory hd made.workingDirectory
    rw [hinside, List.dropLast_concat]
    exact hreaches.2
  refine ⟨Effect.Took.file hrooms hlies (by simp [hunused]) (by rw [hsame]; rfl) hplaced (by simp)
    ?_ (.inr rfl), hfailed⟩
  intro l hl
  rw [← Option.some.inj hl, Leftover.place, h.fileName?, Option.getD_some, String.toList_ofList]
  exact ⟨rfl, rfl⟩

end Made

/-- What copying does, told from the file system before it. -/
theorem arrival_took {p : Path} {front : List Segment} (htag : host.Tagged) (hs : fs.Sound)
    (hparted : p.Parted front name tail)
    (hunused : (Disk.makeRoom p fs).2.get?
      ((Disk.makeRoom p fs).2.place (Disk.temporary host (Disk.makeRoom p fs).2 p)) = none)
    (pieces : List (Except Cause Bytes)) :
    (arrival fs p (Disk.content pieces)).Took (host.tag (Disk.makeRoom p fs).2 p).toList fs
      ((Disk.makeRoom p >>= fun _ => Disk.replace host p pieces) fs).2 ∧
    (((Disk.makeRoom p >>= fun _ => Disk.replace host p pieces) fs).1 = .ok () ↔
      (arrival fs p (Disk.content pieces)).stored.isSome) := by
  obtain ⟨directory, hd⟩ : ∃ directory, p.parent? = some directory := ⟨_, hparted.parent?⟩
  obtain ⟨hsound, hmade, houtcome, hget⟩ := Disk.makeRoom_spec hs p
  have hreach := Disk.makeRoom_reaches hs hd
  have hnot := makeRoom_ne_directory_iff hs p
  rw [Disk.bind_eq]
  generalize hroom : Disk.makeRoom p fs = room at *
  obtain ⟨outcome, made⟩ := room
  dsimp only at hsound hmade houtcome hget hreach hnot hunused ⊢
  have hrooms : ({ rooms := (fs.ground p).1 } : Effect).Took (host.tag made p).toList fs made :=
    ⟨hmade, hsound, by simp, by simp, fun q _ _ => hget q⟩
  have hwhere : ∀ q : Path, made.place q = fs.place q := by
    intro q
    unfold FileSystem.place
    rw [hmade]
  cases outcome with
  | error failure =>
    have hfalse : ¬ (fs.ground p).2 := by simpa using houtcome
    rw [arrival_of_not_ground fun h => hfalse h.1]
    exact ⟨hrooms, by simp⟩
  | ok _ =>
    have hclear : (fs.ground p).2 := houtcome.mp rfl
    have hreaches : made.Reaches directory (made.place directory) :=
      hwhere directory ▸ hreach hclear
    dsimp only
    by_cases hroomy : p.roomy
    · cases hcontent : Disk.content pieces with
      | error cause =>
        obtain ⟨htook, hfailed⟩ :=
          replace_took_nothing htag hparted hd hreaches hroomy hunused hrooms hcontent
        rw [arrival_error]
        exact ⟨htook, by simpa using hfailed⟩
      | ok bytes =>
        have htakes := Disk.takes_iff hparted hd hreaches hroomy
        rw [hwhere, hnot] at htakes
        rw [arrival_ok ⟨hclear, hroomy⟩]
        by_cases hmoves : made.Takes p
        · obtain ⟨htook, hok⟩ :=
            replace_took_stored htag hparted hd hreaches hroomy hunused hrooms hcontent hmoves
          rw [hwhere] at htook
          rw [if_pos (htakes.mp hmoves)]
          exact ⟨htook, by simpa using hok⟩
        · obtain ⟨htook, hfailed⟩ :=
            replace_took_left htag hparted hd hreaches hroomy hunused hrooms hcontent hmoves
          rw [hwhere] at htook
          rw [if_neg (mt htakes.mpr hmoves)]
          exact ⟨htook, by simpa using hfailed⟩
    · obtain ⟨hfailed, hsame⟩ := Disk.replace_of_not_roomy htag hparted hd hreaches hroomy pieces
      rw [arrival_of_not_ground fun h => hroomy h.2, hsame]
      exact ⟨hrooms, by simpa using hfailed⟩

/-- Copying does the same in two file systems if what matters to it is the same. -/
theorem arrival_congr {p : Path} (hworking : fs.workingDirectory = fs₀.workingDirectory)
    (hground : fs.ground p = fs₀.ground p)
    (hplace : (fs₀.ground p).2 →
      (fs.place p ∉ (fs₀.ground p).1 ∧ fs.get? (fs.place p) ≠ some .directory ↔
        fs.place p ∉ (fs₀.ground p).1 ∧ fs₀.get? (fs.place p) ≠ some .directory))
    (content : Except Cause Bytes) :
    arrival fs p content = arrival fs₀ p content := by
  have hwhere : fs.place p = fs₀.place p := by
    unfold FileSystem.place
    rw [hworking]
  rw [hwhere] at hplace
  unfold arrival
  rw [hground, hwhere]
  refine ite_congr rfl (fun hclear => ?_) fun _ => rfl
  cases content with
  | error cause => rfl
  | ok bytes => exact if_congr (and_congr_right fun _ => hplace hclear.1) rfl rfl

lemma fate_of_add (host : Host) (d : Depot) (label : String) (r : ResolvedArtifact)
    (fs : FileSystem) :
    ((d.add host label r).run fs).2 = (d.materialize host r fs).2 ∧
    (∀ path, (d.materialize host r fs).1 = .ok path →
      ((d.add host label r).run fs).1.outcome.fate = .copied path) ∧
    (∀ failure, (d.materialize host r fs).1 = .error failure →
      ((d.add host label r).run fs).1.outcome.fate = .failed) := by
  rw [add_run]
  rcases d.materialize host r fs with ⟨failure | path, next⟩
  · exact ⟨rfl, nofun, fun _ _ => rfl⟩
  · refine ⟨rfl, fun other h => ?_, nofun⟩
    rw [Except.ok.inj h]
    rfl

/-- An item without documents is copied to its destination, and that is all. -/
theorem materialize_of_file (host : Host) (hmetadata : d.generateMetadata = false)
    (hfile : r.file = some source) (fs : FileSystem) :
    (d.materialize host r fs).2 = (Disk.copy host source (d.destination r.artifact) fs).2 ∧
    ((Disk.copy host source (d.destination r.artifact) fs).1 = .ok () →
      (d.materialize host r fs).1 = .ok (d.destination r.artifact)) ∧
    ((Disk.copy host source (d.destination r.artifact) fs).1 ≠ .ok () →
      ∃ failure, (d.materialize host r fs).1 = .error failure) := by
  rw [materialize_eq, hfile]
  dsimp only
  rw [hmetadata, Disk.bind_eq, Disk.during_eq]
  rcases Disk.copy host source (d.destination r.artifact) fs with ⟨failure | _, next⟩
  · exact ⟨rfl, nofun, fun _ => ⟨_, rfl⟩⟩
  · exact ⟨rfl, fun _ => rfl, fun hne => absurd rfl hne⟩

lemma copy_of_openFile {pieces : List (Except IoError Bytes)}
    (hopen : fs.openFile source = .ok pieces) (host : Host) (p : Path) :
    Disk.copy host source p fs =
      (Disk.makeRoom p >>= fun _ => Disk.replace host p (pieces.map (·.mapError .io))) fs := by
  unfold Disk.copy
  rw [Disk.bind_eq, Disk.look_eq, hopen]
  rfl

/-- The effect of an item is the one that was told of it, and its fate is told by it. -/
theorem effect_took (htag : host.Tagged) (hmetadata : d.generateMetadata = false) (hs : fs.Sound)
    (hbelow : Below d.root (d.destination r.artifact) before name tail)
    (hunused : (d.prepared r fs).get? (d.drawn host r fs) = none) (label : String) :
    (d.effect fs r).Took (d.tag host r fs) fs ((d.add host label r).run fs).2 ∧
    ((d.add host label r).run fs).1.outcome.fate =
      if (d.effect fs r).stored.isSome then .copied (d.destination r.artifact) else .failed := by
  obtain ⟨hstate, hcopied, hfailed⟩ := fate_of_add host d label r fs
  rw [hstate]
  cases hopenable : r.openable fs with
  | false =>
    obtain ⟨failure, hmaterialize, -⟩ := materialize_of_not_openable host d hopenable
    rw [hmaterialize] at hfailed ⊢
    rw [effect_of_not_openable d hopenable]
    exact ⟨Effect.Took.nothing hs, hfailed failure rfl⟩
  | true =>
    obtain ⟨source, pieces, hfile, hopen⟩ := ResolvedArtifact.openable_iff.mp hopenable
    obtain ⟨htook, hok⟩ := arrival_took htag hs hbelow.parted hunused (pieces.map (·.mapError .io))
    rw [← copy_of_openFile hopen, ← effect_of_openFile d hfile hopen] at htook hok
    obtain ⟨hsame, hdone, hbroken⟩ := materialize_of_file host hmetadata hfile fs
    rw [hsame]
    refine ⟨htook, ?_⟩
    by_cases hstored : (d.effect fs r).stored.isSome
    · rw [if_pos hstored]
      exact hcopied _ (hdone (hok.mpr hstored))
    · obtain ⟨failure, hfailure⟩ := hbroken (mt hok.mp hstored)
      rw [if_neg hstored]
      exact hfailed failure hfailure

/-- An item has the same effect in two file systems if what matters to it is the same. -/
theorem effect_congr (hworking : fs.workingDirectory = fs₀.workingDirectory)
    (hopen : ∀ source ∈ r.file, ∀ pieces, fs.openFile source = .ok pieces ↔
      fs₀.openFile source = .ok pieces)
    (hground : fs.ground (d.destination r.artifact) = fs₀.ground (d.destination r.artifact))
    (hplace : (fs₀.ground (d.destination r.artifact)).2 →
      (fs.place (d.destination r.artifact) ∉ (fs₀.ground (d.destination r.artifact)).1 ∧
          fs.get? (fs.place (d.destination r.artifact)) ≠ some .directory ↔
        fs.place (d.destination r.artifact) ∉ (fs₀.ground (d.destination r.artifact)).1 ∧
          fs₀.get? (fs.place (d.destination r.artifact)) ≠ some .directory)) :
    d.effect fs r = d.effect fs₀ r := by
  unfold effect
  cases hfile : r.file with
  | none => rfl
  | some source =>
    dsimp only
    cases hnow : fs.openFile source with
    | error e =>
      cases hstart : fs₀.openFile source with
      | error e' => rfl
      | ok pieces =>
        rw [(hopen source hfile pieces).mpr hstart] at hnow
        cases hnow
    | ok pieces =>
      rw [(hopen source hfile pieces).mp hnow]
      exact arrival_congr hworking hground hplace _

end Depot
end FeatureDepot
