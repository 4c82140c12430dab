import FeatureDepot.Proofs.FileSystem.Stored
import FeatureDepot.Proofs.Metadata.Additions

/-! The documents of a file system, by the places of their files. What is written to other files
leaves a document alone, and changing a document makes of it what the change says. -/
namespace FeatureDepot.Metadata
open FileSystem FeatureDepot.Path

variable {host : Host} {m : Metadata} {before : Option Metadata} {p : Path} {directory q : Place}
  {name : Segment} {files : Set Place} {new : Set (Place × Entry)} {fs fs' : FileSystem}

/-- The document at a place, if there is a file that holds one. -/
def documentAt (fs : FileSystem) (q : Place) : Option Metadata :=
  match fs.get? q with
  | some (.file content) => (Bytes.decode? content).bind fun text => (parse text).toOption
  | _ => none

/-- The document that a path names, an empty one if there is none. -/
def documentOf (fs : FileSystem) (p : Path) : Metadata := (documentAt fs (fs.place p)).getD {}

theorem documentAt_eq_some_iff :
    documentAt fs q = some m ↔ ∃ content text, fs.get? q = some (.file content) ∧
    Bytes.decode? content = some text ∧ parse text = .ok m := by
  unfold documentAt
  rcases fs.get? q with - | content | -
  · simp
  · simp only [Option.bind_eq_some_iff, Option.some.injEq, Entry.file.injEq, exists_and_left,
      exists_eq_left']
    refine exists_congr fun text => and_congr_right fun _ => ?_
    cases parse text <;> simp [Except.toOption]
  · simp

/-- New directories hold no documents, so only the files that are written to matter. -/
theorem documentAt_of_changes (h : Changes files new fs fs') (hnew : ∀ x ∈ new, x.2 = .directory)
    (hq : q ∉ files) :
    documentAt fs' q = documentAt fs q := by
  unfold documentAt
  rcases h.get? q with heq | ⟨hmem, -⟩ | ⟨hnone, entry, hentry, hmem⟩
  · rw [heq]
  · exact absurd hmem hq
  · obtain rfl : entry = .directory := hnew _ hmem
    rw [hnone, hentry]

lemma documentAt_of_stored (hm : m.Legible) (h : Stored p (Bytes.encode m.render) new fs fs') :
    documentAt fs' (fs.place p) = some m := by
  refine documentAt_eq_some_iff.mpr ⟨_, m.render, h.get?, Bytes.decode?_encode _, ?_⟩
  rw [parse_render_unified, unified_eq_self hm]

/-- A document is loaded from where a path leads. -/
theorem load_eq_some_iff :
    load fs p = .ok (some m) ↔ ∃ q, fs.locate p = .ok q ∧ documentAt fs q = some m := by
  have hread : (∃ q, fs.locate p = .ok q ∧ documentAt fs q = some m) ↔
      ∃ text, fs.readText p = .ok text ∧ parse text = .ok m := by
    simp only [documentAt_eq_some_iff, readText_eq_ok_iff, read_eq_ok_iff]
    constructor
    · rintro ⟨q, hlocate, content, text, hfile, htext, hparse⟩
      exact ⟨text, ⟨content, ⟨q, hlocate, hfile⟩, htext⟩, hparse⟩
    · rintro ⟨text, ⟨content, ⟨q, hlocate, hfile⟩, htext⟩, hparse⟩
      exact ⟨q, hlocate, content, text, hfile, htext, hparse⟩
  rw [hread]
  unfold load exists?
  cases hlocate : fs.locate p with
  | error e =>
    have hnone : ∀ text, fs.readText p ≠ .ok text := by
      intro text htext
      obtain ⟨content, hcontent, -⟩ := readText_eq_ok_iff.mp htext
      obtain ⟨q, hq, -⟩ := read_eq_ok_iff.mp hcontent
      cases hlocate.symm.trans hq
    cases e <;> simp [hnone]
  | ok q =>
    cases fs.readText p with
    | error e => simp
    | ok text => cases hparse : parse text <;> simp [hparse]

/-- There is no document if a path leads nowhere. -/
theorem load_eq_none_iff : load fs p = .ok none ↔ fs.locate p = .error .notFound := by
  unfold load exists?
  cases fs.locate p with
  | error e => cases e <;> simp
  | ok q =>
    cases fs.readText p with
    | error e => simp
    | ok text => cases hparse : parse text <;> simp [hparse]

/-- A path that a document can be loaded from can be followed. -/
theorem check_of_load (hp : p.leaf? = some name) (h : load fs p = .ok before) :
    checkPath p = .ok () := by
  have htext : p.text.isEmpty = false := by
    obtain ⟨hname, front, hsegments⟩ := leaf?_eq_some_iff.mp hp
    by_contra hempty
    have hnil : p.text = "" := by simpa using hempty
    rw [segments, hnil] at hsegments
    have hlast := congrArg List.getLast? hsegments
    simp [hname.ne_nil.symm] at hlast
  cases before with
  | some m =>
    obtain ⟨q, hlocate, -⟩ := load_eq_some_iff.mp h
    exact (locate_eq_ok_iff.mp hlocate).1
  | none =>
    have hlocate := load_eq_none_iff.mp h
    unfold locate at hlocate
    cases hcheck : checkPath p with
    | ok u => rfl
    | error e =>
      rw [hcheck] at hlocate
      obtain rfl := Except.error.inj hlocate
      unfold checkPath at hcheck
      rw [htext] at hcheck
      split at hcheck
      next => cases hcheck
      next =>
        rw [if_neg (by simp)] at hcheck
        split at hcheck <;> cases hcheck

/-- What is loaded is the document at the place that a path names. -/
theorem documentAt_of_load (hp : fs.Names p directory name) (h : load fs p = .ok before) :
    documentAt fs (fs.place p) = before := by
  cases before with
  | some m =>
    obtain ⟨q, hlocate, hm⟩ := load_eq_some_iff.mp h
    rwa [place_of_locate hlocate]
  | none =>
    have hlocate := load_eq_none_iff.mp h
    rw [hp.locate_eq] at hlocate
    unfold documentAt
    rw [hp.place_eq, (child_eq_notFound_iff.mp hlocate).2]

/-- A document within reach can be loaded. -/
theorem load_eq_some (hp : fs.Names p directory name) (hsize : Text.size name ≤ maxName)
    (h : documentAt fs (fs.place p) = some m) : load fs p = .ok (some m) := by
  refine load_eq_some_iff.mpr ⟨fs.place p, ?_, h⟩
  obtain ⟨content, _, hfile, -⟩ := documentAt_eq_some_iff.mp h
  rw [hp.locate_eq, child_eq_ok_iff, hfile]
  exact ⟨hsize, hp.place_eq, rfl⟩

/-- A document in a directory that is there becomes what a change makes of it. -/
theorem update_documentAt {file : Path} {name : String} {change : Metadata → Metadata}
    (hfile : file = p.push name) (hname : IsName name.toList) (hdirectory : fs.Reaches p directory)
    (hlegible : ∀ m ∈ documentAt fs (fs.place file), m.Legible)
    (hchange : ∀ m, m.Legible → (change m).Legible)
    (h : update host file change fs = (.ok (), fs')) :
    documentAt fs' (fs.place file) = some (change ((documentAt fs (fs.place file)).getD {})) ∧
      Changes {fs.place file} (rooms fs.workingDirectory file) fs fs' ∧
      fs'.Names file directory name.toList := by
  obtain ⟨before, hload, hstored⟩ := update_stored h
  rw [← String.ofList_toList (s := name)] at hfile
  have hleaf : file.leaf? = some name.toList := hfile ▸ leaf?_push_name hname
  have hcheck := check_of_load hleaf hload
  have hnames : fs.Names file directory name.toList := by
    rw [hfile] at hcheck ⊢
    exact hdirectory.names hname hcheck
  obtain rfl := documentAt_of_load hnames hload
  refine ⟨documentAt_of_stored (hchange _ ?_) hstored, hstored.changes,
    hstored.changes.names hnames⟩
  cases hbefore : documentAt fs (fs.place file) with
  | none => exact legible_empty
  | some m => exact hlegible m hbefore

end FeatureDepot.Metadata
