import FeatureDepot.Proofs.Layout.Surroundings
import FeatureDepot.Proofs.Metadata.Revisions

/-! What was done, and doing it once more. A part of a run comes to a list of writes; when it is
carried out again, after all of the run, on files with any contents, it succeeds again with the same
result and comes to the same writes. Parts compose, so that this is shown operation by operation. -/
namespace FeatureDepot
open FeatureDepot.Path FileSystem

/-- The places of metadata documents, told by their names. -/
def documents : Set Place := {q | q.getLast? = some metadataSegment}

/-- What holds whenever a part of a run is done again: directories and files are where the run has
left them, and the documents that it has written can be read. -/
structure Ready (last : FileSystem) (written : Set Place) (late : FileSystem) : Prop where
  shape : last.SameShape late
  sound : late.Sound
  document : ∀ q ∈ written, ∃ m : Metadata, m.Legible ∧
    late.content q = some (Bytes.encode m.render)

/-- A part of a run that led from one file system to another, by way of writes, and what doing it
again comes to. -/
structure Redoes {β : Type} (last : FileSystem) (written : Set Place)
    (again : FileSystem → β × FileSystem) (b : β) (ws : List Write) (fs fs' : FileSystem) :
    Prop where
  grown : fs.Grown fs'
  sound : fs'.Sound
  content : fs'.content = Write.applyAll ws fs.content
  redone (late : FileSystem) : fs'.Grown last →
    (∀ q ∈ ws.map Write.target, q ∈ documents → q ∈ written) →
    Ready last written late →
      ∃ late', again late = (b, late') ∧ Ready last written late' ∧
      late'.content = Write.applyAll ws late.content

/-- Hosts for a run and for another one on what it has left: both give random tags to temporary
files, and those of the second one are not in use. -/
structure Host.Successor (host host' : Host) (last : FileSystem) : Prop where
  tagged : host.Tagged
  tagged' : host'.Tagged
  now : host'.now = host.now
  unused (late : FileSystem) (p : Path) : last.SameShape late →
    late.get? (late.place (Disk.temporary host' late p)) = none

namespace FileSystem

variable {fs fs' : FileSystem} {p : Path} {bytes : Bytes}

/-- Only a directory holds what is stored. -/
theorem Stored.sound (h : Stored p bytes ∅ fs fs') (hs : fs.Sound) : fs'.Sound := by
  obtain ⟨name, hname⟩ := h.leaf
  obtain ⟨q, hlocate, hfile⟩ := read_eq_ok_iff.mp h.read
  obtain ⟨directory, hnames, rfl⟩ := names_of_locate hname hlocate
  refine ⟨?_, fun r hr => ?_⟩
  · rw [h.changes.workingDirectory]
    exact h.changes.directory hs.workingDirectory
  · by_cases hrq : r = directory ++ [name]
    · rw [hrq, List.dropLast_concat]
      exact hnames.isDirectory
    · have hplace : r ∉ ({fs.place p} : Set Place) := by
        rwa [Set.mem_singleton_iff, ← h.changes.place_eq, place_of_locate hlocate]
      rw [h.changes.get?_eq hplace (by simp)] at hr
      exact h.changes.directory (hs.above r hr)

end FileSystem

namespace Redoes

variable {β γ δ : Type} {last fs mid fs' : FileSystem} {written : Set Place}
  {again : FileSystem → β × FileSystem} {a : γ} {b : β} {c : δ} {ws ws' : List Write} {p : Path}
  {bytes : Bytes} {new : Set (Place × Entry)} {source : Place} {make : Option Bytes → Bytes}

theorem done (hs : fs.Sound) (hagain : ∀ late, again late = (b, late)) :
    Redoes last written again b [] fs fs where
  grown := .refl fs
  sound := hs
  content := rfl
  redone late _ _ hready := ⟨late, hagain late, hready, rfl⟩

/-- Parts that are done one after the other. -/
theorem seq {first : FileSystem → γ × FileSystem} {second : FileSystem → δ × FileSystem}
    (hfirst : Redoes last written first a ws fs mid)
    (hsecond : Redoes last written second c ws' mid fs')
    (hagain : ∀ late middle late', fs'.Grown late → first late = (a, middle) →
      middle.content = Write.applyAll ws late.content → second middle = (c, late') →
      again late = (b, late')) :
    Redoes last written again b (ws ++ ws') fs fs' where
  grown := hfirst.grown.trans hsecond.grown
  sound := hsecond.sound
  content := by rw [hsecond.content, hfirst.content, Write.applyAll_append]
  redone late hgrown hwritten hready := by
    obtain ⟨middle, hone, hmiddle, hcontent⟩ := hfirst.redone late (hsecond.grown.trans hgrown)
      (fun q hq => hwritten q (List.map_append ▸ List.mem_append_left _ hq)) hready
    obtain ⟨late', htwo, hlate, hcontent'⟩ := hsecond.redone middle hgrown
      (fun q hq => hwritten q (List.map_append ▸ List.mem_append_right _ hq)) hmiddle
    exact ⟨late', hagain late middle late' (hgrown.trans hready.shape.1) hone hcontent htwo, hlate,
      by rw [hcontent', hcontent, Write.applyAll_append]⟩

/-- Actions that are done one after the other. -/
theorem bind {α α' : Type} {x : Disk α} {f : α → Disk α'} {a : α} {outcome : Except Failure α'}
    (hx : Redoes last written x (.ok a) ws fs mid)
    (hf : Redoes last written (f a) outcome ws' mid fs') :
    Redoes last written (x >>= f) outcome (ws ++ ws') fs fs' := by
  refine hx.seq hf fun late middle late' _ hone _ htwo => ?_
  rw [Disk.bind_eq, hone]
  exact htwo

theorem andThen {α α' : Type} {x : Disk α} {y : Disk α'} {a : α} {outcome : Except Failure α'}
    (hx : Redoes last written x (.ok a) ws fs mid)
    (hy : Redoes last written y outcome ws' mid fs') :
    Redoes last written (x >>= fun _ => y) outcome (ws ++ ws') fs fs' :=
  hx.bind (f := fun _ => y) hy

theorem during {α : Type} {x : Disk α} {a : α} (activity : Activity)
    (h : Redoes last written x (.ok a) ws fs fs') :
    Redoes last written (Disk.during activity x) (.ok a) ws fs fs' where
  grown := h.grown
  sound := h.sound
  content := h.content
  redone late hgrown hwritten hready := by
    obtain ⟨late', hone, hlate⟩ := h.redone late hgrown hwritten hready
    exact ⟨late', Disk.during_eq_ok_iff.mpr hone, hlate⟩

/-- Writes that come to the same stand for each other. -/
theorem congr (h : Redoes last written again b ws fs fs')
    (hsame : ∀ now, Write.applyAll ws now = Write.applyAll ws' now)
    (htargets : ∀ q ∈ ws.map Write.target, q ∈ ws'.map Write.target) :
    Redoes last written again b ws' fs fs' where
  grown := h.grown
  sound := h.sound
  content := by rw [h.content, hsame]
  redone late hgrown hwritten hready := by
    obtain ⟨late', hone, hlate, hcontent⟩ :=
      h.redone late hgrown (fun q hq => hwritten q (htargets q hq)) hready
    exact ⟨late', hone, hlate, by rw [hcontent, hsame]⟩

/-- A file that was stored is stored again, and is a legible document then if it was to be one. -/
theorem of_stored (hs : fs'.Sound) (hstored : Stored p bytes new fs fs')
    (hnew : ∀ x ∈ new, x.2 = .directory)
    (hbytes : bytes = make (fs.content source))
    (hagain : ∀ late, fs'.Grown late → Ready last written late →
      (fs.place p ∈ documents → fs.place p ∈ written) →
      (∃ late', again late = (b, late') ∧ late'.workingDirectory = late.workingDirectory ∧
        ∀ q, late'.get? q = if q = fs.place p then some (.file (make (late.content source)))
          else late.get? q) ∧
      (fs.place p ∈ written → ∃ m : Metadata, m.Legible ∧
        make (late.content source) = Bytes.encode m.render)) :
    Redoes last written again b [⟨source, fs.place p, make⟩] fs fs' where
  grown := hstored.changes.grown
  sound := hs
  content := by
    rw [hstored.content_eq hnew, hbytes]
    rfl
  redone late hgrown hwritten hready := by
    have hlate := hgrown.trans hready.shape.1
    have hthere : (late.content (fs.place p)).isSome :=
      hlate.file _ (by rw [content_eq_some_iff.mpr hstored.get?, Option.isSome_some])
    obtain ⟨⟨late', hone, hworking, hget⟩, hlegible⟩ :=
      hagain late hlate hready fun hdocument => hwritten _ List.mem_cons_self hdocument
    have hshape := SameShape.of_update hthere hworking hget
    have hcontent := content_update hget
    refine ⟨late', hone, ⟨hready.shape.trans hshape, hshape.sound hready.sound, fun q hq => ?_⟩,
      hcontent⟩
    rw [hcontent]
    by_cases hp : q = fs.place p
    · obtain ⟨m, hm, hrender⟩ := hlegible (hp ▸ hq)
      exact ⟨m, hm, by rw [hp, Function.update_self, hrender]⟩
    · rw [Function.update_of_ne hp]
      exact hready.document q hq

end Redoes

section Operations
open Disk

variable {host host' : Host} {last fs fs' : FileSystem} {written : Set Place} {p source file : Path}
  {r : Revision} {pieces : List (Except Cause Bytes)} {directory : Place} {bytes : Bytes}

/-- A file that is no document is replaced once more. -/
theorem replace_redoes (place : Place) (make : Option Bytes → Bytes)
    (hh : host.Successor host' last) (hs : fs.Sound) (hp : fs.place p ∉ written)
    (h : replace host p pieces fs = (.ok (), fs'))
    (hcontent : Disk.content pieces = .ok (make (fs.content place))) :
    Redoes last written (fun late => replace host' p [.ok (make (late.content place))] late)
      (.ok ()) [⟨place, fs.place p, make⟩] fs fs' := by
  obtain ⟨bytes, hbytes, hstored⟩ := replace_stored h
  refine .of_stored (hstored.sound hs) hstored (by simp)
    (Except.ok.inj (hbytes.symm.trans hcontent)) ?_
  intro late hgrown hready _
  obtain ⟨late', hone, hworking, hget⟩ :=
    replace_again hh.tagged hh.tagged' h hgrown (hh.unused late p hready.shape)
      (content_singleton (make (late.content place)))
  rw [hgrown.place_eq, hstored.changes.place_eq] at hget
  exact ⟨⟨late', hone, hworking, hget⟩, fun hmem => absurd hmem hp⟩

/-- A file in directories that were made for it is put there once more. -/
theorem put_again (hh : host.Successor host' last) (hs : fs.Sound)
    (h : (makeRoom p >>= fun _ => replace host p pieces) fs = (.ok (), fs')) {late : FileSystem}
    (hgrown : fs'.Grown late) (hready : Ready last written late) (bytes : Bytes) :
    ∃ late', (makeRoom p >>= fun _ => replace host' p [.ok bytes]) late = (.ok (), late') ∧
      late'.workingDirectory = late.workingDirectory ∧
      ∀ q, late'.get? q = if q = fs.place p then some (.file bytes) else late.get? q := by
  obtain ⟨_, made, hmade, hreplace⟩ := bind_eq_ok_iff.mp h
  obtain ⟨_, -, hstored⟩ := replace_stored hreplace
  have hroom := makeRoom_changes p fs
  rw [hmade] at hroom
  have hroomAgain := makeRoom_again hs hmade (hstored.changes.grown.trans hgrown) hready.sound
  obtain ⟨late', hone, hworking, hget⟩ := replace_again hh.tagged hh.tagged' hreplace hgrown
    (hh.unused late p hready.shape) (content_singleton bytes)
  rw [hgrown.place_eq, hstored.changes.place_eq, hroom.place_eq] at hget
  exact ⟨late', bind_eq_ok_iff.mpr ⟨(), late, hroomAgain, hone⟩, hworking, hget⟩

lemma put_sound (hs : fs.Sound)
    (h : (makeRoom p >>= fun _ => replace host p pieces) fs = (.ok (), fs')) :
    fs'.Sound := by
  obtain ⟨_, made, hmade, hreplace⟩ := bind_eq_ok_iff.mp h
  obtain ⟨_, -, hstored⟩ := replace_stored hreplace
  have hsound := (makeRoom_spec hs p).1
  rw [hmade] at hsound
  exact hstored.sound hsound

/-- A file is copied once more, whatever the source holds by then. -/
theorem copy_redoes (hh : host.Successor host' last) (hs : fs.Sound) (hp : fs.place p ∉ written)
    (h : copy host source p fs = (.ok (), fs')) : Redoes last written (copy host' source p) (.ok ())
      [.copy (fs.place source) (fs.place p)] fs fs' := by
  obtain ⟨bytes, hread, hstored⟩ := copy_stored h
  obtain ⟨opened, middle, hlook, hput⟩ := bind_eq_ok_iff.mp h
  obtain ⟨-, rfl⟩ := look_eq_ok_iff.mp hlook
  have hcontent : fs.content (fs.place source) = some bytes :=
    content_eq_some_iff.mpr (get?_of_read hread)
  refine .of_stored (put_sound hs hput) hstored (fun x hx => hx.1)
    (by rw [hcontent, Option.getD_some]) ?_
  intro late hgrown hready _
  refine ⟨?_, fun hmem => absurd hmem hp⟩
  obtain ⟨now, hreadNow, hnow⟩ := (hstored.changes.grown.trans hgrown).read hread
  rw [hnow, Option.getD_some]
  have hopen : late.openFile source = .ok [.ok now] := by
    obtain ⟨q, hlocate, hfile⟩ := read_eq_ok_iff.mp hreadNow
    unfold openFile
    rw [hlocate]
    dsimp only [bind, Except.bind]
    rw [hfile]
  obtain ⟨late', hone, hworking, hget⟩ := put_again hh hs hput hgrown hready now
  exact ⟨late', bind_eq_ok_iff.mpr ⟨[.ok now], late, look_eq_ok_iff.mpr ⟨hopen, rfl⟩, hone⟩,
    hworking, hget⟩

/-- A document in a directory that was there is revised once more. -/
theorem update_redoes (hh : host.Successor host' last) (hs : fs.Sound)
    (hreaches : fs.Reaches p directory) (hr : r.artifact.Legible) (hnow : Metadata.OnLines host.now)
    (h : Metadata.update host (p.push Layout.metadataName) (r.change host.now) fs = (.ok (), fs')) :
    Redoes last written (Metadata.update host' (p.push Layout.metadataName) (r.change host.now))
      (.ok ()) [r.write host.now (fs.place (p.push Layout.metadataName))] fs fs' := by
  obtain ⟨before, hload, hstored⟩ := Metadata.update_stored h
  obtain ⟨_, middle, hread, hwrite⟩ := bind_eq_ok_iff.mp h
  rw [during_eq_ok_iff, Metadata.read_eq] at hread
  obtain ⟨-, rfl⟩ := Prod.mk.inj hread
  have hwrite := during_eq_ok_iff.mp hwrite
  have hleaf : (p.push Layout.metadataName).leaf? = some metadataSegment :=
    leaf?_push_name isName_metadataSegment
  have hnames : fs.Names (p.push Layout.metadataName) directory metadataSegment :=
    hreaches.names isName_metadataSegment (Metadata.check_of_load hleaf hload)
  have hdocument : Metadata.documentIn (fs.content (fs.place (p.push Layout.metadataName))) =
      before.getD {} := by
    rw [Metadata.documentIn_content, Metadata.documentAt_of_load hnames hload]
  refine .of_stored (put_sound hs hwrite) hstored (fun x hx => hx.1) (by rw [hdocument]) ?_
  intro late hgrown hready hmem
  have hplace : fs.place (p.push Layout.metadataName) ∈ documents := getLast?_place hleaf
  obtain ⟨m, hm, hcontent⟩ := hready.document _ (hmem hplace)
  have hsame : Metadata.documentIn (late.content (fs.place (p.push Layout.metadataName))) = m := by
    rw [hcontent, Metadata.documentIn_render hm]
  obtain ⟨q, hlocate, hfile⟩ := read_eq_ok_iff.mp hstored.read
  have hq : q = fs.place (p.push Layout.metadataName) := by
    rw [← place_of_locate hlocate, hstored.changes.place_eq]
  have hlateLoad : Metadata.load late (p.push Layout.metadataName) = .ok (some m) := by
    refine Metadata.load_eq_some_iff.mpr ⟨q,
      hgrown.locate hlocate (by rw [hfile, Option.isSome_some]), ?_⟩
    refine Metadata.documentAt_eq_some_iff.mpr ⟨_, m.render, content_eq_some_iff.mp (hq ▸ hcontent),
      Bytes.decode?_encode _, ?_⟩
    rw [Metadata.parse_render_unified, Metadata.unified_eq_self hm]
  rw [hsame]
  refine ⟨?_, fun _ => ⟨_, Revision.legible_change hr hnow hm, rfl⟩⟩
  obtain ⟨late', hone, hworking, hget⟩ :=
    put_again hh hs hwrite hgrown hready (Bytes.encode (r.change host.now m).render)
  refine ⟨late', bind_eq_ok_iff.mpr ⟨some m, late, during_eq_ok_iff.mpr ?_,
    during_eq_ok_iff.mpr hone⟩, hworking, hget⟩
  rw [Metadata.read_eq, hlateLoad]
  rfl

end Operations

namespace ChecksumFile

/-- The checksum files of a file, as they are written from what a place holds. -/
def writes (w source : Place) (f : Path) : List Write := ChecksumKind.all.map fun kind =>
  ⟨source, (path f kind).place w, fun bytes => Bytes.encode (kind.checksum (bytes.getD []))⟩

variable {host host' : Host} {last fs fs' : FileSystem} {written : Set Place} {f : Path}
  {s : Segment} {w : Place} {paths : List Path}

theorem path_not_mem_documents (hf : f.leaf? = some s) (kind : ChecksumKind) :
    (path f kind).place w ∉ documents := by
  intro hmem
  have hlast : ((path f kind).place w).getLast? = some metadataSegment := hmem
  rw [getLast?_place (leaf?_path hf kind), Option.some.injEq] at hlast
  exact append_suffix_ne_metadataSegment s kind hlast

/-- Checksums are computed once more, from what the file holds by then. -/
theorem writeAll_redoes (hh : host.Successor host' last) (hs : fs.Sound)
    (hwritten : written ⊆ documents) (hf : f.leaf? = some s)
    (h : writeAll host f fs = (.ok paths, fs')) : Redoes last written (writeAll host' f)
      (.ok paths) (writes fs.workingDirectory (fs.place f) f) fs fs' := by
  have hsteps := h
  rw [writeAll_eq] at hsteps
  obtain ⟨bytes, middle, hlook, hsteps⟩ := Disk.bind_eq_ok_iff.mp hsteps
  obtain ⟨hread, rfl⟩ := Disk.look_eq_ok_iff.mp hlook
  obtain ⟨_, half, hmd5, hsteps⟩ := Disk.bind_eq_ok_iff.mp hsteps
  obtain ⟨_, whole, hsha1, hsteps⟩ := Disk.bind_eq_ok_iff.mp hsteps
  obtain ⟨hpaths, rfl⟩ := Prod.mk.inj hsteps
  obtain rfl := Except.ok.inj hpaths
  have hcontent : fs.content (fs.place f) = some bytes :=
    content_eq_some_iff.mpr (get?_of_read hread)
  have hnot : ∀ kind, fs.place (path f kind) ∉ written :=
    fun kind hmem => path_not_mem_documents hf kind (hwritten hmem)
  have hfirst :=
    replace_redoes (fs.place f)
      (fun bytes => Bytes.encode (ChecksumKind.md5.checksum (bytes.getD []))) hh hs (hnot .md5) hmd5
      (by rw [hcontent, Option.getD_some, Disk.content_singleton])
  have hkept : half.content (fs.place f) = some bytes := by
    rw [hfirst.content, Write.applyAll_cons, Write.applyAll_nil,
      Write.apply_of_ne (place_path_ne hf .md5), hcontent]
  have hplace := hfirst.grown.place_eq (path f .sha1)
  have hsecond :=
    replace_redoes (fs.place f)
      (fun bytes => Bytes.encode (ChecksumKind.sha1.checksum (bytes.getD []))) hh hfirst.sound
      (hplace ▸ hnot .sha1) hsha1 (by rw [hkept, Option.getD_some, Disk.content_singleton])
  rw [hplace] at hsecond
  refine hfirst.seq hsecond fun late middle late' hgrown hone hmiddle htwo => ?_
  obtain ⟨now, hreadNow, hnow⟩ := ((hfirst.grown.trans hsecond.grown).trans hgrown).read hread
  have hstill : middle.content (fs.place f) = some now := by
    rw [hmiddle, Write.applyAll_cons, Write.applyAll_nil,
      Write.apply_of_ne (place_path_ne hf .md5), hnow]
  rw [hnow, Option.getD_some] at hone
  rw [hstill, Option.getD_some] at htwo
  rw [writeAll_eq]
  exact Disk.bind_eq_ok_iff.mpr ⟨now, late, Disk.look_eq_ok_iff.mpr ⟨hreadNow, rfl⟩,
    Disk.bind_eq_ok_iff.mpr ⟨(), middle, hone, Disk.bind_eq_ok_iff.mpr ⟨(), late', htwo, rfl⟩⟩⟩

end ChecksumFile
end FeatureDepot
