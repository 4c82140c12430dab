import FeatureDepot.ChecksumFile
import FeatureDepot.Layout
import FeatureDepot.Proofs.FileSystem.Within

/-! Checksum files. Their names tell them apart from each other and from metadata documents, so
writing the checksums of one file disturbs no file with another name. -/
namespace FeatureDepot

namespace ChecksumKind

/-- What is put behind the name of a file for its checksum file. -/
def suffix (kind : ChecksumKind) : List Char := '.' :: kind.ending.toList

theorem toList_suffix (kind : ChecksumKind) : ("." ++ kind.ending).toList = kind.suffix := by
  rw [String.toList_append]
  rfl

theorem not_mem_suffix (kind : ChecksumKind) : '/' ∉ kind.suffix := by
  cases kind <;> decide

lemma append_suffix_inj {s t : List Char} {kind kind' : ChecksumKind}
    (h : s ++ kind.suffix = t ++ kind'.suffix) :
    s = t ∧ kind = kind' := by
  have hkind : kind = kind' := by
    -- "5" and "1" tell the two endings apart
    have hlast := congrArg List.getLast? h
    cases kind <;> cases kind' <;> simp [suffix, ending] at hlast ⊢
  subst hkind
  exact ⟨List.append_cancel_right h, rfl⟩

theorem append_suffix_ne_self (s : List Char) (kind : ChecksumKind) : s ++ kind.suffix ≠ s := by
  simp [suffix]

end ChecksumKind

/-- The name of every metadata document, as a segment. -/
def metadataSegment : Path.Segment := Layout.metadataName.toList

theorem isName_metadataSegment : Path.IsName metadataSegment := by
  unfold Path.IsName metadataSegment
  decide

theorem append_suffix_ne_metadataSegment (s : List Char) (kind : ChecksumKind) :
    s ++ kind.suffix ≠ metadataSegment := by
  intro h
  have hlast := congrArg List.getLast? h
  cases kind <;> simp [ChecksumKind.suffix, ChecksumKind.ending, metadataSegment,
    Layout.metadataName] at hlast

namespace ChecksumFile
open FileSystem FeatureDepot.Path

variable {host : Host} {f : Path} {s : Segment} {kind : ChecksumKind} {fs fs' : FileSystem}
  {w : Place}

theorem leaf?_path (hf : f.leaf? = some s) (kind : ChecksumKind) :
    (path f kind).leaf? = some (s ++ kind.suffix) := by
  unfold path
  rw [leaf?_extend hf (by rw [kind.toList_suffix]; exact kind.not_mem_suffix), kind.toList_suffix]

/-- The checksum files of a file lie beside it. -/
theorem place_path (hf : f.leaf? = some s) : ∃ directory, f.place w = directory ++ [s] ∧
    ∀ kind, (path f kind).place w = directory ++ [s ++ kind.suffix] := by
  obtain ⟨directory, hplace, hextend⟩ := place_extend (w := w) hf
  refine ⟨directory, hplace, fun kind => ?_⟩
  have h := hextend ("." ++ kind.ending) (by rw [kind.toList_suffix]; exact kind.not_mem_suffix)
  rwa [kind.toList_suffix] at h

theorem place_path_ne (hf : f.leaf? = some s) (kind : ChecksumKind) :
    f.place w ≠ (path f kind).place w :=
  place_ne_of_leaf?_ne hf (leaf?_path hf kind) (kind.append_suffix_ne_self s).symm

/-- The checksum files of files at different places are different. -/
theorem place_path_inj {g : Path} {t : Segment} {kind' : ChecksumKind} (hf : f.leaf? = some s)
    (hg : g.leaf? = some t) (h : (path f kind).place w = (path g kind').place w) :
    f.place w = g.place w ∧ kind = kind' := by
  obtain ⟨directory, hplace, hpath⟩ := place_path (w := w) hf
  obtain ⟨directory', hplace', hpath'⟩ := place_path (w := w) hg
  rw [hpath, hpath'] at h
  obtain ⟨rfl, hnames⟩ := List.append_inj' h rfl
  obtain ⟨rfl, rfl⟩ := ChecksumKind.append_suffix_inj (List.singleton_inj.mp hnames)
  exact ⟨by rw [hplace, hplace'], rfl⟩

/-- The checksum files of a file hold the checksums of its content. -/
def UpToDate (fs : FileSystem) (f : Path) : Prop := ∃ content, fs.read f = .ok content ∧
  ∀ kind, fs.read (path f kind) = .ok (Bytes.encode (kind.checksum content))

/-- The places of the checksum files of a file. -/
def places (w : Place) (f : Path) : Set Place := {q | ∃ kind, q = (path f kind).place w}

theorem writeAll_eq (host : Host) (f : Path) : writeAll host f = (do
    let content ← Disk.look (·.read f)
    Disk.replace host (path f .md5) [.ok (Bytes.encode (ChecksumKind.md5.checksum content))]
    Disk.replace host (path f .sha1) [.ok (Bytes.encode (ChecksumKind.sha1.checksum content))]
    return [path f .md5, path f .sha1]) := by
  unfold writeAll compute checksums ChecksumKind.all
  simp only [bind_assoc, pure_bind, List.map_cons, List.map_nil, List.mapM_cons, List.mapM_nil]

/-- Writing the checksums of a file brings them up to date and changes nothing else. -/
theorem writeAll_spec {paths : List Path} (hf : f.leaf? = some s)
    (h : writeAll host f fs = (.ok paths, fs')) :
    UpToDate fs' f ∧ Changes (places fs.workingDirectory f) ∅ fs fs' := by
  rw [writeAll_eq] at h
  obtain ⟨content, middle, hlook, h⟩ := Disk.bind_eq_ok_iff.mp h
  obtain ⟨hread, rfl⟩ := Disk.look_eq_ok_iff.mp hlook
  obtain ⟨_, half, hmd5, h⟩ := Disk.bind_eq_ok_iff.mp h
  obtain ⟨_, whole, hsha1, h⟩ := Disk.bind_eq_ok_iff.mp h
  obtain ⟨-, rfl⟩ := Prod.mk.inj h
  obtain ⟨_, hbytes, hmd5⟩ := Disk.replace_stored hmd5
  obtain rfl := Except.ok.inj ((Disk.content_singleton _).symm.trans hbytes)
  obtain ⟨_, hbytes, hsha1⟩ := Disk.replace_stored hsha1
  obtain rfl := Except.ok.inj ((Disk.content_singleton _).symm.trans hbytes)
  have hplace := hmd5.changes.place_eq
  have hchanges : Changes (places fs.workingDirectory f) ∅ fs whole := by
    refine (hmd5.changes.mono ?_ subset_rfl).trans (hsha1.changes.mono ?_ subset_rfl)
    · rintro q rfl
      exact ⟨.md5, rfl⟩
    · rintro q rfl
      exact ⟨.sha1, hplace _⟩
  refine ⟨⟨content, ?_, ?_⟩, hchanges⟩
  · refine hchanges.read_of_not_mem ?_ hread
    rintro ⟨kind, h⟩
    exact place_path_ne hf kind h
  · intro kind
    cases kind with
    | md5 =>
      refine hsha1.changes.read_of_not_mem ?_ hmd5.read
      rw [hplace, hplace]
      intro h
      cases (place_path_inj hf hf h).2
    | sha1 => exact hsha1.read

lemma beside_path (hf : f.leaf? = some s) (kind : ChecksumKind) :
    Disk.beside w (path f kind) = Disk.beside w f := by
  obtain ⟨directory, hplace, hpath⟩ := place_path (w := w) hf
  unfold Disk.beside
  rw [hplace, hpath kind, List.dropLast_concat, List.dropLast_concat]

theorem writeAll_within (hfresh : host.Fresh) (hf : f.leaf? = some s) :
    Disk.Within w (places w f) (Disk.beside w f) (writeAll host f) := by
  have hreplace : ∀ kind pieces,
      Disk.Within w (places w f) (Disk.beside w f) (Disk.replace host (path f kind) pieces) := by
    intro kind pieces
    refine (Disk.replace_within hfresh (leaf?_path hf kind) pieces).mono ?_ (beside_path hf kind).le
    rintro q rfl
    exact ⟨kind, rfl⟩
  rw [writeAll_eq]
  exact (Disk.Within.look _).bind fun _ => (hreplace .md5 _).bind fun _ =>
    (hreplace .sha1 _).bind fun _ => .pure _

namespace UpToDate

variable {files : Set Place} {new : Set (Place × Entry)}

/-- What changes neither a file nor its checksum files leaves them up to date. -/
theorem mono (h : UpToDate fs f) (hchanges : Changes files new fs fs') (hf : fs.place f ∉ files)
    (hpaths : ∀ kind, fs.place (path f kind) ∉ files) : UpToDate fs' f := by
  obtain ⟨content, hread, hsums⟩ := h
  exact ⟨content, hchanges.read_of_not_mem hf hread,
    fun kind => hchanges.read_of_not_mem (hpaths kind) (hsums kind)⟩

/-- Two paths of one file are brought up to date at once. -/
theorem of_place_eq {g : Path} (hf : f.leaf? = some s) (hg : g.leaf? = some s) (h : UpToDate fs f)
    (hchanges : Changes files new fs fs') (hplace : fs.place f = fs.place g)
    (hup : UpToDate fs' g) :
    UpToDate fs' f := by
  have hreads : ∀ {p p' : Path} {content content' : Bytes}, fs.read p = .ok content →
      fs.place p = fs.place p' →
      fs'.read p' = .ok content' → fs'.read p = .ok content' := by
    intro p p' content content' hp heq hp'
    obtain ⟨q, hlocate, -⟩ := read_eq_ok_iff.mp hp
    obtain ⟨q', hlocate', hq'⟩ := read_eq_ok_iff.mp hp'
    have hsame : q = q' := by
      rw [← place_of_locate hlocate, ← place_of_locate hlocate', hchanges.place_eq, heq]
    rw [← hsame] at hq'
    exact read_eq_ok_iff.mpr ⟨q, hchanges.locate hlocate (by rw [hq', Option.isSome_some]), hq'⟩
  obtain ⟨content, hread, hsums⟩ := h
  obtain ⟨content', hread', hsums'⟩ := hup
  obtain ⟨directory, hwhere, hpath⟩ := place_path (w := fs.workingDirectory) hf
  obtain ⟨directory', hwhere', hpath'⟩ := place_path (w := fs.workingDirectory) hg
  have hdirectory : directory = directory' := by
    have heq : directory ++ [s] = directory' ++ [s] := by rw [← hwhere, ← hwhere']; exact hplace
    exact List.append_cancel_right heq
  refine ⟨content', hreads hread hplace hread', fun kind => hreads (hsums kind) ?_ (hsums' kind)⟩
  exact (hpath kind).trans (hdirectory ▸ (hpath' kind).symm)

end UpToDate
end ChecksumFile
end FeatureDepot
