import FeatureDepot.Proofs.Depot.Leftovers
import FeatureDepot.Proofs.Depot.Materialize
import FeatureDepot.Proofs.Run.Report

/-! The names that temporary files get. A host is asked for one each time a file is replaced, and
what an action does depends on these names only; so where none of them is in use, the host may as
well be one that never gives a name that is. -/
namespace FeatureDepot
open FileSystem FeatureDepot.Path

namespace Host

variable {host other : Host} {fs : FileSystem} {p : Path}

lemma avoids_congr (h : other.tag fs p = host.tag fs p) : other.Avoids fs p ↔ host.Avoids fs p := by
  unfold Avoids Disk.temporary
  rw [h]

/-- A host that draws what another one does, and a long tag where that is the tag of a name in
use. -/
def careful (host : Host) : Host where
  now := host.now
  tag fs p := if host.Avoids fs p then host.tag fs p else (long host.now).tag fs p

lemma tag_careful (h : host.Avoids fs p) : host.careful.tag fs p = host.tag fs p := if_pos h

theorem fresh_careful (host : Host) : host.careful.Fresh := by
  intro fs p
  by_cases h : host.Avoids fs p
  · exact (avoids_congr (tag_careful h)).mpr h
  · exact (avoids_congr (if_neg h)).mpr (fresh_long host.now fs p)

end Host

namespace Disk

variable {α β : Type} {host : Host}

/-- What is drawn from a host in the course of an action: the paths that temporary files are made
for, each with the file system at that time. -/
abbrev Draws := FileSystem → List (FileSystem × Path)

namespace Draws

def nothing : Draws := fun _ => []

/-- What is drawn by one action and then by another one behind it, unless the first one fails. -/
def andThen (first : Draws) (x : Disk α) (rest : α → Draws) : Draws := fun fs =>
  first fs ++ match x fs with
    | (.ok a, fs) => rest a fs
    | (.error _, _) => []

def replace (p : Path) : Draws := fun fs => [(fs, p)]

def copy (source p : Path) : Draws :=
  nothing.andThen (look (·.openFile source)) fun _ =>
    nothing.andThen (makeRoom p) fun _ => replace p

def update (file : Path) : Draws :=
  nothing.andThen (during (.reading file) (Metadata.read file)) fun _ =>
    nothing.andThen (makeRoom file) fun _ => replace file

def writeAll (host : Host) (f : Path) : Draws :=
  nothing.andThen (look (·.read f)) fun content =>
    (replace (ChecksumFile.path f .md5)).andThen
      (Disk.replace host (ChecksumFile.path f .md5)
        [.ok (Bytes.encode (ChecksumKind.md5.checksum content))]) fun _ =>
    replace (ChecksumFile.path f .sha1)

def describe (host : Host) (a : Artifact) (file : Path) : Draws :=
  let version := Layout.versionMetadata file
  let all := Layout.artifactMetadata file
  (update version).andThen (Metadata.update host version (·.addLocalCopy a host.now)) fun _ =>
  (update all).andThen (Metadata.update host all (·.addArtifact a)) fun _ =>
  (writeAll host file).andThen
    (during (.writingChecksums file) (ChecksumFile.writeAll host file)) fun _ =>
  (writeAll host version).andThen
    (during (.writingChecksums version) (ChecksumFile.writeAll host version)) fun _ =>
  writeAll host all

/-- Nothing else is drawn: an action does the same under all hosts of one time that give the same
tags there. -/
def Covers (draws : Draws) (host : Host) (x : Host → Disk α) : Prop :=
  ∀ other fs, other.now = host.now →
  (∀ t ∈ draws fs, other.tag t.1 t.2 = host.tag t.1 t.2) → x other fs = x host fs

namespace Covers

variable {draws first : Draws} {x : Host → Disk α}

lemma fixed (draws : Draws) (host : Host) (x : Disk α) : draws.Covers host fun _ => x :=
  fun _ _ _ _ => rfl

lemma during {activity : Activity} (h : draws.Covers host x) :
    draws.Covers host fun host => during activity (x host) := by
  intro other fs hnow htags
  dsimp only
  rw [during_eq, during_eq, h other fs hnow htags]

lemma bind {rest : α → Draws} {f : Host → α → Disk β} (hx : first.Covers host x)
    (hf : ∀ a, (rest a).Covers host fun host => f host a) :
    (first.andThen (x host) rest).Covers host fun host => x host >>= f host := by
  intro other fs hnow htags
  have hfirst := hx other fs hnow fun t ht => htags t (List.mem_append_left _ ht)
  dsimp only
  rw [bind_eq, bind_eq, hfirst]
  rcases hresult : x host fs with ⟨failure | a, middle⟩
  · rfl
  · refine hf a other middle hnow fun t ht => htags t (List.mem_append_right _ ?_)
    rw [hresult]
    exact ht

/-- What is done with the result may draw nothing more. -/
theorem bind_fixed (h : draws.Covers host x) (f : α → Disk β) :
    draws.Covers host fun host => x host >>= f := by
  intro other fs hnow htags
  dsimp only
  rw [bind_eq, bind_eq, h other fs hnow htags]

/-- Replacing a file draws one name. Its content may tell the time, but nothing else of the host. -/
theorem replace {pieces : Host → List (Except Cause Bytes)} (p : Path)
    (hpieces : ∀ other : Host, other.now = host.now → pieces other = pieces host) :
    (Draws.replace p).Covers host fun host => Disk.replace host p (pieces host) := by
  intro other fs hnow htags
  have htag : temporary other fs p = temporary host fs p := by
    unfold temporary
    rw [htags (fs, p) (List.mem_singleton_self _)]
  dsimp only
  rw [replace_eq, replace_eq, htag, hpieces other hnow]

lemma copy (host : Host) (source p : Path) :
    (Draws.copy source p).Covers host fun host => Disk.copy host source p := by
  unfold Draws.copy Disk.copy
  exact (fixed _ host _).bind fun _ => (fixed _ host _).bind fun _ => replace p fun _ _ => rfl

lemma update {change : Host → Metadata → Metadata} (file : Path)
    (hchange : ∀ other : Host, other.now = host.now → change other = change host) :
    (Draws.update file).Covers host fun host => Metadata.update host file (change host) := by
  unfold Draws.update Metadata.update Metadata.write
  exact (fixed _ host _).bind fun _ => ((fixed _ host _).bind fun _ =>
    replace file fun other hnow => by rw [hchange other hnow]).during

lemma writeAll (host : Host) (f : Path) :
    (Draws.writeAll host f).Covers host fun host => ChecksumFile.writeAll host f := by
  have hsum : ∀ content (kind : ChecksumKind),
      (Draws.replace (ChecksumFile.path f kind)).Covers host fun host =>
      Disk.replace host (ChecksumFile.path f kind) [.ok (Bytes.encode (kind.checksum content))] :=
    fun _ _ => replace _ fun _ _ => rfl
  simp only [ChecksumFile.writeAll_eq]
  exact (fixed _ host _).bind fun content => (hsum content .md5).bind fun _ =>
    (hsum content .sha1).bind_fixed _

lemma describe (host : Host) (a : Artifact) (file : Path) :
    (Draws.describe host a file).Covers host fun host => Depot.describe host a file := by
  have hversion : (Draws.update (Layout.versionMetadata file)).Covers host fun host =>
      Metadata.update host (Layout.versionMetadata file) (·.addLocalCopy a host.now) :=
    update _ fun other hnow => by rw [hnow]
  have hall : (Draws.update (Layout.artifactMetadata file)).Covers host fun host =>
      Metadata.update host (Layout.artifactMetadata file) (·.addArtifact a) :=
        update _ fun _ _ => rfl
  have hsums : ∀ f, (Draws.writeAll host f).Covers host fun host =>
      Disk.during (.writingChecksums f) (ChecksumFile.writeAll host f) :=
        fun f => (writeAll host f).during
  simp only [Depot.describe_eq]
  unfold Draws.describe
  exact hversion.bind fun _ => hall.bind fun _ => (hsums file).bind fun _ =>
    (hsums (Layout.versionMetadata file)).bind fun _ =>
      (hsums (Layout.artifactMetadata file)).bind_fixed _

end Covers
end Draws
end Disk

namespace Depot
open Disk

variable {host : Host} {d : Depot} {r : ResolvedArtifact} {rs : List ResolvedArtifact}
  {fs : FileSystem}

/-- What is drawn when an artifact is materialized. -/
def draws (host : Host) (d : Depot) (r : ResolvedArtifact) : Draws :=
  let destination := d.destination r.artifact
  match r.file with
  | none => .nothing
  | some source =>
    (Draws.copy source destination).andThen
      (during (.copying source destination) (copy host source destination)) fun _ =>
      if d.generateMetadata then .describe host r.artifact destination else .nothing

lemma covers_draws (host : Host) (d : Depot) (r : ResolvedArtifact) :
    (d.draws host r).Covers host fun host => d.materialize host r := by
  simp only [materialize_eq]
  unfold draws
  cases r.file with
  | none => exact .fixed _ host _
  | some source =>
    refine (Draws.Covers.copy host source _).during.bind fun _ => .bind_fixed ?_ _
    cases d.generateMetadata with
    | false =>
      simp only [Bool.false_eq_true, if_false]
      exact .fixed _ host _
    | true =>
      simp only [if_true]
      exact .describe host r.artifact _

/-- Where no name that is drawn is in use, the host may as well be careful. -/
theorem materialize_careful (hunused : ∀ t ∈ d.draws host r fs, host.Avoids t.1 t.2) :
    d.materialize host.careful r fs = d.materialize host r fs :=
  covers_draws host d r host.careful fs rfl fun t ht => Host.tag_careful (hunused t ht)

theorem add_run (host : Host) (d : Depot) (label : String) (r : ResolvedArtifact)
    (fs : FileSystem) :
    (d.add host label r).run fs = match d.materialize host r fs with
      | (.ok destination, fs) => (⟨label, some (.artifact r.artifact), .copied destination⟩, fs)
      | (.error failure, fs) => (⟨label, some (.artifact r.artifact), .failed failure⟩, fs) :=
  ReportItem.ofAction_run _ _ _ fs

/-- The items of a batch, each with the file system at its turn. -/
def turns (host : Host) (d : Depot) (rs : List ResolvedArtifact) (fs : FileSystem) :
    List (ResolvedArtifact × FileSystem) :=
  Batch.turns (fun r => d.add host r.artifact.display r) rs fs

theorem materializeAll_careful
    (hunused : ∀ t ∈ d.turns host rs fs, ∀ u ∈ d.draws host t.1 t.2, host.Avoids u.1 u.2) :
    (d.materializeAll host.careful rs).run fs = (d.materializeAll host rs).run fs := by
  induction rs generalizing fs with
  | nil => rw [materializeAll, materializeAll, List.mapM_nil, List.mapM_nil]
  | cons r rs ih =>
    have hhead : (d.add host.careful r.artifact.display r).run fs =
        (d.add host r.artifact.display r).run fs := by
      rw [add_run, add_run, materialize_careful (hunused (r, fs) List.mem_cons_self)]
    have hrest := ih fun t ht => hunused t (List.mem_cons_of_mem _ ht)
    unfold materializeAll at hrest ⊢
    rw [Batch.mapM_run_cons, Batch.mapM_run_cons, hhead, hrest]

end Depot
end FeatureDepot
