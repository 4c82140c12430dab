import FeatureDepot.Depot
import FeatureDepot.Location
import FeatureDepot.Settings

/-! A run: the configured descriptors and those that they refer to are loaded, features are
selected, and the descriptors, what the features consist of and further files are copied. What is to
be done is settled before anything is changed; from then on, no failure of an item ends the run. -/
namespace FeatureDepot

/-- A descriptor, and the artifact that it was read from. -/
structure LoadedDescriptor where
  source : ResolvedArtifact
  descriptor : Descriptor
  deriving DecidableEq, Repr

namespace LoadedDescriptor

/-- Reads the descriptor that an mvn URL names. -/
def read (settings : Settings) (fs : FileSystem) (location : String) :
    Except Cause LoadedDescriptor :=
  match Location.artifact? location with
  | none => .error .descriptorNotMvn
  | some a =>
    match fs.resolve settings.localRepository a with
    | .error e => .error (.io e)
    | .ok ⟨_, none⟩ => .error (.descriptorNotPresent a)
    | .ok ⟨_, some file⟩ =>
      match fs.readText file with
      | .error e => .error (.io e)
      | .ok text =>
        match Descriptor.parse text with
        | .ok d => .ok ⟨⟨a, some file⟩, d⟩
        | .error fault => .error (.markup fault)

/-- The mvn URLs of the descriptors that a descriptor refers to. -/
def references (d : Descriptor) : List String := d.repositories.map Location.toMvnUrl

/-- Loads a descriptor, and tells which ones it refers to. -/
def load (settings : Settings) (fs : FileSystem) (location : String) :
    Except Failure (LoadedDescriptor × List String) :=
  match read settings fs location with
  | .ok d => .ok (d, references d.descriptor)
  | .error cause => .error { activities := [.loadingDescriptor location], cause }

/-- The references of the descriptor that an entry of a file system holds, if it holds one. -/
def referencesOf (entry : Entry) : List String :=
  match entry with
  | .directory => []
  | .file content =>
    match Bytes.decode? content with
    | none => []
    | some text =>
      match Descriptor.parse text with
      | .ok d => references d
      | .error _ => []

theorem exists_of_readText {fs : FileSystem} {file : Path} {text : String}
    (h : fs.readText file = .ok text) :
    ∃ place content, (place, Entry.file content) ∈ fs.entries ∧
    Bytes.decode? content = some text := by
  unfold FileSystem.readText FileSystem.read at h
  simp only [bind, Except.bind] at h
  split at h
  · cases h
  next content hread =>
    split at hread
    · cases hread
    next place _ =>
      split at hread
      next c hentry =>
        obtain rfl := Except.ok.inj hread
        split at h
        next t hdecode =>
          obtain rfl := Except.ok.inj h
          exact ⟨place, c, FileSystem.mem_entries_of_get?_file hentry, hdecode⟩
        · cases h
      · cases hread

/-- The files of a file system hold finitely many references. -/
theorem finite_load (settings : Settings) (fs : FileSystem) :
    Closure.Finite (load settings fs) := by
  refine ⟨fs.entries.flatMap fun e => referencesOf e.2, fun location d references h c hc => ?_⟩
  unfold load at h
  split at h
  next d' hread =>
    obtain ⟨rfl, rfl⟩ := Prod.mk.injEq .. ▸ Except.ok.inj h
    unfold read at hread
    split at hread
    · cases hread
    · split at hread
      · cases hread
      · cases hread
      · split at hread
        · cases hread
        next text htext =>
          split at hread
          next d'' hparse =>
            obtain rfl := Except.ok.inj hread
            obtain ⟨place, content, hmem, hdecode⟩ := exists_of_readText htext
            refine List.mem_flatMap.mpr ⟨_, hmem, ?_⟩
            simpa [referencesOf, hdecode, hparse] using hc
          · cases hread
  · cases h

/-- Loads the configured descriptors and all that they refer to, breadth first. -/
def loadAll (settings : Settings) (fs : FileSystem) :
    Except Failure (List (String × LoadedDescriptor)) :=
  Closure.reach (load settings fs) (finite_load settings fs)
    (settings.descriptors.map Location.toMvnUrl)

end LoadedDescriptor

/-- A thing to copy. -/
inductive Task
  | descriptor (source : ResolvedArtifact)
  | location (text : String)
  | file (copy : FileCopy)
  deriving DecidableEq, Repr

namespace Task

/-- The name of a task in a report. -/
def label : Task → String
  | descriptor source => source.artifact.display
  | location text => text
  | file copy => copy.source.text

/-- The locations of what a feature consists of: its bundles, those of its conditionals that are not
left to others, and its configuration files. -/
def locations (settings : Settings) (f : Feature) : List String :=
  f.bundles.map Bundle.location ++
  f.conditionals.flatMap (fun c =>
    (c.bundles.filter fun b => settings.ignoreDependencyFlag || !b.dependency).map
      Bundle.location) ++
  f.configFiles.map ConfigFile.location

/-- The tasks of a run over loaded descriptors and selected features. -/
def all (settings : Settings) (loaded : List LoadedDescriptor) (features : List Feature) :
    List Task :=
  loaded.map (fun d => descriptor d.source) ++
  (features.flatMap (locations settings)).map location ++
  settings.fileCopies.map file

end Task

namespace Settings

/-- The depot that a run copies to. -/
def depot (s : Settings) : Depot := ⟨s.repository, .ofFlat s.flat, s.generateMetadata⟩

/-- The tasks of a run. -/
def plan (s : Settings) (fs : FileSystem) : Except Failure (List Task) := do
  let loaded := (← LoadedDescriptor.loadAll s fs).map Prod.snd
  match selectFeatures (loaded.map LoadedDescriptor.descriptor) s.features with
  | .ok features => return Task.all s loaded features
  | .error fault => throw { cause := .selection fault }

/-- Copies what a location names. -/
def addLocation (host : Host) (s : Settings) (location : String) :
    StateM FileSystem ReportItem := do
  if !Location.isMvnUrl location && s.skipForeign then return ⟨location, none, .skipped⟩
  match Location.artifact? location with
  | none => return ⟨location, none, .failed { cause := .notMvn location }⟩
  | some a =>
    match (← get).resolve s.localRepository a with
    | .error e => return ⟨location, none, .failed { cause := .io e }⟩
    | .ok r => s.depot.add host location r

/-- Carries out a task. -/
def perform (host : Host) (s : Settings) : Task → StateM FileSystem ReportItem
  | .descriptor source => s.depot.add host source.artifact.display source
  | .location location => s.addLocation host location
  | .file copy =>
    ReportItem.ofAction copy.source.text (.file copy.source (s.depot.root.join copy.target))
      (s.depot.copyFile host copy.source copy.target)

/-- Carries out a run. -/
def run (host : Host) (s : Settings) (fs : FileSystem) : Except Failure Report × FileSystem :=
  match s.plan fs with
  | .error failure => (.error failure, fs)
  | .ok tasks =>
    let (report, fs) := (tasks.mapM (s.perform host)).run fs
    (.ok report, fs)

/-- Loads settings from a file. -/
def load (home : Option String) (file : Path) (fs : FileSystem) : Except Failure Settings :=
  match fs.readText file with
  | .error e => .error { activities := [.readingSettings file], cause := .io e }
  | .ok text =>
    match parse home text with
    | .ok s => .ok s
    | .error fault => .error { activities := [.parsingSettings file], cause := .json fault }

end Settings
end FeatureDepot
