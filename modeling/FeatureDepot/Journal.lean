import FeatureDepot.CommandLine
import FeatureDepot.Run

/-! The journal: what the program tells while it runs, and how it ends. -/
namespace FeatureDepot

/-- How important a line of the journal is. -/
inductive Level
  | info
  | warn
  | error
  deriving DecidableEq, Repr

def Level.text : Level → String
  | info => "INFO"
  | warn => "WARN"
  | error => "ERROR"

/-- A line of the journal. -/
structure Line where
  level : Level
  message : String
  deriving DecidableEq, Repr

namespace Journal

def announcementText : Announcement → String
  | .artifact a => "copying artifact: " ++ a.display
  | .file source destination => "copying file " ++ source.text ++ " to " ++ destination.text

/-- The line about a temporary file that could not be removed. -/
def ofAbandoned (f : Failure) : List Line :=
  f.abandoned.toList.map fun (file, e) =>
    ⟨.error, "error cleaning up " ++ file.text ++ " after failed attempt to write: " ++ e.message⟩

/-- The lines about an item. -/
def ofItem (i : ReportItem) : List Line :=
  (i.announcement.toList.map fun a => ⟨.info, announcementText a⟩) ++
  match i.outcome with
  | .failed f =>
    ofAbandoned f ++ [⟨.warn, "error copying artifact " ++ i.label ++ ": " ++ f.message⟩]
  | _ => []

/-- The last line of a program that fails. -/
def ofFailure (f : Failure) : Line :=
  ⟨.error, "adding features to repository failed: " ++ f.message⟩

/-- The first line about a run with given settings. -/
def opening (s : Settings) : Line := ⟨.info, "adding features to repository " ++ s.repository.text⟩

/-- The last lines about a run. -/
def closing (report : Report) : List Line :=
  [⟨.info, "done: " ++ toString report.copied ++ " copied, " ++
    toString report.skipped ++ " skipped, " ++
      toString report.failed ++ " failed"⟩,
   ⟨.info, toString report.length ++ " items processed"⟩]

/-- The lines about a run with given settings. -/
def ofRun (s : Settings) (result : Except Failure Report) : List Line :=
  opening s ::
  match result with
  | .error f => [ofFailure f]
  | .ok report => report.flatMap ofItem ++ closing report

end Journal

/-- How the program ends, and what it tells. -/
structure Conclusion where
  exitCode : Nat
  journal : List Line
  deriving DecidableEq, Repr

namespace Invocation

/-- The settings that an invocation replaces a part of. -/
def apply (i : Invocation) (s : Settings) : Settings :=
  { s with
    repository := i.repository.getD s.repository
    flat := s.flat || i.flat
    generateMetadata := s.generateMetadata || i.generateMetadata }

/-- Carries out an invocation. Items that fail do not make the program fail. -/
def run (host : Host) (home : Option String) (i : Invocation) (fs : FileSystem) :
    Conclusion × FileSystem :=
  match Settings.load home i.settings fs with
  | .error f => (⟨1, [Journal.ofFailure f]⟩, fs)
  | .ok s =>
    let s := i.apply s
    let (result, fs) := s.run host fs
    (⟨if result matches .ok _ then 0 else 1, Journal.ofRun s result⟩, fs)

end Invocation

/-- Runs the program with the words of a command line. -/
def CommandLine.run (host : Host) (home : Option String) (words : List String) (fs : FileSystem) :
    Conclusion × FileSystem :=
  match parse words with
  | .run i => i.run host home fs
  | .shown => (⟨0, []⟩, fs)
  | .misused => (⟨2, []⟩, fs)

end FeatureDepot
