import FeatureDepot.Disk

/-! Reports: what became of every item of a batch or a run, in order. -/
namespace FeatureDepot

/-- What became of an item. -/
inductive Outcome
  | copied (destination : Path)
  | skipped
  | failed (failure : Failure)
  deriving DecidableEq, Repr

/-- Why an item is skipped. -/
def skipReason : String := "not a maven location"

/-- What is announced before an item is copied. -/
inductive Announcement
  | artifact (artifact : Artifact)
  | file (source destination : Path)
  deriving DecidableEq, Repr

/-- An item of a report. An item for which nothing could be copied is not announced. -/
structure ReportItem where
  label : String
  announcement : Option Announcement
  outcome : Outcome
  deriving DecidableEq, Repr

/-- Carries out an action that copies an item, and reports on it. -/
def ReportItem.ofAction (label : String) (announcement : Announcement) (action : Disk Path) :
    StateM FileSystem ReportItem := do
  match ← action.run with
  | .ok destination => return ⟨label, some announcement, .copied destination⟩
  | .error failure => return ⟨label, some announcement, .failed failure⟩

abbrev Report := List ReportItem

namespace Report

def copied (r : Report) : Nat := r.countP fun i => i.outcome matches .copied _

def skipped (r : Report) : Nat := r.countP fun i => i.outcome matches .skipped

def failed (r : Report) : Nat := r.countP fun i => i.outcome matches .failed _

end Report
end FeatureDepot
