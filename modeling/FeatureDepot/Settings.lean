import FeatureDepot.Json.Record
import FeatureDepot.Path

/-! The settings of a run: where artifacts come from and go to, what is added, and how. -/
namespace FeatureDepot

/-- A file to copy into the repository, below a directory of it and under a name. -/
structure FileCopy where
  source : Path := ⟨""⟩
  directory : Path := ⟨""⟩
  name : String := ""
  deriving DecidableEq, Repr

/-- The path of the copy in the repository. -/
def FileCopy.target (c : FileCopy) : Path := c.directory.push c.name

structure Settings where
  repository : Path
  localRepository : Path
  flat : Bool := false
  generateMetadata : Bool := false
  descriptors : List String := []
  features : List String := []
  ignoreDependencyFlag : Bool := false
  skipForeign : Bool := true
  fileCopies : List FileCopy := []
  deriving DecidableEq, Repr

namespace Settings

/-- The settings of an empty document. The local repository lies in the home directory, if there is
one. -/
def default (home : Option String) : Settings :=
  { repository := (Path.mk "target").push "features-repo"
    localRepository := ((Path.mk (home.getD "")).push ".m2").push "repository" }

open Json

def readPath : Reader Path := fun cs => (readText "path string" cs).map fun (p, rest) => (⟨p⟩, rest)

def readString : Reader String := readText "a string"

def fileCopySchema : Schema FileCopy where
  name := "CopyFileBasedDescriptor"
  fields := [
    .needed "source_file" readPath fun v c => { c with source := v },
    .optional "target_directory" readPath fun v c => { c with directory := v },
    .needed "target_file_name" readString fun v c => { c with name := v }]

def schema : Schema Settings where
  name := "AddToRepositoryConfig"
  fields := [
    .optional "repository" readPath fun v s => { s with repository := v },
    .optional "local_repository" readPath fun v s => { s with localRepository := v },
    .optional "flat_repo_layout" readBool fun v s => { s with flat := v },
    .optional "generate_maven_metadata" readBool fun v s => { s with generateMetadata := v },
    .optional "descriptors" (readList readString) fun v s => { s with descriptors := v },
    .optional "features" (readList readString) fun v s => { s with features := v },
    .optional "ignore_dependency_flag" readBool fun v s => { s with ignoreDependencyFlag := v },
    .optional "skip_non_maven_protocols" readBool fun v s => { s with skipForeign := v },
    .optional "copy_file_based_descriptors" (readList (fileCopySchema.read {})) fun v s =>
      { s with fileCopies := v }]

/-- Reads settings. -/
def parse (home : Option String) (text : String) : Except Json.Fault Settings :=
  Json.parse (schema.read (default home)) text

/-- A list holds the fields in order. -/
example :
    (parse none "[\"r\"]").toOption = some { default none with repository := ⟨"r"⟩ } := by
  decide +kernel

end Settings
end FeatureDepot
