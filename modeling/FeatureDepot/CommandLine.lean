import FeatureDepot.Path

/-! Command lines. Words are read from left to right, and the first one that settles the outcome
does: a request for help or the version, or a word that does not fit. -/
namespace FeatureDepot

/-- What a command line asks for: where the settings are, and what replaces them. -/
structure Invocation where
  settings : Path
  repository : Option Path
  flat : Bool
  generateMetadata : Bool
  deriving DecidableEq, Repr

namespace CommandLine

/-- How a command line is answered. -/
inductive Reply
  | run (invocation : Invocation)
  | shown
  | misused
  deriving DecidableEq, Repr

/-- An option with a value. -/
inductive ValueOption
  | settings
  | repository
  deriving DecidableEq, Repr

/-- A switch. -/
inductive Switch
  | flat
  | generateMetadata
  deriving DecidableEq, Repr

/-- The words read so far. -/
structure Progress where
  settings : Option Path := none
  repository : Option Path := none
  flat : Bool := false
  generateMetadata : Bool := false
  deriving DecidableEq, Repr

/-- What a word is: an option, whose value may be in the same word, a switch, a request, or the mark
behind which no options follow. -/
inductive Word
  | option (option : ValueOption) (value : Option (List Char))
  | switch (switch : Switch)
  | request
  | mark
  deriving DecidableEq, Repr

/-- The word behind two dashes. -/
def long? (name : List Char) : Option Word :=
  let value := (name.dropWhile (· != '=')).tail?
  match String.ofList (name.takeWhile (· != '=')), value with
  | "config", value => some (.option .settings value)
  | "repository", value => some (.option .repository value)
  | "flat-repo-layout", none => some (.switch .flat)
  | "generate-maven-metadata", none => some (.switch .generateMetadata)
  | "help", none => some .request
  | "version", none => some .request
  | _, _ => none

/-- The word behind one dash. An equals sign may stand between a letter and its value. -/
def short? : List Char → Option Word
  | 'c' :: [] => some (.option .settings none)
  | 'c' :: '=' :: value => some (.option .settings (some value))
  | 'c' :: value => some (.option .settings (some value))
  | 'h' :: _ => some .request
  | 'V' :: _ => some .request
  | _ => none

/-- What a word is, if it is one that can stand anywhere. -/
def word? (w : String) : Option Word :=
  match w.toList with
  | ['-', '-'] => some .mark
  | '-' :: '-' :: name => long? name
  | '-' :: name => short? name
  | [] => none
  | _ => none

/-- A word that starts with a dash is no value, except for the dash alone. -/
def isValue (w : String) : Bool :=
  match w.toList with
  | '-' :: _ :: _ => false
  | _ => true

/-- Notes the value of an option, which is given once and is not empty. -/
def Progress.setOption (p : Progress) (o : ValueOption) (value : String) : Option Progress :=
  if value.isEmpty then none
  else
    match o with
    | .settings => if p.settings.isNone then some { p with settings := some ⟨value⟩ } else none
    | .repository =>
      if p.repository.isNone then some { p with repository := some ⟨value⟩ } else none

/-- Notes a switch, which is given once. -/
def Progress.setSwitch (p : Progress) : Switch → Option Progress
  | .flat => if p.flat then none else some { p with flat := true }
  | .generateMetadata =>
    if p.generateMetadata then none else some { p with generateMetadata := true }

/-- The answer to words that were all read. Settings are needed. -/
def Progress.finish (p : Progress) : Reply :=
  match p.settings with
  | some settings => .run ⟨settings, p.repository, p.flat, p.generateMetadata⟩
  | none => .misused

/-- Reads words. -/
def read (p : Progress) : List String → Reply
  | [] => p.finish
  | w :: words =>
    match word? w with
    | none => .misused
    | some .request => .shown
    | some .mark => if words.isEmpty then p.finish else .misused
    | some (.switch s) =>
      match p.setSwitch s with
      | some p => read p words
      | none => .misused
    | some (.option o (some value)) =>
      match p.setOption o (String.ofList value) with
      | some p => read p words
      | none => .misused
    | some (.option o none) =>
      match words with
      | [] => .misused
      | value :: words =>
        if isValue value then
          match p.setOption o value with
          | some p => read p words
          | none => .misused
        else .misused

/-- The answer to a command line. -/
def parse (words : List String) : Reply := read {} words

example :
    parse ["-c=a", "--flat-repo-layout"] = .run ⟨⟨"a"⟩, none, true, false⟩ := by decide +kernel

/-- A value that starts with a dash has to stand in the word of its option. -/
example :
    parse ["-c", "-x"] = .misused ∧ parse ["-c-x"] = .run ⟨⟨"-x"⟩, none, false, false⟩ := by
  decide +kernel

end CommandLine
end FeatureDepot
