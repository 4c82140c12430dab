import FeatureDepot.Markup.Fault
import FeatureDepot.Text.Cut

/-! The attributes of a tag. They are read from left to right up to the first fault, whose position
counts bytes from the start of the tag's name. -/
namespace FeatureDepot.Markup

open Text

/-- A name and a value with its references as they stand in the text. -/
structure Attribute where
  name : List Char
  value : List Char
  deriving DecidableEq, Repr

namespace Attribute

/-- An equals sign or white space ends a name, except at its first character. -/
def isNameEnd (c : Char) : Bool := c == '=' || isBlank c

/-- Reads one attribute, whose name starts with the given character. `position` tells where a rest
of the text starts, and `previous?` where an attribute of a name was read before. -/
def step (position : List Char → Nat) (previous? : List Char → Option Nat) (c : Char)
    (cs : List Char) :
    Except AttributeFault (Attribute × List Char) :=
  let name := c :: cs.takeWhile (!isNameEnd ·)
  match (cs.dropWhile (!isNameEnd ·)).dropWhile isBlank with
  | '=' :: rest =>
    match previous? name with
    | some previous => .error (.duplicate (position (c :: cs)) previous)
    | none =>
      match rest.dropWhile isBlank with
      | [] => .error (.noValue (position []))
      | q :: rest =>
        if q = '"' ∨ q = '\'' then
          match Text.cutFirst? q rest with
          | some (value, rest) => .ok (⟨name, value⟩, rest)
          | none => .error (.noClosingQuote (position []) q)
        else .error (.unquoted (position (q :: rest)))
  | rest => .error (.noEquals (position rest))

theorem length_step {position : List Char → Nat} {previous? : List Char → Option Nat} {c : Char}
    {cs rest : List Char} {a : Attribute} (h : step position previous? c cs = .ok (a, rest)) :
    rest.length < cs.length + 1 := by
  have drop (p : Char → Bool) (cs : List Char) := (cs.dropWhile_sublist p).length_le
  have cut {q : Char} {cs a b : List Char} (h : Text.cutFirst? q cs = some (a, b)) :
      b.length ≤ cs.length := by
    rw [(Text.cutFirst?_eq_some h).1]
    simp
    omega
  unfold step at h
  grind

/-- Reads attributes behind those that were read already, given by their positions and names. -/
def scanFrom (total : Nat) (distinct : Bool) (seen : List (List Char × Nat)) (cs : List Char) :
    List Attribute × Option AttributeFault :=
  match h : cs.dropWhile isBlank with
  | [] => ([], none)
  | c :: rest =>
    let position (rest : List Char) := total - size rest
    match h' : step position (fun name => if distinct then seen.lookup name else none) c rest with
    | .error fault => ([], some fault)
    | .ok (a, next) =>
      have : next.length < cs.length :=
        Nat.lt_of_lt_of_le (length_step h')
          (by simpa [h] using (cs.dropWhile_sublist isBlank).length_le)
      let (attributes, fault) :=
        scanFrom total distinct ((a.name, position (c :: rest)) :: seen) next
      (a :: attributes, fault)
termination_by cs.length

/-- The attributes that follow a name of a given size in a tag, up to the first fault. -/
def scan (nameSize : Nat) (distinct : Bool) (cs : List Char) :
    List Attribute × Option AttributeFault :=
  scanFrom (nameSize + size cs) distinct [] cs

end Attribute
end FeatureDepot.Markup
