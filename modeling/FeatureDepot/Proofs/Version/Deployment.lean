import FeatureDepot.Artifact
import FeatureDepot.Proofs.Version

/-! What versions are taken for deployed snapshots. The parts of a deployment are written with
dashes and a dot between them; no text is written from two deployments, and every other text is a
version as it stands. -/
namespace FeatureDepot

namespace Text

variable {digits : List Char} {n : UInt32}

/-- A number of 32 bits is read from one basic digit or more, which denote it. -/
theorem word?_eq_some_iff :
    word? digits = some n ↔ digits ≠ [] ∧ (∀ c ∈ digits, c.isDigit) ∧
    Nat.ofDigitChars 10 digits 0 = n.toNat := by
  have hdigits : digits.all Char.isDigit ↔ ∀ c ∈ digits, c.isDigit := List.all_eq_true
  have hvalue : valueFrom 0 digits = Nat.ofDigitChars 10 digits 0 := rfl
  unfold word?
  rw [Option.bind_eq_some_iff]
  constructor
  · rintro ⟨value, hnumber, hword⟩
    unfold number? at hnumber
    split at hnumber
    next hbasic =>
      obtain rfl := Option.some.inj hnumber
      split at hword
      next hlt =>
        obtain rfl := Option.some.inj hword
        refine ⟨hbasic.1, hdigits.mp hbasic.2, ?_⟩
        rw [← hvalue, UInt32.toNat_ofNat_of_lt' hlt]
      next => cases hword
    next => cases hnumber
  · rintro ⟨hne, hbasic, heq⟩
    refine ⟨n.toNat, ?_, ?_⟩
    · unfold number?
      rw [if_pos ⟨hne, hdigits.mpr hbasic⟩, hvalue, heq]
    · rw [if_pos n.toNat_lt_size, UInt32.ofNat_toNat]

end Text

/-- The parts of a deployed snapshot's version: its base, the day and the time of the deployment,
and the digits of the build number. -/
structure Deployment where
  base : List Char
  day : List Char
  time : List Char
  number : List Char

namespace Deployment

/-- A base on one line, a day of eight and a time of six decimal digits of any script, and a number
of 32 bits in basic digits. -/
structure WellFormed (d : Deployment) : Prop where
  base : '\n' ∉ d.base
  day : d.day.length = 8 ∧ ∀ c ∈ d.day, Text.isDecimalDigit c
  time : d.time.length = 6 ∧ ∀ c ∈ d.time, Text.isDecimalDigit c
  number : d.number ≠ [] ∧ ∀ c ∈ d.number, c.isDigit
  value : Nat.ofDigitChars 10 d.number 0 < UInt32.size

def stamp (d : Deployment) : List Char := d.day ++ '.' :: d.time

def build (d : Deployment) : UInt32 := UInt32.ofNat (Nat.ofDigitChars 10 d.number 0)

/-- The text of a deployed snapshot. -/
def text (d : Deployment) : String := String.ofList (d.base ++ '-' :: d.stamp ++ '-' :: d.number)

/-- The version that the text stands for. -/
def version (d : Deployment) : Version :=
  .snapshot (String.ofList d.base ++ "-SNAPSHOT") (String.ofList d.stamp) (some d.build)

end Deployment

namespace Version

variable {d d' : Deployment} {base stamp : List Char} {build : UInt32} {text : String}

lemma isTimestamp_iff : isTimestamp stamp ↔ ∃ day time, stamp = day ++ '.' :: time ∧
    (day.length = 8 ∧ ∀ c ∈ day, Text.isDecimalDigit c) ∧
    time.length = 6 ∧ ∀ c ∈ time, Text.isDecimalDigit c := by
  constructor
  · intro h
    have hlength := length_of_isTimestamp h
    unfold isTimestamp at h
    split at h
    next time hdrop =>
      simp only [Bool.and_eq_true, beq_iff_eq, List.all_eq_true] at h
      refine ⟨stamp.take 8, time, ?_, ⟨?_, h.1.1⟩, h.1.2, h.2⟩
      · rw [← hdrop, List.take_append_drop]
      · rw [List.length_take]
        omega
    next => cases h
  · rintro ⟨day, time, rfl, ⟨hday, hdays⟩, htime, htimes⟩
    unfold isTimestamp
    rw [← hday, List.drop_left, List.take_left]
    simp only [Bool.and_eq_true, beq_iff_eq, List.all_eq_true]
    exact ⟨⟨hdays, htime⟩, htimes⟩

/-- The cut of a text into its parts is the one that it was put together from. -/
theorem deployed?_text (h : d.WellFormed) :
    deployed? d.text.toList = some (d.base, d.stamp, d.build) := by
  refine deployed?_eq_some_iff.mpr ⟨d.number, String.toList_ofList, h.base, ?_, ?_⟩
  · exact isTimestamp_iff.mpr ⟨d.day, d.time, rfl, h.day, h.time⟩
  · refine Text.word?_eq_some_iff.mpr ⟨h.number.1, h.number.2, ?_⟩
    rw [Deployment.build, UInt32.toNat_ofNat_of_lt' h.value]

lemma exists_deployment (h : deployed? text.toList = some (base, stamp, build)) :
    ∃ d : Deployment, d.WellFormed ∧ d.text = text := by
  obtain ⟨number, htext, hbase, hstamp, hbuild⟩ := deployed?_eq_some_iff.mp h
  obtain ⟨day, time, rfl, hday, htime⟩ := isTimestamp_iff.mp hstamp
  obtain ⟨hne, hdigits, hvalue⟩ := Text.word?_eq_some_iff.mp hbuild
  refine ⟨⟨base, day, time, number⟩,
    ⟨hbase, hday, htime, ⟨hne, hdigits⟩, hvalue ▸ build.toNat_lt_size⟩, ?_⟩
  rw [← String.toList_inj, htext, Deployment.text, String.toList_ofList]
  rfl

/-- The number is what follows the last dash, and the day and the time are as long as they are. -/
theorem deployment_unique (h : d.WellFormed) (h' : d'.WellFormed) (htext : d.text = d'.text) :
    d = d' := by
  have hparts := deployed?_text h
  rw [htext, deployed?_text h'] at hparts
  obtain ⟨base, day, time, number⟩ := d
  obtain ⟨base', day', time', number'⟩ := d'
  simp only [Option.some.injEq, Prod.mk.injEq, Deployment.stamp] at hparts
  obtain ⟨rfl, hstamp, -⟩ := hparts
  obtain ⟨rfl, htime⟩ := List.append_inj hstamp (h'.day.1.trans h.day.1.symm)
  obtain rfl := (List.cons.inj htime).2
  simp only [Deployment.text, Deployment.stamp, String.ofList_inj, List.append_cancel_left_eq,
    List.cons.injEq, true_and] at htext
  rw [htext]

lemma parse_deployment (h : d.WellFormed) : parse d.text = d.version := by
  have hsuffix : String.ofList snapshotSuffix = "-SNAPSHOT" := String.ofList_toList
  rw [parse_of_some (deployed?_text h), String.ofList_append, hsuffix, Deployment.version]

lemma deployed?_eq_none_iff :
    deployed? text.toList = none ↔ ∀ d : Deployment, d.WellFormed → d.text ≠ text := by
  constructor
  · rintro h d hd rfl
    rw [deployed?_text hd] at h
    cases h
  · intro h
    rcases hdeployed : deployed? text.toList with - | ⟨base, stamp, build⟩
    · rfl
    · obtain ⟨d, hd, htext⟩ := exists_deployment hdeployed
      exact absurd htext (h d hd)

lemma parse_of_not_deployed (h : ∀ d : Deployment, d.WellFormed → d.text ≠ text) :
    parse text = .release text :=
  parse_of_none (deployed?_eq_none_iff.mpr h)

/-- A text with the snapshot ending has letters behind its last dash, so it is no deployed
snapshot. -/
theorem deployed?_append_snapshotSuffix (base : List Char) :
    deployed? (base ++ snapshotSuffix) = none := by
  have hcut : Text.cutLast? '-' (base ++ snapshotSuffix) = some (base, "SNAPSHOT".toList) :=
    Text.cutLast?_append (by decide) base
  have hword : Text.word? "SNAPSHOT".toList = none := by decide
  unfold deployed?
  rw [hcut, Option.bind_eq_bind, Option.bind_some]
  dsimp only
  rw [hword]
  rfl

/-- A base version stands for itself. -/
theorem parse_baseVersion (text : String) :
    parse (parse text).baseVersion = .release (parse text).baseVersion := by
  rcases hdeployed : deployed? text.toList with - | ⟨base, stamp, build⟩
  · rw [parse_of_none hdeployed]
    exact parse_of_none hdeployed
  · rw [parse_of_some hdeployed]
    refine parse_of_none ?_
    rw [baseVersion, String.toList_ofList]
    exact deployed?_append_snapshotSuffix base

/-- A version counts as a snapshot for the ending of its base version. -/
theorem isSnapshot_parse_iff (text : String) :
    (parse text).isSnapshot ↔ "-SNAPSHOT".toList <:+ (parse text).baseVersion.toList := by
  rcases hdeployed : deployed? text.toList with - | ⟨base, stamp, build⟩
  · rw [parse_of_none hdeployed]
    exact List.isSuffixOf_iff_suffix
  · have hsuffix : snapshotSuffix <:+ (String.ofList (base ++ snapshotSuffix)).toList := by
      rw [String.toList_ofList]
      exact List.suffix_append base snapshotSuffix
    rw [parse_of_some hdeployed]
    exact iff_of_true rfl hsuffix

end Version

/-- What an artifact shows as ends in a colon and the text of its version. -/
theorem Artifact.exists_display (a : Artifact) :
    ∃ front, ∀ version : Version, { a with version }.display = front ++ ":" ++ version.text := by
  cases a.classifier with
  | none => exact ⟨a.group ++ ":" ++ a.name ++ ":" ++ a.extension, fun version => by simp [display]⟩
  | some c =>
    refine ⟨a.group ++ ":" ++ a.name ++ ":" ++ a.extension ++ ":" ++ c, fun version => ?_⟩
    simp [display, String.append_assoc]

namespace Version

/-- A text is taken for a deployed snapshot if and only if it is put together from the parts of one,
which it is in one way at most; every other text is taken literally. A version is a snapshot if and
only if its base version ends as one; the base version has itself as its base version, and what an
artifact of the version shows behind the last colon is read as the same version again. -/
theorem parse_classifies (text : String) :
    ((∃ version stamp build, parse text = .snapshot version stamp build) ↔
      ∃ d : Deployment, d.WellFormed ∧ d.text = text) ∧
    (∀ d : Deployment, d.WellFormed → d.text = text →
      parse text = d.version ∧ ∀ d' : Deployment, d'.WellFormed → d'.text = text → d' = d) ∧
    ((∀ d : Deployment, d.WellFormed → d.text ≠ text) → parse text = .release text) ∧
    ((parse text).isSnapshot ↔ "-SNAPSHOT".toList <:+ (parse text).baseVersion.toList) ∧
    (parse (parse text).baseVersion).baseVersion = (parse text).baseVersion ∧
    (∀ a : Artifact, ∃ front, ∀ version : Version,
      { a with version }.display = front ++ ":" ++ version.text) ∧
    parse (parse text).text = parse text := by
  refine ⟨⟨?_, ?_⟩, ?_, parse_of_not_deployed, isSnapshot_parse_iff text, ?_,
    Artifact.exists_display, parse_text text⟩
  · rintro ⟨version, stamp, build, h⟩
    by_contra hnone
    rw [parse_of_not_deployed fun d hd htext => hnone ⟨d, hd, htext⟩] at h
    cases h
  · rintro ⟨d, hd, rfl⟩
    exact ⟨_, _, _, parse_deployment hd⟩
  · rintro d hd rfl
    exact ⟨parse_deployment hd, fun d' hd' htext => deployment_unique hd' hd htext⟩
  · rw [parse_baseVersion, baseVersion]

/-- Zeros in front of a build number are part of the text, and of nothing else. -/
theorem parse_classifies_zeros :
    (Deployment.mk "1-rc".toList "20240102".toList "030405".toList "007".toList).text =
      "1-rc-20240102.030405-007" ∧
    parse "1-rc-20240102.030405-007" = .snapshot "1-rc-SNAPSHOT" "20240102.030405" (some 7) ∧
    (∀ d : Deployment, d.WellFormed → d.text = "1-rc-20240102.030405-007" →
      d.number = "007".toList) ∧
    parse (parse "1-rc-20240102.030405-007").text = parse "1-rc-20240102.030405-007" := by
  have hparts :
      (Deployment.mk "1-rc".toList "20240102".toList "030405".toList "007".toList).WellFormed :=
    ⟨by decide, ⟨by decide, by decide⟩, ⟨by decide, by decide⟩, ⟨by decide, by decide⟩,
      by decide⟩
  have htext : (Deployment.mk "1-rc".toList "20240102".toList "030405".toList "007".toList).text =
      "1-rc-20240102.030405-007" := by decide +kernel
  obtain ⟨-, hcut, -, -, -, -, hagain⟩ := parse_classifies "1-rc-20240102.030405-007"
  obtain ⟨hparse, hunique⟩ := hcut _ hparts htext
  have hversion :
      (Deployment.mk "1-rc".toList "20240102".toList "030405".toList "007".toList).version =
      .snapshot "1-rc-SNAPSHOT" "20240102.030405" (some 7) := by decide +kernel
  exact ⟨htext, hparse.trans hversion, fun d hd hspelt => by rw [hunique d hd hspelt], hagain⟩

end Version
end FeatureDepot
