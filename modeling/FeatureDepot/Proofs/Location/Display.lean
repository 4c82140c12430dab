import FeatureDepot.Proofs.Location.Translation
import FeatureDepot.Proofs.Version

/-! Artifacts as reports show them. The text of an artifact of an mvn URL is coordinates: read back,
they name the artifact itself, with the moment and the number of a deployed snapshot. -/
namespace FeatureDepot

variable {u : MvnUrl} {a : Artifact} {location : String}

namespace Artifact

/-- The coordinates that an artifact shows as. Its extension is always given. -/
def coordinates (a : Artifact) : Coordinates :=
  ⟨a.group.toList, a.name.toList, some (a.extension.toList, a.classifier.map String.toList),
    a.version.text.toList⟩

/-- Artifacts whose parts both notations have a place for, with a version that is read from its own
text. -/
structure Readable (a : Artifact) : Prop where
  group : MvnUrl.isName a.group.toList ∧ ':' ∉ a.group.toList
  name : MvnUrl.isName a.name.toList ∧ ':' ∉ a.name.toList
  version : MvnUrl.isQualifier a.version.text.toList ∧ ':' ∉ a.version.text.toList
  extension : MvnUrl.isQualifier a.extension.toList ∧ ':' ∉ a.extension.toList
  classifier : ∀ c ∈ a.classifier, MvnUrl.isQualifier c.toList ∧ ':' ∉ c.toList
  parse_text : Version.parse a.version.text = a.version

lemma toList_display (a : Artifact) : a.display.toList = a.coordinates.render := by
  have hcolon : ":".toList = [':'] := rfl
  obtain ⟨group, name, version, classifier, extension⟩ := a
  cases classifier <;> simp [display, coordinates, Coordinates.render, hcolon]

lemma Readable.wellFormed_coordinates (h : a.Readable) : a.coordinates.WellFormed := by
  have hnamed {cs : List Char} (hcs : MvnUrl.isName cs ∧ ':' ∉ cs) : Coordinates.isFilled cs := by
    obtain ⟨hne, -, hspace⟩ := MvnUrl.isName_iff.mp hcs.1
    exact Coordinates.isFilled_iff.mpr ⟨hne, Coordinates.isPart_iff.mpr ⟨hcs.2, hspace⟩⟩
  have hqualified {cs : List Char} (hcs : MvnUrl.isQualifier cs ∧ ':' ∉ cs) :
      Coordinates.isFilled cs := by
    obtain ⟨hne, hplain⟩ := MvnUrl.isQualifier_iff.mp hcs.1
    exact Coordinates.isFilled_iff.mpr ⟨hne,
      Coordinates.isPart_iff.mpr ⟨hcs.2, (MvnUrl.isVersion_iff.mp hplain).2.2⟩⟩
  refine ⟨hnamed h.group, hnamed h.name, hqualified h.version, ?_⟩
  rintro q hq
  obtain rfl := Option.some.inj hq
  refine ⟨(Coordinates.isFilled_iff.mp (hqualified h.extension)).2, ?_⟩
  rintro c hc
  obtain ⟨text, htext, rfl⟩ := Option.map_eq_some_iff.mp hc
  exact hqualified (h.classifier text htext)

lemma Readable.portable_coordinates (h : a.Readable) : a.coordinates.Portable := by
  have hqualified {cs : List Char} (hcs : MvnUrl.isQualifier cs ∧ ':' ∉ cs) : '/' ∉
      cs ∧ '$' ∉ cs := by
    obtain ⟨hslash, hdollar, -⟩ := MvnUrl.isVersion_iff.mp (MvnUrl.isQualifier_iff.mp hcs.1).2
    exact ⟨hslash, hdollar⟩
  refine ⟨(MvnUrl.isName_iff.mp h.group.1).2.1, (MvnUrl.isName_iff.mp h.name.1).2.1,
    hqualified h.version, ?_⟩
  rintro q hq
  obtain rfl := Option.some.inj hq
  refine ⟨hqualified h.extension, ?_⟩
  rintro c hc
  obtain ⟨text, htext, rfl⟩ := Option.map_eq_some_iff.mp hc
  exact hqualified (h.classifier text htext)

lemma Readable.artifact?_toUrl_coordinates (h : a.Readable) :
    a.coordinates.toUrl.artifact? = some a := by
  have htext := (MvnUrl.isQualifier_iff.mp h.version.1).1
  have hextension := (MvnUrl.isQualifier_iff.mp h.extension.1).1
  have hversion := h.parse_text
  obtain ⟨group, name, version, classifier, extension⟩ := a
  unfold MvnUrl.artifact?
  rw [if_neg (by simpa [coordinates, Coordinates.toUrl] using htext)]
  cases classifier with
  | none => simp [coordinates, Coordinates.toUrl, MvnUrl.classifier?, hextension, hversion]
  | some c =>
    simp [coordinates, Coordinates.toUrl, MvnUrl.classifier?, orDefault, hextension, hversion]

end Artifact

namespace MvnUrl

/-- The text of a version holds nothing that the version was not written with, digits apart. -/
theorem not_mem_text {c : Char} {version : List Char} (h : c ∉ version)
    (hdigit : c.isDigit = false) :
    c ∉ (Version.parse (String.ofList version)).text.toList := by
  intro hmem
  rcases Version.mem_text hmem with hmem | hmem
  · rw [String.toList_ofList] at hmem
    exact h hmem
  · rw [hdigit] at hmem
    cases hmem

lemma isQualifier_text {version : List Char} (h : isVersion version) (hne : version ≠ []) :
    isQualifier (Version.parse (String.ofList version)).text.toList := by
  obtain ⟨hslash, hdollar, hspace⟩ := isVersion_iff.mp h
  refine isQualifier_iff.mpr ⟨Version.text_ne_nil ?_, isVersion_iff.mpr ⟨?_, ?_, ?_⟩⟩
  · rwa [String.toList_ofList]
  · exact not_mem_text hslash rfl
  · exact not_mem_text hdollar rfl
  · exact not_mem_text hspace rfl

lemma WellFormed.readable (hu : u.WellFormed) (h : u.Portable) (ha : u.artifact? = some a) :
    a.Readable := by
  obtain ⟨hgroup, hname, hversion, hpackaging, -⟩ := hu
  obtain ⟨-, ha⟩ := Option.ite_none_left_eq_some.mp ha
  obtain rfl := Option.some.inj ha
  have htext := isQualifier_text hversion h.versioned
  have hextension :
      isQualifier ((u.packaging.map fun p => String.ofList p.type).getD defaultExtension).toList ∧
      ':' ∉ ((u.packaging.map fun p => String.ofList p.type).getD defaultExtension).toList := by
    cases hp : u.packaging with
    | none =>
      have hdefault : isQualifier defaultExtension.toList ∧ ':' ∉ defaultExtension.toList := by
        decide
      exact hdefault
    | some p => simpa using ⟨(hpackaging p hp).1, (h.packaging p hp).1⟩
  have hclassifier : ∀ c ∈ u.classifier?.map String.ofList,
      isQualifier c.toList ∧ ':' ∉ c.toList := by
    intro c hc
    obtain ⟨cs, hcs, rfl⟩ := Option.map_eq_some_iff.mp hc
    obtain ⟨p, hp, hpc⟩ := Option.bind_eq_some_iff.mp hcs
    rw [String.toList_ofList]
    exact ⟨(hpackaging p hp).2 cs hpc, (h.packaging p hp).2 cs hpc⟩
  refine ⟨?_, ?_, ⟨htext, not_mem_text h.version rfl⟩, hextension, hclassifier,
    Version.parse_text _⟩
  · simpa using ⟨hgroup, h.group⟩
  · simpa using ⟨hname, h.name⟩

end MvnUrl

namespace Location

/-- The text that an artifact is shown as leads back to the artifact. -/
theorem artifact?_toMvnUrl_display (hlocation : MvnUrl.parse? location.toList = some u)
    (h : u.Portable) (ha : artifact? location = some a) :
    artifact? (toMvnUrl a.display) = some a := by
  rw [artifact?_of_parse? hlocation] at ha
  have hreadable := (MvnUrl.parse?_eq_some_iff.mp hlocation).1.readable h ha
  have hparse : Coordinates.parse? a.display.toList = some a.coordinates :=
    Coordinates.parse?_eq_some_iff.mpr ⟨hreadable.wellFormed_coordinates, a.toList_display.symm⟩
  rw [artifact?_of_parse? (parse?_toMvnUrl hparse hreadable.portable_coordinates)]
  exact hreadable.artifact?_toUrl_coordinates

/-- The number of a snapshot loses its leading zeros when it is shown, and stays the same number. -/
theorem artifact?_toMvnUrl_display_snapshot :
    ∃ a, artifact? "mvn:g/a/1-20240101.123456-03/xml/features" = some a ∧
      a.version = .snapshot "1-SNAPSHOT" "20240101.123456" (some 3) ∧
      a.display = "g:a:xml:features:1-20240101.123456-3" ∧
      artifact? (toMvnUrl "g:a:xml:features:1-20240101.123456-3") = some a := by
  have hlocation : MvnUrl.parse? "mvn:g/a/1-20240101.123456-03/xml/features".toList =
      some ⟨.none, "g".toList, "a".toList, "1-20240101.123456-03".toList,
        some ⟨"xml".toList, some "features".toList⟩, none⟩ := by decide +kernel
  have ha : artifact? "mvn:g/a/1-20240101.123456-03/xml/features" =
      some ⟨"g", "a", .snapshot "1-SNAPSHOT" "20240101.123456" (some 3), some "features",
        "xml"⟩ := by decide +kernel
  have hdisplay : Artifact.display
      ⟨"g", "a", .snapshot "1-SNAPSHOT" "20240101.123456" (some 3), some "features", "xml"⟩ =
        "g:a:xml:features:1-20240101.123456-3" := by decide +kernel
  have hback :=
    artifact?_toMvnUrl_display hlocation ⟨by decide, by decide, by decide, by decide, by simp⟩ ha
  rw [hdisplay] at hback
  exact ⟨_, ha, rfl, hdisplay, hback⟩

end Location
end FeatureDepot
