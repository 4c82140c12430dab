import FeatureDepot.Proofs.Location.Grammar

/-! Translating locations between the notations. What an mvn URL says of its artifact survives as
coordinates, as long as no part of it holds a colon; the way back writes it without what has no
place in coordinates. -/
namespace FeatureDepot

variable {u : MvnUrl} {k : Coordinates} {location : String}

namespace MvnUrl

/-- A URL without its wrapper and its instructions, and without the default type if no classifier
follows it. -/
def core (u : MvnUrl) : MvnUrl :=
  { u with
    wrapper := .none
    packaging := if u.packaging = some ⟨defaultExtension.toList, none⟩ then none else u.packaging
    instructions := none }

/-- The parts of a URL that coordinates have a place for: a version that is given, and no colon
anywhere. -/
structure Portable (u : MvnUrl) : Prop where
  versioned : u.version ≠ []
  group : ':' ∉ u.group
  name : ':' ∉ u.name
  version : ':' ∉ u.version
  packaging : ∀ p ∈ u.packaging, ':' ∉ p.type ∧ ∀ c ∈ p.classifier, ':' ∉ c

lemma WellFormed.core (h : u.WellFormed) : u.core.WellFormed := by
  obtain ⟨hgroup, hname, hversion, hpackaging, -⟩ := h
  refine ⟨hgroup, hname, hversion, fun p hp => hpackaging p ?_, by simp [MvnUrl.core]⟩
  exact (Option.ite_none_left_eq_some.mp hp).2

theorem artifact?_core (u : MvnUrl) : u.core.artifact? = u.artifact? := by
  obtain ⟨wrapper, group, name, version, packaging, instructions⟩ := u
  rcases packaging with - | ⟨type, - | classifier⟩
  · rfl
  · by_cases htype : type = defaultExtension.toList
    · subst htype
      simp [core, artifact?, classifier?]
    · simp [core, artifact?, classifier?, htype]
  · simp [core, artifact?, classifier?]

lemma toCoordinates_core (u : MvnUrl) : u.core.toCoordinates = u.toCoordinates := by
  obtain ⟨wrapper, group, name, version, packaging, instructions⟩ := u
  rcases packaging with - | ⟨type, - | classifier⟩
  · rfl
  · by_cases htype : type = defaultExtension.toList
    · simp [core, toCoordinates, htype]
    · simp [core, toCoordinates, htype]
  · simp [core, toCoordinates]

/-- Coordinates say all of a URL that is not left out of them. -/
theorem toUrl_toCoordinates (h : u.WellFormed) : u.toCoordinates.toUrl = u.core := by
  obtain ⟨wrapper, group, name, version, packaging, instructions⟩ := u
  have hpackaging := h.2.2.2.1
  rcases packaging with - | ⟨type, - | classifier⟩
  · rfl
  · have hne : type ≠ [] := (isQualifier_iff.mp (hpackaging _ rfl).1).1
    by_cases htype : type = defaultExtension.toList
    · simp [core, toCoordinates, Coordinates.toUrl, htype]
    · simp [core, toCoordinates, Coordinates.toUrl, htype, hne]
  · have hne : type ≠ [] := (isQualifier_iff.mp (hpackaging _ rfl).1).1
    simp [core, toCoordinates, Coordinates.toUrl, orDefault, hne]

lemma Portable.wellFormed_toCoordinates (h : u.Portable) (hu : u.WellFormed) :
    u.toCoordinates.WellFormed := by
  obtain ⟨wrapper, group, name, version, packaging, instructions⟩ := u
  obtain ⟨hgroup, hname, hversion, hpackaging, -⟩ := hu
  have hfilled {cs : List Char} (hne : cs ≠ []) (hcolon : ':' ∉ cs) (hspace : ' ' ∉ cs) :
      Coordinates.isFilled cs :=
        Coordinates.isFilled_iff.mpr ⟨hne, Coordinates.isPart_iff.mpr ⟨hcolon, hspace⟩⟩
  have hnamed {cs : List Char} (hcs : isName cs) (hcolon : ':' ∉ cs) : Coordinates.isFilled cs :=
    hfilled (isName_iff.mp hcs).1 hcolon (isName_iff.mp hcs).2.2
  have hqualifier {cs : List Char} (hcs : isQualifier cs) (hcolon : ':' ∉ cs) :
      Coordinates.isFilled cs := by
    obtain ⟨hne, hcs⟩ := isQualifier_iff.mp hcs
    exact hfilled hne hcolon (isVersion_iff.mp hcs).2.2
  refine ⟨hnamed hgroup h.group, hnamed hname h.name,
    hfilled h.versioned h.version (isVersion_iff.mp hversion).2.2, ?_⟩
  rcases packaging with - | ⟨type, - | classifier⟩
  · simp [toCoordinates]
  · have htype := hqualifier (hpackaging _ rfl).1 (h.packaging _ rfl).1
    unfold toCoordinates
    dsimp only
    split
    · simp
    · simpa using (Coordinates.isFilled_iff.mp htype).2
  · have htype := hqualifier (hpackaging _ rfl).1 (h.packaging _ rfl).1
    have hclassifier :=
      hqualifier ((hpackaging _ rfl).2 classifier rfl) ((h.packaging _ rfl).2 classifier rfl)
    simpa [toCoordinates] using ⟨(Coordinates.isFilled_iff.mp htype).2, hclassifier⟩

end MvnUrl

namespace Coordinates

/-- The shortest coordinates of the same artifact, with an extension in front of every
classifier. -/
def normal (k : Coordinates) : Coordinates :=
  { k with
    qualifiers :=
      match k.qualifiers with
      | some (extension, some classifier) => some (orDefault extension, some classifier)
      | some (extension, none) =>
        if extension = [] ∨ extension = defaultExtension.toList then none
        else some (extension, none)
      | none => none }

/-- The parts of coordinates that a URL has a place for. A dollar sign starts instructions only
behind the name. -/
structure Portable (k : Coordinates) : Prop where
  group : '/' ∉ k.group
  name : '/' ∉ k.name
  version : '/' ∉ k.version ∧ '$' ∉ k.version
  qualifiers : ∀ q ∈ k.qualifiers, ('/' ∉ q.1 ∧ '$' ∉ q.1) ∧ ∀ c ∈ q.2, '/' ∉ c ∧ '$' ∉ c

lemma toCoordinates_toUrl (k : Coordinates) : k.toUrl.toCoordinates = k.normal := by
  obtain ⟨group, name, qualifiers, version⟩ := k
  rcases qualifiers with - | ⟨extension, - | classifier⟩
  · rfl
  · by_cases hempty : extension = []
    · simp [toUrl, MvnUrl.toCoordinates, normal, hempty]
    · simp [toUrl, MvnUrl.toCoordinates, normal, hempty]
  · rfl

/-- An empty extension gives way to the default one, which is not empty. -/
theorem isQualifier_orDefault {extension : List Char} (h : MvnUrl.isVersion extension) :
    MvnUrl.isQualifier (orDefault extension) := by
  unfold orDefault
  split
  next => decide
  next hne => exact MvnUrl.isQualifier_iff.mpr ⟨by simpa using hne, h⟩

lemma Portable.wellFormed_toUrl (h : k.Portable) (hk : k.WellFormed) : k.toUrl.WellFormed := by
  obtain ⟨group, name, qualifiers, version⟩ := k
  obtain ⟨hgroup, hname, hversion, hqualifiers⟩ := hk
  have hnamed {cs : List Char} (hcs : isFilled cs) (hslash : '/' ∉ cs) : MvnUrl.isName cs :=
    MvnUrl.isName_iff.mpr ⟨(isFilled_iff.mp hcs).1, hslash,
      (isPart_iff.mp (isFilled_iff.mp hcs).2).2⟩
  have hplain {cs : List Char} (hcs : isPart cs) (hchars : '/' ∉ cs ∧ '$' ∉ cs) :
      MvnUrl.isVersion cs := MvnUrl.isVersion_iff.mpr ⟨hchars.1, hchars.2, (isPart_iff.mp hcs).2⟩
  refine ⟨hnamed hgroup h.group, hnamed hname h.name, hplain (isFilled_iff.mp hversion).2 h.version,
    ?_, by simp [toUrl]⟩
  rcases qualifiers with - | ⟨extension, - | classifier⟩
  · simp [toUrl]
  · have hextension := hplain (hqualifiers _ rfl).1 (h.qualifiers _ rfl).1
    by_cases hempty : extension = []
    · simp [toUrl, hempty]
    · simpa [toUrl, hempty] using MvnUrl.isQualifier_iff.mpr ⟨hempty, hextension⟩
  · have hextension := hplain (hqualifiers _ rfl).1 (h.qualifiers _ rfl).1
    obtain ⟨hfilled, hclassifier⟩ := isFilled_iff.mp ((hqualifiers _ rfl).2 classifier rfl)
    have hsecond := MvnUrl.isQualifier_iff.mpr ⟨hfilled,
      hplain hclassifier ((h.qualifiers _ rfl).2 classifier rfl)⟩
    simpa [toUrl] using ⟨isQualifier_orDefault hextension, hsecond⟩

theorem WellFormed.portable_toUrl (hk : k.WellFormed) : k.toUrl.Portable := by
  obtain ⟨group, name, qualifiers, version⟩ := k
  obtain ⟨hgroup, hname, hversion, hqualifiers⟩ := hk
  have hcolon {cs : List Char} (hcs : isFilled cs) : ':' ∉ cs :=
    (isPart_iff.mp (isFilled_iff.mp hcs).2).1
  refine ⟨(isFilled_iff.mp hversion).1, hcolon hgroup, hcolon hname, hcolon hversion, ?_⟩
  rcases qualifiers with - | ⟨extension, - | classifier⟩
  · simp [toUrl]
  · have hextension := (isPart_iff.mp (hqualifiers _ rfl).1).1
    by_cases hempty : extension = []
    · simp [toUrl, hempty]
    · simpa [toUrl, hempty] using hextension
  · have hextension := (isPart_iff.mp (hqualifiers _ rfl).1).1
    have hdefault : ':' ∉ orDefault extension := by
      unfold orDefault
      split
      next => decide
      next => exact hextension
    simpa [toUrl] using ⟨hdefault, hcolon ((hqualifiers _ rfl).2 classifier rfl)⟩

lemma Portable.wellFormed_normal (h : k.Portable) (hk : k.WellFormed) : k.normal.WellFormed := by
  rw [← toCoordinates_toUrl]
  exact hk.portable_toUrl.wellFormed_toCoordinates (h.wellFormed_toUrl hk)

lemma Portable.toUrl_normal (h : k.Portable) (hk : k.WellFormed) :
    k.normal.toUrl = k.toUrl.core := by
  rw [← toCoordinates_toUrl, MvnUrl.toUrl_toCoordinates (h.wellFormed_toUrl hk)]

end Coordinates

namespace Location

lemma parse?_render (hu : u.WellFormed) :
    MvnUrl.parse? (String.ofList u.render).toList = some u := by
  rw [String.toList_ofList]
  exact MvnUrl.parse?_eq_some_iff.mpr ⟨hu, rfl⟩

theorem toCoordinates_of_parse? (h : MvnUrl.parse? location.toList = some u) :
    toCoordinates location = String.ofList u.toCoordinates.render := by
  unfold toCoordinates
  rw [h]

theorem toMvnUrl_of_parse? (h : Coordinates.parse? location.toList = some k) :
    toMvnUrl location = String.ofList k.toUrl.render := by
  unfold toMvnUrl
  rw [h]

theorem artifact?_of_parse? (h : MvnUrl.parse? location.toList = some u) :
    artifact? location = u.artifact? := by
  unfold artifact?
  rw [h, Option.bind_some]

/-- A URL without colons in its parts becomes coordinates, and from there the URL without what
coordinates have no place for. It still names the same artifact, and goes on to become the same
coordinates. -/
theorem toMvnUrl_toCoordinates (hlocation : MvnUrl.parse? location.toList = some u)
    (h : u.Portable) :
    u.render = location.toList ∧
    Coordinates.parse? (toCoordinates location).toList = some u.toCoordinates ∧
    toMvnUrl (toCoordinates location) = String.ofList u.core.render ∧
    artifact? (toMvnUrl (toCoordinates location)) = artifact? location ∧
    toCoordinates (toMvnUrl (toCoordinates location)) = toCoordinates location ∧
    toMvnUrl (toCoordinates (toMvnUrl (toCoordinates location))) =
      toMvnUrl (toCoordinates location) := by
  obtain ⟨hu, hrender⟩ := MvnUrl.parse?_eq_some_iff.mp hlocation
  have hcoordinates := toCoordinates_of_parse? hlocation
  have hparse : Coordinates.parse? (toCoordinates location).toList = some u.toCoordinates := by
    rw [hcoordinates, String.toList_ofList]
    exact Coordinates.parse?_eq_some_iff.mpr ⟨h.wellFormed_toCoordinates hu, rfl⟩
  have hback : toMvnUrl (toCoordinates location) = String.ofList u.core.render := by
    rw [toMvnUrl_of_parse? hparse, MvnUrl.toUrl_toCoordinates hu]
  have hcore : MvnUrl.parse? (toMvnUrl (toCoordinates location)).toList = some u.core := by
    rw [hback]
    exact parse?_render hu.core
  have hagain : toCoordinates (toMvnUrl (toCoordinates location)) = toCoordinates location := by
    rw [toCoordinates_of_parse? hcore, MvnUrl.toCoordinates_core, hcoordinates]
  refine ⟨hrender, hparse, hback, ?_, hagain, by rw [hagain]⟩
  rw [artifact?_of_parse? hcore, MvnUrl.artifact?_core, artifact?_of_parse? hlocation]

theorem toMvnUrl_toCoordinates_wrapped :
    toCoordinates "wrap:mvn:g/a/1/jar/$x=y" = "g:a:1" ∧ toMvnUrl "g:a:1" = "mvn:g/a/1" ∧
    artifact? "mvn:g/a/1" = artifact? "wrap:mvn:g/a/1/jar/$x=y" ∧
    toMvnUrl (toCoordinates "mvn:g/a/1") = "mvn:g/a/1" := by
  have hlocation : MvnUrl.parse? "wrap:mvn:g/a/1/jar/$x=y".toList =
      some ⟨.wrap, "g".toList, "a".toList, "1".toList, some ⟨"jar".toList, none⟩,
        some "x=y".toList⟩ := by decide +kernel
  obtain ⟨-, -, -, hartifact, -, hagain⟩ :=
    toMvnUrl_toCoordinates hlocation ⟨by decide, by decide, by decide, by decide, by simp⟩
  have hcoordinates : toCoordinates "wrap:mvn:g/a/1/jar/$x=y" = "g:a:1" := by decide +kernel
  have hurl : toMvnUrl "g:a:1" = "mvn:g/a/1" := by decide +kernel
  rw [hcoordinates, hurl] at hartifact hagain
  exact ⟨hcoordinates, hurl, hartifact, hagain⟩

lemma parse?_coordinates (hk : k.WellFormed) :
    Coordinates.parse? (String.ofList k.render).toList = some k := by
  rw [String.toList_ofList]
  exact Coordinates.parse?_eq_some_iff.mpr ⟨hk, rfl⟩

theorem parse?_toMvnUrl (hlocation : Coordinates.parse? location.toList = some k) (h : k.Portable) :
    MvnUrl.parse? (toMvnUrl location).toList = some k.toUrl := by
  rw [toMvnUrl_of_parse? hlocation]
  exact parse?_render (h.wellFormed_toUrl (Coordinates.parse?_eq_some_iff.mp hlocation).1)

/-- Coordinates that a URL has a place for become one with a version, and from there their normal
form, which leads to the same artifact. -/
theorem toCoordinates_toMvnUrl (hlocation : Coordinates.parse? location.toList = some k)
    (h : k.Portable) :
    k.render = location.toList ∧
    MvnUrl.parse? (toMvnUrl location).toList = some k.toUrl ∧ k.toUrl.version ≠ [] ∧
    toCoordinates (toMvnUrl location) = String.ofList k.normal.render ∧
    Coordinates.parse? (toCoordinates (toMvnUrl location)).toList = some k.normal ∧
    ∃ a, artifact? (toMvnUrl location) = some a ∧
      artifact? (toMvnUrl (toCoordinates (toMvnUrl location))) = some a := by
  obtain ⟨hk, hrender⟩ := Coordinates.parse?_eq_some_iff.mp hlocation
  have hurl := parse?_toMvnUrl hlocation h
  have hversion := hk.portable_toUrl.versioned
  have hnormal : toCoordinates (toMvnUrl location) = String.ofList k.normal.render := by
    rw [toCoordinates_of_parse? hurl, Coordinates.toCoordinates_toUrl]
  have hparse : Coordinates.parse? (toCoordinates (toMvnUrl location)).toList = some k.normal := by
    rw [hnormal]
    exact parse?_coordinates (h.wellFormed_normal hk)
  have hcore : MvnUrl.parse? (toMvnUrl (toCoordinates (toMvnUrl location))).toList =
      some k.toUrl.core := by
    rw [toMvnUrl_of_parse? hparse, h.toUrl_normal hk]
    exact parse?_render (h.wellFormed_toUrl hk).core
  obtain ⟨a, ha⟩ : ∃ a, k.toUrl.artifact? = some a := ⟨_, if_neg (by simpa using hversion)⟩
  refine ⟨hrender, hurl, hversion, hnormal, hparse, a, ?_, ?_⟩
  · rw [artifact?_of_parse? hurl, ha]
  · rw [artifact?_of_parse? hcore, MvnUrl.artifact?_core, ha]

theorem toCoordinates_toMvnUrl_classified :
    toMvnUrl "g$:a::sources:1" = "mvn:g$/a/1/jar/sources" ∧
    toCoordinates "mvn:g$/a/1/jar/sources" = "g$:a:jar:sources:1" ∧
    ∃ a, artifact? "mvn:g$/a/1/jar/sources" = some a ∧
    artifact? (toMvnUrl "g$:a:jar:sources:1") = some a := by
  have hlocation : Coordinates.parse? "g$:a::sources:1".toList =
      some ⟨"g$".toList, "a".toList, some ([], some "sources".toList), "1".toList⟩ := by
        decide +kernel
  obtain ⟨-, -, -, -, -, a, hurl, hback⟩ :=
    toCoordinates_toMvnUrl hlocation ⟨by decide, by decide, by decide, by simp⟩
  have hthere : toMvnUrl "g$:a::sources:1" = "mvn:g$/a/1/jar/sources" := by decide +kernel
  have hagain : toCoordinates "mvn:g$/a/1/jar/sources" = "g$:a:jar:sources:1" := by decide +kernel
  rw [hthere] at hurl
  rw [hthere, hagain] at hback
  exact ⟨hthere, hagain, a, hurl, hback⟩

end Location
end FeatureDepot
