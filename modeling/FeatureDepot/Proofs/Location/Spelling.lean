import FeatureDepot.Proofs.Location.Translation

/-! What a translation makes of a text, told from the text alone: where a URL is cut, and what
stands between the colons of coordinates. What it makes is not written in the notation that it
reads, so a second time it changes nothing. -/
namespace FeatureDepot

variable {location : String} {cs : List Char}

namespace MvnUrl

variable {u : MvnUrl}

/-- The text behind the version of a URL that holds its packaging. -/
def Packaging.text (p : Packaging) : List Char := '/' :: p.type ++ p.classifier.elim [] ('/' :: ·)

/-- A type or a classifier ends at the next slash, and cannot be taken for instructions. -/
def Qualifies (cs : List Char) : Prop := cs ≠ [] ∧ '/' ∉ cs ∧ '$' ∉ cs ∧ ' ' ∉ cs

/-- A way to cut a text into the parts of a URL. Only the version may be empty, and only the
instructions may hold a slash or a space. -/
structure Cut (cs : List Char) (u : MvnUrl) : Prop where
  text : cs = u.wrapper.text ++ "mvn:".toList ++ u.group ++ '/' :: u.name ++ '/' :: u.version ++
    u.packaging.elim [] Packaging.text ++ u.instructions.elim [] ("/$".toList ++ ·)
  group : u.group ≠ [] ∧ '/' ∉ u.group ∧ ' ' ∉ u.group
  name : u.name ≠ [] ∧ '/' ∉ u.name ∧ ' ' ∉ u.name
  version : '/' ∉ u.version ∧ '$' ∉ u.version ∧ ' ' ∉ u.version
  packaging : ∀ p ∈ u.packaging, Qualifies p.type ∧ ∀ c ∈ p.classifier, Qualifies c
  instructions : ∀ q ∈ u.instructions, q ≠ [] ∧ '\n' ∉ q

lemma isQualifier_iff_qualifies : isQualifier cs ↔ Qualifies cs := by
  rw [isQualifier_iff, isVersion_iff, Qualifies]

lemma isInstructions_iff : isInstructions cs ↔ cs ≠ [] ∧ '\n' ∉ cs := by
  simp [isInstructions]

lemma render_eq_cut (u : MvnUrl) :
    u.render = u.wrapper.text ++ "mvn:".toList ++ u.group ++ '/' :: u.name ++
    '/' :: u.version ++ u.packaging.elim [] Packaging.text ++
      u.instructions.elim [] ("/$".toList ++ ·) := by
  obtain ⟨wrapper, group, name, version, packaging, instructions⟩ := u
  rcases packaging with - | ⟨type, - | classifier⟩ <;> cases instructions <;> rfl

/-- The text is read exactly where it can be cut, and as it is cut there. -/
theorem cut_iff : Cut cs u ↔ parse? cs = some u := by
  rw [parse?_eq_some_iff]
  constructor
  · rintro ⟨htext, hgroup, hname, hversion, hpackaging, hinstructions⟩
    refine ⟨⟨isName_iff.mpr hgroup, isName_iff.mpr hname, isVersion_iff.mpr hversion,
      fun p hp => ?_, fun q hq => ?_⟩, ?_⟩
    · exact ⟨isQualifier_iff_qualifies.mpr (hpackaging p hp).1, fun c hc =>
        isQualifier_iff_qualifies.mpr ((hpackaging p hp).2 c hc)⟩
    · exact isInstructions_iff.mpr (hinstructions q hq)
    · rw [render_eq_cut, htext]
  · rintro ⟨⟨hgroup, hname, hversion, hpackaging, hinstructions⟩, rfl⟩
    refine ⟨render_eq_cut u, isName_iff.mp hgroup, isName_iff.mp hname, isVersion_iff.mp hversion,
      fun p hp => ?_, fun q hq => isInstructions_iff.mp (hinstructions q hq)⟩
    exact ⟨isQualifier_iff_qualifies.mp (hpackaging p hp).1, fun c hc =>
      isQualifier_iff_qualifies.mp ((hpackaging p hp).2 c hc)⟩

/-- What stands between the colons of the coordinates that say the same as a URL. -/
def fields (u : MvnUrl) : List (List Char) :=
  match u.packaging with
  | some ⟨type, some classifier⟩ => [u.group, u.name, type, classifier, u.version]
  | some ⟨type, none⟩ =>
    if type = defaultExtension.toList then [u.group, u.name, u.version]
      else [u.group, u.name, type, u.version]
  | none => [u.group, u.name, u.version]

lemma parts_toCoordinates (u : MvnUrl) : u.toCoordinates.parts = u.fields := by
  obtain ⟨wrapper, group, name, version, packaging, instructions⟩ := u
  rcases packaging with - | ⟨type, - | classifier⟩
  · rfl
  · by_cases htype : type = defaultExtension.toList
    · simp [toCoordinates, Coordinates.parts, fields, htype]
    · simp [toCoordinates, Coordinates.parts, fields, htype]
  · rfl

lemma fields_subset_segments (u : MvnUrl) : u.fields ⊆ u.segments := by
  obtain ⟨wrapper, group, name, version, packaging, instructions⟩ := u
  rcases packaging with - | ⟨type, - | classifier⟩
  · simp [fields, segments]
  · by_cases htype : type = defaultExtension.toList
    · simp [fields, segments, htype]
    · simp [fields, segments, packagingSegments, htype]
  · simp [fields, segments, packagingSegments]

/-- No part of a URL but its instructions holds a slash, so neither do its coordinates. -/
theorem WellFormed.slash_not_mem_toCoordinates (h : u.WellFormed) :
    '/' ∉ u.toCoordinates.render := by
  rw [Coordinates.render_eq, parts_toCoordinates]
  exact not_mem_intercalate (by decide) fun field hfield =>
    h.not_mem_segments field (fields_subset_segments u hfield)

lemma slash_mem_render (u : MvnUrl) : '/' ∈ u.render := by
  rw [render_eq_cut]
  simp only [List.mem_append, List.mem_cons, true_or, or_true]

lemma parse?_eq_none_of_slash_not_mem (hslash : '/' ∉ cs) : parse? cs = none := by
  refine Option.eq_none_iff_forall_ne_some.mpr fun u hu => hslash ?_
  rw [← (parse?_eq_some_iff.mp hu).2]
  exact u.slash_mem_render

/-- Without instructions and without colons in its parts, a URL has no colon behind its scheme. -/
theorem Portable.colon_not_mem_body (h : u.Portable) (hinstructions : u.instructions = none) :
    ':' ∉ u.body := by
  have hpackaging : ∀ s ∈ packagingSegments u.packaging, ':' ∉ s := by
    match hp : u.packaging with
    | none => simp [packagingSegments]
    | some ⟨type, none⟩ => simpa [packagingSegments] using (h.packaging _ hp).1
    | some ⟨type, some classifier⟩ =>
      simpa [packagingSegments] using ⟨(h.packaging _ hp).1, (h.packaging _ hp).2 classifier rfl⟩
  refine not_mem_intercalate (by decide) ?_
  simpa [segments, instructionSegments, hinstructions]
    using ⟨h.group, h.name, h.version, hpackaging⟩

end MvnUrl

namespace Coordinates

variable {k : Coordinates}

/-- The segments of the URL that coordinates become, from what stands between their colons: the
version moves to the third place, an empty extension is left out at the end, and is the default one
in front of a classifier. -/
def toSegments : List (List Char) → List (List Char)
  | [group, name, extension, version] =>
    if extension = [] then [group, name, version] else [group, name, version, extension]
  | [group, name, extension, classifier, version] =>
    [group, name, version, if extension = [] then defaultExtension.toList
      else extension, classifier]
  | fields => fields

lemma splitOn_of_parse? (h : parse? cs = some k) : cs.splitOn ':' = k.parts := by
  obtain ⟨hk, rfl⟩ := parse?_eq_some_iff.mp h
  exact hk.splitOn_render

end Coordinates

namespace Location

variable {u : MvnUrl}

lemma length_le_orDefault (extension : List Char) :
    extension.length ≤ (orDefault extension).length := by
  unfold orDefault
  split
  next h => simp [List.isEmpty_iff.mp h]
  next => exact Nat.le_refl _

theorem body_toUrl (k : Coordinates) : k.toUrl.body =
    ['/'].intercalate (k.group :: k.name :: k.version ::
      MvnUrl.packagingSegments k.toUrl.packaging) := by
  simp [MvnUrl.body, MvnUrl.segments, MvnUrl.instructionSegments, Coordinates.toUrl]

lemma render_toUrl (k : Coordinates) :
    k.toUrl.render = "mvn:".toList ++ ['/'].intercalate (Coordinates.toSegments k.parts) := by
  rw [MvnUrl.render_eq, body_toUrl]
  obtain ⟨group, name, qualifiers, version⟩ := k
  rcases qualifiers with - | ⟨extension, - | classifier⟩
  · rfl
  · by_cases hextension : extension = []
    · simp [Coordinates.parts, Coordinates.toSegments, Coordinates.toUrl,
        MvnUrl.packagingSegments, hextension]
    · simp [Coordinates.parts, Coordinates.toSegments, Coordinates.toUrl,
        MvnUrl.packagingSegments, hextension]
  · simp [Coordinates.parts, Coordinates.toSegments, Coordinates.toUrl,
      MvnUrl.packagingSegments, orDefault]

/-- A URL is longer than the coordinates that it is made of, by its scheme. -/
theorem length_render_lt (k : Coordinates) : k.render.length < k.toUrl.render.length := by
  obtain ⟨group, name, qualifiers, version⟩ := k
  have hscheme : "mvn:".toList.length = 4 := by decide
  rw [Coordinates.render_eq, MvnUrl.render_eq, List.length_append, List.length_append,
    hscheme, body_toUrl]
  rcases qualifiers with - | ⟨extension, - | classifier⟩
  · simp [Coordinates.parts, Coordinates.toUrl, MvnUrl.packagingSegments]
  · by_cases hextension : extension = []
    · simp [Coordinates.parts, Coordinates.toUrl, MvnUrl.packagingSegments, hextension]
      omega
    · simp [Coordinates.parts, Coordinates.toUrl, MvnUrl.packagingSegments, hextension]
      omega
  · have hextension := length_le_orDefault extension
    simp [Coordinates.parts, Coordinates.toUrl, MvnUrl.packagingSegments]
    omega

/-- Translated coordinates are longer, so a text stays as it is only if it is none. -/
theorem toMvnUrl_eq_self_iff :
    toMvnUrl location = location ↔ Coordinates.parse? location.toList = none := by
  constructor
  · intro h
    by_contra hsome
    obtain ⟨k, hk⟩ := Option.ne_none_iff_exists'.mp hsome
    rw [toMvnUrl_of_parse? hk] at h
    have hrender := (Coordinates.parse?_eq_some_iff.mp hk).2
    have hlonger := length_render_lt k
    rw [hrender, ← congrArg String.toList h, String.toList_ofList] at hlonger
    exact Nat.lt_irrefl _ hlonger
  · intro h
    unfold toMvnUrl
    rw [h]

theorem toMvnUrl_eq_self_iff_not_splits :
    toMvnUrl location = location ↔ ¬ Coordinates.Splits location.toList := by
  rw [toMvnUrl_eq_self_iff, ← Coordinates.exists_parse?_iff,
    Option.eq_none_iff_forall_ne_some, not_exists]

/-- A URL without a wrapper has one colon in its scheme, and is no coordinates if that is the only
one. -/
theorem not_splits_of_wrapper_eq_none (hwrapper : u.wrapper = .none) (hcolon : ':' ∉ u.body) :
    ¬ Coordinates.Splits u.render := by
  have hsplit : u.render.splitOn ':' = ["mvn".toList, u.body] := by
    have htext : u.render = "mvn".toList ++ ':' :: u.body := by
      rw [MvnUrl.render_eq, hwrapper]
      rfl
    rw [htext, List.splitOn_append_cons_self, List.splitOn_eq_singleton hcolon]
    rfl
  rintro ⟨-, hparts⟩
  rw [hsplit] at hparts
  exact hparts

/-- A wrapped URL reads as coordinates: the wrapper as a group, the scheme as a name, and the rest
as a version. -/
theorem parse?_of_wrapped (hu : u.WellFormed) (hwrapper : u.wrapper ≠ .none) (hcolon : ':' ∉ u.body)
    (hspace : ' ' ∉ u.body) :
    Coordinates.parse? u.render = some ⟨u.wrapper.text.dropLast, "mvn".toList, none, u.body⟩ := by
  have hbody : Coordinates.isFilled u.body :=
    Coordinates.isFilled_iff.mpr ⟨MvnUrl.body_ne_nil (MvnUrl.isName_iff.mp hu.1).1,
      Coordinates.isPart_iff.mpr ⟨hcolon, hspace⟩⟩
  have hfilled : Coordinates.isFilled u.wrapper.text.dropLast ∧
      u.wrapper.text = u.wrapper.text.dropLast ++ [':'] := by
    cases hw : u.wrapper with
    | none => exact absurd hw hwrapper
    | wrap => decide
    | blueprint => decide
  have hname : Coordinates.isFilled "mvn".toList := by decide
  refine Coordinates.parse?_eq_some_iff.mpr ⟨⟨hfilled.1, hname, hbody, by simp⟩, ?_⟩
  rw [MvnUrl.render_eq, hfilled.2, List.dropLast_concat, Coordinates.render_eq]
  have hscheme : "mvn:".toList = "mvn".toList ++ [':'] := rfl
  simp [Coordinates.parts, hscheme]

theorem artifact?_eq_none_iff :
    artifact? location = none ↔ ∀ u, MvnUrl.parse? location.toList = some u → u.version = [] := by
  unfold artifact?
  cases MvnUrl.parse? location.toList with
  | none => simp
  | some u => simp [MvnUrl.artifact?]

/-- A text is a URL if and only if it can be cut into one, and there is one way to cut it. A URL
becomes the coordinates of its parts, and another text stays as it is; a URL with a version names
the artifact of its parts, and nothing else names any. -/
theorem mvnUrl_cut (location : String) :
    (isMvnUrl location ↔ ∃ u, MvnUrl.Cut location.toList u) ∧
    (∀ u u', MvnUrl.Cut location.toList u → MvnUrl.Cut location.toList u' → u' = u) ∧
    ((¬ ∃ u, MvnUrl.Cut location.toList u) → toCoordinates location = location) ∧
    (∀ u, MvnUrl.Cut location.toList u → toCoordinates location =
      String.ofList ([':'].intercalate u.fields)) ∧
    (artifact? location = none ↔ ∀ u, MvnUrl.Cut location.toList u → u.version = []) ∧
    ∀ u, MvnUrl.Cut location.toList u → u.version ≠ [] → artifact? location = some
      { group := String.ofList u.group
        name := String.ofList u.name
        version := Version.parse (String.ofList u.version)
        classifier := (u.packaging.bind Packaging.classifier).map String.ofList
        extension := (u.packaging.map fun p => String.ofList p.type).getD defaultExtension } := by
  simp only [MvnUrl.cut_iff]
  refine ⟨Option.isSome_iff_exists, fun u u' hu hu' => Option.some.inj (hu'.symm.trans hu),
    fun hnone => ?_, fun u hu => ?_, artifact?_eq_none_iff, fun u hu hversion => ?_⟩
  · have hparse : MvnUrl.parse? location.toList = none :=
      Option.eq_none_iff_forall_ne_some.mpr fun u hu => hnone ⟨u, hu⟩
    unfold toCoordinates
    rw [hparse]
  · rw [toCoordinates_of_parse? hu, Coordinates.render_eq, MvnUrl.parts_toCoordinates]
  · rw [artifact?_of_parse? hu]
    exact if_neg (by simpa using hversion)

theorem mvnUrl_cut_blueprint :
    MvnUrl.Cut "blueprint:mvn:g$/a:/1/jar/b/$x/y z".toList
      ⟨.blueprint, "g$".toList, "a:".toList, "1".toList, some ⟨"jar".toList, some "b".toList⟩,
        some "x/y z".toList⟩ ∧
    toCoordinates "blueprint:mvn:g$/a:/1/jar/b/$x/y z" = "g$:a::jar:b:1" ∧
    artifact? "blueprint:mvn:g$/a:/1/jar/b/$x/y z" =
      some { Artifact.ofVersionText "g$" "a:" "1" with classifier := some "b" } := by
  have hcut : MvnUrl.Cut "blueprint:mvn:g$/a:/1/jar/b/$x/y z".toList
      ⟨.blueprint, "g$".toList, "a:".toList, "1".toList, some ⟨"jar".toList, some "b".toList⟩,
        some "x/y z".toList⟩ :=
    MvnUrl.cut_iff.mpr (by decide +kernel)
  obtain ⟨-, -, -, hcoordinates, -, hartifact⟩ := mvnUrl_cut "blueprint:mvn:g$/a:/1/jar/b/$x/y z"
  refine ⟨hcut, (hcoordinates _ hcut).trans (by decide +kernel),
    (hartifact _ hcut (by decide)).trans (by decide +kernel)⟩

/-- Coordinates become the URL of the same parts. All other texts stay as they are, and only
they. -/
theorem coordinates_split (location : String) :
    (toMvnUrl location = location ↔ ¬ Coordinates.Splits location.toList) ∧
    (Coordinates.Splits location.toList → toMvnUrl location = String.ofList
      ("mvn:".toList ++ ['/'].intercalate
        (Coordinates.toSegments (location.toList.splitOn ':')))) := by
  refine ⟨toMvnUrl_eq_self_iff_not_splits, fun hsplits => ?_⟩
  obtain ⟨k, hk⟩ := Coordinates.exists_parse?_iff.mpr hsplits
  rw [toMvnUrl_of_parse? hk, render_toUrl, Coordinates.splitOn_of_parse? hk]

theorem coordinates_split_classified :
    Coordinates.Splits "g/:a::c:1".toList ∧ toMvnUrl "g/:a::c:1" = "mvn:g//a/1/jar/c" := by
  have hsplit : "g/:a::c:1".toList.splitOn ':' =
      ["g/".toList, "a".toList, [], "c".toList, "1".toList] := by decide +kernel
  have hsplits : Coordinates.Splits "g/:a::c:1".toList := by
    unfold Coordinates.Splits
    rw [hsplit]
    decide
  refine ⟨hsplits, ((coordinates_split "g/:a::c:1").2 hsplits).trans ?_⟩
  rw [hsplit]
  decide +kernel

lemma toCoordinates_eq_self (h : MvnUrl.parse? location.toList = none) :
    toCoordinates location = location := by
  unfold toCoordinates
  rw [h]

/-- What a URL becomes is no URL any more. -/
theorem parse?_toCoordinates_eq_none (location : String) :
    MvnUrl.parse? (toCoordinates location).toList = none := by
  cases h : MvnUrl.parse? location.toList with
  | none => rw [toCoordinates_eq_self h, h]
  | some u =>
    rw [toCoordinates_of_parse? h, String.toList_ofList]
    exact MvnUrl.parse?_eq_none_of_slash_not_mem
      (MvnUrl.parse?_eq_some_iff.mp h).1.slash_not_mem_toCoordinates

/-- What coordinates become are no coordinates any more. -/
theorem not_splits_toMvnUrl (location : String) :
    ¬ Coordinates.Splits (toMvnUrl location).toList := by
  cases h : Coordinates.parse? location.toList with
  | none =>
    have hself := toMvnUrl_eq_self_iff.mpr h
    rw [hself]
    exact toMvnUrl_eq_self_iff_not_splits.mp hself
  | some k =>
    have hportable := (Coordinates.parse?_eq_some_iff.mp h).1.portable_toUrl
    rw [toMvnUrl_of_parse? h, String.toList_ofList]
    exact not_splits_of_wrapper_eq_none rfl (hportable.colon_not_mem_body rfl)

/-- Neither translation reads what it has written, so a location that was translated stays as it is:
slashes have no place in the parts of a URL that its coordinates are made of, nor colons in the
parts of coordinates. -/
theorem translations_idempotent (location : String) :
    (isMvnUrl (toCoordinates location) = false ∧
      toCoordinates (toCoordinates location) = toCoordinates location) ∧
    ¬ Coordinates.Splits (toMvnUrl location).toList ∧
    toMvnUrl (toMvnUrl location) = toMvnUrl location := by
  have hcoordinates := parse?_toCoordinates_eq_none location
  have hurl := not_splits_toMvnUrl location
  refine ⟨⟨?_, toCoordinates_eq_self hcoordinates⟩, hurl, toMvnUrl_eq_self_iff_not_splits.mpr hurl⟩
  unfold isMvnUrl
  rw [hcoordinates]
  rfl

/-- Colons are allowed in the parts of a URL, so its coordinates can start with a scheme and still
be no URL. -/
example :
    toCoordinates "mvn:mvn:g/a/1" = "mvn:g:a:1" ∧ isMvnUrl "mvn:g:a:1" = false := by decide +kernel

end Location
end FeatureDepot
