import FeatureDepot.Proofs.Loading.Locations
import FeatureDepot.Proofs.Version
import Mathlib.Data.List.Nodup

/-! Which loaded descriptors are the same artifact. A location is loaded once; the locations of one
artifact are its spellings, which differ in what a URL may say and an artifact does not hold. -/
namespace FeatureDepot

namespace MvnUrl

variable {u u' : MvnUrl} {a : Artifact}

/-- The spelling of a URL that holds no more than its artifact: no wrapper, no instructions, no
default type without a classifier, and no zeros in front of the build number of a snapshot. -/
def canonical (u : MvnUrl) : MvnUrl :=
  { u.core with version := (Version.parse (String.ofList u.version)).text.toList }

/-- The canonical spelling of an artifact. -/
def ofArtifact (a : Artifact) : MvnUrl where
  wrapper := .none
  group := a.group.toList
  name := a.name.toList
  version := a.version.text.toList
  packaging :=
    if a.extension = defaultExtension ∧ a.classifier = none then none
    else some ⟨a.extension.toList, a.classifier.map String.toList⟩
  instructions := none

lemma canonical_eq_ofArtifact (h : u.artifact? = some a) : u.canonical = ofArtifact a := by
  obtain ⟨hversion, h⟩ := Option.ite_none_left_eq_some.mp h
  obtain rfl := Option.some.inj h
  obtain ⟨wrapper, group, name, version, packaging, instructions⟩ := u
  rcases packaging with - | ⟨type, - | classifier⟩
  · simp [canonical, core, ofArtifact, classifier?]
  · by_cases htype : type = defaultExtension.toList
    · simp [canonical, core, ofArtifact, classifier?, htype]
    · have hextension : String.ofList type ≠ defaultExtension :=
        fun heq => htype (by rw [← heq, String.toList_ofList])
      simp [canonical, core, ofArtifact, classifier?, htype, hextension]
  · simp [canonical, core, ofArtifact, classifier?]

lemma artifact?_canonical (hversion : u.version ≠ []) : u.canonical.artifact? = u.artifact? := by
  have htext : (Version.parse (String.ofList u.version)).text.toList ≠ [] :=
    Version.text_ne_nil (by rwa [String.toList_ofList])
  rw [← artifact?_core u]
  unfold artifact?
  rw [if_neg (by simpa [canonical] using htext), if_neg (by simpa [core] using hversion)]
  simp [canonical, core, classifier?, Version.parse_text]

/-- Two URLs name the same artifact if and only if they have the same canonical spelling. -/
theorem artifact?_eq_iff (hversion : u.version ≠ []) (hversion' : u'.version ≠ []) :
    u.artifact? = u'.artifact? ↔ u.canonical = u'.canonical := by
  constructor
  · intro h
    obtain ⟨a, ha⟩ : ∃ a, u.artifact? = some a := ⟨_, if_neg (by simpa using hversion)⟩
    rw [canonical_eq_ofArtifact ha, canonical_eq_ofArtifact (h ▸ ha)]
  · intro h
    rw [← artifact?_canonical hversion, h, artifact?_canonical hversion']

end MvnUrl

namespace LoadedDescriptor

variable {s : Settings} {fs : FileSystem} {location : String}
  {loaded : List (String × LoadedDescriptor)}

/-- What is loaded is loaded from a URL with a version, and is the artifact that it names. -/
theorem Holds.exists_url {d : LoadedDescriptor} (h : Holds s fs location d) : ∃ u,
    MvnUrl.parse? location.toList = some u ∧ u.version ≠ [] ∧
    u.artifact? = some d.source.artifact := by
  have hnamed : Location.artifact? location = some d.source.artifact := h.artifact
  cases hu : MvnUrl.parse? location.toList with
  | none => simp [Location.artifact?, hu] at hnamed
  | some u =>
    rw [Location.artifact?_of_parse? hu] at hnamed
    obtain ⟨hversion, -⟩ := Option.ite_none_left_eq_some.mp hnamed
    exact ⟨u, rfl, by simpa using hversion, hnamed⟩

/-- No location is loaded twice. Two loaded descriptors are the same artifact if and only if the
URLs that they are loaded from have the same canonical spelling; where all of these are canonical,
no descriptor is loaded twice. -/
theorem loaded_distinct (h : loadAll s fs = .ok loaded) :
    (loaded.map Prod.fst).Nodup ∧
    (∀ p ∈ loaded, ∃ u, MvnUrl.parse? p.1.toList = some u ∧ u.artifact? = some p.2.source.artifact ∧
      ∀ p' ∈ loaded, ∀ u', MvnUrl.parse? p'.1.toList = some u' →
        (p.2.source.artifact = p'.2.source.artifact ↔ u.canonical = u'.canonical)) ∧
    ((∀ p ∈ loaded, ∀ u, MvnUrl.parse? p.1.toList = some u → u.canonical = u) →
      (loaded.map fun p => p.2.source.artifact).Nodup) := by
  obtain ⟨⟨turns, hsearch⟩, hholds⟩ := search_of_loadAll_eq_ok h
  have hsame : ∀ p ∈ loaded, ∃ u, MvnUrl.parse? p.1.toList = some u ∧
      u.artifact? = some p.2.source.artifact ∧
      ∀ p' ∈ loaded, ∀ u', MvnUrl.parse? p'.1.toList = some u' →
        (p.2.source.artifact = p'.2.source.artifact ↔ u.canonical = u'.canonical) := by
    intro p hp
    obtain ⟨u, hu, hversion, hartifact⟩ := (hholds p hp).exists_url
    refine ⟨u, hu, hartifact, fun p' hp' u' hu' => ?_⟩
    obtain ⟨u'', hu'', hversion', hartifact'⟩ := (hholds p' hp').exists_url
    obtain rfl : u'' = u' := Option.some.inj (hu''.symm.trans hu')
    rw [← MvnUrl.artifact?_eq_iff hversion hversion', hartifact, hartifact', Option.some_inj]
  refine ⟨hsearch.nodup, hsame, fun hcanonical => ?_⟩
  refine List.Nodup.map_on (fun p hp p' hp' heq => ?_) (List.Nodup.of_map Prod.fst hsearch.nodup)
  -- Canonical URLs of one artifact are equal, and so are their texts, which are the locations.
  obtain ⟨u, hu, -, hiff⟩ := hsame p hp
  obtain ⟨u', hu', -⟩ := hsame p' hp'
  have hurl : u = u' := by
    rw [← hcanonical p hp u hu, ← hcanonical p' hp' u' hu', ← hiff p' hp' u' hu', heq]
  have hlocation : p.1 = p'.1 := by
    rw [← String.toList_inj, ← (MvnUrl.parse?_eq_some_iff.mp hu).2,
      ← (MvnUrl.parse?_eq_some_iff.mp hu').2, hurl]
  exact List.inj_on_of_nodup_map hsearch.nodup hp hp' hlocation

theorem loaded_distinct_pair : ∃ loaded, loadAll pairSettings pair = .ok loaded ∧
    (loaded.map fun p => p.2.source.artifact).Nodup := by
  have hcanonical : ∀ location ∈ ["mvn:g/a/1/xml", "mvn:g/b/1/xml"], ∀ u,
      MvnUrl.parse? location.toList = some u → u.canonical = u := by
    simp only [List.forall_mem_cons, ← Option.mem_def]
    decide +kernel
  refine ⟨_, loadAll_pair, (loaded_distinct loadAll_pair).2.2 fun p hp u hu => ?_⟩
  exact hcanonical p.1 (List.mem_map_of_mem hp) u hu

/-- A local repository of one descriptor, with one feature. -/
def lone : FileSystem where
  workingDirectory := []
  entries := [(["g".toList], .directory), (["g".toList, "f".toList], .directory),
    (["g".toList, "f".toList, "1".toList], .directory),
    (["g".toList, "f".toList, "1".toList, "f-1.jar".toList],
      .file (Bytes.encode "<f><feature name='f'/></f>"))]

/-- Settings that name it in both notations, once with the default type. -/
def loneSettings : Settings :=
  { repository := ⟨"r"⟩, localRepository := ⟨"/"⟩, descriptors := ["g:f:1", "mvn:g/f/1/jar"] }

def loneEntry : LoadedDescriptor :=
  ⟨⟨.ofVersionText "g" "f" "1", some ⟨"/g/f/1/f-1.jar"⟩⟩, { features := [{ name := "f" }] }⟩

lemma loadAll_lone :
    loadAll loneSettings lone = .ok [("mvn:g/f/1", loneEntry), ("mvn:g/f/1/jar", loneEntry)] := by
  have hstart : loneSettings.descriptors.map Location.toMvnUrl =
      ["mvn:g/f/1", "mvn:g/f/1/jar"] := by decide +kernel
  have hshort : load loneSettings lone "mvn:g/f/1" = .ok (loneEntry, []) := by decide +kernel
  have hlong : load loneSettings lone "mvn:g/f/1/jar" = .ok (loneEntry, []) := by decide +kernel
  unfold loadAll Closure.reach
  rw [hstart, Closure.visit_cons_of_ok _ (by decide) hshort, List.append_nil,
    Closure.visit_cons_of_ok _ (by decide) hlong, List.append_nil, Closure.visit_nil]
  rfl

lemma selectFeatures_lone :
    selectFeatures [loneEntry.descriptor, loneEntry.descriptor] loneSettings.features =
    .ok [{ name := "f" }, { name := "f" }] := by cbv

/-- One descriptor that is loaded twice, with its feature. -/
theorem not_nodup_loaded_lone : ∃ loaded, loadAll loneSettings lone = .ok loaded ∧
    ¬ (loaded.map fun p => p.2.source.artifact).Nodup ∧
    selectFeatures (loaded.map fun p => p.2.descriptor) loneSettings.features =
      .ok [{ name := "f" }, { name := "f" }] :=
  ⟨_, loadAll_lone, by decide +kernel, selectFeatures_lone⟩

end LoadedDescriptor
end FeatureDepot
