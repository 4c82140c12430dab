import FeatureDepot.Proofs.Loading.Order

/-! Locations of descriptors in either notation. An mvn URL can be taken for coordinates, and then
it is translated into another URL; exactly the URLs that do not split at their colons stay as they
are and are loaded from what they name. -/
namespace FeatureDepot

namespace LoadedDescriptor

variable {s : Settings} {fs : FileSystem} {location : String} {u : MvnUrl}
  {loaded : List (String × LoadedDescriptor)}

/-- What the settings or loaded descriptors refer to is among what is loaded, under its
translation. -/
theorem exists_mem_of_loadAll (h : loadAll s fs = .ok loaded)
    (href : location ∈ s.descriptors ∨ ∃ p ∈ loaded, location ∈ p.2.descriptor.repositories) :
    ∃ d, (Location.toMvnUrl location, d) ∈ loaded ∧ Holds s fs (Location.toMvnUrl location) d := by
  obtain ⟨⟨turns, hsearch⟩, hloaded⟩ := search_of_loadAll_eq_ok h
  have hmem : Location.toMvnUrl location ∈ loaded.map Prod.fst := by
    rw [mem_iff_reachable hsearch]
    rcases href with href | ⟨p, hp, href⟩
    · exact ⟨_, List.mem_map_of_mem href, .refl⟩
    · obtain ⟨first, hfirst, hpath⟩ := (mem_iff_reachable hsearch p.1).mp (List.mem_map_of_mem hp)
      exact ⟨first, hfirst, hpath.tail ⟨p.2, hloaded p hp, List.mem_map_of_mem href⟩⟩
  obtain ⟨⟨_, d⟩, hp, rfl⟩ := List.mem_map.mp hmem
  exact ⟨d, hp, hloaded _ hp⟩

theorem Holds.artifact {d : LoadedDescriptor} (h : Holds s fs location d) :
    Location.artifact? location = some d.source.artifact := by
  cases h with
  | intro named present content parsed => exact named

/-- A URL stays as it is if and only if it does not split into coordinates. One without a wrapper
stays if it holds no further colon; a wrapped one becomes another URL, unless colons or spaces in it
prevent that. Where it stays, a descriptor that the settings or other descriptors name by it is that
of the artifact that it names. -/
theorem source_of_mvnUrl (hlocation : MvnUrl.parse? location.toList = some u) :
    (Location.toMvnUrl location = location ↔ ¬ Coordinates.Splits location.toList) ∧
    (u.wrapper = .none → ':' ∉ u.body → Location.toMvnUrl location = location) ∧
    (u.wrapper ≠ .none → ':' ∉ u.body → ' ' ∉ u.body → Location.toMvnUrl location =
      String.ofList ("mvn:".toList ++ u.wrapper.text.dropLast ++ "/mvn/".toList ++ u.body)) ∧
    ∀ (s : Settings) (fs : FileSystem) (loaded : List (String × LoadedDescriptor)),
      Location.toMvnUrl location = location → loadAll s fs = .ok loaded →
      (location ∈ s.descriptors ∨ ∃ p ∈ loaded, location ∈ p.2.descriptor.repositories) →
      ∃ d, (location, d) ∈ loaded ∧ u.artifact? = some d.source.artifact := by
  obtain ⟨hu, hrender⟩ := MvnUrl.parse?_eq_some_iff.mp hlocation
  refine ⟨Location.toMvnUrl_eq_self_iff_not_splits, fun hwrapper hcolon => ?_,
    fun hwrapper hcolon hspace => ?_, ?_⟩
  · rw [Location.toMvnUrl_eq_self_iff_not_splits, ← hrender]
    exact Location.not_splits_of_wrapper_eq_none hwrapper hcolon
  · have hparse := Location.parse?_of_wrapped hu hwrapper hcolon hspace
    rw [hrender] at hparse
    rw [Location.toMvnUrl_of_parse? hparse, MvnUrl.render_eq, Location.body_toUrl]
    simp [Coordinates.toUrl, MvnUrl.packagingSegments]
  · intro s fs loaded hself hloaded href
    obtain ⟨d, hd, hholds⟩ := exists_mem_of_loadAll hloaded href
    rw [hself] at hd hholds
    exact ⟨d, hd, by rw [← Location.artifact?_of_parse? hlocation, hholds.artifact]⟩

/-- A wrapped URL that names one artifact, and whose translation names another. -/
theorem source_of_mvnUrl_wrapped :
    Location.isMvnUrl "wrap:mvn:g/a/1.0" = true ∧
    Location.toMvnUrl "wrap:mvn:g/a/1.0" = "mvn:wrap/mvn/g/a/1.0" ∧
    Location.artifact? "wrap:mvn:g/a/1.0" = some (.ofVersionText "g" "a" "1.0") ∧
    Location.artifact? "mvn:wrap/mvn/g/a/1.0" =
      some { Artifact.ofVersionText "wrap" "mvn" "g" with
        extension := "a", classifier := some "1.0" } := by
  decide +kernel

/-- A local repository of two descriptors that refer to nothing else. -/
def pair : FileSystem where
  workingDirectory := []
  entries := [(["g".toList], .directory), (["g".toList, "a".toList], .directory),
    (["g".toList, "a".toList, "1".toList], .directory),
    (["g".toList, "a".toList, "1".toList, "a-1.xml".toList],
      .file (Bytes.encode "<f><repository>g:b:xml:1</repository></f>")),
    (["g".toList, "b".toList], .directory), (["g".toList, "b".toList, "1".toList], .directory),
    (["g".toList, "b".toList, "1".toList, "b-1.xml".toList], .file (Bytes.encode "<f/>"))]

/-- Settings that name one of them by a URL. -/
def pairSettings : Settings :=
  { repository := ⟨"r"⟩, localRepository := ⟨"/"⟩, descriptors := ["mvn:g/a/1/xml"] }

theorem loadAll_pair : loadAll pairSettings pair =
    .ok [("mvn:g/a/1/xml", circleEntry "a" ["g:b:xml:1"]),
      ("mvn:g/b/1/xml", circleEntry "b" [])] := by
  have hstart : pairSettings.descriptors.map Location.toMvnUrl = ["mvn:g/a/1/xml"] := by
    decide +kernel
  have ha : load pairSettings pair "mvn:g/a/1/xml" =
      .ok (circleEntry "a" ["g:b:xml:1"], ["mvn:g/b/1/xml"]) := by
    decide +kernel
  have hb : load pairSettings pair "mvn:g/b/1/xml" = .ok (circleEntry "b" [], []) := by
    decide +kernel
  unfold loadAll Closure.reach
  rw [hstart, Closure.visit_cons_of_ok _ (by decide) ha, List.nil_append,
    Closure.visit_cons_of_ok _ (by decide) hb, List.append_nil, Closure.visit_nil]
  rfl

theorem source_of_mvnUrl_pair :
    Location.toMvnUrl "mvn:g/a/1/xml" = "mvn:g/a/1/xml" ∧
    ∃ loaded, loadAll pairSettings pair = .ok loaded ∧ ∃ d, ("mvn:g/a/1/xml", d) ∈ loaded ∧
      d.source.artifact = (Artifact.ofVersionText "g" "a" "1").withExtension "xml" := by
  have hlocation : MvnUrl.parse? "mvn:g/a/1/xml".toList =
      some ⟨.none, "g".toList, "a".toList, "1".toList, some ⟨"xml".toList, none⟩, none⟩ := by
        decide +kernel
  obtain ⟨-, hplain, -, hsource⟩ := source_of_mvnUrl hlocation
  have hself := hplain rfl (by decide +kernel)
  obtain ⟨d, hd, hartifact⟩ :=
    hsource pairSettings pair _ hself loadAll_pair (.inl (List.mem_singleton.mpr rfl))
  refine ⟨hself, _, loadAll_pair, d, hd, Option.some.inj (hartifact.symm.trans ?_)⟩
  decide +kernel

end LoadedDescriptor
end FeatureDepot
