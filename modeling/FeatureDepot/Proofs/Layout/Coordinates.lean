import FeatureDepot.Layout
import FeatureDepot.Proofs.Location.Grammar
import FeatureDepot.Proofs.Version

/-! Coordinates that name directories. None of them leads out of the directory it is put into, so an
artifact's file lies where its group, name and version say. Artifacts of mvn URLs are such, up to
dots. -/
namespace FeatureDepot
open FeatureDepot.Path

/-- Coordinates that no slash cuts, with a name and a base version. -/
structure Artifact.Slashless (a : Artifact) : Prop where
  group : '/' ∉ a.group.toList
  name : a.name.toList ≠ [] ∧ '/' ∉ a.name.toList
  baseVersion : a.baseVersion.toList ≠ [] ∧ '/' ∉ a.baseVersion.toList
  fileName : '/' ∉ (Layout.fileName a).toList

/-- Coordinates without slashes, whose name and base version name directories. -/
structure Artifact.Plain (a : Artifact) : Prop where
  group : '/' ∉ a.group.toList
  name : IsName a.name.toList
  baseVersion : IsName a.baseVersion.toList
  fileName : '/' ∉ (Layout.fileName a).toList

theorem Artifact.Plain.slashless {a : Artifact} (h : a.Plain) : a.Slashless :=
  ⟨h.group, ⟨h.name.ne_nil, h.name.1⟩, ⟨h.baseVersion.ne_nil, h.baseVersion.1⟩, h.fileName⟩

theorem Layout.segments_relativePath_flat {a : Artifact} (h : '/' ∉ (Layout.fileName a).toList) :
    (Path.mk (Layout.flat.relativePath a)).segments = [(Layout.fileName a).toList] :=
  List.splitOn_eq_singleton h

theorem Artifact.isName_fileName {a : Artifact} (h : '/' ∉ (Layout.fileName a).toList) :
    IsName (Layout.fileName a).toList := by
  have hdash : '-' ∈ (Layout.fileName a).toList := by
    unfold Layout.fileName
    simp only [String.toList_append, List.mem_append]
    exact .inl (.inl (.inl (.inl (.inr (by decide)))))
  refine ⟨h, ?_, ?_⟩
  · rw [isIdle, Bool.or_eq_false_iff, beq_eq_false_iff_ne, beq_eq_false_iff_ne]
    exact ⟨fun heq => by simp [heq] at hdash, fun heq => by simp [heq] at hdash⟩
  · intro heq
    simp [heq] at hdash

lemma MvnUrl.WellFormed.slashless {u : MvnUrl} {a : Artifact} (hu : u.WellFormed)
    (h : u.artifact? = some a) :
    a.Slashless := by
  obtain ⟨hgroup, hname, hversion, hpackaging, -⟩ := hu
  have hqualifier {cs : List Char} (hcs : isQualifier cs) : '/' ∉ cs :=
    (isVersion_iff.mp (isQualifier_iff.mp hcs).2).1
  unfold artifact? at h
  obtain ⟨hempty, ha⟩ := Option.ite_none_left_eq_some.mp h
  obtain rfl := Option.some.inj ha
  have hnamed : u.name ≠ [] ∧ '/' ∉ u.name := ⟨(isName_iff.mp hname).1, (isName_iff.mp hname).2.1⟩
  have hbase : '/' ∉ (Version.parse (String.ofList u.version)).baseVersion.toList := by
    intro hmem
    rcases Version.mem_baseVersion hmem with hmem | hmem
    · rw [String.toList_ofList] at hmem
      exact (isVersion_iff.mp hversion).1 hmem
    · revert hmem
      decide
  have hclassifier : ∀ c ∈ u.classifier?, '/' ∉ c := by
    intro c hc
    obtain ⟨p, hp, hpc⟩ := Option.bind_eq_some_iff.mp hc
    exact hqualifier ((hpackaging p hp).2 c hpc)
  have hextension : '/' ∉
      ((u.packaging.map fun p => String.ofList p.type).getD defaultExtension).toList := by
    cases hp : u.packaging with
    | none =>
      have hdefault : '/' ∉ defaultExtension.toList := by decide
      exact hdefault
    | some p => simpa using hqualifier (hpackaging p hp).1
  refine ⟨by simpa using (isName_iff.mp hgroup).2.1, by simpa using hnamed,
    ⟨Version.baseVersion_ne_nil ?_, hbase⟩, ?_⟩
  · rw [String.toList_ofList]
    simpa using hempty
  · unfold Layout.fileName
    simp only [String.toList_append, String.toList_ofList, List.mem_append, not_or]
    refine ⟨⟨⟨⟨⟨hnamed.2, by decide⟩, hbase⟩, ?_⟩, by decide⟩, hextension⟩
    cases hc : u.classifier? with
    | none => simp
    | some c => simpa using hclassifier c hc

/-- No slash is left in the coordinates that an mvn URL is cut into. -/
theorem Location.slashless_of_artifact? {location : String} {a : Artifact}
    (h : artifact? location = some a) :
    a.Slashless := by
  obtain ⟨u, hparse, hartifact⟩ := Option.bind_eq_some_iff.mp h
  exact (MvnUrl.parse?_eq_some_iff.mp hparse).1.slashless hartifact

/-- The artifact of an mvn URL stays in its directories unless its name or its base version is made
of dots. -/
theorem Location.plain_of_artifact? {location : String} {a : Artifact}
    (h : artifact? location = some a) (hname : a.name ≠ "." ∧ a.name ≠ "..")
    (hbase : a.baseVersion ≠ "." ∧ a.baseVersion ≠ "..") : a.Plain := by
  have ha := slashless_of_artifact? h
  have hne : ∀ {text : String} {cs : List Char}, text ≠ String.ofList cs → text.toList ≠ cs := by
    rintro text _ hne rfl
    exact hne (String.ofList_toList).symm
  exact ⟨ha.group, isName_of_ne ha.name.2 ha.name.1 (hne hname.1) (hne hname.2),
    isName_of_ne ha.baseVersion.2 ha.baseVersion.1 (hne hbase.1) (hne hbase.2), ha.fileName⟩

end FeatureDepot
