import FeatureDepot.Proofs.FileSystem.Repeating
import FeatureDepot.Proofs.Metadata.Documents
import FeatureDepot.Proofs.Metadata.Histories

/-! Documents that are revised for several artifacts, as the files that hold them. The revisions are
additions to a document's history, all made at one time; so the same revisions, made once more,
change nothing. -/
namespace FeatureDepot

/-- A change of a document for an artifact: in the document of its version, or in that of all
versions. -/
structure Revision where
  artifact : Artifact
  isLocal : Bool

namespace Revision
open Metadata

variable {now : String} {m : Metadata} {r : Revision} {rs : List Revision} {bytes : Option Bytes}

/-- What a revision makes of a document. -/
def change (now : String) (r : Revision) (m : Metadata) : Metadata :=
  if r.isLocal then m.addLocalCopy r.artifact now else m.addArtifact r.artifact

/-- A revision as an addition to a document's history. -/
def addition (now : String) (r : Revision) : Addition :=
  if r.isLocal then .localCopy r.artifact now else .listed r.artifact

lemma change_eq_apply (now : String) (r : Revision) (m : Metadata) :
    r.change now m = (r.addition now).apply m := by
  unfold change addition
  cases r.isLocal <;> rfl

lemma foldl_change (now : String) (rs : List Revision) (m : Metadata) :
    rs.foldl (fun m r => r.change now m) m = (rs.map (addition now)).foldl Addition.apply m := by
  rw [List.foldl_map]
  simp only [change_eq_apply]

/-- Revisions that are made once more change nothing. -/
theorem foldl_change_foldl_change (now : String) (rs : List Revision) (m : Metadata) :
    rs.foldl (fun m r => r.change now m) (rs.foldl (fun m r => r.change now m) m) =
      rs.foldl (fun m r => r.change now m) m := by
  rw [foldl_change, foldl_change, Addition.foldl_apply_foldl_apply]

theorem legible_change (hr : r.artifact.Legible) (hnow : OnLines now) (hm : m.Legible) :
    (r.change now m).Legible := by
  unfold change
  split
  next => exact hm.addLocalCopy hr hnow
  next => exact hm.addArtifact hr

lemma legible_foldl_change (hrs : ∀ r ∈ rs, r.artifact.Legible) (hnow : OnLines now)
    (hm : m.Legible) :
    (rs.foldl (fun m r => r.change now m) m).Legible := by
  induction rs generalizing m with
  | nil => exact hm
  | cons r rs ih =>
    exact ih (fun r' hr' => hrs r' (List.mem_cons_of_mem _ hr'))
      (legible_change (hrs r List.mem_cons_self) hnow hm)

end Revision

namespace Metadata

/-- The document that a file holds, an empty one if it holds none. -/
def documentIn (bytes : Option Bytes) : Metadata :=
  ((bytes.bind Bytes.decode?).bind fun text => (parse text).toOption).getD {}

theorem documentIn_content (fs : FileSystem) (q : Place) :
    documentIn (fs.content q) = (documentAt fs q).getD {} := by
  unfold documentIn documentAt FileSystem.content
  rcases fs.get? q with - | - | - <;> rfl

theorem documentIn_render {m : Metadata} (hm : m.Legible) :
    documentIn (some (Bytes.encode m.render)) = m := by
  unfold documentIn
  rw [Option.bind_some, Bytes.decode?_encode, Option.bind_some, parse_render_unified,
    unified_eq_self hm]
  rfl

end Metadata

namespace Revision
open Metadata

variable {now : String} {r : Revision} {rs : List Revision} {bytes : Option Bytes} {ws : List Write}
  {q : Place} {before : Place → Option Bytes}

/-- The file of a document that is revised. -/
def write (now : String) (q : Place) (r : Revision) : Write :=
  ⟨q, q, fun bytes => Bytes.encode (r.change now (documentIn bytes)).render⟩

@[simp] theorem write_target (now : String) (q : Place) (r : Revision) :
    (r.write now q).target = q := rfl

theorem apply_write_of_ne {place : Place} (h : place ≠ q) (before : Place → Option Bytes) :
    (r.write now q).apply before place = before place := Write.apply_of_ne h before

@[simp] theorem write_source (now : String) (q : Place) (r : Revision) :
    (r.write now q).source = q := rfl

/-- What is written in the end is the document that all revisions have made. -/
theorem foldl_write (hrs : ∀ r ∈ rs, r.artifact.Legible) (hnow : OnLines now)
    (hbytes : (documentIn bytes).Legible) (hne : rs ≠ []) :
    rs.foldl (fun bytes r => some ((r.write now q).make bytes)) bytes =
      some (Bytes.encode (rs.foldl (fun m r => r.change now m) (documentIn bytes)).render) := by
  induction rs generalizing bytes with
  | nil => exact absurd rfl hne
  | cons r rs ih =>
    have hlegible := legible_change (hrs r List.mem_cons_self) hnow hbytes
    have hdocument : documentIn (some ((r.write now q).make bytes)) =
        r.change now (documentIn bytes) := documentIn_render hlegible
    cases rs with
    | nil => rfl
    | cons r' rs =>
      rw [List.foldl_cons, ih (fun r' hr' => hrs r' (List.mem_cons_of_mem _ hr'))
        (hdocument ▸ hlegible) (by simp), hdocument]
      rfl

/-- A file to which nothing but revised documents is written. -/
def Revised (now : String) (ws : List Write) (q : Place) : Prop :=
  ∀ w ∈ ws, w.target = q → ∃ r : Revision, r.artifact.Legible ∧ w = r.write now q

lemma Revised.exists_revisions (h : Revised now ws q) :
    ∃ rs : List Revision, (∀ r ∈ rs, r.artifact.Legible) ∧
    (rs = [] → ∀ w ∈ ws, q ≠ w.target) ∧
    ∀ before, Write.applyAll ws before q =
      rs.foldl (fun bytes r => some ((r.write now q).make bytes)) (before q) := by
  induction ws with
  | nil => exact ⟨[], by simp, by simp, fun _ => rfl⟩
  | cons w ws ih =>
    obtain ⟨rs, hrs, hnil, hfold⟩ := ih fun w' hw' => h w' (List.mem_cons_of_mem _ hw')
    by_cases htarget : w.target = q
    · obtain ⟨r, hr, hw⟩ := h w List.mem_cons_self htarget
      refine ⟨r :: rs, by simpa using ⟨hr, hrs⟩, by simp, fun before => ?_⟩
      rw [Write.applyAll_cons, hfold, List.foldl_cons, hw]
      congr 1
      exact Write.apply_target (r.write now q) before
    · refine ⟨rs, hrs, fun h => ?_, fun before => ?_⟩
      · simpa using ⟨Ne.symm htarget, hnil h⟩
      · rw [Write.applyAll_cons, hfold, Write.apply_of_ne (Ne.symm htarget)]

/-- A file that is written holds a document in the end. -/
theorem Revised.exists_render (h : Revised now ws q) (hnow : OnLines now)
    (hbefore : (documentIn (before q)).Legible) (hq : ∃ w ∈ ws, w.target = q) :
    ∃ m : Metadata, m.Legible ∧ Write.applyAll ws before q = some (Bytes.encode m.render) := by
  obtain ⟨rs, hrs, hnil, hfold⟩ := h.exists_revisions
  obtain ⟨w, hw, rfl⟩ := hq
  have hne : rs ≠ [] := fun hrs => hnil hrs w hw rfl
  exact ⟨_, legible_foldl_change hrs hnow hbefore,
    (hfold before).trans (foldl_write hrs hnow hbefore hne)⟩

/-- The revisions of a document, made twice, come to the same as made once. -/
theorem Revised.applyAll_applyAll (h : Revised now ws q) (hnow : OnLines now)
    (hbefore : (documentIn (before q)).Legible) :
    Write.applyAll ws (Write.applyAll ws before) q = Write.applyAll ws before q := by
  obtain ⟨rs, hrs, -, hfold⟩ := h.exists_revisions
  by_cases hne : rs = []
  · rw [hfold, hne]
    rfl
  · have hlegible := legible_foldl_change hrs hnow hbefore
    have honce := foldl_write (q := q) hrs hnow hbefore hne
    have hdocument := documentIn_render hlegible
    rw [hfold, hfold, honce, foldl_write hrs hnow (hdocument.symm ▸ hlegible) hne, hdocument,
      foldl_change_foldl_change]

end Revision
end FeatureDepot
