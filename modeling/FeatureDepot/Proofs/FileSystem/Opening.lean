import FeatureDepot.Proofs.FileSystem.Paving

/-! Opening a file outside of what changes. Directories that are made elsewhere do not matter to a
path, unless it leads through one of them and by dots out of it again. -/
namespace FeatureDepot.FileSystem
open FeatureDepot.Path Batch

variable {fs fs' : FileSystem} {p : Path} {w q : Place} {segments : List Segment} {zone : Set Place}

/-- A path that leads out of a zone by dots only from directories that are there. -/
def LeavesFrom (fs : FileSystem) (zone : Set Place) (w : Place) (segments : List Segment) : Prop :=
  ∀ front back, segments = front ++ ['.', '.'] :: back → front.foldl enter w ∈ zone →
    fs.get? (front.foldl enter w) = some .directory

lemma LeavesFrom.tail {s : Segment} (h : fs.LeavesFrom zone w (s :: segments)) :
    fs.LeavesFrom zone (enter w s) segments := by
  intro front back hsplit hmem
  exact h (s :: front) back (by rw [hsplit, List.cons_append]) hmem

theorem leavesFrom_of_not_mem (h : ['.', '.'] ∉ segments) : fs.LeavesFrom zone w segments := by
  rintro front back rfl
  exact absurd (List.mem_append_right _ List.mem_cons_self) h

/-- What a walk ends at is there. -/
theorem isSome_of_walk (hs : fs.Sound) (hw : fs.get? w = some .directory)
    (h : fs.walk w segments = .ok q) :
    (fs.get? q).isSome := by
  induction segments generalizing w with
  | nil =>
    obtain rfl := Except.ok.inj h
    rw [hw, Option.isSome_some]
  | cons s segments ih =>
    rw [walk_cons_eq] at h
    obtain ⟨r, hr, h⟩ := bind_eq_ok_iff.mp h
    have hthere : (fs.get? r).isSome := by
      rw [walk_singleton hw] at hr
      split at hr
      next hdots =>
        obtain rfl := Except.ok.inj hr
        rw [get?_enter_of_dots hs hw hdots, Option.isSome_some]
      next => exact (child_eq_ok_iff.mp hr).2.2
    cases segments with
    | nil =>
      obtain rfl := Except.ok.inj h
      exact hthere
    | cons t segments =>
      have hdirectory : fs.get? r = some .directory := by
        rw [walk] at h
        split at h
        next => cases h
        next hr => simpa using hr
      exact ih hdirectory h

/-- Once a walk is where no directory was before, it does not get out of what has changed. -/
theorem not_walk_of_new (hs : fs.Sound) (hzone : ∀ q ∉ zone, fs'.get? q = fs.get? q)
    (hleaves : fs.LeavesFrom zone w segments) (hw : w ∈ zone) (hnew : fs.get? w ≠ some .directory)
    (hq : q ∉ zone) :
    fs'.walk w segments ≠ .ok q := by
  induction segments generalizing w with
  | nil =>
    intro h
    obtain rfl := Except.ok.inj h
    exact hq hw
  | cons s segments ih =>
    intro h
    rw [walk] at h
    split at h
    next => cases h
    next =>
      split at h
      next hidle =>
        have htail := hleaves.tail
        rw [enter_of_isIdle w hidle] at htail
        exact ih htail hw hnew h
      next hidle =>
        split at h
        next hdots =>
          rw [hdots] at hleaves
          exact hnew (hleaves [] segments rfl hw)
        next hdots =>
          obtain ⟨r, hr, h⟩ := bind_eq_ok_iff.mp h
          obtain ⟨-, rfl, hsome⟩ := child_eq_ok_iff.mp hr
          have hnone : fs.get? (w ++ [s]) = none := by
            by_contra hsome
            have hparent := hs.above (w ++ [s]) (Option.isSome_iff_ne_none.mpr hsome)
            rw [List.dropLast_concat] at hparent
            exact hnew hparent
          have hmem : w ++ [s] ∈ zone := by
            by_contra hout
            rw [hzone _ hout, hnone] at hsome
            cases hsome
          have htail := hleaves.tail
          rw [enter_eq_append (not_or.mpr ⟨hidle, hdots⟩)] at htail
          exact ih htail hmem (by simp [hnone]) h

lemma walk_of_zone (hs : fs.Sound) (hzone : ∀ q ∉ zone, fs'.get? q = fs.get? q)
    (hw : fs.get? w = some .directory) (hleaves : fs.LeavesFrom zone w segments) (hq : q ∉ zone)
    (h : fs'.walk w segments = .ok q) :
    fs.walk w segments = .ok q := by
  induction segments generalizing w with
  | nil => exact h
  | cons s segments ih =>
    rw [walk] at h
    split at h
    next => cases h
    next hw' =>
      have hlead : isIdle s ∨ s = ['.', '.'] → fs'.walk (enter w s) segments = .ok q →
          fs.walk w (s :: segments) = .ok q := by
        intro hdots hrest
        rw [walk_cons_eq, walk_singleton hw, if_pos hdots]
        exact ih (get?_enter_of_dots hs hw hdots) hleaves.tail hrest
      split at h
      next hidle => exact hlead (.inl hidle) (by rwa [enter_of_isIdle w hidle])
      next hidle =>
        split at h
        next hdots =>
          refine hlead (.inr hdots) ?_
          unfold enter
          rwa [if_neg hidle, if_pos hdots]
        next hdots =>
          obtain ⟨r, hr, h⟩ := bind_eq_ok_iff.mp h
          obtain ⟨hsize, rfl, hsome⟩ := child_eq_ok_iff.mp hr
          have hname : ¬ (isIdle s ∨ s = ['.', '.']) := not_or.mpr ⟨hidle, hdots⟩
          have htail := hleaves.tail
          rw [enter_eq_append hname] at htail
          have hstep : (fs.get? (w ++ [s])).isSome → fs.walk (w ++ [s]) segments = .ok q →
              fs.walk w (s :: segments) = .ok q := by
            intro hthere hrest
            rw [walk_cons_eq, walk_singleton hw, if_neg hname,
              child_eq_ok_iff.mpr ⟨hsize, rfl, hthere⟩]
            exact hrest
          by_cases hdirectory : fs.get? (w ++ [s]) = some .directory
          · exact hstep (by rw [hdirectory, Option.isSome_some]) (ih hdirectory htail h)
          · have hout : w ++ [s] ∉ zone :=
              fun hmem => not_walk_of_new hs hzone htail hmem hdirectory hq h
            rw [hzone _ hout] at hsome
            cases segments with
            | nil => exact hstep hsome h
            | cons t segments =>
              have hdirectory' := directory_of_walk_cons h
              rw [hzone _ hout] at hdirectory'
              exact absurd hdirectory' hdirectory

/-- What is opened outside of a zone does not change with what is in it. -/
theorem openFile_congr (hs : fs.Sound) (hworking : fs'.workingDirectory = fs.workingDirectory)
    (hdirectory : ∀ q, fs.get? q = some .directory → fs'.get? q = some .directory)
    (hzone : ∀ q ∉ zone, fs'.get? q = fs.get? q) (hout : fs.place p ∉ zone)
    (hleaves : fs.LeavesFrom zone (fs.base p) p.segments) (pieces : List (Except IoError Bytes)) :
    fs'.openFile p = .ok pieces ↔ fs.openFile p = .ok pieces := by
  have hlocate : ∀ q, fs'.locate p = .ok q ↔ fs.locate p = .ok q := by
    intro q
    constructor
    · intro h
      obtain ⟨hcheck, hwalk⟩ := locate_eq_ok_iff.mp h
      rw [base_congr hworking] at hwalk
      have hq : q ∉ zone := by
        rwa [← foldl_enter_of_walk hwalk]
      exact locate_eq_ok_iff.mpr ⟨hcheck, walk_of_zone hs hzone (hs.base p) hleaves hq hwalk⟩
    · intro h
      obtain ⟨-, hwalk⟩ := locate_eq_ok_iff.mp h
      refine locate_of_isSome hworking hdirectory h ?_
      rw [hzone q (by rwa [← place_of_locate h])]
      exact isSome_of_walk hs (hs.base p) hwalk
  unfold openFile
  rw [bind_eq_ok_iff, bind_eq_ok_iff]
  refine exists_congr fun q => ?_
  rw [hlocate]
  refine and_congr_right fun h => ?_
  rw [hzone q (by rwa [← place_of_locate h])]

end FeatureDepot.FileSystem
