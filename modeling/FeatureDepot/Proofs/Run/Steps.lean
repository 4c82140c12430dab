import FeatureDepot.Proofs.Disk
import FeatureDepot.Proofs.Loading.Order
import FeatureDepot.Proofs.Run.Report
import FeatureDepot.Proofs.Selection.Reachability

/-! Runs, step by step. A step loads a descriptor, selects the features or carries out a task. All
steps up to the first task only look at the file system, and from the first task on a run cannot
fail. -/
namespace FeatureDepot.Settings
open LoadedDescriptor

/-- Reads the descriptor that a location names from the file system of a run. -/
def fetch (s : Settings) (location : String) : Disk LoadedDescriptor :=
  Disk.during (.loadingDescriptor location) do
    match Location.artifact? location with
    | none => Disk.fail .descriptorNotMvn
    | some a =>
      match (← Disk.look (·.resolve s.localRepository a)).file with
      | none => Disk.fail (.descriptorNotPresent a)
      | some file =>
        match Descriptor.parse (← Disk.look (·.readText file)) with
        | .ok d => return ⟨⟨a, some file⟩, d⟩
        | .error fault => Disk.fail (.markup fault)

/-- Where a run stands: at loading descriptors, with the locations that were seen and the queue; at
carrying out tasks; or at its end. -/
inductive Stage
  | loading (seen queue : List String) (loaded : List LoadedDescriptor)
  | copying (tasks : List Task) (report : Report)
  | ended (result : Except Failure Report)

variable (host : Host) (s : Settings)

/-- A step of a run, and what it makes of the file system. -/
inductive Step : Stage × FileSystem → Stage × FileSystem → Prop
  | pass {seen queue : List String} {loaded : List LoadedDescriptor} {location : String}
      {fs : FileSystem} (h : location ∈ seen) :
      Step (.loading seen (location :: queue) loaded, fs) (.loading seen queue loaded, fs)
  | load {seen queue : List String} {loaded : List LoadedDescriptor} {location : String}
      {d : LoadedDescriptor} {fs fs' : FileSystem} (h : location ∉ seen)
      (hd : s.fetch location fs = (.ok d, fs')) :
      Step (.loading seen (location :: queue) loaded, fs)
        (.loading (location :: seen) (queue ++ references d.descriptor) (loaded ++ [d]), fs')
  | refuse {seen queue : List String} {loaded : List LoadedDescriptor} {location : String}
      {f : Failure} {fs fs' : FileSystem} (h : location ∉ seen)
      (hf : s.fetch location fs = (.error f, fs')) :
      Step (.loading seen (location :: queue) loaded, fs) (.ended (.error f), fs')
  | select {seen : List String} {loaded : List LoadedDescriptor} {features : List Feature}
      {fs : FileSystem}
      (h : selectFeatures (loaded.map LoadedDescriptor.descriptor) s.features = .ok features) :
      Step (.loading seen [] loaded, fs) (.copying (Task.all s loaded features) [], fs)
  | reject {seen : List String} {loaded : List LoadedDescriptor} {fault : SelectionFault}
      {fs : FileSystem}
      (h : selectFeatures (loaded.map LoadedDescriptor.descriptor) s.features = .error fault) :
      Step (.loading seen [] loaded, fs) (.ended (.error { cause := .selection fault }), fs)
  | perform {t : Task} {tasks : List Task} {report : Report} {item : ReportItem}
      {fs fs' : FileSystem} (h : (s.perform host t).run fs = (item, fs')) :
      Step (.copying (t :: tasks) report, fs) (.copying tasks (report ++ [item]), fs')
  | finish {report : Report} {fs : FileSystem} :
      Step (.copying [] report, fs) (.ended (.ok report), fs)

def start (fs : FileSystem) : Stage × FileSystem :=
  (.loading [] (s.descriptors.map Location.toMvnUrl) [], fs)

/-- What becomes of a run that has loaded its descriptors. -/
def outcomeOf (loaded : List LoadedDescriptor) (fs : FileSystem) :
    Except Failure Report × FileSystem :=
  match selectFeatures (loaded.map LoadedDescriptor.descriptor) s.features with
  | .error fault => (.error { cause := .selection fault }, fs)
  | .ok features =>
    (.ok (((Task.all s loaded features).mapM (s.perform host)).run fs).1,
      (((Task.all s loaded features).mapM (s.perform host)).run fs).2)

/-- What becomes of a run from a stage on. -/
def outcome : Stage × FileSystem → Except Failure Report × FileSystem
  | (.loading seen queue loaded, fs) =>
    match Closure.visit (LoadedDescriptor.load s fs) (finite_load s fs) seen queue with
    | .error f => (.error f, fs)
    | .ok more => s.outcomeOf host (loaded ++ more.map Prod.snd) fs
  | (.copying tasks report, fs) =>
    (.ok (report ++ ((tasks.mapM (s.perform host)).run fs).1),
      ((tasks.mapM (s.perform host)).run fs).2)
  | (.ended result, fs) => (result, fs)

/-- Reading a descriptor leaves the file system as it is. -/
theorem fetch_eq (location : String) (fs : FileSystem) :
    s.fetch location fs = ((LoadedDescriptor.load s fs location).map Prod.fst, fs) := by
  unfold fetch LoadedDescriptor.load LoadedDescriptor.read
  rw [Disk.during_eq]
  cases Location.artifact? location with
  | none => rfl
  | some a =>
    simp only [Disk.bind_eq, Disk.look_eq]
    rcases fs.resolve s.localRepository a with e | ⟨artifact, file⟩
    · rfl
    · cases file with
      | none => rfl
      | some file =>
        simp only [Except.mapError, Disk.bind_eq, Disk.look_eq]
        cases fs.readText file with
        | error e => rfl
        | ok text =>
          cases h : Descriptor.parse text <;> simp only [h] <;> rfl

variable {host s}

lemma fetch_eq_ok_iff {location : String} {fs fs' : FileSystem} {d : LoadedDescriptor} :
    s.fetch location fs = (.ok d, fs') ↔ fs' = fs ∧ Holds s fs location d := by
  rw [fetch_eq, Prod.mk.injEq, and_comm, @eq_comm _ fs fs', ← read_eq_ok_iff]
  unfold LoadedDescriptor.load
  cases LoadedDescriptor.read s fs location <;> simp [Except.map]

lemma fetch_eq_error_iff {location : String} {fs fs' : FileSystem} {f : Failure} :
    s.fetch location fs = (.error f, fs') ↔
    fs' = fs ∧ LoadedDescriptor.load s fs location = .error f := by
  rw [fetch_eq, Prod.mk.injEq, and_comm, @eq_comm _ fs fs']
  cases LoadedDescriptor.load s fs location <;> simp [Except.map]

variable {m m' : Stage × FileSystem}

/-- What becomes of a run does not change while it takes its steps. -/
theorem Step.outcome_eq (h : Step host s m m') : s.outcome host m = s.outcome host m' := by
  cases h with
  | pass h => simp only [outcome, Closure.visit_cons_of_mem _ h]
  | @load seen queue loaded location d fs fs' h hd =>
    obtain ⟨rfl, hd⟩ := fetch_eq_ok_iff.mp hd
    have hload : LoadedDescriptor.load s fs' location = .ok (d, references d.descriptor) :=
      load_eq_ok_iff.mpr ⟨hd, rfl⟩
    simp only [outcome, Closure.visit_cons_of_ok _ h hload]
    cases Closure.visit (LoadedDescriptor.load s fs') (finite_load s fs') (location :: seen)
        (queue ++ references d.descriptor) with
    | error f => rfl
    | ok more => simp [Except.map]
  | @refuse seen queue loaded location f fs fs' h hf =>
    obtain ⟨rfl, hload⟩ := fetch_eq_error_iff.mp hf
    simp only [outcome, Closure.visit_cons_of_error _ h hload]
  | select h => simp only [outcome, Closure.visit_nil, outcomeOf, List.map_nil, List.append_nil, h,
      List.nil_append]
  | reject h => simp only [outcome, Closure.visit_nil, outcomeOf, List.map_nil, List.append_nil, h]
  | @perform t tasks report item fs fs' h =>
    simp only [outcome]
    rw [Batch.mapM_run_cons, h, List.append_assoc]
    rfl
  | @finish report fs =>
    have hnone : (([] : List Task).mapM (s.perform host)).run fs = ([], fs) := rfl
    simp only [outcome, hnone, List.append_nil]

lemma steps_copying (tasks : List Task) (report : Report) (fs : FileSystem) :
    Relation.ReflTransGen (Step host s) (.copying tasks report, fs)
      (.ended (s.outcome host (.copying tasks report, fs)).1,
        (s.outcome host (.copying tasks report, fs)).2) := by
  induction tasks generalizing report fs with
  | nil =>
    have hstep : Step host s (.copying [] report, fs) (.ended (.ok report), fs) := .finish
    rw [hstep.outcome_eq]
    exact .single hstep
  | cons t tasks ih =>
    have hstep : Step host s (.copying (t :: tasks) report, fs)
      (.copying tasks (report ++ [((s.perform host t).run fs).1]), ((s.perform host t).run fs).2) :=
        .perform rfl
    rw [hstep.outcome_eq]
    exact .head hstep (ih _ _)

lemma steps_selecting (seen : List String) (loaded : List LoadedDescriptor) (fs : FileSystem) :
    Relation.ReflTransGen (Step host s) (.loading seen [] loaded, fs)
      (.ended (s.outcome host (.loading seen [] loaded, fs)).1,
        (s.outcome host (.loading seen [] loaded, fs)).2) := by
  cases h : selectFeatures (loaded.map LoadedDescriptor.descriptor) s.features with
  | error fault =>
    have hstep : Step host s (.loading seen [] loaded, fs) _ := .reject h
    rw [hstep.outcome_eq]
    exact .single hstep
  | ok features =>
    have hstep : Step host s (.loading seen [] loaded, fs) _ := .select h
    rw [hstep.outcome_eq]
    exact .head hstep (steps_copying _ _ _)

/-- Loading ends, since the search among the locations does. -/
theorem steps_loading {fs : FileSystem} {seen queue order : List String} {turns : Nat}
    (h : Closure.Search (referred s fs) seen queue order turns) (loaded : List LoadedDescriptor) :
    Relation.ReflTransGen (Step host s) (.loading seen queue loaded, fs)
      (.ended (s.outcome host (.loading seen queue loaded, fs)).1,
        (s.outcome host (.loading seen queue loaded, fs)).2) := by
  -- Each turn of the search is one step, until a location holds no descriptor.
  induction h generalizing loaded with
  | done seen => exact steps_selecting seen loaded fs
  | @skip location seen queue order turns h tail ih =>
    have hstep : Step host s (.loading seen (location :: queue) loaded, fs) _ := .pass h
    rw [hstep.outcome_eq]
    exact .head hstep (ih loaded)
  | @visit location seen queue order turns h tail ih =>
    rcases holds_or_cannotLoad s fs location with ⟨d, hd⟩ | ⟨c, hc⟩
    · have hreferred : referred s fs location = references d.descriptor := by
        simp [referred, hd.read_eq, references]
      have hstep : Step host s (.loading seen (location :: queue) loaded, fs) _ :=
        .load h (fetch_eq_ok_iff.mpr ⟨rfl, hd⟩)
      rw [hstep.outcome_eq]
      rw [hreferred] at ih
      exact .head hstep (ih _)
    · have hload : LoadedDescriptor.load s fs location = .error (failure location c) :=
        load_eq_error_iff.mpr ⟨c, hc, rfl⟩
      have hstep : Step host s (.loading seen (location :: queue) loaded, fs) _ :=
        .refuse h (fetch_eq_error_iff.mpr ⟨rfl, hload⟩)
      rw [hstep.outcome_eq]
      exact .single hstep

lemma outcome_start (fs : FileSystem) : s.outcome host (s.start fs) = s.run host fs := by
  rw [run_eq, plan_eq]
  unfold start outcome loadAll Closure.reach
  simp only [List.nil_append, outcomeOf, List.map_map]
  cases Closure.visit (LoadedDescriptor.load s fs) (finite_load s fs) []
    (s.descriptors.map Location.toMvnUrl) with
  | error f => rfl
  | ok more =>
    simp only [Function.comp_def]
    cases selectFeatures (more.map fun p => p.2.descriptor) s.features <;> rfl

lemma steps_run (fs : FileSystem) :
    Relation.ReflTransGen (Step host s) (s.start fs) (.ended (s.run host fs).1,
      (s.run host fs).2) := by
  obtain ⟨items, hitems⟩ := Closure.bounded_following (finite_load s fs)
  rw [following_load] at hitems
  obtain ⟨order, turns, hsearch⟩ :=
    Closure.exists_search hitems [] (s.descriptors.map Location.toMvnUrl)
  rw [← outcome_start]
  exact steps_loading hsearch []

lemma run_eq_of_steps {fs : FileSystem} (h : Relation.ReflTransGen (Step host s) (s.start fs) m) :
    s.run host fs = s.outcome host m := by
  rw [← outcome_start]
  induction h with
  | refl => rfl
  | tail _ hstep ih => rw [ih, hstep.outcome_eq]

/-- Nothing has changed in the file system, unless tasks are being carried out or have been. -/
def Untouched (fs : FileSystem) : Stage × FileSystem → Prop
  | (.loading .., files) => files = fs
  | (.copying .., _) => True
  | (.ended (.ok _), _) => True
  | (.ended (.error _), files) => files = fs

lemma Step.untouched {fs : FileSystem} (h : Step host s m m') (hm : Untouched fs m) :
    Untouched fs m' := by
  cases h with
  | pass h => exact hm
  | load h hd =>
    obtain ⟨rfl, -⟩ := fetch_eq_ok_iff.mp hd
    exact hm
  | refuse h hf =>
    obtain ⟨rfl, -⟩ := fetch_eq_error_iff.mp hf
    exact hm
  | select h => trivial
  | reject h => exact hm
  | perform h => trivial
  | finish => trivial

lemma untouched_of_steps {fs : FileSystem}
    (h : Relation.ReflTransGen (Step host s) (s.start fs) m) :
    Untouched fs m := by
  induction h with
  | refl => rfl
  | tail _ hstep ih => exact hstep.untouched ih

/-- A run that fails is never at its tasks. -/
theorem eq_of_steps_of_error {fs files : FileSystem} {stage : Stage} {f : Failure}
    (h : Relation.ReflTransGen (Step host s) (s.start fs) (stage, files))
    (hf : (s.run host fs).1 = .error f) :
    files = fs := by
  have huntouched := untouched_of_steps h
  rw [run_eq_of_steps h] at hf
  cases stage with
  | loading seen queue loaded => exact huntouched
  | copying tasks report => cases hf
  | ended result =>
    cases result with
    | error g => exact huntouched
    | ok report => cases hf

lemma exists_run_eq_error_iff {fs : FileSystem} : (∃ f, (s.run host fs).1 = .error f) ↔
    (∃ l c, Reachable s fs l ∧ CannotLoad s fs l c) ∨
    ∃ loaded, loadAll s fs = .ok loaded ∧
      ¬ Selection.Resolves (offered (loaded.map fun p => p.2.descriptor)) s.features := by
  rw [run_eq, plan_eq, ← exists_loadAll_eq_error_iff]
  cases loadAll s fs with
  | error f => simp
  | ok loaded =>
    simp only [Except.ok.injEq, exists_eq_left', reduceCtorEq, exists_false, false_or,
      ← exists_selectFeatures_eq_ok_iff]
    cases selectFeatures (loaded.map fun p => p.2.descriptor) s.features <;> simp

/-- A run takes its steps to its end. It fails if and only if a location that can be reached holds
no descriptor, or a name that is requested or needed means no feature of the loaded ones; no task
makes it fail. If it fails, the file system is what it was at first, in the end and at every
step. -/
theorem run_untouched_of_error (host : Host) (s : Settings) (fs : FileSystem) :
    Relation.ReflTransGen (Step host s) (s.start fs) (.ended (s.run host fs).1, (s.run host fs).2) ∧
    ((∃ f, (s.run host fs).1 = .error f) ↔
      (∃ l c, Reachable s fs l ∧ CannotLoad s fs l c) ∨
      ∃ loaded, loadAll s fs = .ok loaded ∧
        ¬ Selection.Resolves (offered (loaded.map fun p => p.2.descriptor)) s.features) ∧
    ∀ f, (s.run host fs).1 = .error f → (s.run host fs).2 = fs ∧
      ∀ stage files, Relation.ReflTransGen (Step host s) (s.start fs) (stage, files) → files = fs :=
  ⟨steps_run fs, exists_run_eq_error_iff, fun _ hf => ⟨eq_of_steps_of_error (steps_run fs) hf,
    fun _ _ hsteps => eq_of_steps_of_error hsteps hf⟩⟩

theorem run_untouched_of_error_circle :
    (circleSettings.run mixedHost circle).1 =
      .error (failure "mvn:g/c/1" (.descriptorNotPresent (.ofVersionText "g" "c" "1"))) ∧
    (circleSettings.run mixedHost circle).2 = circle ∧
    ∀ stage files, Relation.ReflTransGen (Step mixedHost circleSettings)
      (circleSettings.start circle) (stage, files) →
      files = circle := by
  have hrun : (circleSettings.run mixedHost circle).1 =
      .error (failure "mvn:g/c/1" (.descriptorNotPresent (.ofVersionText "g" "c" "1"))) := by
    rw [run_eq, plan_eq, loadAll_circle]
  exact ⟨hrun, (run_untouched_of_error mixedHost circleSettings circle).2.2 _ hrun⟩

end FeatureDepot.Settings
