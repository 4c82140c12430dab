import FeatureDepot.Proofs.Batch
import FeatureDepot.Proofs.Closure.Search
import FeatureDepot.Run

/-! Reports of runs. What a run reports on, and in what order, is settled when the features are
selected: whatever becomes of an item, all others are carried out and reported on in their
places. -/
namespace FeatureDepot

theorem ReportItem.ofAction_run (label : String) (announcement : Announcement) (action : Disk Path)
    (fs : FileSystem) : (ReportItem.ofAction label announcement action).run fs =
      match action fs with
      | (.ok destination, fs) => (⟨label, some announcement, .copied destination⟩, fs)
      | (.error failure, fs) => (⟨label, some announcement, .failed failure⟩, fs) := by
  unfold ReportItem.ofAction StateT.run ExceptT.run
  simp only [bind, StateT.bind]
  rcases action fs with ⟨outcome | outcome, fs⟩ <;> rfl

/-- An action that copies is never skipped, and reports under its label. -/
theorem ReportItem.ofAction_spec (label : String) (announcement : Announcement) (action : Disk Path)
    (fs : FileSystem) : ((ReportItem.ofAction label announcement action).run fs).1.label = label ∧
      ((ReportItem.ofAction label announcement action).run fs).1.outcome ≠ .skipped := by
  rw [ReportItem.ofAction_run]
  rcases action fs with ⟨outcome | outcome, fs⟩ <;> simp

namespace Settings

variable (host : Host) (s : Settings)

theorem addLocation_run (location : String) (fs : FileSystem) :
    (s.addLocation host location).run fs =
    if !Location.isMvnUrl location && s.skipForeign then (⟨location, none, .skipped⟩, fs) else
      match Location.artifact? location with
      | none => (⟨location, none, .failed { cause := .notMvn location }⟩, fs)
      | some a =>
        match fs.resolve s.localRepository a with
        | .error e => (⟨location, none, .failed { cause := .io e }⟩, fs)
        | .ok r => (s.depot.add host location r).run fs := by
  unfold addLocation StateT.run
  split
  · rfl
  · cases Location.artifact? location with
    | none => rfl
    | some a =>
      simp only [bind, StateT.bind, get, getThe, MonadStateOf.get, StateT.get, pure]
      cases fs.resolve s.localRepository a <;> rfl

/-- A location is skipped if it is no mvn URL and the settings say so, and for no other reason. -/
theorem addLocation_spec (location : String) (fs : FileSystem) :
    ((s.addLocation host location).run fs).1.label = location ∧
      (((s.addLocation host location).run fs).1.outcome = .skipped ↔
        Location.isMvnUrl location = false ∧ s.skipForeign = true) := by
  rw [addLocation_run]
  split
  next h =>
    refine ⟨rfl, fun _ => ?_, fun _ => rfl⟩
    simpa using h
  next h =>
    have hforeign : ¬ (Location.isMvnUrl location = false ∧ s.skipForeign = true) := by
      simpa using h
    split
    next => simp [hforeign]
    next a _ =>
      split
      next => simp [hforeign]
      next r _ =>
        obtain ⟨hlabel, houtcome⟩ :=
          ReportItem.ofAction_spec location (.artifact r.artifact) (s.depot.materialize host r) fs
        exact ⟨hlabel, fun hskipped => (houtcome hskipped).elim, fun hf => (hforeign hf).elim⟩

lemma perform_label (t : Task) (fs : FileSystem) :
    ((s.perform host t).run fs).1.label = t.label := by
  cases t with
  | descriptor source => exact (ReportItem.ofAction_spec _ _ _ fs).1
  | location location => exact (addLocation_spec host s location fs).1
  | file copy => exact (ReportItem.ofAction_spec _ _ _ fs).1

lemma perform_ne_skipped {t : Task} (ht : ∀ location, t ≠ .location location) (fs : FileSystem) :
    ((s.perform host t).run fs).1.outcome ≠ .skipped := by
  cases t with
  | descriptor source => exact (ReportItem.ofAction_spec _ _ _ fs).2
  | location location => exact (ht location rfl).elim
  | file copy => exact (ReportItem.ofAction_spec _ _ _ fs).2

theorem run_eq (fs : FileSystem) : s.run host fs = match s.plan fs with
    | .error failure => (.error failure, fs)
    | .ok tasks => (.ok ((tasks.mapM (s.perform host)).run fs).1,
        ((tasks.mapM (s.perform host)).run fs).2) := rfl

theorem plan_eq (fs : FileSystem) : s.plan fs = match LoadedDescriptor.loadAll s fs with
    | .error failure => .error failure
    | .ok loaded =>
      match selectFeatures (loaded.map fun p => p.2.descriptor) s.features with
      | .error fault => .error { cause := .selection fault }
      | .ok features => .ok (Task.all s (loaded.map Prod.snd) features) := by
  unfold plan
  cases LoadedDescriptor.loadAll s fs with
  | error failure => rfl
  | ok loaded =>
    have hmap : (loaded.map Prod.snd).map LoadedDescriptor.descriptor = loaded.map fun p =>
        p.2.descriptor := by simp
    simp only [bind, Except.bind, hmap]
    cases selectFeatures (loaded.map fun p => p.2.descriptor) s.features <;> rfl

theorem plan_eq_ok_iff {fs : FileSystem} {tasks : List Task} : s.plan fs = .ok tasks ↔
    ∃ loaded features, LoadedDescriptor.loadAll s fs = .ok loaded ∧
      selectFeatures (loaded.map fun p => p.2.descriptor) s.features = .ok features ∧
      tasks = Task.all s (loaded.map Prod.snd) features := by
  rw [plan_eq]
  cases LoadedDescriptor.loadAll s fs with
  | error failure => simp
  | ok loaded =>
    cases h : selectFeatures (loaded.map fun p => p.2.descriptor) s.features with
    | error fault => simp [h]
    | ok features => simp [h, eq_comm]

/-- A run that does not fail carries out its plan, from the first task to the last. -/
theorem run_eq_ok_iff {fs : FileSystem} {report : Report} : (s.run host fs).1 = .ok report ↔
    ∃ tasks, s.plan fs = .ok tasks ∧ report = ((tasks.mapM (s.perform host)).run fs).1 := by
  rw [run_eq]
  cases s.plan fs with
  | error failure => simp
  | ok tasks => simp [eq_comm]

theorem run_eq_ok_pair_iff {fs fs' : FileSystem} {report : Report} :
    s.run host fs = (.ok report, fs') ↔
    ∃ tasks, s.plan fs = .ok tasks ∧ (tasks.mapM (s.perform host)).run fs = (report, fs') := by
  rw [run_eq]
  cases s.plan fs with
  | error failure => simp
  | ok tasks =>
    constructor
    · intro h
      obtain ⟨hreport, hafter⟩ := Prod.mk.inj h
      exact ⟨tasks, rfl, Prod.ext (Except.ok.inj hreport) hafter⟩
    · rintro ⟨_, htasks, h⟩
      obtain rfl := Except.ok.inj htasks
      dsimp only
      rw [h]

end Settings

lemma Report.copied_add_skipped_add_failed (report : Report) :
    report.copied + report.skipped + report.failed = report.length := by
  unfold Report.copied Report.skipped Report.failed
  induction report with
  | nil => rfl
  | cons i report ih =>
    rw [List.countP_cons, List.countP_cons, List.countP_cons, List.length_cons]
    cases i.outcome <;> simp <;> omega

lemma Task.locations_eq (s : Settings) (f : Feature) :
    Task.locations s f = f.bundles.map Bundle.location ++
    f.conditionals.flatMap (fun c => (if s.ignoreDependencyFlag then c.bundles else
      c.bundles.filter (!·.dependency)).map Bundle.location) ++
  f.configFiles.map ConfigFile.location := by
  unfold Task.locations
  cases s.ignoreDependencyFlag <;> simp

/-- The report of a run that does not fail holds an item for each loaded descriptor, for each
location of each selected feature, and for each file copy, in this order. Every item comes from
carrying out its task on what the tasks before it have left, so no failure keeps another item out or
moves it. Only locations of features are skipped, exactly those that are no mvn URLs if the settings
say so, and every item is counted once. -/
theorem Settings.run_report (host : Host) (s : Settings) (fs : FileSystem) (report : Report)
    (h : (s.run host fs).1 = .ok report) : ∃ loaded features descriptors installed copies,
      LoadedDescriptor.loadAll s fs = .ok loaded ∧
      selectFeatures (loaded.map fun p => p.2.descriptor) s.features = .ok features ∧
      report = descriptors ++ installed ++ copies ∧
      descriptors.map ReportItem.label = loaded.map (fun p => p.2.source.artifact.display) ∧
      installed.map ReportItem.label = features.flatMap (fun f => f.bundles.map Bundle.location ++
        f.conditionals.flatMap (fun c => (if s.ignoreDependencyFlag then c.bundles else
          c.bundles.filter (!·.dependency)).map Bundle.location) ++
      f.configFiles.map ConfigFile.location) ∧
      copies.map ReportItem.label = s.fileCopies.map (fun c => c.source.text) ∧
      Batch.Carried (s.perform host) (Task.all s (loaded.map Prod.snd) features) fs report
        (s.run host fs).2 ∧
      (∀ i ∈ installed, i.outcome = .skipped ↔
        Location.isMvnUrl i.label = false ∧ s.skipForeign = true) ∧
      (∀ i ∈ descriptors ++ copies, i.outcome ≠ .skipped) ∧
      report.copied + report.skipped + report.failed = report.length := by
  obtain ⟨tasks, hplan, rfl⟩ := (s.run_eq_ok_iff host).mp h
  have hcarried := Batch.carried_mapM (s.perform host) tasks fs
  obtain ⟨loaded, features, hloaded, hfeatures, rfl⟩ := s.plan_eq_ok_iff.mp hplan
  have hafter : (s.run host fs).2 =
      (((Task.all s (loaded.map Prod.snd) features).mapM (s.perform host)).run fs).2 := by
    rw [s.run_eq host, hplan]
  obtain ⟨front, copies, middle, hfront, hbegin, hcopies⟩ := hcarried.append
  obtain ⟨descriptors, installed, first, rfl, hdescriptors, hinstalled⟩ := hbegin.append
  refine ⟨loaded, features, descriptors, installed, copies, hloaded, hfeatures, hfront, ?_, ?_,
    ?_, ?_, ?_, ?_, ?_⟩
  · rw [hdescriptors.map_eq (s.perform_label host)]
    simp [Task.label]
  · have hlabel : Task.label ∘ Task.location = id := rfl
    rw [hinstalled.map_eq (s.perform_label host), List.map_map, hlabel, List.map_id]
    exact List.flatMap_congr fun f _ => Task.locations_eq s f
  · rw [hcopies.map_eq (s.perform_label host)]
    simp [Task.label]
  · rw [hafter]
    exact hcarried
  · intro i hi
    obtain ⟨t, ht, t', rfl⟩ := hinstalled.exists_of_mem i hi
    obtain ⟨location, -, rfl⟩ := List.mem_map.mp ht
    rw [s.perform_label host]
    exact (s.addLocation_spec host location t').2
  · intro i hi
    rcases List.mem_append.mp hi with hi | hi
    · obtain ⟨t, ht, t', rfl⟩ := hdescriptors.exists_of_mem i hi
      obtain ⟨d, -, rfl⟩ := List.mem_map.mp ht
      exact s.perform_ne_skipped host (by simp) t'
    · obtain ⟨t, ht, t', rfl⟩ := hcopies.exists_of_mem i hi
      obtain ⟨c, -, rfl⟩ := List.mem_map.mp ht
      exact s.perform_ne_skipped host (by simp) t'
  · exact Report.copied_add_skipped_add_failed _

namespace Settings

/-- A feature of which one bundle is there, one is missing, one is no mvn URL and one is left to
others. -/
def mixedDescriptor : String :=
  "<f><feature name='n'><bundle>mvn:g/b/1</bundle><bundle dependency='1'>c</bundle><conditional>" ++
  "<bundle dependency='1'>d</bundle><bundle>mvn:g/e/1</bundle></conditional>" ++
  "<configfile>k</configfile></feature></f>"

def mixed : FileSystem where
  workingDirectory := []
  entries := [(["g".toList], .directory), (["g".toList, "a".toList], .directory),
    (["g".toList, "a".toList, "1".toList], .directory),
    (["g".toList, "a".toList, "1".toList, "a-1.xml".toList], .file (Bytes.encode mixedDescriptor)),
    (["g".toList, "b".toList], .directory), (["g".toList, "b".toList, "1".toList], .directory),
    (["g".toList, "b".toList, "1".toList, "b-1.jar".toList], .file [])]

def mixedSettings : Settings :=
  { repository := ⟨"/r"⟩, localRepository := ⟨"/"⟩, descriptors := ["g:a:xml:1"], features := ["n"]
    fileCopies := [{ source := ⟨"/none"⟩, name := "t" }] }

def mixedHost : Host := ⟨"", fun _ _ => "0"⟩

/-- What the descriptor holds. -/
def mixedFeature : Feature where
  name := "n"
  bundles := [⟨false, "mvn:g/b/1"⟩, ⟨true, "c"⟩]
  conditionals := [{ bundles := [⟨true, "d"⟩, ⟨false, "mvn:g/e/1"⟩] }]
  configFiles := [⟨none, "k"⟩]

def mixedLoaded : LoadedDescriptor :=
  ⟨⟨(Artifact.ofVersionText "g" "a" "1").withExtension "xml", some ⟨"/g/a/1/a-1.xml"⟩⟩,
    { features := [mixedFeature] }⟩

lemma loadAll_mixed :
    LoadedDescriptor.loadAll mixedSettings mixed = .ok [("mvn:g/a/1/xml", mixedLoaded)] := by
  have hstart : mixedSettings.descriptors.map Location.toMvnUrl = ["mvn:g/a/1/xml"] := by
    decide +kernel
  have hload : LoadedDescriptor.load mixedSettings mixed "mvn:g/a/1/xml" =
      .ok (mixedLoaded, []) := by decide +kernel
  unfold LoadedDescriptor.loadAll Closure.reach
  rw [hstart, Closure.visit_cons_of_ok _ (by decide) hload, List.nil_append, Closure.visit_nil]
  rfl

lemma selectFeatures_mixed :
    selectFeatures [mixedLoaded.descriptor] mixedSettings.features = .ok [mixedFeature] := by cbv

lemma plan_mixed :
    mixedSettings.plan mixed = .ok (Task.all mixedSettings [mixedLoaded] [mixedFeature]) :=
  mixedSettings.plan_eq_ok_iff.mpr ⟨_, [mixedFeature], loadAll_mixed, selectFeatures_mixed, rfl⟩

theorem run_report_mixed : ∃ report, (mixedSettings.run mixedHost mixed).1 = .ok report ∧
    report.map ReportItem.label = ["g:a:xml:1", "mvn:g/b/1", "c", "mvn:g/e/1", "k", "/none"] ∧
    (report.copied, report.skipped, report.failed) = (2, 2, 2) ∧
    report.copied + report.skipped + report.failed = report.length := by
  have hrun := (mixedSettings.run_eq_ok_iff mixedHost).mpr ⟨_, plan_mixed, rfl⟩
  obtain ⟨loaded, features, descriptors, installed, copies, hloaded, hfeatures, hreport,
    hdescriptors, hinstalled, hcopies, -, -, -, hcount⟩ :=
    run_report mixedHost mixedSettings mixed _ hrun
  refine ⟨_, hrun, ?_, by decide +kernel, hcount⟩
  obtain rfl := Except.ok.inj (hloaded.symm.trans loadAll_mixed)
  obtain rfl : features = [mixedFeature] :=
    Except.ok.inj (hfeatures.symm.trans selectFeatures_mixed)
  rw [hreport, List.map_append, List.map_append, hdescriptors, hinstalled, hcopies]
  decide +kernel

end Settings

end FeatureDepot
