import FeatureDepot.Proofs.Depot.Leftovers
import FeatureDepot.Proofs.Loading.Locations
import FeatureDepot.Proofs.Run.Writing

/-! Running twice. What a run writes settles: a file that is written for the last time is copied
from where nothing is written any more, is a document, or holds the checksum of one. So a second
run, which carries out the same tasks, leaves all files with what they hold after the first one. -/
namespace FeatureDepot
open FeatureDepot.Path FileSystem Layout

namespace Depot

variable {d : Depot} {a : Artifact} {now : String} {w q source : Place} {x : Write} {f : Path}

/-- What is written for an artifact: copied from its source or a checksum of it, a document, or the
checksum of one. -/
inductive Kind (now : String) (w source : Place) (a : Artifact) (x : Write) : Prop
  | ofSource (hsource : x.source = source) (htarget : x.target ∉ documents)
  | document (r : Revision) (hr : r.artifact = a) (q : Place) (hq : q ∈ documents)
      (hx : x = r.write now q)
  | sum (f : Path) (kind : ChecksumKind) (hf : f.leaf? = some metadataSegment)
      (hsource : x.source = f.place w) (htarget : x.target = (ChecksumFile.path f kind).place w)

lemma kind_of_mem_sums {f : Path} (hf : f.leaf? = some metadataSegment)
    (hx : x ∈ ChecksumFile.writes w (f.place w) f) :
    Kind now w source a x := by
  obtain ⟨kind, rfl⟩ := ChecksumFile.mem_writes_iff.mp hx
  exact .sum f kind hf rfl rfl

lemma kind_of_mem_writes (ha : a.Lasting) (hx : x ∈ d.writes now w source a) :
    Kind now w source a x := by
  rw [writes, List.mem_cons] at hx
  rcases hx with rfl | hx
  · exact .ofSource rfl (destination_not_mem_documents ha.plain ha.fileName d w)
  · split at hx
    next =>
      rw [describeWrites, sums, List.mem_append, List.mem_append, List.mem_append, List.mem_cons,
        List.mem_singleton] at hx
      rcases hx with (hversion | hartifact) | (hx | hx) | hx
      · exact .document ⟨a, true⟩ rfl _ (versionMetadata_mem_documents _ w) hversion
      · exact .document ⟨a, false⟩ rfl _ (artifactMetadata_mem_documents _ w) hartifact
      · obtain ⟨kind, rfl⟩ := ChecksumFile.mem_writes_iff.mp hx
        exact .ofSource rfl
          (ChecksumFile.path_not_mem_documents (leaf?_destination ha.plain d) kind)
      · exact kind_of_mem_sums (leaf?_versionMetadata _) hx
      · exact kind_of_mem_sums (leaf?_artifactMetadata _) hx
    next => exact absurd hx List.not_mem_nil

/-- Whenever a document is written, its checksums are. -/
theorem sum_mem_writes (ha : a.Lasting) (hf : f.leaf? = some metadataSegment)
    (h : f.place w ∈ (d.writes now w source a).map Write.target) (kind : ChecksumKind) :
    (ChecksumFile.path f kind).place w ∈ (d.writes now w source a).map Write.target := by
  have hdocument : f.place w ∈ documents := getLast?_place hf
  have hsum : ∀ g : Path, g.leaf? = some metadataSegment → f.place w = g.place w →
      g ∈ described (d.destination a) →
      (ChecksumFile.path f kind).place w ∈
        (describeWrites now w source a (d.destination a)).map Write.target := by
    intro g hg hplace hmem
    obtain ⟨directory, hwhere, hpath⟩ := ChecksumFile.place_path (w := w) hf
    obtain ⟨directory', hwhere', hpath'⟩ := ChecksumFile.place_path (w := w) hg
    rw [hwhere, hwhere'] at hplace
    refine mem_map_target_describeWrites.mpr (.inr (.inr ⟨g, hmem, kind, ?_⟩))
    rw [hpath, hpath', List.append_cancel_right hplace]
  unfold writes at h ⊢
  rw [List.map_cons, List.mem_cons] at h ⊢
  split at h
  next hmetadata =>
    refine .inr ?_
    rw [if_pos hmetadata]
    rcases h with hcopy | h
    · rw [hcopy] at hdocument
      exact absurd hdocument (destination_not_mem_documents ha.plain ha.fileName d w)
    · rcases mem_map_target_describeWrites.mp h with hversion | hartifact | ⟨g, hg, other, hother⟩
      · exact hsum _ (leaf?_versionMetadata _) hversion (forall_mem_described.mp fun _ => id).2.1
      · exact hsum _ (leaf?_artifactMetadata _) hartifact (forall_mem_described.mp fun _ => id).2.2
      · obtain ⟨s, hleaf, -⟩ := leaf?_of_mem_described (leaf?_destination ha.plain d) g hg
        rw [hother] at hdocument
        exact absurd hdocument (ChecksumFile.path_not_mem_documents hleaf other)
  next =>
    rcases h with hcopy | h
    · rw [hcopy] at hdocument
      exact absurd hdocument (destination_not_mem_documents ha.plain ha.fileName d w)
    · exact absurd h List.not_mem_nil

/-- No checksum is written to a document, and none is computed from one. -/
theorem sums_spec (ha : a.Lasting) (hx : x ∈ sums w source (d.destination a)) :
    x.target ∉ documents ∧ (x.source = source ∨ x.source ∈ documents) := by
  have hsum : ∀ {f : Path} {s : Segment} {q : Place}, f.leaf? = some s →
      x ∈ ChecksumFile.writes w q f →
      x.target ∉ documents ∧ x.source = q := by
    intro f s q hf hx
    obtain ⟨hsource, kind, htarget⟩ := ChecksumFile.spec_of_mem_writes hx
    rw [htarget]
    exact ⟨ChecksumFile.path_not_mem_documents hf kind, hsource⟩
  unfold sums at hx
  rw [List.mem_append, List.mem_append] at hx
  rcases hx with (hx | hx) | hx
  · exact (hsum (leaf?_destination ha.plain d) hx).imp_right .inl
  · obtain ⟨htarget, hsource⟩ := hsum (leaf?_versionMetadata (d.destination a)) hx
    exact ⟨htarget, .inr (hsource ▸ versionMetadata_mem_documents (d.destination a) w)⟩
  · obtain ⟨htarget, hsource⟩ := hsum (leaf?_artifactMetadata (d.destination a)) hx
    exact ⟨htarget, .inr (hsource ▸ artifactMetadata_mem_documents (d.destination a) w)⟩

/-- Documents settle by themselves, and checksums settle behind them. -/
theorem settling_describeWrites (ha : a.Lasting)
    (hsource : source ∉ (describeWrites now w source a (d.destination a)).map Write.target) :
    Write.Settling documents (describeWrites now w source a (d.destination a)) := by
  unfold describeWrites at hsource ⊢
  have hdocuments : ∀ x ∈
      [Revision.write now ((versionMetadata (d.destination a)).place w) ⟨a, true⟩,
        Revision.write now ((artifactMetadata (d.destination a)).place w) ⟨a, false⟩],
      x.target ∈ documents := by
    intro x hx
    rw [List.mem_cons, List.mem_singleton] at hx
    rcases hx with hx | hx
    · rw [hx, Revision.write_target]
      exact versionMetadata_mem_documents (d.destination a) w
    · rw [hx, Revision.write_target]
      exact artifactMetadata_mem_documents (d.destination a) w
  refine Write.settling_append (Write.settling_of_forall fun x hx => .inl (hdocuments x hx))
    (Write.settling_of_forall fun x hx => .inr fun hmem => ?_) fun x hx => .inl (hdocuments x hx)
  rcases (sums_spec ha hx).2 with heq | hdocument
  · rw [heq] at hmem
    exact hsource (List.map_append ▸ List.mem_append_right _ hmem)
  · obtain ⟨y, hy, htarget⟩ := List.mem_map.mp hmem
    exact (sums_spec ha hy).1 (htarget ▸ hdocument)

/-- What is written for one artifact settles, since its source is not written to. -/
theorem settling_writes (ha : a.Lasting)
    (hsource : source ∉ (d.writes now w source a).map Write.target) :
    Write.Settling documents (d.writes now w source a) := by
  unfold writes at hsource ⊢
  obtain ⟨hself, hrest⟩ := not_or.mp (List.mem_cons.not.mp (List.map_cons ▸ hsource))
  have hcopy : Write.Settling documents [.copy source ((d.destination a).place w)] :=
    Write.settling_of_forall fun x hx => .inr fun hmem => by
      rw [List.mem_singleton.mp hx, List.map_singleton] at hmem
      exact hself (List.mem_singleton.mp hmem)
  split at hrest
  next hmetadata =>
    rw [if_pos hmetadata]
    refine Write.settling_append hcopy (settling_describeWrites ha hrest) fun x hx =>
      .inr fun hmem => ?_
    rw [List.mem_singleton.mp hx] at hmem
    exact absurd hmem hrest
  next hmetadata =>
    rw [if_neg hmetadata]
    exact hcopy

end Depot

namespace Settings

variable {s : Settings} {host host' : Host} {fs fs' : FileSystem} {t t' : Task} {tasks : List Task}
  {report : Report} {a : Artifact} {now : String} {w q : Place} {x : Write}

/-- What is written for a task: for an artifact, or by copying a file. -/
theorem mem_writes_cases (hx : x ∈ s.writes now w t) :
    (∃ a ∈ t.artifact?, x ∈ s.artifactWrites now w a) ∨
    ∃ c, t = .file c ∧ x = .copy (c.source.place w) ((s.repository.join c.target).place w) := by
  cases t with
  | descriptor source => exact .inl ⟨source.artifact, rfl, hx⟩
  | location location =>
    cases hlocation : Location.artifact? location with
    | none =>
      rw [writes_location_of_none hlocation] at hx
      exact absurd hx List.not_mem_nil
    | some a =>
      rw [writes_location hlocation] at hx
      exact .inl ⟨a, hlocation, hx⟩
  | file copy => exact .inr ⟨copy, rfl, List.mem_singleton.mp hx⟩

/-- To a document nothing but revisions is written. -/
theorem revised (houtbound : s.Outbound w) (ht : ∀ t ∈ tasks, s.Plans t)
    (hartifact : ∀ t ∈ tasks, ∀ a ∈ t.artifact?, a.Lasting) (hq : q ∈ documents) :
    Revision.Revised now (tasks.flatMap (s.writes now w)) q := by
  intro x hx htarget
  obtain ⟨t, htask, hx⟩ := List.mem_flatMap.mp hx
  rcases mem_writes_cases hx with ⟨a, ha, hx⟩ | ⟨c, rfl, rfl⟩
  · have hlasting := hartifact t htask a ha
    rcases Depot.kind_of_mem_writes hlasting hx with ⟨-, hnot⟩ | ⟨r, hr, q', -, rfl⟩ | ⟨f,
      kind, hf, -, hsum⟩
    · exact absurd (htarget ▸ hq) hnot
    · obtain rfl : q' = q := htarget
      exact ⟨r, hr ▸ hlasting.legible, rfl⟩
    · rw [hsum] at htarget
      exact absurd (htarget ▸ hq) (ChecksumFile.path_not_mem_documents hf kind)
  · rw [Write.copy_target] at htarget
    exact absurd (htarget ▸ hq) (houtbound.document c (ht _ htask))

lemma settling_task (houtbound : s.Outbound w) (ht : s.Plans t)
    (hartifact : ∀ a ∈ t.artifact?, a.Lasting) :
    Write.Settling documents (s.writes now w t) := by
  have hone : ∀ a : Artifact, a.Lasting → Write.Settling documents (s.artifactWrites now w a) :=
    fun a ha => Depot.settling_writes ha
      (localFile_not_mem_artifactWrites houtbound ha.plain ha.plain)
  cases t with
  | descriptor source => exact hone _ (hartifact _ rfl)
  | location location =>
    cases hlocation : Location.artifact? location with
    | none =>
      rw [writes_location_of_none hlocation]
      trivial
    | some a =>
      rw [writes_location hlocation]
      exact hone a (hartifact a hlocation)
  | file copy =>
    refine Write.settling_of_forall fun x hx => .inr fun hmem => houtbound.source copy ht ?_
    rw [List.mem_singleton.mp hx] at hmem
    rw [← Write.copy_source (copy.source.place w) ((s.repository.join copy.target).place w),
      List.mem_singleton.mp hmem]
    exact houtbound.target copy ht

/-- What a task writes stays as it is, or is written again, when a later task writes what it comes
from. Files are copied after all artifacts. -/
theorem settled_or_again (houtbound : s.Outbound w) (ht : s.Plans t)
    (hartifact : ∀ a ∈ t.artifact?, a.Lasting) (ht' : s.Plans t')
    (hartifact' : ∀ a ∈ t'.artifact?, a.Lasting) (horder : ∀ c, t = .file c → ∃ c', t' = .file c')
    (hx : x ∈ s.writes now w t) : x.target ∈ documents ∨
      (x.source ∈ (s.writes now w t').map Write.target →
        x.target ∈ (s.writes now w t').map Write.target) := by
  rcases mem_writes_cases hx with ⟨a, ha, hx⟩ | ⟨c, rfl, rfl⟩
  · have hlasting := hartifact a ha
    rcases Depot.kind_of_mem_writes hlasting hx with ⟨hsource, -⟩ | ⟨r, -, q, hq, rfl⟩ | ⟨f, kind,
      hf, hsource, hsum⟩
    · refine .inr fun hmem => ?_
      rw [hsource] at hmem
      exact absurd hmem (localFile_not_mem_writes houtbound hlasting.plain ht' hartifact')
    · exact .inl hq
    · refine .inr fun hmem => ?_
      rw [hsource] at hmem
      rw [hsum]
      cases t' with
      | descriptor source => exact Depot.sum_mem_writes (hartifact' _ rfl) hf hmem kind
      | location location =>
        cases hlocation : Location.artifact? location with
        | none =>
          rw [writes_location_of_none hlocation] at hmem
          exact absurd hmem List.not_mem_nil
        | some b =>
          rw [writes_location hlocation] at hmem ⊢
          exact Depot.sum_mem_writes (hartifact' b hlocation) hf hmem kind
      | file copy =>
        have hdocument : f.place w ∈ documents := getLast?_place hf
        rw [List.mem_singleton.mp hmem] at hdocument
        exact absurd hdocument (houtbound.document copy ht')
  · obtain ⟨c', rfl⟩ := horder c rfl
    refine .inr fun hmem => absurd (houtbound.target c' ht') ?_
    have heq : c.source.place w = (s.repository.join c'.target).place w :=
      List.mem_singleton.mp hmem
    rw [← heq]
    exact houtbound.source c ht

lemma file_of_holds {location : String} {d : LoadedDescriptor}
    (h : LoadedDescriptor.Holds s fs location d) :
    d.source.file = some (s.localFile d.source.artifact) := by
  cases h with
  | intro named present content parsed => rfl

/-- The tasks of a plan, with files behind all artifacts. -/
theorem plan_spec (h : s.plan fs = .ok tasks) : (∀ t ∈ tasks, s.Plans t) ∧
    tasks.Pairwise fun t t' => ∀ c, t = .file c → ∃ c', t' = .file c' := by
  obtain ⟨loaded, features, hloaded, -, rfl⟩ := s.plan_eq_ok_iff.mp h
  obtain ⟨-, hholds⟩ := LoadedDescriptor.search_of_loadAll_eq_ok hloaded
  unfold Task.all
  constructor
  · intro t ht
    rw [List.mem_append, List.mem_append] at ht
    rcases ht with (ht | ht) | ht
    · obtain ⟨d, hd, rfl⟩ := List.mem_map.mp ht
      obtain ⟨p, hp, rfl⟩ := List.mem_map.mp hd
      exact ⟨file_of_holds (hholds p hp), _, (hholds p hp).artifact⟩
    · obtain ⟨location, -, rfl⟩ := List.mem_map.mp ht
      trivial
    · obtain ⟨c, hc, rfl⟩ := List.mem_map.mp ht
      exact hc
  · have hfiles : ∀ t' ∈ s.fileCopies.map Task.file, ∃ c', t' = .file c' := by
      intro t' ht'
      obtain ⟨c', -, rfl⟩ := List.mem_map.mp ht'
      exact ⟨c', rfl⟩
    have hfront : ∀ t ∈ (loaded.map Prod.snd).map (fun d => Task.descriptor d.source) ++
        (features.flatMap (Task.locations s)).map Task.location, ∀ c, t ≠ .file c := by
      rintro t ht c rfl
      rcases List.mem_append.mp ht with ht | ht
      · obtain ⟨_, -, heq⟩ := List.mem_map.mp ht
        cases heq
      · obtain ⟨_, -, heq⟩ := List.mem_map.mp ht
        cases heq
    refine List.pairwise_append.mpr ⟨?_, ?_, fun t _ t' ht' _ _ => hfiles t' ht'⟩
    · exact List.pairwise_of_forall_mem_list fun t ht t' _ c hc => absurd hc (hfront t ht c)
    · exact List.pairwise_of_forall_mem_list fun t _ t' ht' _ _ => hfiles t' ht'

/-- A descriptor whose file is as it was is loaded as it was. -/
theorem holds_again {location : String} {d : LoadedDescriptor} (hgrown : fs.Grown fs')
    (hkept : fs'.content (fs.place (s.localFile d.source.artifact)) =
      fs.content (fs.place (s.localFile d.source.artifact)))
    (h : LoadedDescriptor.Holds s fs location d) : LoadedDescriptor.Holds s fs' location d := by
  cases h with
  | @intro a text descriptor named present content parsed =>
    obtain ⟨bytes, hread, hdecode⟩ := readText_eq_ok_iff.mp content
    obtain ⟨now, hreadNow, hnow⟩ := hgrown.read hread
    have hbytes : fs.content (fs.place (s.localFile a)) = some bytes :=
      content_eq_some_iff.mpr (get?_of_read hread)
    obtain rfl : now = bytes := Option.some.inj ((hnow.symm.trans hkept).trans hbytes)
    obtain ⟨q, hlocate, -⟩ := read_eq_ok_iff.mp hreadNow
    refine .intro named ?_ (readText_eq_ok_iff.mpr ⟨now, hreadNow, hdecode⟩) parsed
    unfold FileSystem.exists?
    rw [hlocate]

/-- A plan depends on nothing but the files of the descriptors that are loaded. -/
theorem plan_again (hgrown : fs.Grown fs') (h : s.plan fs = .ok tasks)
    (hkept : ∀ t ∈ tasks, ∀ a ∈ t.artifact?,
      fs'.content (fs.place (s.localFile a)) = fs.content (fs.place (s.localFile a))) :
    s.plan fs' = .ok tasks := by
  obtain ⟨loaded, features, hloaded, hselected, rfl⟩ := s.plan_eq_ok_iff.mp h
  obtain ⟨-, hholds⟩ := LoadedDescriptor.search_of_loadAll_eq_ok hloaded
  refine s.plan_eq_ok_iff.mpr ⟨loaded, features, ?_, hselected, rfl⟩
  refine Closure.reach_congr (LoadedDescriptor.finite_load s fs)
    (LoadedDescriptor.finite_load s fs') hloaded fun p hp => ?_
  have hd : Task.descriptor p.2.source ∈ Task.all s (loaded.map Prod.snd) features :=
    List.mem_append_left _ (List.mem_append_left _ (List.mem_map_of_mem (List.mem_map_of_mem hp)))
  have hnow := holds_again hgrown (hkept _ hd p.2.source.artifact rfl) (hholds p hp)
  rw [(LoadedDescriptor.load_eq_ok_iff (p := (p.2, LoadedDescriptor.references p.2.descriptor))).mpr
    ⟨hnow, rfl⟩,
    (LoadedDescriptor.load_eq_ok_iff (p := (p.2, LoadedDescriptor.references p.2.descriptor))).mpr
      ⟨hholds p hp, rfl⟩]

/-- Only a path that ends in a name is copied to. -/
theorem leaf?_of_file (h : (tasks.mapM (s.perform host)).run fs = (report, fs'))
    (hok : ∀ item ∈ report, ∀ failure, item.outcome ≠ .failed failure) {c : FileCopy}
    (hc : .file c ∈ tasks) :
    ∃ name, (s.repository.join c.target).leaf? = some name := by
  induction tasks generalizing fs report with
  | nil => exact absurd hc List.not_mem_nil
  | cons t tasks ih =>
    rw [Batch.mapM_run_cons] at h
    rcases hhead : (s.perform host t).run fs with ⟨item, middle⟩
    rw [hhead] at h
    rcases htail : (tasks.mapM (s.perform host)).run middle with ⟨items, after⟩
    rw [htail] at h
    obtain ⟨rfl, rfl⟩ := Prod.mk.inj h
    rw [List.forall_mem_cons] at hok
    rcases List.mem_cons.mp hc with rfl | hc
    · have hreport : (ReportItem.ofAction c.source.text
          (.file c.source (s.repository.join c.target))
          (s.depot.copyFile host c.source c.target)).run fs = (item, middle) := hhead
      obtain ⟨path, hcopied, -⟩ := ofAction_ok hreport hok.1
      obtain ⟨_, _, hcopy, -⟩ := Disk.bind_eq_ok_iff.mp hcopied
      obtain ⟨_, -, hstored⟩ := Disk.copy_stored (Disk.during_eq_ok_iff.mp hcopy)
      exact hstored.leaf
    · exact ih htail hok.2 hc

/-- Settings that can be carried out time and again: the repository lies apart from all that is
copied into it, files are copied below it, no file takes the name of a document, no artifact leaves
the directories of its coordinates, and what documents tell is read as it was written. -/
structure Repeatable (s : Settings) (fs : FileSystem) : Prop where
  localRepository : ¬ s.repository.place fs.workingDirectory <+:
    s.localRepository.place fs.workingDirectory ∧
    ¬ s.localRepository.place fs.workingDirectory <+: s.repository.place fs.workingDirectory
  source : ∀ c ∈ s.fileCopies, ¬ s.repository.place fs.workingDirectory <+:
    c.source.place fs.workingDirectory
  target : ∀ c ∈ s.fileCopies,
    s.repository.place fs.workingDirectory <+:
      (s.repository.join c.target).place fs.workingDirectory
  targetName : ∀ c ∈ s.fileCopies, (s.repository.join c.target).fileName? ≠ some Layout.metadataName
  legible : ∀ tasks, s.plan fs = .ok tasks → ∀ t ∈ tasks, ∀ a ∈ t.artifact?, a.Legible
  name : ∀ tasks, s.plan fs = .ok tasks → ∀ t ∈ tasks, ∀ a ∈ t.artifact?,
    a.name ≠ "." ∧ a.name ≠ ".."
  baseVersion : ∀ tasks, s.plan fs = .ok tasks → ∀ t ∈ tasks, ∀ a ∈ t.artifact?,
    a.baseVersion ≠ "." ∧ a.baseVersion ≠ ".."
  fileName : ∀ tasks, s.plan fs = .ok tasks → ∀ t ∈ tasks, ∀ a ∈ t.artifact?,
    Layout.fileName a ≠ Layout.metadataName
  document : ∀ q ∈ documents, ∀ m ∈ Metadata.documentAt fs q, m.Legible

lemma Repeatable.lasting (h : s.Repeatable fs) (hplan : s.plan fs = .ok tasks) (ht : t ∈ tasks)
    (ha : a ∈ t.artifact?) :
    a.Lasting := by
  have hlocation : ∃ location, Location.artifact? location = some a := by
    have hplans := (plan_spec hplan).1 t ht
    cases t with
    | descriptor source =>
      obtain rfl := Option.some.inj ha
      exact hplans.2
    | location text => exact ⟨text, ha⟩
    | file c => cases ha
  obtain ⟨location, hlocation⟩ := hlocation
  exact ⟨Location.plain_of_artifact? hlocation (h.name tasks hplan t ht a ha)
    (h.baseVersion tasks hplan t ht a ha), h.legible tasks hplan t ht a ha,
    h.fileName tasks hplan t ht a ha⟩

/-- Where nothing failed, all files that were copied have a name. -/
theorem Repeatable.outbound (h : s.Repeatable fs) (hplan : s.plan fs = .ok tasks)
    (hrun : (tasks.mapM (s.perform host)).run fs = (report, fs'))
    (hok : ∀ item ∈ report, ∀ failure, item.outcome ≠ .failed failure) :
    s.Outbound fs.workingDirectory := by
  refine ⟨h.localRepository, h.source, h.target, fun c hc hdocument => ?_⟩
  obtain ⟨loaded, features, -, -, rfl⟩ := s.plan_eq_ok_iff.mp hplan
  have htask : Task.file c ∈ Task.all s (loaded.map Prod.snd) features :=
    List.mem_append_right _ (List.mem_map_of_mem hc)
  obtain ⟨name, hname⟩ := leaf?_of_file hrun hok htask
  have hmetadata : name = metadataSegment :=
    Option.some.inj ((getLast?_place hname).symm.trans hdocument)
  refine h.targetName c hc ?_
  rw [fileName?_of_leaf? hname, hmetadata, metadataSegment, String.ofList_toList]

/-- Running twice is the same as running once: when nothing failed in a run, another one tells the
same and leaves all files and directories as they are. -/
theorem run_run (hs : fs.Sound) (hrepeatable : s.Repeatable fs) (hnow : Metadata.OnLines host.now)
    (hrun : s.run host fs = (.ok report, fs')) (hfailed : report.failed = 0)
    (hh : host.Successor host' fs') :
    ∃ fs'', s.run host' fs' = (.ok report, fs'') ∧ ∀ q, fs''.get? q = fs'.get? q := by
  have hok : ∀ item ∈ report, ∀ failure, item.outcome ≠ .failed failure := by
    intro item hitem failure heq
    have hnone := List.countP_eq_zero.mp hfailed item hitem
    rw [heq] at hnone
    exact hnone rfl
  obtain ⟨tasks, hplan, hperform⟩ := (run_eq_ok_pair_iff host s).mp hrun
  obtain ⟨hplans, hordered⟩ := plan_spec hplan
  have hlasting : ∀ t ∈ tasks, ∀ a ∈ t.artifact?, a.Lasting :=
    fun t ht a ha => hrepeatable.lasting hplan ht ha
  have houtbound := hrepeatable.outbound hplan hperform hok
  let ws := tasks.flatMap (s.writes host.now fs.workingDirectory)
  let written : Set Place := {q | q ∈ documents ∧ q ∈ ws.map Write.target}
  have hredoes : Redoes fs' written (tasks.mapM (s.perform host')).run report ws fs fs' :=
    mapM_perform_redoes hh hs (fun _ hq => hq.1) hnow houtbound hplans hlasting hperform hok
  have hlegible : ∀ q ∈ documents, (Metadata.documentIn (fs.content q)).Legible := by
    intro q hq
    rw [Metadata.documentIn_content]
    cases hdocument : Metadata.documentAt fs q with
    | none => exact Metadata.legible_empty
    | some m => exact hrepeatable.document q hq m hdocument
  have hrevised : ∀ q ∈ documents, Revision.Revised host.now ws q :=
    fun q hq => revised houtbound hplans hlasting hq
  -- Whatever the first run made of a document can be read by the second one.
  have hready : Ready fs' written fs' := by
    refine ⟨.refl fs', hredoes.sound, fun q hq => ?_⟩
    obtain ⟨hdocument, hwritten⟩ := hq
    rw [hredoes.content]
    exact (hrevised q hdocument).exists_render hnow (hlegible q hdocument)
      (List.mem_map.mp hwritten)
  have hsettling : Write.Settling documents ws := by
    refine Write.settling_flatMap
      (fun t ht => settling_task houtbound (hplans t ht) (hlasting t ht)) ?_
    refine hordered.imp_of_mem fun ht ht' horder x hx => ?_
    exact settled_or_again houtbound (hplans _ ht) (hlasting _ ht) (hplans _ ht')
      (hlasting _ ht') horder hx
  have htwice : Write.applyAll ws (Write.applyAll ws fs.content) = Write.applyAll ws fs.content :=
    Write.applyAll_applyAll hsettling fun q hq =>
      (hrevised q hq).applyAll_applyAll hnow (hlegible q hq)
  have hplanned : s.plan fs' = .ok tasks := by
    refine plan_again hredoes.grown hplan fun t ht a ha => ?_
    rw [hredoes.content]
    refine Write.applyAll_of_not_mem (fun x hx heq => ?_) fs.content
    obtain ⟨t', ht', hx⟩ := List.mem_flatMap.mp hx
    have hmem : fs.place (s.localFile a) ∈
        (s.writes host.now fs.workingDirectory t').map Write.target := heq ▸ List.mem_map_of_mem hx
    exact localFile_not_mem_writes houtbound (hlasting t ht a ha).plain (hplans t' ht')
      (hlasting t' ht') hmem
  obtain ⟨fs'', hagain, hlate, hcontent⟩ :=
    hredoes.redone fs' (.refl fs') (fun q hq hdocument => ⟨hdocument, hq⟩) hready
  refine ⟨fs'', (run_eq_ok_pair_iff host' s).mpr ⟨tasks, hplanned, hagain⟩,
    fun q => hlate.shape.get?_eq ?_⟩
  rw [hcontent, hredoes.content, htwice]

/-- Temporary files are not in use where no name looks like one of theirs. -/
theorem successor_of_entries (htag : host.Tagged) (htag' : host'.Tagged)
    (hnow : host'.now = host.now)
    (h : ∀ e ∈ fs.entries, ∀ name ∈ e.1.getLast?, ¬ ".writing".toList <:+ name) :
    host.Successor host' fs := by
  refine ⟨htag, htag', hnow, fun late p hshape => ?_⟩
  by_contra hused
  obtain ⟨entry, hentry⟩ :=
    Option.isSome_iff_exists.mp (hshape.2.isSome (Option.isSome_iff_ne_none.mpr hused))
  have hlast : (late.place (Disk.temporary host' late p)).getLast? =
      some (Disk.temporaryName host' late p) := Disk.getLast?_place_temporary_of_tagged htag'
  have hroot : late.place (Disk.temporary host' late p) ≠ [] := by
    intro hnil
    rw [hnil] at hlast
    cases hlast
  exact h _ (FileSystem.mem_entries_of_get? hentry hroot) _ hlast (List.suffix_append _ _)

/-- A local repository with one descriptor, and a file beside it. -/
def supply : FileSystem where
  workingDirectory := []
  entries := [(["m".toList], .directory), (["m".toList, "g".toList], .directory),
    (["m".toList, "g".toList, "a".toList], .directory),
    (["m".toList, "g".toList, "a".toList, "1".toList], .directory),
    (["m".toList, "g".toList, "a".toList, "1".toList, "a-1.xml".toList],
      .file (Bytes.encode "<f/>")),
    (["s".toList], .file [1])]

def supplySettings : Settings :=
  { repository := ⟨"/r"⟩, localRepository := ⟨"/m"⟩, generateMetadata := true
    descriptors := ["g:a:xml:1"]
    fileCopies := [{ source := ⟨"/s"⟩, name := "t" }] }

def supplyArtifact : Artifact := (Artifact.ofVersionText "g" "a" "1").withExtension "xml"

def supplyTasks : List Task :=
  [.descriptor ⟨supplyArtifact, some ⟨"/m/g/a/1/a-1.xml"⟩⟩, .file { source := ⟨"/s"⟩, name := "t" }]

lemma selectFeatures_supply : selectFeatures [{}] supplySettings.features = .ok [] := by cbv

lemma plan_supply : supplySettings.plan supply = .ok supplyTasks := by
  have hstart : supplySettings.descriptors.map Location.toMvnUrl = ["mvn:g/a/1/xml"] := by
    decide +kernel
  have hload : LoadedDescriptor.load supplySettings supply "mvn:g/a/1/xml" =
      .ok (⟨⟨supplyArtifact, some ⟨"/m/g/a/1/a-1.xml"⟩⟩, {}⟩, []) := by decide +kernel
  have hloaded : LoadedDescriptor.loadAll supplySettings supply =
      .ok [("mvn:g/a/1/xml", ⟨⟨supplyArtifact, some ⟨"/m/g/a/1/a-1.xml"⟩⟩, {}⟩)] := by
    unfold LoadedDescriptor.loadAll Closure.reach
    rw [hstart, Closure.visit_cons_of_ok _ (by decide) hload, List.nil_append, Closure.visit_nil]
    rfl
  exact supplySettings.plan_eq_ok_iff.mpr ⟨_, [], hloaded, selectFeatures_supply, rfl⟩

lemma repeatable_supply : supplySettings.Repeatable supply := by
  have hartifact : ∀ tasks, supplySettings.plan supply = .ok tasks →
      ∀ t ∈ tasks, ∀ a ∈ t.artifact?, a = supplyArtifact := by
    intro tasks htasks t ht a ha
    obtain rfl := Except.ok.inj (plan_supply.symm.trans htasks)
    simp only [supplyTasks, List.mem_cons, List.not_mem_nil, or_false] at ht
    rcases ht with rfl | rfl
    · exact (Option.some.inj ha).symm
    · cases ha
  have hlegible : supplyArtifact.Legible := by
    constructor <;> unfold Metadata.OnLines Markup.IsInLine <;> decide +kernel
  refine ⟨by decide +kernel, by decide +kernel, by decide +kernel, by decide +kernel,
    ?_, ?_, ?_, ?_, ?_⟩
  · exact fun tasks htasks t ht a ha => hartifact tasks htasks t ht a ha ▸ hlegible
  · intro tasks htasks t ht a ha
    rw [hartifact tasks htasks t ht a ha]
    decide +kernel
  · intro tasks htasks t ht a ha
    rw [hartifact tasks htasks t ht a ha]
    decide +kernel
  · intro tasks htasks t ht a ha
    rw [hartifact tasks htasks t ht a ha]
    decide +kernel
  · intro q hq m hm
    obtain ⟨content, -, hfile, -⟩ := Metadata.documentAt_eq_some_iff.mp hm
    have hname : ∀ e ∈ supply.entries, e.1.getLast? ≠ some metadataSegment := by decide +kernel
    exact absurd hq (hname _ (FileSystem.mem_entries_of_get?_file hfile))

theorem run_run_supply :
    ∃ report fs' fs'', supplySettings.run Disk.plainHost supply = (.ok report, fs') ∧
    report.failed = 0 ∧ supplySettings.run Disk.plainHost fs' = (.ok report, fs'') ∧
    ∀ q, fs''.get? q = fs'.get? q := by
  rcases hresult : (supplyTasks.mapM (supplySettings.perform Disk.plainHost)).run supply with
    ⟨report, fs'⟩
  have hrun := (run_eq_ok_pair_iff Disk.plainHost supplySettings).mpr ⟨_, plan_supply, hresult⟩
  have hspec :
      Report.failed ((supplyTasks.mapM (supplySettings.perform Disk.plainHost)).run supply).1 = 0 ∧
      ∀ e ∈ ((supplyTasks.mapM (supplySettings.perform Disk.plainHost)).run supply).2.entries,
        ∀ name ∈ e.1.getLast?, ¬ ".writing".toList <:+ name := by decide +kernel
  rw [hresult] at hspec
  obtain ⟨hfailed, hnames⟩ := hspec
  have hnow : Metadata.OnLines Disk.plainHost.now := by
    unfold Metadata.OnLines Markup.IsInLine
    decide
  obtain ⟨fs'', hagain, hsame⟩ :=
    run_run (.of_entries (by decide +kernel) (by decide +kernel)) repeatable_supply hnow hrun
      hfailed (successor_of_entries Disk.tagged_plainHost Disk.tagged_plainHost rfl hnames)
  exact ⟨report, fs', fs'', hrun, hfailed, hagain, hsame⟩

end Settings
end FeatureDepot
