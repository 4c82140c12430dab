import FeatureDepot.Proofs.Closure.Search
import FeatureDepot.Proofs.Location.Spelling
import FeatureDepot.Run

/-! Loading descriptors. The descriptors of a run are loaded in the breadth-first order of the
locations that the settings and the descriptors themselves refer to; the first location of this
order that holds no descriptor is the failure. -/
namespace FeatureDepot.LoadedDescriptor

/-- What a location holds: the descriptor in the file of the local repository that its artifact
names. -/
inductive Holds (s : Settings) (fs : FileSystem) (location : String) : LoadedDescriptor → Prop
  | intro {a : Artifact} {text : String} {d : Descriptor}
      (named : Location.artifact? location = some a)
      (present : fs.exists? (Layout.nested.filePath s.localRepository a) = .ok true)
      (content : fs.readText (Layout.nested.filePath s.localRepository a) = .ok text)
      (parsed : Descriptor.parse text = .ok d) :
      Holds s fs location ⟨⟨a, some (Layout.nested.filePath s.localRepository a)⟩, d⟩

/-- Why a location cannot be loaded: it is no mvn URL with a version, or the file is absent, cannot
be looked up or read, or holds no descriptor. -/
inductive CannotLoad (s : Settings) (fs : FileSystem) (location : String) : Cause → Prop
  | unnamed (h : ∀ u, MvnUrl.parse? location.toList = some u → u.version = []) :
      CannotLoad s fs location .descriptorNotMvn
  | absent {a : Artifact} (named : Location.artifact? location = some a)
      (h : fs.exists? (Layout.nested.filePath s.localRepository a) = .ok false) :
      CannotLoad s fs location (.descriptorNotPresent a)
  | unreachable {a : Artifact} {e : IoError} (named : Location.artifact? location = some a)
      (h : fs.exists? (Layout.nested.filePath s.localRepository a) = .error e) :
      CannotLoad s fs location (.io e)
  | unreadable {a : Artifact} {e : IoError} (named : Location.artifact? location = some a)
      (present : fs.exists? (Layout.nested.filePath s.localRepository a) = .ok true)
      (h : fs.readText (Layout.nested.filePath s.localRepository a) = .error e) :
      CannotLoad s fs location (.io e)
  | unparsable {a : Artifact} {text : String} {fault : Markup.Fault}
      (named : Location.artifact? location = some a)
      (present : fs.exists? (Layout.nested.filePath s.localRepository a) = .ok true)
      (content : fs.readText (Layout.nested.filePath s.localRepository a) = .ok text)
      (h : Descriptor.parse text = .error fault) : CannotLoad s fs location (.markup fault)

theorem resolve_eq (fs : FileSystem) (root : Path) (a : Artifact) :
    fs.resolve root a = (fs.exists? (Layout.nested.filePath root a)).map fun present =>
      ⟨a, if present then some (Layout.nested.filePath root a) else none⟩ := by
  unfold FileSystem.resolve
  cases h : fs.exists? (Layout.nested.filePath root a) <;>
    simp only [h, bind, Except.bind, pure, Except.pure, Except.map]

variable {s : Settings} {fs : FileSystem} {location : String}

theorem Holds.read_eq {d : LoadedDescriptor} (h : Holds s fs location d) :
    read s fs location = .ok d := by
  cases h with
  | intro named present content parsed =>
    simp [read, named, resolve_eq, present, content, parsed, Except.map]

lemma CannotLoad.read_eq {c : Cause} (h : CannotLoad s fs location c) :
    read s fs location = .error c := by
  cases h with
  | unnamed h => simp [read, Location.artifact?_eq_none_iff.mpr h]
  | absent named h => simp [read, named, resolve_eq, h, Except.map]
  | unreachable named h => simp [read, named, resolve_eq, h, Except.map]
  | unreadable named present h => simp [read, named, resolve_eq, present, h, Except.map]
  | unparsable named present content h =>
    simp [read, named, resolve_eq, present, content, h, Except.map]

theorem holds_or_cannotLoad (s : Settings) (fs : FileSystem) (location : String) :
    (∃ d, Holds s fs location d) ∨ ∃ c, CannotLoad s fs location c := by
  cases named : Location.artifact? location with
  | none => exact .inr ⟨_, .unnamed (Location.artifact?_eq_none_iff.mp named)⟩
  | some a =>
    cases present : fs.exists? (Layout.nested.filePath s.localRepository a) with
    | error e => exact .inr ⟨_, .unreachable named present⟩
    | ok found =>
      cases found with
      | false => exact .inr ⟨_, .absent named present⟩
      | true =>
        cases content : fs.readText (Layout.nested.filePath s.localRepository a) with
        | error e => exact .inr ⟨_, .unreadable named present content⟩
        | ok text =>
          cases parsed : Descriptor.parse text with
          | error fault => exact .inr ⟨_, .unparsable named present content parsed⟩
          | ok d => exact .inl ⟨_, .intro named present content parsed⟩

theorem read_eq_ok_iff {d : LoadedDescriptor} :
    read s fs location = .ok d ↔ Holds s fs location d := by
  constructor
  · intro h
    rcases holds_or_cannotLoad s fs location with ⟨d', hd⟩ | ⟨c, hc⟩
    · obtain rfl := Except.ok.inj (hd.read_eq.symm.trans h)
      exact hd
    · cases hc.read_eq.symm.trans h
  · exact Holds.read_eq

lemma read_eq_error_iff {c : Cause} :
    read s fs location = .error c ↔ CannotLoad s fs location c := by
  constructor
  · intro h
    rcases holds_or_cannotLoad s fs location with ⟨d, hd⟩ | ⟨c', hc⟩
    · cases hd.read_eq.symm.trans h
    · obtain rfl := Except.error.inj (hc.read_eq.symm.trans h)
      exact hc
  · exact CannotLoad.read_eq

def failure (location : String) (c : Cause) : Failure :=
  { activities := [.loadingDescriptor location], cause := c }

theorem load_eq_ok_iff {p : LoadedDescriptor × List String} :
    load s fs location = .ok p ↔ Holds s fs location p.1 ∧ p.2 = references p.1.descriptor := by
  obtain ⟨d, items⟩ := p
  rw [← read_eq_ok_iff]
  unfold load
  cases read s fs location with
  | error c => simp
  | ok d' =>
    simp only [Except.ok.injEq, Prod.mk.injEq]
    constructor
    · rintro ⟨rfl, rfl⟩
      exact ⟨rfl, rfl⟩
    · rintro ⟨rfl, rfl⟩
      exact ⟨rfl, rfl⟩

theorem load_eq_error_iff {f : Failure} :
    load s fs location = .error f ↔ ∃ c, CannotLoad s fs location c ∧ f = failure location c := by
  simp only [← read_eq_error_iff]
  unfold load failure
  cases read s fs location with
  | error c => simp [eq_comm]
  | ok d => simp

/-- The locations that the descriptor at a location refers to; none if it holds no descriptor. -/
def referred (s : Settings) (fs : FileSystem) (location : String) : List String :=
  match read s fs location with
  | .ok d => d.descriptor.repositories.map Location.toMvnUrl
  | .error _ => []

theorem following_load (s : Settings) (fs : FileSystem) :
    Closure.following (load s fs) = referred s fs := by
  funext location
  unfold Closure.following load referred
  cases read s fs location <;> rfl

def Refers (s : Settings) (fs : FileSystem) (location other : String) : Prop :=
  ∃ d, Holds s fs location d ∧ other ∈ d.descriptor.repositories.map Location.toMvnUrl

lemma mem_referred_iff {other : String} :
    other ∈ referred s fs location ↔ Refers s fs location other := by
  unfold referred Refers
  simp only [← read_eq_ok_iff]
  cases read s fs location <;> simp

/-- A location that the settings name, or that one of those refers to, at any distance. -/
def Reachable (s : Settings) (fs : FileSystem) (location : String) : Prop :=
  ∃ first ∈ s.descriptors.map Location.toMvnUrl, Relation.ReflTransGen (Refers s fs) first location

lemma exists_load_eq_ok_iff : (∃ p, load s fs location = .ok p) ↔ ∃ d, Holds s fs location d := by
  simp only [load_eq_ok_iff]
  exact ⟨fun ⟨p, hp, _⟩ => ⟨p.1, hp⟩, fun ⟨d, hd⟩ => ⟨(d, references d.descriptor), hd, rfl⟩⟩

lemma refers_iff {p : LoadedDescriptor × List String} (h : load s fs location = .ok p)
    (other : String) :
    Refers s fs location other ↔ other ∈ p.2 := by
  rw [← mem_referred_iff, ← following_load, Closure.following_of_ok h]

/-- A search can pass every location, since one that holds no descriptor refers to nothing. -/
theorem mem_iff_reachable {order : List String} {turns : Nat}
    (h : Closure.Search (referred s fs) [] (s.descriptors.map Location.toMvnUrl) order turns)
    (l : String) :
    l ∈ order ↔ Reachable s fs l := by
  simp only [h.mem_iff, mem_referred_iff]
  rfl

/-- Loading ends, however the descriptors refer to each other, and succeeds if and only if all
reachable locations hold one. -/
theorem exists_loadAll_eq_ok_iff :
    (∃ loaded, loadAll s fs = .ok loaded) ↔ ∀ l, Reachable s fs l → ∃ d, Holds s fs l d := by
  unfold loadAll
  rw [Closure.exists_reach_eq_ok_iff (fun _ _ => refers_iff) (finite_load s fs)]
  simp only [exists_load_eq_ok_iff]
  exact ⟨fun h l ⟨first, hfirst, hl⟩ => h first hfirst l hl,
    fun h first hfirst l hl => h l ⟨first, hfirst, hl⟩⟩

theorem exists_loadAll_eq_error_iff :
    (∃ f, loadAll s fs = .error f) ↔ ∃ l c, Reachable s fs l ∧ CannotLoad s fs l c := by
  have hnot : (∃ f, loadAll s fs = .error f) ↔ ¬ ∃ loaded, loadAll s fs = .ok loaded := by
    cases loadAll s fs <;> simp
  rw [hnot, exists_loadAll_eq_ok_iff]
  push Not
  constructor
  · rintro ⟨l, hl, hnone⟩
    obtain ⟨d, hd⟩ | ⟨c, hc⟩ := holds_or_cannotLoad s fs l
    · exact (hnone d hd).elim
    · exact ⟨l, c, hl, hc⟩
  · rintro ⟨l, c, hl, hc⟩
    refine ⟨l, hl, fun d hd => ?_⟩
    cases hd.read_eq.symm.trans hc.read_eq

/-- What is loaded stands in the order of the search, with the descriptor that each location
holds. -/
theorem search_of_loadAll_eq_ok {loaded : List (String × LoadedDescriptor)}
    (h : loadAll s fs = .ok loaded) :
    (∃ turns, Closure.Search (referred s fs) [] (s.descriptors.map Location.toMvnUrl)
      (loaded.map Prod.fst) turns) ∧
      ∀ p ∈ loaded, Holds s fs p.1 p.2 := by
  obtain ⟨hsearch, hvisited⟩ := Closure.search_of_reach_eq_ok (finite_load s fs) h
  rw [following_load] at hsearch
  refine ⟨hsearch, fun p hp => ?_⟩
  obtain ⟨items, hitems⟩ := hvisited p hp
  exact (load_eq_ok_iff.mp hitems).1

lemma flatMap_referred {loaded : List (String × LoadedDescriptor)}
    (h : ∀ p ∈ loaded, Holds s fs p.1 p.2) :
    (loaded.map Prod.fst).flatMap (referred s fs) =
      loaded.flatMap fun p => p.2.descriptor.repositories.map Location.toMvnUrl := by
  rw [List.flatMap_map]
  refine List.flatMap_congr fun p hp => ?_
  simp [referred, (h p hp).read_eq]

/-- The failure of a search is the one of the first location in its order that holds no
descriptor. -/
theorem first_of_loadAll_eq_error {order : List String} {turns : Nat} {f : Failure}
    (hsearch : Closure.Search (referred s fs) [] (s.descriptors.map Location.toMvnUrl) order turns)
    (h : loadAll s fs = .error f) : ∃ before l after c, order = before ++ l :: after ∧
      (∀ b ∈ before, ∃ d, Holds s fs b d) ∧ CannotLoad s fs l c ∧ f = failure l c := by
  rw [← following_load] at hsearch
  have hvisit : order.mapM (Closure.visitOne (load s fs)) = .error f :=
    (Closure.visit_eq_mapM (finite_load s fs) hsearch).symm.trans h
  obtain ⟨before, l, after, rfl, hbefore, hl⟩ := Batch.mapM_eq_error_iff.mp hvisit
  have hone : ∀ {a : String}, Closure.visitOne (load s fs) a =
      (load s fs a).map fun r => (a, r.1) := rfl
  obtain ⟨c, hc, rfl⟩ : ∃ c, CannotLoad s fs l c ∧ f = failure l c := by
    rw [← load_eq_error_iff]
    cases hload : load s fs l <;> simp_all [Except.map]
  refine ⟨before, l, after, c, rfl, fun b hb => ?_, hc, rfl⟩
  obtain ⟨p, hp⟩ := hbefore b hb
  obtain ⟨-, items, hitems⟩ := Closure.visitOne_eq_ok_iff.mp hp
  exact exists_load_eq_ok_iff.mp ⟨_, hitems⟩

/-- Loading the descriptors of a run ends, in circles too: there is an order in which all reachable
locations are visited once, breadth first, and every reference takes one turn. Loading fails if and
only if one of them cannot be loaded. If it succeeds, it has loaded what they hold, in this order;
else the failure is that of the first one that cannot be loaded. -/
theorem loadAll_breadthFirst (s : Settings) (fs : FileSystem) : ∃ order : List String,
    Closure.Search (referred s fs) [] (s.descriptors.map Location.toMvnUrl) order
      (s.descriptors.length + (order.flatMap (referred s fs)).length) ∧
    order.Nodup ∧ (∀ l, l ∈ order ↔ Reachable s fs l) ∧
    order = (s.descriptors.map Location.toMvnUrl ++ order.flatMap (referred s fs)).eraseDups ∧
    ((∃ f, loadAll s fs = .error f) ↔ ∃ l c, Reachable s fs l ∧ CannotLoad s fs l c) ∧
    match loadAll s fs with
    | .ok loaded => loaded.map Prod.fst = order ∧ (∀ p ∈ loaded, Holds s fs p.1 p.2) ∧
      order = (s.descriptors.map Location.toMvnUrl ++
        loaded.flatMap fun p => p.2.descriptor.repositories.map Location.toMvnUrl).eraseDups
    | .error f => ∃ before l after c, order = before ++ l :: after ∧
      (∀ b ∈ before, ∃ d, Holds s fs b d) ∧ CannotLoad s fs l c ∧ f = failure l c := by
  cases h : loadAll s fs with
  | ok loaded =>
    obtain ⟨⟨turns, hsearch⟩, hloaded⟩ := search_of_loadAll_eq_ok h
    have hturns := hsearch.turns_eq
    rw [List.length_map] at hturns
    subst hturns
    refine ⟨loaded.map Prod.fst, hsearch, hsearch.nodup, mem_iff_reachable hsearch,
      hsearch.order_eq, ?_, rfl, hloaded, ?_⟩
    · rw [← exists_loadAll_eq_error_iff, h]
    · rw [← flatMap_referred hloaded]
      exact hsearch.order_eq
  | error f =>
    obtain ⟨items, hitems⟩ := Closure.bounded_following (finite_load s fs)
    rw [following_load] at hitems
    obtain ⟨order, turns, hsearch⟩ :=
      Closure.exists_search hitems [] (s.descriptors.map Location.toMvnUrl)
    have hturns := hsearch.turns_eq
    rw [List.length_map] at hturns
    subst hturns
    refine ⟨order, hsearch, hsearch.nodup, mem_iff_reachable hsearch, hsearch.order_eq, ?_,
      first_of_loadAll_eq_error hsearch h⟩
    rw [← exists_loadAll_eq_error_iff, h]

/-- A local repository of two descriptors that refer to each other, and each to one that is not
there. -/
def circle : FileSystem where
  workingDirectory := []
  entries := [(["g".toList], .directory), (["g".toList, "a".toList], .directory),
    (["g".toList, "a".toList, "1".toList], .directory),
    (["g".toList, "a".toList, "1".toList, "a-1.xml".toList],
      .file (Bytes.encode
        "<f><repository>g:b:xml:1</repository><repository>mvn:g/c/1</repository></f>")),
    (["g".toList, "b".toList], .directory), (["g".toList, "b".toList, "1".toList], .directory),
    (["g".toList, "b".toList, "1".toList, "b-1.xml".toList],
      .file (Bytes.encode
        "<f><repository>mvn:g/d/1</repository><repository>mvn:g/a/1/xml</repository></f>"))]

def circleSettings : Settings :=
  { repository := ⟨"r"⟩, localRepository := ⟨"/"⟩, descriptors := ["g:a:xml:1"] }

/-- What is loaded from one of them. -/
def circleEntry (name : String) (repositories : List String) : LoadedDescriptor :=
  ⟨⟨(Artifact.ofVersionText "g" name "1").withExtension "xml",
    some ⟨"/g/" ++ name ++ "/1/" ++ name ++ "-1.xml"⟩⟩, { repositories }⟩

theorem loadAll_circle : loadAll circleSettings circle =
    .error (failure "mvn:g/c/1" (.descriptorNotPresent (.ofVersionText "g" "c" "1"))) := by
  have hstart : circleSettings.descriptors.map Location.toMvnUrl = ["mvn:g/a/1/xml"] := by
    decide +kernel
  have ha : load circleSettings circle "mvn:g/a/1/xml" =
      .ok (circleEntry "a" ["g:b:xml:1", "mvn:g/c/1"], ["mvn:g/b/1/xml", "mvn:g/c/1"]) := by
        decide +kernel
  have hb : load circleSettings circle "mvn:g/b/1/xml" =
      .ok (circleEntry "b" ["mvn:g/d/1", "mvn:g/a/1/xml"], ["mvn:g/d/1", "mvn:g/a/1/xml"]) := by
        decide +kernel
  have hc : load circleSettings circle "mvn:g/c/1" =
      .error (failure "mvn:g/c/1" (.descriptorNotPresent (.ofVersionText "g" "c" "1"))) := by
        decide +kernel
  unfold loadAll Closure.reach
  rw [hstart, Closure.visit_cons_of_ok _ (by decide) ha, List.nil_append,
    Closure.visit_cons_of_ok _ (by decide) hb, List.cons_append,
    Closure.visit_cons_of_error _ (by decide) hc]
  rfl

theorem loadAll_breadthFirst_circle :
    loadAll circleSettings circle =
      .error (failure "mvn:g/c/1" (.descriptorNotPresent (.ofVersionText "g" "c" "1"))) ∧
    ∃ order before after, order = before ++ "mvn:g/c/1" :: after ∧ order.Nodup ∧
      (∀ l, l ∈ order ↔ Reachable circleSettings circle l) ∧ ∀ b ∈ before, ∃ d,
        Holds circleSettings circle b d := by
  obtain ⟨order, -, hnodup, hreachable, -, -, hfirst⟩ := loadAll_breadthFirst circleSettings circle
  rw [loadAll_circle] at hfirst
  obtain ⟨before, l, after, c, horder, hbefore, -, hfailure⟩ := hfirst
  obtain rfl : "mvn:g/c/1" = l := by simpa [failure] using congrArg Failure.activities hfailure
  exact ⟨loadAll_circle, order, before, after, horder, hnodup, hreachable, hbefore⟩

end FeatureDepot.LoadedDescriptor
