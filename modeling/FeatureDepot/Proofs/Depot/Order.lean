import FeatureDepot.Proofs.Depot.Effects

/-! The order of a batch. Items without documents whose files are kept apart do not get in each
other's way: each does what it would have done alone, so that the same comes of a batch in any
order. -/
namespace FeatureDepot
open FeatureDepot.Path FileSystem

/-- What a file system is with leftovers in it, under random tags, at places where there was
nothing. -/
structure FileSystem.Littered (common : FileSystem) (left : List (Leftover × Segment))
    (fs : FileSystem) : Prop where
  workingDirectory : fs.workingDirectory = common.workingDirectory
  tagged : ∀ l ∈ left, Host.isTag l.2
  nodup : (left.map fun l => l.1.place l.2).Nodup
  free : ∀ l ∈ left, common.get? (l.1.place l.2) = none
  kept : ∀ l ∈ left, fs.get? (l.1.place l.2) = some (.file l.1.content)
  other (q : Place) : (∀ l ∈ left, q ≠ l.1.place l.2) → fs.get? q = common.get? q

/-- Two file systems that are one up to the random tags of the same leftovers. -/
def FileSystem.AlikeUpToTags (fs fs' : FileSystem) : Prop :=
  ∃ common left left', (left.map Prod.fst).Perm (left'.map Prod.fst) ∧
    Littered common left fs ∧ Littered common left' fs'

/-- A file system without what lies at some places. -/
def FileSystem.without (fs : FileSystem) (places : List Place) : FileSystem := places.foldl take fs

lemma FileSystem.workingDirectory_without (fs : FileSystem) (places : List Place) :
    (fs.without places).workingDirectory = fs.workingDirectory := by
  induction places generalizing fs with
  | nil => rfl
  | cons q places ih => exact ih (fs.take q)

lemma FileSystem.get?_without (fs : FileSystem) {places : List Place} (hne : ∀ q ∈ places, q ≠ [])
    (q : Place) :
    (fs.without places).get? q = if q ∈ places then none else fs.get? q := by
  induction places generalizing fs with
  | nil => rfl
  | cons r places ih =>
    have hstep := ih (fs.take r) fun q hq => hne q (List.mem_cons_of_mem _ hq)
    unfold without at hstep ⊢
    rw [List.foldl_cons, hstep, get?_take _ _ (hne r List.mem_cons_self)]
    by_cases hq : q ∈ places <;> by_cases hr : q = r <;> simp [hq, hr]

/-- A file system in which some effects took place, one after the other, with random tags for what
they left. Leftovers keep out of what is reserved. -/
structure Effect.Applied (fs₀ : FileSystem) (reserved : Set Place) (es : List Effect)
    (left : List (Leftover × Segment)) (fs : FileSystem) : Prop where
  workingDirectory : fs.workingDirectory = fs₀.workingDirectory
  sound : fs.Sound
  leftovers : left.map Prod.fst = es.filterMap Effect.left
  tagged : ∀ l ∈ left, Host.isTag l.2
  nodup : (left.map fun l => l.1.place l.2).Nodup
  unreserved : ∀ l ∈ left, l.1.place l.2 ∉ reserved
  free : ∀ l ∈ left, fs₀.get? (l.1.place l.2) = none
  stored : ∀ e ∈ es, ∀ x ∈ e.stored, fs.get? x.1 = some (.file x.2)
  rooms : ∀ e ∈ es, ∀ q ∈ e.rooms, fs.get? q = some .directory
  kept : ∀ l ∈ left, fs.get? (l.1.place l.2) = some (.file l.1.content)
  other (q : Place) : (∀ e ∈ es, ∀ x ∈ e.stored, q ≠ x.1) → (∀ e ∈ es, q ∉ e.rooms) →
    (∀ l ∈ left, q ≠ l.1.place l.2) → fs.get? q = fs₀.get? q

namespace Effect.Applied

variable {fs₀ fs fs' : FileSystem} {reserved : Set Place} {es es' : List Effect}
  {left left' : List (Leftover × Segment)} {e : Effect} {tag : Segment} {q : Place}

lemma nil (hs : fs₀.Sound) : Applied fs₀ reserved [] [] fs₀ where
  workingDirectory := rfl
  sound := hs
  leftovers := rfl
  tagged := by simp
  nodup := by simp
  unreserved := by simp
  free := by simp
  stored := by simp
  rooms := by simp
  kept := by simp
  other _ _ _ _ := rfl

/-- What is nothing now has been nothing. -/
theorem none_of_none (h : Applied fs₀ reserved es left fs) (hq : fs.get? q = none) :
    fs₀.get? q = none := by
  rw [← h.other q, hq]
  · rintro e he x hx rfl
    rw [h.stored e he x hx] at hq
    cases hq
  · intro e he hmem
    rw [h.rooms e he q hmem] at hq
    cases hq
  · rintro l hl rfl
    rw [h.kept l hl] at hq
    cases hq

/-- One more effect, on what was neither stored nor made nor left before. -/
theorem snoc (h : Applied fs₀ reserved es left fs) (htook : e.Took tag fs fs')
    (htag : Host.isTag tag)
    (hrooms : ∀ q ∈ e.rooms, ¬ fs.isFile q ∧ q ∈ reserved)
    (hstored : ∀ x ∈ e.stored, x.1 ∈ reserved ∧ x.1 ∉ e.rooms ∧
      (∀ e' ∈ es, ∀ y ∈ e'.stored, y.1 ≠ x.1) ∧
      ∀ e' ∈ es, x.1 ∉ e'.rooms)
    (hleft : ∀ l ∈ e.left, l.place tag ∉ reserved ∧ fs.get? (l.place tag) = none) :
    Applied fs₀ reserved (es ++ [e]) (left ++ e.left.toList.map (·, tag)) fs' := by
  have hmem : ∀ l, l ∈ left ++ e.left.toList.map (·, tag) ↔
      l ∈ left ∨ l.1 ∈ e.left ∧ l.2 = tag := by
    rintro ⟨l, t⟩
    cases e.left <;> simp [eq_comm]
  have hfree : ∀ l ∈ e.left, fs.get? (l.place tag) = none := fun l hl => (hleft l hl).2
  refine
    { workingDirectory := htook.workingDirectory.trans h.workingDirectory
      sound := htook.sound
      leftovers := ?leftovers
      tagged := ?tagged
      nodup := ?nodup
      unreserved := ?unreserved
      free := ?free
      stored := ?stored
      rooms := ?rooms
      kept := ?kept
      other := ?other }
  case leftovers =>
    rw [List.map_append, h.leftovers, List.filterMap_append]
    cases hl : e.left <;> simp [hl]
  case tagged =>
    intro l hl
    rcases (hmem l).mp hl with hl | ⟨-, ht⟩
    · exact h.tagged l hl
    · exact ht ▸ htag
  case nodup =>
    cases hl : e.left with
    | none => simpa using h.nodup
    | some l =>
      rw [Option.toList_some, List.map_singleton, List.map_append, List.map_singleton,
        List.nodup_append]
      refine ⟨h.nodup, by simp, ?_⟩
      intro p hp p' hp'
      obtain ⟨l', hl', rfl⟩ := List.mem_map.mp hp
      rw [List.mem_singleton.mp hp']
      intro heq
      have hkept := h.kept l' hl'
      rw [heq, hfree l hl] at hkept
      cases hkept
  case unreserved =>
    intro l hl
    rcases (hmem l).mp hl with hl | ⟨hl, ht⟩
    · exact h.unreserved l hl
    · exact ht ▸ (hleft _ hl).1
  case free =>
    intro l hl
    rcases (hmem l).mp hl with hl | ⟨hl, ht⟩
    · exact h.free l hl
    · exact h.none_of_none (ht ▸ (hleft _ hl).2)
  case stored =>
    intro e' he' x hx
    rcases List.mem_append.mp he' with he' | he'
    · exact htook.stays hfree (h.stored e' he' x hx) fun y hy => (hstored y hy).2.2.1 e' he' x hx
    · exact htook.stored x (List.mem_singleton.mp he' ▸ hx)
  case rooms =>
    intro e' he' q hq
    rcases List.mem_append.mp he' with he' | he'
    · refine htook.stays hfree (h.rooms e' he' q hq) ?_
      rintro x hx rfl
      exact (hstored x hx).2.2.2 e' he' hq
    · obtain rfl := List.mem_singleton.mp he'
      obtain ⟨hfile, hreserved⟩ := hrooms q hq
      refine htook.room hq hfile ?_ ?_
      · rintro x hx rfl
        exact (hstored x hx).2.1 hq
      · rintro l hl rfl
        exact (hleft l hl).1 hreserved
  case kept =>
    intro l hl
    rcases (hmem l).mp hl with hl | ⟨hl, ht⟩
    · refine htook.stays hfree (h.kept l hl) ?_
      intro x hx heq
      exact h.unreserved l hl (heq ▸ (hstored x hx).1)
    · exact ht ▸ htook.left l.1 hl
  case other =>
    intro q hx hr hl
    have hlast : e ∈ es ++ [e] := by simp
    rw [htook.other q (hx e hlast) fun l hmem' => hl (l, tag) ((hmem _).mpr (.inr ⟨hmem', rfl⟩)),
      if_neg fun hq => hr e hlast hq.1]
    exact h.other q (fun e' he' => hx e' (List.mem_append_left _ he'))
      (fun e' he' => hr e' (List.mem_append_left _ he')) fun l hl' => hl l ((hmem l).mpr (.inl hl'))

/-- A leftover of another run lies where this one has done nothing, and where there was nothing. -/
theorem none_of_leftover (h : Applied fs₀ reserved es left fs)
    (h' : Applied fs₀ reserved es' left' fs')
    (hreserved : ∀ e ∈ es, (∀ x ∈ e.stored, x.1 ∈ reserved) ∧ ∀ q ∈ e.rooms, q ∈ reserved)
    {l : Leftover × Segment} (hl : l ∈ left') (hne : ∀ l' ∈ left, l.1.place l.2 ≠ l'.1.place l'.2) :
    fs.get? (l.1.place l.2) = none := by
  have hout := h'.unreserved l hl
  rw [h.other _ ?_ ?_ hne, h'.free l hl]
  · exact fun e he x hx heq => hout (heq ▸ (hreserved e he).1 x hx)
  · exact fun e he hq => hout ((hreserved e he).2 _ hq)

/-- Outside of all leftovers, the same effects in another order come to the same. -/
theorem get?_eq_of_perm (h : Applied fs₀ reserved es left fs)
    (h' : Applied fs₀ reserved es' left' fs') (hperm : es.Perm es')
    (hleft : ∀ l ∈ left, q ≠ l.1.place l.2) (hleft' : ∀ l ∈ left', q ≠ l.1.place l.2) :
    fs'.get? q = fs.get? q := by
  by_cases hstored : ∃ e ∈ es, ∃ x ∈ e.stored, q = x.1
  · obtain ⟨e, he, x, hx, rfl⟩ := hstored
    rw [h.stored e he x hx, h'.stored e (hperm.mem_iff.mp he) x hx]
  · by_cases hroom : ∃ e ∈ es, q ∈ e.rooms
    · obtain ⟨e, he, hq⟩ := hroom
      rw [h.rooms e he q hq, h'.rooms e (hperm.mem_iff.mp he) q hq]
    · push Not at hstored hroom
      rw [h.other q hstored hroom hleft, h'.other q (fun e he => hstored e (hperm.mem_iff.mpr he))
        (fun e he => hroom e (hperm.mem_iff.mpr he)) hleft']

/-- The same effects in another order come to the same, up to the random tags. -/
theorem alike (h : Applied fs₀ reserved es left fs) (h' : Applied fs₀ reserved es' left' fs')
    (hperm : es.Perm es')
    (hreserved : ∀ e ∈ es, (∀ x ∈ e.stored, x.1 ∈ reserved) ∧ ∀ q ∈ e.rooms, q ∈ reserved) :
    fs.AlikeUpToTags fs' := by
  have hreserved' : ∀ e ∈ es', (∀ x ∈ e.stored, x.1 ∈ reserved) ∧ ∀ q ∈ e.rooms, q ∈ reserved :=
    fun e he => hreserved e (hperm.mem_iff.mpr he)
  have hne : ∀ q ∈ left.map fun l => l.1.place l.2, q ≠ [] := by
    intro q hq
    obtain ⟨l, hl, rfl⟩ := List.mem_map.mp hq
    simp [Leftover.place]
  have haside : ∀ q, q ∉ left.map (fun l => l.1.place l.2) → ∀ l ∈ left, q ≠ l.1.place l.2 := by
    rintro q hmem l hl rfl
    exact hmem (List.mem_map_of_mem hl)
  -- What both have in common is the one without its leftovers.
  refine ⟨fs.without (left.map fun l => l.1.place l.2), left, left', ?_, ?_, ?_⟩
  · rw [h.leftovers, h'.leftovers]
    exact hperm.filterMap _
  · refine ⟨(workingDirectory_without _ _).symm, h.tagged, h.nodup, fun l hl => ?_,
      h.kept, fun q hq => ?_⟩
    · rw [get?_without _ hne, if_pos (List.mem_map_of_mem hl)]
    · rw [get?_without _ hne, if_neg]
      rintro hmem
      obtain ⟨l, hl, rfl⟩ := List.mem_map.mp hmem
      exact hq l hl rfl
  · refine ⟨?_, h'.tagged, h'.nodup, fun l hl => ?_, h'.kept, fun q hq => ?_⟩
    · rw [workingDirectory_without, h.workingDirectory, h'.workingDirectory]
    · rw [get?_without _ hne]
      split
      next => rfl
      next hmem => exact h.none_of_leftover h' hreserved hl (haside _ hmem)
    · rw [get?_without _ hne]
      split
      next hmem =>
        obtain ⟨l, hl, rfl⟩ := List.mem_map.mp hmem
        exact h'.none_of_leftover h hreserved' hl hq
      next hmem => exact h.get?_eq_of_perm h' hperm (haside q hmem) hq

end Effect.Applied

namespace Depot

variable {host host' : Host} {d : Depot} {fs₀ fs : FileSystem} {r r' : ResolvedArtifact}
  {rs rs' done rest : List ResolvedArtifact} {left : List (Leftover × Segment)} {q : Place}

/-- The places that a depot may change: those that the way to its root leads through, and those at
or below its root. -/
def territory (d : Depot) (fs : FileSystem) : Set Place :=
  {q | q ∈ visits (fs.base d.root) d.root.segments ∨ fs.place d.root <+: q}

/-- The places that the way to an item's destination leads through. -/
def way (d : Depot) (fs : FileSystem) (r : ResolvedArtifact) : List Place :=
  visits (fs.base (d.destination r.artifact)) (d.destination r.artifact).segments

/-- The places that the ways to the destinations of a batch lead through. -/
def ways (d : Depot) (fs : FileSystem) (rs : List ResolvedArtifact) : Set Place :=
  {q | ∃ r ∈ rs, q ∈ d.way fs r}

/-- The destination of neither item is that of the other, or above it. -/
def Separate (d : Depot) (fs : FileSystem) (r r' : ResolvedArtifact) : Prop :=
  ¬ fs.place (d.destination r.artifact) <+: fs.place (d.destination r'.artifact) ∧
    ¬ fs.place (d.destination r'.artifact) <+: fs.place (d.destination r.artifact)

instance (d : Depot) (fs : FileSystem) (r r' : ResolvedArtifact) : Decidable (d.Separate fs r r') :=
  inferInstanceAs (Decidable (_ ∧ _))

/-- A batch whose files are kept apart: no coordinates lead up, the destinations are separate, and
the sources lie outside of all that a depot may change. -/
structure Apart (d : Depot) (fs : FileSystem) (rs : List ResolvedArtifact) : Prop where
  down : ∀ r ∈ rs, ['.', '.'] ∉ d.relative r.artifact
  separate : rs.Pairwise (d.Separate fs)
  outside : ∀ r ∈ rs, ∀ source ∈ r.file, fs.place source ∉ d.territory fs
  leaves : ∀ r ∈ rs, ∀ source ∈ r.file,
    fs.LeavesFrom (d.territory fs) (fs.base source) source.segments

/-- No random tag that is drawn in a batch is in use at its place, or is part of a name on the way
to a destination. -/
def Unused (host : Host) (d : Depot) (rs : List ResolvedArtifact) (fs : FileSystem) : Prop :=
  ∀ t ∈ d.turns host rs fs, (d.prepared t.1 t.2).get? (d.drawn host t.1 t.2) = none ∧
    d.drawn host t.1 t.2 ∉ d.ways fs rs

/-- What becomes of an item, as a batch finds things at its start. -/
def fate (d : Depot) (fs : FileSystem) (r : ResolvedArtifact) : Fate :=
  if (d.effect fs r).stored.isSome then .copied (d.destination r.artifact) else .failed

instance (d : Depot) (fs : FileSystem) (q : Place) : Decidable (q ∈ d.territory fs) :=
  inferInstanceAs (Decidable (_ ∨ _))

instance (d : Depot) (fs : FileSystem) (rs : List ResolvedArtifact) (q : Place) :
    Decidable (q ∈ d.ways fs rs) :=
  inferInstanceAs (Decidable (∃ r ∈ rs, q ∈ d.way fs r))

instance (host : Host) (d : Depot) (rs : List ResolvedArtifact) (fs : FileSystem) :
    Decidable (d.Unused host rs fs) :=
  inferInstanceAs (Decidable (∀ t ∈ d.turns host rs fs, _ ∧ _))

lemma Separate.symm (h : d.Separate fs r r') : d.Separate fs r' r := ⟨h.2, h.1⟩

/-- Neither coordinates nor sources without parts of dots lead up. -/
theorem Apart.of_dotless
    (hcoordinates : ∀ r ∈ rs, ∀ text ∈ r.artifact.pathTexts, Dotless text.toList)
    (hsources : ∀ r ∈ rs, ∀ source ∈ r.file, ['.', '.'] ∉ source.segments)
    (hseparate : rs.Pairwise (d.Separate fs))
    (houtside : ∀ r ∈ rs, ∀ source ∈ r.file, fs.place source ∉ d.territory fs) : d.Apart fs rs where
  down r hr := dots_not_mem_relative (hcoordinates r hr) d
  separate := hseparate
  outside := houtside
  leaves r hr source hsource := leavesFrom_of_not_mem (hsources r hr source hsource)

lemma Apart.perm (h : d.Apart fs rs) (hperm : rs.Perm rs') : d.Apart fs rs' where
  down r hr := h.down r (hperm.mem_iff.mpr hr)
  separate := (hperm.pairwise_iff Separate.symm).mp h.separate
  outside r hr := h.outside r (hperm.mem_iff.mpr hr)
  leaves r hr := h.leaves r (hperm.mem_iff.mpr hr)

lemma ways_congr (hperm : rs.Perm rs') (d : Depot) (fs : FileSystem) :
    d.ways fs rs = d.ways fs rs' := by
  ext q
  exact exists_congr fun r => and_congr_left' hperm.mem_iff

lemma destination_mem_way (d : Depot) (fs : FileSystem) (r : ResolvedArtifact) :
    fs.place (d.destination r.artifact) ∈ d.way fs r := foldl_enter_mem_visits _ _

/-- A way goes to the root, and from there down to its destination. -/
theorem between_of_mem_way (hdown : ['.', '.'] ∉ d.relative r.artifact) (hq : q ∈ d.way fs r) :
    q ∈ visits (fs.base d.root) d.root.segments ∨
      fs.place d.root <+: q ∧ q <+: fs.place (d.destination r.artifact) := by
  obtain ⟨before, name, tail, hbelow⟩ := exists_below_destination hdown
  exact hbelow.between fs hq

lemma mem_territory_of_mem_way (hdown : ['.', '.'] ∉ d.relative r.artifact) (hq : q ∈ d.way fs r) :
    q ∈ d.territory fs := (between_of_mem_way hdown hq).imp_right And.left

/-- What an item touches lies on its way, which it does not block for items with a destination
elsewhere. -/
theorem effect_way (hs : fs.Sound) (hdown : ['.', '.'] ∉ d.relative r.artifact) :
    (∀ q ∈ (d.effect fs r).rooms, q ∈ d.way fs r ∧ ¬ fs.isFile q) ∧
    (∀ x ∈ (d.effect fs r).stored, x.1 ∈ d.way fs r ∧
      x.1 ∉ visits (fs.base d.root) d.root.segments ∧
      fs.get? x.1 ≠ some .directory ∧ x.1 ∉ (d.effect fs r).rooms ∧
      ∀ r', ['.', '.'] ∉ d.relative r'.artifact → d.Separate fs r r' → x.1 ∉ d.way fs r') ∧
    ∀ l ∈ (d.effect fs r).left, ∀ tag, l.place tag ∈ d.territory fs := by
  obtain ⟨before, name, tail, hbelow⟩ := exists_below_destination hdown
  obtain ⟨hrooms, hstored, hleft⟩ := effect_spec hs hbelow
  refine ⟨hrooms, fun x hx => ?_, fun l hl tag => ?_⟩
  · obtain ⟨hplace, hroot, hdirectory, hnot⟩ := hstored x hx
    refine ⟨hplace ▸ destination_mem_way d fs r, hroot, hdirectory, hnot,
      fun r' hdown' hseparate hmem => ?_⟩
    rcases between_of_mem_way hdown' hmem with hmem | ⟨-, hmem⟩
    · exact hroot hmem
    · exact hseparate.1 (hplace ▸ hmem)
  · refine .inr ?_
    rw [Leftover.place, (hleft l hl).1]
    exact (hbelow.root_prefix_dropLast _).trans (List.prefix_append _ _)

/-- An item makes no directory at the destination of another one, unless the way to the root leads
there. -/
lemma place_not_mem_rooms (hs : fs.Sound) (hdown : ['.', '.'] ∉ d.relative r.artifact)
    (hseparate : d.Separate fs r r')
    (hroot : fs.place (d.destination r'.artifact) ∉ visits (fs.base d.root) d.root.segments) :
    fs.place (d.destination r'.artifact) ∉ (d.effect fs r).rooms := by
  intro hmem
  rcases between_of_mem_way hdown ((effect_way hs hdown).1 _ hmem).1 with hway | ⟨-, hway⟩
  · exact hroot hway
  · exact hseparate.2 hway

/-- What an item leaves lies in the place of its temporary file. -/
theorem place_tag_of_left {before tail : List Segment} {name : Segment} {l : Leftover}
    (htag : host.Tagged) (hs : fs.Sound)
    (hbelow : Below d.root (d.destination r.artifact) before name tail)
    (hl : l ∈ (d.effect fs r).left) :
    l.place (d.tag host r fs) = d.drawn host r fs := by
  obtain ⟨hlies, hname⟩ := (effect_spec hs hbelow).2.2 l hl
  obtain ⟨-, hworking, -⟩ := Disk.makeRoom_spec hs (d.destination r.artifact)
  unfold drawn
  rw [place_temporary_of_parted htag hbelow.parted hbelow.parted.parent?,
    Leftover.place, hlies, hname]
  unfold FileSystem.place prepared
  rw [hworking]
  rfl

section Turn

variable (hs : fs₀.Sound) (hapart : d.Apart fs₀ rs)
  (hdone : ∀ r' ∈ done, r' ∈ rs ∧ d.Separate fs₀ r' r) (hr : r ∈ rs)
  (happlied : Effect.Applied fs₀ (d.ways fs₀ rs) (done.map (d.effect fs₀)) left fs)
include hs hapart hdone hr happlied

omit hr in
/-- What other items have done is not seen outside of all that a depot may change, nor among
directories that were there. -/
theorem get?_of_not_mem_territory : (∀ q ∉ d.territory fs₀, fs.get? q = fs₀.get? q) ∧
    ∀ q, fs₀.get? q = some .directory → fs.get? q = some .directory := by
  have hleft : ∀ l ∈ left, ∃ r' ∈ done, l.1 ∈ (d.effect fs₀ r').left := by
    intro l hl
    have hmem : l.1 ∈ (done.map (d.effect fs₀)).filterMap Effect.left :=
      happlied.leftovers ▸ List.mem_map_of_mem hl
    obtain ⟨e, he, hleft⟩ := List.mem_filterMap.mp hmem
    obtain ⟨r', hr', rfl⟩ := List.mem_map.mp he
    exact ⟨r', hr', hleft⟩
  constructor
  · intro q hq
    refine happlied.other q ?_ ?_ ?_
    · simp only [List.forall_mem_map]
      rintro r' hr' x hx rfl
      have hdown := hapart.down r' (hdone r' hr').1
      exact hq (mem_territory_of_mem_way hdown ((effect_way hs hdown).2.1 x hx).1)
    · simp only [List.forall_mem_map]
      intro r' hr' hmem
      have hdown := hapart.down r' (hdone r' hr').1
      exact hq (mem_territory_of_mem_way hdown ((effect_way hs hdown).1 q hmem).1)
    · rintro l hl rfl
      obtain ⟨r', hr', hmem⟩ := hleft l hl
      exact hq ((effect_way hs (hapart.down r' (hdone r' hr').1)).2.2 l.1 hmem l.2)
  · intro q hq
    by_cases hroom : ∃ e ∈ done.map (d.effect fs₀), q ∈ e.rooms
    · obtain ⟨e, he, hmem⟩ := hroom
      exact happlied.rooms e he q hmem
    · push Not at hroom
      rw [happlied.other q ?_ hroom ?_, hq]
      · simp only [List.forall_mem_map]
        rintro r' hr' x hx rfl
        exact ((effect_way hs (hapart.down r' (hdone r' hr').1)).2.1 x hx).2.2.1 hq
      · rintro l hl rfl
        rw [happlied.free l hl] at hq
        cases hq

/-- Along the way of an item, the others have only made directories. -/
theorem get?_of_mem_way (hq : q ∈ d.way fs₀ r) (hroom : ∀ r' ∈ done, q ∉ (d.effect fs₀ r').rooms) :
    fs.get? q = fs₀.get? q := by
  refine happlied.other q ?_ ?_ ?_
  · simp only [List.forall_mem_map]
    rintro r' hr' x hx rfl
    obtain ⟨hmem, hseparate⟩ := hdone r' hr'
    exact ((effect_way hs (hapart.down r' hmem)).2.1 x hx).2.2.2.2 r (hapart.down r hr) hseparate hq
  · simpa only [List.forall_mem_map] using hroom
  · rintro l hl rfl
    exact happlied.unreserved l hl ⟨r, hr, hq⟩

lemma isFile_of_mem_way (hq : q ∈ d.way fs₀ r) : fs.isFile q = fs₀.isFile q := by
  by_cases hroom : ∃ r' ∈ done, q ∈ (d.effect fs₀ r').rooms
  · obtain ⟨r', hr', hmem⟩ := hroom
    have hnow := happlied.rooms _ (List.mem_map_of_mem hr') q hmem
    have hstart := ((effect_way hs (hapart.down r' (hdone r' hr').1)).1 q hmem).2
    rw [Bool.eq_false_of_not_eq_true hstart]
    unfold isFile
    rw [hnow]
  · push Not at hroom
    unfold isFile
    rw [get?_of_mem_way hs hapart hdone hr happlied hq hroom]

lemma ground_of_applied :
    fs.ground (d.destination r.artifact) = fs₀.ground (d.destination r.artifact) := by
  obtain ⟨before, name, tail, hbelow⟩ := exists_below_destination (hapart.down r hr)
  unfold ground
  split
  next => rfl
  next directory hd =>
    rw [base_congr happlied.workingDirectory,
      paving_congr fun q hq => isFile_of_mem_way hs hapart hdone hr happlied
        (hbelow.visits_directory_subset hd fs₀ hq)]

/-- A directory is in the way of an item's file if one was at the start. -/
theorem place_of_applied (hclear : (fs₀.ground (d.destination r.artifact)).2) :
    fs.place (d.destination r.artifact) ∉ (fs₀.ground (d.destination r.artifact)).1 ∧
        fs.get? (fs.place (d.destination r.artifact)) ≠ some .directory ↔
      fs.place (d.destination r.artifact) ∉ (fs₀.ground (d.destination r.artifact)).1 ∧
        fs₀.get? (fs.place (d.destination r.artifact)) ≠ some .directory := by
  obtain ⟨before, name, tail, hbelow⟩ := exists_below_destination (hapart.down r hr)
  have hplace : fs.place (d.destination r.artifact) = fs₀.place (d.destination r.artifact) := by
    unfold FileSystem.place
    rw [happlied.workingDirectory]
  rw [hplace]
  refine and_congr_right fun hnot => ?_
  by_cases hroot : fs₀.place (d.destination r.artifact) ∈ visits (fs₀.base d.root) d.root.segments
  · have hthere := (mem_ground_or_get? hs hbelow hclear hroot).resolve_left hnot
    rw [hthere, (get?_of_not_mem_territory hs hapart hdone happlied).2 _ hthere]
  · rw [get?_of_mem_way hs hapart hdone hr happlied (destination_mem_way d fs₀ r)]
    intro r' hr'
    obtain ⟨hmem, hseparate⟩ := hdone r' hr'
    exact place_not_mem_rooms hs (hapart.down r' hmem) hseparate hroot

/-- An item does at its turn what it would have done at the start. -/
theorem add_applied (htag : host.Tagged) (hmetadata : d.generateMetadata = false)
    (hunused : (d.prepared r fs).get? (d.drawn host r fs) = none ∧
      d.drawn host r fs ∉ d.ways fs₀ rs)
    (label : String) :
    (∃ left', Effect.Applied fs₀ (d.ways fs₀ rs) ((done ++ [r]).map (d.effect fs₀)) left'
      ((d.add host label r).run fs).2) ∧
    ((d.add host label r).run fs).1.outcome.fate = d.fate fs₀ r := by
  have hdown := hapart.down r hr
  obtain ⟨before, name, tail, hbelow⟩ := exists_below_destination hdown
  obtain ⟨hrooms, hstored, -⟩ := effect_way hs hdown
  obtain ⟨hzone, hdirectory⟩ := get?_of_not_mem_territory hs hapart hdone happlied
  have heffect : d.effect fs r = d.effect fs₀ r := effect_congr happlied.workingDirectory
    (fun source hfile pieces => openFile_congr hs happlied.workingDirectory hdirectory hzone
      (hapart.outside r hr source hfile) (hapart.leaves r hr source hfile) pieces)
    (ground_of_applied hs hapart hdone hr happlied) (place_of_applied hs hapart hdone hr happlied)
  obtain ⟨htook, hfate⟩ := effect_took htag hmetadata happlied.sound hbelow hunused.1 label
  rw [heffect] at htook hfate
  refine ⟨?_, hfate⟩
  obtain ⟨-, -, -, hmade⟩ := Disk.makeRoom_spec happlied.sound (d.destination r.artifact)
  rw [List.map_append, List.map_singleton]
  refine ⟨_, happlied.snoc htook (htag _ _) ?_ ?_ ?_⟩
  · intro q hq
    obtain ⟨hway, hfile⟩ := hrooms q hq
    exact ⟨isFile_of_mem_way hs hapart hdone hr happlied hway ▸ hfile, r, hr, hway⟩
  · intro x hx
    obtain ⟨hway, hroot, -, hnot, -⟩ := hstored x hx
    have hplace := ((effect_spec hs hbelow).2.1 x hx).1
    simp only [List.forall_mem_map]
    refine ⟨⟨r, hr, hway⟩, hnot, fun r' hr' y hy heq => ?_, fun r' hr' => ?_⟩
    · obtain ⟨hmem, hseparate⟩ := hdone r' hr'
      exact ((effect_way hs (hapart.down r' hmem)).2.1 y hy).2.2.2.2 r hdown hseparate (heq ▸ hway)
    · obtain ⟨hmem, hseparate⟩ := hdone r' hr'
      rw [hplace] at hroot ⊢
      exact place_not_mem_rooms hs (hapart.down r' hmem) hseparate hroot
  · intro l hl
    rw [place_tag_of_left htag happlied.sound hbelow (heffect.symm ▸ hl)]
    refine ⟨hunused.2, ?_⟩
    have hnone := hunused.1
    unfold prepared at hnone
    rw [hmade] at hnone
    split at hnone
    next => cases hnone
    next => exact hnone

end Turn

/-- Every item of a batch does what it would have done at the start. -/
theorem materializeAll_applied (done : List ResolvedArtifact) (htag : host.Tagged)
    (hmetadata : d.generateMetadata = false) (hs : fs₀.Sound)
    (hapart : d.Apart fs₀ (done ++ rest))
    (happlied : Effect.Applied fs₀ (d.ways fs₀ (done ++ rest)) (done.map (d.effect fs₀)) left fs)
    (hunused : ∀ t ∈ d.turns host rest fs, (d.prepared t.1 t.2).get? (d.drawn host t.1 t.2) = none ∧
      d.drawn host t.1 t.2 ∉ d.ways fs₀ (done ++ rest)) :
    (∃ left', Effect.Applied fs₀ (d.ways fs₀ (done ++ rest))
      ((done ++ rest).map (d.effect fs₀)) left'
      ((d.materializeAll host rest).run fs).2) ∧
    ((d.materializeAll host rest).run fs).1.map (·.outcome.fate) = rest.map (d.fate fs₀) := by
  induction rest generalizing done left fs with
  | nil =>
    rw [List.append_nil] at happlied ⊢
    exact ⟨⟨left, happlied⟩, rfl⟩
  | cons r rest ih =>
    have hdone : ∀ r' ∈ done, r' ∈ done ++ r :: rest ∧ d.Separate fs₀ r' r :=
      fun r' hr' => ⟨List.mem_append_left _ hr',
        (List.pairwise_append.mp hapart.separate).2.2 r' hr' r List.mem_cons_self⟩
    obtain ⟨⟨left', happlied'⟩, hfate⟩ :=
      add_applied hs hapart hdone (by simp) happlied htag hmetadata
        (hunused (r, fs) List.mem_cons_self) r.artifact.display
    have hsplit : done ++ r :: rest = (done ++ [r]) ++ rest := by simp
    rw [hsplit] at hapart happlied' hunused ⊢
    obtain ⟨hrest, hfates⟩ := ih (done ++ [r]) hapart happlied' fun t ht =>
      hunused t (List.mem_cons_of_mem _ ht)
    have hrun := Batch.mapM_run_cons (fun r => d.add host r.artifact.display r) r rest fs
    unfold materializeAll at hrest hfates ⊢
    rw [hrun]
    refine ⟨hrest, ?_⟩
    rw [List.map_cons, List.map_cons, hfates, hfate]

/-- The fate of an item in a batch is the one that it has by itself. -/
theorem zip_fates (htag : host.Tagged) (hmetadata : d.generateMetadata = false) (hs : fs.Sound)
    (hapart : d.Apart fs rs) (hunused : d.Unused host rs fs) :
    rs.zip (((d.materializeAll host rs).run fs).1.map (·.outcome.fate)) = rs.map fun r =>
      (r, d.fate fs r) := by
  obtain ⟨-, hfates⟩ := materializeAll_applied [] htag hmetadata hs hapart (.nil hs) hunused
  rw [hfates]
  simpa using (List.zip_map' : (rs.map id).zip (rs.map (d.fate fs)) = _)

lemma zip_fates_perm (htag : host.Tagged) (htag' : host'.Tagged)
    (hmetadata : d.generateMetadata = false) (hs : fs.Sound) (hapart : d.Apart fs rs)
    (hperm : rs.Perm rs') (hunused : d.Unused host rs fs) (hunused' : d.Unused host' rs' fs) :
    (rs.zip (((d.materializeAll host rs).run fs).1.map (·.outcome.fate))).Perm
      (rs'.zip (((d.materializeAll host' rs').run fs).1.map (·.outcome.fate))) := by
  rw [zip_fates htag hmetadata hs hapart hunused,
    zip_fates htag' hmetadata hs (hapart.perm hperm) hunused']
  exact hperm.map _

lemma materializeAll_alike (htag : host.Tagged) (htag' : host'.Tagged)
    (hmetadata : d.generateMetadata = false) (hs : fs.Sound) (hapart : d.Apart fs rs)
    (hperm : rs.Perm rs') (hunused : d.Unused host rs fs) (hunused' : d.Unused host' rs' fs) :
    ((d.materializeAll host rs).run fs).2.AlikeUpToTags
      ((d.materializeAll host' rs').run fs).2 := by
  obtain ⟨⟨left, happlied⟩, -⟩ :=
    materializeAll_applied [] htag hmetadata hs hapart (.nil hs) hunused
  obtain ⟨⟨left', happlied'⟩, -⟩ :=
    materializeAll_applied [] htag' hmetadata hs (hapart.perm hperm) (.nil hs) hunused'
  rw [List.nil_append] at happlied happlied'
  rw [← ways_congr hperm] at happlied'
  refine happlied.alike happlied' (hperm.map _) ?_
  simp only [List.forall_mem_map]
  intro r hr
  obtain ⟨hrooms, hstored, -⟩ := effect_way hs (hapart.down r hr)
  exact ⟨fun x hx => ⟨r, hr, (hstored x hx).1⟩, fun q hq => ⟨r, hr, (hrooms q hq).1⟩⟩

/-- The order of a batch without documents does not matter, if its files are kept apart: every item
has the same fate in every order, and the file systems in the end are one up to the random tags of
leftover temporary files. -/
theorem materializeAll_perm (htag : host.Tagged) (htag' : host'.Tagged)
    (hmetadata : d.generateMetadata = false) (hs : fs.Sound) (hapart : d.Apart fs rs)
    (hperm : rs.Perm rs') (hunused : d.Unused host rs fs) (hunused' : d.Unused host' rs' fs) :
    (rs.zip (((d.materializeAll host rs).run fs).1.map (·.outcome.fate))).Perm
      (rs'.zip (((d.materializeAll host' rs').run fs).1.map (·.outcome.fate))) ∧
    ((d.materializeAll host rs).run fs).2.AlikeUpToTags ((d.materializeAll host' rs').run fs).2 :=
  ⟨zip_fates_perm htag htag' hmetadata hs hapart hperm hunused hunused',
    materializeAll_alike htag htag' hmetadata hs hapart hperm hunused hunused'⟩

/-- So it is where neither coordinates nor sources have parts of dots. -/
theorem materializeAll_perm_of_dotless (htag : host.Tagged) (htag' : host'.Tagged)
    (hmetadata : d.generateMetadata = false) (hs : fs.Sound)
    (hcoordinates : ∀ r ∈ rs, ∀ text ∈ r.artifact.pathTexts, Dotless text.toList)
    (hsources : ∀ r ∈ rs, ∀ source ∈ r.file, ['.', '.'] ∉ source.segments)
    (hseparate : rs.Pairwise (d.Separate fs))
    (houtside : ∀ r ∈ rs, ∀ source ∈ r.file, fs.place source ∉ d.territory fs) (hperm : rs.Perm rs')
    (hunused : d.Unused host rs fs) (hunused' : d.Unused host' rs' fs) :
    (rs.zip (((d.materializeAll host rs).run fs).1.map (·.outcome.fate))).Perm
      (rs'.zip (((d.materializeAll host' rs').run fs).1.map (·.outcome.fate))) ∧
    ((d.materializeAll host rs).run fs).2.AlikeUpToTags
      ((d.materializeAll host' rs').run fs).2 := by
  have hapart : d.Apart fs rs := .of_dotless hcoordinates hsources hseparate houtside
  exact ⟨zip_fates_perm htag htag' hmetadata hs hapart hperm hunused hunused',
    materializeAll_alike htag htag' hmetadata hs hapart hperm hunused hunused'⟩

/-- A depot with a directory where a file belongs. -/
def blockedShelf : FileSystem :=
  ⟨[(["s".toList], .file [1]), (["r".toList], .directory),
    (["r".toList, "b-1.jar".toList], .directory)], []⟩

def flatDepot : Depot := ⟨⟨"r"⟩, .flat, false⟩

/-- An item that is stored, and one that is left behind. -/
def twoItems : List ResolvedArtifact :=
  [⟨.ofVersionText "g" "a" "1", some ⟨"s"⟩⟩, ⟨.ofVersionText "g" "b" "1", some ⟨"s"⟩⟩]

/-- A host with another tag. -/
def otherHost : Host := ⟨"", fun _ _ => "11111111-1111-4111-8111-111111111111"⟩

lemma tagged_otherHost : otherHost.Tagged := by
  have htag : Host.isTag "11111111-1111-4111-8111-111111111111".toList := by decide +kernel
  exact fun _ _ => htag

lemma sound_blockedShelf : blockedShelf.Sound := .of_entries (by decide +kernel) (by decide +kernel)

theorem materializeAll_perm_two : flatDepot.Apart blockedShelf twoItems ∧
    ((flatDepot.materializeAll Disk.plainHost twoItems).run blockedShelf).1.map (·.outcome.fate) =
      [.copied ⟨"r/a-1.jar"⟩, .failed] ∧
    (twoItems.zip (((flatDepot.materializeAll Disk.plainHost twoItems).run blockedShelf).1.map
      (·.outcome.fate))).Perm
      (twoItems.reverse.zip
        (((flatDepot.materializeAll otherHost twoItems.reverse).run blockedShelf).1.map
          (·.outcome.fate))) ∧
    ((flatDepot.materializeAll Disk.plainHost twoItems).run blockedShelf).2.AlikeUpToTags
      ((flatDepot.materializeAll otherHost twoItems.reverse).run blockedShelf).2 := by
  have hapart : flatDepot.Apart blockedShelf twoItems :=
    .of_dotless (by decide +kernel) (by decide +kernel) (by decide +kernel) (by decide +kernel)
  have hfates : ((flatDepot.materializeAll Disk.plainHost twoItems).run blockedShelf).1.map
      (·.outcome.fate) =
      [.copied ⟨"r/a-1.jar"⟩, .failed] := by decide +kernel
  have hunused : flatDepot.Unused Disk.plainHost twoItems blockedShelf := by decide +kernel
  have hunused' : flatDepot.Unused otherHost twoItems.reverse blockedShelf := by decide +kernel
  exact ⟨hapart, hfates, materializeAll_perm Disk.tagged_plainHost tagged_otherHost rfl
    sound_blockedShelf hapart (List.reverse_perm _).symm hunused hunused'⟩

def windingDepot : Depot := ⟨⟨"x/r"⟩, .nested, false⟩

def windingItems : List ResolvedArtifact :=
  [⟨.ofVersionText "g" "a" "1", some ⟨"source"⟩⟩,
    ⟨.ofVersionText "g" "b" "1", some ⟨"x/../source"⟩⟩]

/-- A source outside of the root, by a path through a directory that only the depot makes: it is
found behind another item, and not before. -/
theorem materializeAll_reverse_winding : oneSource.Sound ∧ windingDepot.generateMetadata = false ∧
    windingItems.Pairwise (windingDepot.Separate oneSource) ∧
    (∀ r ∈ windingItems, ∀ text ∈ r.artifact.pathTexts, Dotless text.toList) ∧
    (∀ r ∈ windingItems, ∀ source ∈ r.file,
      ¬ oneSource.place windingDepot.root <+: oneSource.place source ∧
      ¬ oneSource.place source <+: oneSource.place windingDepot.root) ∧
    windingDepot.Unused Disk.plainHost windingItems oneSource ∧
    windingDepot.Unused Disk.plainHost windingItems.reverse oneSource ∧
    ((windingDepot.materializeAll Disk.plainHost windingItems).run oneSource).1.map
      (·.outcome.fate) =
      [.copied ⟨"x/r/g/a/1/a-1.jar"⟩, .copied ⟨"x/r/g/b/1/b-1.jar"⟩] ∧
    ((windingDepot.materializeAll Disk.plainHost windingItems.reverse).run oneSource).1.map
      (·.outcome.fate) = [.failed, .copied ⟨"x/r/g/a/1/a-1.jar"⟩] :=
  ⟨.of_entries (by decide +kernel) (by decide +kernel), rfl,
    by decide +kernel, by decide +kernel, by decide +kernel,
    by decide +kernel, by decide +kernel, by decide +kernel, by decide +kernel⟩

end Depot
end FeatureDepot
