import FeatureDepot.Markup.Record
import FeatureDepot.Proofs.Markup.Pieces
import Mathlib.Data.List.Forall2
import Mathlib.Data.List.Pairwise

/-! Records that are read from parts in any order. Attributes and children change a record one by
one, a list all at once where its first element stands; as long as what stands under one key keeps
its order, the record is the same. -/
namespace FeatureDepot.Markup

variable {σ : Type} {s : Schema σ} {parent tag : Tag} {children rest ns : List Node}
  {ending : Ending} {key name : List Char}

/-- A part of a record: the key that it stands under, and how it changes the record. -/
structure Part (σ : Type) where
  key : List Char
  change : σ → σ

namespace Part

variable {parts : List (Part σ)}

/-- All parts, one after the other. -/
def applyAll (parts : List (Part σ)) (v : σ) : σ := parts.foldl (fun v x => x.change v) v

@[simp] theorem applyAll_nil (v : σ) : applyAll [] v = v := rfl

@[simp] lemma applyAll_cons (x : Part σ) (parts : List (Part σ)) (v : σ) :
    applyAll (x :: parts) v = applyAll parts (x.change v) := rfl

lemma applyAll_append (front back : List (Part σ)) (v : σ) :
    applyAll (front ++ back) v = applyAll back (applyAll front v) := List.foldl_append

/-- The order of parts under different keys does not matter. -/
def Commuting (parts : List (Part σ)) : Prop :=
  ∀ x ∈ parts, ∀ y ∈ parts, x.key ≠ y.key → ∀ v, x.change (y.change v) = y.change (x.change v)

lemma Commuting.filter (h : Commuting parts) (p : Part σ → Bool) : Commuting (parts.filter p) :=
  fun x hx y hy => h x (List.mem_filter.mp hx).1 y (List.mem_filter.mp hy).1

lemma change_applyAll {x : Part σ}
    (h : ∀ y ∈ parts, ∀ v, x.change (y.change v) = y.change (x.change v)) (v : σ) :
    applyAll parts (x.change v) = x.change (applyAll parts v) := by
  induction parts generalizing v with
  | nil => rfl
  | cons y parts ih =>
    rw [applyAll_cons, applyAll_cons, ← h y List.mem_cons_self,
      ih fun z hz => h z (List.mem_cons_of_mem y hz)]

/-- The parts under one key may as well come first. -/
theorem applyAll_filter (h : Commuting parts) (key : List Char) (v : σ) :
    applyAll parts v = applyAll (parts.filter (·.key ≠ key))
      (applyAll (parts.filter (·.key = key)) v) := by
  induction parts generalizing v with
  | nil => rfl
  | cons x parts ih =>
    have htail : Commuting parts :=
      fun y hy z hz => h y (List.mem_cons_of_mem x hy) z (List.mem_cons_of_mem x hz)
    by_cases hx : x.key = key
    · rw [List.filter_cons_of_neg (by simpa using hx), List.filter_cons_of_pos (by simpa using hx),
        applyAll_cons, applyAll_cons, ih htail]
    · have hcommutes : ∀ y ∈ parts.filter (·.key = key), ∀ v,
          x.change (y.change v) = y.change (x.change v) := by
        intro y hy
        obtain ⟨hmem, hkey⟩ := List.mem_filter.mp hy
        refine h x List.mem_cons_self y (List.mem_cons_of_mem x hmem) fun heq => hx ?_
        rw [heq]
        simpa using hkey
      rw [List.filter_cons_of_pos (by simpa using hx), List.filter_cons_of_neg (by simpa using hx),
        applyAll_cons, applyAll_cons, ih htail, change_applyAll hcommutes]

lemma filter_filter_ne (parts : List (Part σ)) {key other : List Char} (h : other ≠ key) :
    (parts.filter (·.key ≠ key)).filter (·.key = other) = parts.filter (·.key = other) := by
  rw [List.filter_filter]
  refine List.filter_congr fun x _ => ?_
  by_cases hx : x.key = other
  · simp [hx, h]
  · simp [hx]

lemma filter_filter_self (parts : List (Part σ)) (key : List Char) :
    (parts.filter (·.key ≠ key)).filter (·.key = key) = [] := by
  rw [List.filter_filter, List.filter_eq_nil_iff]
  intro x _
  by_cases hx : x.key = key <;> simp [hx]

section Under

variable {key : String → List Char} {fields : List (String × List (σ → σ))}
  {f : String × List (σ → σ)}

/-- Changes by the names that they stand under. -/
def under (key : String → List Char) (fields : List (String × List (σ → σ))) : List (Part σ) :=
  fields.flatMap fun f => f.2.map (⟨key f.1, ·⟩)

theorem mem_under {x : Part σ} :
    x ∈ under key fields ↔ ∃ f ∈ fields, ∃ change ∈ f.2, x = ⟨key f.1, change⟩ := by
  unfold under
  rw [List.mem_flatMap]
  exact exists_congr fun f => and_congr_right fun _ => by simp [eq_comm]

/-- All changes, name by name. -/
def applyFields (fields : List (String × List (σ → σ))) (v : σ) : σ :=
  fields.foldl (fun v f => f.2.foldl (fun v change => change v) v) v

@[simp] theorem applyFields_nil (v : σ) : applyFields [] v = v := rfl

@[simp] lemma applyFields_cons (f : String × List (σ → σ)) (fields : List (String × List (σ → σ)))
    (v : σ) :
    applyFields (f :: fields) v = applyFields fields (f.2.foldl (fun v change => change v) v) := rfl

theorem applyAll_under (fields : List (String × List (σ → σ))) (v : σ) :
    applyAll (under key fields) v = applyFields fields v := by
  induction fields generalizing v with
  | nil => rfl
  | cons f fields ih =>
    rw [under, List.flatMap_cons, applyAll_append, ← under, ih, applyAll, List.foldl_map,
      applyFields_cons]

lemma filter_map_key {changes : List (σ → σ)} (k k' : List Char) :
    (changes.map fun change => (⟨k', change⟩ : Part σ)).filter (·.key = k) = if k' = k then
      changes.map (⟨k', ·⟩) else [] := by
  split
  next h => simp [h]
  next h => simp [h]

lemma filter_under_of_not_mem (hkey : Function.Injective key) {name : String}
    (hname : name ∉ fields.map Prod.fst) :
    (under key fields).filter (·.key = key name) = [] := by
  rw [List.filter_eq_nil_iff]
  intro x hx
  obtain ⟨g, hg, change, -, rfl⟩ := mem_under.mp hx
  have hne : g.1 ≠ name := fun heq => hname (heq ▸ List.mem_map_of_mem hg)
  simpa using fun heq => hne (hkey heq)

/-- Under the key of a name there are the changes of the name. -/
theorem filter_under (hkey : Function.Injective key) (hnodup : (fields.map Prod.fst).Nodup)
    (hf : f ∈ fields) :
    (under key fields).filter (·.key = key f.1) = f.2.map (⟨key f.1, ·⟩) := by
  induction fields with
  | nil => cases hf
  | cons g fields ih =>
    rw [List.map_cons] at hnodup
    obtain ⟨hmem, hnodup⟩ := List.nodup_cons.mp hnodup
    rw [under, List.flatMap_cons, List.filter_append, filter_map_key, ← under]
    rcases List.mem_cons.mp hf with rfl | hf
    · rw [if_pos rfl, filter_under_of_not_mem hkey hmem, List.append_nil]
    · have hne : key g.1 ≠ key f.1 := fun heq => hmem (hkey heq ▸ List.mem_map_of_mem hf)
      rw [if_neg hne, List.nil_append, ih hnodup hf]

/-- The order of changes under different names does not matter. -/
def Independent (fields : List (String × List (σ → σ))) : Prop :=
  fields.Pairwise fun f g => ∀ c ∈ f.2, ∀ c' ∈ g.2, ∀ v, c (c' v) = c' (c v)

theorem Independent.commuting (h : Independent fields) : Commuting (under key fields) := by
  have : Std.Symm fun f g : String × List (σ → σ) => ∀ c ∈ f.2, ∀ c' ∈ g.2, ∀ v,
      c (c' v) = c' (c v) := ⟨fun f g h c hc c' hc' v => (h c' hc' c hc v).symm⟩
  intro x hx y hy hne
  obtain ⟨f, hf, c, hc, rfl⟩ := mem_under.mp hx
  obtain ⟨g, hg, c', hc', rfl⟩ := mem_under.mp hy
  exact List.Pairwise.forall h hf hg (fun heq => hne (by rw [heq])) c hc c' hc'

/-- Where there is at most one change for each name, all keys are different. -/
theorem nodup_under (hkey : Function.Injective key) (hnodup : (fields.map Prod.fst).Nodup)
    (hone : ∀ f ∈ fields, f.2.length ≤ 1) : ((under key fields).map (·.key)).Nodup := by
  induction fields with
  | nil => exact List.nodup_nil
  | cons f fields ih =>
    rw [List.map_cons] at hnodup
    obtain ⟨hmem, hnodup⟩ := List.nodup_cons.mp hnodup
    have hrest := ih hnodup fun g hg => hone g (List.mem_cons_of_mem f hg)
    have hfresh : key f.1 ∉ (under key fields).map (·.key) := by
      intro h
      obtain ⟨x, hx, hxkey⟩ := List.mem_map.mp h
      obtain ⟨g, hg, change, -, rfl⟩ := mem_under.mp hx
      exact hmem (hkey hxkey ▸ List.mem_map_of_mem hg)
    have hsplit : under key (f :: fields) = f.2.map (⟨key f.1, ·⟩) ++ under key fields := by
      rw [under, List.flatMap_cons, ← under]
    rw [hsplit]
    match hchanges : f.2 with
    | [] => exact hrest
    | [change] => exact List.nodup_cons.mpr ⟨hfresh, hrest⟩
    | _ :: _ :: _ =>
      have hlength := hone f List.mem_cons_self
      rw [hchanges] at hlength
      simp at hlength

end Under

section Matching

variable {ι : Type} {has : List Char → ι → Bool} {Known : List Char → Prop}
  {Reads : List Char → Part σ → ι → Prop} {items : List ι} {i : ι} {key : List Char} {x : Part σ}
  {xs : List (Part σ)}

/-- Items that are read as parts: under each key that is known, one item for each part, in order. -/
structure Matches (has : List Char → ι → Bool) (Known : List Char → Prop)
    (Reads : List Char → Part σ → ι → Prop) (parts : List (Part σ)) (items : List ι) : Prop where
  known : ∀ x ∈ parts, Known x.key
  reads : ∀ key, Known key →
    List.Forall₂ (Reads key) (parts.filter (·.key = key)) (items.filter (has key))

lemma Matches.eq_nil (h : Matches has Known Reads parts []) : parts = [] := by
  refine List.eq_nil_iff_forall_not_mem.mpr fun x hx => ?_
  have hempty := h.reads x.key (h.known x hx)
  rw [List.filter_nil, List.forall₂_nil_right_iff, List.filter_eq_nil_iff] at hempty
  exact hempty x hx (decide_eq_true rfl)

/-- An item under no known key is read as no part. -/
theorem Matches.skip (h : Matches has Known Reads parts (i :: items))
    (hnot : ∀ key, Known key → has key i = false) :
    Matches has Known Reads parts items := by
  refine ⟨h.known, fun key hkey => ?_⟩
  have hthis := h.reads key hkey
  rwa [List.filter_cons_of_neg (by simp [hnot key hkey])] at hthis

/-- An item is read as the first part under its key, and the items after it as the next ones. -/
theorem Matches.exists_cons (h : Matches has Known Reads parts (i :: items)) (hkey : Known key)
    (hi : has key i) :
    ∃ x xs, parts.filter (·.key = key) = x :: xs ∧ Reads key x i ∧
    List.Forall₂ (Reads key) xs (items.filter (has key)) := by
  have hthis := h.reads key hkey
  rw [List.filter_cons_of_pos hi] at hthis
  obtain ⟨x, xs, hread, hrest, hparts⟩ := List.forall₂_cons_right_iff.mp hthis
  exact ⟨x, xs, hparts, hread, hrest⟩

/-- Where the parts and the items under a key are done, the others are left. -/
theorem Matches.others (h : Matches has Known Reads parts (i :: items))
    (hone : ∀ j k k', has k j → has k' j → k = k') (hi : has key i) :
    Matches has Known Reads (parts.filter (·.key ≠ key)) (items.filter (!has key ·)) := by
  refine ⟨fun x hx => h.known x (List.mem_filter.mp hx).1, fun other hother => ?_⟩
  by_cases heq : other = key
  · have hnone : (items.filter (!has key ·)).filter (has key) = [] := by
      rw [List.filter_filter, List.filter_eq_nil_iff]
      intro j _
      cases has key j <;> simp
    rw [heq, filter_filter_self, hnone]
    exact .nil
  · have hsome : (items.filter (!has key ·)).filter (has other) = items.filter (has other) := by
      rw [List.filter_filter]
      refine List.filter_congr fun j _ => ?_
      cases hkey : has key j with
      | false => simp
      | true => simpa using fun hboth => heq (hone j other key hboth hkey)
    have hthis := h.reads other hother
    rw [List.filter_cons_of_neg fun hboth => heq (hone i other key hboth hi)] at hthis
    rwa [hsome, filter_filter_ne parts heq]

lemma key_of_filter (h : parts.filter (·.key = key) = x :: xs) : x ∈ parts ∧ x.key = key := by
  obtain ⟨hx, hkey⟩ := List.mem_filter.mp (h ▸ List.mem_cons_self : x ∈ parts.filter (·.key = key))
  exact ⟨hx, of_decide_eq_true hkey⟩

/-- Where all keys are different, there is one part under a key. -/
theorem eq_nil_of_filter (honce : (parts.map (·.key)).Nodup)
    (h : parts.filter (·.key = key) = x :: xs) : xs = [] := by
  have hnodup : ((parts.filter (·.key = key)).map (·.key)).Nodup :=
    honce.sublist (List.filter_sublist.map _)
  refine List.eq_nil_iff_forall_not_mem.mpr fun y hy => ?_
  have hykey : y.key = key := of_decide_eq_true
    (List.mem_filter.mp (h ▸ List.mem_cons_of_mem x hy : y ∈ parts.filter (·.key = key))).2
  rw [h, List.map_cons, List.nodup_cons] at hnodup
  exact hnodup.1 (List.mem_map.mpr ⟨y, hy, hykey.trans (key_of_filter h).2.symm⟩)

/-- The parts under other keys stay new when a key has been seen. -/
theorem new_of_filter {seen : List (List Char)} (hnew : ∀ y ∈ parts, y.key ∉ seen) :
    ∀ y ∈ parts.filter (·.key ≠ key), y.key ∉ key :: seen := by
  intro y hy
  obtain ⟨hmem, hne⟩ := List.mem_filter.mp hy
  rw [List.mem_cons, not_or]
  exact ⟨by simpa using hne, hnew y hmem⟩

lemma mem_keys_iff (h : parts.filter (·.key = key) = x :: xs) {k : List Char} :
    k ∈ parts.map (·.key) ↔ k = key ∨ k ∈ (parts.filter (·.key ≠ key)).map (·.key) := by
  obtain ⟨hx, hxkey⟩ := key_of_filter h
  by_cases hk : k = key
  · have hthere : k ∈ parts.map (·.key) := List.mem_map.mpr ⟨x, hx, hxkey.trans hk.symm⟩
    simp [hk, hk ▸ hthere]
  · simp only [hk, false_or, List.mem_map, List.mem_filter]
    refine exists_congr fun y => ⟨fun hy => ⟨⟨hy.1, ?_⟩, hy.2⟩, fun hy => ⟨hy.1.1, hy.2⟩⟩
    simpa [hy.2] using hk

end Matching

end Part

theorem localName_eq_self {k : List Char} (h : ':' ∉ k) : localName k = k := by
  have hnone : k.dropWhile (· != ':') = [] := by
    rw [List.dropWhile_eq_nil_iff]
    intro c hc
    exact bne_iff_ne.mpr fun heq => h (heq ▸ hc)
  unfold localName
  rw [hnone]

theorem mem_of_mem_localName {k : List Char} {d : Char} (h : d ∈ localName k) : d ∈ k := by
  unfold localName at h
  split at h
  next c rest hrest => exact (List.dropWhile_suffix _).subset (hrest ▸ List.mem_cons_of_mem c h)
  next => exact h

/-- A node that can be passed over, and read over to come back to it. -/
def Node.Sound : Node → Prop
  | .text content => ∃ cs, content = .ok cs
  | .element tag children ending => tag.check = .ok () ∧ pass tag children ending = .ok () ∧
      ∀ parent, touch parent (.element tag children ending) = .ok ()

/-- An element of a name. -/
def Node.named (name : List Char) : Node → Bool
  | .text _ => false
  | .element tag _ _ => tag.name == name

lemma Node.eq_of_named {n : Node} {k k' : List Char} (h : n.named k) (h' : n.named k') :
    k = k' := by
  cases n with
  | text content => cases h
  | element tag children ending => exact (beq_iff_eq.mp h).symm.trans (beq_iff_eq.mp h')

/-- An element that is read as a part of a record. -/
def Made (read : (tag : Tag) → List Node → Ending → Except Fault (σ → σ)) (x : Part σ) (n : Node) :
    Prop :=
  ∃ tag children ending, n = .element tag children ending ∧ read tag children ending = .ok x.change

namespace Node.Sound

theorem touch {n : Node} (h : n.Sound) (parent : List Char) : Markup.touch parent n = .ok () := by
  cases n with
  | text content =>
    obtain ⟨cs, rfl⟩ := h
    rw [Markup.touch]
    rfl
  | element tag children ending => exact h.2.2 parent

end Node.Sound

namespace Schema

variable {parts : List (Part σ)} {p : Progress σ}

/-- A list takes all elements of its name, in order, and leaves the other nodes. -/
theorem gather_parts {read : (tag : Tag) → List Node → Ending → Except Fault (σ → σ)} (parent : Tag)
    (hsound : ∀ n ∈ ns, n.Sound) (h : List.Forall₂ (Made read) parts (ns.filter (·.named name)))
    (v : σ) :
    gather parent name read v ns = .ok (Part.applyAll parts v, ns.filter (!·.named name)) := by
  induction ns generalizing parts v with
  | nil =>
    cases h
    rfl
  | cons n ns ih =>
    have htail : ∀ n ∈ ns, n.Sound := fun m hm => hsound m (List.mem_cons_of_mem n hm)
    have htouch := (hsound n List.mem_cons_self).touch parent.name
    have hleft : n.named name = false → gather parent name read v (n :: ns) =
        gather parent name read v ns >>= fun r => .ok (r.1, n :: r.2) := by
      intro hn
      cases n with
      | text content =>
        rw [gather, htouch]
        rfl
      | element tag children ending =>
        have htag : tag.name ≠ name := by simpa [Node.named] using hn
        rw [gather, if_neg htag, htouch]
        rfl
    cases hn : n.named name with
    | false =>
      rw [List.filter_cons_of_neg (by simp [hn])] at h
      rw [hleft hn, ih htail h, List.filter_cons_of_pos (by simp [hn])]
      rfl
    | true =>
      rw [List.filter_cons_of_pos hn] at h
      cases h with
      | @cons x n' xs ns' hmade hrest =>
        obtain ⟨tag, children, ending, rfl, hread⟩ := hmade
        have htag : tag.name = name := by simpa [Node.named] using hn
        have hcheck : tag.check = .ok () := (hsound _ List.mem_cons_self).1
        rw [gather, if_pos htag, hcheck, hread, List.filter_cons_of_neg (by simp [hn])]
        exact ih htail hrest (x.change v)

theorem readChildren_nil : s.readChildren parent .closed p [] = .ok p := by
  rw [readChildren]
  rfl

lemma readChildren_text (htext : s.field? textKey = none) (cs : List Char) :
    s.readChildren parent .closed p (.text (.ok cs) :: rest) =
      s.readChildren parent .closed p rest := by
  rw [readChildren]
  simp only [resolved, Except.mapError, htext, bind, Except.bind]
  split <;> rfl

lemma readChildren_unknown (hsound : (Node.element tag children ending).Sound)
    (hfield : s.field? (localName tag.name) = none) :
    s.readChildren parent .closed p (.element tag children ending :: rest) =
      s.readChildren parent .closed p rest := by
  obtain ⟨hcheck, hpass, -⟩ := hsound
  rw [readChildren, hcheck]
  simp only [hfield, hpass, bind, Except.bind]

/-- The first element of a list brings all others with it. -/
theorem readChildren_gather {read : (parent tag : Tag) → List Node → Ending → Except Fault (σ → σ)}
    {change : σ → σ} {value : σ} {left : List Node} (hcheck : tag.check = .ok ())
    (hlocal : localName tag.name = tag.name) (hfield : s.field? tag.name = some (.list read))
    (hseen : tag.name ∉ p.seen) (hread : read parent tag children ending = .ok change)
    (hgather : gather parent tag.name (read parent) (change p.value) rest = .ok (value, left)) :
    s.readChildren parent .closed p (.element tag children ending :: rest) =
      s.readChildren parent .closed ⟨value, tag.name :: p.seen⟩ left := by
  have hcontains : p.seen.contains tag.name = false := by simpa using hseen
  rw [readChildren, hcheck]
  simp only [hlocal, hfield, hcontains, hread, bind, Except.bind]
  rw [if_neg (by decide)]
  split
  next fault hfault => cases hgather.symm.trans hfault
  next value' left' hok =>
    obtain ⟨rfl, rfl⟩ := Prod.mk.inj (Except.ok.inj (hgather.symm.trans hok))
    rfl

/-- A key under which a record has a list. -/
def HasList (s : Schema σ) (key : List Char) : Prop := ∃ read, s.field? key = some (.list read)

/-- An element that a record either does not know or has a list for, under its full name. -/
def Listed (s : Schema σ) : Node → Prop
  | .text _ => True
  | .element tag _ _ => (s.field? (localName tag.name) = none ∧ s.field? tag.name = none) ∨
      (localName tag.name = tag.name ∧ s.HasList tag.name)

/-- An element that is read as a part of the list under a key. -/
def Collects (s : Schema σ) (parent : Tag) (key : List Char) (x : Part σ) (n : Node) : Prop :=
  ∀ read, s.field? key = some (.list read) → Made (read parent) x n

/-- A record of lists is read from elements that stand in any order. -/
theorem readChildren_parts (hcommuting : Part.Commuting parts) (htext : s.field? textKey = none)
    (hsound : ∀ n ∈ ns, n.Sound) (hlisted : ∀ n ∈ ns, s.Listed n)
    (hmatches : Part.Matches Node.named s.HasList (s.Collects parent) parts ns)
    (hnew : ∀ x ∈ parts, x.key ∉ p.seen) :
    ∃ seen, s.readChildren parent .closed p ns = .ok ⟨Part.applyAll parts p.value, seen⟩ ∧
    p.seen ⊆ seen := by
  -- A list takes its elements out of all that is left, so the induction is on how much is left.
  induction hn : ns.length using Nat.strongRecOn generalizing ns parts p with
  | _ size ih =>
    cases ns with
    | nil =>
      refine ⟨p.seen, ?_, List.Subset.refl _⟩
      rw [hmatches.eq_nil, readChildren_nil]
      rfl
    | cons n rest =>
      have hsize : rest.length < size := hn ▸ Nat.lt_succ_self rest.length
      have hsoundRest : ∀ m ∈ rest, m.Sound := fun m hm => hsound m (List.mem_cons_of_mem n hm)
      have hlistedRest : ∀ m ∈ rest, s.Listed m := fun m hm => hlisted m (List.mem_cons_of_mem n hm)
      have hskip : (∀ key, s.HasList key → n.named key = false) →
          s.readChildren parent .closed p (n :: rest) = s.readChildren parent .closed p rest →
          ∃ seen, s.readChildren parent .closed p (n :: rest) =
            .ok ⟨Part.applyAll parts p.value, seen⟩ ∧
            p.seen ⊆ seen := by
        intro hnot hstep
        rw [hstep]
        exact ih _ hsize hcommuting hsoundRest hlistedRest (hmatches.skip hnot) hnew rfl
      cases n with
      | text content =>
        obtain ⟨cs, rfl⟩ := hsound _ List.mem_cons_self
        exact hskip (fun _ _ => rfl) (readChildren_text htext cs)
      | element tag children ending =>
        have hhead := hsound _ List.mem_cons_self
        rcases hlisted _ List.mem_cons_self with ⟨hlocal, hfull⟩ | ⟨hplain, read, hfield⟩
        · refine hskip (fun key hlist => beq_eq_false_iff_ne.mpr fun htag => ?_)
            (readChildren_unknown hhead hlocal)
          obtain ⟨read, hread⟩ := hlist
          rw [htag, hread] at hfull
          cases hfull
        · have hname : (Node.element tag children ending).named tag.name :=
            beq_self_eq_true tag.name
          obtain ⟨x, xs, hparts, hfirst, hrest⟩ := hmatches.exists_cons ⟨read, hfield⟩ hname
          obtain ⟨_, _, _, hnode, hread⟩ := hfirst read hfield
          obtain ⟨rfl, rfl, rfl⟩ := Node.element.inj hnode
          obtain ⟨hx, hxkey⟩ := Part.key_of_filter hparts
          have hstep :=
            readChildren_gather hhead.1 hplain hfield (hxkey ▸ hnew x hx) hread
              (gather_parts parent hsoundRest (hrest.imp fun _ _ h => h read hfield)
                (x.change p.value))
          obtain ⟨seen, hleft, hsubset⟩ :=
            ih _ (Nat.lt_of_le_of_lt (List.length_filter_le _ _) hsize)
              (p := ⟨Part.applyAll xs (x.change p.value), tag.name :: p.seen⟩)
              (hcommuting.filter (·.key ≠ tag.name))
              (fun m hm => hsoundRest m (List.mem_filter.mp hm).1)
              (fun m hm => hlistedRest m (List.mem_filter.mp hm).1)
              (hmatches.others (fun _ _ _ => Node.eq_of_named) hname) (Part.new_of_filter hnew) rfl
          refine ⟨seen, ?_, fun k hk => hsubset (List.mem_cons_of_mem _ hk)⟩
          rw [hstep, hleft, Part.applyAll_filter hcommuting tag.name, hparts, Part.applyAll_cons]

/-- A key of an attribute that a record knows. -/
def HasAttribute (s : Schema σ) (key : List Char) : Prop :=
  (s.field? key).isSome ∧ key.head? = some '@'

/-- An attribute that is read as a part of a record. -/
def Sets (s : Schema σ) (x : Part σ) (a : Attribute) : Prop :=
  ∃ read, s.field? (attributeKey a.name) = some (.single read) ∧
  read (.value a.value) = .ok x.change

/-- Attributes are read in any order, each of them once. -/
theorem readAttributes_parts {as : List Attribute} (honce : (parts.map (·.key)).Nodup)
    (hcommuting : Part.Commuting parts)
    (hmatches : Part.Matches (fun key a => attributeKey a.name = key) s.HasAttribute
      (fun _ => s.Sets) parts as)
    (hnew : ∀ x ∈ parts, x.key ∉ p.seen) :
    ∃ seen, s.readAttributes none p as = .ok ⟨Part.applyAll parts p.value, seen⟩ ∧
      ∀ key, key ∈ seen ↔ key ∈ p.seen ∨ key ∈ parts.map (·.key) := by
  induction as generalizing parts p with
  | nil =>
    refine ⟨p.seen, ?_, fun key => by simp [hmatches.eq_nil]⟩
    rw [hmatches.eq_nil, readAttributes]
    rfl
  | cons a as ih =>
    cases hfield : s.field? (attributeKey a.name) with
    | none =>
      have hskip : s.readAttributes none p (a :: as) = s.readAttributes none p as := by
        rw [readAttributes, hfield]
      rw [hskip]
      refine ih honce hcommuting (hmatches.skip fun key hkey => decide_eq_false fun heq => ?_) hnew
      rw [← heq, HasAttribute, hfield] at hkey
      cases hkey.1
    | some field =>
      obtain ⟨x, xs, hparts, ⟨read, hread, hchange⟩, hrest⟩ :=
        hmatches.exists_cons ⟨by rw [hfield]; rfl, rfl⟩ (decide_eq_true rfl)
      obtain ⟨hx, hxkey⟩ := Part.key_of_filter hparts
      obtain rfl := Part.eq_nil_of_filter honce hparts
      have hcontains : p.seen.contains (attributeKey a.name) = false := by
        simpa [hxkey] using hnew x hx
      have hstep : s.readAttributes none p (a :: as) =
          s.readAttributes none ⟨x.change p.value, attributeKey a.name :: p.seen⟩ as := by
        rw [readAttributes, hread]
        simp only [readSingle, hcontains, hchange]
        rfl
      have hnone := List.filter_eq_nil_iff.mp (List.forall₂_nil_left_iff.mp hrest)
      have hleft : as.filter (fun b => !decide (attributeKey b.name = attributeKey a.name)) = as :=
        List.filter_eq_self.mpr fun b hb => by simpa using hnone b hb
      have hothers :=
        hmatches.others (fun _ _ _ h h' => (of_decide_eq_true h).symm.trans (of_decide_eq_true h'))
          (decide_eq_true rfl)
      rw [hleft] at hothers
      obtain ⟨seen, hreads, hmem⟩ :=
        ih (p := ⟨x.change p.value, attributeKey a.name :: p.seen⟩)
          (honce.sublist (List.filter_sublist.map _))
          (hcommuting.filter (·.key ≠ attributeKey a.name)) hothers (Part.new_of_filter hnew)
      refine ⟨seen, ?_, fun key => (hmem key).trans ?_⟩
      · rw [hstep, hreads, Part.applyAll_filter hcommuting (attributeKey a.name), hparts]
        rfl
      · rw [Part.mem_keys_iff hparts, List.mem_cons, or_left_comm, or_assoc]

/-- A record is read if its attributes and its children are, and if nothing is missing. -/
theorem read_of_required {start : σ} {q : Progress σ} (hfault : tag.fault = none)
    (hattributes : s.readAttributes none ⟨start, []⟩ tag.attributes = .ok p)
    (hchildren : s.readChildren tag ending p children = .ok q)
    (hrequired : ∀ key ∈ s.required, key.toList ∈ q.seen) :
    s.read start tag children ending = .ok q.value := by
  have hnone : s.required.find? (fun key => !q.seen.contains key.toList) = none := by
    rw [List.find?_eq_none]
    intro key hkey
    simpa using hrequired key hkey
  unfold Schema.read
  rw [hfault, hattributes]
  simp only [bind, Except.bind, hchildren, hnone]

end Schema

namespace Field

variable {τ : Type}

theorem exists_optional_eq (read : Source → Except Fault τ) (set : Option τ → σ → σ) :
    ∃ reader, Field.optional read set = .single reader ∧
      ∀ source t, source.isAbsent = false → read source = .ok t →
      reader source = .ok (set (some t)) := by
  refine ⟨_, rfl, fun source t habsent hread => ?_⟩
  simp [habsent, hread]

theorem exists_value_eq (read : Source → Except Fault τ) (set : τ → σ → σ) :
    ∃ reader, Field.value read set = .single reader ∧ ∀ source t, read source = .ok t →
    reader source = .ok (set t) := by
  refine ⟨_, rfl, fun source t hread => ?_⟩
  simp [hread]

theorem exists_many_eq (read : Source → Except Fault τ) (add : τ → σ → σ) :
    ∃ reader, Field.many read add = .list reader ∧ ∀ parent tag children ending t,
      read (.element parent tag children ending) = .ok t →
      reader parent tag children ending = .ok (add t) := by
  refine ⟨_, rfl, fun parent tag children ending t hread => ?_⟩
  simp [hread]

end Field

end FeatureDepot.Markup
