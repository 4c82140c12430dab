import FeatureDepot.Proofs.Markup.Parts

/-! Records that are read from elements as they stand in a document. What a record does not know is
passed over: other attributes, other elements, and text between elements. -/
namespace FeatureDepot.Markup

variable {σ : Type} {s : Schema σ} {tag : Tag} {ns : List Node}

/-- Text that is not white space is the text of a record. -/
theorem Schema.readChildren_telling {p : Progress σ} (parent : Tag) {cs : List Char} {put : σ → σ}
    {read : Source → Except Fault (σ → σ)} (hcs : ¬ cs.all Text.isBlank)
    (hfield : s.field? textKey = some (.single read)) (hnew : textKey ∉ p.seen)
    (hread : read (.text cs) = .ok put) :
    s.readChildren parent .closed p [.text (.ok cs)] = .ok ⟨put p.value, textKey :: p.seen⟩ := by
  have hcontains : p.seen.contains textKey = false := by simpa using hnew
  rw [readChildren]
  simp only [resolved, Except.mapError, bind, Except.bind, hcs, hfield, readSingle, hcontains,
    hread, readChildren_nil]
  rfl

/-- An element with sound children is sound. -/
theorem Node.sound_element (hcheck : tag.check = .ok ()) (hsound : ∀ n ∈ ns, n.Sound) :
    (Node.element tag ns .closed).Sound := by
  refine ⟨hcheck, ?_, fun parent => ?_⟩
  · unfold pass
    cases ns with
    | nil => rfl
    | cons n rest =>
      cases n with
      | text content => rfl
      | element inner more ending =>
        have hinner : inner.check = .ok () := (hsound _ List.mem_cons_self).1
        simp only [hinner]
        rfl
  · have hall : touchAll parent ns = .ok () := by
      induction ns with
      | nil => rw [touchAll]
      | cons n rest ih =>
        rw [touchAll, (hsound n List.mem_cons_self).touch parent]
        exact ih fun m hm => hsound m (List.mem_cons_of_mem n hm)
    rw [touch, hcheck, hall]
    rfl

namespace Piece

variable {p : Piece} {scope : Scope} {name : String} {k : List Char}

lemma check_ofContent (t : TagText) (scope : Scope) :
    (Tag.ofContent scope t.content).check = .ok () := by
  obtain ⟨scope', htag⟩ := t.exists_ofContent scope
  rw [htag]
  rfl

lemma sound_prose (content : Prose) : ∀ n ∈ content.nodes, n.Sound := by
  intro n hn
  obtain ⟨cs, -, rfl⟩ := List.mem_map.mp hn
  exact ⟨cs, rfl⟩

mutual

theorem sound_node (p : Piece) (scope : Scope) : (p.node scope).Sound := by
  match p with
  | empty front tag =>
    rw [node]
    exact Node.sound_element (check_ofContent tag scope) (by simp)
  | full front tag body back gap =>
    rw [node]
    refine Node.sound_element (check_ofContent tag scope) fun n hn => ?_
    rcases List.mem_append.mp hn with hn | hn
    · exact sound_nodes body _ n hn
    · exact sound_prose back n hn

lemma sound_nodes (ps : List Piece) (scope : Scope) : ∀ n ∈ nodes scope ps, n.Sound := by
  match ps with
  | [] =>
    intro n hn
    rw [nodes] at hn
    cases hn
  | p :: ps =>
    intro n hn
    rw [nodes, List.mem_append, List.mem_cons] at hn
    rcases hn with hn | rfl | hn
    · exact sound_prose p.front n hn
    · exact sound_node p scope
    · exact sound_nodes ps scope n hn

end

/-- The nodes within an element. -/
def inside (p : Piece) (scope : Scope) : List Node := nodes scope p.body ++ p.back.nodes

lemma sound_inside (p : Piece) (scope : Scope) : ∀ n ∈ p.inside scope, n.Sound := by
  intro n hn
  rcases List.mem_append.mp hn with hn | hn
  · exact sound_nodes p.body scope n hn
  · exact sound_prose p.back n hn

lemma mem_nodes {ps : List Piece} {n : Node} (h : n ∈ nodes scope ps) :
    (∃ cs, n = .text (.ok cs)) ∨ ∃ p ∈ ps, n = p.node scope := by
  induction ps with
  | nil =>
    rw [nodes] at h
    cases h
  | cons p ps ih =>
    rw [nodes, List.mem_append, List.mem_cons] at h
    rcases h with h | rfl | h
    · obtain ⟨cs, -, rfl⟩ := List.mem_map.mp h
      exact .inl ⟨cs, rfl⟩
    · exact .inr ⟨p, List.mem_cons_self, rfl⟩
    · exact (ih h).imp_right fun ⟨q, hq, heq⟩ => ⟨q, List.mem_cons_of_mem p hq, heq⟩

lemma filter_named_prose (content : Prose) (k : List Char) :
    content.nodes.filter (·.named k) = [] := by
  rw [List.filter_eq_nil_iff]
  intro n hn
  obtain ⟨cs, -, rfl⟩ := List.mem_map.mp hn
  exact Bool.false_ne_true

lemma named_node (p : Piece) (scope : Scope) (k : List Char) :
    (p.node scope).named k = (p.tag.name == k) := by
  rw [node_eq, Node.named, name_ofContent]

lemma filter_named_nodes (ps : List Piece) (scope : Scope) (k : List Char) :
    (nodes scope ps).filter (·.named k) = (ps.filter (·.tag.name = k)).map (node scope) := by
  induction ps with
  | nil => rfl
  | cons p ps ih =>
    rw [nodes, List.filter_append, filter_named_prose, List.nil_append]
    by_cases hp : p.tag.name = k
    · rw [List.filter_cons_of_pos (by simp [named_node, hp]),
        List.filter_cons_of_pos (by simpa using hp), ih, List.map_cons]
    · rw [List.filter_cons_of_neg (by simp [named_node, hp]),
        List.filter_cons_of_neg (by simpa using hp), ih]

lemma filter_named_inside (p : Piece) (scope : Scope) (k : List Char) :
    (p.inside scope).filter (·.named k) = (p.body.filter (·.tag.name = k)).map (node scope) := by
  rw [inside, List.filter_append, filter_named_prose, List.append_nil, filter_named_nodes]

/-- The values of the attributes of a name. -/
def values (p : Piece) (name : String) : List String :=
  (p.tag.attributes.filter (·.name = name.toList)).map (String.ofList ·.value)

/-- The elements of a name within an element, in the order in which they stand. -/
def children (p : Piece) (name : String) : List Piece := p.body.filter (·.tag.name = name.toList)

/-- What else there is has local names of its own. -/
structure Keeps (p : Piece) (attributes children : List String) : Prop where
  attributes : ∀ a ∈ p.tag.attributes, String.ofList (localName a.name) ∈ attributes →
    String.ofList a.name ∈ attributes
  children : ∀ c ∈ p.body, String.ofList (localName c.tag.name) ∈ children →
    String.ofList c.tag.name ∈ children

end Piece

/-- A name without a prefix, and of no attribute. -/
def Plain (name : String) : Prop := ':' ∉ name.toList ∧ '@' ∉ name.toList

instance (name : String) : Decidable (Plain name) := inferInstanceAs (Decidable (_ ∧ _))

/-- A record that has no other fields than some attributes, some lists of elements, and text. -/
structure Schema.Knows (s : Schema σ) (attributes children : List String) : Prop where
  key : ∀ key, (s.field? key).isSome → key = textKey ∨
    (∃ name ∈ attributes, key = '@' :: name.toList) ∨
    ∃ name ∈ children, key = name.toList
  plain : ∀ name ∈ attributes ++ children, Plain name
  nodup_attributes : attributes.Nodup
  nodup_children : children.Nodup

/-- A record whose keys are all among some strings has no other fields. -/
theorem Schema.Knows.of_strings {attributes children : List String}
    (hkey : ∀ name, (s.field? (String.toList name)).isSome →
      name ∈ "$text" :: (attributes.map ("@" ++ ·) ++ children))
    (hplain : ∀ name ∈ attributes ++ children, Plain name) (hattributes : attributes.Nodup)
    (hchildren : children.Nodup) :
    s.Knows attributes children := by
  refine ⟨fun key hsome => ?_, hplain, hattributes, hchildren⟩
  have hmem := hkey (String.ofList key) (by rwa [String.toList_ofList])
  rw [List.mem_cons, List.mem_append, List.mem_map] at hmem
  rcases hmem with htext | ⟨name, hname, heq⟩ | hchild
  · exact .inl (by rw [← String.toList_ofList (l := key), htext]; rfl)
  · exact .inr (.inl ⟨name, hname,
      by rw [← String.toList_ofList (l := key), ← heq, String.toList_append]; rfl⟩)
  · exact .inr (.inr ⟨_, hchild, String.toList_ofList.symm⟩)

section Reading

variable {p : Piece} {attributes others : List String} {name : String} {start : σ}
  {sets lists : List (String × List (σ → σ))}

lemma Schema.Knows.localName_attribute (h : s.Knows attributes others) (hname : name ∈ attributes) :
    localName name.toList = name.toList :=
  localName_eq_self (h.plain name (List.mem_append_left _ hname)).1

lemma Schema.Knows.localName_child (h : s.Knows attributes others) (hname : name ∈ others) :
    localName name.toList = name.toList :=
  localName_eq_self (h.plain name (List.mem_append_right _ hname)).1

/-- Under the key of a known attribute there are just the attributes of its name. -/
theorem Piece.attributeKey_eq_iff (hkeeps : p.Keeps attributes others)
    (hknows : s.Knows attributes others) (hname : name ∈ attributes) {a : AttributeText}
    (ha : a ∈ p.tag.attributes) :
    attributeKey a.name = '@' :: name.toList ↔ a.name = name.toList := by
  unfold attributeKey
  rw [List.cons.injEq, and_iff_right rfl]
  constructor
  · intro h
    split at h
    next => exact h
    next =>
      have hmem := hkeeps.attributes a ha (by rw [h, String.ofList_toList]; exact hname)
      have hlocal := hknows.localName_attribute hmem
      rw [String.toList_ofList] at hlocal
      rw [← h, hlocal]
  · intro h
    split
    next => exact h
    next => rw [h, hknows.localName_attribute hname]

/-- The names of the attributes of a tag are different. -/
theorem Piece.length_values_le (p : Piece) (name : String) : (p.values name).length ≤ 1 := by
  have hnodup : ((p.tag.attributes.filter (·.name = name.toList)).map (·.name)).Nodup :=
    p.tag.nodup.sublist (List.filter_sublist.map _)
  have hsame : ∀ a ∈ p.tag.attributes.filter (·.name = name.toList), a.name = name.toList :=
    fun a ha => of_decide_eq_true (List.mem_filter.mp ha).2
  unfold Piece.values
  rw [List.length_map]
  generalize p.tag.attributes.filter (·.name = name.toList) = as at hnodup hsame
  match as with
  | [] => exact Nat.zero_le 1
  | [_] => exact Nat.le_refl 1
  | a :: b :: _ =>
    have hab : a.name = b.name := (hsame a (by simp)).trans (hsame b (by simp)).symm
    simp [hab] at hnodup

namespace Schema

/-- The key of an attribute of a name. -/
def attributeKeyOf (name : String) : List Char := '@' :: name.toList

lemma attributeKeyOf_injective : Function.Injective attributeKeyOf :=
  fun _ _ h => String.toList_inj.mp (List.cons.inj h).2

/-- An attribute that changes a record by its value, if it is there. -/
def SetsBy (s : Schema σ) (p : Piece) (name : String) (changes : List (σ → σ)) : Prop :=
  ∃ read, s.field? (attributeKeyOf name) = some (.single read) ∧ List.Forall₂ (fun change value =>
    ∀ raw, unescape raw = .ok value.toList → read (.value raw) = .ok change) changes (p.values name)

/-- A list of elements that change a record. -/
def CollectsBy (s : Schema σ) (p : Piece) (name : String) (changes : List (σ → σ)) : Prop :=
  ∀ parent scope, ∃ read, s.field? name.toList = some (.list read) ∧ List.Forall₂ (fun change c =>
    Made (read parent) ⟨name.toList, change⟩ (c.node scope)) changes (p.children name)

lemma length_changes (hsets : ∀ f ∈ sets, s.SetsBy p f.1 f.2) {f : String × List (σ → σ)}
    (hf : f ∈ sets) :
    f.2.length = (p.values f.1).length := (hsets f hf).elim fun _ h => h.2.length_eq

/-- The attributes of a tag are read as the changes of their names. -/
theorem matches_values (hkeeps : p.Keeps (sets.map Prod.fst) others)
    (hknows : s.Knows (sets.map Prod.fst) others) (hsets : ∀ f ∈ sets, s.SetsBy p f.1 f.2) :
    Part.Matches (fun key a => attributeKey a.name = key) s.HasAttribute (fun _ => s.Sets)
      (Part.under attributeKeyOf sets) (p.tag.attributes.map AttributeText.read) where
  known x hx := by
    obtain ⟨f, hf, change, -, rfl⟩ := Part.mem_under.mp hx
    obtain ⟨read, hfield, -⟩ := hsets f hf
    exact ⟨by rw [hfield]; rfl, rfl⟩
  reads key hkey := by
    obtain ⟨hsome, hattribute⟩ := hkey
    rcases hknows.key key hsome with rfl | ⟨name, hname, rfl⟩ | ⟨name, hname, rfl⟩
    · cases hattribute
    · obtain ⟨f, hf, rfl⟩ := List.mem_map.mp hname
      rw [← attributeKeyOf, Part.filter_under attributeKeyOf_injective hknows.nodup_attributes hf,
        List.filter_map]
      have hsame : p.tag.attributes.filter
          ((fun a : Attribute => decide (attributeKey a.name = attributeKeyOf f.1)) ∘
            AttributeText.read) = p.tag.attributes.filter (·.name = f.1.toList) :=
        List.filter_congr fun a ha =>
          decide_eq_decide.mpr (Piece.attributeKey_eq_iff hkeeps hknows hname ha)
      obtain ⟨read, hfield, hvalues⟩ := hsets f hf
      rw [Piece.values, List.forall₂_map_right_iff] at hvalues
      rw [hsame, List.forall₂_map_left_iff, List.forall₂_map_right_iff]
      have hmem := (List.forall₂_and_left _ _).mpr ⟨fun a ha => List.mem_filter.mp ha, hvalues.flip⟩
      refine hmem.flip.imp fun change a ⟨⟨ha, haname⟩, hvalue⟩ => ⟨read, ?_, hvalue a.raw ?_⟩
      · rw [← hfield]
        exact congrArg _ ((Piece.attributeKey_eq_iff hkeeps hknows hname ha).mpr
          (of_decide_eq_true haname))
      · rw [unescape_of_spellsValue a.spells, String.toList_ofList]
    · exact absurd (List.mem_of_head? hattribute)
        (hknows.plain name (List.mem_append_right _ hname)).2

/-- The keys of changes are those of the attributes that have a value. -/
theorem mem_keys_under_iff (hsets : ∀ f ∈ sets, s.SetsBy p f.1 f.2) {key : List Char} :
    key ∈ (Part.under attributeKeyOf sets).map (·.key) ↔
    ∃ f ∈ sets, p.values f.1 ≠ [] ∧ key = attributeKeyOf f.1 := by
  rw [List.mem_map]
  constructor
  · rintro ⟨x, hx, rfl⟩
    obtain ⟨f, hf, change, hchange, rfl⟩ := Part.mem_under.mp hx
    refine ⟨f, hf, fun hnone => ?_, rfl⟩
    rw [List.eq_nil_of_length_eq_zero
      ((length_changes hsets hf).trans (congrArg List.length hnone))] at hchange
    cases hchange
  · rintro ⟨f, hf, hne, rfl⟩
    have hsome : f.2 ≠ [] :=
      fun hnone =>
        hne (List.eq_nil_of_length_eq_zero
          ((length_changes hsets hf).symm.trans (congrArg List.length hnone)))
    obtain ⟨change, hchange⟩ := List.exists_mem_of_ne_nil _ hsome
    exact ⟨_, Part.mem_under.mpr ⟨f, hf, change, hchange, rfl⟩, rfl⟩

/-- Attributes are read whatever their order, and whatever others are between them. -/
theorem readAttributes_values (start : σ) (hkeeps : p.Keeps (sets.map Prod.fst) others)
    (hknows : s.Knows (sets.map Prod.fst) others) (hsets : ∀ f ∈ sets, s.SetsBy p f.1 f.2)
    (hindependent : Part.Independent sets) :
    ∃ seen, s.readAttributes none ⟨start, []⟩ (p.tag.attributes.map AttributeText.read) =
        .ok ⟨Part.applyFields sets start, seen⟩ ∧
      ∀ key, key ∈ seen ↔ ∃ f ∈ sets, p.values f.1 ≠ [] ∧ key = attributeKeyOf f.1 := by
  have honce := Part.nodup_under attributeKeyOf_injective hknows.nodup_attributes fun f hf =>
    (length_changes hsets hf).trans_le (p.length_values_le f.1)
  obtain ⟨seen, hok, hseen⟩ := readAttributes_parts (p := ⟨start, []⟩) honce hindependent.commuting
    (matches_values hkeeps hknows hsets) (by simp)
  rw [Part.applyAll_under] at hok
  refine ⟨seen, hok, fun key => ?_⟩
  rw [hseen, mem_keys_under_iff hsets]
  exact or_iff_right List.not_mem_nil

/-- What is no element of a name that a record knows is passed over. -/
theorem listed_node {c : Piece} (scope : Scope) (hc : c ∈ p.body)
    (hkeeps : p.Keeps attributes others) (hknows : s.Knows attributes others)
    (htext : s.field? textKey = none) (hlist : ∀ name ∈ others, s.HasList name.toList) :
    s.Listed (c.node scope) := by
  rw [Piece.node_eq, Listed, Piece.name_ofContent]
  by_cases hlocal : String.ofList (localName c.tag.name) ∈ others
  · right
    have hfull := hkeeps.children c hc hlocal
    obtain ⟨read, hread⟩ := hlist _ hfull
    have hlocalName := hknows.localName_child hfull
    rw [String.toList_ofList] at hread hlocalName
    exact ⟨hlocalName, read, hread⟩
  · left
    have hnone : ∀ key, (∀ d ∈ key, d ∈ c.tag.name) → String.ofList key ∉ others →
        s.field? key = none := by
      intro key hchars hkey
      by_contra hfield
      rcases hknows.key key (Option.isSome_iff_ne_none.mpr hfield) with rfl | ⟨name, -,
        rfl⟩ | ⟨name, hname, rfl⟩
      · exact hfield htext
      · exact isNameChar_ne (c.tag.isTagName.2 '@' (hchars '@' List.mem_cons_self)) rfl rfl
      · exact hkey (by rwa [String.ofList_toList])
    refine ⟨hnone _ (fun d hd => mem_of_mem_localName hd) hlocal,
      hnone _ (fun d hd => hd) fun hfull => hlocal ?_⟩
    have hlocalName := hknows.localName_child hfull
    rw [String.toList_ofList] at hlocalName
    rwa [hlocalName]

lemma hasList_of_collectsBy {changes : List (σ → σ)} (h : s.CollectsBy p name changes) :
    s.HasList name.toList :=
  (h (.ofContent [] p.tag.content) []).imp fun _ h => h.1

/-- The elements within an element are read as the changes of their names. -/
theorem matches_children (parent : Tag) (scope : Scope)
    (hknows : s.Knows attributes (lists.map Prod.fst)) (htext : s.field? textKey = none)
    (hsingle : ∀ name ∈ attributes, ∃ read, s.field? (attributeKeyOf name) = some (.single read))
    (hcollects : ∀ f ∈ lists, s.CollectsBy p f.1 f.2) :
    Part.Matches Node.named s.HasList (s.Collects parent) (Part.under String.toList lists)
      (p.inside scope) where
  known x hx := by
    obtain ⟨f, hf, change, -, rfl⟩ := Part.mem_under.mp hx
    exact hasList_of_collectsBy (hcollects f hf)
  reads key hlist := by
    obtain ⟨read, hfield⟩ := hlist
    rcases hknows.key key (by rw [hfield]; rfl) with rfl | ⟨name, hname, rfl⟩ | ⟨name, hname, rfl⟩
    · rw [htext] at hfield
      cases hfield
    · obtain ⟨read', hsingle⟩ := hsingle name hname
      cases hsingle.symm.trans hfield
    · obtain ⟨f, hf, rfl⟩ := List.mem_map.mp hname
      obtain ⟨read', hfield', hmade⟩ := hcollects f hf parent scope
      rw [Part.filter_under (fun _ _ h => String.toList_inj.mp h) hknows.nodup_children hf,
        Piece.filter_named_inside, List.forall₂_map_left_iff, List.forall₂_map_right_iff]
      refine hmade.imp fun change c hmade read'' hfield'' => ?_
      rwa [Field.list.inj (Option.some.inj (hfield''.symm.trans hfield'))]

/-- Lists of elements are read whatever their order, and whatever else is between them. -/
theorem readChildren_children (parent : Tag) (scope : Scope) {q : Progress σ}
    (hkeeps : p.Keeps attributes (lists.map Prod.fst))
    (hknows : s.Knows attributes (lists.map Prod.fst)) (htext : s.field? textKey = none)
    (hsingle : ∀ name ∈ attributes, ∃ read, s.field? (attributeKeyOf name) = some (.single read))
    (hcollects : ∀ f ∈ lists, s.CollectsBy p f.1 f.2) (hindependent : Part.Independent lists)
    (hnew : ∀ f ∈ lists, f.1.toList ∉ q.seen) :
    ∃ seen, s.readChildren parent .closed q (p.inside scope) =
        .ok ⟨Part.applyFields lists q.value, seen⟩ ∧ q.seen ⊆ seen := by
  rw [← @Part.applyAll_under _ String.toList]
  refine readChildren_parts hindependent.commuting htext (p.sound_inside scope) ?_
    (matches_children parent scope hknows htext hsingle hcollects) ?_
  · intro n hn
    rcases List.mem_append.mp hn with hn | hn
    · rcases Piece.mem_nodes hn with ⟨cs, rfl⟩ | ⟨c, hc, rfl⟩
      · trivial
      · refine listed_node scope hc hkeeps hknows htext fun name hname => ?_
        obtain ⟨f, hf, rfl⟩ := List.mem_map.mp hname
        exact hasList_of_collectsBy (hcollects f hf)
    · obtain ⟨cs, -, rfl⟩ := List.mem_map.mp hn
      trivial
  · intro x hx
    obtain ⟨f, hf, change, -, rfl⟩ := Part.mem_under.mp hx
    exact hnew f hf

end Schema

namespace Piece

variable {τ : Type} {expected text : String} {v : σ}

/-- An element as the source of a value, within a parent. -/
def source (p : Piece) (parent : Tag) (scope : Scope) : Source :=
  .element parent (.ofContent scope p.tag.content)
    (p.inside (Tag.ofContent scope p.tag.content).scope) .closed

/-- An element that is read as a value, wherever it stands. -/
def Gives (p : Piece) (read : Source → Except Fault τ) (v : τ) : Prop :=
  ∀ parent scope, read (p.source parent scope) = .ok v

/-- An element that holds a text, and nothing else. -/
def Holds (p : Piece) (text : String) : Prop := p.body = [] ∧ p.back.content.getD [] = text.toList

lemma Holds.inside_eq (h : p.Holds text) (scope : Scope) : p.inside scope = p.back.nodes := by
  rw [inside, h.1]
  rfl

theorem Holds.gives_string (h : p.Holds text) : p.Gives Source.string text := by
  intro parent scope
  have htext : ∀ tag, readText tag p.back.nodes .closed = .ok (p.back.content.getD []) := by
    intro tag
    unfold Prose.nodes
    cases p.back.content <;> rfl
  unfold source Source.string Source.text?
  dsimp only
  rw [h.inside_eq, htext, h.2]
  simp [String.ofList_toList]

/-- The root of a document is read behind white space. -/
theorem Gives.readRoot {fault : Option Fault} (h : p.Gives (Source.record s start expected) v)
    (hfront : ∀ cs ∈ p.front.content, cs.all Text.isBlank) (more : List Node) :
    s.readRoot start expected fault (p.front.nodes ++ p.node [] :: more) = .ok v := by
  have hroot : s.readRoot start expected fault (p.node [] :: more) = .ok v := by
    rw [node_eq, Schema.readRoot, check_ofContent]
    exact h (.ofContent [] p.tag.content) []
  unfold Prose.nodes
  cases hcontent : p.front.content with
  | none => exact hroot
  | some cs =>
    have hblank := hfront cs hcontent
    rw [Option.toList_some, List.map_singleton, List.singleton_append, Schema.readRoot]
    simp only [resolved, Except.mapError, bind, Except.bind]
    rw [if_pos hblank, hroot]

/-- A record is read from its attributes and its lists of elements, whatever their order and
whatever is between them. -/
theorem gives_record (sets lists : List (String × List (σ → σ)))
    (hkeeps : p.Keeps (sets.map Prod.fst) (lists.map Prod.fst))
    (hknows : s.Knows (sets.map Prod.fst) (lists.map Prod.fst)) (htext : s.field? textKey = none)
    (hsets : ∀ f ∈ sets, s.SetsBy p f.1 f.2) (hindependent : Part.Independent sets)
    (hcollects : ∀ f ∈ lists, s.CollectsBy p f.1 f.2) (hindependent' : Part.Independent lists)
    (hrequired : ∀ key ∈ s.required, ∃ f ∈ sets, p.values f.1 ≠ [] ∧
      key.toList = Schema.attributeKeyOf f.1)
    (hv : Part.applyFields lists (Part.applyFields sets start) = v) :
    p.Gives (Source.record s start expected) v := by
  subst hv
  intro parent scope
  obtain ⟨scope', htag⟩ := p.tag.exists_ofContent scope
  obtain ⟨seen, hattributes, hseen⟩ :=
    Schema.readAttributes_values start hkeeps hknows hsets hindependent
  have hnew : ∀ f ∈ lists, f.1.toList ∉ seen := by
    intro f hf hmem
    obtain ⟨other, -, -, heq⟩ := (hseen f.1.toList).mp hmem
    exact (hknows.plain f.1 (List.mem_append_right _ (List.mem_map_of_mem hf))).2
      (heq ▸ List.mem_cons_self)
  have hsingle : ∀ name ∈ sets.map Prod.fst, ∃ read,
      s.field? (Schema.attributeKeyOf name) = some (.single read) := by
    intro name hname
    obtain ⟨f, hf, rfl⟩ := List.mem_map.mp hname
    exact (hsets f hf).imp fun read h => h.1
  obtain ⟨seen', hchildren, hsubset⟩ :=
    Schema.readChildren_children (Tag.ofContent scope p.tag.content)
      (Tag.ofContent scope p.tag.content).scope (q := ⟨Part.applyFields sets start, seen⟩) hkeeps
      hknows htext hsingle hcollects hindependent' hnew
  refine Schema.read_of_required (by rw [htag]) (by rw [htag]; exact hattributes) hchildren
    fun key hkey => hsubset ?_
  exact (hseen key.toList).mpr (hrequired key hkey)

/-- A record of a text is read from the text and from its attributes. -/
theorem Holds.gives_record {put : σ → σ} {read : Source → Except Fault (σ → σ)} (h : p.Holds text)
    (sets : List (String × List (σ → σ))) (htelling : ¬ text.toList.all Text.isBlank)
    (hkeeps : p.Keeps (sets.map Prod.fst) []) (hknows : s.Knows (sets.map Prod.fst) [])
    (hsets : ∀ f ∈ sets, s.SetsBy p f.1 f.2) (hindependent : Part.Independent sets)
    (hfield : s.field? textKey = some (.single read)) (hread : read (.text text.toList) = .ok put)
    (hrequired : s.required = ["$text"]) (hv : put (Part.applyFields sets start) = v) :
    p.Gives (Source.record s start expected) v := by
  subst hv
  intro parent scope
  obtain ⟨scope', htag⟩ := p.tag.exists_ofContent scope
  obtain ⟨seen, hattributes, hseen⟩ :=
    Schema.readAttributes_values start hkeeps hknows hsets hindependent
  have hnodes : p.back.nodes = [.text (.ok text.toList)] := by
    unfold Prose.nodes
    cases hcontent : p.back.content with
    | none =>
      have hnone := h.2
      rw [hcontent, Option.getD_none] at hnone
      exact absurd (by rw [← hnone]; rfl) htelling
    | some cs =>
      have hsome := h.2
      rw [hcontent, Option.getD_some] at hsome
      rw [hsome]
      rfl
  have hnew : textKey ∉ seen := by
    intro hmem
    obtain ⟨name, -, -, heq⟩ := (hseen textKey).mp hmem
    cases heq
  have hchildren := Schema.readChildren_telling (.ofContent scope p.tag.content)
    (p := ⟨Part.applyFields sets start, seen⟩) htelling hfield hnew hread
  rw [← hnodes, ← h.inside_eq (Tag.ofContent scope p.tag.content).scope] at hchildren
  refine Schema.read_of_required (by rw [htag]) (by rw [htag]; exact hattributes) hchildren
    fun key hkey => ?_
  rw [hrequired, List.mem_singleton] at hkey
  rw [hkey]
  exact List.mem_cons_self

end Piece
end Reading
end FeatureDepot.Markup
