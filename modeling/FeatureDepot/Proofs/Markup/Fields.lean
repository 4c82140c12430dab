import FeatureDepot.Proofs.Markup.Rendered

/-! Fields of records, and the attributes and elements that show them. -/
namespace FeatureDepot.Markup

variable {σ τ : Type} {s : Schema σ} {p : Piece} {name : String} {start : σ} {expected : String}

/-- Values that are put into a record one behind the other. -/
theorem foldl_many {add : τ → σ → σ} (put : List τ → σ → σ) (hnil : ∀ v, put [] v = v)
    (hcons : ∀ t ts v, put (t :: ts) v = put ts (add t v)) (ts : List τ) (v : σ) :
    (ts.map add).foldl (fun v change => change v) v = put ts v := by
  induction ts generalizing v with
  | nil => exact (hnil v).symm
  | cons t ts ih => rw [List.map_cons, List.foldl_cons, ih, hcons]

/-- A value that may be there is put into a record if it is. -/
theorem foldl_optional (set : Option τ → σ → σ) {v : σ} (hnone : set none v = v)
    (value? : Option τ) :
    (value?.toList.map fun t => set (some t)).foldl (fun v change => change v) v =
      set value? v := by
  cases value? with
  | none => exact hnone.symm
  | some t => rfl

lemma string_value {raw : List Char} {text : String} (h : unescape raw = .ok text.toList) :
    Source.string (.value raw) = .ok text := by
  unfold Source.string Source.text?
  dsimp only
  rw [h]
  exact congrArg Except.ok String.ofList_toList

theorem bool_value {raw cs : List Char} {flag : Bool} (h : unescape raw = .ok cs)
    (hflag : bool? (trimBlank cs) = some flag) : Source.bool (.value raw) = .ok flag := by
  unfold Source.bool Source.word Source.text?
  dsimp only
  rw [h]
  dsimp only [resolved, Except.mapError, bind, Except.bind]
  rw [hflag]

namespace Schema

/-- An attribute whose values are read one by one. -/
theorem setsBy_of_forall {read : Source → Except Fault (σ → σ)} {change : String → σ → σ}
    {texts : List String} (hfield : s.field? (attributeKeyOf name) = some (.single read))
    (hvalues : p.values name = texts)
    (hread : ∀ text ∈ texts, ∀ raw, unescape raw = .ok text.toList →
      read (.value raw) = .ok (change text)) :
    s.SetsBy p name (texts.map change) := by
  refine ⟨read, hfield, ?_⟩
  rw [hvalues, List.forall₂_map_left_iff, List.forall₂_same]
  exact hread

/-- An attribute that can be left out shows a text that may be there. -/
theorem setsBy_optional {set : Option String → σ → σ} {text? : Option String}
    (hfield : s.field? (attributeKeyOf name) = some (.optional Source.string set))
    (hvalues : p.values name = text?.toList) :
    s.SetsBy p name (text?.toList.map fun text => set (some text)) := by
  obtain ⟨read, hread, hgives⟩ := Field.exists_optional_eq Source.string set
  rw [hread] at hfield
  exact setsBy_of_forall hfield hvalues fun text _ raw hraw => hgives _ _ rfl (string_value hraw)

/-- An attribute that must be there shows a text. -/
theorem setsBy_value {set : String → σ → σ} {text : String}
    (hfield : s.field? (attributeKeyOf name) = some (.value Source.string set))
    (hvalues : p.values name = [text]) :
    s.SetsBy p name [set text] := by
  obtain ⟨read, hread, hgives⟩ := Field.exists_value_eq Source.string set
  rw [hread] at hfield
  have hsets : s.SetsBy p name ([text].map set) :=
    setsBy_of_forall hfield hvalues fun text _ raw hraw => hgives _ _ (string_value hraw)
  exact hsets

/-- Elements of a name that show values, in order. -/
theorem collectsBy_many {read : Source → Except Fault τ} {add : τ → σ → σ}
    {Shows : Piece → τ → Prop} {values : List τ}
    (hfield : s.field? name.toList = some (.many read add))
    (hshows : List.Forall₂ Shows (p.children name) values)
    (hgives : ∀ c v, Shows c v → c.Gives read v) : s.CollectsBy p name (values.map add) := by
  intro parent scope
  obtain ⟨reader, hreader, hread⟩ := Field.exists_many_eq read add
  refine ⟨reader, by rw [hfield, hreader], ?_⟩
  rw [List.forall₂_map_left_iff]
  refine hshows.flip.imp fun v c hc => ?_
  rw [Piece.node_eq]
  exact ⟨_, _, _, rfl, hread parent _ _ _ v (hgives c v hc parent scope)⟩

end Schema

/-- An element that shows a text, with some values of one attribute. -/
structure Piece.Labels (p : Piece) (name : String) (values : List String) (text : String) :
    Prop where
  keeps : p.Keeps [name] []
  values : p.values name = values
  holds : p.Holds text
  telling : ¬ text.toList.all Text.isBlank

/-- A record of a text and one attribute is read from an element that shows them. -/
theorem Piece.Labels.gives {values : List String} {text : String} {changes : List (σ → σ)}
    {put : String → σ → σ} {v : σ} (h : p.Labels name values text) (hknows : s.Knows [name] [])
    (hsets : s.SetsBy p name changes) (hfield : s.field? textKey = some (.value Source.string put))
    (hrequired : s.required = ["$text"])
    (hv : put text (changes.foldl (fun v change => change v) start) = v) :
    p.Gives (Source.record s start expected) v := by
  obtain ⟨read, hread, hgives⟩ := Field.exists_value_eq Source.string put
  rw [hread] at hfield
  have htext : Source.string (.text text.toList) = .ok text :=
    congrArg Except.ok String.ofList_toList
  exact h.holds.gives_record [(name, changes)] h.telling h.keeps hknows
    (List.forall_mem_singleton.mpr hsets) (List.pairwise_singleton _ _) hfield
    (hgives _ _ htext) hrequired hv

end FeatureDepot.Markup
