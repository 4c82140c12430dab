import FeatureDepot.Markup.Record
import FeatureDepot.Proofs.Markup.Parts
import Mathlib.Data.List.TakeWhile

/-! Records that are read from what was written: field by field, in the order in which a writer puts
them, with indentation between them. -/
namespace FeatureDepot

namespace Markup
open Written

variable {σ τ α : Type} {s : Schema σ} {parent tag : Tag} {p : Schema.Progress σ}
  {children rest : List Node} {key name content : List Char} {depth : Nat} {ws : List Written}

/-- A tag that is only a name. -/
def Tag.bare (name : List Char) : Tag := ⟨name, [], none, [], none⟩

lemma Attribute.scan_nil (size : Nat) (distinct : Bool) :
    Attribute.scan size distinct [] = ([], none) := by
  unfold scan
  rw [scanFrom]
  rfl

/-- One attribute, read as it was written. -/
theorem Attribute.scan_written (size : Nat) (distinct : Bool) (hname : IsWord name)
    (v : List Char) :
    Attribute.scan size distinct (' ' :: name ++ "=\"".toList ++ escapeValue v ++ ['"']) =
      ([⟨name, escapeValue v⟩], none) := by
  obtain ⟨c, cs, rfl⟩ := List.exists_cons_of_ne_nil hname.1
  have hc := hname.2 c List.mem_cons_self
  have hend : ∀ d ∈ cs, (!isNameEnd d) = true := by
    intro d hd
    have hletter := hname.2 d (List.mem_cons_of_mem c hd)
    rw [isNameEnd, not_isBlank_of_isAlpha hletter, Bool.or_false, Bool.not_eq_true',
      beq_eq_false_iff_ne]
    exact isAlpha_ne hletter rfl
  have hstep : ∀ position previous?, previous? (c :: cs) = none →
      step position previous? c (cs ++ '=' :: '"' :: (escapeValue v ++ ['"'])) =
        .ok (⟨c :: cs, escapeValue v⟩, []) := by
    intro position previous? hnone
    unfold step
    dsimp only
    rw [List.takeWhile_append_of_pos hend, List.dropWhile_append_of_pos hend,
      List.takeWhile_cons_of_neg (by decide), List.dropWhile_cons_of_neg (by decide),
      List.append_nil, List.dropWhile_cons_of_neg (by decide)]
    simp only [hnone]
    rw [List.dropWhile_cons_of_neg (by decide)]
    dsimp only
    rw [if_pos (by decide), Text.cutFirst?_append (not_mem_escapeValue v)]
  have htext : ' ' :: c :: cs ++ "=\"".toList ++ escapeValue v ++ ['"'] =
      ' ' :: c :: (cs ++ '=' :: '"' :: (escapeValue v ++ ['"'])) := by simp
  have hfirst : (' ' :: c :: (cs ++ '=' :: '"' :: (escapeValue v ++ ['"']))).dropWhile
      Text.isBlank = c :: (cs ++ '=' :: '"' :: (escapeValue v ++ ['"'])) := by
    rw [List.dropWhile_cons_of_pos (by decide),
      List.dropWhile_cons_of_neg (by simp [not_isBlank_of_isAlpha hc])]
  rw [htext, scan, scanFrom]
  split
  next h =>
    rw [hfirst] at h
    cases h
  next c' rest h =>
    obtain ⟨rfl, rfl⟩ := List.cons.inj (hfirst.symm.trans h)
    dsimp only
    split
    next fault hfault =>
      rw [hstep _ _ (by cases distinct <;> rfl)] at hfault
      cases hfault
    next a next' hok =>
      rw [hstep _ _ (by cases distinct <;> rfl)] at hok
      obtain ⟨rfl, rfl⟩ := Prod.mk.inj (Except.ok.inj hok)
      rw [scanFrom]
      rfl

theorem Tag.ofContent_word (hname : IsWord name) : Tag.ofContent [] name = .bare name := by
  have hblank : ∀ c ∈ name, (!Text.isBlank c) = true := fun c hc => by
    rw [not_isBlank_of_isAlpha (hname.2 c hc)]; rfl
  unfold ofContent
  rw [List.takeWhile_eq_self_iff.mpr hblank, List.dropWhile_eq_nil_iff.mpr hblank]
  simp only [Attribute.scan_nil]
  rfl

lemma localName_word (hname : IsWord name) : localName name = name :=
  localName_eq_self fun hcolon => isAlpha_ne (hname.2 ':' hcolon) rfl rfl

theorem node_leaf (hname : IsWord name) (depth : Nat) (content : List Char) :
    (leaf name content).node [] depth =
    .element (.bare name) (if content = [] then []
      else [.text (.ok (unifyLineEnds content))]) .closed := by
  rw [node, Tag.ofContent_word hname]

lemma node_branch (hname : IsWord name) (depth : Nat) (ws : List Written) :
    (branch name [] ws).node [] depth =
    .element (.bare name) (lined depth (nodes [] (depth + 1) ws)) .closed := by
  have hopening : opening name [] = name := by simp [opening]
  rw [node, hopening, Tag.ofContent_word hname]
  rfl

/-- The text of a leaf is read as it was written, up to its line ends. -/
theorem readText_leaf (tag : Tag) (content : List Char) :
    readText tag (if content = [] then [] else [.text (.ok (unifyLineEnds content))]) .closed =
      .ok (unifyLineEnds content) := by
  split
  next h =>
    subst h
    rfl
  next => rfl

lemma all_isBlank_indent (depth : Nat) : (indent depth).all Text.isBlank = true := by
  rw [indent, List.all_cons, List.all_replicate]
  split <;> rfl

namespace Schema

/-- The progress of a reader behind a field that is or is not there. -/
def Progress.take? (p : Progress σ) (key : List Char) (change? : Option (σ → σ)) : Progress σ :=
  match change? with
  | none => p
  | some change => ⟨change p.value, key :: p.seen⟩

theorem Progress.not_mem_take? {other : List Char} {change? : Option (σ → σ)} (hp : other ∉ p.seen)
    (hother : other ≠ key) : other ∉ (p.take? key change?).seen := by
  cases change? with
  | none => exact hp
  | some change => simpa [take?] using ⟨hother, hp⟩

theorem readAttributes_single {read : Source → Except Fault (σ → σ)} {change : σ → σ}
    {a : Attribute} (hfield : s.field? (attributeKey a.name) = some (.single read))
    (hseen : attributeKey a.name ∉ p.seen) (hread : read (.value a.value) = .ok change) :
    s.readAttributes none p [a] = .ok ⟨change p.value, attributeKey a.name :: p.seen⟩ := by
  have hcontains : p.seen.contains (attributeKey a.name) = false := by simpa using hseen
  rw [readAttributes, hfield]
  simp only [readSingle, hcontains, hread]
  rfl

theorem readChildren_indent :
    s.readChildren parent .closed p (.text (.ok (indent depth)) :: rest) =
      s.readChildren parent .closed p rest := by
  rw [readChildren]
  show (if (indent depth).all Text.isBlank then s.readChildren parent .closed p rest else _) = _
  rw [if_pos (all_isBlank_indent depth)]

lemma readChildren_single {read : Source → Except Fault (σ → σ)} {change : σ → σ}
    (hname : IsWord name) (hfield : s.field? name = some (.single read)) (hseen : name ∉ p.seen)
    (hread : read (.element parent (.bare name) children .closed) = .ok change) :
    s.readChildren parent .closed p (.element (.bare name) children .closed :: rest) =
      s.readChildren parent .closed ⟨change p.value, name :: p.seen⟩ rest := by
  have hlocal : localName (Tag.bare name).name = name := localName_word hname
  have hcontains : p.seen.contains name = false := by simpa using hseen
  rw [readChildren]
  simp only [hlocal, hfield, readSingle, hcontains, hread]
  rfl

/-- A field that is written at most once is read as it was written. -/
theorem readChildren_written {value : Option α} {write : α → Written} {change : α → σ → σ}
    {read : Source → Except Fault (σ → σ)} (hname : IsWord name)
    (hfield : s.field? name = some (.single read))
    (hseen : name ∉ p.seen)
    (hread : ∀ a ∈ value, ∃ children, (write a).node [] depth =
      .element (.bare name) children .closed ∧
      read (.element parent (.bare name) children .closed) = .ok (change a)) :
    s.readChildren parent .closed p (nodes [] depth (value.toList.map write) ++ rest) =
      s.readChildren parent .closed (p.take? name (value.map change)) rest := by
  cases value with
  | none => rfl
  | some a =>
    obtain ⟨children, hnode, hread⟩ := hread a rfl
    rw [Option.toList_some, List.map_singleton, nodes, nodes, hnode, List.cons_append,
      readChildren_indent, List.cons_append, readChildren_single hname hfield hseen hread]
    rfl

/-- A list takes all its elements, and leaves the text between them. -/
theorem gather_written (parent : Tag) (depth : Nat)
    {read : (tag : Tag) → List Node → Ending → Except Fault (σ → σ)}
    {add : List Char → σ → σ} (hname : IsWord name)
    (hread : ∀ content, read (.bare name) (if content = [] then []
      else [.text (.ok (unifyLineEnds content))]) .closed =
      .ok (add content)) (contents : List (List Char)) (value : σ) :
    gather parent name read value
      (nodes [] (depth + 1) (contents.map (leaf name)) ++ [.text (.ok (indent depth))]) =
      .ok (contents.foldl (fun value content => add content value) value,
        contents.map (fun _ => .text (.ok (indent (depth + 1)))) ++
          [.text (.ok (indent depth))]) := by
  induction contents generalizing value with
  | nil => rfl
  | cons content contents ih =>
    have htag : (Tag.bare name).name = name := rfl
    have htouch : touch parent.name (.text (.ok (indent (depth + 1)))) = .ok () := by
      rw [touch]
      rfl
    have hcheck : (Tag.bare name).check = .ok () := rfl
    rw [List.map_cons, nodes, node_leaf hname, List.cons_append, List.cons_append, gather, gather,
      if_pos htag, hread, htouch, hcheck]
    simp only [bind, Except.bind]
    rw [ih]
    rfl

lemma readChildren_texts {texts : List Nat} :
    s.readChildren parent .closed p (texts.map fun depth => .text (.ok (indent depth))) =
      .ok p := by
  induction texts with
  | nil => exact readChildren_nil
  | cons depth texts ih => rw [List.map_cons, readChildren_indent, ih]

/-- A record that is nothing but a list. -/
theorem readChildren_list (depth : Nat)
    {read : (parent tag : Tag) → List Node → Ending → Except Fault (σ → σ)}
    {add : List Char → σ → σ} (hname : IsWord name) (hfield : s.field? name = some (.list read))
    (hseen : name ∉ p.seen)
    (hread : ∀ content, read parent (.bare name)
      (if content = [] then [] else [.text (.ok (unifyLineEnds content))]) .closed =
        .ok (add content))
    (content : List Char) (contents : List (List Char)) :
    s.readChildren parent .closed p
        (nodes [] (depth + 1) ((content :: contents).map (leaf name)) ++
          [.text (.ok (indent depth))]) =
        .ok ⟨(content :: contents).foldl (fun value content => add content value) p.value,
          name :: p.seen⟩ := by
  have hlocal : localName (Tag.bare name).name = name := localName_word hname
  have hcontains : p.seen.contains name = false := by simpa using hseen
  have hgather := gather_written parent depth hname hread contents (add content p.value)
  rw [List.map_cons, nodes, node_leaf hname, List.cons_append, List.cons_append,
    readChildren_indent, readChildren]
  simp only [hlocal, hfield, hcontains, hread]
  simp only [bind, Except.bind, Tag.check, Tag.bare]
  rw [if_neg (by decide)]
  split
  next fault hfault => cases hgather.symm.trans hfault
  next value left hok =>
    obtain ⟨rfl, rfl⟩ := Prod.mk.inj (Except.ok.inj (hgather.symm.trans hok))
    have hleft : contents.map (fun _ => Node.text (.ok (indent (depth + 1)))) ++
        [.text (.ok (indent depth))] =
        (contents.map (fun _ => depth + 1) ++ [depth]).map fun depth =>
          Node.text (.ok (indent depth)) := by simp
    rw [hleft]
    exact readChildren_texts

end Schema

theorem isNil_bare (name : List Char) (scope : Scope) : (Tag.bare name).isNil scope = false := rfl

/-- Nothing is declared to be absent by a tag without attributes. -/
theorem isAbsent_bare {ending : Ending} (hparent : ∀ scope, parent.isNil scope = false)
    (name : List Char) (children : List Node) :
    (Source.element parent (.bare name) children ending).isAbsent = false := by
  have habsent : (Source.element parent (.bare name) children ending).isAbsent =
      (parent.isNil [] || (Tag.bare name).isNil []) := rfl
  rw [habsent, hparent, isNil_bare, Bool.or_false]

theorem nodes_append (scope : Scope) (depth : Nat) (ws ws' : List Written) :
    nodes scope depth (ws ++ ws') = nodes scope depth ws ++ nodes scope depth ws' := by
  induction ws with
  | nil => rfl
  | cons w ws ih => rw [List.cons_append, nodes, nodes, ih, List.cons_append, List.cons_append]

lemma trimBlank_eq_self {cs : List Char} (h : ∀ c ∈ cs, Text.isBlank c = false) :
    trimBlank cs = cs := by
  have hdrop : ∀ {cs : List Char}, (∀ c ∈ cs, Text.isBlank c = false) →
      cs.dropWhile Text.isBlank = cs := by
    intro cs h
    cases cs with
    | nil => rfl
    | cons c cs => exact List.dropWhile_cons_of_neg (by simp [h c List.mem_cons_self])
  unfold trimBlank
  rw [hdrop h, hdrop fun c hc => h c (List.mem_reverse.mp hc), List.reverse_reverse]

/-- A word is read back: it has no white space to be trimmed off. -/
theorem word_leaf {α : Type} {parse? : List Char → Option α} {a : α} {text : List Char}
    (expected : String) (htext : ∀ c ∈ text, IsInLine c ∧ Text.isBlank c = false)
    (hparse : parse? text = some a) (parent tag : Tag) :
    Source.word parse? expected (.element parent tag
      (if text = [] then [] else [.text (.ok (unifyLineEnds text))]) .closed) = .ok a := by
  have hread : Source.text? (.element parent tag
      (if text = [] then [] else [.text (.ok (unifyLineEnds text))]) .closed) =
    .ok (unifyLineEnds text) :=
    readText_leaf tag text
  unfold Source.word
  rw [hread, unifyLineEnds_eq_self fun c hc => (htext c hc).1]
  simp only [bind, Except.bind]
  rw [trimBlank_eq_self fun c hc => (htext c hc).2, hparse]

lemma word32?_toString (n : UInt32) : word32? (toString n.toNat : String).toList = some n := by
  have hword := Text.word?_toString n
  have hdigits : (toString n.toNat : String).toList = Nat.toDigits 10 n.toNat := Nat.toList_repr
  rw [hdigits] at hword ⊢
  unfold word32?
  split
  next digits heq =>
    have hplus : '+' ∈ Nat.toDigits 10 n.toNat := heq ▸ List.mem_cons_self
    have hdigit := Nat.isDigit_of_mem_toDigits (by decide) (by decide) hplus
    exact absurd hdigit (by decide)
  next => exact hword

theorem word32_leaf (n : UInt32) (parent tag : Tag) : Source.word32 (.element parent tag
    (if (toString n.toNat : String).toList = [] then [] else
      [.text (.ok (unifyLineEnds (toString n.toNat : String).toList))]) .closed) = .ok n := by
  refine word_leaf "u32" (fun c hc => ?_) (word32?_toString n) parent tag
  have hdigits : (toString n.toNat : String).toList = Nat.toDigits 10 n.toNat := Nat.toList_repr
  have hdigit := Nat.isDigit_of_mem_toDigits (by decide) (by decide) (hdigits ▸ hc)
  have hne : ∀ d : Char, d.isDigit = false → c ≠ d := by
    rintro d hd rfl
    rw [hdigit] at hd
    cases hd
  refine ⟨⟨hne _ rfl, hne _ rfl, hne _ rfl⟩, ?_⟩
  simp [Text.isBlank, hne]

theorem bool_leaf (b : Bool) (parent tag : Tag) : Source.bool (.element parent tag
    (if (if b then "true" else "false").toList = [] then [] else
      [.text (.ok (unifyLineEnds (if b then "true" else "false").toList))]) .closed) = .ok b := by
  have hwords : ∀ c ∈ (if b then "true" else "false").toList, c.isAlpha := by cases b <;> decide
  refine word_leaf "a boolean" (fun c hc => ?_) (by cases b <;> rfl) parent tag
  have hc := hwords c hc
  exact ⟨⟨isAlpha_ne hc rfl, isAlpha_ne hc rfl, isAlpha_ne hc rfl⟩, not_isBlank_of_isAlpha hc⟩

theorem string_leaf (parent tag : Tag) (content : List Char) : Source.string (.element parent tag
    (if content = [] then [] else [.text (.ok (unifyLineEnds content))]) .closed) =
      .ok (String.ofList (unifyLineEnds content)) := by
  have htext : Source.text? (.element parent tag
      (if content = [] then [] else [.text (.ok (unifyLineEnds content))]) .closed) =
    .ok (unifyLineEnds content) :=
    readText_leaf tag content
  unfold Source.string
  rw [htext]
  rfl

namespace Schema

variable {value : Option α} {write : α → Written} {view : α → τ} {read : Source → Except Fault τ}

theorem readChildren_optional {set : Option τ → σ → σ} (hname : IsWord name)
    (hfield : s.field? name = some (.optional read set))
    (hparent : ∀ scope, parent.isNil scope = false)
    (hseen : name ∉ p.seen)
    (hread : ∀ a ∈ value, ∃ children, (write a).node [] depth =
      .element (.bare name) children .closed ∧
      read (.element parent (.bare name) children .closed) = .ok (view a)) :
    s.readChildren parent .closed p (nodes [] depth (value.toList.map write) ++ rest) =
      s.readChildren parent .closed
        (p.take? name (value.map fun a => set (some (view a)))) rest := by
  obtain ⟨reader, hreader, hreads⟩ := Field.exists_optional_eq read set
  refine readChildren_written hname (hreader ▸ hfield) hseen fun a ha => ?_
  obtain ⟨children, hnode, hvalue⟩ := hread a ha
  exact ⟨children, hnode, hreads _ _ (isAbsent_bare hparent name children) hvalue⟩

theorem readChildren_value {set : τ → σ → σ} (hname : IsWord name)
    (hfield : s.field? name = some (.value read set)) (hseen : name ∉ p.seen)
    (hread : ∀ a ∈ value, ∃ children, (write a).node [] depth =
      .element (.bare name) children .closed ∧
      read (.element parent (.bare name) children .closed) = .ok (view a)) :
    s.readChildren parent .closed p (nodes [] depth (value.toList.map write) ++ rest) =
      s.readChildren parent .closed (p.take? name (value.map fun a => set (view a))) rest := by
  obtain ⟨reader, hreader, hreads⟩ := Field.exists_value_eq read set
  refine readChildren_written hname (hreader ▸ hfield) hseen fun a ha => ?_
  obtain ⟨children, hnode, hvalue⟩ := hread a ha
  exact ⟨children, hnode, hreads _ _ hvalue⟩

/-- The line behind the last element makes no difference. -/
theorem readChildren_lined (inside : List Node) :
    s.readChildren parent .closed p (lined depth inside) =
    s.readChildren parent .closed p (inside ++ [.text (.ok (indent depth))]) := by
  cases inside with
  | nil => exact readChildren_indent.symm
  | cons node inside => rfl

theorem read_eq_ok {start : σ} {q : Schema.Progress σ} {ending : Ending}
    (hrequired : s.required = [])
    (hattributes : s.readAttributes tag.fault ⟨start, []⟩ tag.attributes = .ok p)
    (hchildren : s.readChildren tag ending p children = .ok q) :
    s.read start tag children ending = .ok q.value := by
  unfold Schema.read
  rw [hattributes]
  simp only [bind, Except.bind, hchildren, hrequired, List.find?_nil]

/-- A record without attributes is read from its children. -/
theorem exists_record {τ : Type} {schema : Schema τ} {start : τ} {q : Schema.Progress τ}
    {name : List Char} (parent : Tag)
    (expected : String) (hname : IsWord name) (hrequired : schema.required = [])
    (h : schema.readChildren (.bare name) .closed ⟨start, []⟩
      (nodes [] (depth + 1) ws ++ [.text (.ok (indent depth))]) = .ok q) :
    ∃ children, (branch name [] ws).node [] depth = .element (.bare name) children .closed ∧
      Source.record schema start expected (.element parent (.bare name) children .closed) =
        .ok q.value := by
  rw [← readChildren_lined] at h
  exact ⟨_, node_branch hname depth ws, read_eq_ok hrequired rfl h⟩

theorem readRoot_indent {start : σ} {expected : String} {fault : Option Fault} :
    s.readRoot start expected fault (.text (.ok (indent depth)) :: rest) =
      s.readRoot start expected fault rest := by
  rw [readRoot]
  show (if (indent depth).all Text.isBlank then s.readRoot start expected fault rest else _) = _
  rw [if_pos (all_isBlank_indent depth)]

end Schema
end Markup
end FeatureDepot
