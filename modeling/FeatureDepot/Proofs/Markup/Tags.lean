import FeatureDepot.Proofs.Markup.Growth
import Mathlib.Data.List.TakeWhile

/-! Tags as they stand in a document: a name and attributes with white space between them. However a
tag is spelled, its name, its attributes and their values are read from it. -/
namespace FeatureDepot.Markup

variable {c : Char} {name raw v b rest gap : List Char}

/-- An attribute that binds no prefix, or binds one as namespaces allow. -/
def Attribute.Bindable (a : Attribute) : Prop :=
  ∀ pre ∈ Scope.bound? a, if pre = "xml".toList then a.value = Scope.xmlName
    else pre ≠ "xmlns".toList ∧ a.value ≠ Scope.xmlName ∧ a.value ≠ Scope.xmlnsName

lemma Scope.exists_bind {a : Attribute} (h : a.Bindable) (scope : Scope) :
    ∃ scope', scope.bind a = .ok scope' := by
  unfold Scope.bind
  split
  next => exact ⟨scope, rfl⟩
  next pre hpre =>
    have hbind := h pre hpre
    split at hbind
    next hxml =>
      rw [if_pos hxml, if_pos hbind]
      exact ⟨scope, rfl⟩
    next hxml =>
      rw [if_neg hxml, if_neg hbind.1, if_neg hbind.2.1, if_neg hbind.2.2]
      exact ⟨_, rfl⟩

lemma Scope.exists_bindAll {as : List Attribute} (h : ∀ a ∈ as, a.Bindable) (scope : Scope) :
    ∃ scope', scope.bindAll as = (scope', none) := by
  induction as generalizing scope with
  | nil => exact ⟨scope, rfl⟩
  | cons a as ih =>
    obtain ⟨next, hnext⟩ := Scope.exists_bind (h a List.mem_cons_self) scope
    rw [bindAll, hnext]
    exact ih (fun a' ha' => h a' (List.mem_cons_of_mem a ha')) next

/-- An attribute as it stands in a tag, with white space in front of it and around the equals
sign. -/
structure AttributeText where
  gap : List Char
  name : List Char
  before : List Char
  after : List Char
  quote : Char
  raw : List Char
  value : List Char
  gap_ne_nil : gap ≠ []
  blank_gap : ∀ c ∈ gap, Text.isBlank c
  isTagName : IsTagName name
  blank_before : ∀ c ∈ before, Text.isBlank c
  blank_after : ∀ c ∈ after, Text.isBlank c
  isQuote : quote = '"' ∨ quote = '\''
  not_mem_raw : quote ∉ raw
  spells : SpellsValue raw value
  bindable : (Attribute.mk name raw).Bindable

namespace AttributeText

/-- The attribute that is read from it. -/
def read (a : AttributeText) : Attribute := ⟨a.name, a.raw⟩

def text (a : AttributeText) : List Char :=
  a.gap ++ (a.name ++ (a.before ++ '=' :: (a.after ++ (a.quote :: a.raw ++ [a.quote]))))

lemma exists_text_eq (a : AttributeText) : ∃ front, a.text = front ++ [a.quote] :=
  ⟨a.gap ++ (a.name ++ (a.before ++ '=' :: (a.after ++ a.quote :: a.raw))), by simp [text]⟩

lemma dropWhile_blank (hgap : ∀ c ∈ gap, Text.isBlank c) (rest : List Char) :
    (gap ++ rest).dropWhile Text.isBlank = rest.dropWhile Text.isBlank :=
  List.dropWhile_append_of_pos hgap

/-- What does not begin with a character is not passed over for it. -/
theorem takeWhile_dropWhile_of_head? {p : Char → Bool} {cs : List Char}
    (h : ∀ c ∈ cs.head?, p c = false) :
    cs.takeWhile p = [] ∧ cs.dropWhile p = cs := by
  cases cs with
  | nil => exact ⟨rfl, rfl⟩
  | cons c cs =>
    have hc := h c rfl
    exact ⟨List.takeWhile_cons_of_neg (by simp [hc]), List.dropWhile_cons_of_neg (by simp [hc])⟩

lemma isBlank_quote (a : AttributeText) : Text.isBlank a.quote = false := by
  rcases a.isQuote with h | h <;> rw [h] <;> rfl

/-- One attribute is read from its text, if there was none of its name before. -/
theorem step_text (a : AttributeText) {position : List Char → Nat}
    {previous? : List Char → Option Nat} {c : Char} {cs : List Char} (hname : a.name = c :: cs)
    (hnone : previous? a.name = none) (rest : List Char) :
    Attribute.step position previous? c
      (cs ++ (a.before ++ '=' :: (a.after ++ (a.quote :: a.raw ++ [a.quote]) ++ rest))) =
      .ok (a.read, rest) := by
  have hinside : ∀ d ∈ cs, (!Attribute.isNameEnd d) = true := by
    intro d hd
    have hd : isNameChar d := a.isTagName.2 d (hname ▸ List.mem_cons_of_mem c hd)
    have hne : d ≠ '=' := isNameChar_ne hd rfl
    simp [Attribute.isNameEnd, not_isBlank_of_isNameChar hd, hne]
  have hend : ∀ rest : List Char,
      (a.before ++ '=' :: rest).takeWhile (!Attribute.isNameEnd ·) = [] ∧
      (a.before ++ '=' :: rest).dropWhile (!Attribute.isNameEnd ·) = a.before ++ '=' :: rest := by
    refine fun rest => takeWhile_dropWhile_of_head? fun d hd => ?_
    cases hbefore : a.before with
    | nil =>
      rw [hbefore] at hd
      obtain rfl : '=' = d := Option.some.inj hd
      rfl
    | cons e es =>
      rw [hbefore] at hd
      obtain rfl : e = d := Option.some.inj hd
      simp [Attribute.isNameEnd, a.blank_before e (hbefore ▸ List.mem_cons_self)]
  have hequals : (a.before ++ '=' :: (a.after ++ (a.quote :: a.raw ++ [a.quote]) ++ rest)).dropWhile
      Text.isBlank = '=' :: (a.after ++ (a.quote :: a.raw ++ [a.quote]) ++ rest) := by
    rw [dropWhile_blank a.blank_before]
    rfl
  have hvalue : (a.after ++ (a.quote :: a.raw ++ [a.quote]) ++ rest).dropWhile Text.isBlank =
      a.quote :: (a.raw ++ a.quote :: rest) := by
    rw [List.append_assoc, dropWhile_blank a.blank_after, List.cons_append, List.cons_append,
      List.dropWhile_cons_of_neg (by simp [a.isBlank_quote]), List.append_assoc,
      List.singleton_append]
  unfold Attribute.step
  rw [List.takeWhile_append_of_pos hinside, List.dropWhile_append_of_pos hinside, (hend _).1,
    (hend _).2, hequals]
  simp only [List.append_nil, ← hname, hnone, hvalue]
  rw [if_pos a.isQuote, Text.cutFirst?_append a.not_mem_raw]
  rfl

/-- Names that are new stay so when another name has been seen. -/
theorem lookup_cons_of_nodup {a : AttributeText} {as : List AttributeText}
    {seen : List (List Char × Nat)} (position : Nat)
    (h : ((a :: as).map (·.name)).Nodup ∧ ∀ b ∈ a :: as, seen.lookup b.name = none) :
    (as.map (·.name)).Nodup ∧ ∀ b ∈ as, ((a.read.name, position) :: seen).lookup b.name = none := by
  obtain ⟨hnodup, hseen⟩ := h
  rw [List.map_cons, List.nodup_cons] at hnodup
  refine ⟨hnodup.2, fun b hb => ?_⟩
  have hne : b.name ≠ a.read.name := fun heq => hnodup.1 (List.mem_map.mpr ⟨b, hb, heq⟩)
  rw [List.lookup_cons, beq_false_of_ne hne]
  exact hseen b (List.mem_cons_of_mem a hb)

/-- All attributes are read, if their names are different. -/
theorem scanFrom_text (total : Nat) (distinct : Bool) (as : List AttributeText)
    (seen : List (List Char × Nat))
    (hnew : distinct = true → (as.map (·.name)).Nodup ∧ ∀ a ∈ as, seen.lookup a.name = none)
    (hgap : ∀ c ∈ gap, Text.isBlank c) :
    Attribute.scanFrom total distinct seen (as.flatMap text ++ gap) = (as.map read, none) := by
  induction as generalizing seen with
  | nil =>
    have hend : (gap.dropWhile Text.isBlank) = [] := List.dropWhile_eq_nil_iff.mpr hgap
    rw [List.flatMap_nil, List.nil_append, Attribute.scanFrom]
    split
    next => rfl
    next h => rw [hend] at h; cases h
  | cons a as ih =>
    obtain ⟨c, cs, hname⟩ := List.exists_cons_of_ne_nil a.isTagName.1
    have hc : Text.isBlank c = false :=
      not_isBlank_of_isNameChar (a.isTagName.2 c (hname ▸ List.mem_cons_self))
    have hfirst : ((a :: as).flatMap text ++ gap).dropWhile Text.isBlank =
        c ::
          (cs ++ (a.before ++ '=' ::
            (a.after ++ (a.quote :: a.raw ++ [a.quote]) ++ (as.flatMap text ++ gap)))) := by
      rw [List.flatMap_cons, text, List.append_assoc, List.append_assoc,
        dropWhile_blank a.blank_gap, hname]
      simp [List.dropWhile_cons_of_neg, hc]
    have hnone : ∀ position : Nat,
        (fun name => if distinct then seen.lookup name else none) a.name = none := by
      intro _
      cases hdistinct : distinct with
      | false => rfl
      | true => exact (hnew hdistinct).2 a List.mem_cons_self
    rw [Attribute.scanFrom]
    split
    next h => rw [hfirst] at h; cases h
    next c' rest h =>
      obtain ⟨rfl, rfl⟩ := List.cons.inj (hfirst.symm.trans h)
      dsimp only
      split
      next fault hfault =>
        rw [step_text a hname (hnone 0)] at hfault
        cases hfault
      next a' next hok =>
        rw [step_text a hname (hnone 0)] at hok
        obtain ⟨rfl, rfl⟩ := Prod.mk.inj (Except.ok.inj hok)
        rw [ih _ fun hdistinct => lookup_cons_of_nodup _ (hnew hdistinct)]
        rfl

end AttributeText

/-- A tag as it stands in a document, between its angle brackets. -/
structure TagText where
  name : List Char
  attributes : List AttributeText
  gap : List Char
  isTagName : IsTagName name
  nodup : (attributes.map (·.name)).Nodup
  blank_gap : ∀ c ∈ gap, Text.isBlank c

namespace TagText
open Token

def content (t : TagText) : List Char :=
  t.name ++ (t.attributes.flatMap AttributeText.text ++ t.gap)

theorem exists_content (t : TagText) : ∃ c cs, t.content = c :: cs ∧ isNameChar c := by
  obtain ⟨c, cs, hname⟩ := List.exists_cons_of_ne_nil t.isTagName.1
  have hc : isNameChar c := t.isTagName.2 c (hname ▸ List.mem_cons_self)
  refine ⟨c, cs ++ (t.attributes.flatMap AttributeText.text ++ t.gap), ?_, hc⟩
  rw [content, hname, List.cons_append]

theorem fits_content (t : TagText) (hb : Fits b) : Fits (t.content ++ b) := by
  have hgap : Fits (t.gap ++ b) := hb.behind (forall_not_end fun c hc => .inr (t.blank_gap c hc))
  have hvalues : Fits (t.attributes.flatMap AttributeText.text ++ (t.gap ++ b)) := by
    induction t.attributes with
    | nil => exact hgap
    | cons a as ih =>
      have hquoted := ih.quoted a.isQuote a.not_mem_raw
      have hbehind := hquoted.behind (a := a.gap ++ (a.name ++ (a.before ++ ['='] ++ a.after))) ?_
      · rw [List.flatMap_cons, AttributeText.text]
        simpa using hbehind
      · have hpart : ∀ c ∈ a.gap ++ (a.name ++ (a.before ++ a.after)),
            c ≠ '>' ∧ c ≠ '"' ∧ c ≠ '\'' := by
          refine forall_not_end fun c hc => ?_
          simp only [List.mem_append] at hc
          rcases hc with hc | hc | hc | hc
          · exact .inr (a.blank_gap c hc)
          · exact .inl (a.isTagName.2 c hc)
          · exact .inr (a.blank_before c hc)
          · exact .inr (a.blank_after c hc)
        intro c hc
        by_cases hequals : c = '='
        · rw [hequals]
          decide
        · refine hpart c ?_
          simpa [hequals] using hc
  rw [content, List.append_assoc, List.append_assoc]
  exact hvalues.behind (forall_not_end fun c hc => .inl (t.isTagName.2 c hc))

theorem getLast?_content (t : TagText) : t.content.getLast? ≠ some '/' := by
  rcases List.eq_nil_or_concat t.gap with hgap | ⟨front, last, hgap⟩
  · rcases List.eq_nil_or_concat t.attributes with hnone | ⟨front, a, hattributes⟩
    · intro h
      rw [content, hgap, hnone, List.flatMap_nil, List.append_nil, List.append_nil] at h
      exact isNameChar_ne (t.isTagName.2 '/' (List.mem_of_getLast? h)) rfl rfl
    · obtain ⟨before, hbefore⟩ := a.exists_text_eq
      have hlast : t.content.getLast? = some a.quote := by
        rw [content, hgap, hattributes, List.concat_eq_append, List.append_nil, List.flatMap_append,
          List.flatMap_singleton, hbefore, ← List.append_assoc, ← List.append_assoc,
          List.getLast?_concat]
      rw [hlast]
      rcases a.isQuote with h | h <;> rw [h] <;> decide
  · intro h
    have hlast : t.content.getLast? = some last := by
      rw [content, hgap, List.concat_eq_append]
      simp [List.getLast?_append]
    have hblank := t.blank_gap last (by simp [hgap])
    rw [hlast] at h
    rw [Option.some.inj h] at hblank
    cases hblank

/-- White space stands behind the name of a tag. -/
theorem isBlank_of_mem_head? (t : TagText) {c : Char}
    (hc : c ∈ (t.attributes.flatMap AttributeText.text ++ t.gap).head?) : Text.isBlank c := by
  cases hattributes : t.attributes with
  | nil =>
    rw [hattributes, List.flatMap_nil, List.nil_append] at hc
    exact t.blank_gap c (List.mem_of_head? hc)
  | cons a as =>
    obtain ⟨d, ds, hgap⟩ := List.exists_cons_of_ne_nil a.gap_ne_nil
    rw [hattributes, List.flatMap_cons, AttributeText.text, hgap] at hc
    obtain rfl : d = c := by simpa using hc
    exact a.blank_gap d (hgap ▸ List.mem_cons_self)

/-- What a tag says does not depend on how it is spelled. -/
theorem exists_ofContent (t : TagText) (scope : Scope) : ∃ scope', Tag.ofContent scope t.content =
    ⟨t.name, t.attributes.map AttributeText.read, none, scope', none⟩ := by
  have hname : ∀ c ∈ t.name, (!Text.isBlank c) = true := fun c hc => by
    rw [not_isBlank_of_isNameChar (t.isTagName.2 c hc)]
    rfl
  obtain ⟨hnone, hrest⟩ := AttributeText.takeWhile_dropWhile_of_head? (p := (!Text.isBlank ·))
    fun c hc => by rw [t.isBlank_of_mem_head? hc]; rfl
  have hbindable : ∀ a ∈ t.attributes.map AttributeText.read, a.Bindable := by
    intro a ha
    obtain ⟨a, -, rfl⟩ := List.mem_map.mp ha
    exact a.bindable
  have hscan : ∀ distinct, Attribute.scan (Text.size t.name) distinct
      (t.attributes.flatMap AttributeText.text ++ t.gap) =
      (t.attributes.map AttributeText.read, none) :=
    fun distinct => AttributeText.scanFrom_text _ distinct t.attributes []
      (fun _ => ⟨t.nodup, fun _ _ => rfl⟩) t.blank_gap
  obtain ⟨scope', hscope⟩ := Scope.exists_bindAll hbindable scope
  refine ⟨scope', ?_⟩
  unfold Tag.ofContent content
  rw [List.takeWhile_append_of_pos hname, List.dropWhile_append_of_pos hname, hnone, hrest,
    List.append_nil]
  simp only [hscan, hscope]

end TagText
end FeatureDepot.Markup
