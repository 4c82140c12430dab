import FeatureDepot.Location
import FeatureDepot.Proofs.Path.Place

/-! The grammars of both notations. What is read from a text is what the text is written from: a
text is an mvn URL, or coordinates, if and only if there are well-formed parts that it is the text
of, and there is one way to cut it. -/
namespace FeatureDepot

/-- What is not the separator of some parts is in one of them. -/
lemma mem_iff_exists_mem_splitOn {c sep : Char} (hc : c ≠ sep) (cs : List Char) :
    c ∈ cs ↔ ∃ part ∈ cs.splitOn sep, c ∈ part := by
  induction cs with
  | nil => simp
  | cons d cs ih =>
    rw [List.mem_cons, ih, List.splitOn_cons_eq_if_modifyHead]
    by_cases hd : d = sep
    · simp [hd, hc]
    · obtain ⟨first, rest, hsplit⟩ := List.exists_cons_of_ne_nil (List.splitOn_ne_nil sep cs)
      simp [hd, hsplit, or_assoc]

/-- What is neither in some parts nor between them is not in their text. -/
lemma not_mem_intercalate {c sep : Char} (hc : c ≠ sep) {parts : List (List Char)}
    (hparts : ∀ part ∈ parts, c ∉ part) : c ∉ [sep].intercalate parts := by
  induction parts with
  | nil => simp
  | cons first rest ih =>
    obtain ⟨hfirst, hrest⟩ := List.forall_mem_cons.mp hparts
    by_cases hnil : rest = []
    · simpa [hnil] using hfirst
    · rw [List.intercalate_cons_of_ne_nil hnil]
      simp [hfirst, hc, ih hrest]

@[simp] theorem Wrapper.text_none : Wrapper.none.text = [] := rfl

namespace MvnUrl

variable {cs rest type : List Char} {parts : List (List Char)} {wrapper : Wrapper} {u : MvnUrl}
  {packaging : Option Packaging} {q : Option (List Char)}

theorem isName_iff : isName cs ↔ cs ≠ [] ∧ '/' ∉ cs ∧ ' ' ∉ cs := by
  simp [isName, and_assoc]

theorem isVersion_iff : isVersion cs ↔ '/' ∉ cs ∧ '$' ∉ cs ∧ ' ' ∉ cs := by
  simp [isVersion, and_assoc]

theorem isQualifier_iff : isQualifier cs ↔ cs ≠ [] ∧ isVersion cs := by
  simp [isQualifier]

/-- The segments of the instructions of a URL. A slash in them starts another one. -/
def instructionSegments : Option (List Char) → List (List Char)
  | some q => ('$' :: q).splitOn '/'
  | none => []

/-- The segments of the packaging of a URL. -/
def packagingSegments : Option Packaging → List (List Char)
  | some ⟨type, some classifier⟩ => [type, classifier]
  | some ⟨type, none⟩ => [type]
  | none => []

/-- The segments of a URL behind its scheme. -/
def segments (u : MvnUrl) : List (List Char) :=
  u.group :: u.name :: u.version ::
    (packagingSegments u.packaging ++ instructionSegments u.instructions)

lemma splitOn_dollar (q : List Char) :
    ∃ first rest, q.splitOn '/' = first :: rest ∧
    ('$' :: q).splitOn '/' = ('$' :: first) :: rest := by
  obtain ⟨first, rest, h⟩ := List.exists_cons_of_ne_nil (List.splitOn_ne_nil '/' q)
  refine ⟨first, rest, h, ?_⟩
  rw [List.splitOn_cons_eq_if_modifyHead, if_neg (by decide), h, List.modifyHead_cons]

lemma instructions?_eq_some_iff (hslash : ∀ s ∈ parts, '/' ∉ s) :
    instructions? parts = some q ↔ (∀ x ∈ q, isInstructions x) ∧ parts = instructionSegments q := by
  constructor
  · intro h
    unfold instructions? at h
    split at h
    next =>
      obtain rfl := Option.some.inj h
      exact ⟨by simp, rfl⟩
    next first rest =>
      dsimp only at h
      split at h
      next hq =>
        obtain rfl := Option.some.inj h
        refine ⟨by simpa using hq, ?_⟩
        have hjoin : '$' :: ['/'].intercalate (first :: rest) =
            ['/'].intercalate (('$' :: first) :: rest) := by
          cases rest <;> simp [List.intercalate_cons_of_ne_nil]
        rw [instructionSegments, hjoin, List.splitOn_intercalate '/' hslash (by simp)]
      next => cases h
    next => cases h
  · rintro ⟨hq, rfl⟩
    cases q with
    | none => rfl
    | some q =>
      obtain ⟨first, rest, hsplit, hdollar⟩ := splitOn_dollar q
      have hjoin : ['/'].intercalate (first :: rest) = q := by
        rw [← hsplit, List.intercalate_splitOn]
      rw [instructionSegments, hdollar, instructions?, hjoin, if_pos (hq q rfl)]

/-- A qualifier does not start with a dollar sign, so no instructions start with it. -/
theorem instructions?_cons_of_isQualifier (h : isQualifier type) (rest : List (List Char)) :
    instructions? (type :: rest) = none := by
  obtain ⟨hne, hversion⟩ := isQualifier_iff.mp h
  obtain ⟨-, hdollar, -⟩ := isVersion_iff.mp hversion
  obtain ⟨c, cs, rfl⟩ := List.exists_cons_of_ne_nil hne
  have hc : c ≠ '$' := by
    rintro rfl
    exact hdollar List.mem_cons_self
  unfold instructions?
  split
  next heq => cases heq
  next heq => exact absurd (List.cons.inj (List.cons.inj heq).1).1 hc
  next => rfl

lemma qualifiers?_eq_some_iff (hslash : ∀ s ∈ parts, '/' ∉ s) :
    qualifiers? parts = some (packaging, q) ↔
      (∀ p ∈ packaging, isQualifier p.type ∧ ∀ c ∈ p.classifier, isQualifier c) ∧
      (∀ x ∈ q, isInstructions x) ∧
      parts = packagingSegments packaging ++ instructionSegments q := by
  constructor
  · intro h
    unfold qualifiers? at h
    split at h
    next instructions hinstructions =>
      obtain ⟨rfl, rfl⟩ := Prod.mk.inj (Option.some.inj h)
      obtain ⟨hq, hparts⟩ := (instructions?_eq_some_iff hslash).mp hinstructions
      exact ⟨by simp, hq, hparts⟩
    next =>
      split at h
      next type rest _ =>
        have hrest : ∀ s ∈ rest, '/' ∉ s := fun s hs => hslash s (List.mem_cons_of_mem _ hs)
        split at h
        next htype =>
          split at h
          next instructions hinstructions =>
            obtain ⟨rfl, rfl⟩ := Prod.mk.inj (Option.some.inj h)
            obtain ⟨hq, rfl⟩ := (instructions?_eq_some_iff hrest).mp hinstructions
            exact ⟨by simpa using htype, hq, rfl⟩
          next =>
            split at h
            next classifier rest' _ =>
              split at h
              next hclassifier =>
                obtain ⟨instructions, hinstructions, h⟩ := Option.map_eq_some_iff.mp h
                obtain ⟨rfl, rfl⟩ := Prod.mk.inj h
                rw [List.forall_mem_cons] at hrest
                obtain ⟨hq, rfl⟩ := (instructions?_eq_some_iff hrest.2).mp hinstructions
                exact ⟨by simpa using ⟨htype, hclassifier⟩, hq, rfl⟩
              next => cases h
            next => cases h
        next => cases h
      next => cases h
  · rintro ⟨hpackaging, hq, rfl⟩
    have hread : instructions? (instructionSegments q) = some q :=
      (instructions?_eq_some_iff fun s hs => hslash s (List.mem_append_right _ hs)).mpr ⟨hq, rfl⟩
    unfold qualifiers?
    match packaging with
    | none => simp only [packagingSegments, List.nil_append, hread]
    | some ⟨type, none⟩ =>
      have htype := (hpackaging _ rfl).1
      simp only [packagingSegments, List.singleton_append, instructions?_cons_of_isQualifier htype,
        if_pos htype, hread]
    | some ⟨type, some classifier⟩ =>
      obtain ⟨htype, hclassifier⟩ := hpackaging _ rfl
      have hnone :=
        instructions?_cons_of_isQualifier (hclassifier classifier rfl) (instructionSegments q)
      simp only [packagingSegments, List.cons_append, List.nil_append,
        instructions?_cons_of_isQualifier htype, if_pos htype, hnone,
        if_pos (hclassifier classifier rfl), hread, Option.map_some]

lemma schemed?_eq_some_iff :
    schemed? cs = some (wrapper, rest) ↔ wrapper.text ++ "mvn:".toList ++ rest = cs := by
  unfold schemed?
  constructor
  · intro h
    split at h
    next rest hplain =>
      obtain ⟨rfl, rfl⟩ := Prod.mk.inj (Option.some.inj h)
      exact List.isPrefixOf?_eq_some_iff_append_eq.mp hplain
    next =>
      split at h
      next rest hwrap =>
        obtain ⟨rfl, rfl⟩ := Prod.mk.inj (Option.some.inj h)
        exact List.isPrefixOf?_eq_some_iff_append_eq.mp hwrap
      next =>
        obtain ⟨rest, hblueprint, h⟩ := Option.map_eq_some_iff.mp h
        obtain ⟨rfl, rfl⟩ := Prod.mk.inj h
        exact List.isPrefixOf?_eq_some_iff_append_eq.mp hblueprint
  · rintro rfl
    cases wrapper <;> rfl

/-- Whatever segment comes last, instructions are put behind it. -/
theorem intercalate_cons_instructionSegments (last : List Char) (q : Option (List Char)) :
    ['/'].intercalate (last :: instructionSegments q) = last ++ q.elim [] fun q =>
      '/' :: '$' :: q := by
  cases q with
  | none => simp [instructionSegments]
  | some q =>
    have hne : instructionSegments (some q) ≠ [] := List.splitOn_ne_nil _ _
    rw [List.intercalate_cons_of_ne_nil hne, instructionSegments, List.intercalate_splitOn]
    simp

/-- The text of a URL behind its scheme. -/
def body (u : MvnUrl) : List Char := ['/'].intercalate u.segments

theorem body_ne_nil (hgroup : u.group ≠ []) : u.body ≠ [] := by
  simp [body, segments, hgroup]

theorem render_eq (u : MvnUrl) : u.render = u.wrapper.text ++ "mvn:".toList ++ u.body := by
  obtain ⟨wrapper, group, name, version, packaging, instructions⟩ := u
  have htail := intercalate_cons_instructionSegments (q := instructions)
  rcases packaging with - | ⟨type, - | classifier⟩ <;> cases instructions <;>
    simp [render, body, segments, packagingSegments, htail]

theorem WellFormed.not_mem_segments (h : u.WellFormed) : ∀ s ∈ u.segments, '/' ∉ s := by
  obtain ⟨hgroup, hname, hversion, hpackaging, -⟩ := h
  have hqualifier {cs : List Char} (h : isQualifier cs) : '/' ∉ cs :=
    (isVersion_iff.mp (isQualifier_iff.mp h).2).1
  have hpackaged : ∀ s ∈ packagingSegments u.packaging, '/' ∉ s := by
    match hp : u.packaging with
    | none => simp [packagingSegments]
    | some ⟨type, none⟩ => simpa [packagingSegments] using hqualifier (hpackaging _ hp).1
    | some ⟨type, some classifier⟩ =>
      simpa [packagingSegments]
        using ⟨hqualifier (hpackaging _ hp).1, hqualifier ((hpackaging _ hp).2 classifier rfl)⟩
  have hinstructed : ∀ s ∈ instructionSegments u.instructions, '/' ∉ s := by
    cases u.instructions with
    | none => simp [instructionSegments]
    | some q => exact fun s hs => not_mem_of_mem_splitOn hs
  simp only [segments, List.mem_cons, List.mem_append]
  rintro s (rfl | rfl | rfl | hs | hs)
  · exact (isName_iff.mp hgroup).2.1
  · exact (isName_iff.mp hname).2.1
  · exact (isVersion_iff.mp hversion).1
  · exact hpackaged s hs
  · exact hinstructed s hs

/-- A text is an mvn URL if and only if it is written from well-formed parts, which are then
unique. -/
theorem parse?_eq_some_iff : parse? cs = some u ↔ u.WellFormed ∧ u.render = cs := by
  constructor
  · intro h
    unfold parse? at h
    obtain ⟨⟨wrapper, rest⟩, hscheme, h⟩ := Option.bind_eq_some_iff.mp h
    dsimp only at h
    split at h
    next group name version parts hsplit =>
      split at h
      next hparts =>
        obtain ⟨⟨packaging, q⟩, hqualifiers, h⟩ := Option.bind_eq_some_iff.mp h
        obtain rfl := Option.some.inj h
        have hslash : ∀ s ∈ parts, '/' ∉ s :=
          fun s hs => not_mem_of_mem_splitOn
            (hsplit ▸ List.mem_cons_of_mem _ (List.mem_cons_of_mem _ (List.mem_cons_of_mem _ hs)))
        obtain ⟨hpackaging, hq, rfl⟩ := (qualifiers?_eq_some_iff hslash).mp hqualifiers
        rw [Bool.and_eq_true, Bool.and_eq_true] at hparts
        refine ⟨⟨hparts.1.1, hparts.1.2, hparts.2, hpackaging, hq⟩, ?_⟩
        rw [render_eq, body, segments, ← hsplit, List.intercalate_splitOn]
        exact schemed?_eq_some_iff.mp hscheme
      next => cases h
    next => cases h
  · rintro ⟨hwell, rfl⟩
    have hslash := hwell.not_mem_segments
    have hsplit : u.body.splitOn '/' = u.segments :=
      List.splitOn_intercalate '/' hslash (by simp [segments])
    obtain ⟨hgroup, hname, hversion, hpackaging, hq⟩ := hwell
    have hqualifiers : qualifiers? (packagingSegments u.packaging ++
        instructionSegments u.instructions) = some (u.packaging, u.instructions) := by
      refine (qualifiers?_eq_some_iff fun s hs => hslash s ?_).mpr ⟨hpackaging, hq, rfl⟩
      exact List.mem_cons_of_mem _ (List.mem_cons_of_mem _ (List.mem_cons_of_mem _ hs))
    have hscheme : schemed? u.render = some (u.wrapper, u.body) :=
      schemed?_eq_some_iff.mpr (render_eq u).symm
    unfold parse?
    rw [hscheme, Option.bind_eq_bind, Option.bind_some]
    dsimp only
    rw [hsplit, segments]
    dsimp only
    rw [hgroup, hname, hversion, hqualifiers]
    rfl

end MvnUrl

namespace Coordinates

variable {cs : List Char} {k : Coordinates}

theorem isPart_iff : isPart cs ↔ ':' ∉ cs ∧ ' ' ∉ cs := by
  simp [isPart]

theorem isFilled_iff : isFilled cs ↔ cs ≠ [] ∧ isPart cs := by
  simp [isFilled]

/-- The parts of coordinates between colons. -/
def parts (k : Coordinates) : List (List Char) :=
  match k.qualifiers with
  | some (extension, some classifier) => [k.group, k.name, extension, classifier, k.version]
  | some (extension, none) => [k.group, k.name, extension, k.version]
  | none => [k.group, k.name, k.version]

theorem render_eq (k : Coordinates) : k.render = [':'].intercalate k.parts := by
  obtain ⟨group, name, qualifiers, version⟩ := k
  rcases qualifiers with - | ⟨extension, - | classifier⟩ <;> simp [render, parts]

lemma WellFormed.isPart_of_mem_parts (h : k.WellFormed) : ∀ part ∈ k.parts, isPart part := by
  obtain ⟨group, name, qualifiers, version⟩ := k
  obtain ⟨hgroup, hname, hversion, hqualifiers⟩ := h
  have hfilled {cs : List Char} (h : isFilled cs) : isPart cs := (isFilled_iff.mp h).2
  rcases qualifiers with - | ⟨extension, - | classifier⟩
  · simp [parts, hfilled hgroup, hfilled hname, hfilled hversion]
  · simp [parts, hfilled hgroup, hfilled hname, hfilled hversion, (hqualifiers _ rfl).1]
  · obtain ⟨hextension, hclassifier⟩ := hqualifiers _ rfl
    simp [parts, hfilled hgroup, hfilled hname, hfilled hversion, hextension,
      hfilled (hclassifier classifier rfl)]

theorem WellFormed.splitOn_render (h : k.WellFormed) : k.render.splitOn ':' = k.parts := by
  rw [render_eq, List.splitOn_intercalate ':' fun part hpart =>
    (isPart_iff.mp (h.isPart_of_mem_parts part hpart)).1]
  unfold parts
  split <;> simp

/-- A text is coordinates if and only if it is written from well-formed parts, which are then
unique. -/
theorem parse?_eq_some_iff : parse? cs = some k ↔ k.WellFormed ∧ k.render = cs := by
  constructor
  · intro h
    have hjoin : [':'].intercalate (cs.splitOn ':') = cs := List.intercalate_splitOn ':'
    unfold parse? at h
    dsimp only at h
    split at h
    next hsplit =>
      obtain ⟨hwell, hk⟩ := Option.ite_none_right_eq_some.mp h
      obtain rfl := Option.some.inj hk
      exact ⟨hwell, by rw [render_eq, ← hjoin, hsplit, parts]⟩
    next hsplit =>
      obtain ⟨hwell, hk⟩ := Option.ite_none_right_eq_some.mp h
      obtain rfl := Option.some.inj hk
      exact ⟨hwell, by rw [render_eq, ← hjoin, hsplit, parts]⟩
    next hsplit =>
      obtain ⟨hwell, hk⟩ := Option.ite_none_right_eq_some.mp h
      obtain rfl := Option.some.inj hk
      exact ⟨hwell, by rw [render_eq, ← hjoin, hsplit, parts]⟩
    next => cases h
  · rintro ⟨hwell, rfl⟩
    have hsplit := hwell.splitOn_render
    obtain ⟨group, name, qualifiers, version⟩ := k
    unfold parse?
    rw [hsplit]
    rcases qualifiers with - | ⟨extension, - | classifier⟩ <;> exact if_pos hwell

/-- A text that its colons split into coordinates: three to five parts without a space, of which
none is empty but the third of four or five. -/
def Splits (cs : List Char) : Prop :=
  ' ' ∉ cs ∧
    match cs.splitOn ':' with
    | [group, name, version] => group ≠ [] ∧ name ≠ [] ∧ version ≠ []
    | [group, name, _, version] => group ≠ [] ∧ name ≠ [] ∧ version ≠ []
    | [group, name, _, classifier, version] =>
      group ≠ [] ∧ name ≠ [] ∧ classifier ≠ [] ∧ version ≠ []
    | _ => False

theorem exists_parse?_iff : (∃ k, parse? cs = some k) ↔ Splits cs := by
  have hspace : ' ' ∈ cs ↔ ∃ part ∈ cs.splitOn ':', ' ' ∈ part :=
    mem_iff_exists_mem_splitOn (by decide) cs
  have hcolon : ∀ part ∈ cs.splitOn ':', ':' ∉ part :=
    fun part hpart => not_mem_of_mem_splitOn hpart
  unfold parse? Splits
  rw [hspace]
  generalize cs.splitOn ':' = parts at hcolon
  dsimp only
  split
  · simp [WellFormed, isFilled_iff, isPart_iff] at hcolon ⊢
    tauto
  · simp [WellFormed, isFilled_iff, isPart_iff] at hcolon ⊢
    tauto
  · simp [WellFormed, isFilled_iff, isPart_iff] at hcolon ⊢
    tauto
  · simp

end Coordinates
end FeatureDepot
