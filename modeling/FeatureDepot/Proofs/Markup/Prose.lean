import FeatureDepot.Proofs.Markup.Growth
import Mathlib.Data.List.Basic

/-! Text as it stands in a document: in runs of characters, with references, literal sections,
comments and instructions between them. However a text is spelled, it is read as one piece, and what
is no text leaves no trace. -/
namespace FeatureDepot

namespace Text

variable {front cs : List Char} {last : Char}

/-- A separator whose last character is at no other place in it does not begin within a text in
front of it. -/
theorem not_prefix_append (hlast : last ∉ front) (hcs : ¬ front ++ [last] <:+: cs) (hne : cs ≠ [])
    (rest : List Char) :
    ¬ front ++ [last] <+: cs ++ (front ++ [last] ++ rest) := by
  intro h
  by_cases hlength : front.length < cs.length
  · have hwithin := List.prefix_of_prefix_length_le h (List.prefix_append cs _)
      (by rw [List.length_append, List.length_singleton]; exact hlength)
    exact hcs hwithin.isInfix
  · have hpositive := List.length_pos_of_ne_nil hne
    obtain ⟨text, htext⟩ := h
    have hat : (cs ++ (front ++ [last] ++ rest))[front.length]? = some last := by
      rw [← htext, List.append_assoc, List.getElem?_append_right (Nat.le_refl _), Nat.sub_self]
      rfl
    rw [List.getElem?_append_right (Nat.le_of_not_lt hlength), List.append_assoc,
      List.getElem?_append_left (by omega)] at hat
    exact hlast (List.mem_of_getElem? hat)

/-- A text ends at the separator behind it, if that is not within it. -/
theorem cutText?_append (front : List Char) (hlast : last ∉ front) (hcs : ¬ front ++ [last] <:+: cs)
    (rest : List Char) :
    cutText? (front ++ [last]) (cs ++ (front ++ [last] ++ rest)) = some (cs, rest) := by
  induction cs with
  | nil =>
    cases hsep : front ++ [last] with
    | nil => simp at hsep
    | cons c sep =>
      rw [List.nil_append, List.cons_append, cutText?, ← List.cons_append,
        List.isPrefixOf?_eq_some_iff_append_eq.mpr rfl]
  | cons c cs ih =>
    have hnone : (front ++ [last]).isPrefixOf? (c :: (cs ++ (front ++ [last] ++ rest))) = none := by
      refine Option.eq_none_iff_forall_ne_some.mpr fun text htext => ?_
      exact not_prefix_append hlast hcs (List.cons_ne_nil c cs) rest
        ⟨text, List.isPrefixOf?_eq_some_iff_append_eq.mp htext⟩
    rw [List.cons_append, cutText?, hnone]
    dsimp only
    rw [ih fun h => hcs (h.trans (List.suffix_cons c cs).isInfix)]
    rfl

end Text

namespace Markup

variable {c : Char} {cs name raw rest v : List Char} {content : Option (List Char)} {g : Growth}

/-- How text is spelled in a document, and what it is then. Where there is nothing but comments and
instructions, there is no text. -/
inductive Spells : List Char → Option (List Char) → Prop
  | nil : Spells [] none
  | run {cs raw : List Char} {content : Option (List Char)} (hcs : cs ≠ [])
      (hplain : ∀ c ∈ cs, c ≠ '<' ∧ c ≠ '&') (hend : ∀ c ∈ raw.head?, c = '<' ∨ c = '&')
      (h : Spells raw content) : Spells (cs ++ raw) (some (unifyLineEnds cs ++ content.getD []))
  | reference {c : Char} {name raw : List Char} {content : Option (List Char)} (hc : Refers c name)
      (h : Spells raw content) : Spells ('&' :: name ++ ';' :: raw) (some (c :: content.getD []))
  | literal {cs raw : List Char} {content : Option (List Char)} (hcs : ¬ "]]>".toList <:+: cs)
      (h : Spells raw content) :
      Spells ("<![CDATA[".toList ++ cs ++ "]]>".toList ++ raw)
        (some (unifyLineEnds cs ++ content.getD []))
  | comment {cs raw : List Char} {content : Option (List Char)} (hcs : ¬ "-->".toList <:+: cs)
      (h : Spells raw content) : Spells ("<!--".toList ++ cs ++ "-->".toList ++ raw) content
  | instruction {cs raw : List Char} {content : Option (List Char)} (hcs : ¬ "?>".toList <:+: cs)
      (hhead : cs.head? ≠ some '>') (h : Spells raw content) :
      Spells ("<?".toList ++ cs ++ "?>".toList ++ raw) content

/-- Text as it stands in a document, with what it is read as. -/
structure Prose where
  raw : List Char
  content : Option (List Char)
  spells : Spells raw content

namespace Prose

/-- No text. -/
def none : Prose := ⟨[], Option.none, .nil⟩

/-- The nodes of text: one, or none where there is no text. -/
def nodes (p : Prose) : List Node := p.content.toList.map fun cs => .text (.ok cs)

end Prose

/-- What a text comes to, where no text is none. -/
def contentOf (cs : List Char) : Option (List Char) :=
  if cs = [] then none else some (unifyLineEnds cs)

theorem getD_contentOf (cs : List Char) : (contentOf cs).getD [] = unifyLineEnds cs := by
  unfold contentOf
  split
  next h => rw [h]; rfl
  next => rfl

lemma isInLine_of_not_isVerbatim (hc : isVerbatim c = false) : IsInLine c ∧ c ≠ '\n' := by
  unfold isVerbatim at hc
  refine ⟨⟨?_, ?_, ?_⟩, ?_⟩ <;> rintro rfl <;> cases hc

lemma plain_of_isVerbatim (hcs : ∀ c ∈ cs, isVerbatim c) : ∀ c ∈ cs, c ≠ '<' ∧ c ≠ '&' := by
  intro c hc
  have hverbatim := hcs c hc
  simp only [isVerbatim, Bool.and_eq_true, bne_iff_ne] at hverbatim
  exact ⟨hverbatim.1.1, hverbatim.2⟩

/-- A text is verbatim, or has a first character that is not. -/
lemma isVerbatim_or_exists (cs : List Char) : (∀ c ∈ cs, isVerbatim c) ∨
    ∃ run c tail, cs = run ++ c :: tail ∧ (∀ d ∈ run, isVerbatim d) ∧ isVerbatim c = false := by
  induction cs with
  | nil => exact .inl (List.forall_mem_nil _)
  | cons c cs ih =>
    cases hc : isVerbatim c with
    | false => exact .inr ⟨[], c, cs, rfl, List.forall_mem_nil _, hc⟩
    | true =>
      rcases ih with hall | ⟨run, d, tail, rfl, hrun, hd⟩
      · exact .inl (List.forall_mem_cons.mpr ⟨hc, hall⟩)
      · exact .inr ⟨c :: run, d, tail, rfl, List.forall_mem_cons.mpr ⟨hc, hrun⟩, hd⟩

/-- Escaping spells a text, up to its line ends: it gives runs of verbatim characters with
references between them. -/
theorem spells_escapeText (cs : List Char) : Spells (escapeText cs) (contentOf cs) := by
  induction hn : cs.length using Nat.strongRecOn generalizing cs with
  | _ n ih =>
    rcases isVerbatim_or_exists cs with hall | ⟨run, c, tail, rfl, hrun, hc⟩
    · by_cases hcs : cs = []
      · rw [hcs]
        exact .nil
      · have hspells := Spells.run hcs (plain_of_isVerbatim hall) (by simp) Spells.nil
        rw [contentOf, if_neg hcs, escapeText_of_isVerbatim hall]
        simpa using hspells
    · obtain ⟨hinline, hfeed⟩ := isInLine_of_not_isVerbatim hc
      obtain ⟨name, hname, hescape⟩ := exists_refers hc
      have hlength : tail.length < n := by
        rw [List.length_append, List.length_cons] at hn
        omega
      have hmarkup : Spells (escapeText (c :: tail)) (some (c :: unifyLineEnds tail)) := by
        have hspells := Spells.reference hname (ih _ hlength tail rfl)
        rw [getD_contentOf] at hspells
        rw [escapeText, List.flatMap_cons, hescape, ← escapeText]
        simpa using hspells
      have htext : escapeText (run ++ c :: tail) = run ++ escapeText (c :: tail) := by
        rw [escapeText, List.flatMap_append, ← escapeText, ← escapeText,
          escapeText_of_isVerbatim hrun]
      have hunify : unifyLineEnds (run ++ c :: tail) =
          unifyLineEnds run ++ c :: unifyLineEnds tail := by
        rw [unifyLineEnds_append (by simpa using ⟨hfeed, hinline.2.1⟩),
          unifyLineEnds_cons_of_isInLine hinline]
      rw [contentOf, if_neg (by simp), htext, hunify]
      by_cases hnil : run = []
      · rw [hnil]
        exact hmarkup
      · have hstop : ∀ d ∈ (escapeText (c :: tail)).head?, d = '<' ∨ d = '&' := by
          rw [escapeText, List.flatMap_cons, hescape]
          simp
        have hspells := Spells.run hnil (plain_of_isVerbatim hrun) hstop hmarkup
        rwa [Option.getD_some] at hspells

namespace Growth
open Token

/-- Adds text that was read, if there is any. -/
def addContent (g : Growth) : Option (List Char) → Growth
  | none => g
  | some cs => g.addText (.ok cs)

lemma addContent_addText (g : Growth) (cs : List Char) (content : Option (List Char)) :
    (g.addText (.ok cs)).addContent content = g.addText (.ok (cs ++ content.getD [])) := by
  cases content with
  | none => rw [addContent, Option.getD_none, List.append_nil]
  | some more => rw [addContent, addText_addText, Option.getD_some]

lemma grow_comment (hcs : ¬ "-->".toList <:+: cs) (g : Growth) (rest : List Char) :
    g.grow ("<!--".toList ++ cs ++ "-->".toList ++ rest) = g.grow rest := by
  have hcut : Text.cutText? "-->".toList (cs ++ ("-->".toList ++ rest)) = some (cs, rest) :=
    Text.cutText?_append "--".toList (by decide) hcs rest
  have hstep : step '<' ("!--".toList ++ (cs ++ ("-->".toList ++ rest))) = .ok (none, rest) := by
    have hread : step '<' ("!--".toList ++ (cs ++ ("-->".toList ++ rest))) =
        readComment ('-' :: (cs ++ ("-->".toList ++ rest))) := rfl
    rw [hread, readComment, hcut]
  have htext : "<!--".toList ++ cs ++ "-->".toList ++ rest =
      '<' :: ("!--".toList ++ (cs ++ ("-->".toList ++ rest))) := by simp
  rw [htext, grow_of_skip hstep]

lemma grow_instruction (hcs : ¬ "?>".toList <:+: cs) (hhead : cs.head? ≠ some '>') (g : Growth)
    (rest : List Char) :
    g.grow ("<?".toList ++ cs ++ "?>".toList ++ rest) = g.grow rest := by
  have hcut : Text.cutText? "?>".toList (cs ++ ("?>".toList ++ rest)) = some (cs, rest) :=
    Text.cutText?_append "?".toList (by decide) hcs rest
  have hfirst : (cs ++ ("?>".toList ++ rest)).head? ≠ some '>' := by
    cases cs with
    | nil => simp
    | cons c cs => simpa using hhead
  have hstep : step '<' ('?' :: (cs ++ ("?>".toList ++ rest))) = .ok (none, rest) := by
    have hread : step '<' ('?' :: (cs ++ ("?>".toList ++ rest))) =
        readInstruction (cs ++ ("?>".toList ++ rest)) := rfl
    rw [hread, readInstruction, if_neg hfirst, hcut]
  have htext : "<?".toList ++ cs ++ "?>".toList ++ rest =
      '<' :: '?' :: (cs ++ ("?>".toList ++ rest)) := by simp
  rw [htext, grow_of_skip hstep]

lemma grow_literal (hcs : ¬ "]]>".toList <:+: cs) (g : Growth) (rest : List Char) :
    g.grow ("<![CDATA[".toList ++ cs ++ "]]>".toList ++ rest) =
      (g.addText (.ok (unifyLineEnds cs))).grow rest := by
  have hcut : Text.cutText? "]]>".toList (cs ++ ("]]>".toList ++ rest)) = some (cs, rest) :=
    Text.cutText?_append "]]".toList (by decide) hcs rest
  have hstep : step '<' ("![CDATA[".toList ++ (cs ++ ("]]>".toList ++ rest))) =
      .ok (some (.literal cs), rest) := by
    have hread : step '<' ("![CDATA[".toList ++ (cs ++ ("]]>".toList ++ rest))) =
        readLiteral ("CDATA[".toList ++ (cs ++ ("]]>".toList ++ rest))) := rfl
    have hword : "CDATA[".toList.isPrefixOf? ("CDATA[".toList ++ (cs ++ ("]]>".toList ++ rest))) =
        some (cs ++ ("]]>".toList ++ rest)) := rfl
    rw [hread, readLiteral, hword]
    dsimp only
    rw [hcut]
  have htext : "<![CDATA[".toList ++ cs ++ "]]>".toList ++ rest =
      '<' :: ("![CDATA[".toList ++ (cs ++ ("]]>".toList ++ rest))) := by simp
  rw [htext]
  exact grow_of_step hstep rfl

/-- However it is spelled, text is read as what it is. -/
theorem grow_spells (h : Spells raw content) (g : Growth) (rest : List Char) :
    g.grow (raw ++ '<' :: rest) = (g.addContent content).grow ('<' :: rest) := by
  induction h generalizing g with
  | nil => rfl
  | @run cs raw content hcs hplain hend h ih =>
    have hnext : ∀ c ∈ (raw ++ '<' :: rest).head?, c = '<' ∨ c = '&' := by
      cases raw with
      | nil => simp
      | cons c raw => simpa using hend
    have hrun : ∀ c ∈ cs, (c != '<' && c != '&') = true := fun c hc => by
      simp [(hplain c hc).1, (hplain c hc).2]
    rw [List.append_assoc, grow_text hcs hrun hnext, ih, addContent_addText, addContent]
  | @reference c name raw content hc h ih =>
    have htext : '&' :: name ++ ';' :: raw ++ '<' :: rest =
        '&' :: name ++ ';' :: (raw ++ '<' :: rest) := by simp
    rw [htext, grow_reference hc, ih, addContent_addText, addContent, List.singleton_append]
  | literal hcs h ih => rw [List.append_assoc, grow_literal hcs, ih, addContent_addText, addContent]
  | comment hcs h ih => rw [List.append_assoc, grow_comment hcs, ih]
  | instruction hcs hhead h ih => rw [List.append_assoc, grow_instruction hcs hhead, ih]

/-- Text that is escaped comes back as one piece, with its line ends unified. -/
theorem grow_escapeText (hcs : cs ≠ []) (rest : List Char) :
    g.grow (escapeText cs ++ '<' :: rest) =
      (g.addText (.ok (unifyLineEnds cs))).grow ('<' :: rest) := by
  rw [grow_spells (spells_escapeText cs), contentOf, if_neg hcs, addContent]

end Growth
end Markup
end FeatureDepot
