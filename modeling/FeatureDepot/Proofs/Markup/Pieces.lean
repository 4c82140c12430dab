import FeatureDepot.Proofs.Markup.Prose
import FeatureDepot.Proofs.Markup.Tags
import FeatureDepot.Proofs.Markup.Written

/-! Elements as they stand in a document. Reading the text of elements gives their nodes, whatever
the spelling of their tags and of the text between them, and whatever follows the root. -/
namespace FeatureDepot.Markup

/-- An element as it stands in a document, with the text in front of it: one tag, or what stands
between two tags. -/
inductive Piece
  | empty (front : Prose) (tag : TagText)
  | full (front : Prose) (tag : TagText) (body : List Piece) (back : Prose)
      (gap : {gap : List Char // ∀ c ∈ gap, Text.isBlank c})

namespace Growth

variable {g g' : Growth} {tag : Tag} {children below : List Node} {ending : Ending} {token : Token}

/-- The nodes outside of any element go on behind an element. -/
def Behind (base : List Node) (g : Growth) : Prop := ∃ more, g.outside = more ++ base

lemma Behind.update {base : List Node} (h : g.Behind base) {change : List Node → List Node}
    (hchange : ∀ more, ∃ more', change (more ++ base) = more' ++ base) (flag : Bool) :
    (g.update change flag).Behind base := by
  obtain ⟨more, hmore⟩ := h
  unfold Growth.update
  cases g.elements with
  | cons e above => exact ⟨more, hmore⟩
  | nil =>
    obtain ⟨more', hmore'⟩ := hchange more
    exact ⟨more', by rw [hmore, hmore']⟩

lemma Behind.cons {base : List Node} (h : g.Behind base) (node : Node) (flag : Bool) :
    (g.update (node :: ·) flag).Behind base := h.update (fun more => ⟨node :: more, rfl⟩) flag

lemma Behind.close {base : List Node} (h : g.Behind base) (ending : Ending) :
    (g.close ending).Behind base := by
  unfold Growth.close
  cases g.elements with
  | nil => exact h
  | cons e above => exact Behind.cons (g := { g with elements := above }) h _ false

/-- Text is not joined to an element in front of it. -/
theorem Behind.addText (h : g.Behind (.element tag children ending :: below))
    (content : Except ReferenceFault (List Char)) :
    (g.addText content).Behind (.element tag children ending :: below) := by
  refine h.update (fun more => ?_) true
  cases g.continued with
  | false => exact ⟨.text content :: more, rfl⟩
  | true =>
    cases more with
    | nil => exact ⟨[.text content], rfl⟩
    | cons node more =>
      cases node with
      | text before => exact ⟨_ :: more, rfl⟩
      | element tag' children' ending' =>
        exact ⟨.text content :: .element tag' children' ending' :: more, rfl⟩

lemma Behind.add (h : g.Behind (.element tag children ending :: below))
    (hadd : g.add token = .ok g') :
    g'.Behind (.element tag children ending :: below) := by
  unfold Growth.add at hadd
  split at hadd
  next => exact Except.ok.inj hadd ▸ h
  next => exact Except.ok.inj hadd ▸ h.cons _ false
  next =>
    split at hadd
    next => cases hadd
    next =>
      split at hadd
      next => exact Except.ok.inj hadd ▸ h.close .closed
      next => cases hadd
  next => exact Except.ok.inj hadd ▸ h
  next => exact Except.ok.inj hadd ▸ h.addText _
  next => exact Except.ok.inj hadd ▸ h.addText _
  next => exact Except.ok.inj hadd ▸ h.addText _

lemma Behind.addAll (h : g.Behind (.element tag children ending :: below)) (last : Option Fault)
    (tokens : List Token) :
    (g.addAll last tokens).1.Behind (.element tag children ending :: below) := by
  induction tokens generalizing g with
  | nil => exact h
  | cons token tokens ih =>
    rw [Growth.addAll]
    split
    next g' hadd => exact ih (h.add hadd)
    next => exact h

/-- Whatever follows an element, it stays where it is. -/
theorem Behind.finish (h : g.Behind (.element tag children ending :: below))
    (fault : Option Fault) :
    ∃ more, (g.finish fault).nodes = below.reverse ++ .element tag children ending :: more := by
  have hclosed : (g.elements.foldl (fun g _ => g.close (.cut fault)) g).Behind
      (.element tag children ending :: below) := by
    generalize g.elements = elements
    induction elements generalizing g with
    | nil => exact h
    | cons e elements ih => exact ih (h.close (.cut fault))
  obtain ⟨more, hmore⟩ := hclosed
  refine ⟨more.reverse, ?_⟩
  rw [Growth.finish, hmore]
  simp

end Growth

namespace Piece
open Token Growth

variable {scope : Scope} {g : Growth} {p : Piece} {ps : List Piece}

def front : Piece → Prose
  | empty front _ => front
  | full front _ _ _ _ => front

def tag : Piece → TagText
  | empty _ tag => tag
  | full _ tag _ _ _ => tag

/-- The elements within an element. -/
def body : Piece → List Piece
  | empty _ _ => []
  | full _ _ body _ _ => body

/-- The text behind the elements within an element. -/
def back : Piece → Prose
  | empty _ _ => .none
  | full _ _ _ back _ => back

mutual

def text : Piece → List Char
  | empty front tag => front.raw ++ '<' :: (tag.content ++ "/>".toList)
  | full front tag body back gap => front.raw ++ '<' :: (tag.content ++ '>' ::
      (textAll body ++ (back.raw ++ ("</".toList ++ (tag.name ++ gap.val) ++ ['>']))))

def textAll : List Piece → List Char
  | [] => []
  | p :: ps => p.text ++ textAll ps

end

mutual

/-- The node that an element is read as. -/
def node (scope : Scope) : Piece → Node
  | empty _ tag => .element (.ofContent scope tag.content) [] .closed
  | full _ tag body back _ =>
    .element (.ofContent scope tag.content)
      (nodes (Tag.ofContent scope tag.content).scope body ++ back.nodes) .closed

/-- The nodes that elements are read as, with the text in front of each. -/
def nodes (scope : Scope) : List Piece → List Node
  | [] => []
  | p :: ps => p.front.nodes ++ p.node scope :: nodes scope ps

end

theorem node_eq (scope : Scope) (p : Piece) :
    p.node scope = .element (.ofContent scope p.tag.content)
    (nodes (Tag.ofContent scope p.tag.content).scope p.body ++ p.back.nodes) .closed := by
  cases p <;> rfl

lemma addContent_eq (hg : g.continued = false) (content : Prose) :
    ∃ flag, g.addContent content.content = g.update (content.nodes ++ ·) flag := by
  unfold addContent Prose.nodes
  cases content.content with
  | none => exact ⟨false, (Written.update_self hg).symm⟩
  | some cs => exact ⟨true, addText_of_not_continued hg _⟩

/-- Text between tags adds its nodes. -/
theorem grow_prose (hg : g.continued = false) (content : Prose) (rest : List Char) :
    ∃ flag, g.grow (content.raw ++ '<' :: rest) =
      (g.update (content.nodes ++ ·) flag).grow ('<' :: rest) := by
  obtain ⟨flag, hcontent⟩ := addContent_eq hg content
  exact ⟨flag, by rw [grow_spells content.spells, hcontent]⟩

lemma reverse_nodes (content : Prose) : content.nodes.reverse = content.nodes := by
  unfold Prose.nodes
  cases content.content <;> rfl

theorem name_ofContent (t : TagText) (scope : Scope) :
    (Tag.ofContent scope t.content).name = t.name := by
  obtain ⟨scope', htag⟩ := t.exists_ofContent scope
  rw [htag]

lemma grow_empty (g : Growth) (t : TagText) (rest : List Char) :
    g.grow ('<' :: (t.content ++ "/>".toList ++ rest)) =
    (g.update (.element (.ofContent g.scope t.content) [] .closed :: ·) false).grow rest := by
  have hslash : Fits ['/'] := fits_nil.behind (a := ['/']) (by decide)
  have hfits := t.fits_content hslash
  obtain ⟨c, cs, hcontent, hc⟩ := t.exists_content
  rw [hcontent] at hfits ⊢
  exact grow_emptyElement hc hfits rest

lemma grow_open (g : Growth) (t : TagText) (rest : List Char) :
    g.grow ('<' :: (t.content ++ '>' :: rest)) =
      grow
        { g with
          elements := ⟨.ofContent g.scope t.content, []⟩ :: g.elements, continued := false }
        rest := by
  have hfits := t.fits_content fits_nil
  have hlast := t.getLast?_content
  obtain ⟨c, cs, hcontent, hc⟩ := t.exists_content
  rw [List.append_nil] at hfits
  rw [hcontent] at hfits hlast ⊢
  exact grow_opening hc hfits hlast rest

mutual

/-- The text of an element is read as its node, behind the text in front of it. -/
theorem grow_piece (p : Piece) (g : Growth) (hg : g.continued = false) (rest : List Char) :
    g.grow (p.text ++ rest) =
      (g.update ((p.front.nodes ++ [p.node g.scope]).reverse ++ ·) false).grow rest := by
  match p with
  | empty front tag =>
    obtain ⟨flag, hfront⟩ := grow_prose hg front (tag.content ++ "/>".toList ++ rest)
    have htext : (empty front tag).text ++ rest =
        front.raw ++ '<' :: (tag.content ++ "/>".toList ++ rest) := by
      simp [text]
    rw [htext, hfront, grow_empty, update_update, scope_update, List.reverse_append,
      reverse_nodes, node]
    rfl
  | full front tag body back gap =>
    obtain ⟨flag, hfront⟩ :=
      grow_prose hg front (tag.content ++ '>' ::
        (textAll body ++ (back.raw ++ ("</".toList ++ (tag.name ++ gap.val) ++ '>' :: rest))))
    have htext : (full front tag body back gap).text ++ rest = front.raw ++ '<' ::
        (tag.content ++ '>' :: (textAll body ++
          (back.raw ++ ("</".toList ++ (tag.name ++ gap.val) ++ '>' :: rest)))) := by
      simp [text]
    rw [htext, hfront, grow_open, grow_pieces body _ rfl]
    obtain ⟨flag', hback⟩ :=
      grow_prose (continued_update ..) back ('/' :: (tag.name ++ gap.val ++ '>' :: rest))
    refine hback.trans ?_
    refine (grow_closing (fits_closing tag.isTagName gap.2) (closingName_append tag.isTagName gap.2)
      rfl (name_ofContent tag _) rest).trans ?_
    rw [update_update, Written.close_update, update_update, scope_update, node, List.append_nil,
      List.reverse_append, List.reverse_reverse, List.reverse_append, reverse_nodes, reverse_nodes]
    rfl

/-- The texts of elements are read as their nodes. -/
theorem grow_pieces (ps : List Piece) (g : Growth) (hg : g.continued = false) (rest : List Char) :
    g.grow (textAll ps ++ rest) = (g.update ((nodes g.scope ps).reverse ++ ·) false).grow rest := by
  match ps with
  | [] =>
    have hnone : g.update ((nodes g.scope []).reverse ++ ·) false = g := Written.update_self hg
    rw [hnone]
    rfl
  | p :: ps =>
    rw [textAll, List.append_assoc, grow_piece p g hg, grow_pieces ps _ (continued_update ..),
      scope_update, update_update, nodes]
    simp

end

/-- Text that is white space does not begin with a byte order mark. -/
theorem head?_ne_of_blank {raw : List Char} {content : Option (List Char)} (h : Spells raw content)
    (hblank : ∀ cs ∈ content, cs.all Text.isBlank) : raw.head? ≠ some '\ufeff' := by
  cases h with
  | nil => simp
  | @run cs raw content hcs hplain hend h =>
    obtain ⟨c, cs, rfl⟩ := List.exists_cons_of_ne_nil hcs
    intro hc
    obtain rfl : c = '\ufeff' := by simpa using hc
    have hall := hblank _ rfl
    rw [unifyLineEnds_cons_of_isInLine ⟨by decide, by decide, by decide⟩] at hall
    simp [Text.isBlank] at hall
  | reference hc h => simp
  | literal hcs h => simp
  | comment hcs h => simp
  | instruction hcs hhead h => simp

/-- The root of a document is read as its node. -/
theorem exists_ofText (p : Piece) (hblank : ∀ cs ∈ p.front.content, cs.all Text.isBlank)
    (rest : List Char) :
    ∃ more, (Document.ofText (p.text ++ rest)).nodes = p.front.nodes ++ p.node [] :: more := by
  have hhead : (p.text ++ rest).head? ≠ some '\ufeff' := by
    have hfront := head?_ne_of_blank p.front.spells hblank
    obtain ⟨cs, hcs⟩ : ∃ cs, p.text ++ rest = p.front.raw ++ '<' :: cs := by
      cases p <;> exact ⟨_, by simp [text, front]; rfl⟩
    rw [hcs]
    cases hraw : p.front.raw with
    | nil => simp
    | cons c raw => simpa [hraw] using hfront
  have hscan : scanDocument (p.text ++ rest) = scan (p.text ++ rest) := by
    unfold scanDocument
    split
    next rest' heq => exact absurd (by rw [heq]; rfl) hhead
    next => rfl
  have hgrow : (⟨[], [], false⟩ : Growth).grow (p.text ++ rest) =
      (⟨[], p.node [] :: p.front.nodes, false⟩ : Growth).grow rest := by
    rw [grow_piece p _ rfl]
    unfold update
    simp [reverse_nodes, scope]
  have hbehind : (⟨[], p.node [] :: p.front.nodes, false⟩ : Growth).Behind
      (p.node [] :: p.front.nodes) := ⟨[], rfl⟩
  rw [node_eq] at hbehind
  obtain ⟨more, hmore⟩ := (hbehind.addAll (scan rest).2 (scan rest).1).finish
    ((⟨[], p.node [] :: p.front.nodes, false⟩ : Growth).grow rest).2
  refine ⟨more, ?_⟩
  have hdocument : Document.ofText (p.text ++ rest) =
      ((⟨[], [], false⟩ : Growth).grow (p.text ++ rest)).1.finish
        ((⟨[], [], false⟩ : Growth).grow (p.text ++ rest)).2 := by
    unfold Document.ofText grow
    rw [hscan]
  rw [← node_eq [] p, reverse_nodes] at hmore
  rw [hdocument, hgrow]
  exact hmore

end Piece
end FeatureDepot.Markup
