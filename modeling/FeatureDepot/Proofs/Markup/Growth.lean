import FeatureDepot.Markup.Tree
import FeatureDepot.Proofs.Markup.Escape

/-! How a tree grows while a text is read: one lemma for each kind of piece that a writer puts one
behind the other. Each says what a piece does to the tree whatever comes behind it. -/
namespace FeatureDepot.Markup

variable {c d q : Char} {cs name content gap rest a b v : List Char} {g g' : Growth} {token : Token}

lemma isAlpha_ne (hc : c.isAlpha) (hd : d.isAlpha = false) : c ≠ d := by
  rintro rfl
  rw [hc] at hd
  cases hd

/-- A name that is made of letters. -/
def IsWord (name : List Char) : Prop := name ≠ [] ∧ ∀ c ∈ name, c.isAlpha

theorem not_isBlank_of_isAlpha (hc : c.isAlpha) : Text.isBlank c = false := by
  simp [Text.isBlank, isAlpha_ne hc]

/-- A character that names are made of: it ends neither a name nor a tag, and makes nothing else of
a tag. -/
def isNameChar (c : Char) : Bool := !Text.isBlank c && !"<>/=\"'!?&@$".toList.contains c

/-- A name of a tag or of an attribute. -/
def IsTagName (name : List Char) : Prop := name ≠ [] ∧ ∀ c ∈ name, isNameChar c

instance (name : List Char) : Decidable (IsTagName name) := inferInstanceAs (Decidable (_ ∧ _))

theorem isNameChar_of_isAlpha (hc : c.isAlpha) : isNameChar c := by
  simp [isNameChar, not_isBlank_of_isAlpha hc, isAlpha_ne hc]

theorem IsWord.isTagName (h : IsWord name) : IsTagName name :=
  ⟨h.1, fun c hc => isNameChar_of_isAlpha (h.2 c hc)⟩

theorem not_isBlank_of_isNameChar (hc : isNameChar c) : Text.isBlank c = false := by
  rw [isNameChar, Bool.and_eq_true, Bool.not_eq_true'] at hc
  exact hc.1

theorem isNameChar_ne (hc : isNameChar c) (hd : isNameChar d = false) : c ≠ d := by
  rintro rfl
  rw [hc] at hd
  cases hd

namespace Token

lemma scan_of_step {token : Option Token} (h : step c cs = .ok (token, rest)) :
    scan (c :: cs) = (token.toList ++ (scan rest).1, (scan rest).2) := by
  rw [scan]
  split
  next fault hfault =>
    rw [h] at hfault
    cases hfault
  next token' rest' hok =>
    obtain ⟨rfl, rfl⟩ := Prod.mk.inj (Except.ok.inj (h.symm.trans hok))
    rfl

/-- Up to its quotes, text without angle brackets does not end a tag. -/
theorem cutTag_append (h : ∀ c ∈ a, c ≠ '>' ∧ c ≠ '"' ∧ c ≠ '\'') (b : List Char) :
    cutTag none (a ++ b) = (cutTag none b).map fun p => (a ++ p.1, p.2) := by
  induction a with
  | nil =>
    rw [List.nil_append]
    cases cutTag none b <;> rfl
  | cons c a ih =>
    obtain ⟨hclose, hdouble, hsingle⟩ := h c List.mem_cons_self
    rw [List.cons_append, cutTag]
    dsimp only
    rw [if_neg hclose, if_neg (by simp [hdouble, hsingle]),
      ih fun d hd => h d (List.mem_cons_of_mem c hd)]
    cases cutTag none b <;> rfl

lemma cutTag_inside (h : q ∉ v) (b : List Char) :
    cutTag (some q) (v ++ q :: b) = (cutTag none b).map fun p => (v ++ q :: p.1, p.2) := by
  induction v with
  | nil =>
    rw [List.nil_append, cutTag]
    dsimp only
    rw [if_pos rfl]
    cases cutTag none b <;> rfl
  | cons c v ih =>
    obtain ⟨hc, hv⟩ : q ≠ c ∧ q ∉ v := by simpa using h
    rw [List.cons_append, cutTag]
    dsimp only
    rw [if_neg (Ne.symm hc), ih hv]
    cases cutTag none b <;> rfl

/-- What can stand in a tag: no angle bracket ends it early. -/
def Fits (content : List Char) : Prop :=
  ∀ rest, cutTag none (content ++ '>' :: rest) = .ok (content, rest)

theorem fits_nil : Fits [] := fun _ => rfl

theorem Fits.behind (h : Fits b) (ha : ∀ c ∈ a, c ≠ '>' ∧ c ≠ '"' ∧ c ≠ '\'') : Fits (a ++ b) := by
  intro rest
  rw [List.append_assoc, cutTag_append ha, h rest]
  rfl

theorem Fits.quoted (h : Fits b) (hq : q = '"' ∨ q = '\'') (hv : q ∉ v) :
    Fits (q :: v ++ q :: b) := by
  intro rest
  have hclose : q ≠ '>' := by rcases hq with rfl | rfl <;> decide
  rw [List.append_assoc, List.cons_append, List.cons_append, cutTag]
  dsimp only
  rw [if_neg hclose, if_pos hq, cutTag_inside hv, h rest]
  rfl

/-- Names and white space neither end a tag nor begin a value. -/
theorem forall_not_end (h : ∀ c ∈ a, isNameChar c ∨ Text.isBlank c) :
    ∀ c ∈ a, c ≠ '>' ∧ c ≠ '"' ∧ c ≠ '\'' := by
  intro c hc
  rcases h c hc with hname | hblank
  · exact ⟨isNameChar_ne hname rfl, isNameChar_ne hname rfl, isNameChar_ne hname rfl⟩
  · refine ⟨?_, ?_, ?_⟩ <;> rintro rfl <;> cases hblank

/-- A tag that starts with a name opens an element. -/
theorem step_opening (hc : isNameChar c) (cs : List Char) :
    step '<' (c :: cs) = readOpening (c :: cs) := by
  have hslash := isNameChar_ne hc (d := '/') rfl
  have hmark := isNameChar_ne hc (d := '!') rfl
  have hquestion := isNameChar_ne hc (d := '?') rfl
  unfold step readMarkup
  rw [if_pos rfl]
  split <;> simp_all

end Token

namespace Growth
open Token

/-- What becomes of a tree, and of the first fault, when a text is read on. -/
def grow (g : Growth) (cs : List Char) : Growth × Option Fault := g.addAll (scan cs).2 (scan cs).1

theorem grow_nil (g : Growth) : g.grow [] = (g, none) := by
  unfold grow
  rw [scan]
  rfl

theorem grow_of_step (h : step c cs = .ok (some token, rest)) (hadd : g.add token = .ok g') :
    g.grow (c :: cs) = g'.grow rest := by
  unfold grow
  rw [scan_of_step h]
  simp only [Option.toList_some, List.singleton_append, addAll, hadd]

theorem grow_of_skip (h : step c cs = .ok (none, rest)) : g.grow (c :: cs) = g.grow rest := by
  unfold grow
  rw [scan_of_step h]
  rfl

theorem update_update (g : Growth) (change change' : List Node → List Node) (flag flag' : Bool) :
    (g.update change flag).update change' flag' =
      g.update (fun nodes => change' (change nodes)) flag' := by
  unfold update
  cases h : g.elements with
  | nil => simp
  | cons e above => simp

@[simp] theorem scope_update (g : Growth) (change : List Node → List Node) (flag : Bool) :
    (g.update change flag).scope = g.scope := by
  unfold update scope
  cases h : g.elements with
  | nil => simp
  | cons e above => simp

@[simp] theorem continued_update (g : Growth) (change : List Node → List Node) (flag : Bool) :
    (g.update change flag).continued = flag := by
  unfold update
  cases g.elements <;> rfl

theorem addText_of_not_continued (hg : g.continued = false)
    (text : Except ReferenceFault (List Char)) :
    g.addText text = g.update (.text text :: ·) true := by
  unfold addText
  rw [hg]

/-- Pieces of text behind each other are one. -/
theorem addText_addText (g : Growth) (a b : List Char) :
    (g.addText (.ok a)).addText (.ok b) = g.addText (.ok (a ++ b)) := by
  have hcontinued : (g.addText (.ok a)).continued = true := continued_update ..
  rw [addText, hcontinued, addText, update_update, addText]
  congr 1
  funext nodes
  generalize g.continued = flag
  have hjoin : ∀ before : Except ReferenceFault (List Char),
      (do return (← (do return (← before) ++ a)) ++ b) = (do return (← before) ++ (a ++ b)) := by
    intro before
    cases before <;> simp [bind, Except.bind, pure, Except.pure]
  cases flag with
  | false => rfl
  | true =>
    cases nodes with
    | nil => rfl
    | cons node nodes =>
      cases node with
      | text before => exact congrArg (fun text => .text text :: nodes) (hjoin before)
      | element tag children ending => rfl

theorem grow_text (hcs : cs ≠ []) (hplain : ∀ c ∈ cs, (c != '<' && c != '&') = true)
    (hrest : ∀ c ∈ rest.head?, c = '<' ∨ c = '&') :
    g.grow (cs ++ rest) = (g.addText (.ok (unifyLineEnds cs))).grow rest := by
  have hstop : rest.takeWhile (fun c => c != '<' && c != '&') = [] ∧
      rest.dropWhile (fun c => c != '<' && c != '&') = rest := by
    cases rest with
    | nil => exact ⟨rfl, rfl⟩
    | cons c rest =>
      have hc : (c != '<' && c != '&') = false := by
        rcases hrest c rfl with rfl | rfl <;> rfl
      exact ⟨List.takeWhile_cons_of_neg (by simp [hc]), List.dropWhile_cons_of_neg (by simp [hc])⟩
  cases cs with
  | nil => exact absurd rfl hcs
  | cons c cs =>
    have htail : ∀ d ∈ cs, (d != '<' && d != '&') = true :=
      fun d hd => hplain d (List.mem_cons_of_mem c hd)
    have hc : c ≠ '<' ∧ c ≠ '&' := by simpa using hplain c List.mem_cons_self
    have hstep : step c (cs ++ rest) = .ok (some (.text (c :: cs)), rest) := by
      unfold step
      rw [if_neg hc.1, if_neg hc.2, List.takeWhile_append_of_pos htail,
        List.dropWhile_append_of_pos htail, hstop.1, hstop.2, List.append_nil]
    exact grow_of_step hstep rfl

theorem grow_reference (h : Refers c name) :
    g.grow ('&' :: name ++ ';' :: rest) = (g.addText (.ok [c])).grow rest := by
  have hname : ∀ d ∈ name, (d != ';' && d != '&' && d != '<') = true := fun d hd => by
    simp [(h.bare d hd).1, (h.bare d hd).2.1, (h.bare d hd).2.2]
  have hstep : step '&' (name ++ ';' :: rest) = .ok (some (.reference name), rest) := by
    unfold step readReference
    rw [if_neg (by decide), if_pos rfl]
    dsimp only
    rw [List.takeWhile_append_of_pos hname, List.dropWhile_append_of_pos hname,
      List.takeWhile_cons_of_neg (by simp), List.dropWhile_cons_of_neg (by simp), List.append_nil]
    rfl
  refine grow_of_step hstep ?_
  rw [add, h.resolve]
  rfl

theorem grow_opening (hname : isNameChar c) (hfits : Fits (c :: content))
    (hlast : (c :: content).getLast? ≠ some '/') (rest : List Char) :
    g.grow ('<' :: c :: content ++ '>' :: rest) = grow
      { g with elements := ⟨.ofContent g.scope (c :: content),
        []⟩ :: g.elements, continued := false } rest := by
  have hstep : step '<' (c :: content ++ '>' :: rest) =
      .ok (some (.opening (c :: content)), rest) := by
    rw [List.cons_append, step_opening hname, readOpening, ← List.cons_append, hfits rest]
    dsimp only
    rw [if_neg hlast]
  exact grow_of_step hstep rfl

theorem grow_emptyElement (hname : isNameChar c) (hfits : Fits (c :: content ++ ['/']))
    (rest : List Char) :
    g.grow ('<' :: c :: content ++ "/>".toList ++ rest) = (g.update
      (.element (.ofContent g.scope (c :: content)) [] .closed :: ·) false).grow rest := by
  have hstep : step '<' (c :: content ++ ['/'] ++ '>' :: rest) =
      .ok (some (.emptyElement (c :: content)), rest) := by
    rw [List.cons_append, List.cons_append, step_opening hname, readOpening, ← List.cons_append,
      ← List.cons_append, hfits rest]
    dsimp only
    rw [List.getLast?_concat, if_pos rfl, List.dropLast_concat]
  have htext : '<' :: c :: content ++ "/>".toList ++ rest =
      '<' :: (c :: content ++ ['/'] ++ '>' :: rest) := by simp
  rw [htext]
  exact grow_of_step hstep rfl

theorem closingName_append (hname : IsTagName name) (hgap : ∀ c ∈ gap, Text.isBlank c) :
    closingName (name ++ gap) = name := by
  obtain ⟨front, last, rfl⟩ := (List.eq_nil_or_concat name).resolve_left hname.1
  rw [List.concat_eq_append] at hname ⊢
  have hlast : Text.isBlank last = false := not_isBlank_of_isNameChar (hname.2 last (by simp))
  have hnot : ¬ (front ++ [last] ++ gap).all Text.isBlank := by simp [hlast]
  have hdrop : (front ++ [last] ++ gap).reverse.dropWhile Text.isBlank =
      (front ++ [last]).reverse := by
    rw [List.reverse_append,
      List.dropWhile_append_of_pos fun c hc => hgap c (List.mem_reverse.mp hc), List.reverse_append,
      List.reverse_singleton, List.singleton_append, List.dropWhile_cons_of_neg (by simp [hlast])]
  unfold closingName
  rw [if_neg hnot, hdrop, List.reverse_reverse]

theorem fits_closing (hname : IsTagName name) (hgap : ∀ c ∈ gap, Text.isBlank c) :
    Fits (name ++ gap) := by
  have hfits := fits_nil.behind (forall_not_end (a := name ++ gap) fun c hc =>
    (List.mem_append.mp hc).imp (hname.2 c) (hgap c))
  rwa [List.append_nil] at hfits

theorem grow_closing {e : OpenElement} {above : List OpenElement} (hfits : Fits content)
    (hcontent : closingName content = name) (he : g.elements = e :: above)
    (htag : e.tag.name = name) (rest : List Char) :
    g.grow ("</".toList ++ content ++ '>' :: rest) = (g.close .closed).grow rest := by
  have hstep : step '<' ('/' :: (content ++ '>' :: rest)) = .ok (some (.closing name), rest) := by
    have hread : step '<' ('/' :: (content ++ '>' :: rest)) =
        readClosing (content ++ '>' :: rest) := rfl
    rw [hread, readClosing, hfits rest]
    dsimp only
    rw [hcontent]
  have htext : "</".toList ++ content ++ '>' :: rest = '<' :: '/' :: (content ++ '>' :: rest) := by
    simp
  rw [htext]
  refine grow_of_step hstep ?_
  rw [add, he]
  dsimp only
  rw [if_pos htag.symm]

end Growth
end FeatureDepot.Markup
