import FeatureDepot.Proofs.Markup.Prose

/-! The tree of what is written. Reading the text of an element gives its node: the indentation
between its children is text of its own, text in a leaf has its line ends unified, and nothing else
is lost or added. -/
namespace FeatureDepot.Markup.Written
open Token Growth

variable {name v : List Char} {attributes : List (List Char × List Char)} {scope : Scope}
  {depth : Nat} {g : Growth} {ws : List Written}

/-- The content of an opening tag. -/
def opening (name : List Char) (attributes : List (List Char × List Char)) : List Char :=
  name ++ attributes.flatMap fun (key, value) =>
    ' ' :: key ++ "=\"".toList ++ escapeValue value ++ ['"']

mutual

/-- All names are made of letters. -/
def Worded : Written → Prop
  | leaf name _ => IsWord name
  | branch name attributes children =>
    IsWord name ∧ (∀ a ∈ attributes, IsWord a.1) ∧ WordedAll children

def WordedAll : List Written → Prop
  | [] => True
  | w :: ws => Worded w ∧ WordedAll ws

end

theorem wordedAll_iff : WordedAll ws ↔ ∀ w ∈ ws, Worded w := by
  induction ws with
  | nil => simp [WordedAll]
  | cons w ws ih => simp [WordedAll, ih]

/-- Nodes on lines of their own, and the line of the closing tag behind them. -/
def lined (depth : Nat) : List Node → List Node
  | [] => []
  | inside => inside ++ [.text (.ok (indent depth))]

mutual

/-- The node that an element is read as. -/
def node (scope : Scope) (depth : Nat) : Written → Node
  | leaf name content =>
    .element (.ofContent scope name) (if content = [] then []
      else [.text (.ok (unifyLineEnds content))]) .closed
  | branch name attributes children =>
    let tag := Tag.ofContent scope (opening name attributes)
    .element tag (lined depth (nodes tag.scope (depth + 1) children)) .closed

/-- The nodes that elements on lines of their own are read as. -/
def nodes (scope : Scope) (depth : Nat) : List Written → List Node
  | [] => []
  | w :: ws => .text (.ok (indent depth)) :: node scope depth w :: nodes scope depth ws

end

theorem not_mem_escapeValue (v : List Char) : '"' ∉ escapeValue v := by
  intro h
  obtain ⟨c, -, hc⟩ := List.mem_flatMap.mp h
  split at hc
  next => simp at hc
  next hquote =>
    unfold escapeChar at hc
    split at hc
    next => simp at hc
    next => simp at hc
    next => simp at hc
    next => exact hquote (List.mem_singleton.mp hc).symm

lemma fits_opening (hname : IsWord name) (hattributes : ∀ a ∈ attributes, IsWord a.1)
    {b : List Char} (hb : Fits b) :
    Fits (opening name attributes ++ b) := by
  have hplain : ∀ {key : List Char}, IsWord key → ∀ c ∈ key, c ≠ '>' ∧ c ≠ '"' ∧ c ≠ '\'' :=
    fun hkey c hc => ⟨isAlpha_ne (hkey.2 c hc) rfl, isAlpha_ne (hkey.2 c hc) rfl,
      isAlpha_ne (hkey.2 c hc) rfl⟩
  have hvalues : Fits (attributes.flatMap (fun (key, value) =>
      ' ' :: key ++ "=\"".toList ++ escapeValue value ++ ['"']) ++ b) := by
    induction attributes with
    | nil => exact hb
    | cons a attributes ih =>
      obtain ⟨key, value⟩ := a
      have hrest := ih fun a ha => hattributes a (List.mem_cons_of_mem _ ha)
      have hkey : IsWord key := hattributes (key, value) List.mem_cons_self
      have hbehind := (hrest.quoted (.inl rfl) (not_mem_escapeValue value)).behind
        (a := ' ' :: key ++ ['=']) fun c hc => by
        rcases List.mem_append.mp hc with hc | hc
        · rcases List.mem_cons.mp hc with rfl | hc
          · decide
          · exact hplain hkey c hc
        · obtain rfl := List.mem_singleton.mp hc
          decide
      rw [List.flatMap_cons]
      simpa using hbehind
  rw [opening, List.append_assoc]
  exact hvalues.behind (hplain hname)

lemma getLast?_opening (hname : IsWord name) : (opening name attributes).getLast? ≠ some '/' := by
  rcases List.eq_nil_or_concat attributes with rfl | ⟨front, last, rfl⟩
  · intro h
    rw [opening, List.flatMap_nil, List.append_nil] at h
    exact isAlpha_ne (hname.2 '/' (List.mem_of_getLast? h)) rfl rfl
  · rw [opening, List.concat_eq_append, List.flatMap_append, List.flatMap_singleton,
      ← List.append_assoc, ← List.append_assoc, List.getLast?_concat]
    simp

theorem name_ofContent_opening (hname : IsWord name) (scope : Scope) :
    (Tag.ofContent scope (opening name attributes)).name = name := by
  have hblank : ∀ c ∈ name, (!Text.isBlank c) = true := fun c hc => by
    rw [not_isBlank_of_isAlpha (hname.2 c hc)]; rfl
  have htake : (opening name attributes).takeWhile (!Text.isBlank ·) = name := by
    rw [opening, List.takeWhile_append_of_pos hblank]
    cases attributes with
    | nil => simp
    | cons a attributes =>
      rw [List.flatMap_cons, List.append_assoc, List.append_assoc, List.append_assoc,
        List.cons_append, List.takeWhile_cons_of_neg (by simp [Text.isBlank]), List.append_nil]
  exact htake

lemma exists_between (opening name content : List Char) :
    ∃ cs, between opening name content = '<' :: cs := by
  unfold between
  split
  · exact ⟨_, rfl⟩
  · exact ⟨_, rfl⟩

theorem exists_render (depth : Nat) (w : Written) : ∃ cs, render depth w = '<' :: cs := by
  cases w with
  | leaf name content => exact exists_between _ _ _
  | branch name attributes children =>
    rw [render]
    dsimp only
    split
    · exact exists_between _ _ _
    · exact exists_between _ _ _

theorem grow_indent (hg : g.continued = false) (depth : Nat) (rest : List Char) :
    g.grow (indent depth ++ '<' :: rest) =
      (g.update (.text (.ok (indent depth)) :: ·) true).grow ('<' :: rest) := by
  have hchars : ∀ c ∈ indent depth, c = '\n' ∨ c = ' ' := by
    intro c hc
    exact (List.mem_cons.mp hc).imp_right List.eq_of_mem_replicate
  have hunify : unifyLineEnds (indent depth) = indent depth := by
    refine unifyLineEnds_eq_self fun c hc => ?_
    rcases hchars c hc with rfl | rfl
    · exact ⟨by decide, by decide, by decide⟩
    · exact ⟨by decide, by decide, by decide⟩
  have hplain : ∀ c ∈ indent depth, (c != '<' && c != '&') = true := by
    intro c hc
    rcases hchars c hc with rfl | rfl <;> rfl
  have hne : indent depth ≠ [] := List.cons_ne_nil _ _
  rw [grow_text hne hplain (by simp), hunify, addText_of_not_continued hg]

/-- An element that is opened, filled and closed is a node. -/
theorem close_update (g : Growth) (tag : Tag) (change : List Node → List Node) (flag : Bool) :
    (({ g with elements := ⟨tag, []⟩ :: g.elements, continued := false } : Growth).update
      change flag).close .closed =
    g.update (.element tag (change []).reverse .closed :: ·) false := by
  unfold close update
  cases g.elements <;> rfl

/-- The text of an element between its tags. -/
theorem grow_between (content : List Char) (inside : List Node) (hname : IsWord name)
    (hattributes : ∀ a ∈ attributes, IsWord a.1) (hnil : content = [] → inside = [])
    (hcontent : ∀ {g : Growth} (rest : List Char), content ≠ [] → g.continued = false →
      g.scope = (Tag.ofContent scope (opening name attributes)).scope →
      ∃ flag, g.grow (content ++ '<' :: rest) =
        (g.update (inside.reverse ++ ·) flag).grow ('<' :: rest))
    (hscope : g.scope = scope) (rest : List Char) :
    g.grow (between (opening name attributes) name content ++ rest) =
      (g.update (.element (.ofContent scope (opening name attributes)) inside .closed :: ·)
        false).grow rest := by
  obtain ⟨c, cs, hopening⟩ : ∃ c cs, opening name attributes = c :: cs := by
    cases h : opening name attributes with
    | nil => exact absurd (List.append_eq_nil_iff.mp h).1 hname.1
    | cons c cs => exact ⟨c, cs, rfl⟩
  have hc : c.isAlpha := by
    cases hn : name with
    | nil => exact absurd hn hname.1
    | cons d ds =>
      rw [opening, hn] at hopening
      obtain ⟨rfl, -⟩ := List.cons.inj hopening
      exact hname.2 d (hn ▸ List.mem_cons_self)
  have hfits : Fits (c :: cs) := by
    have h := fits_opening hname hattributes fits_nil
    rwa [List.append_nil, hopening] at h
  have hlast : (c :: cs).getLast? ≠ some '/' := hopening ▸ getLast?_opening hname
  have htag : (Tag.ofContent scope (opening name attributes)).name = name :=
    name_ofContent_opening hname scope
  rw [hopening] at htag hcontent ⊢
  unfold between
  split
  next hempty =>
    have hslash : Fits (c :: cs ++ ['/']) := by
      have hend : Fits ['/'] := fits_nil.behind (a := ['/']) (by decide)
      have h := fits_opening hname hattributes hend
      rwa [hopening] at h
    rw [hnil (List.isEmpty_iff.mp hempty), grow_emptyElement (isNameChar_of_isAlpha hc) hslash,
      hscope]
  next hempty =>
    have htext : '<' :: (c :: cs) ++ ['>'] ++ content ++ "</".toList ++ name ++ ['>'] ++ rest =
        '<' :: c :: cs ++ '>' :: (content ++ '<' :: ('/' :: name ++ '>' :: rest)) := by simp
    rw [htext, grow_opening (isNameChar_of_isAlpha hc) hfits hlast, hscope]
    obtain ⟨flag, hinside⟩ := hcontent
      (g := { g with
        elements := ⟨.ofContent scope (c :: cs), []⟩ :: g.elements, continued := false })
      ('/' :: name ++ '>' :: rest) (by simpa using hempty) rfl rfl
    rw [hinside]
    have hclosing : Fits (name ++ []) ∧ closingName (name ++ []) = name :=
      ⟨fits_closing hname.isTagName (by simp), closingName_append hname.isTagName (by simp)⟩
    rw [List.append_nil] at hclosing
    refine (grow_closing hclosing.1 hclosing.2 rfl htag rest).trans ?_
    rw [close_update, List.append_nil, List.reverse_reverse]

theorem update_self (hg : g.continued = false) : g.update (fun nodes => nodes) false = g := by
  unfold update
  cases h : g.elements <;> simp [← hg, ← h]

lemma renderAll_eq_nil (depth : Nat) : renderAll depth ws = [] ↔ ws = [] := by
  cases ws <;> simp [renderAll, indent]

lemma lined_of_ne_nil (depth : Nat) {inside : List Node} (h : inside ≠ []) :
    lined depth inside = inside ++ [.text (.ok (indent depth))] := by
  cases inside with
  | nil => exact absurd rfl h
  | cons => rfl

lemma nodes_eq_nil (scope : Scope) (depth : Nat) : nodes scope depth ws = [] ↔ ws = [] := by
  cases ws <;> simp [nodes]

mutual

/-- The text of an element is read as its node. -/
theorem grow_render (w : Written) (hw : w.Worded) (g : Growth) (depth : Nat) (rest : List Char) :
    g.grow (render depth w ++ rest) = (g.update (w.node g.scope depth :: ·) false).grow rest := by
  match w with
  | leaf name content =>
    rw [Worded] at hw
    have hopening : opening name [] = name := by simp [opening]
    have hattributes : ∀ a ∈ ([] : List (List Char × List Char)), IsWord a.1 :=
      fun _ ha => nomatch ha
    have hempty : escapeText content = [] → content = [] := by
      intro h
      cases content with
      | nil => rfl
      | cons c cs =>
        rw [escapeText, List.flatMap_cons] at h
        have hc := (List.append_eq_nil_iff.mp h).1
        unfold escapeChar at hc
        split at hc <;> cases hc
    have hbetween :=
      grow_between (g := g) (escapeText content) (if content = [] then []
        else [.text (.ok (unifyLineEnds content))]) hw hattributes
      (fun h => if_pos (hempty h)) ?_ rfl rest
    · rwa [hopening] at hbetween
    · intro g' rest' hne hg' _
      have hcontent : content ≠ [] := fun h => hne (by rw [h]; rfl)
      refine ⟨true, ?_⟩
      rw [grow_escapeText hcontent, addText_of_not_continued hg', if_neg hcontent]
      rfl
  | branch name attributes [] =>
    rw [Worded] at hw
    exact grow_between [] [] hw.1 hw.2.1 (fun _ => rfl) (fun _ h => absurd rfl h) rfl rest
  | branch name attributes (w :: ws) =>
    rw [Worded] at hw
    obtain ⟨hname, hattributes, hchildren⟩ := hw
    rw [render, node]
    dsimp only
    split
    next h => exact absurd ((renderAll_eq_nil _).mp h) (List.cons_ne_nil w ws)
    next =>
      refine grow_between _ _ hname hattributes (fun h => ?_) ?_ rfl rest
      · exact absurd (List.append_eq_nil_iff.mp h).2 (List.cons_ne_nil _ _)
      · intro g' rest' _ hg' hscope
        refine ⟨true, ?_⟩
        rw [List.append_assoc, grow_renderAll (w :: ws) hchildren g' hg',
          grow_indent (continued_update ..), update_update, hscope,
          lined_of_ne_nil _ (mt (nodes_eq_nil _ _).mp (List.cons_ne_nil w ws)), List.reverse_append]
        rfl

/-- Elements on lines of their own are read as their nodes. -/
theorem grow_renderAll (ws : List Written) (hws : WordedAll ws) (g : Growth)
    (hg : g.continued = false) (depth : Nat) (rest : List Char) :
    g.grow (renderAll depth ws ++ rest) =
      (g.update ((nodes g.scope depth ws).reverse ++ ·) false).grow rest := by
  match ws with
  | [] =>
    have hnone : g.update ((nodes g.scope depth []).reverse ++ ·) false = g := update_self hg
    rw [hnone]
    rfl
  | w :: ws =>
    rw [WordedAll] at hws
    obtain ⟨cs, hrender⟩ := exists_render depth w
    have hline : renderAll depth (w :: ws) ++ rest =
        indent depth ++ '<' :: (cs ++ (renderAll depth ws ++ rest)) := by
      rw [renderAll, hrender]
      simp
    have hnode := grow_render w hws.1 (g.update (.text (.ok (indent depth)) :: ·) true) depth
      (renderAll depth ws ++ rest)
    rw [hrender, update_update, scope_update] at hnode
    rw [hline, grow_indent hg, ← List.cons_append, hnode,
      grow_renderAll ws hws.2 _ (continued_update ..), scope_update, update_update, nodes]
    simp

end

end FeatureDepot.Markup.Written
