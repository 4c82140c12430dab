import FeatureDepot.Markup.Writer
import FeatureDepot.Markup.Reference
import Mathlib.Data.List.Basic

/-! Text that is written with references for the characters of markup, and line ends that become
one. Neither touches what the other is about: no line end is a character of markup. -/
namespace FeatureDepot.Markup

/-- A character that takes part in no line end but a line feed. -/
def IsInLine (c : Char) : Prop := c ≠ '\r' ∧ c ≠ '\u0085' ∧ c ≠ '\u2028'

instance : DecidablePred IsInLine := fun _ => inferInstanceAs (Decidable (_ ∧ _))

/-- A character that stands for itself in text. -/
def isVerbatim (c : Char) : Bool := c != '<' && c != '>' && c != '&'

variable {c : Char} {cs name rest a b : List Char} {position total : Nat}

lemma unifyLineEnds_cons (hc : c = '\r' → cs.head? ≠ some '\n' ∧ cs.head? ≠ some '\u0085') :
    unifyLineEnds (c :: cs) = (if c = '\r' ∨ c = '\u0085' ∨ c = '\u2028' then '\n' else c) ::
      unifyLineEnds cs := by
  rw [unifyLineEnds.eq_def]
  split
  next => simp_all
  next => simp_all
  next => simp_all
  next h =>
    obtain ⟨rfl, rfl⟩ := List.cons.inj h
    rfl

theorem unifyLineEnds_cons_of_isInLine (hc : IsInLine c) (cs : List Char) :
    unifyLineEnds (c :: cs) = c :: unifyLineEnds cs := by
  obtain ⟨hreturn, hnext, hseparator⟩ := hc
  rw [unifyLineEnds_cons fun h => absurd h hreturn]
  simp [hreturn, hnext, hseparator]

theorem unifyLineEnds_eq_self (h : ∀ c ∈ cs, IsInLine c) : unifyLineEnds cs = cs := by
  induction cs with
  | nil => rfl
  | cons c cs ih =>
    rw [unifyLineEnds_cons_of_isInLine (h c List.mem_cons_self),
      ih fun d hd => h d (List.mem_cons_of_mem c hd)]

/-- Line ends are unified piece by piece, unless a piece is cut within one. -/
theorem unifyLineEnds_append (h : b.head? ≠ some '\n' ∧ b.head? ≠ some '\u0085') :
    unifyLineEnds (a ++ b) = unifyLineEnds a ++ unifyLineEnds b := by
  fun_induction unifyLineEnds a with
  | case1 => rfl
  | case2 cs ih => simp [unifyLineEnds, ih]
  | case3 cs ih => simp [unifyLineEnds, ih]
  | case4 c cs hfeed hnext ih =>
    have hhead : c = '\r' → (cs ++ b).head? ≠ some '\n' ∧ (cs ++ b).head? ≠ some '\u0085' := by
      rintro rfl
      cases cs with
      | nil => exact h
      | cons d cs =>
        simpa using ⟨fun hd => hfeed cs rfl (by rw [hd]), fun hd => hnext cs rfl (by rw [hd])⟩
    rw [List.cons_append, unifyLineEnds_cons hhead, ih, List.cons_append]

theorem escapeText_of_isVerbatim (h : ∀ c ∈ cs, isVerbatim c) : escapeText cs = cs := by
  induction cs with
  | nil => rfl
  | cons c cs ih =>
    have hc := h c List.mem_cons_self
    have hescape : escapeChar c = [c] := by
      unfold escapeChar
      split <;> simp_all [isVerbatim]
    rw [escapeText, List.flatMap_cons, hescape]
    exact congrArg (c :: ·) (ih fun d hd => h d (List.mem_cons_of_mem c hd))

/-- Whether all characters of a text have a property is decided by looking at these, not at every
character. -/
instance decidableForallMem (cs : List Char) (p : Char → Prop) [DecidablePred p] :
    Decidable (∀ c ∈ cs, p c) :=
  List.decidableBAll p cs

/-- A character with a reference of its own. -/
structure Refers (c : Char) (name : List Char) : Prop where
  resolve (start : Nat) : resolve start name = .ok c
  bare : ∀ d ∈ name, d ≠ ';' ∧ d ≠ '&' ∧ d ≠ '<'

lemma refers_lt : Refers '<' "lt".toList := ⟨fun _ => rfl, by decide⟩
lemma refers_gt : Refers '>' "gt".toList := ⟨fun _ => rfl, by decide⟩
lemma refers_amp : Refers '&' "amp".toList := ⟨fun _ => rfl, by decide⟩
lemma refers_quot : Refers '"' "quot".toList := ⟨fun _ => rfl, by decide⟩

/-- A character of markup is written as its reference. -/
theorem exists_refers (hc : isVerbatim c = false) :
    ∃ name, Refers c name ∧ escapeChar c = '&' :: name ++ [';'] := by
  have hcases : c = '<' ∨ c = '>' ∨ c = '&' := by
    unfold isVerbatim at hc
    by_contra! h
    simp [h] at hc
  rcases hcases with rfl | rfl | rfl
  · exact ⟨_, refers_lt, rfl⟩
  · exact ⟨_, refers_gt, rfl⟩
  · exact ⟨_, refers_amp, rfl⟩

lemma unescapeFrom_reference (h : Refers c name) :
    unescapeFrom position total ('&' :: name ++ ';' :: rest) =
      (unescapeFrom (position + Text.size name + 2) total rest).map (c :: ·) := by
  have hname : ∀ d ∈ name, (d != '&' && d != ';') = true := fun d hd => by
    simp [(h.bare d hd).1, (h.bare d hd).2.1]
  have htake : (name ++ ';' :: rest).takeWhile (fun d => d != '&' && d != ';') = name := by
    rw [List.takeWhile_append_of_pos hname, List.takeWhile_cons_of_neg (by simp), List.append_nil]
  have hdrop : (name ++ ';' :: rest).dropWhile (fun d => d != '&' && d != ';') = ';' :: rest := by
    rw [List.dropWhile_append_of_pos hname, List.dropWhile_cons_of_neg (by simp)]
  rw [List.cons_append, unescapeFrom]
  rw [if_pos rfl, htake]
  dsimp only
  split
  next rest' heq =>
    obtain rfl : rest = rest' := by simpa using hdrop.symm.trans heq
    rw [h.resolve]
    cases unescapeFrom (position + Text.size name + 2) total rest <;> rfl
  next hne => exact absurd hdrop (hne rest)

lemma unescapeFrom_verbatim (hc : c ≠ '&') : unescapeFrom position total (c :: cs) =
    (unescapeFrom (position + c.utf8Size) total cs).map (c :: ·) := by
  rw [unescapeFrom, if_neg hc]

/-- How a value is spelled: character by character, with references. -/
inductive SpellsValue : List Char → List Char → Prop
  | nil : SpellsValue [] []
  | char {c : Char} {raw v : List Char} (hc : c ≠ '&') (h : SpellsValue raw v) :
      SpellsValue (c :: raw) (c :: v)
  | reference {c : Char} {name raw v : List Char} (hc : Refers c name) (h : SpellsValue raw v) :
      SpellsValue ('&' :: name ++ ';' :: raw) (c :: v)

/-- However it is spelled, a value is read as what it is. -/
theorem unescape_of_spellsValue {raw v : List Char} (h : SpellsValue raw v) :
    unescape raw = .ok v := by
  have hfrom : ∀ position total, unescapeFrom position total raw = .ok v := by
    induction h with
    | nil =>
      intro position total
      rw [unescapeFrom]
    | char hc h ih =>
      intro position total
      rw [unescapeFrom_verbatim hc, ih]
      rfl
    | reference hc h ih =>
      intro position total
      rw [unescapeFrom_reference hc, ih]
      rfl
  exact hfrom 0 _

/-- Escaping spells a value: verbatim characters with references between them. -/
theorem spellsValue_escapeValue (v : List Char) : SpellsValue (escapeValue v) v := by
  induction v with
  | nil => exact .nil
  | cons c v ih =>
    rw [escapeValue, List.flatMap_cons, ← escapeValue]
    by_cases hquote : c = '"'
    · rw [if_pos hquote, hquote]
      exact .reference refers_quot ih
    · rw [if_neg hquote]
      cases hc : isVerbatim c with
      | false =>
        obtain ⟨name, hname, hescape⟩ := exists_refers hc
        rw [hescape]
        simpa using SpellsValue.reference hname ih
      | true =>
        have hself := escapeText_of_isVerbatim (List.forall_mem_singleton.mpr hc)
        rw [escapeText, List.flatMap_singleton] at hself
        rw [hself]
        have hamp : c ≠ '&' := by
          rintro rfl
          cases hc
        exact .char hamp ih

/-- A value is read as it was before it was written. -/
theorem unescape_escapeValue (cs : List Char) : unescape (escapeValue cs) = .ok cs :=
  unescape_of_spellsValue (spellsValue_escapeValue cs)

end FeatureDepot.Markup
