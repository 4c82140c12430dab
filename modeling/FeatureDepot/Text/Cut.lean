/-! Cutting a text in two at a separator, at its first occurrence or at its last one. Written with
the separator between them, the parts are the text again. -/
namespace FeatureDepot.Text

/-- The parts before and after the first separator. -/
def cutFirst? (sep : Char) : List Char → Option (List Char × List Char)
  | [] => none
  | c :: cs => if c = sep then some ([], cs) else (cutFirst? sep cs).map fun (a, b) => (c :: a, b)

/-- The parts before and after the last separator. -/
def cutLast? (sep : Char) : List Char → Option (List Char × List Char)
  | [] => none
  | c :: cs =>
    match cutLast? sep cs with
    | some (a, b) => some (c :: a, b)
    | none => if c = sep then some ([], cs) else none

/-- The parts before and after the first occurrence of a text. -/
def cutText? (sep : List Char) : List Char → Option (List Char × List Char)
  | [] => none
  | c :: cs =>
    match sep.isPrefixOf? (c :: cs) with
    | some rest => some ([], rest)
    | none => (cutText? sep cs).map fun (a, b) => (c :: a, b)

theorem length_of_isPrefixOf? {p cs rest : List Char} (h : p.isPrefixOf? cs = some rest) :
    rest.length ≤ cs.length := by
  induction p generalizing cs with
  | nil => exact Nat.le_of_eq (congrArg List.length (Option.some.inj h).symm)
  | cons c p ih =>
    cases cs with
    | nil => cases h
    | cons d cs =>
      have hstep : (c :: p).isPrefixOf? (d :: cs) = if c == d then p.isPrefixOf? cs else none := rfl
      rw [hstep] at h
      split at h
      next => exact Nat.le_succ_of_le (ih h)
      next => cases h

theorem length_of_cutText? {sep cs a b : List Char} (h : cutText? sep cs = some (a, b)) :
    b.length ≤ cs.length := by
  fun_induction cutText? sep cs generalizing a with
  | case1 => cases h
  | case2 c cs rest hrest =>
    obtain ⟨-, rfl⟩ := Prod.mk.injEq .. ▸ Option.some.inj h
    exact length_of_isPrefixOf? hrest
  | case3 c cs hrest ih =>
    obtain ⟨⟨a', b'⟩, h', e⟩ := Option.map_eq_some_iff.mp h
    obtain ⟨-, rfl⟩ := Prod.mk.injEq .. ▸ e
    exact Nat.le_succ_of_le (ih h')

theorem cutFirst?_eq_some {sep : Char} {cs a b : List Char} (h : cutFirst? sep cs = some (a, b)) :
    cs = a ++ sep :: b ∧ sep ∉ a := by
  induction cs generalizing a with
  | nil => simp [cutFirst?] at h
  | cons c cs ih =>
    simp only [cutFirst?] at h
    split at h
    next hc => simp_all
    next hc =>
      obtain ⟨⟨a', b'⟩, h', e⟩ := Option.map_eq_some_iff.mp h
      obtain ⟨rfl, rfl⟩ := Prod.mk.injEq .. ▸ e
      obtain ⟨rfl, hn⟩ := ih h'
      exact ⟨rfl, by simp [hn, Ne.symm hc]⟩

theorem cutFirst?_append {sep : Char} {a : List Char} (h : sep ∉ a) (b : List Char) :
    cutFirst? sep (a ++ sep :: b) = some (a, b) := by
  induction a with
  | nil => simp [cutFirst?]
  | cons c a ih =>
    obtain ⟨hc, ha⟩ : sep ≠ c ∧ sep ∉ a := by simpa using h
    simp [cutFirst?, Ne.symm hc, ih ha]

theorem cutFirst?_eq_none {sep : Char} {cs : List Char} : cutFirst? sep cs = none ↔ sep ∉ cs := by
  induction cs with
  | nil => simp [cutFirst?]
  | cons c cs ih =>
    by_cases hc : c = sep
    · simp [cutFirst?, hc]
    · simp [cutFirst?, hc, ih, Ne.symm hc]

theorem cutLast?_eq_none {sep : Char} {cs : List Char} : cutLast? sep cs = none ↔ sep ∉ cs := by
  induction cs with
  | nil => simp [cutLast?]
  | cons c cs ih =>
    cases h : cutLast? sep cs with
    | some p =>
      have : sep ∈ cs := by
        refine Classical.byContradiction fun hn => ?_
        rw [ih.mpr hn] at h
        cases h
      simp [cutLast?, h, this]
    | none =>
      have hn := ih.mp h
      by_cases hc : c = sep <;> simp [cutLast?, h, hc, hn, eq_comm]
      exact fun e => hc e.symm

theorem cutLast?_eq_some {sep : Char} {cs a b : List Char} (h : cutLast? sep cs = some (a, b)) :
    cs = a ++ sep :: b ∧ sep ∉ b := by
  induction cs generalizing a with
  | nil => simp [cutLast?] at h
  | cons c cs ih =>
    simp only [cutLast?] at h
    split at h
    next a' b' h' =>
      obtain ⟨rfl, rfl⟩ := Prod.mk.injEq .. ▸ Option.some.inj h
      obtain ⟨rfl, hn⟩ := ih h'
      exact ⟨rfl, hn⟩
    next h' =>
      split at h
      next hc =>
        obtain ⟨rfl, rfl⟩ := Prod.mk.injEq .. ▸ Option.some.inj h
        exact ⟨by simp [hc], cutLast?_eq_none.mp h'⟩
      next => cases h

theorem cutLast?_append {sep : Char} {b : List Char} (h : sep ∉ b) (a : List Char) :
    cutLast? sep (a ++ sep :: b) = some (a, b) := by
  induction a with
  | nil => simp [cutLast?, cutLast?_eq_none.mpr h]
  | cons c a ih => simp [cutLast?, ih]

end FeatureDepot.Text
