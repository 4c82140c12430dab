import Mathlib.Data.List.Forall2

/-! Actions over the items of a list, one after the other. An action that can fail ends the batch at
its first failure; one that carries a state hands it on from item to item. -/
namespace FeatureDepot.Batch

variable {α β ε σ : Type}

theorem bind_eq_ok_iff {x : Except ε α} {f : α → Except ε β} {b : β} :
    x >>= f = .ok b ↔ ∃ a, x = .ok a ∧ f a = .ok b := by
  cases x <;> simp [bind, Except.bind]

/-- A batch succeeds with the results of its items, in order. -/
theorem mapM_eq_ok_iff {f : α → Except ε β} {as : List α} {bs : List β} :
    as.mapM f = .ok bs ↔ List.Forall₂ (fun a b => f a = .ok b) as bs := by
  induction as generalizing bs with
  | nil => simp [pure, Except.pure, List.forall₂_nil_left_iff, eq_comm]
  | cons a as ih =>
    rw [List.mapM_cons, bind_eq_ok_iff, List.forall₂_cons_left_iff]
    refine exists_congr fun b => ?_
    rw [bind_eq_ok_iff]
    constructor
    · rintro ⟨hb, cs, hcs, hpure⟩
      exact ⟨cs, hb, ih.mp hcs, (Except.ok.inj hpure).symm⟩
    · rintro ⟨cs, hb, hcs, rfl⟩
      exact ⟨hb, cs, ih.mpr hcs, rfl⟩

/-- A batch fails with the failure of its first item that fails. -/
theorem mapM_eq_error_iff {f : α → Except ε β} {as : List α} {e : ε} :
    as.mapM f = .error e ↔ ∃ before a after, as = before ++ a :: after ∧
      (∀ b ∈ before, ∃ c, f b = .ok c) ∧ f a = .error e := by
  induction as with
  | nil => simp [pure, Except.pure]
  | cons a as ih =>
    rw [List.mapM_cons]
    cases ha : f a with
    | error e' =>
      constructor
      · intro h
        obtain rfl : e' = e := by simpa [bind, Except.bind] using h
        exact ⟨[], a, as, rfl, by simp, ha⟩
      · rintro ⟨before, b, after, heq, hbefore, hb⟩
        cases before with
        | nil =>
          obtain ⟨rfl, rfl⟩ := List.cons.inj heq
          simpa [bind, Except.bind] using ha.symm.trans hb
        | cons c before =>
          obtain ⟨rfl, -⟩ := List.cons.inj heq
          obtain ⟨r, hr⟩ := hbefore a List.mem_cons_self
          rw [ha] at hr
          cases hr
    | ok r =>
      have hrest : (do let b ← Except.ok r; return b :: (← as.mapM f)) = .error e ↔
          as.mapM f = .error e := by
        cases as.mapM f <;> simp [bind, Except.bind, pure, Except.pure]
      rw [hrest, ih]
      constructor
      · rintro ⟨before, b, after, rfl, hbefore, hb⟩
        exact ⟨a :: before, b, after, rfl, by simpa [ha] using hbefore, hb⟩
      · rintro ⟨before, b, after, heq, hbefore, hb⟩
        cases before with
        | nil =>
          obtain ⟨rfl, -⟩ := List.cons.inj heq
          rw [ha] at hb
          cases hb
        | cons c before =>
          obtain ⟨rfl, rfl⟩ := List.cons.inj heq
          exact ⟨before, b, after, rfl, fun d hd => hbefore d (List.mem_cons_of_mem _ hd), hb⟩

theorem exists_mapM_eq_ok_iff {f : α → Except ε β} {as : List α} :
    (∃ bs, as.mapM f = .ok bs) ↔ ∀ a ∈ as, ∃ b, f a = .ok b := by
  simp only [mapM_eq_ok_iff]
  induction as with
  | nil => simp
  | cons a as ih =>
    rw [List.forall_mem_cons, ← ih]
    constructor
    · rintro ⟨bs, h⟩
      cases h with
      | cons ha has => exact ⟨⟨_, ha⟩, _, has⟩
    · rintro ⟨⟨b, hb⟩, bs, hbs⟩
      exact ⟨b :: bs, .cons hb hbs⟩

theorem mem_iff_of_mapM_eq_ok {f : α → Except ε β} {as : List α} {bs : List β}
    (h : as.mapM f = .ok bs) (b : β) :
    b ∈ bs ↔ ∃ a ∈ as, f a = .ok b := by
  have hrel := mapM_eq_ok_iff.mp h
  clear h
  induction hrel with
  | nil => simp
  | @cons a c as bs hac _ ih => simp [List.mem_cons, ih, hac, eq_comm]

/-- A batch of actions that cannot fail, carried out in order: each item on the state that those
before it have left, with its result in its place. -/
inductive Carried (f : α → StateM σ β) : List α → σ → List β → σ → Prop
  | nil (s : σ) : Carried f [] s [] s
  | cons {a : α} {as : List α} {b : β} {bs : List β} {s s' s'' : σ} (head : (f a).run s = (b, s'))
      (tail : Carried f as s' bs s'') : Carried f (a :: as) s (b :: bs) s''

variable {f : α → StateM σ β} {as : List α} {bs : List β} {s s' : σ}

theorem mapM_run_cons (f : α → StateM σ β) (a : α) (as : List α) (s : σ) :
    ((a :: as).mapM f).run s = (((f a).run s).1 :: ((as.mapM f).run ((f a).run s).2).1,
      ((as.mapM f).run ((f a).run s).2).2) := by
  rw [List.mapM_cons]
  rfl

/-- A batch of a state monad is carried out from the first item to the last. -/
theorem carried_mapM (f : α → StateM σ β) (as : List α) (s : σ) :
    Carried f as s ((as.mapM f).run s).1 ((as.mapM f).run s).2 := by
  induction as generalizing s with
  | nil => exact .nil s
  | cons a as ih =>
    rw [mapM_run_cons]
    exact .cons rfl (ih _)

/-- The items of a batch, each with the state that it finds at its turn. -/
def turns (f : α → StateM σ β) : List α → σ → List (α × σ)
  | [], _ => []
  | a :: as, s => (a, s) :: turns f as ((f a).run s).2

theorem map_fst_turns (f : α → StateM σ β) (as : List α) (s : σ) :
    (turns f as s).map Prod.fst = as := by
  induction as generalizing s with
  | nil => rfl
  | cons a as ih => rw [turns, List.map_cons, ih]

/-- Every result of a batch is what its item gives at its turn. -/
theorem mapM_run_fst (f : α → StateM σ β) (as : List α) (s : σ) :
    ((as.mapM f).run s).1 = (turns f as s).map fun t => ((f t.1).run t.2).1 := by
  induction as generalizing s with
  | nil => rfl
  | cons a as ih => rw [mapM_run_cons, turns, List.map_cons, ih]

/-- Items that leave the state alone at their turn can be left out of a batch: the others find the
same states, and give the same results. -/
theorem mapM_run_filter_turns {keep : α × σ → Bool}
    (hkeep : ∀ a s, keep (a, s) = false → ((f a).run s).2 = s) (as : List α) (s : σ) :
    ((((turns f as s).filter keep).map Prod.fst).mapM f).run s =
      (((turns f as s).filter keep).map fun t => ((f t.1).run t.2).1, ((as.mapM f).run s).2) := by
  induction as generalizing s with
  | nil => rfl
  | cons a as ih =>
    rw [turns, mapM_run_cons]
    cases h : keep (a, s) with
    | false =>
      rw [List.filter_cons_of_neg (by simp [h]), hkeep a s h]
      exact ih s
    | true =>
      rw [List.filter_cons_of_pos h, List.map_cons, List.map_cons, mapM_run_cons, ih]

/-- What some items of a list are mapped to, seen in the list itself or picked from what all are
mapped to. -/
theorem map_snd_filter_zip_map (g : α → β) (keep : α → Bool) (as : List α) :
    ((as.zip (as.map g)).filter fun p => keep p.1).map Prod.snd = (as.filter keep).map g := by
  induction as with
  | nil => rfl
  | cons a as ih =>
    rw [List.map_cons, List.zip_cons_cons, List.filter_cons, List.filter_cons]
    cases keep a with
    | false => exact ih
    | true => rw [if_pos rfl, if_pos rfl, List.map_cons, List.map_cons, ih]

namespace Carried

/-- The parts of a batch are batches, one behind the other. -/
theorem append {as' : List α} (h : Carried f (as ++ as') s bs s') : ∃ front back middle,
    bs = front ++ back ∧ Carried f as s front middle ∧ Carried f as' middle back s' := by
  induction as generalizing s bs with
  | nil => exact ⟨[], bs, s, rfl, .nil s, h⟩
  | cons a as ih =>
    cases h with
    | @cons _ _ b bs _ next _ head tail =>
      obtain ⟨front, back, middle, rfl, hfront, hback⟩ := ih tail
      exact ⟨b :: front, back, middle, rfl, .cons head hfront, hback⟩

lemma length_eq (h : Carried f as s bs s') : bs.length = as.length := by
  induction h with
  | nil => rfl
  | cons head tail ih => rw [List.length_cons, List.length_cons, ih]

/-- The item at a position, with what goes before it and what comes behind it. -/
theorem at_position {before after : List α} {a : α} {front back : List β} {b : β}
    (h : Carried f (before ++ a :: after) s (front ++ b :: back) s')
    (hlength : front.length = before.length) :
    ∃ s₁ s₂, Carried f before s front s₁ ∧ (f a).run s₁ = (b, s₂) ∧ Carried f after s₂ back s' := by
  obtain ⟨front', back', s₁, hsplit, hfront, hback⟩ := h.append
  obtain ⟨rfl, rfl⟩ := List.append_inj hsplit (hlength.trans hfront.length_eq.symm)
  cases hback with
  | cons head tail => exact ⟨s₁, _, hfront, head, tail⟩

theorem exists_of_mem (h : Carried f as s bs s') :
    ∀ b ∈ bs, ∃ a ∈ as, ∃ t, b = ((f a).run t).1 := by
  induction h with
  | nil => simp
  | @cons a as b bs s next _ head tail ih =>
    intro c hc
    rcases List.mem_cons.mp hc with rfl | hc
    · exact ⟨a, List.mem_cons_self, s, by rw [head]⟩
    · obtain ⟨d, hd, t, ht⟩ := ih c hc
      exact ⟨d, List.mem_cons_of_mem _ hd, t, ht⟩

/-- What does not depend on the state can be told from the items alone. -/
theorem map_eq {γ : Type} (h : Carried f as s bs s') {view : β → γ} {g : α → γ}
    (hview : ∀ a t, view ((f a).run t).1 = g a) : bs.map view = as.map g := by
  induction h with
  | nil => rfl
  | @cons a as b bs s next _ head tail ih =>
    have hb := hview a s
    rw [head] at hb
    rw [List.map_cons, List.map_cons, ih, ← hb]

end Carried
end FeatureDepot.Batch
