import FeatureDepot.Proofs.Closure.Search
import Mathlib.Order.Bounds.Defs

/-! How far the items of a search are from its start. The queue holds items of one distance, and
behind them items that are one step further; so a search never visits an item before one that is
nearer. -/
namespace FeatureDepot.Closure

variable {α : Type} {follow : α → List α} {start seen near far queue order : List α}
  {distance turns : Nat} {a : α}

/-- The items that chains of a given length lead to. -/
inductive Chain (follow : α → List α) (start : List α) : Nat → α → Prop
  | start {a : α} (h : a ∈ start) : Chain follow start 0 a
  | step {n : Nat} {a b : α} (h : Chain follow start n a) (hb : b ∈ follow a) :
      Chain follow start (n + 1) b

/-- Where a search stands among the items at one distance. Those of them that are still to come are
in front of the queue, and behind them are items one step further. What is nearer was seen, and what
follows a seen item was seen or is in the queue. -/
structure Frontier (follow : α → List α) (start : List α) (distance : Nat)
    (seen near far : List α) : Prop where
  inFront : ∀ a ∈ near, Chain follow start distance a
  behind : ∀ a ∈ far, Chain follow start (distance + 1) a
  nearer : ∀ n < distance, ∀ a, Chain follow start n a → a ∈ seen
  here : ∀ a, Chain follow start distance a → a ∈ seen ∨ a ∈ near
  closed : ∀ a ∈ seen, ∀ b ∈ follow a, b ∈ seen ∨ b ∈ near ∨ b ∈ far

namespace Frontier

lemma initial (follow : α → List α) (start : List α) : Frontier follow start 0 [] start [] where
  inFront _ ha := .start ha
  behind _ ha := absurd ha List.not_mem_nil
  nearer _ hn := absurd hn (Nat.not_lt_zero _)
  here a ha := by
    cases ha with
    | start ha => exact .inr ha
  closed _ ha := absurd ha List.not_mem_nil

/-- Behind the last item at a distance come those that are one step further, and all of them. -/
theorem advance (h : Frontier follow start distance seen [] far) :
    Frontier follow start (distance + 1) seen far [] := by
  have hseen : ∀ a, Chain follow start distance a → a ∈ seen := by
    intro a ha
    exact (h.here a ha).resolve_right List.not_mem_nil
  refine ⟨h.behind, by simp, ?_, ?_, ?_⟩
  · intro n hn a ha
    rcases Nat.lt_succ_iff_lt_or_eq.mp hn with hn | rfl
    · exact h.nearer n hn a ha
    · exact hseen a ha
  · intro b hb
    cases hb with
    | @step _ a _ ha hb => simpa using h.closed a (hseen a ha) b hb
  · intro a ha b hb
    simpa using h.closed a ha b hb

lemma skip (h : Frontier follow start distance seen (a :: near) far) (ha : a ∈ seen) :
    Frontier follow start distance seen near far := by
  refine ⟨fun b hb => h.inFront b (List.mem_cons_of_mem _ hb), h.behind, h.nearer, ?_, ?_⟩
  · intro b hb
    rcases h.here b hb with hb | hb
    · exact .inl hb
    · rcases List.mem_cons.mp hb with rfl | hb
      · exact .inl ha
      · exact .inr hb
  · intro b hb c hc
    rcases h.closed b hb c hc with hc | hc | hc
    · exact .inl hc
    · rcases List.mem_cons.mp hc with rfl | hc
      · exact .inl ha
      · exact .inr (.inl hc)
    · exact .inr (.inr hc)

/-- What follows an item is one step further. -/
theorem visit (h : Frontier follow start distance seen (a :: near) far) :
    Frontier follow start distance (a :: seen) near (far ++ follow a) := by
  have hmem : ∀ b, b ∈ seen ∨ b ∈ a :: near → b ∈ a :: seen ∨ b ∈ near := by
    intro b hb
    rw [List.mem_cons] at hb ⊢
    tauto
  refine ⟨fun b hb => h.inFront b (List.mem_cons_of_mem _ hb), ?_, ?_,
    fun b hb => hmem b (h.here b hb), ?_⟩
  · intro b hb
    rcases List.mem_append.mp hb with hb | hb
    · exact h.behind b hb
    · exact .step (h.inFront a List.mem_cons_self) hb
  · intro n hn b hb
    exact List.mem_cons_of_mem _ (h.nearer n hn b hb)
  · intro b hb c hc
    rcases List.mem_cons.mp hb with rfl | hb
    · exact .inr (.inr (List.mem_append_right _ hc))
    · rcases h.closed b hb c hc with hc | hc | hc
      · exact .inl (List.mem_cons_of_mem _ hc)
      · exact (hmem c (.inr hc)).imp_right .inl
      · exact .inr (.inr (List.mem_append_left _ hc))

/-- The first item of the queue is at the distance of the search or, if none at that distance is
left, at the next. -/
theorem exists_cons (h : Frontier follow start distance seen near far)
    (hqueue : near ++ far = a :: queue) :
    ∃ next near' far', distance ≤ next ∧ Frontier follow start next seen (a :: near') far' ∧
    near' ++ far' = queue := by
  cases near with
  | nil =>
    rw [List.nil_append] at hqueue
    rw [hqueue] at h
    exact ⟨distance + 1, queue, [], Nat.le_succ _, h.advance, List.append_nil _⟩
  | cons b near =>
    rw [List.cons_append, List.cons.injEq] at hqueue
    obtain ⟨rfl, hrest⟩ := hqueue
    exact ⟨distance, near, far, Nat.le_refl _, h, hrest⟩

/-- An item that was not seen is not nearer than the search is. -/
theorem isLeast (h : Frontier follow start distance seen (a :: near) far) (ha : a ∉ seen) :
    IsLeast {n | Chain follow start n a} distance := by
  refine ⟨h.inFront a List.mem_cons_self, fun n hn => ?_⟩
  by_contra hlt
  exact ha (h.nearer n (Nat.lt_of_not_le hlt) a hn)

end Frontier

/-- From a frontier on, the distances of the visited items start at the frontier's and never
decrease. -/
theorem Search.distances (h : Search follow seen queue order turns)
    (hfrontier : Frontier follow start distance seen near far) (hqueue : near ++ far = queue) :
    ∃ distances : List Nat,
      List.Forall₂ (fun a n => IsLeast {n | Chain follow start n a} n) order distances ∧
      distances.Pairwise (· ≤ ·) ∧ ∀ n ∈ distances, distance ≤ n := by
  induction h generalizing distance near far with
  | done seen => exact ⟨[], .nil, .nil, by simp⟩
  | @skip a seen queue order turns ha tail ih =>
    obtain ⟨next, near', far', hnext, hfrontier, hqueue⟩ := hfrontier.exists_cons hqueue
    obtain ⟨distances, hleast, hsorted, hle⟩ := ih (hfrontier.skip ha) hqueue
    exact ⟨distances, hleast, hsorted, fun n hn => Nat.le_trans hnext (hle n hn)⟩
  | @visit a seen queue order turns ha tail ih =>
    obtain ⟨next, near', far', hnext, hfrontier, hqueue⟩ := hfrontier.exists_cons hqueue
    have hbehind : near' ++ (far' ++ follow a) = queue ++ follow a := by
      rw [← List.append_assoc, hqueue]
    obtain ⟨distances, hleast, hsorted, hle⟩ := ih hfrontier.visit hbehind
    refine ⟨next :: distances, .cons (hfrontier.isLeast ha) hleast,
      List.pairwise_cons.mpr ⟨hle, hsorted⟩, ?_⟩
    intro n hn
    rcases List.mem_cons.mp hn with rfl | hn
    · exact hnext
    · exact Nat.le_trans hnext (hle n hn)

/-- A search visits items in the order of their distance from its start. -/
theorem Search.exists_distances (h : Search follow [] start order turns) :
    ∃ distances : List Nat,
      List.Forall₂ (fun a n => IsLeast {n | Chain follow start n a} n) order distances ∧
      distances.Pairwise (· ≤ ·) := by
  obtain ⟨distances, hleast, hsorted, -⟩ :=
    h.distances (.initial follow start) (List.append_nil start)
  exact ⟨distances, hleast, hsorted⟩

variable [DecidableEq α]

theorem eraseDups_eq_self {items : List α} (h : items.Nodup) : items.eraseDups = items := by
  induction items with
  | nil => rfl
  | cons a items ih =>
    obtain ⟨ha, hitems⟩ := List.nodup_cons.mp h
    have hother : items.filter (fun b => !b == a) = items := by
      refine List.filter_eq_self.mpr fun b hb => ?_
      have hne : b ≠ a := fun heq => ha (heq ▸ hb)
      simpa using hne
    rw [List.eraseDups_cons, hother, ih hitems]

/-- A search begins with the items it starts from, each where it occurs first. -/
theorem Search.start_prefix (h : Search follow [] start order turns) :
    start.eraseDups <+: order := by
  rw [h.order_eq, List.eraseDups_append]
  exact List.prefix_append _ _

end FeatureDepot.Closure
