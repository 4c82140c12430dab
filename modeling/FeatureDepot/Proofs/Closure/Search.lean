import FeatureDepot.Closure
import FeatureDepot.Proofs.Batch
import Mathlib.Logic.Relation

/-! Searches, turn by turn. Every search over finitely many items ends, after as many turns as items
were put into its queue. What it visits is the breadth-first order of all that can be reached, each
item once. -/
namespace FeatureDepot.Closure

variable {α β ε : Type}

/-- A search in which every item can be visited: the items that were seen, the queue, and from there
on the items visited and the number of turns. A turn takes the first item of the queue. It passes
over one that was seen; what follows another one is put behind the queue. -/
inductive Search (follow : α → List α) : List α → List α → List α → Nat → Prop
  | done (seen : List α) : Search follow seen [] [] 0
  | skip {a : α} {seen queue order : List α} {turns : Nat} (h : a ∈ seen)
      (tail : Search follow seen queue order turns) :
      Search follow seen (a :: queue) order (turns + 1)
  | visit {a : α} {seen queue order : List α} {turns : Nat} (h : a ∉ seen)
      (tail : Search follow (a :: seen) (queue ++ follow a) order turns) :
      Search follow seen (a :: queue) (a :: order) (turns + 1)

namespace Search

variable {follow : α → List α} {seen queue order : List α} {turns : Nat}

/-- Every item that is put into the queue takes one turn. -/
theorem turns_eq (h : Search follow seen queue order turns) :
    turns = queue.length + (order.flatMap follow).length := by
  induction h with
  | done seen => rfl
  | skip h tail ih =>
    rw [ih, List.length_cons]
    omega
  | visit h tail ih =>
    rw [ih, List.length_append, List.length_cons, List.flatMap_cons, List.length_append]
    omega

lemma not_mem_seen (h : Search follow seen queue order turns) : ∀ a ∈ order, a ∉ seen := by
  induction h with
  | done seen => simp
  | skip h tail ih => exact ih
  | visit h tail ih =>
    intro b hb
    rcases List.mem_cons.mp hb with rfl | hb
    · exact h
    · exact fun hs => ih b hb (List.mem_cons_of_mem _ hs)

theorem nodup (h : Search follow seen queue order turns) : order.Nodup := by
  induction h with
  | done seen => exact List.nodup_nil
  | skip h tail ih => exact ih
  | visit h tail ih =>
    exact List.nodup_cons.mpr ⟨fun ha => tail.not_mem_seen _ ha List.mem_cons_self, ih⟩

lemma exists_of_mem (h : Search follow seen queue order turns) :
    ∀ a ∈ order, ∃ first ∈ queue, Relation.ReflTransGen (fun b c => c ∈ follow b) first a := by
  induction h with
  | done seen => simp
  | skip h tail ih =>
    intro b hb
    obtain ⟨first, hfirst, hreach⟩ := ih b hb
    exact ⟨first, List.mem_cons_of_mem _ hfirst, hreach⟩
  | @visit a seen queue order turns h tail ih =>
    intro b hb
    rcases List.mem_cons.mp hb with rfl | hb
    · exact ⟨b, List.mem_cons_self, .refl⟩
    · obtain ⟨first, hfirst, hreach⟩ := ih b hb
      rcases List.mem_append.mp hfirst with hfirst | hfirst
      · exact ⟨first, List.mem_cons_of_mem _ hfirst, hreach⟩
      · exact ⟨a, List.mem_cons_self, hreach.head hfirst⟩

variable [DecidableEq α]

/-- The invariant of the loop. The items that were taken from the queue so far are in front: with
the queue and all that follows the items still to be visited behind them, the latter are what occurs
there for the first time, in this order. -/
theorem eraseDups_eq (h : Search follow seen queue order turns) {taken : List α}
    (ht : ∀ a, a ∈ seen ↔ a ∈ taken) :
    (taken ++ queue ++ order.flatMap follow).eraseDups = taken.eraseDups ++ order := by
  -- The queue loses its first item to `taken` at every turn, so the whole list stays what it is.
  induction h generalizing taken with
  | done seen => simp
  | @skip a seen queue order turns h tail ih =>
    have hnone : [a].removeAll taken = [] := by simp [List.removeAll, (ht a).mp h]
    have htaken : (taken ++ [a]).eraseDups = taken.eraseDups := by
      simp [List.eraseDups_append, hnone]
    have hseen : ∀ b, b ∈ seen ↔ b ∈ taken ++ [a] := by
      intro b
      rw [List.mem_append, List.mem_singleton, ← ht b]
      exact ⟨.inl, fun hb => hb.elim id fun hb => hb ▸ h⟩
    rw [← htaken, ← ih hseen, List.append_assoc taken [a] queue]
    rfl
  | @visit a seen queue order turns h tail ih =>
    have hone : [a].removeAll taken = [a] := by simp [List.removeAll, mt (ht a).mpr h]
    have htaken : (taken ++ [a]).eraseDups = taken.eraseDups ++ [a] := by
      rw [List.eraseDups_append, hone]
      rfl
    have hseen : ∀ b, b ∈ a :: seen ↔ b ∈ taken ++ [a] := by
      intro b
      rw [List.mem_append, List.mem_singleton, ← ht b, List.mem_cons]
      exact or_comm
    have hsplit : taken ++ a :: queue ++ (a :: order).flatMap follow =
        taken ++ [a] ++ (queue ++ follow a) ++ order.flatMap follow := by simp
    rw [hsplit, ih hseen, htaken, List.append_assoc]
    rfl

/-- A whole search visits the items of its queue and what follows the visited ones, each where it
occurs first. -/
theorem order_eq (h : Search follow [] queue order turns) :
    order = (queue ++ order.flatMap follow).eraseDups := by
  have heq := h.eraseDups_eq fun a => (Iff.rfl : a ∈ ([] : List α) ↔ a ∈ [])
  exact heq.symm

/-- A whole search visits what can be reached from its queue, and nothing else. -/
theorem mem_iff (h : Search follow [] queue order turns) (a : α) :
    a ∈ order ↔ ∃ first ∈ queue, Relation.ReflTransGen (fun b c => c ∈ follow b) first a := by
  have hmem : ∀ b, b ∈ queue ++ order.flatMap follow → b ∈ order := by
    intro b hb
    rw [h.order_eq]
    exact List.mem_eraseDups.mpr hb
  constructor
  · exact h.exists_of_mem a
  · rintro ⟨first, hfirst, hreach⟩
    induction hreach with
    | refl => exact hmem _ (List.mem_append_left _ hfirst)
    | tail _ hc ih => exact hmem _ (List.mem_append_right _ (List.mem_flatMap.mpr ⟨_, ih, hc⟩))

end Search

variable [DecidableEq α]

/-- A search over finitely many items ends, however they refer to each other. -/
theorem exists_search {follow : α → List α} {items : List α} (hf : ∀ a, ∀ c ∈ follow a, c ∈ items)
    (seen queue : List α) : ∃ order turns, Search follow seen queue order turns := by
  match queue with
  | [] => exact ⟨[], 0, .done seen⟩
  | a :: queue =>
    by_cases ha : a ∈ seen
    · obtain ⟨order, turns, h⟩ := exists_search hf seen queue
      exact ⟨order, turns + 1, .skip ha h⟩
    · obtain ⟨order, turns, h⟩ := exists_search hf (a :: seen) (queue ++ follow a)
      exact ⟨a :: order, turns + 1, .visit ha h⟩
termination_by (pending items seen queue, queue.length)
decreasing_by
  · rw [pending_of_mem ha]
    exact Prod.Lex.right _ (Nat.lt_succ_self _)
  · exact Prod.Lex.left _ _ (pending_append_lt ha (hf a))

/-- The items that follow an item, none if it cannot be visited. -/
def following (next : α → Except ε (β × List α)) (a : α) : List α :=
  match next a with
  | .ok (_, items) => items
  | .error _ => []

omit [DecidableEq α] in
theorem following_of_ok {next : α → Except ε (β × List α)} {a : α} {r : β × List α}
    (h : next a = .ok r) :
    following next a = r.2 := by simp [following, h]

def visitOne (next : α → Except ε (β × List α)) (a : α) : Except ε (α × β) :=
  (next a).map fun r => (a, r.1)

variable {next : α → Except ε (β × List α)}

theorem visit_nil (finite : Finite next) (seen : List α) :
    visit next finite seen [] = .ok [] := by rw [visit]

theorem visit_cons_of_mem (finite : Finite next) {seen queue : List α} {a : α} (h : a ∈ seen) :
    visit next finite seen (a :: queue) = visit next finite seen queue := by
  rw [visit, if_pos h]

theorem visit_cons_of_error (finite : Finite next) {seen queue : List α} {a : α} {e : ε}
    (h : a ∉ seen) (ha : next a = .error e) : visit next finite seen (a :: queue) = .error e := by
  rw [visit, if_neg h]
  split <;> simp_all

theorem visit_cons_of_ok (finite : Finite next) {seen queue items : List α} {a : α} {b : β}
    (h : a ∉ seen) (ha : next a = .ok (b, items)) : visit next finite seen (a :: queue) =
      (visit next finite (a :: seen) (queue ++ items)).map ((a, b) :: ·) := by
  rw [visit, if_neg h]
  split <;> simp_all

/-- The function visits, one by one, the items of the search, up to the first one that cannot be
visited. -/
theorem visit_eq_mapM (finite : Finite next) {seen queue order : List α} {turns : Nat}
    (h : Search (following next) seen queue order turns) :
    visit next finite seen queue = order.mapM (visitOne next) := by
  induction h with
  | done seen => exact visit_nil finite seen
  | skip h tail ih => exact (visit_cons_of_mem finite h).trans ih
  | @visit a seen queue order turns h tail ih =>
    rw [List.mapM_cons]
    cases ha : next a with
    | error e =>
      rw [visit_cons_of_error finite h ha]
      simp [visitOne, ha, bind, Except.bind, Except.map]
    | ok r =>
      rw [following_of_ok ha] at ih
      rw [visit_cons_of_ok finite h ha, ih]
      simp only [visitOne, ha]
      cases order.mapM (visitOne next) <;> rfl

omit [DecidableEq α] in
theorem bounded_following (finite : Finite next) :
    ∃ items : List α, ∀ a, ∀ c ∈ following next a, c ∈ items := by
  obtain ⟨items, hitems⟩ := finite
  refine ⟨items, fun a c hc => ?_⟩
  unfold following at hc
  split at hc
  next b following ha => exact hitems a b following ha c hc
  next => cases hc

/-- Every search has an order, also beyond an item that cannot be visited, at which the function
ends. -/
theorem exists_search_reach (finite : Finite next) (start : List α) : ∃ order turns,
    Search (following next) [] start order turns ∧
    reach next finite start = order.mapM (visitOne next) := by
  obtain ⟨items, hitems⟩ := bounded_following finite
  obtain ⟨order, turns, h⟩ := exists_search hitems [] start
  exact ⟨order, turns, h, visit_eq_mapM finite h⟩

omit [DecidableEq α] in
theorem visitOne_eq_ok_iff {a : α} {p : α × β} :
    visitOne next a = .ok p ↔ a = p.1 ∧ ∃ items, next a = .ok (p.2, items) := by
  obtain ⟨b, c⟩ := p
  cases h : next a with
  | error e => simp [visitOne, h, Except.map]
  | ok r =>
    obtain ⟨d, items⟩ := r
    simp [visitOne, h, Except.map]

/-- What is visited in the end are the items of a search, with what was found at each of them. -/
theorem search_of_reach_eq_ok (finite : Finite next) {start : List α} {visited : List (α × β)}
    (h : reach next finite start = .ok visited) :
    (∃ turns, Search (following next) [] start (visited.map Prod.fst) turns) ∧
      ∀ p ∈ visited, ∃ items, next p.1 = .ok (p.2, items) := by
  obtain ⟨order, turns, hsearch, hreach⟩ := exists_search_reach finite start
  have hvisited := Batch.mapM_eq_ok_iff.mp (hreach.symm.trans h)
  simp only [visitOne_eq_ok_iff] at hvisited
  have horder : order = visited.map Prod.fst := by
    rw [← List.forall₂_eq_eq_eq, List.forall₂_map_right_iff]
    exact hvisited.imp fun _ _ hp => hp.1
  subst horder
  rw [List.forall₂_map_left_iff, List.forall₂_same] at hvisited
  exact ⟨⟨turns, hsearch⟩, fun p hp => (hvisited p hp).2⟩

omit [DecidableEq α] in
/-- A search among other items that stand for the items of a search takes the same turns. -/
theorem Search.map {α' : Type} {follow : α → List α} {follow' : α' → List α'} {f : α → α'}
    (hf : Function.Injective f) {seen queue order : List α} {turns : Nat}
    (h : Search follow seen queue order turns)
    (hfollow : ∀ a ∈ order, follow' (f a) = (follow a).map f) :
    Search follow' (seen.map f) (queue.map f) (order.map f) turns := by
  induction h with
  | done seen => exact .done _
  | skip h tail ih => exact .skip ((List.mem_map_of_injective hf).mpr h) (ih hfollow)
  | @visit a seen queue order turns h tail ih =>
    rw [List.forall_mem_cons] at hfollow
    have htail := ih hfollow.2
    rw [List.map_append, ← hfollow.1] at htail
    exact .visit (mt (List.mem_map_of_injective hf).mp h) htail

/-- Items that stand for what is visited, and are followed by what stands for what follows it, are
visited in the same order. -/
theorem reach_map {α' ε' : Type} [DecidableEq α'] {next' : α' → Except ε' (β × List α')}
    {f : α → α'} (hf : Function.Injective f) (finite : Finite next) (finite' : Finite next')
    {start : List α} {visited : List (α × β)} (h : reach next finite start = .ok visited)
    (hsame : ∀ p ∈ visited, ∀ items, next p.1 = .ok (p.2, items) →
      next' (f p.1) = .ok (p.2, items.map f)) :
    reach next' finite' (start.map f) = .ok (visited.map (Prod.map f id)) := by
  obtain ⟨⟨turns, hsearch⟩, hvisited⟩ := search_of_reach_eq_ok finite h
  have hfollowing : ∀ a ∈ visited.map Prod.fst,
      following next' (f a) = (following next a).map f := by
    intro a ha
    obtain ⟨p, hp, rfl⟩ := List.mem_map.mp ha
    obtain ⟨items, hitems⟩ := hvisited p hp
    rw [following_of_ok hitems, following_of_ok (hsame p hp items hitems)]
  have hmapped := hsearch.map hf hfollowing
  rw [List.map_nil, List.map_map] at hmapped
  unfold reach
  rw [visit_eq_mapM finite' hmapped, Batch.mapM_eq_ok_iff, List.forall₂_map_left_iff,
    List.forall₂_map_right_iff, List.forall₂_same]
  intro p hp
  obtain ⟨items, hitems⟩ := hvisited p hp
  exact visitOne_eq_ok_iff.mpr ⟨rfl, items.map f, hsame p hp items hitems⟩

/-- What can be visited in the same way is visited in the same order. -/
theorem reach_congr {next' : α → Except ε (β × List α)} (finite : Finite next)
    (finite' : Finite next') {start : List α} {visited : List (α × β)}
    (h : reach next finite start = .ok visited) (hsame : ∀ p ∈ visited, next' p.1 = next p.1) :
    reach next' finite' start = .ok visited := by
  have hmap : reach next' finite' (start.map id) = .ok (visited.map (Prod.map id id)) :=
    reach_map Function.injective_id finite finite' h fun p hp items hitems => by
      rw [List.map_id, id, hsame p hp, hitems]
  rwa [List.map_id, Prod.map_id, List.map_id] at hmap

section Edges

/-! Edges between items say which items can be reached. An item that can be visited is followed by
the ends of the edges from it; from one that cannot, there may be edges as well, which no search
takes. -/

variable {edge : α → α → Prop}

omit [DecidableEq α] in
theorem edge_of_mem_following (hedge : ∀ a r, next a = .ok r → ∀ b, edge a b ↔ b ∈ r.2) {a b : α}
    (h : b ∈ following next a) : edge a b := by
  cases ha : next a with
  | error e => simp [following, ha] at h
  | ok r => exact (hedge a r ha b).mpr (following_of_ok ha ▸ h)

omit [DecidableEq α] in
lemma path_of_following (hedge : ∀ a r, next a = .ok r → ∀ b, edge a b ↔ b ∈ r.2) {a b : α}
    (h : Relation.ReflTransGen (fun b c => c ∈ following next b) a b) :
    Relation.ReflTransGen edge a b :=
  h.lift id fun _ _ => edge_of_mem_following hedge

/-- If all items of a search can be visited, they are those that edges lead to. -/
theorem Search.mem_iff_of_edges (hedge : ∀ a r, next a = .ok r → ∀ b, edge a b ↔ b ∈ r.2)
    {start order : List α} {turns : Nat} (h : Search (following next) [] start order turns)
    (hvisit : ∀ a ∈ order, ∃ r, next a = .ok r) (a : α) :
    a ∈ order ↔ ∃ first ∈ start, Relation.ReflTransGen edge first a := by
  constructor
  · intro ha
    obtain ⟨first, hfirst, hreach⟩ := (h.mem_iff a).mp ha
    exact ⟨first, hfirst, path_of_following hedge hreach⟩
  · rintro ⟨first, hfirst, hreach⟩
    induction hreach with
    | refl => exact (h.mem_iff first).mpr ⟨first, hfirst, .refl⟩
    | @tail b c _ hbc hb =>
      obtain ⟨r, hr⟩ := hvisit b hb
      obtain ⟨origin, horigin, hreach⟩ := (h.mem_iff b).mp hb
      have hc : c ∈ following next b := following_of_ok hr ▸ (hedge b r hr c).mp hbc
      exact (h.mem_iff c).mpr ⟨origin, horigin, hreach.tail hc⟩

/-- A search succeeds if and only if every item that edges lead to can be visited. -/
theorem exists_reach_eq_ok_iff (hedge : ∀ a r, next a = .ok r → ∀ b, edge a b ↔ b ∈ r.2)
    (finite : Finite next) (start : List α) : (∃ visited, reach next finite start = .ok visited) ↔
      ∀ first ∈ start, ∀ a, Relation.ReflTransGen edge first a → ∃ r, next a = .ok r := by
  obtain ⟨order, turns, hsearch, hreach⟩ := exists_search_reach finite start
  have hone : ∀ a, (∃ p, visitOne next a = .ok p) ↔ ∃ r, next a = .ok r := by
    intro a
    cases ha : next a <;> simp [visitOne, ha, Except.map]
  rw [hreach, Batch.exists_mapM_eq_ok_iff]
  simp only [hone]
  constructor
  · intro hvisit first hfirst a ha
    exact hvisit a ((hsearch.mem_iff_of_edges hedge hvisit a).mpr ⟨first, hfirst, ha⟩)
  · intro hvisit a ha
    obtain ⟨first, hfirst, hpath⟩ := (hsearch.mem_iff a).mp ha
    exact hvisit first hfirst a (path_of_following hedge hpath)

end Edges
end FeatureDepot.Closure
