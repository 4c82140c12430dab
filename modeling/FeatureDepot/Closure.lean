/-! Reaching items from others, breadth first. The items that follow any item must be among finitely
many ones; then every search ends, however the items refer to each other. -/
namespace FeatureDepot.Closure

variable {α β ε : Type} [DecidableEq α]

/-- The items that follow an item are always among finitely many ones. -/
def Finite (next : α → Except ε (β × List α)) : Prop :=
  ∃ items : List α, ∀ a b following, next a = .ok (b, following) → ∀ c ∈ following, c ∈ items

/-- How many of the items, and of the other ones in a queue, were not seen. -/
def pending (items seen queue : List α) : Nat :=
  items.countP (· ∉ seen) + queue.countP fun a => a ∉ seen ∧ a ∉ items

theorem pending_of_mem {items seen queue : List α} {a : α} (h : a ∈ seen) :
    pending items seen (a :: queue) = pending items seen queue := by
  simp [pending, h]

theorem pending_append_lt {items seen queue following : List α} {a : α} (ha : a ∉ seen)
    (hf : ∀ c ∈ following, c ∈ items) :
    pending items (a :: seen) (queue ++ following) < pending items seen (a :: queue) := by
  have hfollowing : following.countP (fun b => b ∉ a :: seen ∧ b ∉ items) = 0 :=
    List.countP_eq_zero.mpr fun c hc => by simp [hf c hc]
  have hqueue : queue.countP (fun b => b ∉ a :: seen ∧ b ∉ items) ≤
      queue.countP (fun b => b ∉ seen ∧ b ∉ items) :=
    List.countP_mono_left fun b _ hb => by simp_all
  have hitems : items.countP (· ∉ a :: seen) ≤ items.countP (· ∉ seen) :=
    List.countP_mono_left fun b _ hb => by simp_all
  by_cases hm : a ∈ items
  · have hlt : items.countP (· ∉ a :: seen) < items.countP (· ∉ seen) := by
      clear hf hqueue hitems hfollowing
      induction items with
      | nil => cases hm
      | cons b items ih =>
        have hle : items.countP (· ∉ a :: seen) ≤ items.countP (· ∉ seen) :=
          List.countP_mono_left fun b _ hb => by simp_all
        by_cases hb : b = a
        · subst hb
          simp only [List.countP_cons, ha, List.mem_cons_self, not_true_eq_false, decide_false,
            not_false_eq_true, decide_true, if_true, Bool.false_eq_true, if_false]
          omega
        · have := ih (by simpa [Ne.symm hb] using hm)
          simp only [List.countP_cons, List.mem_cons, hb, false_or]
          simp only [List.mem_cons] at this
          omega
    simp only [pending, List.countP_append, List.countP_cons] at *
    omega
  · simp only [pending, List.countP_append, List.countP_cons, ha, hm, not_false_eq_true, and_self,
      decide_true, if_true] at *
    omega

/-- Visits the items of a queue and, behind them, the items that follow those, each of them once.
The first item that cannot be visited is the error. -/
def visit (next : α → Except ε (β × List α)) (finite : Finite next) (seen queue : List α) :
    Except ε (List (α × β)) :=
  match queue with
  | [] => .ok []
  | a :: queue =>
    if a ∈ seen then visit next finite seen queue
    else
      match _h : next a with
      | .error e => .error e
      | .ok (b, following) => (visit next finite (a :: seen) (queue ++ following)).map ((a, b) :: ·)
termination_by (pending finite.choose seen queue, queue.length)
decreasing_by
  · rename_i h
    rw [pending_of_mem h]
    exact Prod.Lex.right _ (Nat.lt_succ_self _)
  · exact Prod.Lex.left _ _ (pending_append_lt (by assumption)
    (finite.choose_spec _ _ _ (by assumption)))

/-- Visits items and all that follow them, in the order in which they are reached first. -/
def reach (next : α → Except ε (β × List α)) (finite : Finite next) (start : List α) :
    Except ε (List (α × β)) :=
  visit next finite [] start

end FeatureDepot.Closure
