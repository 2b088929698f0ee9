/-!
Budgets. A search that spends each element of a list at most once does no more than the unspent
elements weigh together. Spending an element frees its whole weight, so a search may use that
weight for the work the element brings.
-/

namespace TypeCatalog

variable {α : Type}

/-- The weight of the elements that are not spent. -/
def budget (weight : α → Nat) (spent : α → Bool) : List α → Nat
  | [] => 0
  | a :: elements => (if spent a then 0 else weight a) + budget weight spent elements

theorem budget_cons (weight : α → Nat) (spent : α → Bool) (a : α) (elements : List α) :
    budget weight spent (a :: elements) =
      (if spent a then 0 else weight a) + budget weight spent elements := rfl

theorem budget_le (weight : α → Nat) {spent spent' : α → Bool}
    (h : ∀ a, spent a = true → spent' a = true) (elements : List α) :
    budget weight spent' elements ≤ budget weight spent elements := by
  induction elements with
  | nil => simp [budget]
  | cons a elements ih =>
    have := h a
    rw [budget_cons, budget_cons]
    cases ha : spent a <;> cases ha' : spent' a <;> simp_all
    omega

/-- What is spent anew leaves the budget with its whole weight. -/
theorem budget_add_le (weight : α → Nat) {spent spent' : α → Bool}
    (h : ∀ a, spent a = true → spent' a = true) {a : α} (ha : spent a = false)
    (ha' : spent' a = true) {elements : List α} (hmem : a ∈ elements) :
    budget weight spent' elements + weight a ≤ budget weight spent elements := by
  induction elements with
  | nil => cases hmem
  | cons b elements ih =>
    rw [budget_cons, budget_cons]
    rcases List.mem_cons.1 hmem with rfl | hmem
    · have := budget_le weight h elements
      simp [ha, ha']
      omega
    · have := ih hmem
      have := h b
      cases hb : spent b <;> cases hb' : spent' b <;> simp_all <;> omega

end TypeCatalog
