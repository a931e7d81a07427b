/-!
# Greedy cuts

Lists that share a budget: each in turn takes what is left of it, up to a cap of its own. The cuts
never take more than the budget, the first of them do not depend on the lists behind them, and
where budget is left nothing was cut for want of it.
-/

namespace PeImage

variable {α : Type}

/-- The number of values of all lists together. -/
def totalLength : List (List α) → Nat
  | [] => 0
  | values :: rest => values.length + totalLength rest

/-- Each list cut to what those before it left of the budget, and to no more than `cap`. -/
def cutEach (cap : Nat) : (budget : Nat) → List (List α) → List (List α)
  | _, [] => []
  | budget, values :: rest =>
    values.take (min budget cap) ::
      cutEach cap (budget - (values.take (min budget cap)).length) rest

@[simp] theorem totalLength_nil : totalLength ([] : List (List α)) = 0 := rfl

@[simp] theorem totalLength_cons (values : List α) (rest : List (List α)) :
    totalLength (values :: rest) = values.length + totalLength rest := rfl

/-- Lists of a bounded length have no more than that many values each. -/
theorem totalLength_le {lists : List (List α)} {bound : Nat}
    (h : ∀ values ∈ lists, values.length ≤ bound) :
    totalLength lists ≤ lists.length * bound := by
  induction lists with
  | nil => exact Nat.zero_le _
  | cons values rest ih =>
    have hfirst := h values List.mem_cons_self
    have hrest := ih fun other hother => h other (List.mem_cons_of_mem _ hother)
    rw [totalLength_cons, List.length_cons, Nat.succ_mul]
    omega

/-- The cuts together stay within the budget. -/
theorem totalLength_cutEach_le (cap budget : Nat) (lists : List (List α)) :
    totalLength (cutEach cap budget lists) ≤ budget := by
  induction lists generalizing budget with
  | nil => exact Nat.zero_le _
  | cons values rest ih =>
    have hrest := ih (budget - (values.take (min budget cap)).length)
    have hfirst : (values.take (min budget cap)).length ≤ budget := by
      rw [List.length_take]
      omega
    rw [cutEach, totalLength_cons]
    omega

/-- The cuts together are no longer than the lists. -/
theorem totalLength_cutEach_le_totalLength (cap budget : Nat) (lists : List (List α)) :
    totalLength (cutEach cap budget lists) ≤ totalLength lists := by
  induction lists generalizing budget with
  | nil => exact Nat.le_refl _
  | cons values rest ih =>
    have hrest := ih (budget - (values.take (min budget cap)).length)
    have hfirst := List.length_take_le' (min budget cap) values
    rw [cutEach, totalLength_cons, totalLength_cons]
    omega

/-- Lists that are within the cap each and within the budget together are not cut. -/
theorem cutEach_eq_self {cap budget : Nat} {lists : List (List α)}
    (hcap : ∀ values ∈ lists, values.length ≤ cap) (hbudget : totalLength lists ≤ budget) :
    cutEach cap budget lists = lists := by
  induction lists generalizing budget with
  | nil => rfl
  | cons values rest ih =>
    rw [totalLength_cons] at hbudget
    have hfirst : values.take (min budget cap) = values := by
      have hle := hcap values List.mem_cons_self
      exact List.take_of_length_le (by omega)
    rw [cutEach, hfirst, ih (fun other h => hcap other (List.mem_cons_of_mem _ h)) (by omega)]

/-- With a cap no smaller than the budget, nothing is cut where budget is left. -/
theorem cutEach_eq_self_of_lt {cap budget : Nat} {lists : List (List α)} (hcap : budget ≤ cap)
    (hleft : totalLength (cutEach cap budget lists) < budget) :
    cutEach cap budget lists = lists := by
  induction lists generalizing budget with
  | nil => rfl
  | cons values rest ih =>
    rw [cutEach, totalLength_cons, Nat.min_eq_left hcap] at hleft
    have hshort : values.length ≤ budget := by
      rw [List.length_take] at hleft
      omega
    rw [List.take_of_length_le hshort] at hleft
    rw [cutEach, Nat.min_eq_left hcap, List.take_of_length_le hshort, ih (by omega) (by omega)]

/-- A list is cut to what the cuts before it left. -/
theorem getElem?_cutEach (cap budget : Nat) (lists : List (List α)) (i : Nat) :
    (cutEach cap budget lists)[i]? = lists[i]?.map
      (List.take (min cap (budget - totalLength ((cutEach cap budget lists).take i)))) := by
  induction lists generalizing budget i with
  | nil => simp [cutEach]
  | cons values rest ih =>
    cases i with
    | zero => simp [cutEach, Nat.min_comm]
    | succ i =>
      rw [cutEach, List.getElem?_cons_succ, List.getElem?_cons_succ, ih, List.take_succ_cons,
        totalLength_cons, Nat.sub_sub]

/-- The cuts of the first lists are the first cuts. -/
theorem take_cutEach (cap budget : Nat) (lists : List (List α)) (n : Nat) :
    (cutEach cap budget lists).take n = cutEach cap budget (lists.take n) := by
  induction lists generalizing budget n with
  | nil => simp [cutEach]
  | cons values rest ih =>
    cases n with
    | zero => simp [cutEach]
    | succ n => rw [cutEach, List.take_succ_cons, List.take_succ_cons, cutEach, ih]

end PeImage
