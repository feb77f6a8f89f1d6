namespace TypedWire.Entries

variable {κ α : Type _} [DecidableEq κ] [LT κ] [DecidableLT κ]

def put (k : κ) (x : α) : List (κ × α) → List (κ × α)
  | [] => [(k, x)]
  | (j, y) :: rest =>
    if k < j then (k, x) :: (j, y) :: rest
    else if k = j then (k, x) :: rest
    else (j, y) :: put k x rest

def ofList (xs : List (κ × α)) : List (κ × α) := xs.foldl (fun m (k, x) => put k x m) []

def get? (k : κ) : List (κ × α) → Option α
  | [] => none
  | (j, y) :: rest => if k = j then some y else get? k rest

theorem get?_put (j k : κ) (x : α) (m : List (κ × α)) :
    get? j (put k x m) = if j = k then some x else get? j m := by
  induction m with
  | nil => simp [put, get?]
  | cons e m ih =>
    rcases e with ⟨i, y⟩
    by_cases hlt : k < i
    · simp [put, get?, hlt]
    · by_cases hk : k = i
      · subst hk
        by_cases hj : j = k <;> simp [put, get?, hlt, hj]
      · by_cases hj : j = i
        · subst hj
          simp [put, get?, hlt, hk, Ne.symm hk]
        · simp [put, get?, hlt, hk, hj, ih]

def Sorted (m : List (κ × α)) : Prop := m.Pairwise (·.1 < ·.1)

end TypedWire.Entries
