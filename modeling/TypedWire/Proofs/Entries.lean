import TypedWire.Entries
import Mathlib.Data.List.Nodup
import Mathlib.Data.List.Perm.Basic

namespace TypedWire.Entries

variable {κ α β : Type _} [DecidableEq κ]

theorem get?_mapEntries (f : κ → α → β) (k : κ) (m : List (κ × α)) :
    get? k (m.map fun e => (e.1, f e.1 e.2)) = (get? k m).map (f k) := by
  induction m with
  | nil => rfl
  | cons e m ih =>
    by_cases h : k = e.1
    · simp [get?, h]
    · simp [get?, h, ih]

@[simp] theorem get?_map (f : α → β) (k : κ) (m : List (κ × α)) :
    get? k (m.map fun e => (e.1, f e.2)) = (get? k m).map f :=
  get?_mapEntries (fun _ => f) k m

theorem mem_of_get? {k : κ} {x : α} {m : List (κ × α)} (h : get? k m = some x) : (k, x) ∈ m := by
  induction m with
  | nil => cases h
  | cons e m ih =>
    by_cases hk : k = e.1
    · subst hk
      simp [get?] at h
      simp [← h]
    · simp only [get?, if_neg hk] at h
      exact List.mem_cons_of_mem _ (ih h)

theorem get?_eq_none_iff {k : κ} {m : List (κ × α)} : get? k m = none ↔ k ∉ m.map (·.1) := by
  induction m with
  | nil => simp [get?]
  | cons e m ih =>
    by_cases hk : k = e.1
    · simp [get?, hk]
    · rw [get?, if_neg hk, ih, List.map_cons, List.mem_cons, or_iff_right hk]

theorem get?_of_mem {m : List (κ × α)} (hm : (m.map (·.1)).Nodup) {e : κ × α} (he : e ∈ m) :
    get? e.1 m = some e.2 := by
  induction m with
  | nil => cases he
  | cons d m ih =>
    rw [List.map_cons, List.nodup_cons] at hm
    rcases List.mem_cons.mp he with rfl | he
    · simp [get?]
    · have hne : e.1 ≠ d.1 := fun h => hm.1 (h ▸ List.mem_map_of_mem he)
      rw [get?, if_neg hne, ih hm.2 he]

theorem get?_eq_some_iff {m : List (κ × α)} (hm : (m.map (·.1)).Nodup) {k : κ} {x : α} :
    get? k m = some x ↔ (k, x) ∈ m :=
  ⟨mem_of_get?, fun h => get?_of_mem hm h⟩

section Put

variable [LT κ] [DecidableLT κ]

theorem put_map (f : α → β) (k : κ) (x : α) (m : List (κ × α)) :
    put k (f x) (m.map fun e => (e.1, f e.2)) = (put k x m).map fun e => (e.1, f e.2) := by
  induction m with
  | nil => rfl
  | cons e m ih =>
    simp only [List.map_cons, put, ih]
    split
    · rfl
    · split <;> rfl

theorem mem_put {k : κ} {x : α} {m : List (κ × α)} {e : κ × α} (h : e ∈ put k x m) :
    e = (k, x) ∨ e ∈ m := by
  induction m with
  | nil => exact .inl (by simpa [put] using h)
  | cons d m ih =>
    simp only [put] at h
    split at h
    · simpa using h
    · split at h
      · rcases List.mem_cons.mp h with h | h
        · exact .inl h
        · exact .inr (List.mem_cons_of_mem _ h)
      · rcases List.mem_cons.mp h with rfl | h
        · exact .inr List.mem_cons_self
        · exact (ih h).imp_right (List.mem_cons_of_mem _)

theorem ofList_eq_foldl (xs : List (κ × α)) :
    ofList xs = xs.foldl (fun m e => put e.1 e.2 m) [] := rfl

theorem get?_ofList {m xs : List (κ × α)} (h : ∀ e ∈ xs, get? e.1 m = some e.2) (k : κ) :
    get? k (ofList xs) = if k ∈ xs.map (·.1) then get? k m else none := by
  -- Over the accumulator: later entries win, but all of them agree with `m`.
  suffices ∀ acc, get? k (xs.foldl (fun m e => put e.1 e.2 m) acc) =
      if k ∈ xs.map (·.1) then get? k m else get? k acc from ofList_eq_foldl xs ▸ this []
  induction xs with
  | nil => simp
  | cons e xs ih =>
    intro acc
    have hd : get? e.1 m = some e.2 := h e List.mem_cons_self
    have ih := ih fun d hd => h d (List.mem_cons_of_mem _ hd)
    rw [List.foldl_cons, ih, get?_put]
    by_cases hk : k ∈ xs.map (·.1)
    · simp [hk]
    · by_cases he : k = e.1
      · simp [he, hd]
      · simp [hk, he]

theorem get?_ofList_self {xs : List (κ × α)} (hd : (xs.map (·.1)).Nodup) (k : κ) :
    get? k (ofList xs) = get? k xs := by
  rw [get?_ofList fun e he => get?_of_mem hd he]
  split
  · rfl
  · rw [eq_comm, get?_eq_none_iff]
    assumption

end Put

instance [LT κ] [DecidableLT κ] (m : List (κ × α)) : Decidable (Sorted m) :=
  inferInstanceAs (Decidable (m.Pairwise (·.1 < ·.1)))

omit [DecidableEq κ] in
theorem Sorted.mapEntries [LT κ] {m : List (κ × α)} (h : Sorted m) (f : κ → α → β) :
    Sorted (m.map fun e => (e.1, f e.1 e.2)) := by
  rw [Sorted, List.pairwise_map]
  exact h

section Order

variable [LT κ] [LE κ] [Std.LawfulOrderLT κ]

omit [DecidableEq κ] in
theorem Sorted.nodup {m : List (κ × α)} (h : Sorted m) : (m.map (·.1)).Nodup := by
  rw [List.Nodup, List.pairwise_map]
  apply h.imp
  intro a b hlt heq
  exact Std.lt_irrefl (heq ▸ hlt)

theorem Sorted.get?_tail {e : κ × α} {m : List (κ × α)} (h : Sorted (e :: m)) :
    get? e.1 m = none := by
  apply get?_eq_none_iff.mpr
  intro hm
  obtain ⟨d, hd, hk⟩ := List.mem_map.mp hm
  have hlt := (List.pairwise_cons.mp h).1 d hd
  rw [hk] at hlt
  exact Std.lt_irrefl hlt

theorem Sorted.get?_of_lt {k : κ} {e : κ × α} {m : List (κ × α)} (h : Sorted (e :: m))
    (hk : k < e.1) : get? k (e :: m) = none := by
  apply get?_eq_none_iff.mpr
  intro hm
  rcases List.mem_cons.mp hm with rfl | hm
  · exact Std.lt_irrefl hk
  · obtain ⟨d, hd, rfl⟩ := List.mem_map.mp hm
    exact Std.not_gt_of_lt hk ((List.pairwise_cons.mp h).1 d hd)

theorem Sorted.get?_init {e : κ × α} {m : List (κ × α)} (h : Sorted (m ++ [e])) :
    get? e.1 m = none := by
  apply get?_eq_none_iff.mpr
  intro hm
  obtain ⟨d, hd, hk⟩ := List.mem_map.mp hm
  have hlt := (List.pairwise_append.mp h).2.2 d hd e List.mem_cons_self
  rw [hk] at hlt
  exact Std.lt_irrefl hlt

theorem put_last [DecidableLT κ] {k : κ} {x : α} {m : List (κ × α)} (h : Sorted (m ++ [(k, x)])) :
    put k x m = m ++ [(k, x)] := by
  induction m with
  | nil => rfl
  | cons e m ih =>
    obtain ⟨he, hm⟩ := List.pairwise_cons.mp h
    have hlt : e.1 < k := he (k, x) (List.mem_append_right _ List.mem_cons_self)
    have hk : k ≠ e.1 := fun hk => Std.lt_irrefl (hk ▸ hlt)
    rw [put, if_neg (Std.not_gt_of_lt hlt), if_neg hk, ih hm, List.cons_append]

variable [Std.IsLinearOrder κ]

theorem Sorted.ext {a b : List (κ × α)} (ha : Sorted a) (hb : Sorted b)
    (h : ∀ k, get? k a = get? k b) : a = b := by
  induction a generalizing b with
  | nil =>
    cases b with
    | nil => rfl
    | cons e b => simpa [get?] using h e.1
  | cons d a ih =>
    cases b with
    | nil => simpa [get?] using h d.1
    | cons e b =>
      have hkey : d.1 = e.1 := by
        rcases Std.lt_trichotomy d.1 e.1 with hlt | heq | hgt
        · have := h d.1
          rw [hb.get?_of_lt hlt] at this
          simp [get?] at this
        · exact heq
        · have := h e.1
          rw [ha.get?_of_lt hgt] at this
          simp [get?] at this
      have hval : d.2 = e.2 := by simpa [get?, hkey] using h d.1
      have htail : a = b := by
        apply ih (List.pairwise_cons.mp ha).2 (List.pairwise_cons.mp hb).2
        intro k
        by_cases hk : k = d.1
        · subst hk
          rw [ha.get?_tail, hkey, hb.get?_tail]
        · have hk' : k ≠ e.1 := hkey ▸ hk
          simpa [get?, hk, hk'] using h k
      rw [htail, Prod.ext hkey hval]

variable [DecidableLT κ]

theorem Sorted.put {k : κ} {x : α} {m : List (κ × α)} (h : Sorted m) :
    Sorted (Entries.put k x m) := by
  induction m with
  | nil => exact List.pairwise_singleton ..
  | cons e m ih =>
    obtain ⟨he, hm⟩ := List.pairwise_cons.mp h
    by_cases hlt : k < e.1
    · rw [Entries.put, if_pos hlt]
      refine List.pairwise_cons.mpr ⟨?_, h⟩
      intro d hd
      rcases List.mem_cons.mp hd with rfl | hd
      · exact hlt
      · exact Std.lt_trans hlt (he d hd)
    · by_cases hk : k = e.1
      · rw [Entries.put, if_neg hlt, if_pos hk]
        exact List.pairwise_cons.mpr ⟨fun d hd => hk ▸ he d hd, hm⟩
      · rw [Entries.put, if_neg hlt, if_neg hk]
        refine List.pairwise_cons.mpr ⟨?_, ih hm⟩
        intro d hd
        rcases mem_put hd with rfl | hd
        · exact Std.lt_of_le_of_ne (Std.not_lt.mp hlt) (Ne.symm hk)
        · exact he d hd

theorem sorted_ofList (xs : List (κ × α)) : Sorted (ofList xs) := by
  suffices ∀ acc, Sorted acc → Sorted (xs.foldl (fun m e => put e.1 e.2 m) acc) from
    ofList_eq_foldl xs ▸ this [] List.Pairwise.nil
  induction xs with
  | nil => exact fun _ h => h
  | cons e xs ih => exact fun acc h => ih _ h.put

theorem ofList_eq {m xs : List (κ × α)} (hm : Sorted m) (h : ∀ e ∈ xs, get? e.1 m = some e.2)
    (hk : ∀ e ∈ m, e.1 ∈ xs.map (·.1)) : ofList xs = m := by
  apply (sorted_ofList xs).ext hm
  intro k
  rw [get?_ofList h]
  by_cases hx : k ∈ xs.map (·.1)
  · rw [if_pos hx]
  · rw [if_neg hx, eq_comm, get?_eq_none_iff]
    intro hm
    obtain ⟨e, he, rfl⟩ := List.mem_map.mp hm
    exact hx (hk e he)

theorem perm_ofList {xs : List (κ × α)} (hd : (xs.map (·.1)).Nodup) : (ofList xs).Perm xs := by
  have hs : ((ofList xs).map (·.1)).Nodup := (sorted_ofList xs).nodup
  rw [List.perm_ext_iff_of_nodup hs.of_map hd.of_map]
  rintro ⟨k, x⟩
  rw [← get?_eq_some_iff hs, ← get?_eq_some_iff hd, get?_ofList_self hd]

end Order

end TypedWire.Entries
