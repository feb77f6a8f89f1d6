import TypedWire.Children
import Mathlib.Data.List.Forall2

namespace TypedWire

theorem forall₂_imp_mem {α β : Type} {R S : α → β → Prop} {xs : List α} {ys : List β}
    (h : List.Forall₂ R xs ys) (hRS : ∀ x ∈ xs, ∀ y, R x y → S x y) : List.Forall₂ S xs ys := by
  induction h with
  | nil => exact .nil
  | cons hxy _ ih =>
    obtain ⟨hx, htail⟩ := List.forall_mem_cons.mp hRS
    exact .cons (hx _ hxy) (ih htail)

theorem exists_forall₂ {α β : Type} {R : α → β → Prop} {xs : List α}
    (h : ∀ x ∈ xs, ∃ y, R x y) : ∃ ys, List.Forall₂ R xs ys := by
  induction xs with
  | nil => exact ⟨[], .nil⟩
  | cons x xs ih =>
    obtain ⟨⟨y, hy⟩, htail⟩ := List.forall_mem_cons.mp h
    obtain ⟨ys, hys⟩ := ih htail
    exact ⟨y :: ys, .cons hy hys⟩

theorem exists_of_forall₂ {α β : Type} {R : α → β → Prop} {xs : List α} {ys : List β}
    (h : List.Forall₂ R xs ys) : ∀ x ∈ xs, ∃ y ∈ ys, R x y := by
  induction h with
  | nil => exact List.forall_mem_nil _
  | cons hxy _ ih =>
    refine List.forall_mem_cons.mpr ⟨⟨_, List.mem_cons_self, hxy⟩, fun x hx => ?_⟩
    obtain ⟨y, hy, hxy⟩ := ih x hx
    exact ⟨y, List.mem_cons_of_mem _ hy, hxy⟩

theorem forall₂_meet {α β γ : Type} {R : α → β → Prop} {S : α → γ → Prop} {T : β → γ → Prop}
    {xs : List α} {ys : List β} {zs : List γ} (hR : List.Forall₂ R xs ys)
    (hS : List.Forall₂ S xs zs) (hT : ∀ x y z, R x y → S x z → T y z) : List.Forall₂ T ys zs := by
  induction hR generalizing zs with
  | nil =>
    cases hS
    exact .nil
  | cons hxy _ ih =>
    cases hS with
    | cons hxz hS => exact .cons (hT _ _ _ hxy hxz) (ih hS)

theorem pairwise_of_forall₂ {α β : Type} {R : α → β → Prop} {S : β → β → Prop}
    {T : α → α → Prop} (hT : ∀ x x' y y', R x y → R x' y' → S y y' → T x x') {xs : List α}
    {ys : List β} (h : List.Forall₂ R xs ys) (hys : ys.Pairwise S) : xs.Pairwise T := by
  induction h with
  | nil => exact .nil
  | cons hxy htail ih =>
    obtain ⟨hy, hys⟩ := List.pairwise_cons.mp hys
    refine .cons (fun x' hx' => ?_) (ih hys)
    obtain ⟨y', hy', hxy'⟩ := exists_of_forall₂ htail x' hx'
    exact hT _ _ _ _ hxy hxy' (hy y' hy')

theorem map_eq_map_iff_forall₂ {α β γ : Type} {f : α → γ} {g : β → γ} {xs : List α}
    {ys : List β} : xs.map f = ys.map g ↔ List.Forall₂ (fun x y => f x = g y) xs ys := by
  rw [← List.forall₂_eq_eq_eq, List.forall₂_map_left_iff, List.forall₂_map_right_iff]

theorem find?_named {α : Type} {name : α → String} {xs : List α} (hd : (xs.map name).Nodup)
    {x : α} (hx : x ∈ xs) : xs.find? (name · = name x) = some x := by
  induction xs with
  | nil => exact absurd hx List.not_mem_nil
  | cons y xs ih =>
    rw [List.map_cons, List.nodup_cons] at hd
    obtain ⟨hy, hd⟩ := hd
    rcases List.mem_cons.mp hx with rfl | hx
    · simp
    · have hne : name y ≠ name x := by
        intro h
        rw [h] at hy
        exact hy (List.mem_map_of_mem hx)
      rw [List.find?_cons_of_neg (by simpa using hne), ih hd hx]

namespace Checked

variable {α β : Type}

@[simp] theorem exists_unit {p : Unit → Prop} : (∃ u, p u) ↔ p () :=
  ⟨fun ⟨(), h⟩ => h, fun h => ⟨(), h⟩⟩

@[simp] theorem bind_eq_ok {x : Checked α} {f : α → Checked β} {b : β} :
    x >>= f = .ok b ↔ ∃ a, x = .ok a ∧ f a = .ok b := by
  cases x <;> simp [bind, Except.bind]

theorem bind_ok {x : Checked α} {a : α} (h : x = .ok a) (f : α → Checked β) : x >>= f = f a := by
  rw [h]
  rfl

theorem bind_eq_error {x : Checked α} {f : α → Checked β} {e : WireError} :
    x >>= f = .error e ↔ x = .error e ∨ ∃ a, x = .ok a ∧ f a = .error e := by
  cases x <;> simp [bind, Except.bind]

@[simp] theorem pure_eq_ok {a b : α} : (pure a : Checked α) = .ok b ↔ a = b := by
  simp [pure, Except.pure]

@[simp] theorem guard_eq_ok {p : Prop} [Decidable p] {e : WireError} {x : Checked α} {b : α} :
    (if p then x else .error e) = .ok b ↔ p ∧ x = .ok b := by
  by_cases h : p <;> simp [h]

@[simp] theorem refuse_eq_ok {p : Prop} [Decidable p] {e : WireError} {x : Checked α} {b : α} :
    (if p then .error e else x) = .ok b ↔ ¬p ∧ x = .ok b := by
  by_cases h : p <;> simp [h]

@[simp] theorem word_eq_ok {n m : Nat} : word n = .ok m ↔ n < wordBound ∧ n = m := by
  rw [word, guard_eq_ok, Except.ok.injEq]

theorem word_eq_overflow {n : Nat} : word n = .error .overflow ↔ wordBound ≤ n := by
  simp [word]

@[simp] theorem map_eq_ok {f : α → β} {x : Checked α} {b : β} :
    f <$> x = .ok b ↔ ∃ a, x = .ok a ∧ f a = b := by
  cases x <;> simp

theorem mapM_eq_ok {f : α → Checked β} {xs : List α} {ys : List β} :
    xs.mapM f = .ok ys ↔ List.Forall₂ (fun x y => f x = .ok y) xs ys := by
  induction xs generalizing ys with
  | nil =>
    rw [List.mapM_nil, pure_eq_ok, List.forall₂_nil_left_iff]
    exact eq_comm
  | cons x xs ih =>
    rw [List.mapM_cons]
    constructor
    · intro h
      simp only [bind_eq_ok, pure_eq_ok] at h
      obtain ⟨y, hy, ys', hys, rfl⟩ := h
      exact .cons hy (ih.mp hys)
    · intro h
      cases h with
      | cons hy hys => simp [hy, ih.mpr hys]

theorem mapM_eq_error {f : α → Checked β} {bad : α → Bool} {fault : α → WireError}
    (hf : ∀ x e, f x = .error e ↔ bad x = true ∧ e = fault x) {xs : List α} {e : WireError} :
    xs.mapM f = .error e ↔ ∃ x, xs.find? bad = some x ∧ e = fault x := by
  induction xs with
  | nil => simp [pure, Except.pure]
  | cons x xs ih =>
    rw [List.mapM_cons, bind_eq_error]
    cases hx : f x with
    | error e' =>
      obtain ⟨hbad, rfl⟩ := (hf x e').mp hx
      simp [List.find?_cons_of_pos hbad, eq_comm]
    | ok y =>
      have hgood : ¬bad x = true := by
        intro hbad
        have herror := (hf x (fault x)).mpr ⟨hbad, rfl⟩
        rw [hx] at herror
        cases herror
      simp [List.find?_cons_of_neg hgood, ← ih, bind_eq_error, pure, Except.pure]

theorem exists_of_mapM {f : α → Checked β} {xs : List α} {ys : List β} (h : xs.mapM f = .ok ys) :
    ∀ y ∈ ys, ∃ x ∈ xs, f x = .ok y :=
  exists_of_forall₂ (mapM_eq_ok.mp h).flip

theorem forM_eq_ok {f : α → Checked Unit} {xs : List α} :
    xs.forM f = .ok () ↔ ∀ x ∈ xs, f x = .ok () := by
  induction xs with
  | nil => simp [List.forM]
  | cons x xs ih =>
    change f x >>= (fun _ => xs.forM f) = .ok () ↔ _
    rw [bind_eq_ok, exists_unit, ih, List.forall_mem_cons]

end Checked

end TypedWire
