import TypedWire.Proofs.Unpacking

namespace TypedWire.HostType

/-- A present optional in it, at whatever depth, holds what converts to null. -/
inductive Hollow : (t : HostType) → t.El → Prop
  | here {t x} : t.toValue x = .null → Hollow (.option t) (some x)
  | inside {t x} : Hollow t x → Hollow (.option t) (some x)

/-- The outermost present optional that holds what converts to null is made absent. -/
def emptied : (t : HostType) → t.El → t.El
  | .option t, some x => if (t.toValue x).isNull then none else some (t.emptied x)
  | _, x => x

variable {t : HostType} {v : Value}

theorem isNull_iff : v.isNull ↔ v = .null := by
  cases v <;> simp [Value.isNull]

theorem emptied_some_null {x : t.El} (h : t.toValue x = .null) :
    (option t).emptied (some x) = none :=
  if_pos (isNull_iff.mpr h)

theorem emptied_some {x : t.El} (h : t.toValue x ≠ .null) :
    (option t).emptied (some x) = some (t.emptied x) :=
  if_neg (isNull_iff.not.mpr h)

theorem emptied_eq_self {x : t.El} (h : ¬Hollow t x) : t.emptied x = x := by
  induction t with
  | option t ih =>
    cases x with
    | none => rfl
    | some x => rw [emptied_some fun hx => h (.here hx), ih fun hx => h (.inside hx)]
  | _ => rfl

theorem ofValue_option (hv : v ≠ .null) : (option t).ofValue v = some <$> t.ofValue v := by
  cases v <;> first | rfl | exact absurd rfl hv

theorem toValue_of_ofValue {x : t.El} (h : t.ofValue v = .ok x) : t.toValue x = v := by
  induction t generalizing v with
  | option t ih =>
    by_cases hv : v = .null
    · subst hv
      cases h
      rfl
    · rw [ofValue_option hv, Checked.map_eq_ok] at h
      obtain ⟨y, hy, rfl⟩ := h
      exact ih hy
  | value =>
    cases h
    rfl
  | scalarOf k =>
    cases v with
    | scalar s => rw [toValue, Scalar.itemOf_eq_ok.mp h]
    | _ => cases h
  | arrayOf k =>
    cases v with
    | array a => rw [toValue, Numbers.itemsOf_eq_ok.mp h]
    | _ => cases h
  | _ =>
    -- The other host types are what values of one shape hold.
    cases v <;> cases h
    rfl

theorem ofValue_toValue (t : HostType) (x : t.El) :
    t.ofValue (t.toValue x) = .ok (t.emptied x) := by
  induction t with
  | option t ih =>
    cases x with
    | none => rfl
    | some x =>
      change (option t).ofValue (t.toValue x) = _
      by_cases hx : t.toValue x = .null
      · rw [emptied_some_null hx, hx]
        rfl
      · rw [ofValue_option hx, emptied_some hx, ih]
        rfl
  | scalarOf k => exact Scalar.itemOf_eq_ok.mpr rfl
  | arrayOf k => exact Numbers.itemsOf_eq_ok.mpr rfl
  | _ => rfl

/-- Reading and putting back undo each other for every host type, however deep its optionals: a
value that is read is put back unchanged, and what is put is read back, a hollow optional as
absent. -/
theorem conversions_inverse :
    (∀ (t : HostType) (v : Value) (x : t.El), t.ofValue v = .ok x → t.toValue x = v) ∧
    (∀ (t : HostType) (x : t.El), ¬Hollow t x → t.ofValue (t.toValue x) = .ok x) ∧
    ∀ (t : HostType) (x : t.El), Hollow t x → t.ofValue (t.toValue x) = .ok (t.emptied x) := by
  refine ⟨fun _ _ _ => toValue_of_ofValue, fun t x hx => ?_, fun t x _ => ofValue_toValue t x⟩
  rw [ofValue_toValue, emptied_eq_self hx]

example : (option (option .value)).ofValue ((option (option .value)).toValue (some (some .null))) =
    .ok none := rfl

end TypedWire.HostType
