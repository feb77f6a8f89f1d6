import TypedWire.Proofs.Unpacking

namespace TypedWire

theorem getElem?_littleEndian {w j : Nat} (hj : j < w) (n : Nat) :
    (littleEndian w n)[j]? = some (UInt8.ofNat (n / Nat.pow 256 j)) := by
  induction w generalizing n j with
  | zero => exact absurd hj (Nat.not_lt_zero j)
  | succ w ih =>
    cases j with
    | zero => simp [littleEndian]
    | succ j =>
      rw [littleEndian, List.getElem?_cons_succ, ih (Nat.lt_of_succ_lt_succ hj),
        Nat.div_div_eq_div_mul, Nat.mul_comm]
      rfl

theorem pieces_one {α : Type} (xs : List α) : pieces 1 xs.length xs = xs.map ([·]) := by
  induction xs with
  | nil => rfl
  | cons x xs ih => simp [pieces, ih]

namespace Item

variable {k : NumericKind}

theorem exists_ofBytes (hk : k ≠ .bool) (bs : List UInt8) : ∃ a, ofBytes k bs = .ok a :=
  ⟨_, dif_pos fun h => absurd h hk⟩

theorem ofBytes_bool (b : UInt8) :
    1 < b ∧ ofBytes .bool [b] = .error (.invalidBool b) ∨
      ¬1 < b ∧ ∃ a, ofBytes .bool [b] = .ok a := by
  have hread : ofLittleEndian [b] = b.toNat := by simp [ofLittleEndian]
  by_cases hb : 1 < b
  · refine .inl ⟨hb, ?_⟩
    have hbad : ¬(NumericKind.bool = .bool → ofLittleEndian [b] ≤ 1) := by
      intro h
      exact Nat.not_lt.mpr (hread ▸ h rfl) (UInt8.lt_iff_toNat_lt.mp hb)
    rw [ofBytes, dif_neg hbad, hread, UInt8.ofNat_toNat]
  · refine .inr ⟨hb, _, dif_pos fun _ => ?_⟩
    rw [hread]
    exact UInt8.le_iff_toNat_le.mp (UInt8.not_lt.mp hb)

end Item

namespace Numbers

variable {k : NumericKind} {bs : List UInt8}

/-- Bytes of a whole number of items, of booleans only 0 and 1. -/
structure Payload (k : NumericKind) (bs : List UInt8) : Prop where
  whole : k.width ∣ bs.length
  bools : k = .bool → ∀ b ∈ bs, b ≤ 1

theorem readBools_eq_error {e : WireError} :
    bs.mapM (fun b => Item.ofBytes .bool [b]) = .error e ↔
      ∃ b, bs.find? (1 < ·) = some b ∧ e = .invalidBool b := by
  refine Checked.mapM_eq_error fun b e => ?_
  rcases Item.ofBytes_bool b with ⟨hb, h⟩ | ⟨hb, a, h⟩
  · simp [h, hb, eq_comm]
  · simp [h, hb]

theorem ofBytes_eq_error {e : WireError} : ofBytes k bs = .error e ↔
    ¬k.width ∣ bs.length ∧ e = .invalidPayload (.flat (.numeric k)) (.ragged bs.length k.width) ∨
      k = .bool ∧ ∃ b, bs.find? (1 < ·) = some b ∧ e = .invalidBool b := by
  by_cases hk : k = .bool
  · subst hk
    have hwidth : NumericKind.bool.width = 1 := rfl
    have hpieces : pieces 1 (bs.length / 1) bs = bs.map ([·]) := by rw [Nat.div_one, pieces_one]
    rw [ofBytes, hwidth, if_pos (Nat.mod_one _), hpieces, List.mapM_map, Checked.bind_eq_error]
    simp [Function.comp_def, readBools_eq_error, pure, Except.pure]
  · by_cases hwhole : k.width ∣ bs.length
    · have hitems : ∀ p ∈ pieces k.width (bs.length / k.width) bs,
          ∃ x, Item.ofBytes k p = .ok x := fun p _ => Item.exists_ofBytes hk p
      obtain ⟨items, hitems⟩ := exists_forall₂ hitems
      have hread := Checked.mapM_eq_ok.mpr hitems
      rw [ofBytes, if_pos (Nat.mod_eq_zero_of_dvd hwhole), Checked.bind_ok hread]
      simp [hk, hwhole, pure, Except.pure]
    · rw [ofBytes, if_neg (mt Nat.dvd_of_mod_eq_zero hwhole)]
      simp [hk, hwhole, eq_comm]

theorem exists_ofBytes_iff : (∃ a, ofBytes k bs = .ok a) ↔ Payload k bs := by
  constructor
  · rintro ⟨a, h⟩
    have hok : ∀ e, ofBytes k bs ≠ .error e := by simp [h]
    refine ⟨?_, fun hk b hb => ?_⟩
    · by_contra hragged
      exact hok _ (ofBytes_eq_error.mpr (.inl ⟨hragged, rfl⟩))
    · by_contra hbad
      cases hfind : bs.find? (1 < ·) with
      | none => exact List.find?_eq_none.mp hfind b hb (decide_eq_true (UInt8.not_le.mp hbad))
      | some b' => exact hok _ (ofBytes_eq_error.mpr (.inr ⟨hk, b', hfind, rfl⟩))
  · rintro ⟨hwhole, hbools⟩
    cases h : ofBytes k bs with
    | ok a => exact ⟨a, rfl⟩
    | error e =>
      rcases ofBytes_eq_error.mp h with ⟨hragged, -⟩ | ⟨hk, b, hb, -⟩
      · exact absurd hwhole hragged
      · have hle := hbools hk b (List.mem_of_find?_eq_some hb)
        have hlt : 1 < b := by simpa using List.find?_some hb
        exact absurd hle (UInt8.not_le.mpr hlt)

theorem ofBytes_eq_ok {a : Numbers} : ofBytes k bs = .ok a ↔ a.kind = k ∧ a.bytes = bs := by
  constructor
  · intro h
    exact ⟨kind_of_ofBytes h, bytes_ofBytes h⟩
  · rintro ⟨rfl, rfl⟩
    exact ofBytes_bytes a

theorem getElem?_bytes {items : List (Item k)} {i j : Nat} {x : Item k} (hx : items[i]? = some x)
    (hj : j < k.width) :
    (bytes ⟨k, items⟩)[i * k.width + j]? = some (UInt8.ofNat (x.toNat / Nat.pow 256 j)) := by
  induction items generalizing i with
  | nil => cases hx
  | cons y items ih =>
    have hlen : y.bytes.length = k.width := Item.length_bytes y
    rw [bytes, List.flatMap_cons]
    cases i with
    | zero =>
      cases hx
      rw [Nat.zero_mul, Nat.zero_add, List.getElem?_append_left (by rwa [hlen])]
      exact getElem?_littleEndian hj _
    | succ i =>
      have hplace : (i + 1) * k.width + j = k.width + (i * k.width + j) := by
        rw [Nat.succ_mul]
        omega
      rw [hplace, List.getElem?_append_right (by omega), hlen, Nat.add_sub_cancel_left]
      exact ih hx

theorem bytes_concat {parts : List Numbers} {a : Numbers} (h : concat k parts = .ok a) :
    a.bytes = parts.flatMap bytes := by
  obtain ⟨lists, rfl, rfl⟩ := concat_eq_ok.mp h
  rw [bytes, List.flatMap_map, List.flatten_eq_flatMap, List.flatMap_assoc]
  rfl

theorem exists_concat_iff {parts : List Numbers} :
    (∃ a, concat k parts = .ok a) ↔ ∀ p ∈ parts, p.kind = k := by
  refine ⟨?_, exists_concat⟩
  rintro ⟨a, h⟩ p hp
  obtain ⟨lists, rfl, -⟩ := concat_eq_ok.mp h
  obtain ⟨items, -, rfl⟩ := List.mem_map.mp hp
  rfl

end Numbers

theorem Element.make_numeric {k : NumericKind} {bs : List UInt8} {i : Key} {e : Element} :
    Element.make i (.flat (.numeric k)) (.flat bs) = .ok e ↔
      k.width ∣ bs.length ∧ e = .flat i (.numeric k) bs := by
  rw [make, FlatForm.width_numeric, Checked.guard_eq_ok, Except.ok.injEq,
    Nat.dvd_iff_mod_eq_zero]
  exact and_congr_right fun _ => eq_comm

namespace Numbers

/-- An element holds any whole number of items, its numbers are read unless one is no boolean, and
what is written is what is read: bit by bit, whatever the bits mean. -/
theorem payloads_exact :
    (∀ k bs i, ((∃ e, Element.make i (.flat (.numeric k)) (.flat bs) = .ok e) ↔
        k.width ∣ bs.length) ∧
      ∀ e, Element.make i (.flat (.numeric k)) (.flat bs) = .ok e →
        e.array = ofBytes k bs ∧ e.arrayOf k = ofBytes k bs) ∧
    (∀ k bs, ((∃ a, ofBytes k bs = .ok a) ↔ Payload k bs) ∧
      (k.width ∣ bs.length → ∀ e, ofBytes k bs = .error e ↔
        k = .bool ∧ ∃ b, bs.find? (1 < ·) = some b ∧ e = .invalidBool b) ∧
      ∀ a, ofBytes k bs = .ok a ↔ a.kind = k ∧ a.bytes = bs) ∧
    (∀ a : Numbers, ofBytes a.kind a.bytes = .ok a ∧
      a.bytes.length = a.length * a.kind.width ∧
      ∀ i j x, a.items[i]? = some x → j < a.kind.width →
        a.bytes[i * a.kind.width + j]? = some (UInt8.ofNat (x.toNat / Nat.pow 256 j))) ∧
    ∀ k parts, ((∃ a, concat k parts = .ok a) ↔ ∀ p ∈ parts, p.kind = k) ∧
      ∀ a, concat k parts = .ok a → a.bytes = parts.flatMap bytes := by
  refine ⟨fun k bs i => ⟨?_, ?_⟩, fun k bs => ⟨exists_ofBytes_iff, ?_, fun a => ofBytes_eq_ok⟩,
    fun a => ⟨ofBytes_bytes a, length_bytes a, fun i j x => getElem?_bytes⟩,
    fun k parts => ⟨exists_concat_iff, fun a => bytes_concat⟩⟩
  · simp only [Element.make_numeric, exists_and_left, exists_eq, and_true]
  · intro e he
    obtain ⟨-, rfl⟩ := Element.make_numeric.mp he
    exact ⟨if_pos rfl, if_pos rfl⟩
  · intro hwhole e
    rw [ofBytes_eq_error]
    simp only [hwhole, not_true_eq_false, false_and, false_or]

theorem payloads_exact_flags :
    let nan : Numbers := ⟨.single, [⟨0xffa00001, nofun⟩]⟩
    (∃ e, Element.make (.name "flags") (.flat (.numeric .bool)) (.flat [1, 0, 2, 3]) = .ok e ∧
      e.array = .error (.invalidBool 2)) ∧
    ofBytes .single nan.bytes = .ok nan ∧ nan.numEq nan = false := by
  intro nan
  obtain ⟨hmake, hread, hwrite, -⟩ := payloads_exact
  obtain ⟨hexists, harray⟩ := hmake .bool [1, 0, 2, 3] (.name "flags")
  obtain ⟨e, he⟩ := hexists.mpr (by decide)
  refine ⟨⟨e, he, ?_⟩, (hwrite nan).1, by decide⟩
  rw [(harray e he).1]
  exact ((hread .bool [1, 0, 2, 3]).2.1 (by decide) _).mpr ⟨rfl, 2, rfl, rfl⟩

end Numbers

end TypedWire
