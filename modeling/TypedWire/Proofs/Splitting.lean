import TypedWire.Proofs.Layouts
import TypedWire.Proofs.NumericPayloads
import TypedWire.Proofs.PlanSteps

namespace TypedWire

theorem getElem?_pieces {α : Type} {w n i : Nat} (hi : i < n) (xs : List α) :
    (pieces w n xs)[i]? = some ((xs.drop (i * w)).take w) := by
  induction n generalizing i xs with
  | zero => exact absurd hi (Nat.not_lt_zero i)
  | succ n ih =>
    cases i with
    | zero => rw [Nat.zero_mul, List.drop_zero, pieces, List.getElem?_cons_zero]
    | succ i =>
      rw [pieces, List.getElem?_cons_succ, ih (Nat.lt_of_succ_lt_succ hi), List.drop_drop,
        Nat.succ_mul, Nat.add_comm]

namespace Numbers

structure Spans (a : Numbers) (start n : Nat) (b : Numbers) : Prop where
  kind_eq : b.kind = a.kind
  length_eq : b.length = n
  get?_eq : ∀ i < n, b.get? i = a.get? (start + i)

structure Splits (a : Numbers) (w : Nat) (parts : List Numbers) : Prop where
  length_eq : parts.length = a.length / w
  getElem?_iff : ∀ i p, parts[i]? = some p ↔ a.slice (i * w) w = .ok p
  concat_eq : concat a.kind parts = .ok a

structure Joins (k : NumericKind) (parts : List Numbers) (a : Numbers) : Prop where
  kind_eq : a.kind = k
  length_eq : a.length = (parts.map length).sum
  split_eq : ∀ w, 0 < w → (∀ p ∈ parts, p.length = w) → a.split w = .ok parts

def span? (a : Numbers) (start n : Nat) : Option Numbers := do
  let stop ← Word.add? start n
  if stop ≤ a.length then return ⟨a.kind, (a.items.take stop).drop start⟩ else none

variable {a b : Numbers} {k : NumericKind} {parts : List Numbers} {start n w : Nat}
  {e : WireError}

section Slices

theorem exists_slice_iff : (∃ b, a.slice start n = .ok b) ↔ start + n ≤ a.length := by
  simp only [slice_eq_ok, exists_and_left, exists_eq', and_true]

theorem slice_eq_error : a.slice start n = .error e ↔ a.length < start + n ∧
    e = .outOfBounds (.slice start (min (start + n) (wordBound - 1)) a.length) := by
  rw [slice]
  split
  · next hfits => simp [Nat.not_lt.mpr hfits]
  · next hfits => simp [Nat.lt_of_not_le hfits, eq_comm]

theorem spans_of_slice (h : a.slice start n = .ok b) : a.Spans start n b := by
  have hlen := length_of_slice h
  obtain ⟨-, rfl⟩ := slice_eq_ok.mp h
  refine ⟨rfl, hlen, fun i hi => ?_⟩
  rw [get?, get?, List.getElem?_take_of_lt hi, List.getElem?_drop]

theorem toOption_slice (h : a.length < wordBound) (start n : Nat) :
    (a.slice start n).toOption = a.span? start n := by
  by_cases hfits : start + n ≤ a.length
  · have hword : start + n < wordBound := Nat.lt_of_le_of_lt hfits h
    have hitems : (a.items.drop start).take n = (a.items.take (start + n)).drop start := by
      rw [List.drop_take, Nat.add_sub_cancel_left]
    simp only [slice, span?, Word.add?_eq hword, if_pos hfits, hitems, Except.toOption,
      Option.bind_eq_bind, Option.bind_some, Option.pure_def]
  · have hnone : a.span? start n = none := by
      by_cases hword : start + n < wordBound
      · simp only [span?, Word.add?_eq hword, if_neg hfits, Option.bind_eq_bind, Option.bind_some]
      · simp only [span?, Word.add?, if_neg hword, Option.bind_eq_bind, Option.bind_none]
    simp only [slice, if_neg hfits, Except.toOption, hnone]

end Slices

section Joining

theorem itemsOf_eq_error :
    itemsOf k a = .error e ↔ a.kind ≠ k ∧ e = .typeMismatch k.name a.kind.name := by
  rw [itemsOf]
  split
  · next hkind => simp [hkind]
  · next hkind => simp [hkind, eq_comm]

theorem concat_eq_error : concat k parts = .error e ↔
    ∃ p, parts.find? (·.kind ≠ k) = some p ∧ e = .typeMismatch k.name p.kind.name := by
  have hlists : parts.mapM (itemsOf k) = .error e ↔
      ∃ p, parts.find? (·.kind ≠ k) = some p ∧ e = .typeMismatch k.name p.kind.name :=
    Checked.mapM_eq_error fun p e => by rw [itemsOf_eq_error, decide_eq_true_iff]
  rw [concat, Checked.bind_eq_error, hlists]
  simp only [pure, Except.pure, reduceCtorEq, and_false, exists_false, or_false]

theorem length_concat (h : concat k parts = .ok a) : a.length = (parts.map length).sum := by
  obtain ⟨lists, rfl, rfl⟩ := concat_eq_ok.mp h
  rw [length, List.length_flatten, List.map_map]
  rfl

theorem joins_of_concat (h : concat k parts = .ok a) : Joins k parts a :=
  ⟨kind_concat h, length_concat h, fun _ hw => split_concat h (Nat.ne_of_gt hw)⟩

end Joining

section Cutting

theorem split_eq_ok : a.split w = .ok parts ↔ (0 < w ∧ w ∣ a.length) ∧
    (pieces w (a.length / w) a.items).map (⟨a.kind, ·⟩) = parts := by
  have hcut : ¬(w = 0 ∨ a.length % w ≠ 0) ↔ 0 < w ∧ w ∣ a.length := by
    rw [not_or, not_not, Nat.pos_iff_ne_zero, Nat.dvd_iff_mod_eq_zero]
  rw [split, Checked.refuse_eq_ok, hcut, Except.ok.injEq]

theorem exists_split_iff : (∃ parts, a.split w = .ok parts) ↔ 0 < w ∧ w ∣ a.length := by
  simp only [split_eq_ok, exists_and_left, exists_eq', and_true]

theorem split_eq_error (hw : 0 < w) :
    a.split w = .error e ↔ ¬w ∣ a.length ∧ e = .lengthMismatch w a.length := by
  have hcut : w = 0 ∨ a.length % w ≠ 0 ↔ ¬w ∣ a.length := by
    rw [Nat.dvd_iff_mod_eq_zero, or_iff_right (Nat.ne_of_gt hw)]
  rw [split]
  split
  · next hrest => simp [hcut.mp hrest, eq_comm]
  · next hwhole => simp [not_not.mp (mt hcut.mpr hwhole)]

theorem concat_split (h : a.split w = .ok parts) : concat a.kind parts = .ok a := by
  obtain ⟨⟨-, hdvd⟩, rfl⟩ := split_eq_ok.mp h
  have hjoined : (pieces w (a.length / w) a.items).flatten = a.items :=
    flatten_pieces (Nat.div_mul_cancel hdvd).symm
  exact concat_eq_ok.mpr ⟨_, rfl, by rw [hjoined]⟩

theorem split_eq_ok_iff_concat : a.split w = .ok parts ↔
    0 < w ∧ (∀ p ∈ parts, p.length = w) ∧ concat a.kind parts = .ok a := by
  constructor
  · intro h
    obtain ⟨⟨hw, -⟩, -⟩ := split_eq_ok.mp h
    exact ⟨hw, fun p hp => (of_split h p hp).2, concat_split h⟩
  · rintro ⟨hw, hwidth, hconcat⟩
    exact split_concat hconcat (Nat.ne_of_gt hw) hwidth

theorem slice_eq_ok_iff_getElem? (h : a.split w = .ok parts) {i : Nat} {p : Numbers} :
    a.slice (i * w) w = .ok p ↔ parts[i]? = some p := by
  obtain ⟨⟨hw, -⟩, rfl⟩ := split_eq_ok.mp h
  have hplace : i * w + w ≤ a.length ↔ i < a.length / w := by
    rw [← Nat.succ_mul, ← Nat.le_div_iff_mul_le hw, Nat.succ_le_iff]
  rw [slice_eq_ok, hplace, List.getElem?_map]
  by_cases hi : i < a.length / w
  · simp only [getElem?_pieces hi, hi, true_and, Option.map_some, Option.some.injEq]
  · have hnone : (pieces w (a.length / w) a.items)[i]? = none :=
      List.getElem?_eq_none (by simpa using hi)
    simp only [hi, hnone, false_and, Option.map_none, reduceCtorEq]

theorem splits_of_split (h : a.split w = .ok parts) : a.Splits w parts := by
  refine ⟨?_, fun i p => (slice_eq_ok_iff_getElem? h).symm, concat_split h⟩
  obtain ⟨-, rfl⟩ := split_eq_ok.mp h
  rw [List.length_map, length_pieces]

end Cutting

/-- An array is cut if and only if its length is a multiple of a positive width, into its slices at
the multiples; arrays are joined if and only if they are of the kind, and cut apart again where they
are of one width; a slice is taken if and only if the array is long enough, whether its end is a
word or not. -/
theorem pieces_exact :
    (∀ (a : Numbers) w, ((∃ parts, a.split w = .ok parts) ↔ 0 < w ∧ w ∣ a.length) ∧
      (∀ parts, a.split w = .ok parts → a.Splits w parts) ∧
      (∀ parts, a.split w = .ok parts ↔
        0 < w ∧ (∀ p ∈ parts, p.length = w) ∧ concat a.kind parts = .ok a) ∧
      (0 < w → ∀ e, a.split w = .error e ↔ ¬w ∣ a.length ∧ e = .lengthMismatch w a.length)) ∧
    (∀ k parts, ((∃ a, concat k parts = .ok a) ↔ ∀ p ∈ parts, p.kind = k) ∧
      (∀ a, concat k parts = .ok a → Joins k parts a) ∧
      ∀ e, concat k parts = .error e ↔
        ∃ p, parts.find? (·.kind ≠ k) = some p ∧ e = .typeMismatch k.name p.kind.name) ∧
    ∀ (a : Numbers) start n, ((∃ b, a.slice start n = .ok b) ↔ start + n ≤ a.length) ∧
      (∀ b, a.slice start n = .ok b → a.Spans start n b) ∧
      (∀ e, a.slice start n = .error e ↔ a.length < start + n ∧
        e = .outOfBounds (.slice start (min (start + n) (wordBound - 1)) a.length)) ∧
      (a.length < wordBound → (a.slice start n).toOption = a.span? start n) :=
  ⟨fun _ _ => ⟨exists_split_iff, fun _ => splits_of_split, fun _ => split_eq_ok_iff_concat,
      fun hw _ => split_eq_error hw⟩,
    fun _ _ => ⟨exists_concat_iff, fun _ => joins_of_concat, fun _ => concat_eq_error⟩,
    fun _ start n => ⟨exists_slice_iff, fun _ => spans_of_slice, fun _ => slice_eq_error,
      fun h => toOption_slice h start n⟩⟩

def level (x y : Int32) : Numbers := ⟨.int32, [.ofInt32 x, .ofInt32 y]⟩

def levels : Numbers := ⟨.int32, [3, 1, 4, 1, 5, 9].map Item.ofInt32⟩

theorem pieces_exact_levels :
    levels.split 2 = .ok [level 3 1, level 4 1, level 5 9] ∧
    levels.Splits 2 [level 3 1, level 4 1, level 5 9] ∧
    (∃ turned, concat .int32 [level 5 9, level 4 1, level 3 1] = .ok turned ∧
      turned.split 2 = .ok [level 5 9, level 4 1, level 3 1]) ∧
    levels.split 4 = .error (.lengthMismatch 4 6) ∧
    levels.slice 2 2 = .ok (level 4 1) ∧ levels.Spans 2 2 (level 4 1) ∧
    levels.length < wordBound ∧ levels.span? 18446744073709551615 2 = none ∧
    levels.slice 18446744073709551615 2 =
      .error (.outOfBounds (.slice 18446744073709551615 18446744073709551615 6)) := by
  obtain ⟨hsplit, hconcat, hslice⟩ := pieces_exact
  have hcut : levels.split 2 = .ok [level 3 1, level 4 1, level 5 9] := rfl
  have hsplits := (hsplit levels 2).2.1 _ hcut
  have hmiddle : levels.slice 2 2 = .ok (level 4 1) := (hsplits.getElem?_iff 1 _).mp rfl
  have hrest : levels.split 4 = .error (.lengthMismatch 4 6) :=
    ((hsplit levels 4).2.2.2 (by decide) _).mpr ⟨by decide, rfl⟩
  have hword : levels.length < wordBound := by decide
  obtain ⟨hexists, hjoins, -⟩ := hconcat .int32 [level 5 9, level 4 1, level 3 1]
  obtain ⟨turned, hturned⟩ := hexists.mpr (by simp [level])
  have hback := (hjoins turned hturned).split_eq 2 (by decide) (by simp [level, length])
  obtain ⟨-, -, herror, hspan⟩ := hslice levels 18446744073709551615 2
  have hround := (herror _).mpr ⟨by decide, rfl⟩
  refine ⟨hcut, hsplits, ⟨turned, hturned, hback⟩, hrest, hmiddle,
    (hslice levels 2 2).2.1 _ hmiddle, hword, ?_, hround⟩
  rw [← hspan hword, hround]
  rfl

end Numbers

end TypedWire
