import TypedWire.Proofs.PlanSteps

namespace TypedWire

def leading (ds : List Nat) : List Nat := ds.takeWhile (· ≠ 0)

/-- The first zero stands behind axes whose product is no word. -/
def Overtaken (ds : List Nat) : Prop := 0 ∈ ds ∧ wordBound ≤ cellsOf (leading ds)

instance (ds : List Nat) : Decidable (Overtaken ds) := inferInstanceAs (Decidable (_ ∧ _))

def Countable (ds : List Nat) : Prop := cellsOf ds < wordBound ∧ ¬Overtaken ds

instance (ds : List Nat) : Decidable (Countable ds) := inferInstanceAs (Decidable (_ ∧ _))

section Product

variable {ds ds' : List Nat} {n : Nat}

theorem leading_cons {d : Nat} (h : d ≠ 0) (ds : List Nat) :
    leading (d :: ds) = d :: leading ds :=
  List.takeWhile_cons_of_pos (decide_eq_true h)

theorem leading_zero (ds : List Nat) : leading (0 :: ds) = [] :=
  List.takeWhile_cons_of_neg (by decide)

theorem leading_eq_self (h : 0 ∉ ds) : leading ds = ds := by
  rw [leading, List.takeWhile_eq_self_iff]
  intro d hd
  exact decide_eq_true fun hzero => h (hzero ▸ hd)

theorem cellsOf_leading_pos (ds : List Nat) : 1 ≤ cellsOf (leading ds) := by
  apply BlockPlan.one_le_cellsOf
  intro d hd
  have hnonzero := List.mem_takeWhile_imp (p := (· ≠ 0)) hd
  exact Nat.pos_of_ne_zero (of_decide_eq_true hnonzero)

theorem cellsOf_eq_prod (ds : List Nat) : cellsOf ds = ds.prod :=
  List.prod_eq_foldr.symm

theorem cellsOf_eq_zero : cellsOf ds = 0 ↔ 0 ∈ ds := by
  rw [cellsOf_eq_prod, List.prod_eq_zero_iff]

theorem cellsOf_perm (h : ds.Perm ds') : cellsOf ds = cellsOf ds' := by
  rw [cellsOf_eq_prod, cellsOf_eq_prod, h.prod_eq]

theorem countFrom_eq_some_iff {acc : Nat} (hacc : acc < wordBound) :
    countFrom acc ds = some n ↔ n = acc * cellsOf ds ∧ acc * cellsOf (leading ds) < wordBound := by
  induction ds generalizing acc with
  | nil =>
    rw [countFrom, Option.some_inj, show leading [] = [] from rfl,
      show cellsOf [] = 1 from rfl, Nat.mul_one]
    exact ⟨fun h => ⟨h.symm, hacc⟩, fun h => h.1.symm⟩
  | cons d ds ih =>
    simp only [countFrom, Option.ite_none_right_eq_some, cellsOf_cons]
    by_cases hd : d = 0
    · subst hd
      -- From the first zero on the count is zero, whatever the axes behind it.
      rw [leading_zero, Nat.mul_zero, ih (by decide)]
      simp only [Nat.zero_mul, Nat.mul_zero, show cellsOf [] = 1 from rfl, Nat.mul_one, hacc,
        show 0 < wordBound by decide, true_and]
    · rw [leading_cons hd, cellsOf_cons, ← Nat.mul_assoc, ← Nat.mul_assoc]
      constructor
      · rintro ⟨hword, h⟩
        exact (ih hword).mp h
      · rintro ⟨hn, hword⟩
        have hle := Nat.le_mul_of_pos_right (acc * d) (cellsOf_leading_pos ds)
        have hword' := Nat.lt_of_le_of_lt hle hword
        exact ⟨hword', (ih hword').mpr ⟨hn, hword⟩⟩

theorem countable_iff : Countable ds ↔ cellsOf (leading ds) < wordBound := by
  rw [Countable, Overtaken, ← cellsOf_eq_zero, not_and, Nat.not_le]
  by_cases hzero : cellsOf ds = 0
  · simp [hzero, show 0 < wordBound by decide]
  · rw [leading_eq_self (cellsOf_eq_zero.not.mp hzero)]
    exact ⟨And.left, fun h => ⟨h, fun h' => absurd h' hzero⟩⟩

theorem count?_eq_some_iff : count? ds = some n ↔ n = cellsOf ds ∧ Countable ds := by
  rw [count?, countFrom_eq_some_iff (by decide), Nat.one_mul, Nat.one_mul, countable_iff]

theorem count?_exact (ds : List Nat) :
    count? ds = if Countable ds then some (cellsOf ds) else none := by
  split
  · next h => exact count?_eq_some_iff.mpr ⟨rfl, h⟩
  · next h =>
    rw [Option.eq_none_iff_forall_ne_some]
    exact fun n hn => h (count?_eq_some_iff.mp hn).2

theorem countable_perm (h : ds.Perm ds') (hds : ¬Overtaken ds) (hds' : ¬Overtaken ds') :
    Countable ds ↔ Countable ds' := by
  rw [Countable, Countable, cellsOf_perm h]
  exact and_congr_right fun _ => ⟨fun _ => hds', fun _ => hds⟩

end Product

section Counts

variable {α : Type} {dims : List UInt32} {ds : List Nat}

theorem dimsCount_exact (dims : List UInt32) : dimsCount dims =
    if Countable (axes dims) then .ok (cellsOf (axes dims))
    else .error (.unsupportedShape (.dims (axes dims))) := by
  rw [dimsCount, count?_exact]
  by_cases h : Countable (axes dims)
  · rw [if_pos h, if_pos h]
  · rw [if_neg h, if_neg h]

theorem cellCount_exact (ds : List Nat) : Region.cellCount ds =
    if Countable ds then .ok (cellsOf ds) else .error (.outOfBounds (.count ds)) := by
  rw [Region.cellCount, count?_exact]
  by_cases h : Countable ds
  · rw [if_pos h, if_pos h]
  · rw [if_neg h, if_neg h]

theorem exists_block_iff {items : List α} : (∃ b, Block.make dims items = .ok b) ↔
    Countable (axes dims) ∧ cellsOf (axes dims) = items.length := by
  simp only [Block.make_eq_ok_iff, exists_eq_left, Block.WellFormed, dimsCount_exact]
  split
  · next h => simp only [Except.ok.injEq, h, true_and]
  · next h => simp only [reduceCtorEq, h, false_and]

theorem make_empty_iff {pos : List Nat} {max : Nat} (hempty : 0 ∈ ds)
    (hlen : pos.length = ds.length) : BlockPlan.make pos ds max = .ok [] ↔ ¬Overtaken ds := by
  have hzero := cellsOf_eq_zero.mpr hempty
  have hcount : Countable ds ↔ ¬Overtaken ds := by
    rw [Countable, hzero]
    exact and_iff_right (by decide)
  rw [← hcount]
  constructor
  · intro h
    exact (count?_eq_some_iff.mp (BlockPlan.make_eq_ok.mp h).2.1).2
  · intro h
    exact BlockPlan.make_of_empty (count?_eq_some_iff.mpr ⟨hzero.symm, h⟩) hlen

/-- Axes have their product as count if it is a word, unless a zero comes too late for it; they are
refused otherwise. So axes of either order have one count, a block holds as many items as its axes
have cells, and a plan of no cells has no chunks, unless a zero comes too late. -/
theorem counts_exact :
    (∀ ds, Region.cellCount ds =
      if cellsOf ds < wordBound ∧ ¬Overtaken ds then .ok (cellsOf ds)
      else .error (.outOfBounds (.count ds))) ∧
    (∀ dims, dimsCount dims =
      if cellsOf (axes dims) < wordBound ∧ ¬Overtaken (axes dims) then .ok (cellsOf (axes dims))
      else .error (.unsupportedShape (.dims (axes dims)))) ∧
    (∀ dims, (Shape.block (some dims)).recordCount? =
      if cellsOf (axes dims) < wordBound ∧ ¬Overtaken (axes dims) then some (cellsOf (axes dims))
      else none) ∧
    (∀ ds ds', ds.Perm ds' → ¬Overtaken ds → ¬Overtaken ds' → count? ds = count? ds') ∧
    (∀ dims (items : List α), (∃ b, Block.make dims items = .ok b) ↔
      (cellsOf (axes dims) < wordBound ∧ ¬Overtaken (axes dims)) ∧
        cellsOf (axes dims) = items.length) ∧
    ∀ pos counts max, 0 ∈ counts → pos.length = counts.length →
      (BlockPlan.make pos counts max = .ok [] ↔ ¬Overtaken counts) := by
  refine ⟨cellCount_exact, dimsCount_exact, fun dims => count?_exact (axes dims), ?_,
    fun _ _ => exists_block_iff, fun _ _ _ => make_empty_iff⟩
  intro ds ds' h hds hds'
  rw [count?_exact, count?_exact, cellsOf_perm h]
  simp only [countable_perm h hds hds']

theorem count_overtaken :
    cellsOf (axes [4294967295, 4294967295, 4294967295, 0]) = 0 ∧
    dimsCount [4294967295, 4294967295, 4294967295, 0] =
      .error (.unsupportedShape (.dims [4294967295, 4294967295, 4294967295, 0])) ∧
    dimsCount [0, 4294967295, 4294967295, 4294967295] = .ok 0 ∧
    Block.make [4294967295, 4294967295, 4294967295, 0] ([] : List Nat) =
      .error (.unsupportedShape (.dims [4294967295, 4294967295, 4294967295, 0])) ∧
    BlockPlan.make [0, 0, 0] [9223372036854775808, 2, 0] 1 =
      .error (.outOfBounds (.count [9223372036854775808, 2, 0])) := by
  refine ⟨by decide, rfl, rfl, rfl, rfl⟩

end Counts

end TypedWire
