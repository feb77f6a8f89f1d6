import TypedWire.Proofs.AxisCounts
import TypedWire.Proofs.BlockCopies

namespace TypedWire.Region

open BlockPlan

def ranges? (n : Nat) : (starts : List Nat) → Option (List (Nat × Nat))
  | [] => some []
  | s :: ss => do
    let stop ← Word.add? s n
    return (s, stop) :: (← ranges? n ss)

/-- The runs that start here are those of the part: apart from each other, in order, and within the
axes, they list its cells one after the other. -/
structure Enumerates (dims pos counts starts : List Nat) : Prop where
  ranges_eq : ranges? (run counts) starts = some (starts.map fun s => (s, s + run counts))
  empty : 0 ∈ counts → starts = []
  length_eq : 0 ∉ counts → starts.length = cellsOf counts.tail
  strides_eq : 0 ∉ counts → ∀ k < dims.length,
    (strides 1 dims)[k]? = some (cellsOf (dims.take k)) ∧ cellsOf (dims.take k) < wordBound
  apart : starts.Pairwise fun s t => s < t ∧ s + run counts ≤ t
  below : ∀ s ∈ starts, s + run counts ≤ cellsOf dims
  addresses_eq : starts.flatMap (List.range' · (run counts)) =
    (cells counts).map (address dims pos)
  cells_ordered : (cells counts).Pairwise Before
  mem_cells : ∀ i, i ∈ cells counts ↔ List.Forall₂ (· < ·) i counts

section Ranges

variable {dims pos counts : List Nat}

theorem ranges?_eq {n : Nat} {starts : List Nat} (h : ∀ s ∈ starts, s + n < wordBound) :
    ranges? n starts = some (starts.map fun s => (s, s + n)) := by
  induction starts with
  | nil => rfl
  | cons s ss ih =>
    obtain ⟨hs, hss⟩ := List.forall_mem_cons.mp h
    simp only [ranges?, Word.add?_eq hs, ih hss, Option.bind_eq_bind, Option.bind_some,
      Option.pure_def, List.map_cons]

theorem getElem?_strides {stride n k : Nat} (hn : countFrom stride dims = some n)
    (hk : k < dims.length) :
    (strides stride dims)[k]? = some (stride * cellsOf (dims.take k)) := by
  induction dims generalizing stride k with
  | nil => exact absurd hk (Nat.not_lt_zero k)
  | cons d ds ih =>
    simp only [countFrom, Option.ite_none_right_eq_some] at hn
    obtain ⟨hword, hn⟩ := hn
    rw [strides, Nat.min_eq_left (Nat.le_sub_one_of_lt hword)]
    cases k with
    | zero => exact congrArg some (Nat.mul_one stride).symm
    | succ k =>
      rw [List.getElem?_cons_succ, ih hn (Nat.lt_of_succ_lt_succ hk), List.take_succ_cons,
        cellsOf_cons, Nat.mul_assoc]

theorem cellsOf_take_le (hpos : ∀ d ∈ dims, 0 < d) (k : Nat) :
    cellsOf (dims.take k) ≤ cellsOf dims := by
  have hrest : 1 ≤ cellsOf (dims.drop k) :=
    one_le_cellsOf fun d hd => hpos d (List.mem_of_mem_drop hd)
  calc cellsOf (dims.take k) ≤ cellsOf (dims.take k) * cellsOf (dims.drop k) :=
        Nat.le_mul_of_pos_right _ hrest
    _ = cellsOf dims := by rw [← cellsOf_append, List.take_append_drop]

theorem Within.dims_pos (h : Within dims pos counts) (hcounts : 0 ∉ counts) :
    ∀ d ∈ dims, 0 < d := by
  intro d hd
  obtain ⟨c, hc, hle⟩ := exists_of_forall₂ h.counts_le.flip d hd
  exact Nat.lt_of_lt_of_le (Nat.pos_of_ne_zero fun hzero => hcounts (hzero ▸ hc)) hle

theorem Within.count?_eq (h : Within dims pos counts) (hcounts : 0 ∉ counts)
    (hword : cellsOf dims < wordBound) : count? dims = some (cellsOf dims) := by
  have hdims : 0 ∉ dims := fun hzero => Nat.lt_irrefl 0 (h.dims_pos hcounts 0 hzero)
  refine count?_eq_some_iff.mpr ⟨rfl, countable_iff.mpr ?_⟩
  rwa [leading_eq_self hdims]

theorem add_mul_le {d x a b : Nat} (hx : x ≤ d) (hab : a < b) : x + d * a ≤ d * b := by
  calc x + d * a ≤ d + d * a := Nat.add_le_add_right hx _
    _ = d * (a + 1) := by rw [Nat.mul_succ, Nat.add_comm]
    _ ≤ d * b := Nat.mul_le_mul_left d hab

theorem Within.address_lt (h : Within dims pos counts) {i j : List Nat}
    (hi : List.Forall₂ (· < ·) i counts) (hbefore : Before i j) :
    address dims pos i < address dims pos j := by
  induction h generalizing i j with
  | nil =>
    cases hi
    cases hbefore
  | @cons d p c ds ps cs h _ ih =>
    cases hi with
    | @cons n _ is _ hn his =>
      cases hbefore with
      | here hnm => exact Nat.add_lt_add_right (Nat.add_lt_add_left hnm p) _
      | outside hbefore =>
        have hstep : p + n + 1 ≤ d := Nat.le_trans (Nat.add_lt_add_left hn p) h
        have hle := add_mul_le hstep (ih his hbefore)
        simp only [address]
        omega

theorem Within.run_le {c : Nat} {cs o o' : List Nat} (h : Within dims pos (c :: cs))
    (ho : List.Forall₂ (· < ·) o cs) (hbefore : Before o o') :
    address dims pos (0 :: o) + c ≤ address dims pos (0 :: o') := by
  cases h with
  | cons h hw =>
    have hle := add_mul_le h (hw.address_lt ho hbefore)
    simp only [address]
    omega

theorem apart_starts {c : Nat} {cs : List Nat} (h : Within dims pos (c :: cs)) (hc : c ≠ 0) :
    (starts dims pos (c :: cs)).Pairwise fun s t => s < t ∧ s + c ≤ t := by
  rw [starts_eq_map h hc, List.pairwise_map]
  refine (pairwise_cells cs).imp_of_mem fun ho _ hbefore => ?_
  have hle := h.run_le (mem_cells_iff.mp ho) hbefore
  exact ⟨by omega, hle⟩

theorem enumerates_starts (h : Within dims pos counts) (hrank : dims ≠ [])
    (hword : cellsOf dims < wordBound) :
    Enumerates dims pos counts (starts dims pos counts) := by
  have hbelow := starts_le h
  have hcells : (starts dims pos counts).flatMap (List.range' · (run counts)) =
      (cells counts).map (address dims pos) := by
    rw [← addresses_eq_runs h, Region.addresses_eq h]
  have hcounts : counts ≠ [] := by
    rintro rfl
    exact hrank (List.length_eq_zero_iff.mp h.length_counts.symm)
  obtain ⟨c, cs, rfl⟩ := List.exists_cons_of_ne_nil hcounts
  refine {
    ranges_eq := ranges?_eq fun s hs => Nat.lt_of_le_of_lt (hbelow s hs) hword
    empty := starts_eq_nil h
    length_eq := fun hpos => ?_
    strides_eq := fun hpos k hk => ⟨?_, ?_⟩
    apart := ?_
    below := hbelow
    addresses_eq := hcells
    cells_ordered := pairwise_cells _
    mem_cells := fun i => mem_cells_iff }
  · have hc : c ≠ 0 := fun hzero => hpos (hzero ▸ List.mem_cons_self)
    rw [starts_eq_map h hc, List.length_map, length_cells, List.tail_cons]
  · rw [getElem?_strides (h.count?_eq hpos hword) hk, Nat.one_mul]
  · exact Nat.lt_of_le_of_lt (cellsOf_take_le (h.dims_pos hpos) k) hword
  · by_cases hc : c = 0
    · rw [starts_eq_nil h (hc ▸ List.mem_cons_self)]
      exact .nil
    · exact apart_starts h hc

theorem runs_starts_of_lt (h : Within dims pos counts) (hrank : dims ≠ [])
    (hword : cellsOf dims < wordBound) : Runs dims pos counts (starts dims pos counts) := by
  by_cases hempty : 0 ∈ counts
  · rw [starts_eq_nil h hempty]
    exact .empty hempty
  · exact runs_starts (h.count?_eq hempty hword) hrank h

/-- The walk over a part within axes whose product is a word comes to its end without leaving the
words, and the runs that it gives enumerate the part. -/
theorem runs_enumerate (h : Within dims pos counts) (hrank : dims ≠ [])
    (hword : cellsOf dims < wordBound) :
    ∃ ss, (∀ ss', Runs dims pos counts ss' ↔ ss' = ss) ∧ starts dims pos counts = ss ∧
      Enumerates dims pos counts ss := by
  have hruns := runs_starts_of_lt h hrank hword
  refine ⟨_, fun ss' => ⟨fun hss => hss.unique hruns, ?_⟩, rfl, enumerates_starts h hrank hword⟩
  rintro rfl
  exact hruns

theorem runs_enumerate_columns : Runs [4, 3] [1, 1] [2, 2] [5, 9] ∧
    Enumerates [4, 3] [1, 1] [2, 2] [5, 9] := by
  have hwithin : Within [4, 3] [1, 1] [2, 2] := .cons (by decide) (.cons (by decide) .nil)
  obtain ⟨_, hruns, rfl, henumerates⟩ :=
    runs_enumerate hwithin (List.cons_ne_nil _ _) (by decide)
  exact ⟨(hruns _).mpr rfl, henumerates⟩

end Ranges

end TypedWire.Region
