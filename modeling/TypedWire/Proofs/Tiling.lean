import TypedWire.Proofs.PlanSteps

namespace TypedWire

namespace BlockPlan

open Region

section Order

variable {pos counts i j : List Nat}

/-- Column-major order: the outermost axis in which two cells differ decides. -/
inductive Before : List Nat → List Nat → Prop
  | here {i j is} : i < j → Before (i :: is) (j :: is)
  | outside {i j is js} : Before is js → Before (i :: is) (j :: js)

theorem Before.irrefl (i : List Nat) : ¬Before i i := by
  intro h
  induction i with
  | nil => cases h
  | cons n i ih =>
    cases h with
    | here h => exact Nat.lt_irrefl n h
    | outside h => exact ih h

theorem Before.add (h : Before i j) (hi : pos.length = i.length) :
    Before (List.zipWith (· + ·) pos i) (List.zipWith (· + ·) pos j) := by
  induction h generalizing pos with
  | here h =>
    obtain ⟨p, ps, rfl⟩ := List.exists_cons_of_length_eq_add_one hi
    exact .here (Nat.add_lt_add_left h p)
  | outside _ ih =>
    obtain ⟨p, ps, rfl⟩ := List.exists_cons_of_length_eq_add_one hi
    exact .outside (ih (Nat.succ.inj hi))

theorem mem_cells_iff : i ∈ cells counts ↔ List.Forall₂ (· < ·) i counts := by
  refine ⟨forall₂_lt_of_mem_cells, fun h => ?_⟩
  induction h with
  | nil => exact List.mem_singleton.mpr rfl
  | cons hn _ ih =>
    exact List.mem_flatMap.mpr ⟨_, ih, List.mem_map_of_mem (List.mem_range.mpr hn)⟩

theorem pairwise_cells (counts : List Nat) : (cells counts).Pairwise Before := by
  induction counts with
  | nil => exact List.pairwise_singleton _ _
  | cons c cs ih =>
    rw [cells, List.pairwise_flatMap]
    constructor
    · intro o _
      rw [List.pairwise_map]
      exact List.pairwise_lt_range.imp .here
    · refine ih.imp fun {o o'} h x hx y hy => ?_
      obtain ⟨i, -, rfl⟩ := List.mem_map.mp hx
      obtain ⟨j, -, rfl⟩ := List.mem_map.mp hy
      exact .outside h

theorem pairwise_shifted (h : pos.length = counts.length) :
    (shifted (pos, counts)).Pairwise Before := by
  rw [shifted, List.pairwise_map]
  refine (pairwise_cells counts).imp_of_mem fun hi _ hij => hij.add ?_
  rw [h, (mem_cells_iff.mp hi).length_eq]

theorem zipWith_add_assoc (p o i : List Nat) : List.zipWith (· + ·) (List.zipWith (· + ·) p o) i =
    List.zipWith (· + ·) p (List.zipWith (· + ·) o i) := by
  induction p generalizing o i with
  | nil => rfl
  | cons n p ih =>
    rcases o with _ | ⟨m, o⟩ <;> rcases i with _ | ⟨k, i⟩ <;>
      first
      | rfl
      | simp only [List.zipWith_cons_cons, ih, Nat.add_assoc]

theorem shifted_add (pos offset counts : List Nat) :
    shifted (List.zipWith (· + ·) pos offset, counts) =
      (shifted (offset, counts)).map (List.zipWith (· + ·) pos) := by
  rw [shifted, shifted, List.map_map]
  exact List.map_congr_left fun i _ => zipWith_add_assoc pos offset i

end Order

section Axis

variable {pos counts : List Nat} {max : Nat}

def CutAlong (counts : List Nat) (axis : Nat) (c : Chunk (List Nat)) : Prop :=
  c.count.take axis = counts.take axis ∧ ∀ n ∈ c.count.drop (axis + 1), n = 1

theorem Split.Cuts.chunk_cut {s : Split} (h : s.Cuts max counts) (hcounts : ∀ n ∈ counts, 0 < n)
    (pos : List Nat) : ∀ c ∈ s.plan pos max,
      (∀ n ∈ c.count, 0 < n) ∧ CutAlong counts s.inner.length c := by
  rw [← h.parts] at hcounts ⊢
  intro c hc
  obtain ⟨o, -, hc⟩ := List.mem_flatMap.mp hc
  obtain ⟨f, hf, rfl⟩ := List.mem_map.mp hc
  have hone : ∀ n ∈ o.map fun _ => 1, n = 1 := by
    intro n hn
    obtain ⟨_, -, rfl⟩ := List.mem_map.mp hn
    rfl
  refine ⟨?_, ?_, ?_⟩
  · intro n hn
    rcases List.mem_append.mp hn with hn | hn
    · exact hcounts n (List.mem_append_left _ hn)
    · rcases List.mem_cons.mp hn with rfl | hn
      · exact FlatPlan.count_pos 0 s.axis _ f hf
      · rw [hone n hn]
        exact Nat.one_pos
  · rw [Split.chunk, Split.count, List.take_left, List.take_left]
  · rw [Split.chunk, Split.count, ← List.drop_drop, List.drop_left]
    exact hone

theorem exists_plan {n : Nat} (hn : count? counts = some n) (hzero : n ≠ 0) (hrank : counts ≠ [])
    (hpos : List.Forall₂ (fun p c => p + c < wordBound) pos counts) (max : Nat) :
    ∃ s : Split, s.Cuts (Nat.max max 1) counts ∧
      make pos counts max = .ok (s.plan pos (Nat.max max 1)) := by
  have hn' := count?_eq_some hn
  have hcounts := pos_of_cellsOf (hn' ▸ hzero)
  obtain ⟨c, cs, rfl⟩ := List.exists_cons_of_ne_nil hrank
  obtain ⟨s, -, hcuts, heq⟩ :=
    exists_split hcounts (hn' ▸ countFrom_lt (by decide) hn) (Nat.le_max_right max 1)
  exact ⟨s, hcuts, by rw [make_of_cells hn hzero hpos, plan_of_cuts heq]⟩

theorem cutAlong_of_make {n : Nat} (hn : count? counts = some n) (hrank : counts ≠ [])
    (hpos : List.Forall₂ (fun p c => p + c < wordBound) pos counts) {cs : List (Chunk (List Nat))}
    (h : make pos counts max = .ok cs) :
    (∀ c ∈ cs, ∀ n ∈ c.count, 0 < n) ∧
      ∃ axis < counts.length, ∀ c ∈ cs, CutAlong counts axis c := by
  by_cases hzero : n = 0
  · subst hzero
    cases (make_of_empty hn hpos.length_eq).symm.trans h
    exact ⟨List.forall_mem_nil _, 0, List.length_pos_of_ne_nil hrank, List.forall_mem_nil _⟩
  · obtain ⟨s, hcuts, hplan⟩ := exists_plan hn hzero hrank hpos max
    cases hplan.symm.trans h
    have hchunk := hcuts.chunk_cut (pos_of_cellsOf (count?_eq_some hn ▸ hzero)) pos
    refine ⟨fun c hc => (hchunk c hc).1, s.inner.length, ?_, fun c hc => (hchunk c hc).2⟩
    rw [← hcuts.parts, List.length_append, List.length_cons]
    omega

end Axis

section Tiling

variable {pos counts : List Nat} {max : Nat} {cs : List (Chunk (List Nat))}

theorem Tiles.shifted_eq (h : Tiles pos counts cs) :
    cs.flatMap (fun c => shifted (c.pos, c.count)) = shifted (pos, counts) := by
  rw [shifted, ← h.cells_eq, List.map_flatMap]
  apply List.flatMap_congr
  intro c hc
  rw [h.pos_eq c hc, shifted_add]

theorem pos_mem_shifted (hcounts : ∀ n ∈ counts, 0 < n) (hlen : pos.length = counts.length) :
    pos ∈ shifted (pos, counts) := by
  obtain ⟨os, hos⟩ := cells_eq_cons hcounts
  rw [shifted, hos, List.map_cons, zipWith_zeros_of_length hlen]
  exact List.mem_cons_self

theorem Tiles.pairwise_shifted (h : Tiles pos counts cs) (hlen : pos.length = counts.length) :
    (cs.flatMap fun c => shifted (c.pos, c.count)).Pairwise Before := by
  rw [h.shifted_eq]
  exact BlockPlan.pairwise_shifted hlen

theorem Tiles.exists_unique (h : Tiles pos counts cs) (hlen : pos.length = counts.length)
    {i : List Nat} (hi : List.Forall₂ (· < ·) i counts) :
    ∃! c, c ∈ cs ∧ List.zipWith (· + ·) pos i ∈ shifted (c.pos, c.count) := by
  have hmem : List.zipWith (· + ·) pos i ∈ shifted (pos, counts) :=
    List.mem_map_of_mem (mem_cells_iff.mpr hi)
  rw [← h.shifted_eq] at hmem
  obtain ⟨c, hc, hmem⟩ := List.mem_flatMap.mp hmem
  have hapart : cs.Pairwise fun a b =>
      (shifted (a.pos, a.count)).Disjoint (shifted (b.pos, b.count)) :=
    (List.pairwise_flatMap.mp (h.pairwise_shifted hlen)).2.imp fun hab x ha hb =>
      Before.irrefl x (hab x ha x hb)
  have hsymm : Std.Symm fun a b : Chunk (List Nat) =>
      (shifted (a.pos, a.count)).Disjoint (shifted (b.pos, b.count)) :=
    ⟨fun _ _ hab => hab.symm⟩
  refine ⟨c, ⟨hc, hmem⟩, fun c' ⟨hc', hmem'⟩ => ?_⟩
  by_contra hne
  exact hapart.forall hc' hc hne hmem' hmem

theorem Tiles.increasing (h : Tiles pos counts cs) (hlen : pos.length = counts.length)
    (hcounts : ∀ c ∈ cs, ∀ n ∈ c.count, 0 < n) : cs.Pairwise fun a b => Before a.pos b.pos := by
  have hfirst : ∀ c ∈ cs, c.pos ∈ shifted (c.pos, c.count) := by
    intro c hc
    refine pos_mem_shifted (hcounts c hc) ?_
    have hw := h.within c hc
    rw [h.pos_eq c hc, List.length_zipWith, hlen, hw.length_pos, Nat.min_self, hw.length_counts]
  refine (List.pairwise_flatMap.mp (h.pairwise_shifted hlen)).2.imp_of_mem fun ha hb hab => ?_
  exact hab _ (hfirst _ ha) _ (hfirst _ hb)

theorem nil_of_empty {n : Nat} (hn : count? counts = some n) (hlen : pos.length = counts.length)
    (h : make pos counts max = .ok cs) (hempty : 0 ∈ counts) : cs = [] := by
  have hzero : cellsOf counts = 0 := by
    by_contra hne
    exact Nat.lt_irrefl 0 (pos_of_cellsOf hne 0 hempty)
  rw [count?_eq_some hn, hzero] at hn
  cases (make_of_empty hn hlen).symm.trans h
  rfl

structure Planned (pos counts : List Nat) (max : Nat) (cs : List (Chunk (List Nat))) : Prop
    extends Tiles pos counts cs where
  counts_pos : ∀ c ∈ cs, ∀ n ∈ c.count, 0 < n
  cells_le : ∀ c ∈ cs, cellsOf c.count ≤ Nat.max max 1
  shifted_eq : cs.flatMap (fun c => shifted (c.pos, c.count)) = shifted (pos, counts)
  exists_unique : ∀ i, List.Forall₂ (· < ·) i counts →
    ∃! c, c ∈ cs ∧ List.zipWith (· + ·) pos i ∈ shifted (c.pos, c.count)
  increasing : cs.Pairwise fun a b => Before a.pos b.pos
  axis : ∃ axis < counts.length, ∀ c ∈ cs, CutAlong counts axis c
  empty : 0 ∈ counts → cs = []

/-- A request within the words has a plan, its chunks tile it, and that plan is what the steps lead
to. -/
theorem make_tiles {n : Nat} (hn : count? counts = some n) (hrank : counts ≠ [])
    (hpos : List.Forall₂ (fun p c => p + c < wordBound) pos counts) (max : Nat) :
    ∃ cs, make pos counts max = .ok cs ∧ Planned pos counts max cs ∧
      ∀ cs', Steps pos max counts cs' ↔ cs' = cs := by
  obtain ⟨cs, hmake, hsteps⟩ := steps_iff hn hrank hpos max
  have htiles := tiles_of_make hmake
  obtain ⟨hcounts, haxis⟩ := cutAlong_of_make hn hrank hpos hmake
  refine ⟨cs, hmake, ?_, hsteps⟩
  exact {
    htiles with
    counts_pos := hcounts
    cells_le := cellsOf_count_le_max hmake
    shifted_eq := htiles.shifted_eq
    exists_unique := fun i => htiles.exists_unique hpos.length_eq
    increasing := htiles.increasing hpos.length_eq hcounts
    axis := haxis
    empty := nil_of_empty hn hpos.length_eq hmake }

theorem make_tiles_block : ∃ cs, make [1, 2, 3] [5, 3, 4] 11 = .ok cs ∧
    Planned [1, 2, 3] [5, 3, 4] 11 cs ∧ ∀ cs', Steps [1, 2, 3] 11 [5, 3, 4] cs' ↔ cs' = cs :=
  make_tiles (n := 60) rfl (List.cons_ne_nil _ _) (by decide) 11

end Tiling

end BlockPlan

end TypedWire
