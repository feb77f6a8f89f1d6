import TypedWire.Proofs.Tiling

namespace TypedWire

namespace BlockPlan

section Lengths

variable {max max' inner : Nat} {counts : List Nat}

theorem length_cut_axis {β : Type} (cs : List Nat) (c step : Nat)
    (piece : List Nat → Chunk Nat → β) :
    ((cells cs).flatMap fun o => (FlatPlan.make 0 c step).chunks.map (piece o)).length =
      cellsOf cs * ceilDiv c (Nat.max step 1) := by
  rw [List.length_flatMap]
  simp only [List.length_map, FlatPlan.length_chunks, List.map_const', List.sum_replicate_nat,
    length_cells]

theorem length_cuts_here {c : Nat} {cs : List Nat} (h : ¬(cs ≠ [] ∧ inner * c ≤ max)) :
    (cuts max inner (c :: cs)).length = cellsOf cs * ceilDiv c (Nat.max (max / inner) 1) := by
  rw [cuts, if_neg h]
  exact length_cut_axis ..

theorem length_cuts_whole {c : Nat} {cs : List Nat} (h : cs ≠ [] ∧ inner * c ≤ max) :
    (cuts max inner (c :: cs)).length = (cuts max (inner * c) cs).length := by
  rw [cuts, if_pos h, List.length_map]

theorem length_cuts_le (hcounts : ∀ n ∈ counts, 0 < n) :
    (cuts max inner counts).length ≤ cellsOf counts := by
  induction counts generalizing inner with
  | nil => exact Nat.le_refl 1
  | cons c cs ih =>
    obtain ⟨hc, hcs⟩ := List.forall_mem_cons.mp hcounts
    rw [cellsOf_cons]
    by_cases hwhole : cs ≠ [] ∧ inner * c ≤ max
    · rw [length_cuts_whole hwhole]
      exact Nat.le_trans (ih hcs) (Nat.le_mul_of_pos_left _ hc)
    · rw [length_cuts_here hwhole, Nat.mul_comm c]
      exact Nat.mul_le_mul_left _ (ceilDiv_le_self (Nat.le_max_right ..) c)

theorem length_cuts_antitone (hcounts : ∀ n ∈ counts, 0 < n) (h : max ≤ max') :
    (cuts max' inner counts).length ≤ (cuts max inner counts).length := by
  induction counts generalizing inner with
  | nil => exact Nat.le_refl 1
  | cons c cs ih =>
    obtain ⟨hc, hcs⟩ := List.forall_mem_cons.mp hcounts
    by_cases hwhole : cs ≠ [] ∧ inner * c ≤ max
    · have hwhole' : cs ≠ [] ∧ inner * c ≤ max' := ⟨hwhole.1, Nat.le_trans hwhole.2 h⟩
      rw [length_cuts_whole hwhole, length_cuts_whole hwhole']
      exact ih hcs
    · rw [length_cuts_here hwhole]
      by_cases hwhole' : cs ≠ [] ∧ inner * c ≤ max'
      · -- The axis is whole under the larger limit only.
        rw [length_cuts_whole hwhole']
        exact Nat.le_trans (length_cuts_le hcs)
          (Nat.le_mul_of_pos_right _ (ceilDiv_pos (Nat.le_max_right ..) hc))
      · rw [length_cuts_here hwhole']
        have hstep : Nat.max (max / inner) 1 ≤ Nat.max (max' / inner) 1 :=
          Nat.max_le.mpr ⟨Nat.le_trans (Nat.div_le_div_right h) (Nat.le_max_left ..),
            Nat.le_max_right ..⟩
        exact Nat.mul_le_mul_left _ (ceilDiv_antitone (Nat.le_max_right ..) hstep c)

end Lengths

section Outermost

variable {max : Nat} {counts pos : List Nat} {s s' : Split}

/-- The axis to cut: the cells inside it fit into one chunk, and with the axis they do not. -/
structure Split.Outermost (s : Split) (max : Nat) (counts : List Nat) : Prop where
  parts : s.inner ++ s.axis :: s.outer = counts
  block_eq : s.block = cellsOf s.inner
  fits : s.block ≤ max
  exceeds : max < s.block * s.axis

theorem Split.Outermost.of_walk {inner cs : List Nat} {block c : Nat}
    (hs : walk max inner block c cs = some s) (hblock : block = cellsOf inner) (hle : block ≤ max)
    (hmore : max < block * cellsOf (c :: cs)) : s.Outermost max (inner ++ c :: cs) := by
  induction cs generalizing inner block c with
  | nil =>
    cases hs
    rw [cellsOf_cons, show cellsOf [] = 1 from rfl, Nat.mul_one] at hmore
    exact ⟨rfl, hblock, hle, hmore⟩
  | cons d ds ih =>
    simp only [walk, Word.mul?, Option.bind_eq_bind, Option.bind_eq_some_iff,
      Option.ite_none_right_eq_some, Option.some.injEq] at hs
    obtain ⟨_, ⟨-, rfl⟩, hs⟩ := hs
    by_cases hfits : block * c ≤ max
    · rw [if_pos hfits] at hs
      rw [cellsOf_cons, ← Nat.mul_assoc] at hmore
      have hnext : block * c = cellsOf (inner ++ [c]) := by
        rw [cellsOf_append, hblock, cellsOf_cons, show cellsOf [] = 1 from rfl, Nat.mul_one]
      have h := ih hs hnext hfits hmore
      rwa [List.append_assoc, List.singleton_append] at h
    · rw [if_neg hfits] at hs
      cases hs
      exact ⟨rfl, hblock, hle, Nat.lt_of_not_le hfits⟩

theorem Split.Outermost.not_beyond (hs : s.Outermost max counts) (hs' : s'.Outermost max counts)
    (hcounts : ∀ n ∈ counts, 0 < n) (between : List Nat) :
    s'.inner ≠ s.inner ++ s.axis :: between := by
  intro hinner
  have hbetween : 1 ≤ cellsOf between := by
    apply one_le_cellsOf
    intro n hn
    apply hcounts n
    rw [← hs'.parts, hinner]
    simp [hn]
  have hblock : s'.block = s.block * s.axis * cellsOf between := by
    rw [hs'.block_eq, hinner, cellsOf_append, cellsOf_cons, ← Nat.mul_assoc, ← hs.block_eq]
  have hle : s.block * s.axis ≤ s'.block := hblock ▸ Nat.le_mul_of_pos_right _ hbetween
  exact Nat.lt_irrefl _ (Nat.lt_of_lt_of_le hs.exceeds (Nat.le_trans hle hs'.fits))

theorem Split.Outermost.eq_of_inner (hs : s.Outermost max counts) (hs' : s'.Outermost max counts)
    (h : s'.inner = s.inner) : s' = s := by
  have hparts := hs'.parts.trans hs.parts.symm
  rw [h, List.append_cancel_left_eq] at hparts
  obtain ⟨haxis, houter⟩ := List.cons.inj hparts
  have hblock : s'.block = s.block := by rw [hs'.block_eq, hs.block_eq, h]
  cases s
  cases s'
  cases h
  cases haxis
  cases houter
  cases hblock
  rfl

theorem Split.Outermost.unique (hs : s.Outermost max counts) (hs' : s'.Outermost max counts)
    (hcounts : ∀ n ∈ counts, 0 < n) : s' = s := by
  rcases List.append_eq_append_iff.mp (hs.parts.trans hs'.parts.symm) with
    ⟨between, hinner, hrest⟩ | ⟨between, hinner, hrest⟩
  · cases between with
    | nil => exact hs.eq_of_inner hs' (by rw [hinner, List.append_nil])
    | cons n between =>
      obtain ⟨rfl, -⟩ := List.cons.inj hrest
      exact absurd hinner (hs.not_beyond hs' hcounts between)
  · cases between with
    | nil => exact hs.eq_of_inner hs' (by rw [hinner, List.append_nil])
    | cons n between =>
      obtain ⟨rfl, -⟩ := List.cons.inj hrest
      exact absurd hinner (hs'.not_beyond hs hcounts between)

theorem Split.length_plan (s : Split) (hblock : 0 < s.block) (hle : s.block ≤ max)
    (pos : List Nat) :
    (s.plan pos max).length = ceilDiv s.axis (max / s.block) * cellsOf s.outer := by
  have hstep : Nat.max (max / s.block) 1 = max / s.block :=
    Nat.max_eq_left (Nat.div_pos hle hblock)
  rw [plan, length_cut_axis, hstep, Nat.mul_comm]

theorem exists_outermost (hn : count? counts = some (cellsOf counts)) (hmax : 0 < max)
    (hcounts : ∀ n ∈ counts, 0 < n) (hmore : max < cellsOf counts) :
    ∃ s, s.Outermost max counts ∧ (∃ c cs, counts = c :: cs ∧ walk max [] 1 c cs = some s) ∧
      0 < s.block ∧ cuts max 1 counts = s.cuts max := by
  obtain ⟨c, cs, rfl⟩ := List.exists_cons_of_ne_nil
    (show counts ≠ [] by rintro rfl; exact Nat.not_lt.mpr hmax hmore)
  obtain ⟨s, hs, hcuts, heq⟩ := exists_split hcounts (countFrom_lt (by decide) hn) hmax
  have houter : s.Outermost max (c :: cs) :=
    .of_walk hs rfl hmax (by rwa [Nat.one_mul])
  exact ⟨s, houter, ⟨c, cs, rfl, hs⟩, hcuts.block_pos, heq⟩

end Outermost

variable {pos counts : List Nat} {max : Nat} {cs : List (Chunk (List Nat))}

theorem exists_raised (h : make pos counts max = .ok cs) {max' : Nat} (hmax : max ≤ max') :
    ∃ cs', make pos counts max' = .ok cs' ∧ cs'.length ≤ cs.length := by
  obtain ⟨hlen, hn, ⟨hzero, rfl⟩ | ⟨hzero, hwords, rfl⟩⟩ := make_eq_ok.mp h
  · exact ⟨[], make_eq_ok.mpr ⟨hlen, hn, .inl ⟨hzero, rfl⟩⟩, Nat.le_refl 0⟩
  · refine ⟨_, make_eq_ok.mpr ⟨hlen, hn, .inr ⟨hzero, hwords, rfl⟩⟩, ?_⟩
    rw [List.length_map, List.length_map]
    apply length_cuts_antitone (pos_of_cellsOf hzero)
    exact Nat.max_le.mpr ⟨Nat.le_trans hmax (Nat.le_max_left ..), Nat.le_max_right ..⟩

/-- A plan stands under every larger limit with no more chunks. If the request does not fit into
one chunk, one axis is cut, the one that the walk finds: in steps that fill a chunk, at each cell of
the axes outside it. -/
theorem raised_limit (h : make pos counts max = .ok cs) :
    (∀ max', max ≤ max' → ∃ cs', make pos counts max' = .ok cs' ∧ cs'.length ≤ cs.length) ∧
    (Nat.max max 1 < cellsOf counts →
      (∃! s : Split, s.Outermost (Nat.max max 1) counts) ∧
      ∀ s : Split, s.Outermost (Nat.max max 1) counts →
        (∃ c cs', counts = c :: cs' ∧ walk (Nat.max max 1) [] 1 c cs' = some s) ∧
        (∀ c ∈ cs, CutAlong counts s.inner.length c) ∧
        cs.length = ceilDiv s.axis (Nat.max max 1 / cellsOf s.inner) * cellsOf s.outer) := by
  refine ⟨fun max' => exists_raised h, fun hmore => ?_⟩
  obtain ⟨-, hn, ⟨hzero, -⟩ | ⟨hzero, hwords, rfl⟩⟩ := make_eq_ok.mp h
  · rw [hzero] at hmore
    exact absurd hmore (Nat.not_lt_zero _)
  have hcounts := pos_of_cellsOf hzero
  obtain ⟨s, hs, hwalk, hblock, heq⟩ :=
    exists_outermost hn (Nat.le_max_right max 1) hcounts hmore
  have hunique : ∀ s' : Split, s'.Outermost (Nat.max max 1) counts → s' = s :=
    fun s' hs' => hs.unique hs' hcounts
  refine ⟨⟨s, hs, hunique⟩, fun s' hs' => ?_⟩
  cases hunique s' hs'
  have hcuts : s.Cuts (Nat.max max 1) counts := ⟨hs.parts, hblock, hs.fits⟩
  rw [plan_of_cuts heq, ← hs.block_eq]
  refine ⟨hwalk, fun c hc => (hcuts.chunk_cut hcounts pos c hc).2, ?_⟩
  exact s.length_plan hblock hs.fits pos

theorem raised_limit_columns : ∃ cs cs', make [0, 0, 7] [2, 5, 1] 4 = .ok cs ∧
    make [0, 0, 7] [2, 5, 1] 9 = .ok cs' ∧ cs'.length ≤ cs.length ∧ cs'.length = 2 ∧
    cs.length = ceilDiv 5 (4 / cellsOf [2]) * cellsOf [1] := by
  have h : make [0, 0, 7] [2, 5, 1] 4 = .ok _ := rfl
  obtain ⟨hraised, hsplit⟩ := raised_limit h
  obtain ⟨cs', hmake, hle⟩ := hraised 9 (by decide)
  have houter : Split.Outermost ⟨[2], 2, 5, [1]⟩ (Nat.max 4 1) [2, 5, 1] :=
    ⟨rfl, rfl, by decide, by decide⟩
  have hlength := ((hsplit (by decide)).2 _ houter).2.2
  refine ⟨_, cs', h, hmake, hle, ?_, hlength⟩
  cases hmake
  rfl

end BlockPlan

end TypedWire
