import TypedWire.Proofs.Cells

namespace TypedWire

theorem le_ceilDiv_mul (n : Nat) {m : Nat} (hm : 0 < m) : n ≤ ceilDiv n m * m := by
  have h := Nat.lt_div_mul_add (a := n + m - 1) hm
  rw [ceilDiv]
  omega

theorem lt_ceilDiv_iff {k n m : Nat} (hm : 0 < m) : k < ceilDiv n m ↔ k * m < n := by
  rw [ceilDiv, Nat.lt_iff_add_one_le, Nat.le_div_iff_mul_le hm, Nat.add_mul]
  omega

theorem ceilDiv_antitone {m m' : Nat} (hm : 0 < m) (h : m ≤ m') (n : Nat) :
    ceilDiv n m' ≤ ceilDiv n m := by
  by_contra hlt
  have hmore : ceilDiv n m * m' < n := (lt_ceilDiv_iff (by omega)).mp (Nat.lt_of_not_le hlt)
  have hall : n ≤ ceilDiv n m * m := le_ceilDiv_mul n hm
  have hstep : ceilDiv n m * m ≤ ceilDiv n m * m' := Nat.mul_le_mul_left _ h
  omega

theorem ceilDiv_le_self {m : Nat} (hm : 0 < m) (n : Nat) : ceilDiv n m ≤ n := by
  by_contra hlt
  have hmore : n * m < n := (lt_ceilDiv_iff hm).mp (Nat.lt_of_not_le hlt)
  exact Nat.not_lt.mpr (Nat.le_mul_of_pos_right n hm) hmore

theorem ceilDiv_pos {m n : Nat} (hm : 0 < m) (hn : 0 < n) : 0 < ceilDiv n m :=
  (lt_ceilDiv_iff hm).mpr (by rwa [Nat.zero_mul])

theorem ceilDiv_sub_mul {m : Nat} (hm : 0 < m) (n j : Nat) :
    ceilDiv (n - j * m) m = ceilDiv n m - j := by
  apply eq_of_forall_lt_iff
  intro k
  calc k < ceilDiv (n - j * m) m
    _ ↔ k * m < n - j * m := lt_ceilDiv_iff hm
    _ ↔ (k + j) * m < n := by rw [Nat.add_mul, Nat.lt_sub_iff_add_lt]
    _ ↔ k + j < ceilDiv n m := (lt_ceilDiv_iff hm).symm
    _ ↔ k < ceilDiv n m - j := Nat.lt_sub_iff_add_lt.symm

theorem ceilDiv_eq {m : Nat} (hm : 0 < m) (n : Nat) :
    ceilDiv n m = if n % m = 0 then n / m else n / m + 1 := by
  have hn : n = n % m + m * (n / m) := (Nat.mod_add_div n m).symm
  have hlt := Nat.mod_lt n hm
  have hsum : n + m - 1 = (n % m + (m - 1)) + m * (n / m) := by omega
  rw [ceilDiv, hsum, Nat.add_mul_div_left _ _ hm]
  split
  · rw [Nat.div_eq_of_lt (by omega), Nat.zero_add]
  · rw [Nat.div_eq_of_lt_le (k := 1) (by omega) (by omega), Nat.add_comm]

theorem itemsPerMessage_eq_ok {limit size : Nat} (hsize : 0 < size) (hlimit : size ≤ limit) :
    itemsPerMessage limit size = .ok (limit / size) := by
  rw [itemsPerMessage, if_neg (Nat.ne_of_gt hsize),
    if_neg (Nat.ne_of_gt (Nat.div_pos hlimit hsize))]

theorem pos_of_itemsPerMessage {limit size max : Nat} (h : itemsPerMessage limit size = .ok max) :
    0 < max := by
  simp only [itemsPerMessage, Checked.refuse_eq_ok, Except.ok.injEq] at h
  obtain ⟨-, hmax, rfl⟩ := h
  exact Nat.pos_of_ne_zero hmax

theorem eq_of_itemsPerMessage {limit size max : Nat} (h : itemsPerMessage limit size = .ok max) :
    max = limit / size := by
  simp only [itemsPerMessage, Checked.refuse_eq_ok, Except.ok.injEq] at h
  exact h.2.2.symm

namespace FlatPlan

def span (c : Chunk Nat) : List Nat := List.range' c.offset c.count

theorem flatMap_take {n : Nat} {p : FlatPlan} (hn : p.count - p.offset ≤ n * p.max) :
    (p.take n).flatMap span = List.range' p.offset (p.count - p.offset) := by
  induction n generalizing p with
  | zero =>
    have hleft : p.count - p.offset = 0 := by omega
    rw [hleft]
    rfl
  | succ n ih =>
    by_cases hleft : p.count - p.offset = 0
    · simp [take, next?, hleft]
    · simp only [take, next?, hleft, if_false, List.flatMap_cons]
      rw [ih (by simp only; rw [Nat.succ_mul] at hn; omega)]
      simp only [span]
      rw [List.range'_append_1]
      congr 1
      omega

theorem take_within {n : Nat} {p : FlatPlan} (hp : p.offset ≤ p.count) :
    ∀ c ∈ p.take n, c.offset + c.count ≤ p.count := by
  induction n generalizing p with
  | zero => nofun
  | succ n ih =>
    by_cases hleft : p.count - p.offset = 0
    · simp [take, next?, hleft]
    · simp only [take, next?, hleft, if_false]
      refine List.forall_mem_cons.mpr ⟨by simp only; omega, ?_⟩
      exact ih (p := { p with offset := p.offset + min (p.count - p.offset) p.max })
        (by simp only; omega)

theorem pos_of_mem_take {n : Nat} {p : FlatPlan} : ∀ c ∈ p.take n, c.pos = p.pos + c.offset := by
  induction n generalizing p with
  | zero => nofun
  | succ n ih =>
    by_cases hleft : p.count - p.offset = 0
    · simp [take, next?, hleft]
    · simp only [take, next?, hleft, if_false]
      exact List.forall_mem_cons.mpr ⟨rfl, ih⟩

theorem takeChecked_make {pos count : Nat} (h : pos + count < wordBound) (max n : Nat) :
    (make pos count max).takeChecked n = .ok ((make pos count max).take n) := by
  refine if_pos fun c hc => ?_
  have hpos : c.pos = pos + c.offset := pos_of_mem_take c hc
  have hwithin : c.offset + c.count ≤ count := take_within (Nat.zero_le count) c hc
  omega

theorem flatMap_chunks (pos count max : Nat) :
    (make pos count max).chunks.flatMap span = List.range count := by
  rw [chunks, flatMap_take, List.range_eq_range']
  · rfl
  · exact le_ceilDiv_mul _ (Nat.le_max_right max 1)

theorem chunks_within (pos count max : Nat) :
    ∀ c ∈ (make pos count max).chunks, c.offset + c.count ≤ count :=
  take_within (Nat.zero_le count)

def chunk (pos count m i : Nat) : Chunk Nat :=
  ⟨i * m, pos + i * m, min (count - i * m) m⟩

theorem take_eq {pos count m j k : Nat} (hm : 0 < m) (hk : ∀ i < k, i * m < count - j * m) :
    take k ⟨pos, count, j * m, m⟩ = (List.range' j k).map (chunk pos count m) := by
  induction k generalizing j with
  | zero => rfl
  | succ k ih =>
    have hleft : count - j * m ≠ 0 := Nat.ne_of_gt (Nat.zero_mul m ▸ hk 0 (Nat.succ_pos k))
    simp only [take, next?, hleft, if_false, List.range'_succ, List.map_cons]
    congr 1
    cases k with
    | zero => rfl
    | succ k =>
      -- Another chunk follows, so this one is full.
      have hnext : ∀ i < k + 1, i * m < count - (j + 1) * m := by
        intro i hi
        have := hk (i + 1) (Nat.succ_lt_succ hi)
        rw [Nat.add_mul] at this ⊢
        omega
      have hfull : j * m + min (count - j * m) m = (j + 1) * m := by
        have := hnext 0 (Nat.succ_pos k)
        rw [Nat.add_mul] at this ⊢
        omega
      rw [hfull, ih hnext]

theorem chunks_eq (pos count max : Nat) : (make pos count max).chunks =
    (List.range (ceilDiv count (Nat.max max 1))).map (chunk pos count (Nat.max max 1)) := by
  have hm : 0 < Nat.max max 1 := Nat.le_max_right max 1
  have hfull : ∀ i < ceilDiv count (Nat.max max 1), i * Nat.max max 1 <
      count - 0 * Nat.max max 1 := by
    intro i hi
    rw [Nat.zero_mul]
    exact (lt_ceilDiv_iff hm).mp hi
  rw [chunks, List.range_eq_range', ← take_eq hm hfull, Nat.zero_mul]
  rfl

theorem length_chunks (pos count max : Nat) :
    (make pos count max).chunks.length = ceilDiv count (Nat.max max 1) := by
  rw [chunks_eq, List.length_map, List.length_range]

theorem pos_of_mem_chunks (pos count max : Nat) :
    ∀ c ∈ (make pos count max).chunks, c.pos = pos + c.offset :=
  pos_of_mem_take

theorem sum_chunks (pos count max : Nat) :
    ((make pos count max).chunks.map (·.count)).sum = count := by
  have h := congrArg List.length (flatMap_chunks pos count max)
  simpa only [List.length_flatMap, span, List.length_range', List.length_range] using h

theorem count_le {max : Nat} (h : 0 < max) (pos count : Nat) :
    ∀ c ∈ (make pos count max).chunks, c.count ≤ max := by
  have hmax : Nat.max max 1 = max := Nat.max_eq_left h
  intro c hc
  rw [chunks_eq, hmax] at hc
  obtain ⟨i, -, rfl⟩ := List.mem_map.mp hc
  exact Nat.min_le_right ..

theorem count_pos (pos count max : Nat) : ∀ c ∈ (make pos count max).chunks, 0 < c.count := by
  have hmax : 0 < Nat.max max 1 := Nat.le_max_right max 1
  intro c hc
  rw [chunks_eq] at hc
  obtain ⟨i, hi, rfl⟩ := List.mem_map.mp hc
  have hleft := (lt_ceilDiv_iff hmax).mp (List.mem_range.mp hi)
  exact Nat.lt_min.mpr ⟨Nat.sub_pos_of_lt hleft, hmax⟩

end FlatPlan

namespace BlockPlan

open Region

def shifted (c : List Nat × List Nat) : List (List Nat) :=
  (cells c.2).map (List.zipWith (· + ·) c.1)

theorem cells_ones (o : List Nat) : cells (o.map fun _ => 1) = [o.map fun _ => 0] := by
  induction o with
  | nil => rfl
  | cons _ o ih =>
    rw [List.map_cons, List.map_cons, cells, ih]
    rfl

theorem zipWith_zeros (o : List Nat) : List.zipWith (· + ·) o (o.map fun _ => 0) = o := by
  induction o with
  | nil => rfl
  | cons n o ih => rw [List.map_cons, List.zipWith_cons_cons, ih, Nat.add_zero]

theorem zipWith_zeros_of_length {pos counts : List Nat} (h : pos.length = counts.length) :
    List.zipWith (· + ·) pos (counts.map fun _ => 0) = pos := by
  have hzeros : (counts.map fun _ => 0) = pos.map fun _ => 0 := by
    rw [List.map_const', List.map_const', h]
  rw [hzeros, zipWith_zeros]

theorem flatMap_cuts (max inner : Nat) (counts : List Nat) :
    (cuts max inner counts).flatMap shifted = cells counts := by
  induction counts generalizing inner with
  | nil => rfl
  | cons c cs ih =>
    by_cases hwhole : cs ≠ [] ∧ inner * c ≤ max
    · -- The axis stays whole: its cells stand in each cut of the axes outside it.
      rw [cuts, if_pos hwhole, cells, ← ih (inner * c)]
      simp only [List.flatMap_map, List.flatMap_assoc, shifted, cells, List.map_flatMap,
        List.map_map, Function.comp_def, List.zipWith_cons_cons, Nat.zero_add]
    · -- The axis is cut, at each cell of the axes outside it.
      rw [cuts, if_neg hwhole, cells, List.flatMap_assoc]
      apply List.flatMap_congr
      intro o _
      have hcut : ∀ f : Chunk Nat, shifted (f.offset :: o, f.count :: o.map fun _ => 1) =
          (FlatPlan.span f).map (· :: o) := by
        intro f
        simp only [shifted, cells, cells_ones, List.flatMap_cons, List.flatMap_nil,
          List.append_nil, List.map_map, Function.comp_def, List.zipWith_cons_cons,
          zipWith_zeros, FlatPlan.span, List.range'_eq_map_range]
      simp only [List.flatMap_map, hcut]
      rw [← List.map_flatMap, FlatPlan.flatMap_chunks]

theorem within_ones {counts o : List Nat} (h : List.Forall₂ (· < ·) o counts) :
    Within counts o (o.map fun _ => 1) := by
  induction h with
  | nil => exact .nil
  | cons h _ ih => exact .cons h ih

theorem cuts_within (max inner : Nat) (counts : List Nat) :
    ∀ c ∈ cuts max inner counts, Within counts c.1 c.2 := by
  induction counts generalizing inner with
  | nil =>
    intro c hc
    rw [List.mem_singleton.mp hc]
    exact .nil
  | cons c cs ih =>
    intro x hx
    by_cases hwhole : cs ≠ [] ∧ inner * c ≤ max
    · rw [cuts, if_pos hwhole, List.mem_map] at hx
      obtain ⟨y, hy, rfl⟩ := hx
      exact .cons (Nat.le_of_eq (Nat.zero_add c)) (ih _ y hy)
    · rw [cuts, if_neg hwhole, List.mem_flatMap] at hx
      obtain ⟨o, ho, hx⟩ := hx
      obtain ⟨f, hf, rfl⟩ := List.mem_map.mp hx
      refine .cons (FlatPlan.chunks_within 0 c _ f hf) ?_
      exact within_ones (forall₂_lt_of_mem_cells ho)

theorem cellsOf_ones (o : List Nat) : cellsOf (o.map fun _ => 1) = 1 := by
  induction o with
  | nil => rfl
  | cons _ o ih => rw [List.map_cons, cellsOf_cons, ih]

theorem cellsOf_cuts_le {max inner : Nat} {counts : List Nat} (h : inner ≤ max) :
    ∀ c ∈ cuts max inner counts, inner * cellsOf c.2 ≤ max := by
  induction counts generalizing inner with
  | nil =>
    intro c hc
    rw [List.mem_singleton.mp hc]
    exact (Nat.mul_one inner).symm ▸ h
  | cons n counts ih =>
    intro c hc
    by_cases hwhole : counts ≠ [] ∧ inner * n ≤ max
    · rw [cuts, if_pos hwhole] at hc
      obtain ⟨d, hd, rfl⟩ := List.mem_map.mp hc
      rw [cellsOf_cons, ← Nat.mul_assoc]
      exact ih hwhole.2 d hd
    · rw [cuts, if_neg hwhole, List.mem_flatMap] at hc
      obtain ⟨o, -, hc⟩ := hc
      obtain ⟨f, hf, rfl⟩ := List.mem_map.mp hc
      rw [cellsOf_cons, cellsOf_ones, Nat.mul_one]
      rcases Nat.eq_zero_or_pos inner with rfl | hinner
      · rw [Nat.zero_mul]
        exact Nat.zero_le max
      · have hle := FlatPlan.count_le (Nat.div_pos h hinner) 0 n f hf
        calc inner * f.count ≤ inner * (max / inner) := Nat.mul_le_mul_left inner hle
          _ ≤ max := Nat.mul_div_le max inner

variable {dims pos counts : List Nat} {cs : List (Chunk (List Nat))}

/-- The chunks are parts of the request that list its cells once each, in column-major order. -/
structure Tiles (pos counts : List Nat) (cs : List (Chunk (List Nat))) : Prop where
  within : ∀ c ∈ cs, Within counts c.offset c.count
  pos_eq : ∀ c ∈ cs, c.pos = List.zipWith (· + ·) pos c.offset
  cells_eq : cs.flatMap (fun c => shifted (c.offset, c.count)) = cells counts

theorem Tiles.addresses_eq (h : Tiles pos counts cs) {dims start : List Nat}
    (hw : Within dims start counts) :
    cs.flatMap (fun c => addresses dims (List.zipWith (· + ·) start c.offset) c.count) =
      addresses dims start counts := by
  rw [Region.addresses_eq hw, ← h.cells_eq, List.map_flatMap]
  apply List.flatMap_congr
  intro c hc
  rw [Region.addresses_eq (hw.add (h.within c hc)), shifted, List.map_map]
  apply List.map_congr_left
  intro i _
  exact address_add dims start c.offset i

theorem expectNoWrap_eq_ok (h : List.Forall₂ (fun p c => p + c < wordBound) pos counts) :
    expectNoWrap pos counts = .ok () := by
  induction h with
  | nil => rfl
  | cons hpc _ ih => rw [expectNoWrap, if_pos hpc, ih]

theorem make_eq_ok {max : Nat} : make pos counts max = .ok cs ↔
    pos.length = counts.length ∧ count? counts = some (cellsOf counts) ∧
      (cellsOf counts = 0 ∧ cs = [] ∨
        cellsOf counts ≠ 0 ∧ expectNoWrap pos counts = .ok () ∧
          cs = (cuts (Nat.max max 1) 1 counts).map fun x =>
            ⟨x.1, List.zipWith (· + ·) pos x.1, x.2⟩) := by
  simp only [make, Checked.refuse_eq_ok, Checked.bind_eq_ok, cellCount_eq_ok, not_not]
  constructor
  · rintro ⟨hlen, n, hn, h⟩
    cases count?_eq_some hn
    refine ⟨hlen, hn, ?_⟩
    by_cases hzero : cellsOf counts = 0
    · rw [if_pos hzero, Checked.pure_eq_ok] at h
      exact .inl ⟨hzero, h.symm⟩
    · simp only [if_neg hzero, Checked.bind_eq_ok, Checked.exists_unit, Checked.pure_eq_ok] at h
      exact .inr ⟨hzero, h.1, h.2.symm⟩
  · rintro ⟨hlen, hn, ⟨hzero, rfl⟩ | ⟨hzero, hwords, rfl⟩⟩
    · exact ⟨hlen, _, hn, by rw [if_pos hzero]; rfl⟩
    · exact ⟨hlen, _, hn, by rw [if_neg hzero, hwords]; rfl⟩

theorem tiles_of_make {max : Nat} (h : make pos counts max = .ok cs) : Tiles pos counts cs := by
  obtain ⟨-, -, ⟨hzero, rfl⟩ | ⟨-, -, rfl⟩⟩ := make_eq_ok.mp h
  · have hnil : cells counts = [] := List.length_eq_zero_iff.mp ((length_cells counts).trans hzero)
    exact ⟨List.forall_mem_nil _, List.forall_mem_nil _, hnil.symm⟩
  · refine ⟨?_, ?_, ?_⟩
    · intro c hc
      obtain ⟨x, hx, rfl⟩ := List.mem_map.mp hc
      exact cuts_within _ _ _ x hx
    · intro c hc
      obtain ⟨x, -, rfl⟩ := List.mem_map.mp hc
      rfl
    · rw [List.flatMap_map]
      exact flatMap_cuts _ _ _

theorem cellsOf_count_le_max {max : Nat} (h : make pos counts max = .ok cs) :
    ∀ c ∈ cs, cellsOf c.count ≤ Nat.max max 1 := by
  obtain ⟨-, -, ⟨-, rfl⟩ | ⟨-, -, rfl⟩⟩ := make_eq_ok.mp h
  · exact List.forall_mem_nil _
  · intro c hc
    obtain ⟨x, hx, rfl⟩ := List.mem_map.mp hc
    exact Nat.one_mul (cellsOf x.2) ▸ cellsOf_cuts_le (Nat.le_max_right max 1) x hx

theorem cellsOf_count_le {max : Nat} (hmax : 0 < max) (h : make pos counts max = .ok cs) :
    ∀ c ∈ cs, cellsOf c.count ≤ max := by
  have hone : Nat.max max 1 = max := Nat.max_eq_left hmax
  exact hone ▸ cellsOf_count_le_max h

theorem exists_make (h : Within dims pos counts) (hd : ∀ d ∈ dims, d < wordBound) {n : Nat}
    (hn : count? dims = some n) (max : Nat) :
    ∃ cs, make pos counts max = .ok cs ∧ Tiles pos counts cs := by
  have hlen : pos.length = counts.length := h.length_pos.trans h.length_counts.symm
  have hcount := exists_count? h.counts_le hn
  have hmake : ∃ cs, make pos counts max = .ok cs := by
    by_cases hzero : cellsOf counts = 0
    · exact ⟨_, make_eq_ok.mpr ⟨hlen, hcount, .inl ⟨hzero, rfl⟩⟩⟩
    · have hwords := expectNoWrap_eq_ok (h.add_lt hd)
      exact ⟨_, make_eq_ok.mpr ⟨hlen, hcount, .inr ⟨hzero, hwords, rfl⟩⟩⟩
  obtain ⟨cs, hcs⟩ := hmake
  exact ⟨cs, hcs, tiles_of_make hcs⟩

end BlockPlan

end TypedWire
