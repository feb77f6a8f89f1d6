import TypedWire.Proofs.PlanSteps

namespace TypedWire

namespace FlatPlan

def behind (p : FlatPlan) : FlatPlan :=
  match p.next? with
  | some (_, q) => q
  | none => p

/-- The next answer and the plan behind it, if every number on the way is a word. -/
def call? (p : FlatPlan) : Option (Option (Chunk Nat) × FlatPlan) := do
  let left ← Word.sub? p.count p.offset
  if left = 0 then return (none, p)
  let pos ← Word.add? p.pos p.offset
  let next ← Word.add? p.offset (min left p.max)
  return (some ⟨p.offset, pos, min left p.max⟩, { p with offset := next })

def hint? (p : FlatPlan) : Option Nat := do
  let left ← Word.sub? p.count p.offset
  let full ← Word.div? left p.max
  if left % p.max = 0 then return full else Word.add? full 1

def piece (pos count m j : Nat) : Chunk Nat :=
  ⟨j * m, pos + j * m, if j + 1 < ceilDiv count m then m else count - j * m⟩

/-- What a plan answers after `j` calls, the same in words. -/
structure Stands (pos count m j : Nat) (p : FlatPlan) : Prop where
  next_iff : ∀ c, p.next?.map (·.1) = some c ↔ j < ceilDiv count m ∧ c = piece pos count m j
  hint_eq : p.hint = ceilDiv count m - j
  call?_eq : p.call? = some (p.next?.map (·.1), p.behind)
  hint?_eq : p.hint? = some p.hint

def reached (pos count m j : Nat) : FlatPlan := ⟨pos, count, min (j * m) count, m⟩

section Calls

variable {pos count m j : Nat}

theorem count_piece (hm : 0 < m) (pos count j : Nat) :
    (piece pos count m j).count = min (count - j * m) m := by
  have hmore : j + 1 < ceilDiv count m ↔ j * m + m < count := by
    rw [lt_ceilDiv_iff hm, Nat.succ_mul]
  simp only [piece, hmore]
  split <;> omega

theorem next?_reached (hm : 0 < m) (pos count j : Nat) :
    (reached pos count m j).next? =
      if j < ceilDiv count m then some (piece pos count m j, reached pos count m (j + 1))
      else none := by
  by_cases hj : j < ceilDiv count m
  · have hmore : j * m < count := (lt_ceilDiv_iff hm).mp hj
    have hoffset : min (j * m) count = j * m := Nat.min_eq_left (Nat.le_of_lt hmore)
    have hleft : count - j * m ≠ 0 := by omega
    have hnext : j * m + (piece pos count m j).count = min ((j + 1) * m) count := by
      rw [count_piece hm, Nat.succ_mul]
      omega
    simp only [next?, reached, hoffset, hleft, if_false, ← count_piece hm pos, hnext,
      if_pos hj]
    rfl
  · have hend : count ≤ j * m := Nat.not_lt.mp (mt (lt_ceilDiv_iff hm).mpr hj)
    have hleft : count - min (j * m) count = 0 := by omega
    simp only [next?, reached, hleft, if_true, if_neg hj]

theorem behind_reached (hm : 0 < m) (pos count j : Nat) :
    behind (reached pos count m j) = reached pos count m (j + 1) := by
  rw [behind, next?_reached hm]
  by_cases hj : j < ceilDiv count m
  · rw [if_pos hj]
  · have hend : count ≤ j * m := Nat.not_lt.mp (mt (lt_ceilDiv_iff hm).mpr hj)
    have hoffset : min (j * m) count = min (j * m + m) count := by omega
    simp only [if_neg hj, reached, Nat.succ_mul, hoffset]

theorem iterate_behind (pos count max j : Nat) :
    behind^[j] (make pos count max) = reached pos count (Nat.max max 1) j := by
  induction j with
  | zero =>
    rw [Function.iterate_zero_apply, make, reached, Nat.zero_mul, Nat.zero_min]
  | succ j ih =>
    rw [Function.iterate_succ_apply', ih, behind_reached (Nat.le_max_right max 1)]

theorem hint_reached (hm : 0 < m) (pos count j : Nat) :
    (reached pos count m j).hint = ceilDiv count m - j := by
  have hleft : count - min (j * m) count = count - j * m := by omega
  rw [hint, reached, hleft, ceilDiv_sub_mul hm]

theorem call?_reached (h : pos + count < wordBound) :
    (reached pos count m j).call? =
      some ((reached pos count m j).next?.map (·.1), (reached pos count m j).behind) := by
  have hle : min (j * m) count ≤ count := Nat.min_le_right ..
  simp only [call?, behind, next?, reached, Word.sub?_eq hle, Option.bind_eq_bind,
    Option.bind_some]
  by_cases hleft : count - min (j * m) count = 0
  · simp only [hleft, if_true, Option.map_none, Option.pure_def]
  · have hpos : pos + min (j * m) count < wordBound := by omega
    have hnext : min (j * m) count + min (count - min (j * m) count) m < wordBound := by omega
    simp only [hleft, if_false, Word.add?_eq hpos, Word.add?_eq hnext, Option.bind_some,
      Option.map_some, Option.pure_def]

theorem hint?_reached (hm : 0 < m) (h : pos + count < wordBound) :
    (reached pos count m j).hint? = some (reached pos count m j).hint := by
  have hle : min (j * m) count ≤ count := Nat.min_le_right ..
  have hcount : ceilDiv (count - min (j * m) count) m ≤ count :=
    Nat.le_trans (ceilDiv_le_self hm _) (Nat.sub_le ..)
  rw [ceilDiv_eq hm] at hcount
  simp only [hint?, hint, reached, Word.sub?_eq hle, Word.div?_eq hm, Option.bind_eq_bind,
    Option.bind_some, ceilDiv_eq hm]
  split at hcount
  · next hmod => simp only [hmod, if_true, Option.pure_def]
  · next hmod => simp only [hmod, if_false, Word.add?_eq (Nat.lt_of_le_of_lt hcount (by omega))]

theorem stands (h : pos + count < wordBound) (max j : Nat) :
    Stands pos count (Nat.max max 1) j (behind^[j] (make pos count max)) := by
  have hm : 0 < Nat.max max 1 := Nat.le_max_right max 1
  rw [iterate_behind]
  refine ⟨fun c => ?_, hint_reached hm .., call?_reached h, hint?_reached hm h⟩
  rw [next?_reached hm]
  split
  · next hj => simp [hj, eq_comm]
  · next hj => simp [hj]

end Calls

section Chunks

variable {pos count : Nat} {max : Nat}

theorem chunks_eq_pieces (pos count max : Nat) :
    (make pos count max).chunks = (List.range (ceilDiv count (Nat.max max 1))).map
      (piece pos count (Nat.max max 1)) := by
  rw [chunks_eq]
  apply List.map_congr_left
  intro j _
  rw [chunk, ← count_piece (Nat.le_max_right max 1) pos]
  rfl

theorem getElem?_chunks (pos count max j : Nat) :
    (make pos count max).chunks[j]? = (behind^[j] (make pos count max)).next?.map (·.1) := by
  rw [iterate_behind, next?_reached (Nat.le_max_right max 1), chunks_eq_pieces]
  by_cases hj : j < ceilDiv count (Nat.max max 1)
  · rw [if_pos hj, List.getElem?_map, List.getElem?_range hj]
    rfl
  · rw [if_neg hj, List.getElem?_eq_none (by simpa using hj)]
    rfl

def asBlock (c : Chunk Nat) : Chunk (List Nat) := ⟨[c.offset], [c.pos], [c.count]⟩

theorem cuts_line (pos count max : Nat) :
    ((BlockPlan.cuts (Nat.max max 1) 1 [count]).map fun x =>
      (⟨x.1, List.zipWith (· + ·) [pos] x.1, x.2⟩ : Chunk (List Nat))) =
        (make pos count max).chunks.map asBlock := by
  have hm : Nat.max (Nat.max max 1 / 1) 1 = Nat.max max 1 := by
    rw [Nat.div_one]
    exact Nat.max_eq_left (Nat.le_max_right max 1)
  rw [BlockPlan.cuts, if_neg (fun h => h.1 rfl), BlockPlan.cells, List.flatMap_singleton,
    List.map_map, chunks_eq_pieces 0, hm, chunks_eq_pieces pos, List.map_map, List.map_map]
  rfl

theorem make_line (h : pos + count < wordBound) (max : Nat) :
    BlockPlan.make [pos] [count] max = .ok ((make pos count max).chunks.map asBlock) ∧
      ∀ bs, BlockPlan.Steps [pos] max [count] bs ↔
        bs = (make pos count max).chunks.map asBlock := by
  have hcount : 1 * count < wordBound := by omega
  have hn : count? [count] = some (cellsOf [count]) := by
    rw [count?, countFrom, if_pos hcount, countFrom, cellsOf_cons, Nat.mul_comm]
    rfl
  have hpos : List.Forall₂ (fun p c => p + c < wordBound) [pos] [count] := .cons h .nil
  have hmake : BlockPlan.make [pos] [count] max =
      .ok ((make pos count max).chunks.map asBlock) := by
    by_cases hzero : cellsOf [count] = 0
    · have hempty : count = 0 := (Nat.mul_one count).symm.trans hzero
      have hnil : (make pos count max).chunks = [] := by
        rw [← List.length_eq_zero_iff, length_chunks, hempty]
        exact Nat.le_zero.mp (ceilDiv_le_self (Nat.le_max_right max 1) 0)
      rw [hnil]
      exact BlockPlan.make_of_empty (hzero ▸ hn) rfl
    · rw [BlockPlan.make_of_cells hn hzero hpos, cuts_line]
  obtain ⟨cs, hcs, hsteps⟩ := BlockPlan.steps_iff hn (List.cons_ne_nil _ _) hpos max
  cases hmake.symm.trans hcs
  exact ⟨hmake, hsteps⟩

/-- Every call on the plan of a request within the words answers the next chunk, and none behind the
last; before it the chunks still to come are announced. The chunks make up the request, and are
those of a block of one axis. -/
theorem calls_exact (h : pos + count < wordBound) (max : Nat) :
    (∀ j, Stands pos count (Nat.max max 1) j (behind^[j] (make pos count max))) ∧
    (∀ j, (make pos count max).chunks[j]? =
      (behind^[j] (make pos count max)).next?.map (·.1)) ∧
    (make pos count max).chunks.length = ceilDiv count (Nat.max max 1) ∧
    (∀ c ∈ (make pos count max).chunks, 1 ≤ c.count) ∧
    ((make pos count max).chunks.map (·.count)).sum = count ∧
    BlockPlan.make [pos] [count] max = .ok ((make pos count max).chunks.map asBlock) ∧
    ∀ bs, BlockPlan.Steps [pos] max [count] bs ↔ bs = (make pos count max).chunks.map asBlock :=
  ⟨stands h max, getElem?_chunks pos count max, length_chunks pos count max,
    count_pos pos count max, sum_chunks pos count max, make_line h max⟩

theorem calls_exact_last : 18446744073709551605 + 10 < wordBound ∧
    (make 18446744073709551605 10 4).hint = 3 ∧
    (behind^[2] (make 18446744073709551605 10 4)).next?.map (·.1) =
      some ⟨8, 18446744073709551613, 2⟩ ∧
    ∀ j, 3 ≤ j → (behind^[j] (make 18446744073709551605 10 4)).next?.map (·.1) = none := by
  have hword : 18446744073709551605 + 10 < wordBound := by decide
  obtain ⟨hstands, -⟩ := calls_exact hword 4
  refine ⟨hword, (hstands 0).hint_eq, ((hstands 2).next_iff _).mpr ⟨by decide, rfl⟩, ?_⟩
  intro j hj
  rw [Option.eq_none_iff_forall_ne_some]
  intro c hc
  exact Nat.not_lt.mpr hj (((hstands j).next_iff c).mp hc).1

end Chunks

end FlatPlan

end TypedWire
