import TypedWire.Proofs.Plans

/-!
Block plans step by step: the walk to the axis that is cut, the pieces of that axis, and the turns
of the axes outside it, every number of them a 64-bit word.

A loop is the relation between where it stands and what it gives by its end (`Fills`, `Turns`), so
that one that leaves the words or does not end gives nothing. `steps_iff` says that a request has
its plan all the same, and that it is the one of `make`.
-/

namespace TypedWire

namespace Word

def add? (a b : Nat) : Option Nat := if a + b < wordBound then some (a + b) else none

def mul? (a b : Nat) : Option Nat := if a * b < wordBound then some (a * b) else none

def sub? (a b : Nat) : Option Nat := if b ≤ a then some (a - b) else none

def div? (a b : Nat) : Option Nat := if b = 0 then none else some (a / b)

variable {a b : Nat}

theorem add?_eq (h : a + b < wordBound) : add? a b = some (a + b) := if_pos h

theorem mul?_eq (h : a * b < wordBound) : mul? a b = some (a * b) := if_pos h

theorem sub?_eq (h : b ≤ a) : sub? a b = some (a - b) := if_pos h

theorem div?_eq (h : 0 < b) : div? a b = some (a / b) := if_neg (Nat.ne_of_gt h)

end Word

namespace BlockPlan

/-- Where a request is cut: the axes inside, the cells of one step along the axis to cut, that axis
and the axes outside it. -/
structure Split where
  inner : List Nat
  block : Nat
  axis : Nat
  outer : List Nat

/-- The walk outwards, as long as the next block still fits and an axis is left to cut. -/
def walk (max : Nat) (inner : List Nat) (block c : Nat) : List Nat → Option Split
  | [] => some ⟨inner, block, c, []⟩
  | d :: ds => do
    let next ← Word.mul? block c
    if next ≤ max then walk max (inner ++ [c]) next d ds else return ⟨inner, block, c, d :: ds⟩

def shift? : List Nat → List Nat → Option (List Nat)
  | p :: ps, o :: os => do
    let q ← Word.add? p o
    return q :: (← shift? ps os)
  | _, _ => some []

namespace Split

def offset (s : Split) (outer : List Nat) (done : Nat) : List Nat :=
  s.inner.map (fun _ => 0) ++ done :: outer

def count (s : Split) (outer : List Nat) (n : Nat) : List Nat :=
  s.inner ++ n :: outer.map fun _ => 1

def chunk? (s : Split) (pos outer : List Nat) (done n : Nat) : Option (Chunk (List Nat)) := do
  return ⟨s.offset outer done, ← shift? pos (s.offset outer done), s.count outer n⟩

end Split

/-- The pieces of the axis to cut behind its first `done` cells, up to its end. -/
inductive Fills (pos : List Nat) (s : Split) (step : Nat) (outer : List Nat) :
    (done : Nat) → List (Chunk (List Nat)) → Prop
  | stop {done} : s.axis ≤ done → Fills pos s step outer done []
  | piece {done left chunk next chunks} : done < s.axis → Word.sub? s.axis done = some left →
      s.chunk? pos outer done (min step left) = some chunk →
      Word.add? done (min step left) = some next → Fills pos s step outer next chunks →
      Fills pos s step outer done (chunk :: chunks)

def advance : List Nat → List Nat → Option (Option (List Nat))
  | o :: os, c :: cs => do
    let next ← Word.add? o 1
    if next < c then return some (next :: os) else return (← advance os cs).map (0 :: ·)
  | _, _ => some none

inductive Turns (pos : List Nat) (s : Split) (step : Nat) :
    (outer : List Nat) → List (Chunk (List Nat)) → Prop
  | last {outer chunks} : Fills pos s step outer 0 chunks → advance outer s.outer = some none →
      Turns pos s step outer chunks
  | more {outer next chunks rest} : Fills pos s step outer 0 chunks →
      advance outer s.outer = some (some next) → Turns pos s step next rest →
      Turns pos s step outer (chunks ++ rest)

/-- The plan of a request that does not wrap. -/
inductive Steps (pos : List Nat) (max : Nat) : List Nat → List (Chunk (List Nat)) → Prop
  | empty {counts} : count? counts = some 0 → Steps pos max counts []
  | whole {counts n} : count? counts = some n → n ≠ 0 → n ≤ Nat.max max 1 →
      Steps pos max counts [⟨counts.map fun _ => 0, pos, counts⟩]
  | cut {c cs n s step chunks} : count? (c :: cs) = some n → Nat.max max 1 < n →
      walk (Nat.max max 1) [] 1 c cs = some s → Word.div? (Nat.max max 1) s.block = some step →
      Turns pos s step (s.outer.map fun _ => 0) chunks → Steps pos max (c :: cs) chunks

section Walk

structure Split.Cuts (s : Split) (max : Nat) (counts : List Nat) : Prop where
  parts : s.inner ++ s.axis :: s.outer = counts
  block_pos : 0 < s.block
  block_le : s.block ≤ max

def Split.cuts (s : Split) (max : Nat) : List (List Nat × List Nat) :=
  (cells s.outer).flatMap fun o => (FlatPlan.make 0 s.axis (max / s.block)).chunks.map fun f =>
    (s.offset o f.offset, s.count o f.count)

theorem cuts_here {max block c : Nat} {cs : List Nat} (h : ¬(cs ≠ [] ∧ block * c ≤ max))
    (inner : List Nat) :
    (cuts max block (c :: cs)).map (fun x => (inner.map (fun _ => 0) ++ x.1, inner ++ x.2)) =
      Split.cuts ⟨inner, block, c, cs⟩ max := by
  rw [cuts, if_neg h, List.map_flatMap]
  simp only [List.map_map, Function.comp_def, Split.cuts, Split.offset, Split.count]

theorem one_le_cellsOf {counts : List Nat} (h : ∀ c ∈ counts, 0 < c) : 1 ≤ cellsOf counts := by
  induction counts with
  | nil => exact Nat.le_refl 1
  | cons c cs ih =>
    obtain ⟨hc, hcs⟩ := List.forall_mem_cons.mp h
    rw [cellsOf_cons]
    exact Nat.mul_pos hc (ih hcs)

theorem exists_walk {max block c : Nat} {cs : List Nat} (hblock : 0 < block) (hle : block ≤ max)
    (hpos : ∀ n ∈ c :: cs, 0 < n) (hword : block * cellsOf (c :: cs) < wordBound)
    (inner : List Nat) : ∃ s, walk max inner block c cs = some s ∧
      s.Cuts max (inner ++ c :: cs) ∧
      (cuts max block (c :: cs)).map (fun x => (inner.map (fun _ => 0) ++ x.1, inner ++ x.2)) =
        s.cuts max := by
  induction cs generalizing inner block c with
  | nil => exact ⟨_, rfl, ⟨rfl, hblock, hle⟩, cuts_here (fun h => h.1 rfl) inner⟩
  | cons d ds ih =>
    obtain ⟨hc, hds⟩ := List.forall_mem_cons.mp hpos
    rw [cellsOf_cons, ← Nat.mul_assoc] at hword
    have hnext : Word.mul? block c = some (block * c) := by
      apply Word.mul?_eq
      exact Nat.lt_of_le_of_lt (Nat.le_mul_of_pos_right _ (one_le_cellsOf hds)) hword
    by_cases hfits : block * c ≤ max
    · obtain ⟨s, hs, hcuts, heq⟩ := ih (Nat.mul_pos hblock hc) hfits hds hword (inner ++ [c])
      refine ⟨s, ?_, by simpa using hcuts, ?_⟩
      · simp only [walk, hnext, Option.bind_eq_bind, Option.bind_some, if_pos hfits, hs]
      · rw [← heq, cuts, if_pos ⟨List.cons_ne_nil d ds, hfits⟩]
        simp only [List.map_map, Function.comp_def, List.map_append, List.map_cons, List.map_nil,
          List.append_assoc, List.singleton_append]
    · refine ⟨⟨inner, block, c, d :: ds⟩, ?_, ⟨rfl, hblock, hle⟩, cuts_here (fun h => hfits h.2) _⟩
      simp only [walk, hnext, Option.bind_eq_bind, Option.bind_some, if_neg hfits, Option.pure_def]

end Walk

section Turns

inductive Succeeds {α : Type} (next : α → Option (Option α)) : List α → Prop
  | nil : Succeeds next []
  | cons {x xs} : next x = some xs.head? → Succeeds next xs → Succeeds next (x :: xs)

theorem Succeeds.axis {c : Nat} {cs o : List Nat} {rest : List (List Nat)} (hc : c < wordBound)
    (hrest : Succeeds (advance · (c :: cs)) rest)
    (ho : (advance o cs).map (·.map (0 :: ·)) = some rest.head?) {k n : Nat} (hk : k + n = c) :
    Succeeds (advance · (c :: cs)) ((List.range' k n).map (· :: o) ++ rest) := by
  induction n generalizing k with
  | zero => exact hrest
  | succ n ih =>
    rw [List.range'_succ, List.map_cons, List.cons_append]
    refine .cons ?_ (ih (by omega))
    simp only [advance, Word.add?_eq (show k + 1 < wordBound by omega), Option.bind_eq_bind,
      Option.bind_some]
    cases n with
    | zero =>
      change _ = some rest.head?
      rw [if_neg (by omega), ← ho]
      cases advance o cs <;> rfl
    | succ n =>
      rw [if_pos (by omega)]
      rfl

theorem advance_cells {counts : List Nat} (h : ∀ c ∈ counts, 0 < c ∧ c < wordBound) :
    Succeeds (advance · counts) (cells counts) := by
  induction counts with
  | nil => exact .cons rfl .nil
  | cons c cs ih =>
    obtain ⟨⟨hc, hword⟩, hcs⟩ := List.forall_mem_cons.mp h
    rw [cells]
    have hlist := ih hcs
    generalize cells cs = os at hlist
    induction hlist with
    | nil => exact .nil
    | @cons o os ho _ ih =>
      -- The axis starts from 0 again at the next cell of the axes outside.
      have hturn : (advance o cs).map (·.map (0 :: ·)) =
          some (os.flatMap fun o => (List.range c).map (· :: o)).head? := by
        rw [ho]
        obtain ⟨n, rfl⟩ := Nat.exists_eq_succ_of_ne_zero (Nat.ne_of_gt hc)
        cases os with
        | nil => rfl
        | cons o' os =>
          rw [List.flatMap_cons, List.range_succ_eq_map]
          rfl
      have haxis := Succeeds.axis hword ih hturn (Nat.zero_add c)
      rwa [← List.range_eq_range'] at haxis

variable {pos counts outer : List Nat} {s : Split} {max step : Nat}

def Split.chunk (s : Split) (pos outer : List Nat) (f : Chunk Nat) : Chunk (List Nat) :=
  ⟨s.offset outer f.offset, List.zipWith (· + ·) pos (s.offset outer f.offset),
    s.count outer f.count⟩

theorem shift?_eq {offset : List Nat} (h : List.Forall₂ (fun p o => p + o < wordBound) pos offset) :
    shift? pos offset = some (List.zipWith (· + ·) pos offset) := by
  induction h with
  | nil => rfl
  | cons hpo _ ih =>
    simp only [shift?, Word.add?_eq hpo, ih, Option.bind_eq_bind, Option.bind_some,
      Option.pure_def, List.zipWith_cons_cons]

theorem Split.Cuts.offset_le (h : s.Cuts max counts) (ho : List.Forall₂ (· < ·) outer s.outer)
    {done : Nat} (hdone : done ≤ s.axis) : List.Forall₂ (· ≤ ·) (s.offset outer done) counts := by
  rw [← h.parts]
  refine List.rel_append ?_ (.cons hdone (ho.imp fun _ _ => Nat.le_of_lt))
  rw [List.forall₂_map_left_iff, List.forall₂_same]
  exact fun n _ => Nat.zero_le n

theorem Split.Cuts.chunk?_eq (h : s.Cuts max counts)
    (hpos : List.Forall₂ (fun p c => p + c < wordBound) pos counts)
    (ho : List.Forall₂ (· < ·) outer s.outer) (f : Chunk Nat) (hf : f.offset ≤ s.axis) :
    s.chunk? pos outer f.offset f.count = some (s.chunk pos outer f) := by
  have hword : List.Forall₂ (fun p o => p + o < wordBound) pos (s.offset outer f.offset) := by
    refine forall₂_meet hpos.flip (h.offset_le ho hf).flip fun c p o hpc hoc => ?_
    exact Nat.lt_of_le_of_lt (Nat.add_le_add_left hoc p) hpc
  simp only [chunk?, shift?_eq hword, Option.bind_eq_bind, Option.bind_some, Option.pure_def]
  rfl

theorem Split.Cuts.mem_counts (h : s.Cuts max counts) : ∀ c ∈ s.axis :: s.outer, c ∈ counts := by
  intro c hc
  rw [← h.parts]
  exact List.mem_append_right _ hc

theorem Split.Cuts.axis_lt (h : s.Cuts max counts)
    (hpos : List.Forall₂ (fun p c => p + c < wordBound) pos counts) :
    ∀ c ∈ s.axis :: s.outer, c < wordBound := by
  intro c hc
  obtain ⟨p, -, hp⟩ := exists_of_forall₂ hpos.flip c (h.mem_counts c hc)
  exact Nat.lt_of_le_of_lt (Nat.le_add_left c p) hp

theorem fills_take (h : s.Cuts max counts)
    (hpos : List.Forall₂ (fun p c => p + c < wordBound) pos counts)
    (ho : List.Forall₂ (· < ·) outer s.outer) {n done : Nat} (hdone : done ≤ s.axis)
    (hn : s.axis - done ≤ n * step) : Fills pos s step outer done
      ((FlatPlan.take n ⟨0, s.axis, done, step⟩).map (s.chunk pos outer)) := by
  induction n generalizing done with
  | zero => exact .stop (by omega)
  | succ n ih =>
    by_cases hleft : s.axis - done = 0
    · simp only [FlatPlan.take, FlatPlan.next?, hleft, if_true]
      exact .stop (by omega)
    · have hnext : done + min step (s.axis - done) ≤ s.axis := by omega
      have hword := Nat.lt_of_le_of_lt hnext (h.axis_lt hpos s.axis List.mem_cons_self)
      have hchunk := h.chunk?_eq hpos ho
        ⟨done, 0 + done, min step (s.axis - done)⟩ hdone
      simp only [FlatPlan.take, FlatPlan.next?, hleft, if_false, List.map_cons, Nat.min_comm _ step]
      exact .piece (by omega) (Word.sub?_eq hdone) hchunk (Word.add?_eq hword)
        (ih hnext (by rw [Nat.succ_mul] at hn; omega))

theorem fills_chunks (h : s.Cuts max counts)
    (hpos : List.Forall₂ (fun p c => p + c < wordBound) pos counts) (hstep : 0 < step)
    (ho : List.Forall₂ (· < ·) outer s.outer) : Fills pos s step outer 0
      ((FlatPlan.make 0 s.axis step).chunks.map (s.chunk pos outer)) := by
  have hmax : Nat.max step 1 = step := Nat.max_eq_left hstep
  rw [FlatPlan.chunks, FlatPlan.make, FlatPlan.hint, hmax]
  exact fills_take h hpos ho (Nat.zero_le s.axis) (le_ceilDiv_mul s.axis hstep)

theorem turns_chunks (h : s.Cuts max counts)
    (hpos : List.Forall₂ (fun p c => p + c < wordBound) pos counts) (hstep : 0 < step)
    {os : List (List Nat)} (hnext : Succeeds (advance · s.outer) (outer :: os))
    (hos : ∀ o ∈ outer :: os, List.Forall₂ (· < ·) o s.outer) : Turns pos s step outer
      ((outer :: os).flatMap fun o =>
        (FlatPlan.make 0 s.axis step).chunks.map (s.chunk pos o)) := by
  induction os generalizing outer with
  | nil =>
    cases hnext with
    | cons hlast _ =>
      rw [List.flatMap_singleton]
      exact .last (fills_chunks h hpos hstep (hos outer List.mem_cons_self)) hlast
  | cons o os ih =>
    obtain ⟨ho, hos⟩ := List.forall_mem_cons.mp hos
    cases hnext with
    | cons hnext hrest =>
      rw [List.flatMap_cons]
      exact .more (fills_chunks h hpos hstep ho) hnext (ih hrest hos)

theorem Fills.unique {done : Nat} {a b : List (Chunk (List Nat))}
    (ha : Fills pos s step outer done a) (hb : Fills pos s step outer done b) : a = b := by
  induction ha generalizing b with
  | stop hend =>
    cases hb with
    | stop => rfl
    | piece hmore => exact absurd hend (Nat.not_le_of_lt hmore)
  | piece hmore hleft hchunk hnext _ ih =>
    cases hb with
    | stop hend => exact absurd hend (Nat.not_le_of_lt hmore)
    | piece _ hleft' hchunk' hnext' hrest =>
      cases hleft.symm.trans hleft'
      cases hchunk.symm.trans hchunk'
      cases hnext.symm.trans hnext'
      rw [ih hrest]

theorem Turns.unique {a b : List (Chunk (List Nat))} (ha : Turns pos s step outer a)
    (hb : Turns pos s step outer b) : a = b := by
  induction ha generalizing b with
  | last hfill hlast =>
    cases hb with
    | last hfill' => exact hfill.unique hfill'
    | more _ hnext => cases hlast.symm.trans hnext
  | more hfill hnext _ ih =>
    cases hb with
    | last _ hlast => cases hlast.symm.trans hnext
    | more hfill' hnext' hrest =>
      cases hnext.symm.trans hnext'
      rw [hfill.unique hfill', ih hrest]

end Turns

section Steps

variable {pos counts : List Nat} {max : Nat}

theorem countFrom_lt {acc n : Nat} (hacc : acc < wordBound) (h : countFrom acc counts = some n) :
    n < wordBound := by
  induction counts generalizing acc with
  | nil =>
    cases h
    exact hacc
  | cons c cs ih =>
    simp only [countFrom, Option.ite_none_right_eq_some] at h
    exact ih h.1 h.2

theorem pos_of_cellsOf (h : cellsOf counts ≠ 0) : ∀ c ∈ counts, 0 < c := by
  induction counts with
  | nil => exact List.forall_mem_nil _
  | cons c cs ih =>
    rw [cellsOf_cons, Nat.mul_ne_zero_iff] at h
    exact List.forall_mem_cons.mpr ⟨Nat.pos_of_ne_zero h.1, ih h.2⟩

theorem cells_eq_cons (h : ∀ c ∈ counts, 0 < c) :
    ∃ os, cells counts = (counts.map fun _ => 0) :: os := by
  induction counts with
  | nil => exact ⟨[], rfl⟩
  | cons c cs ih =>
    obtain ⟨hc, hcs⟩ := List.forall_mem_cons.mp h
    obtain ⟨os, hos⟩ := ih hcs
    obtain ⟨n, rfl⟩ := Nat.exists_eq_succ_of_ne_zero (Nat.ne_of_gt hc)
    rw [cells, hos, List.flatMap_cons, List.range_succ_eq_map]
    exact ⟨_, rfl⟩

def Split.plan (s : Split) (pos : List Nat) (max : Nat) : List (Chunk (List Nat)) :=
  (cells s.outer).flatMap fun o =>
    (FlatPlan.make 0 s.axis (max / s.block)).chunks.map (s.chunk pos o)

theorem plan_of_cuts {s : Split} (h : cuts max 1 counts = s.cuts max) (pos : List Nat) :
    (cuts max 1 counts).map (fun x => ⟨x.1, List.zipWith (· + ·) pos x.1, x.2⟩) =
      s.plan pos max := by
  rw [h]
  simp only [Split.cuts, Split.plan, List.map_flatMap, List.map_map, Function.comp_def]
  rfl

theorem cuts_whole {inner : Nat} (hinner : 0 < inner) (hrank : counts ≠ [])
    (hpos : ∀ c ∈ counts, 0 < c) (h : inner * cellsOf counts ≤ max) :
    cuts max inner counts = [(counts.map fun _ => 0, counts)] := by
  induction counts generalizing inner with
  | nil => exact absurd rfl hrank
  | cons c cs ih =>
    obtain ⟨hc, hcs⟩ := List.forall_mem_cons.mp hpos
    rw [cellsOf_cons, ← Nat.mul_assoc] at h
    have hfits : inner * c ≤ max :=
      Nat.le_trans (Nat.le_mul_of_pos_right _ (one_le_cellsOf hcs)) h
    cases cs with
    | nil =>
      have hle : c ≤ max / inner :=
        (Nat.le_div_iff_mul_le hinner).mpr (Nat.mul_comm c inner ▸ hfits)
      have hmax : Nat.max (max / inner) 1 = max / inner := Nat.max_eq_left (Nat.le_trans hc hle)
      have hone : ceilDiv c (max / inner) = 1 := by
        rw [ceilDiv]
        exact Nat.div_eq_of_lt_le (by omega) (by omega)
      rw [cuts, if_neg (fun h => h.1 rfl)]
      simp [cells, FlatPlan.chunks_eq, hmax, hone, FlatPlan.chunk, Nat.min_eq_left hle]
    | cons d ds =>
      rw [cuts, if_pos ⟨List.cons_ne_nil d ds, hfits⟩,
        ih (Nat.mul_pos hinner hc) (List.cons_ne_nil d ds) hcs h]
      rfl

theorem make_of_empty (hn : count? counts = some 0) (hlen : pos.length = counts.length) :
    make pos counts max = .ok [] := by
  have hzero := count?_eq_some hn
  exact make_eq_ok.mpr ⟨hlen, hzero ▸ hn, .inl ⟨hzero.symm, rfl⟩⟩

theorem make_of_cells {n : Nat} (hn : count? counts = some n) (hzero : n ≠ 0)
    (hpos : List.Forall₂ (fun p c => p + c < wordBound) pos counts) : make pos counts max =
      .ok ((cuts (Nat.max max 1) 1 counts).map fun x =>
        ⟨x.1, List.zipWith (· + ·) pos x.1, x.2⟩) := by
  cases count?_eq_some hn
  exact make_eq_ok.mpr ⟨hpos.length_eq, hn, .inr ⟨hzero, expectNoWrap_eq_ok hpos, rfl⟩⟩

theorem exists_split {c : Nat} {cs : List Nat} (hcounts : ∀ n ∈ c :: cs, 0 < n)
    (hword : cellsOf (c :: cs) < wordBound) (hmax : 0 < max) : ∃ s,
      walk max [] 1 c cs = some s ∧ s.Cuts max (c :: cs) ∧ cuts max 1 (c :: cs) = s.cuts max := by
  obtain ⟨s, hs, hcuts, heq⟩ := exists_walk Nat.one_pos hmax hcounts (by rwa [Nat.one_mul]) []
  exact ⟨s, hs, hcuts, by simpa using heq⟩

theorem Steps.unique {a b : List (Chunk (List Nat))} (ha : Steps pos max counts a)
    (hb : Steps pos max counts b) : a = b := by
  cases ha with
  | empty hn =>
    cases hb with
    | empty => rfl
    | whole hn' hzero =>
      cases hn.symm.trans hn'
      exact absurd rfl hzero
    | cut hn' hlarge =>
      cases hn.symm.trans hn'
      exact absurd hlarge (Nat.not_lt_zero _)
  | whole hn hzero hfits =>
    cases hb with
    | empty hn' =>
      cases hn.symm.trans hn'
      exact absurd rfl hzero
    | whole => rfl
    | cut hn' hlarge =>
      cases hn.symm.trans hn'
      exact absurd hfits (Nat.not_le_of_lt hlarge)
  | cut hn hlarge hs hstep hturns =>
    cases hb with
    | empty hn' =>
      cases hn.symm.trans hn'
      exact absurd hlarge (Nat.not_lt_zero _)
    | whole hn' _ hfits =>
      cases hn.symm.trans hn'
      exact absurd hfits (Nat.not_le_of_lt hlarge)
    | cut _ _ hs' hstep' hturns' =>
      cases hs.symm.trans hs'
      cases hstep.symm.trans hstep'
      exact hturns.unique hturns'

theorem exists_steps {n : Nat} (hn : count? counts = some n) (hrank : counts ≠ [])
    (hpos : List.Forall₂ (fun p c => p + c < wordBound) pos counts) (max : Nat) :
    ∃ cs, make pos counts max = .ok cs ∧ Steps pos max counts cs := by
  have hmax : 0 < Nat.max max 1 := Nat.le_max_right max 1
  have hn' := count?_eq_some hn
  by_cases hzero : n = 0
  · subst hzero
    exact ⟨[], make_of_empty hn hpos.length_eq, .empty hn⟩
  · refine ⟨_, make_of_cells hn hzero hpos, ?_⟩
    have hcounts := pos_of_cellsOf (hn' ▸ hzero)
    by_cases hfits : n ≤ Nat.max max 1
    · have hwhole : cuts (Nat.max max 1) 1 counts = [(counts.map fun _ => 0, counts)] :=
        cuts_whole Nat.one_pos hrank hcounts (by rwa [Nat.one_mul, ← hn'])
      rw [hwhole, List.map_singleton, zipWith_zeros_of_length hpos.length_eq]
      exact .whole hn hzero hfits
    · obtain ⟨c, cs, rfl⟩ := List.exists_cons_of_ne_nil hrank
      obtain ⟨s, hs, hcuts, heq⟩ :=
        exists_split hcounts (hn' ▸ countFrom_lt (by decide) hn) hmax
      have hstep : 0 < Nat.max max 1 / s.block := Nat.div_pos hcuts.block_le hcuts.block_pos
      have houter : ∀ o ∈ s.outer, 0 < o ∧ o < wordBound := by
        intro o ho
        have ho := List.mem_cons_of_mem s.axis ho
        exact ⟨hcounts o (hcuts.mem_counts o ho), hcuts.axis_lt hpos o ho⟩
      obtain ⟨os, hos⟩ := cells_eq_cons fun o ho => (houter o ho).1
      have hturns := turns_chunks hcuts hpos hstep (hos ▸ advance_cells houter) fun o ho =>
        forall₂_lt_of_mem_cells (hos ▸ ho)
      rw [plan_of_cuts heq, Split.plan, hos]
      exact .cut hn (Nat.lt_of_not_le hfits) hs (Word.div?_eq hcuts.block_pos) hturns

theorem steps_iff {n : Nat} (hn : count? counts = some n) (hrank : counts ≠ [])
    (hpos : List.Forall₂ (fun p c => p + c < wordBound) pos counts) (max : Nat) :
    ∃ cs, make pos counts max = .ok cs ∧ ∀ cs', Steps pos max counts cs' ↔ cs' = cs := by
  obtain ⟨cs, hmake, hsteps⟩ := exists_steps hn hrank hpos max
  refine ⟨cs, hmake, fun cs' => ⟨fun h => h.unique hsteps, ?_⟩⟩
  rintro rfl
  exact hsteps

end Steps

end BlockPlan

end TypedWire
