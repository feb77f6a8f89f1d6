import TypedWire.Proofs.Copies
import TypedWire.Proofs.Tiling
import TypedWire.Proofs.Transfers

namespace TypedWire.Region

open BlockPlan

def strides (stride : Nat) : List Nat → List Nat
  | [] => []
  | d :: ds => stride :: strides (min (stride * d) (wordBound - 1)) ds

def locate? (acc : Nat) : (strides pos offsets : List Nat) → Option Nat
  | s :: ss, p :: ps, o :: os => do
    let steps ← Word.add? p o
    let cells ← Word.mul? s steps
    let next ← Word.add? acc cells
    locate? next ss ps os
  | _, _, _ => some acc

inductive Sweeps (dims pos axes : List Nat) : (outer starts : List Nat) → Prop
  | last {outer s} : locate? 0 (strides 1 dims) pos (0 :: outer) = some s →
      advance outer axes = some none → Sweeps dims pos axes outer [s]
  | more {outer next s ss} : locate? 0 (strides 1 dims) pos (0 :: outer) = some s →
      advance outer axes = some (some next) → Sweeps dims pos axes next ss →
      Sweeps dims pos axes outer (s :: ss)

/-- Where the runs of a part start; a part without cells has none. -/
inductive Runs (dims pos : List Nat) : (counts starts : List Nat) → Prop
  | empty {counts} : 0 ∈ counts → Runs dims pos counts []
  | sweep {c cs ss} : 0 ∉ c :: cs → Sweeps dims pos cs (cs.map fun _ => 0) ss →
      Runs dims pos (c :: cs) ss

section Runs

variable {dims pos counts offsets outer : List Nat}

theorem locate?_eq {acc stride n : Nat} (hacc : acc < stride)
    (hn : countFrom stride dims = some n) (h : Within dims pos counts)
    (ho : List.Forall₂ (· < ·) offsets counts) :
    locate? acc (strides stride dims) pos offsets =
      some (acc + stride * address dims pos offsets) := by
  induction h generalizing acc stride offsets with
  | nil => simp [strides, locate?, address]
  | @cons d p c ds ps cs h _ ih =>
    cases ho with
    | @cons o _ os _ ho hos =>
      simp only [countFrom, Option.ite_none_right_eq_some] at hn
      obtain ⟨hword, hn⟩ := hn
      have hsteps : p + o < d := Nat.lt_of_lt_of_le (Nat.add_lt_add_left ho p) h
      have hcells : acc + stride * (p + o) < stride * d := by
        calc acc + stride * (p + o) < stride + stride * (p + o) := Nat.add_lt_add_right hacc _
          _ = stride * (p + o + 1) := by rw [Nat.mul_succ, Nat.add_comm]
          _ ≤ stride * d := Nat.mul_le_mul_left stride hsteps
      have hstride : d ≤ stride * d := Nat.le_mul_of_pos_left d (Nat.zero_lt_of_lt hacc)
      -- The product of the axes is a word, so that no stride is cut short.
      rw [strides, Nat.min_eq_left (Nat.le_sub_one_of_lt hword), locate?,
        Word.add?_eq (by omega), Option.bind_eq_bind, Option.bind_some,
        Word.mul?_eq (by omega), Option.bind_some, Word.add?_eq (by omega), Option.bind_some,
        ih hcells hn hos, address]
      congr 1
      ring

theorem axes_lt {acc n : Nat} (hacc : 0 < acc) (hpos : ∀ d ∈ dims, 0 < d)
    (hn : countFrom acc dims = some n) : ∀ d ∈ dims, d < wordBound := by
  induction dims generalizing acc with
  | nil => exact List.forall_mem_nil _
  | cons d ds ih =>
    obtain ⟨hd, hds⟩ := List.forall_mem_cons.mp hpos
    simp only [countFrom, Option.ite_none_right_eq_some] at hn
    refine List.forall_mem_cons.mpr ⟨?_, ih (Nat.mul_pos hacc hd) hds hn.2⟩
    exact Nat.lt_of_le_of_lt (Nat.le_mul_of_pos_left d hacc) hn.1

theorem sweeps_of_succeeds {n : Nat} {c : Nat} {cs : List Nat} (hn : count? dims = some n)
    (h : Within dims pos (c :: cs)) (hc : 0 < c) {os : List (List Nat)}
    (hnext : Succeeds (advance · cs) (outer :: os))
    (hos : ∀ o ∈ outer :: os, List.Forall₂ (· < ·) o cs) :
    Sweeps dims pos cs outer ((outer :: os).map fun o => address dims pos (0 :: o)) := by
  have hlocate : ∀ o, List.Forall₂ (· < ·) o cs →
      locate? 0 (strides 1 dims) pos (0 :: o) = some (address dims pos (0 :: o)) := by
    intro o ho
    rw [locate?_eq Nat.one_pos hn h (.cons hc ho), Nat.zero_add, Nat.one_mul]
  induction os generalizing outer with
  | nil =>
    cases hnext with
    | cons hlast _ => exact .last (hlocate outer (hos outer List.mem_cons_self)) hlast
  | cons o os ih =>
    obtain ⟨ho, hos⟩ := List.forall_mem_cons.mp hos
    cases hnext with
    | cons hnext hrest => exact .more (hlocate outer ho) hnext (ih hrest hos)

theorem starts_eq_nil (h : Within dims pos counts) (hempty : 0 ∈ counts) :
    starts dims pos counts = [] := by
  cases h with
  | nil => cases hempty
  | @cons d p c ds ps cs _ hw =>
    by_cases hc : c = 0
    · rw [starts, if_pos hc]
    · have hcs : 0 ∈ cs := (List.mem_cons.mp hempty).resolve_left (Ne.symm hc)
      have hzero : cellsOf cs = 0 := by
        by_contra hne
        exact Nat.lt_irrefl 0 (pos_of_cellsOf hne 0 hcs)
      rw [starts, if_neg hc, List.map_eq_nil_iff]
      exact List.length_eq_zero_iff.mp ((length_addresses hw).trans hzero)

theorem starts_eq_map {c : Nat} {cs : List Nat} (h : Within dims pos (c :: cs)) (hc : c ≠ 0) :
    starts dims pos (c :: cs) = (cells cs).map fun o => address dims pos (0 :: o) := by
  cases h with
  | @cons d p _ ds ps _ _ hw =>
    rw [starts, if_neg hc, addresses_eq hw, List.map_map]
    exact List.map_congr_left fun o _ => by simp only [Function.comp_apply, address, Nat.add_zero]

theorem Sweeps.unique {axes a b : List Nat} (ha : Sweeps dims pos axes outer a)
    (hb : Sweeps dims pos axes outer b) : a = b := by
  induction ha generalizing b with
  | last hs hlast =>
    cases hb with
    | last hs' _ =>
      cases hs.symm.trans hs'
      rfl
    | more _ hnext => cases hlast.symm.trans hnext
  | more hs hnext _ ih =>
    cases hb with
    | last _ hlast => cases hlast.symm.trans hnext
    | more hs' hnext' hrest =>
      cases hs.symm.trans hs'
      cases hnext.symm.trans hnext'
      rw [ih hrest]

theorem Runs.unique {a b : List Nat} (ha : Runs dims pos counts a) (hb : Runs dims pos counts b) :
    a = b := by
  cases ha with
  | empty hempty =>
    cases hb with
    | empty => rfl
    | sweep hcells => exact absurd hempty hcells
  | sweep hcells ha =>
    cases hb with
    | empty hempty => exact absurd hempty hcells
    | sweep _ hb => exact ha.unique hb

theorem runs_starts {n : Nat} (hn : count? dims = some n) (hrank : dims ≠ [])
    (h : Within dims pos counts) : Runs dims pos counts (starts dims pos counts) := by
  by_cases hempty : 0 ∈ counts
  · rw [starts_eq_nil h hempty]
    exact .empty hempty
  · have hpos : ∀ c ∈ counts, 0 < c := by
      intro c hc
      exact Nat.pos_of_ne_zero fun hzero => hempty (hzero ▸ hc)
    have hdims : ∀ d ∈ dims, 0 < d := by
      intro d hd
      obtain ⟨c, hc, hle⟩ := exists_of_forall₂ h.counts_le.flip d hd
      exact Nat.lt_of_lt_of_le (hpos c hc) hle
    have hword := axes_lt Nat.one_pos hdims hn
    have hcounts : ∀ c ∈ counts, c < wordBound := by
      intro c hc
      obtain ⟨d, hd, hle⟩ := exists_of_forall₂ h.counts_le c hc
      exact Nat.lt_of_le_of_lt hle (hword d hd)
    have hlen : counts ≠ [] := by
      rintro rfl
      exact hrank (List.length_eq_zero_iff.mp h.length_counts.symm)
    obtain ⟨c, cs, rfl⟩ := List.exists_cons_of_ne_nil hlen
    obtain ⟨hc, hcs⟩ := List.forall_mem_cons.mp hpos
    obtain ⟨os, hos⟩ := cells_eq_cons hcs
    rw [starts_eq_map h (Nat.ne_of_gt hc), hos]
    refine .sweep hempty (sweeps_of_succeeds hn h hc ?_ ?_)
    · rw [← hos]
      exact advance_cells fun n hn => ⟨hcs n hn, hcounts n (List.mem_cons_of_mem c hn)⟩
    · rw [← hos]
      exact fun o ho => forall₂_lt_of_mem_cells ho

theorem runs_iff {n : Nat} (hn : count? dims = some n) (hrank : dims ≠ [])
    (h : Within dims pos counts) {ss : List Nat} :
    Runs dims pos counts ss ↔ ss = starts dims pos counts := by
  have hstarts := runs_starts hn hrank h
  constructor
  · exact fun hss => hss.unique hstarts
  · rintro rfl
    exact hstarts

end Runs

section Moves

variable {α : Type} {n : Nat} {src dst : List α}

def moveRun (n : Nat) (src : List α) (start : Nat × Nat) : Action (List α) Unit := do
  .ofChecked (expectSpan "source" src.length start.1 n)
  .ofChecked (expectSpan "destination" (← get).length start.2 n)
  modify fun dst => splice dst start.2 (slice src start.1 n)

def moveRuns (n : Nat) (src : List α) : List (Nat × Nat) → Action (List α) Unit
  | [] => pure ()
  | start :: rest => do
    moveRun n src start
    moveRuns n src rest

theorem moveRun_ok {s d : Nat} (hs : s + n ≤ src.length) (hd : d + n ≤ dst.length) :
    moveRun n src (s, d) dst = .ok () (splice dst d (slice src s n)) := by
  rw [moveRun, Action.bind_ofChecked (expectSpan_eq_ok.mpr hs)]
  exact Action.bind_ofChecked (expectSpan_eq_ok.mpr hd)

theorem moveRuns_ok {rs : List (Nat × Nat)}
    (h : ∀ r ∈ rs, r.1 + n ≤ src.length ∧ r.2 + n ≤ dst.length) :
    moveRuns n src rs dst = .ok () (copyRuns n src dst rs) := by
  induction rs generalizing dst with
  | nil => rfl
  | cons r rs ih =>
    obtain ⟨s, d⟩ := r
    obtain ⟨⟨hs, hd⟩, hrest⟩ := List.forall_mem_cons.mp h
    have hlen : (splice dst d (slice src s n)).length = dst.length := by
      apply length_splice
      rw [length_slice hs]
      exact hd
    rw [moveRuns, Action.bind_ok (moveRun_ok hs hd), ih (by rwa [hlen]), copyRuns]

end Moves

section Copies

variable {α : Type} {src dst out : List α} {dims pos counts : List Nat}
  {srcDims srcPos dstDims dstPos : List Nat}

def expectCopy (length : Nat) (srcDims srcPos : List Nat) (length' : Nat)
    (dstDims dstPos counts : List Nat) : Checked Unit := do
  expectVolume length srcDims
  expectVolume length' dstDims
  expectPart "source" srcDims srcPos counts
  expectPart "destination" dstDims dstPos counts

/-- A copy in place: what the call answers, and what the buffer holds behind it. -/
inductive CopiesInto (src : List α) (srcDims srcPos : List Nat) (dst : List α)
    (dstDims dstPos counts : List Nat) : Checked Unit → List α → Prop
  | refused {e} : expectCopy src.length srcDims srcPos dst.length dstDims dstPos counts = .error e →
      CopiesInto src srcDims srcPos dst dstDims dstPos counts (.error e) dst
  | moved {ss ds r out} :
      expectCopy src.length srcDims srcPos dst.length dstDims dstPos counts = .ok () →
      Runs srcDims srcPos counts ss → Runs dstDims dstPos counts ds →
      (moveRuns (run counts) src (ss.zip ds)).outcome dst = (r, out) →
      CopiesInto src srcDims srcPos dst dstDims dstPos counts r out

structure Fits (length : Nat) (dims pos counts : List Nat) : Prop where
  volume : cellCount dims = .ok length
  rank : dims ≠ []
  within : Within dims pos counts

structure Copied (src : List α) (srcDims srcPos : List Nat) (dst : List α)
    (dstDims dstPos counts : List Nat) (out : List α) : Prop where
  length_eq : out.length = dst.length
  cell : ∀ i, List.Forall₂ (· < ·) i counts →
    ∃ x, src[address srcDims srcPos i]? = some x ∧ out[address dstDims dstPos i]? = some x
  frame : ∀ a, (∀ i, List.Forall₂ (· < ·) i counts → address dstDims dstPos i ≠ a) →
    out[a]? = dst[a]?

structure Extracted (src : List α) (dims pos counts : List Nat) (out : List α) : Prop where
  cells_eq : out.map some = (cells counts).map fun i => src[address dims pos i]?
  runs_eq : ∃ ss, Runs dims pos counts ss ∧ out = ss.flatMap fun s => slice src s (run counts)
  fresh : ∀ dst : List α, dst.length = cellsOf counts →
    copy src dims pos dst counts (counts.map fun _ => 0) counts = .ok out

theorem Fits.count?_eq {length : Nat} (h : Fits length dims pos counts) :
    count? dims = some length :=
  cellCount_eq_ok.mp h.volume

theorem Fits.address_lt (h : Fits src.length dims pos counts) :
    ∀ a ∈ addresses dims pos counts, a < src.length := by
  rw [count?_eq_some h.count?_eq]
  exact addresses_lt h.within

theorem Fits.starts_le (h : Fits src.length dims pos counts) :
    ∀ s ∈ starts dims pos counts, s + run counts ≤ src.length := by
  rw [count?_eq_some h.count?_eq]
  exact Region.starts_le h.within

theorem Fits.exists_cell (h : Fits src.length dims pos counts) {n : Nat} {i : List Nat}
    (hi : (cells counts)[n]? = some i) :
    (addresses dims pos counts)[n]? = some (address dims pos i) ∧
      address dims pos i < src.length := by
  have hn : (addresses dims pos counts)[n]? = some (address dims pos i) := by
    rw [addresses_eq h.within, List.getElem?_map, hi, Option.map_some]
  exact ⟨hn, h.address_lt _ (List.mem_of_getElem? hn)⟩

theorem expectCopy_eq_ok {length length' : Nat} :
    expectCopy length srcDims srcPos length' dstDims dstPos counts = .ok () ↔
      Fits length srcDims srcPos counts ∧ Fits length' dstDims dstPos counts := by
  simp only [expectCopy, Checked.bind_eq_ok, Checked.exists_unit, expectVolume_eq_ok,
    expectPart_eq_ok]
  constructor
  · rintro ⟨hv, hv', ⟨hr, hw⟩, hr', hw'⟩
    exact ⟨⟨cellCount_eq_ok.mpr hv, hr, hw⟩, ⟨cellCount_eq_ok.mpr hv', hr', hw'⟩⟩
  · rintro ⟨h, h'⟩
    exact ⟨h.count?_eq, h'.count?_eq, ⟨h.rank, h.within⟩, h'.rank, h'.within⟩

theorem copy_eq (src : List α) (srcDims srcPos : List Nat) (dst : List α)
    (dstDims dstPos counts : List Nat) :
    copy src srcDims srcPos dst dstDims dstPos counts =
      (expectCopy src.length srcDims srcPos dst.length dstDims dstPos counts >>= fun _ =>
        .ok (copyRuns (run counts) src dst
          ((starts srcDims srcPos counts).zip (starts dstDims dstPos counts)))) := by
  simp only [copy, expectCopy, bind_assoc]
  rfl

theorem copiesInto_ok (hs : Fits src.length srcDims srcPos counts)
    (hd : Fits dst.length dstDims dstPos counts) {r : Checked Unit} :
    CopiesInto src srcDims srcPos dst dstDims dstPos counts r out ↔
      r = .ok () ∧ copy src srcDims srcPos dst dstDims dstPos counts = .ok out := by
  have hcheck := expectCopy_eq_ok.mpr ⟨hs, hd⟩
  have hmoves : moveRuns (run counts) src
      ((starts srcDims srcPos counts).zip (starts dstDims dstPos counts)) dst =
        .ok () (copyRuns (run counts) src dst
          ((starts srcDims srcPos counts).zip (starts dstDims dstPos counts))) := by
    apply moveRuns_ok
    intro r hr
    obtain ⟨hs', hd'⟩ := List.of_mem_zip hr
    exact ⟨hs.starts_le _ hs', hd.starts_le _ hd'⟩
  rw [copy_eq, hcheck]
  constructor
  · rintro (hno | ⟨-, hss, hds, hout⟩)
    · cases hcheck.symm.trans hno
    · cases (runs_iff hs.count?_eq hs.rank hs.within).mp hss
      cases (runs_iff hd.count?_eq hd.rank hd.within).mp hds
      rw [Action.outcome, hmoves] at hout
      cases hout
      exact ⟨rfl, rfl⟩
  · rintro ⟨rfl, hout⟩
    cases hout
    refine .moved hcheck (runs_starts hs.count?_eq hs.rank hs.within)
      (runs_starts hd.count?_eq hd.rank hd.within) ?_
    rw [Action.outcome, hmoves]

theorem copiesInto_error {e : WireError}
    (h : expectCopy src.length srcDims srcPos dst.length dstDims dstPos counts = .error e)
    {r : Checked Unit} : CopiesInto src srcDims srcPos dst dstDims dstPos counts r out ↔
      r = .error e ∧ out = dst := by
  constructor
  · rintro (hno | ⟨hok, -⟩)
    · cases h.symm.trans hno
      exact ⟨rfl, rfl⟩
    · cases h.symm.trans hok
  · rintro ⟨rfl, rfl⟩
    exact .refused h

theorem copied_of_copy (hs : Fits src.length srcDims srcPos counts)
    (hd : Fits dst.length dstDims dstPos counts)
    (h : copy src srcDims srcPos dst dstDims dstPos counts = .ok out) :
    Copied src srcDims srcPos dst dstDims dstPos counts out := by
  obtain ⟨-, -, -, -, rfl⟩ := copy_eq_ok.mp h
  refine ⟨length_scatter .., ?_, ?_⟩
  · intro i hi
    obtain ⟨n, hn⟩ := List.mem_iff_getElem?.mp (mem_cells_iff.mpr hi)
    obtain ⟨hsrc, hlt⟩ := hs.exists_cell hn
    obtain ⟨hdst, hlt'⟩ := hd.exists_cell hn
    have hx := List.getElem?_eq_getElem hlt
    refine ⟨_, hx, ?_⟩
    exact getElem?_scatter_self (nodup_addresses hd.within) hdst
      ((getElem?_gather hs.address_lt hsrc).trans hx) hlt'
  · intro a ha
    apply getElem?_scatter
    rw [addresses_eq hd.within]
    intro hmem
    obtain ⟨i, hi, rfl⟩ := List.mem_map.mp hmem
    exact ha i (mem_cells_iff.mp hi) rfl

theorem map_some_gather {as : List Nat} (h : ∀ a ∈ as, a < src.length) :
    (gather src as).map some = as.map (src[·]?) := by
  induction as with
  | nil => rfl
  | cons a as ih =>
    obtain ⟨ha, has⟩ := List.forall_mem_cons.mp h
    have hrest := ih has
    rw [gather] at hrest ⊢
    rw [List.filterMap_cons, List.map_cons, List.getElem?_eq_getElem ha]
    exact congrArg (_ :: ·) hrest

theorem copy_fresh (h : Fits src.length dims pos counts) (hdst : dst.length = cellsOf counts) :
    copy src dims pos dst counts (counts.map fun _ => 0) counts =
      .ok (gather src (addresses dims pos counts)) := by
  have horigin := Within.origin counts
  have hcounts : count? counts = some dst.length := by
    rw [hdst]
    exact exists_count? h.within.counts_le h.count?_eq
  have hrank : counts ≠ [] := by
    rintro rfl
    exact h.rank (List.length_eq_zero_iff.mp h.within.length_counts.symm)
  refine copy_eq_ok.mpr ⟨h.count?_eq, hcounts, ⟨h.rank, h.within⟩, ⟨hrank, horigin⟩, ?_⟩
  have hlen : (scatter dst (addresses counts (counts.map fun _ => 0) counts)
      (gather src (addresses dims pos counts))).length = dst.length := length_scatter ..
  rw [← hlen] at hcounts
  rw [← gather_origin hcounts]
  refine (gather_scatter (nodup_addresses horigin) ?_ ?_).symm
  · rw [hdst]
    exact addresses_lt horigin
  · rw [length_addresses horigin, length_gather h.address_lt, length_addresses h.within]

theorem extract_ok (h : Fits src.length dims pos counts) :
    ∃ out, extract src dims pos counts = .ok out ∧ Extracted src dims pos counts out := by
  have hw := h.within
  refine ⟨gather src (addresses dims pos counts),
    extract_eq_ok.mpr ⟨h.count?_eq, h.rank, hw, rfl⟩, ?_,
    ⟨_, runs_starts h.count?_eq h.rank hw, ?_⟩, fun _ => copy_fresh h⟩
  · rw [map_some_gather h.address_lt, addresses_eq hw, List.map_map]
    rfl
  · rw [addresses_eq_runs hw, gather_flatMap]
    exact List.flatMap_congr fun s _ => gather_range' src s (run counts)

example : extract (List.range 12) [4, 3] [1, 1] [2, 2] = .ok [5, 6, 9, 10] := by decide

/-- A copy in place comes to one end. It goes ahead where both buffers are as long as their axes
say and have the part within them, and puts every cell of the part at its address and nothing
elsewhere; where it is refused the destination is as it was. A part is extracted where it could be
copied from, as it would be copied into a buffer of its own. -/
theorem copy_exact (src : List α) (srcDims srcPos : List Nat) (dst : List α)
    (dstDims dstPos counts : List Nat) :
    (∃ r out, (∀ r' out', CopiesInto src srcDims srcPos dst dstDims dstPos counts r' out' ↔
        r' = r ∧ out' = out) ∧
      (copy src srcDims srcPos dst dstDims dstPos counts = r.map fun _ => out) ∧
      (r = .ok () ↔
        Fits src.length srcDims srcPos counts ∧ Fits dst.length dstDims dstPos counts) ∧
      (r = .ok () → Copied src srcDims srcPos dst dstDims dstPos counts out) ∧
      (r ≠ .ok () → out = dst)) ∧
    ((∃ out, extract src srcDims srcPos counts = .ok out) ↔
      Fits src.length srcDims srcPos counts) ∧
    ∀ out, extract src srcDims srcPos counts = .ok out →
      Extracted src srcDims srcPos counts out := by
  have hfits : ∀ {out}, extract src srcDims srcPos counts = .ok out →
      Fits src.length srcDims srcPos counts := by
    intro out h
    obtain ⟨hv, hr, hw, -⟩ := extract_eq_ok.mp h
    exact ⟨cellCount_eq_ok.mpr hv, hr, hw⟩
  refine ⟨?_, ⟨fun ⟨_, h⟩ => hfits h, fun h => ?_⟩, ?_⟩
  · cases hcheck : expectCopy src.length srcDims srcPos dst.length dstDims dstPos counts with
    | ok =>
      obtain ⟨hs, hd⟩ := expectCopy_eq_ok.mp hcheck
      obtain ⟨out, hout⟩ : ∃ out, copy src srcDims srcPos dst dstDims dstPos counts = .ok out := by
        rw [copy_eq, hcheck]
        exact ⟨_, rfl⟩
      refine ⟨.ok (), out, fun r' out' => ?_, hout, ⟨fun _ => ⟨hs, hd⟩, fun _ => rfl⟩,
        fun _ => copied_of_copy hs hd hout, fun h => absurd rfl h⟩
      rw [copiesInto_ok hs hd, hout, Except.ok.injEq, eq_comm (a := out)]
    | error e =>
      refine ⟨.error e, dst, fun r' out' => copiesInto_error hcheck, ?_, ⟨nofun, fun h => ?_⟩,
        nofun, fun _ => rfl⟩
      · rw [copy_eq, hcheck]
        rfl
      · cases hcheck.symm.trans (expectCopy_eq_ok.mpr h)
  · obtain ⟨out, hout, -⟩ := extract_ok h
    exact ⟨out, hout⟩
  · intro out hout
    obtain ⟨out', hout', hex⟩ := extract_ok (hfits hout)
    cases hout.symm.trans hout'
    exact hex

end Copies

end TypedWire.Region
