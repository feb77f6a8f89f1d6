import TypedWire.Proofs.Copies
import TypedWire.Proofs.Plans

namespace TypedWire

variable {α : Type}

namespace Block

open Region

variable {b src dst : Block α} {pos start counts : List Nat}

theorem wellFormed_iff : b.WellFormed ↔ count? b.axes = some b.items.length := by
  simp only [WellFormed, dimsCount, axes]
  cases count? (TypedWire.axes b.dims) <;> simp

theorem WellFormed.length_items (h : b.WellFormed) : b.items.length = cellsOf b.axes :=
  count?_eq_some (wellFormed_iff.mp h)

theorem lt_of_mem_axes (b : Block α) : ∀ d ∈ b.axes, d < UInt32.size := by
  intro d hd
  obtain ⟨n, -, rfl⟩ := List.mem_map.mp hd
  exact n.toNat_lt

def Fits (b : Block α) (pos counts : List Nat) : Prop := b.axes ≠ [] ∧ Within b.axes pos counts

theorem Fits.lt (h : b.Fits pos counts) : ∀ n ∈ counts, n < UInt32.size := by
  intro n hn
  have hle := h.2.counts_le
  obtain ⟨i, hi, rfl⟩ := List.mem_iff_getElem.mp hn
  have hi' : i < b.axes.length := hle.length_eq ▸ hi
  exact Nat.lt_of_le_of_lt (hle.get hi hi') (b.lt_of_mem_axes _ (List.getElem_mem hi'))

theorem Fits.of_axes_eq (h : src.Fits pos counts) (haxes : dst.axes = src.axes) :
    dst.Fits pos counts := by
  rw [Fits, haxes]
  exact h

def part (b : Block α) (pos counts : List Nat) : Block α :=
  ⟨counts.map UInt32.ofNat, gather b.items (addresses b.axes pos counts)⟩

def paste (dst : Block α) (start : List Nat) (src : Block α) (pos counts : List Nat) : Block α :=
  { dst with
    items := scatter dst.items (addresses dst.axes start counts)
      (gather src.items (addresses src.axes pos counts)) }

@[simp] theorem axes_paste : (dst.paste start src pos counts).axes = dst.axes := rfl

theorem WellFormed.paste (h : dst.WellFormed) : (dst.paste start src pos counts).WellFormed := by
  rw [wellFormed_iff, axes_paste, wellFormed_iff.mp h, Block.paste, length_scatter]

theorem axes_part (h : b.Fits pos counts) : (b.part pos counts).axes = counts := by
  simp only [part, axes, TypedWire.axes, List.map_map]
  refine (List.map_congr_left fun n hn => ?_).trans (List.map_id counts)
  exact UInt32.toNat_ofNat_of_lt (h.lt n hn)

theorem length_part (hb : b.WellFormed) (h : b.Fits pos counts) :
    (gather b.items (addresses b.axes pos counts)).length = cellsOf counts := by
  rw [length_gather, length_addresses h.2]
  rw [hb.length_items]
  exact addresses_lt h.2

theorem wellFormed_part (hb : b.WellFormed) (h : b.Fits pos counts) :
    (b.part pos counts).WellFormed := by
  rw [wellFormed_iff, axes_part h]
  exact (exists_count? h.2.counts_le (wellFormed_iff.mp hb)).trans
    (congrArg some (length_part hb h).symm)

theorem paste_part (hb : src.WellFormed) (h : src.Fits pos counts) :
    dst.paste start (src.part pos counts) (counts.map fun _ => 0) counts =
      dst.paste start src pos counts := by
  have hcount := wellFormed_iff.mp (wellFormed_part hb h)
  rw [axes_part h] at hcount
  rw [paste, axes_part h, gather_origin hcount]
  rfl

section Chunks

variable {cs : List (Chunk (List Nat))} {source target : Chunk (List Nat) → List Nat}

theorem Fits.chunk {p : List Nat} (hs : src.Fits pos counts) (h : BlockPlan.Tiles p counts cs)
    {c : Chunk (List Nat)} (hc : c ∈ cs) :
    src.Fits (List.zipWith (· + ·) pos c.offset) c.count :=
  ⟨hs.1, hs.2.add (h.within c hc)⟩

theorem foldl_paste_eq (hlen : ∀ c ∈ cs, (addresses dst.axes (target c) c.count).length =
      (gather src.items (addresses src.axes (source c) c.count)).length) :
    cs.foldl (fun d c => d.paste (target c) src (source c) c.count) dst =
      ⟨dst.dims, scatter dst.items (cs.flatMap fun c => addresses dst.axes (target c) c.count)
        (gather src.items (cs.flatMap fun c => addresses src.axes (source c) c.count))⟩ := by
  induction cs generalizing dst with
  | nil => simp [scatter]
  | cons c cs ih =>
    obtain ⟨hc, hlen⟩ := List.forall_mem_cons.mp hlen
    rw [List.foldl_cons, ih (by exact hlen), List.flatMap_cons, List.flatMap_cons, gather_append,
      scatter_append _ hc]
    rfl

theorem Fits.flatMap_addresses {p : List Nat} (hd : dst.Fits start counts)
    (h : BlockPlan.Tiles p counts cs)
    (htarget : ∀ c ∈ cs, target c = List.zipWith (· + ·) start c.offset) :
    (cs.flatMap fun c => addresses dst.axes (target c) c.count) =
      addresses dst.axes start counts := by
  rw [← h.addresses_eq hd.2]
  exact List.flatMap_congr fun c hc => by rw [htarget c hc]

theorem Fits.length_addresses_chunk {p : List Nat} (hd : dst.Fits start counts)
    (h : BlockPlan.Tiles p counts cs)
    (htarget : ∀ c ∈ cs, target c = List.zipWith (· + ·) start c.offset) :
    ∀ c ∈ cs, (addresses dst.axes (target c) c.count).length = cellsOf c.count := by
  intro c hc
  rw [htarget c hc]
  exact length_addresses (hd.chunk h hc).2

theorem Fits.length_gather_chunk {p : List Nat} (hs : src.Fits pos counts) (hb : src.WellFormed)
    (h : BlockPlan.Tiles p counts cs)
    (hsource : ∀ c ∈ cs, source c = List.zipWith (· + ·) pos c.offset) :
    ∀ c ∈ cs, (gather src.items (addresses src.axes (source c) c.count)).length =
      cellsOf c.count := by
  intro c hc
  rw [hsource c hc]
  exact length_part hb (hs.chunk h hc)

theorem foldl_paste {p : List Nat} (h : BlockPlan.Tiles p counts cs)
    (hb : src.WellFormed) (hs : src.Fits pos counts) (hd : dst.Fits start counts)
    (hsource : ∀ c ∈ cs, source c = List.zipWith (· + ·) pos c.offset)
    (htarget : ∀ c ∈ cs, target c = List.zipWith (· + ·) start c.offset) :
    cs.foldl (fun d c => d.paste (target c) src (source c) c.count) dst =
      dst.paste start src pos counts := by
  have hlen : ∀ c ∈ cs, (addresses dst.axes (target c) c.count).length =
      (gather src.items (addresses src.axes (source c) c.count)).length := fun c hc =>
    (hd.length_addresses_chunk h htarget c hc).trans
      (hs.length_gather_chunk hb h hsource c hc).symm
  rw [foldl_paste_eq hlen, hs.flatMap_addresses h hsource, hd.flatMap_addresses h htarget]
  rfl

theorem part_sublist {p : List Nat} (h : BlockPlan.Tiles p counts cs) (hs : src.Fits pos counts)
    {c : Chunk (List Nat)} (hc : c ∈ cs) :
    ((src.part (List.zipWith (· + ·) pos c.offset) c.count).items).Sublist
      (src.part pos counts).items := by
  refine List.Sublist.filterMap _ ?_
  rw [← h.addresses_eq hs.2, List.flatMap_def]
  exact List.sublist_flatten_of_mem (List.mem_map_of_mem hc)

end Chunks

end Block

namespace Region

section Spans

variable {src dst : List α} {pos start n : Nat} {cs : List (Chunk Nat)}

theorem slice_sublist (xs : List α) {offset count : Nat} (h : offset + count ≤ n) :
    (slice xs (start + offset) count).Sublist (slice xs start n) := by
  have hslice : slice xs (start + offset) count = ((slice xs start n).drop offset).take count := by
    rw [slice, slice, List.drop_take, List.drop_drop, List.take_take, Nat.min_eq_left (by omega)]
  rw [hslice]
  exact (List.take_sublist ..).trans (List.drop_sublist ..)

theorem foldl_splice_eq (hd : ∀ c ∈ cs, start + c.offset + c.count ≤ dst.length)
    (hs : ∀ c ∈ cs, pos + c.offset + c.count ≤ src.length) :
    cs.foldl (fun d c => splice d (start + c.offset) (slice src (pos + c.offset) c.count)) dst =
      scatter dst (cs.flatMap fun c => List.range' (start + c.offset) c.count)
        (gather src (cs.flatMap fun c => List.range' (pos + c.offset) c.count)) := by
  induction cs generalizing dst with
  | nil => simp [scatter]
  | cons c cs ih =>
    obtain ⟨hd0, hd⟩ := List.forall_mem_cons.mp hd
    obtain ⟨hs0, hs⟩ := List.forall_mem_cons.mp hs
    have hlen : (slice src (pos + c.offset) c.count).length = c.count := length_slice hs0
    have hroom : start + c.offset + (slice src (pos + c.offset) c.count).length ≤ dst.length := by
      rw [hlen]
      exact hd0
    rw [List.foldl_cons, ih (by simpa only [length_splice hroom] using hd) hs,
      splice_eq_scatter hroom, hlen, List.flatMap_cons, List.flatMap_cons, gather_append,
      gather_range', scatter_append _ (by rw [List.length_range', hlen])]

theorem flatMap_range' (p n max a : Nat) : ((FlatPlan.make p n max).chunks.flatMap fun c =>
    List.range' (a + c.offset) c.count) = List.range' a n := by
  rw [List.range'_eq_map_range, ← FlatPlan.flatMap_chunks p n max, List.map_flatMap]
  exact List.flatMap_congr fun c _ => (List.map_add_range' ..).symm

theorem foldl_splice (p max : Nat) (hd : start + n ≤ dst.length) (hs : pos + n ≤ src.length) :
    (FlatPlan.make p n max).chunks.foldl
        (fun d c => splice d (start + c.offset) (slice src (pos + c.offset) c.count)) dst =
      splice dst start (slice src pos n) := by
  have hwithin := FlatPlan.chunks_within p n max
  have hlen : (slice src pos n).length = n := length_slice hs
  rw [foldl_splice_eq (fun c hc => by have := hwithin c hc; omega)
    (fun c hc => by have := hwithin c hc; omega), flatMap_range', flatMap_range', gather_range',
    splice_eq_scatter (by rw [hlen]; exact hd), hlen]

end Spans

open Block

variable {region buffer data : Block α} {pos start counts : List Nat}

theorem toDims_eq_ok (h : ∀ n ∈ counts, n < UInt32.size) :
    toDims counts = .ok (counts.map UInt32.ofNat) := by
  rw [toDims, Checked.mapM_eq_ok, List.forall₂_map_right_iff, List.forall₂_same]
  intro n hn
  rw [if_pos (h n hn)]

theorem readBlock_part (hb : region.WellFormed) (h : region.Fits pos counts) :
    readBlock region pos counts = .ok (region.part pos counts) := by
  simp only [readBlock, Checked.bind_eq_ok, extract_eq_ok]
  exact ⟨_, ⟨wellFormed_iff.mp hb, h.1, h.2, rfl⟩, _, toDims_eq_ok h.lt,
    Block.make_eq_ok_iff.mpr ⟨rfl, wellFormed_part hb h⟩⟩

theorem loadBlock_eq_ok (hr : region.WellFormed) (hb : buffer.WellFormed) {out : Block α} :
    loadBlock region pos buffer start counts = .ok out ↔
      region.Fits pos counts ∧ buffer.Fits start counts ∧
        buffer.paste start region pos counts = out := by
  simp only [loadBlock, Checked.bind_eq_ok, copy_eq_ok, wellFormed_iff.mp hr, wellFormed_iff.mp hb,
    true_and, Checked.pure_eq_ok]
  constructor
  · rintro ⟨_, ⟨hf, hf', rfl⟩, rfl⟩
    exact ⟨hf, hf', rfl⟩
  · rintro ⟨hf, hf', rfl⟩
    exact ⟨_, ⟨hf, hf', rfl⟩, rfl⟩

theorem storeBlock_eq_ok (hr : region.WellFormed) (hb : buffer.WellFormed) {out : Block α} :
    storeBlock region pos buffer start counts = .ok out ↔
      buffer.Fits start counts ∧ region.Fits pos counts ∧
        region.paste pos buffer start counts = out :=
  loadBlock_eq_ok hb hr

theorem writeBlock_part (hb : buffer.WellFormed) (hr : region.WellFormed)
    (hs : buffer.Fits start counts) (hd : region.Fits pos counts) :
    writeBlock region pos (buffer.part start counts) =
      .ok (region.paste pos buffer start counts) := by
  have haxes := axes_part hs
  have hcount : count? counts = some (buffer.part start counts).items.length := by
    rw [← wellFormed_iff.mp (wellFormed_part hb hs), haxes]
  have hne : counts ≠ [] := by
    rintro rfl
    exact hs.1 (List.length_eq_zero_iff.mp hs.2.length_counts.symm)
  simp only [writeBlock, haxes, Checked.bind_eq_ok, Checked.pure_eq_ok, copy_eq_ok]
  refine ⟨_, ⟨hcount, wellFormed_iff.mp hr, ⟨hne, .origin counts⟩, hd, rfl⟩, ?_⟩
  rw [← paste_part hb hs, paste, haxes]

end Region

end TypedWire
