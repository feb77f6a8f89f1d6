import TypedWire.Proofs.Pasting

namespace TypedWire

variable {α β χ : Type}

theorem flatMap_firsts (f : χ → List β) (cs : List χ) (j : Nat) :
    (cs.take j).flatMap f = (cs.flatMap f).take ((cs.take j).map fun c => (f c).length).sum := by
  conv_rhs => rw [← List.take_append_drop j cs, List.flatMap_append]
  rw [List.take_append_drop, ← List.length_flatMap, List.take_left]

theorem sum_firsts_le {size : χ → Nat} (f : χ → List β) {cs : List χ} (j : Nat)
    (h : ∀ c ∈ cs, (f c).length = size c) :
    ((cs.take j).map size).sum ≤ (cs.flatMap f).length := by
  have hsize : (cs.take j).map size = (cs.take j).map fun c => (f c).length :=
    List.map_congr_left fun c hc => (h c (List.mem_of_mem_take hc)).symm
  have hlen := congrArg List.length (flatMap_firsts f cs j)
  rw [List.length_flatMap, List.length_take, ← hsize] at hlen
  rw [hlen]
  exact Nat.min_le_right ..

namespace Region

/-- The first `n` items at `froms` stand at `tos`, in that order; all else is as it was. -/
structure Moved (n : Nat) (src : List α) (froms : List Nat) (dst : List α) (tos : List Nat)
    (out : List α) : Prop where
  moved : ∀ i < n, ∃ a b x, froms[i]? = some a ∧ tos[i]? = some b ∧ src[a]? = some x ∧
    out[b]? = some x
  kept : SameOutside (tos.take n) dst out

theorem moved_scatter {n : Nat} {src dst : List α} {froms tos : List Nat} (hn : n ≤ tos.length)
    (hlen : froms.length = tos.length) (hfroms : ∀ a ∈ froms, a < src.length)
    (htos : ∀ b ∈ tos, b < dst.length) (hnodup : tos.Nodup) :
    Moved n src froms dst tos (scatter dst (tos.take n) (gather src (froms.take n))) where
  moved i hi := by
    obtain ⟨a, ha⟩ : ∃ a, froms[i]? = some a := ⟨_, List.getElem?_eq_getElem (by omega)⟩
    obtain ⟨b, hb⟩ : ∃ b, tos[i]? = some b := ⟨_, List.getElem?_eq_getElem (by omega)⟩
    obtain ⟨x, hx⟩ : ∃ x, src[a]? = some x :=
      ⟨_, List.getElem?_eq_getElem (hfroms a (List.mem_of_getElem? ha))⟩
    have hfirst : (froms.take n)[i]? = some a := (List.getElem?_take_of_lt hi).trans ha
    have hvalue : (gather src (froms.take n))[i]? = some x :=
      (getElem?_gather (fun a ha => hfroms a (List.mem_of_mem_take ha)) hfirst).trans hx
    refine ⟨a, b, x, ha, hb, hx, ?_⟩
    exact getElem?_scatter_self (hnodup.sublist (List.take_sublist ..))
      ((List.getElem?_take_of_lt hi).trans hb) hvalue (htos b (List.mem_of_getElem? hb))
  kept := (SameOutside.refl _ _).scatter (fun _ h => h) _

section Spans

variable {src dst : List α} {pos start n : Nat}

theorem moved_of_spans (p max : Nat) (hs : pos + n ≤ src.length) (hd : start + n ≤ dst.length)
    (j : Nat) :
    let cs := (FlatPlan.make p n max).chunks
    Moved ((cs.take j).map (·.count)).sum src (List.range' pos n) dst (List.range' start n)
      ((cs.take j).foldl
        (fun d c => splice d (start + c.offset) (slice src (pos + c.offset) c.count)) dst) := by
  intro cs
  have hwithin : ∀ c ∈ cs.take j, c.offset + c.count ≤ n := fun c hc =>
    FlatPlan.chunks_within p n max c (List.mem_of_mem_take hc)
  have hle : ((cs.take j).map (·.count)).sum ≤ (List.range' start n).length := by
    rw [← flatMap_range' p n max start]
    exact sum_firsts_le _ j fun c _ => List.length_range'
  have hspan : ∀ a, (cs.take j).flatMap (fun c => List.range' (a + c.offset) c.count) =
      (List.range' a n).take ((cs.take j).map (·.count)).sum := by
    intro a
    rw [flatMap_firsts, flatMap_range']
    simp only [List.length_range']
  rw [foldl_splice_eq (fun c hc => by have := hwithin c hc; omega)
    (fun c hc => by have := hwithin c hc; omega), hspan, hspan]
  refine moved_scatter hle (by simp only [List.length_range']) ?_ ?_ List.nodup_range'
  · intro a ha
    rw [List.mem_range'_1] at ha
    omega
  · intro a ha
    rw [List.mem_range'_1] at ha
    omega

end Spans

end Region

namespace Block

open Region

variable {src dst : Block α} {pos start counts : List Nat} {cs : List (Chunk (List Nat))}
  {source target : Chunk (List Nat) → List Nat}

structure Moved (n : Nat) (src : Block α) (pos : List Nat) (dst : Block α)
    (start counts : List Nat) (out : Block α) : Prop where
  dims_eq : out.dims = dst.dims
  items : Region.Moved n src.items (addresses src.axes pos counts) dst.items
    (addresses dst.axes start counts) out.items

theorem moved_of_chunks {p : List Nat} (h : BlockPlan.Tiles p counts cs) (hb : src.WellFormed)
    (hb' : dst.WellFormed) (hs : src.Fits pos counts) (hd : dst.Fits start counts)
    (hsource : ∀ c ∈ cs, source c = List.zipWith (· + ·) pos c.offset)
    (htarget : ∀ c ∈ cs, target c = List.zipWith (· + ·) start c.offset) (j : Nat) :
    Moved ((cs.take j).map fun c => cellsOf c.count).sum src pos dst start counts
      ((cs.take j).foldl (fun d c => d.paste (target c) src (source c) c.count) dst) := by
  have hfrom := hs.length_addresses_chunk h hsource
  have hto := hd.length_addresses_chunk h htarget
  have hlen : ∀ c ∈ cs.take j, (addresses dst.axes (target c) c.count).length =
      (gather src.items (addresses src.axes (source c) c.count)).length := by
    intro c hc
    have hmem := List.mem_of_mem_take hc
    rw [hto c hmem, hs.length_gather_chunk hb h hsource c hmem]
  have hsum : ∀ f : Chunk (List Nat) → List Nat, (∀ c ∈ cs, (f c).length = cellsOf c.count) →
      ((cs.take j).map fun c => (f c).length).sum =
        ((cs.take j).map fun c => cellsOf c.count).sum := fun f hf =>
    congrArg _ (List.map_congr_left fun c hc => hf c (List.mem_of_mem_take hc))
  rw [foldl_paste_eq hlen, flatMap_firsts, flatMap_firsts, hsum _ hfrom, hsum _ hto,
    hs.flatMap_addresses h hsource, hd.flatMap_addresses h htarget]
  refine ⟨rfl, moved_scatter ?_ ?_ ?_ ?_ (nodup_addresses hd.2)⟩
  · rw [← hd.flatMap_addresses h htarget]
    exact sum_firsts_le _ j hto
  · rw [length_addresses hs.2, length_addresses hd.2]
  · rw [hb.length_items]
    exact addresses_lt hs.2
  · rw [hb'.length_items]
    exact addresses_lt hd.2

end Block

end TypedWire
