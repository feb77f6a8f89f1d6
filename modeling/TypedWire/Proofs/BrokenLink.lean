import TypedWire.Proofs.Prefixes
import TypedWire.Proofs.RemoteBlock
import TypedWire.Proofs.RemoteFlat

namespace TypedWire

variable {σ τ α χ : Type}

namespace Action

variable {j : Nat} {e : WireError} {r : Access × Request} {a : Action σ α} {s s' : σ} {x : α}
  {log : List (Access × Request)}

end Action

namespace Link

end Link

/-- The codec carries whatever part of these items one message has room for. -/
def CarriesMessages (Carries : List α → Prop) (max : Nat) (items : List α) : Prop :=
  ∀ xs, xs.Sublist items → xs.length ≤ max → Carries xs

namespace Proxy

variable {Γ : Scope} {codec : ItemCodec α} {Carries : List α → Prop} {limit j : Nat}
  {e : WireError}

section Flat

open Region

variable {region buffer : List α} {pos start n : Nat}

theorem carries_spans (hsize : 0 < codec.size) (hlimit : codec.size ≤ limit)
    (h : start + n ≤ buffer.length)
    (hcarry : CarriesMessages Carries (limit / codec.size) (slice buffer start n)) (p : Nat) :
    ∀ c ∈ (FlatPlan.make p n (limit / codec.size)).chunks,
      Carries (slice buffer (start + c.offset) c.count) := by
  intro c hc
  have hwithin := FlatPlan.chunks_within p n (limit / codec.size) c hc
  have hcount := FlatPlan.count_le (Nat.div_pos hlimit hsize) p n c hc
  refine hcarry _ (slice_sublist buffer hwithin) ?_
  rw [length_slice (by omega)]
  exact hcount

end Flat

section Blocks

open Block

variable {region buffer : Block α} {pos start counts : List Nat} {cs : List (Chunk (List Nat))}

theorem carries_parts (hsize : 0 < codec.size) (hlimit : codec.size ≤ limit)
    (hb : buffer.WellFormed) (hf : buffer.Fits start counts)
    (hcarry : CarriesMessages Carries (limit / codec.size) (buffer.part start counts).items)
    (hplan : BlockPlan.make pos counts (limit / codec.size) = .ok cs) :
    ∀ c ∈ cs, Carries (buffer.part (chunkStart start c) c.count).items := by
  intro c hc
  have htiles := BlockPlan.tiles_of_make hplan
  have hcount := BlockPlan.cellsOf_count_le (Nat.div_pos hlimit hsize) hplan c hc
  refine hcarry _ (part_sublist htiles hf hc) ?_
  exact Nat.le_trans (Nat.le_of_eq (length_part hb (hf.chunk htiles hc))) hcount

end Blocks

end Proxy

end TypedWire
