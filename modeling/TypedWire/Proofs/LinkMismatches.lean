import TypedWire.Proofs.PackingMismatches
import TypedWire.Proofs.Plans
import TypedWire.Proofs.Transfers
import TypedWire.Link

namespace TypedWire

open Checked

namespace Action

variable {σ α β : Type} {a : Action σ α} {f : α → Action σ β}

def Telling (a : Action σ α) : Prop := ∀ s, (a.outcome s).1.Telling

theorem Telling.bind_of (ha : a.Telling) (hf : ∀ s x s', a s = .ok x s' → (f x).Telling) :
    (a >>= f).Telling := by
  intro s
  have hs := ha s
  cases h : a s with
  | ok x s' =>
    rw [outcome_bind_ok h]
    exact hf s x s' h s'
  | error e s' =>
    rw [outcome, h] at hs
    rw [outcome_bind_error h]
    exact telling_error_iff.mpr (telling_error_iff.mp hs)

theorem Telling.bind (ha : a.Telling) (hf : ∀ x, (f x).Telling) : (a >>= f).Telling :=
  ha.bind_of fun _ x _ _ => hf x

theorem telling_pure (x : α) : (pure x : Action σ α).Telling := fun _ => telling_ok x

theorem telling_throw {e : WireError} (h : e.Telling) : (throw e : Action σ α).Telling :=
  fun _ => telling_error_iff.mpr h

theorem telling_get : (get : Action σ σ).Telling := fun s => telling_ok s

theorem telling_set (s : σ) : (set s : Action σ PUnit).Telling := fun _ => telling_ok ()

theorem telling_ofChecked {x : Checked α} (h : x.Telling) : (ofChecked x : Action σ α).Telling := by
  intro s
  rwa [outcome_ofChecked]

theorem Telling.beside {τ : Type} (h : a.Telling) : (beside a : Action (σ × τ) α).Telling := by
  rintro ⟨s, b⟩
  rw [outcome_beside]
  exact h s

end Action

section Regions

theorem ne_of_length {xs ys : List Nat} (h : ¬ys.length = xs.length) : xs ≠ ys :=
  (ne_of_apply_ne List.length h).symm

namespace Region

variable {α : Type}

@[simp] theorem telling_cellCount (counts : List Nat) : (cellCount counts).Telling := by
  unfold cellCount
  split <;> simp

@[simp] theorem telling_expectSpan (what : String) (length pos n : Nat) :
    (expectSpan what length pos n).Telling := by
  simp [expectSpan]

@[simp] theorem telling_expectAxes (what : String) (axis : Nat) (dims pos counts : List Nat) :
    (expectAxes what axis dims pos counts).Telling := by
  induction dims generalizing axis pos counts with
  | nil => simp [expectAxes]
  | cons d dims ih => cases pos <;> cases counts <;> simp [expectAxes, ih]

@[simp] theorem telling_expectPart (what : String) (dims pos counts : List Nat) :
    (expectPart what dims pos counts).Telling := by
  simp +contextual [expectPart, ne_of_length]

@[simp] theorem telling_expectVolume (n : Nat) (dims : List Nat) :
    (expectVolume n dims).Telling := by
  simp [expectVolume]

@[simp] theorem telling_copy (src : List α) (srcDims srcPos : List Nat) (dst : List α)
    (dstDims dstPos counts : List Nat) :
    (copy src srcDims srcPos dst dstDims dstPos counts).Telling := by
  simp [copy]

@[simp] theorem telling_extract (src : List α) (dims pos counts : List Nat) :
    (extract src dims pos counts).Telling := by
  simp [extract]

@[simp] theorem telling_toDims (counts : List Nat) : (toDims counts).Telling :=
  telling_mapM fun n _ => by simp

@[simp] theorem telling_readFlat (region : List α) (pos n : Nat) :
    (readFlat region pos n).Telling := by
  simp [readFlat]

@[simp] theorem telling_writeFlat (region : List α) (pos : Nat) (values : List α) :
    (writeFlat region pos values).Telling := by
  simp [writeFlat]

@[simp] theorem telling_loadFlat (region : List α) (pos : Nat) (buffer : List α) (start n : Nat) :
    (loadFlat region pos buffer start n).Telling := by
  simp [loadFlat]

@[simp] theorem telling_storeFlat (region : List α) (pos : Nat) (buffer : List α)
    (start n : Nat) : (storeFlat region pos buffer start n).Telling := by
  simp [storeFlat]

@[simp] theorem telling_readBlock (region : Block α) (pos counts : List Nat) :
    (readBlock region pos counts).Telling := by
  simp [readBlock]

@[simp] theorem telling_writeBlock (region : Block α) (pos : List Nat) (values : Block α) :
    (writeBlock region pos values).Telling := by
  simp [writeBlock]

@[simp] theorem telling_loadBlock (region : Block α) (pos : List Nat) (buffer : Block α)
    (start counts : List Nat) : (loadBlock region pos buffer start counts).Telling := by
  simp [loadBlock]

@[simp] theorem telling_storeBlock (region : Block α) (pos : List Nat) (buffer : Block α)
    (start counts : List Nat) : (storeBlock region pos buffer start counts).Telling := by
  simp [storeBlock]

end Region

@[simp] theorem FlatPlan.telling_takeChecked (n : Nat) (p : FlatPlan) :
    (p.takeChecked n).Telling := by
  simp [takeChecked]

@[simp] theorem telling_itemsPerMessage (limit size : Nat) :
    (itemsPerMessage limit size).Telling := by
  simp [itemsPerMessage]

namespace BlockPlan

@[simp] theorem telling_expectNoWrap (pos count : List Nat) : (expectNoWrap pos count).Telling := by
  induction pos generalizing count with
  | nil => simp [expectNoWrap]
  | cons p pos ih => cases count <;> simp [expectNoWrap, ih]

@[simp] theorem telling_make (pos count : List Nat) (max : Nat) : (make pos count max).Telling := by
  simp +contextual [make, ne_of_length]

end BlockPlan

end Regions

section Links

/-- No single count without a single position: a misfit looks flat and is not. -/
def Request.Fits (q : Request) : Prop := q.count.length = 1 → q.pos.length = 1

theorem Request.telling_span_iff (q : Request) : q.span.Telling ↔ q.Fits := by
  unfold span
  split
  · simp [Fits]
  · rename_i hflat
    obtain ⟨pos, count⟩ := q
    have hone : count.length = 1 → pos.length ≠ 1 := by
      intro hcount hpos
      obtain ⟨p, rfl⟩ := List.length_eq_one_iff.mp hpos
      obtain ⟨n, rfl⟩ := List.length_eq_one_iff.mp hcount
      exact hflat p n rfl
    rw [telling_error_iff, Fits]
    constructor
    · intro hne hcount
      exact absurd (by rw [rank, hcount]) hne
    · intro hfits heq
      have hcount : count.length = 1 := (List.singleton_inj.mp heq).symm
      exact hone hcount (hfits hcount)

variable {σ τ α χ : Type} {Asks : Request → Prop}

structure Link.Telling (l : Link σ) (Asks : Request → Prop) : Prop where
  dimensions : l.dimensions.Telling
  read : ∀ q, Asks q → (l.read q).Telling
  write : ∀ q, Asks q → ∀ e, (l.write q e).Telling

theorem telling_transfer {stop : τ → Bool} {size : χ → Nat} {move : χ → Action τ Unit}
    {cs : List χ} (h : ∀ c ∈ cs, (move c).Telling) (done : Nat) :
    (transfer stop size move done cs).Telling := by
  induction cs generalizing done with
  | nil => exact Action.telling_pure ()
  | cons c cs ih =>
    obtain ⟨hc, htail⟩ := List.forall_mem_cons.mp h
    intro s
    cases hstop : stop s with
    | true =>
      rw [Action.outcome, transfer_stop hstop]
      simp
    | false =>
      have hstep := hc.bind (fun _ => ih htail (done + size c)) s
      rwa [Action.outcome, transfer_step hstop]

theorem Transfer.telling {t : Transfer τ χ} (hplan : t.plan.Telling)
    (hmove : ∀ s cs s', t.plan s = .ok cs s' → ∀ c ∈ cs, (t.move c).Telling) (stop : τ → Bool) :
    (t.run stop).Telling :=
  hplan.bind_of fun s cs s' h => telling_transfer (hmove s cs s' h) 0

namespace Link

section Served

variable {codec : ItemCodec α}

theorem telling_serveFlat_read_iff (hc : codec.Telling) (q : Request) :
    ((serveFlat codec).read q).Telling ↔ q.Fits := by
  rw [← q.telling_span_iff]
  constructor
  · intro h err hspan
    refine h [] err ?_
    simp only [serveFlat, hspan]
    rfl
  · intro h
    refine Action.telling_get.bind fun region => Action.telling_ofChecked ?_
    simp [h, hc.packFlat]

theorem telling_serveFlat_write_iff (hc : codec.Telling) (q : Request) (e : Element) :
    ((serveFlat codec).write q e).Telling ↔ q.Fits := by
  rw [← q.telling_span_iff]
  constructor
  · intro h err hspan
    refine h [] err ?_
    simp only [serveFlat, hspan]
    rfl
  · intro h
    refine Action.telling_get.bind fun region => ?_
    refine (Action.telling_ofChecked ?_).bind fun values => Action.telling_set values
    simp [h, hc.unpackFlat, eq_comm]

theorem telling_serveFlat (hc : codec.Telling) : (serveFlat codec).Telling Request.Fits where
  dimensions := Action.telling_get.bind fun _ => Action.telling_pure _
  read q := (telling_serveFlat_read_iff hc q).mpr
  write q hq e := (telling_serveFlat_write_iff hc q e).mpr hq

theorem telling_serveBlock (hc : codec.Telling) : (serveBlock codec).Telling fun _ => True where
  dimensions := Action.telling_get.bind fun _ => Action.telling_pure _
  read q _ := by
    refine Action.telling_get.bind fun region => Action.telling_ofChecked ?_
    simp [hc.packBlock]
  write q _ e := by
    refine Action.telling_get.bind fun region => ?_
    refine (Action.telling_ofChecked ?_).bind fun values => Action.telling_set values
    simp [hc.unpackBlock, eq_comm]

end Served

end Link

namespace Proxy

@[simp] theorem telling_onlyAxis (dims : List Nat) : (onlyAxis dims).Telling := by
  unfold onlyAxis
  split
  · simp
  · rename_i hone
    rw [telling_error_iff]
    exact fun heq => one_ne_length hone (List.singleton_inj.mp heq)

@[simp] theorem telling_expectRoom (dims : List Nat) (pos length start n : Nat) :
    (expectRoom dims pos length start n).Telling := by
  simp [expectRoom]

@[simp] theorem telling_placeFlat (buffer : List α) (start : Nat) (values : List α)
    (expected : Nat) : (placeFlat buffer start values expected).Telling := by
  simp [placeFlat, eq_comm]

@[simp] theorem telling_planFlat (limit size pos length start n : Nat) (dims : List Nat) :
    (planFlat limit size pos length start n dims).Telling := by
  simp [planFlat]

@[simp] theorem telling_planBlock (dims : List Nat) (buffer : Block α) (pos start counts : List Nat)
    (max : Nat) : (planBlock dims buffer pos start counts max).Telling := by
  simp [planBlock]

@[simp] theorem telling_placeBlock (buffer : Block α) (start : List Nat) (c : Chunk (List Nat))
    (data : Block α) : (placeBlock buffer start c data).Telling := by
  simp [placeBlock, eq_comm]

theorem fitting_of_planBlock {dims : List Nat} {buffer : Block α} {pos start counts : List Nat}
    {max : Nat} {cs : List (Chunk (List Nat))}
    (h : planBlock dims buffer pos start counts max = .ok cs) :
    ∀ c ∈ cs, Request.Fits ⟨c.pos, c.count⟩ := by
  obtain ⟨-, -, hmake⟩ := planBlock_eq_ok.mp h
  have hlen := (BlockPlan.make_eq_ok.mp hmake).1
  have htiles := BlockPlan.tiles_of_make hmake
  intro c hc hcount
  have hwithin := htiles.within c hc
  simp only at hcount ⊢
  rw [htiles.pos_eq c hc, List.length_zipWith, hlen, hwithin.length_pos, Nat.min_self,
    ← hwithin.length_counts, hcount]

variable {p : Proxy σ α} (hc : p.codec.Telling) (hl : p.link.Telling Request.Fits)

include hl in
theorem telling_length : p.length.Telling :=
  hl.dimensions.bind fun _ => Action.telling_ofChecked (telling_onlyAxis _)

include hl in
theorem telling_requireDims (expected : List Nat) : (p.requireDims expected).Telling := by
  refine hl.dimensions.bind fun dims => ?_
  split
  · exact Action.telling_throw (Ne.symm ‹_›)
  · exact Action.telling_pure _

include hc hl

theorem telling_readFlat (stop : σ → Bool) (pos start n : Nat) :
    (p.readFlat stop pos start n).Telling := by
  rw [readFlat_eq_run]
  refine Transfer.telling ?_ (fun s cs s' _ c _ => ?_) _
  · refine hl.dimensions.beside.bind fun dims => Action.telling_get.bind fun s => ?_
    exact Action.telling_ofChecked (by simp)
  · have hfits : Request.Fits (.flat c.pos c.count) := fun _ => rfl
    refine (hl.read _ hfits).beside.bind fun e => ?_
    refine (Action.telling_ofChecked (hc.unpackFlat e)).bind fun values => ?_
    refine Action.telling_get.bind fun s => ?_
    exact (Action.telling_ofChecked (by simp)).bind fun b => Action.telling_set _

theorem telling_writeFlat (stop : σ → Bool) (pos : Nat) (buffer : List α) (start n : Nat) :
    (p.writeFlat stop pos buffer start n).Telling := by
  rw [writeFlat_eq_run]
  refine Transfer.telling ?_ (fun s cs s' _ c _ => ?_) _
  · refine hl.dimensions.bind fun dims => ?_
    exact Action.telling_ofChecked (by simp)
  · have hfits : Request.Fits (.flat c.pos c.count) := fun _ => rfl
    exact (Action.telling_ofChecked (hc.packFlat _)).bind fun e => hl.write _ hfits e

theorem telling_readBlock (stop : σ → Bool) (pos start counts : List Nat) :
    (p.readBlock stop pos start counts).Telling := by
  rw [readBlock_eq_run]
  refine Transfer.telling ?_ (fun s cs s' hplan c hmem => ?_) _
  · refine (Action.telling_ofChecked (by simp)).bind fun max => ?_
    refine hl.dimensions.beside.bind fun dims => Action.telling_get.bind fun s => ?_
    exact Action.telling_ofChecked (by simp)
  · simp only [blockRead, Action.bind_eq_ok, Action.ofChecked_eq_ok] at hplan
    obtain ⟨_, _, -, _, _, -, _, _, -, hcs, -⟩ := hplan
    refine (hl.read _ (fitting_of_planBlock hcs c hmem)).beside.bind fun e => ?_
    refine (Action.telling_ofChecked (hc.unpackBlock e)).bind fun data => ?_
    refine Action.telling_get.bind fun s => ?_
    exact (Action.telling_ofChecked (by simp)).bind fun b => Action.telling_set _

theorem telling_writeBlock (stop : σ → Bool) (pos : List Nat) (buffer : Block α)
    (start counts : List Nat) : (p.writeBlock stop pos buffer start counts).Telling := by
  rw [writeBlock_eq_run]
  refine Transfer.telling ?_ (fun s cs s' hplan c hmem => ?_) _
  · refine (Action.telling_ofChecked (by simp)).bind fun max => ?_
    refine hl.dimensions.bind fun dims => ?_
    exact Action.telling_ofChecked (by simp)
  · simp only [blockWrite, Action.bind_eq_ok, Action.ofChecked_eq_ok] at hplan
    obtain ⟨_, _, -, _, _, -, hcs, -⟩ := hplan
    refine (Action.telling_ofChecked (by simp)).bind fun data => ?_
    refine (Action.telling_ofChecked (hc.packBlock data)).bind fun e => ?_
    exact hl.write _ (fitting_of_planBlock hcs c hmem) e

end Proxy

end Links

end TypedWire
