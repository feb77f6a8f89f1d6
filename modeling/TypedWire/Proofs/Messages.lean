import TypedWire.Proofs.Payloads
import TypedWire.Proofs.Serving
import TypedWire.Proofs.UntrustedLink

namespace TypedWire

variable {σ τ α β χ : Type}

open TypedWire.Action

theorem keeps_transfer {P : τ → Prop} {stop : τ → Bool} {size : χ → Nat}
    {move : χ → Action τ Unit} {cs : List χ} (h : ∀ c ∈ cs, (move c).Keeps P) (done : Nat) :
    (transfer stop size move done cs).Keeps P := by
  induction cs generalizing done with
  | nil => exact keeps_pure ()
  | cons c cs ih =>
    obtain ⟨hc, htail⟩ := List.forall_mem_cons.mp h
    intro s hs
    cases hstop : stop s with
    | true =>
      rw [outcome, transfer_stop hstop]
      exact hs
    | false =>
      have hstep := (hc.bind fun _ _ _ _ _ => ih htail (done + size c)) s hs
      rwa [outcome, transfer_step hstop]

theorem Transfer.keeps {t : Transfer τ χ} {P : τ → Prop} (hplan : t.plan.Keeps P)
    (hmove : ∀ s cs s', t.plan s = .ok cs s' → ∀ c ∈ cs, (t.move c).Keeps P) (stop : τ → Bool) :
    (t.run stop).Keeps P :=
  hplan.bind fun s cs s' _ h => keeps_transfer (hmove s cs s' h) 0

namespace Link

/-- The link under watch: each element that goes over it is noted, in either direction. -/
def watched (l : Link σ) : Link (σ × List Element) where
  dimensions := .beside l.dimensions
  read q := do
    let e ← Action.beside (l.read q)
    modify fun (s, seen) => (s, seen ++ [e])
    return e
  write q e := do
    modify fun (s, seen) => (s, seen ++ [e])
    Action.beside (l.write q e)

def SeenWithin (Inv : σ → Prop) (limit : Nat) (s : σ × List Element) : Prop :=
  Inv s.1 ∧ ∀ e ∈ s.2, e.payload ≤ limit

section Watched

variable {l : Link σ} {Inv : σ → Prop} {limit : Nat} {q : Request}

theorem keeps_watched_dimensions (h : l.dimensions.Keeps Inv) :
    l.watched.dimensions.Keeps (SeenWithin Inv limit) :=
  keeps_beside fun _ s hs => ⟨h s hs.1, hs.2⟩

theorem keeps_note {e : Element} (he : e.payload ≤ limit) :
    (modify fun (s, seen) => (s, seen ++ [e]) : Action (σ × List Element) PUnit).Keeps
      (SeenWithin Inv limit) := by
  refine keeps_modify fun ⟨s, seen⟩ hs => ⟨hs.1, fun x hx => ?_⟩
  rcases List.mem_append.mp hx with hx | hx
  · exact hs.2 x hx
  · exact List.mem_singleton.mp hx ▸ he

theorem keeps_watched_write {e : Element} (h : (l.write q e).Keeps Inv) (he : e.payload ≤ limit) :
    (l.watched.write q e).Keeps (SeenWithin Inv limit) :=
  (keeps_note he).bind fun _ _ _ _ _ => keeps_beside fun _ s hs => ⟨h s hs.1, hs.2⟩

theorem keeps_watched_read (h : (l.read q).Keeps Inv)
    (he : ∀ s e s', Inv s → l.read q s = .ok e s' → e.payload ≤ limit) :
    (l.watched.read q).Keeps (SeenWithin Inv limit) := by
  refine (keeps_beside fun _ s hs => ⟨h s hs.1, hs.2⟩).bind fun (s, seen) e s' hs hread => ?_
  refine (keeps_note ?_).bind fun _ _ _ _ _ => keeps_pure e
  simp only [beside] at hread
  cases hinner : l.read q s with
  | ok x t =>
    rw [hinner] at hread
    cases hread
    exact he s e t hs.1 hinner
  | error err t =>
    rw [hinner] at hread
    cases hread

theorem keeps_fetch {P : σ → Prop} (h : (l.read q).Keeps P) (f : Element → β → Checked β) :
    (l.fetch q f).Keeps fun s => P s.1 := by
  rintro ⟨s, b⟩ hs
  have hkept := h s hs
  cases hread : l.read q s with
  | error e s' =>
    rw [outcome, hread] at hkept
    rw [outcome, fetch_lost hread]
    exact hkept
  | ok x s' =>
    rw [outcome, hread] at hkept
    cases hx : f x b with
    | error e =>
      rw [outcome, fetch_rejected hread hx]
      exact hkept
    | ok b' =>
      rw [outcome, fetch_ok hread hx]
      exact hkept

theorem keeps_serveFlat_read (codec : ItemCodec α) (q : Request) (P : List α → Prop) :
    ((serveFlat codec).read q).Keeps P := by
  intro r hr
  have hread : ((serveFlat codec).read q).outcome r =
    (ofChecked (repliedFlat codec r q) : Action (List α) Element).outcome r := rfl
  rw [hread, outcome_ofChecked]
  exact hr

theorem keeps_serveBlock_read (codec : ItemCodec α) (q : Request) (P : Block α → Prop) :
    ((serveBlock codec).read q).Keeps P := by
  intro r hr
  have hread : ((serveBlock codec).read q).outcome r =
    (ofChecked (repliedBlock codec r q) : Action (Block α) Element).outcome r := rfl
  rw [hread, outcome_ofChecked]
  exact hr

end Watched

end Link

def Proxy.watched (p : Proxy σ α) : Proxy (σ × List Element) α :=
  ⟨p.link.watched, p.codec, p.limit⟩

namespace Proxy

variable {Γ : Scope} {codec : ItemCodec α} {Sound : α → Prop} {limit : Nat}

theorem mul_size_le {max : Nat} (h : itemsPerMessage limit codec.size = .ok max) {n : Nat}
    (hn : n ≤ max) : n * codec.size ≤ limit := by
  rw [eq_of_itemsPerMessage h] at hn
  exact Nat.le_trans (Nat.mul_le_mul_right _ hn) (Nat.div_mul_le_self limit codec.size)

section Flat

open Region

variable {pos start n : Nat} {dims : List Nat} {c : Chunk Nat} {cs : List (Chunk Nat)}

theorem count_mul_size_le {length : Nat}
    (h : planFlat limit codec.size pos length start n dims = .ok cs) (hc : c ∈ cs) :
    c.count * codec.size ≤ limit := by
  obtain ⟨-, max, hmax, rfl⟩ := planFlat_eq_ok.mp h
  exact mul_size_le hmax (FlatPlan.count_le (pos_of_itemsPerMessage hmax) pos n c hc)

theorem writeFlat_keeps (hc : codec.Measured Γ Sound) (l : Link σ) {buffer : List α}
    (hbuffer : ∀ x ∈ buffer, Sound x) (stop : σ × List Element → Bool) (pos start n : Nat) :
    ((⟨l, codec, limit⟩ : Proxy σ α).watched.writeFlat stop pos buffer start n).Keeps
      (Link.SeenWithin (fun _ => True) limit) := by
  rw [writeFlat_eq_run]
  refine Transfer.keeps ?_ (fun s cs s' hplan c hmem => ?_) stop
  · exact (Link.keeps_watched_dimensions fun _ _ => trivial).bind fun _ _ _ _ _ => keeps_ofChecked _
  · obtain ⟨dims, _, -, hplan⟩ := bind_eq_ok.mp hplan
    have hcount := count_mul_size_le (ofChecked_eq_ok.mp hplan).1 hmem
    refine (keeps_ofChecked _).bind fun _ e _ _ he => ?_
    refine Link.keeps_watched_write (fun _ _ => trivial) (Nat.le_trans ?_ hcount)
    have hslice : ∀ x ∈ slice buffer (start + c.offset) c.count, Sound x := fun x hx =>
      hbuffer x (mem_of_mem_slice hx)
    calc e.payload ≤ (slice buffer (start + c.offset) c.count).length * codec.size :=
          hc.payload_packFlat hslice (ofChecked_eq_ok.mp he).1
      _ ≤ c.count * codec.size := Nat.mul_le_mul_right _ (List.length_take_le ..)

theorem readFlat_keeps (hc : codec.Measured Γ Sound) {region : List α}
    (hregion : ∀ x ∈ region, Sound x) (stop : List α × List Element → Bool) (pos start n : Nat) :
    ((servingFlat codec limit).watched.readFlat stop pos start n).Keeps
      fun s => Link.SeenWithin (· = region) limit s.1 := by
  rw [readFlat_eq_run]
  refine Transfer.keeps ?_ (fun s cs s' hplan c hmem => ?_) _
  · refine (keeps_beside fun _ => ?_).bind fun _ _ _ _ _ => keeps_get.bind fun _ _ _ _ _ =>
      keeps_ofChecked _
    exact Link.keeps_watched_dimensions fun _ hr => hr
  · obtain ⟨dims, _, -, hplan⟩ := bind_eq_ok.mp hplan
    obtain ⟨_, _, -, hplan⟩ := bind_eq_ok.mp hplan
    have hcount := count_mul_size_le (ofChecked_eq_ok.mp hplan).1 hmem
    change ((servingFlat codec limit).watched.loadSpan start c).Keeps _
    rw [loadSpan_eq_fetch]
    refine Link.keeps_fetch (Link.keeps_watched_read ?_ ?_) _
    · exact Link.keeps_serveFlat_read codec _ _
    · rintro r e _ rfl hread
      obtain ⟨pos', n', hq, hroom, he⟩ :=
        Link.repliedFlat_eq_ok.mp (ofChecked_eq_ok.mp hread).1
      cases hq
      have hslice : ∀ x ∈ slice r c.pos c.count, Sound x := fun x hx =>
        hregion x (mem_of_mem_slice hx)
      calc e.payload ≤ (slice r c.pos c.count).length * codec.size :=
            hc.payload_packFlat hslice he
        _ = c.count * codec.size := by rw [length_slice hroom]
        _ ≤ limit := hcount

end Flat

section Blocks

open Region

variable {pos start counts dims : List Nat} {c : Chunk (List Nat)} {cs : List (Chunk (List Nat))}

theorem cellsOf_mul_size_le {buffer : Block α} {max : Nat}
    (hmax : itemsPerMessage limit codec.size = .ok max)
    (h : planBlock dims buffer pos start counts max = .ok cs) (hc : c ∈ cs) :
    cellsOf c.count * codec.size ≤ limit :=
  mul_size_le hmax (BlockPlan.cellsOf_count_le (pos_of_itemsPerMessage hmax)
    (planBlock_eq_ok.mp h).2.2 c hc)

theorem of_readBlock {b data : Block α} (h : Region.readBlock b pos counts = .ok data) :
    data.items.length = cellsOf counts ∧ ∀ x ∈ data.items, x ∈ b.items := by
  simp only [Region.readBlock, Checked.bind_eq_ok, extract_eq_ok] at h
  obtain ⟨_, ⟨hcount, hne, hwithin, rfl⟩, dims, hdims, hmake⟩ := h
  obtain ⟨rfl, -⟩ := Block.make_eq_ok_iff.mp hmake
  have hwf : b.WellFormed := Block.wellFormed_iff.mpr hcount
  exact ⟨Block.length_part hwf ⟨hne, hwithin⟩, fun _ => mem_of_mem_gather⟩

theorem payload_part_le (hc : codec.Measured Γ Sound) {b data : Block α} {e : Element}
    (hb : ∀ x ∈ b.items, Sound x) (hdata : Region.readBlock b pos counts = .ok data)
    (he : codec.packBlock data = .ok e) : e.payload ≤ cellsOf counts * codec.size := by
  obtain ⟨hlen, hitems⟩ := of_readBlock hdata
  rw [← hlen]
  exact hc.payload_packBlock (fun x hx => hb x (hitems x hx)) he

theorem writeBlock_keeps (hc : codec.Measured Γ Sound) (l : Link σ) {buffer : Block α}
    (hbuffer : ∀ x ∈ buffer.items, Sound x) (stop : σ × List Element → Bool)
    (pos start counts : List Nat) :
    ((⟨l, codec, limit⟩ : Proxy σ α).watched.writeBlock stop pos buffer start counts).Keeps
      (Link.SeenWithin (fun _ => True) limit) := by
  rw [writeBlock_eq_run]
  refine Transfer.keeps ?_ (fun s cs s' hplan c hmem => ?_) stop
  · exact (keeps_ofChecked _).bind fun _ _ _ _ _ =>
      (Link.keeps_watched_dimensions fun _ _ => trivial).bind fun _ _ _ _ _ => keeps_ofChecked _
  · obtain ⟨max, _, hmax, hplan⟩ := bind_eq_ok.mp hplan
    obtain ⟨dims, _, -, hplan⟩ := bind_eq_ok.mp hplan
    have hcount := cellsOf_mul_size_le (ofChecked_eq_ok.mp hmax).1 (ofChecked_eq_ok.mp hplan).1 hmem
    refine (keeps_ofChecked _).bind fun _ data _ _ hdata => ?_
    refine (keeps_ofChecked _).bind fun _ e _ _ he => ?_
    refine Link.keeps_watched_write (fun _ _ => trivial) (Nat.le_trans ?_ hcount)
    exact payload_part_le hc hbuffer (ofChecked_eq_ok.mp hdata).1 (ofChecked_eq_ok.mp he).1

theorem readBlock_keeps (hc : codec.Measured Γ Sound) {region : Block α}
    (hregion : ∀ x ∈ region.items, Sound x) (stop : Block α × List Element → Bool)
    (pos start counts : List Nat) :
    ((serving codec limit).watched.readBlock stop pos start counts).Keeps
      fun s => Link.SeenWithin (· = region) limit s.1 := by
  rw [readBlock_eq_run]
  refine Transfer.keeps ?_ (fun s cs s' hplan c hmem => ?_) _
  · refine (keeps_ofChecked _).bind fun _ _ _ _ _ => (keeps_beside fun _ => ?_).bind
      fun _ _ _ _ _ => keeps_get.bind fun _ _ _ _ _ => keeps_ofChecked _
    exact Link.keeps_watched_dimensions fun _ hr => hr
  · obtain ⟨max, _, hmax, hplan⟩ := bind_eq_ok.mp hplan
    obtain ⟨dims, _, -, hplan⟩ := bind_eq_ok.mp hplan
    obtain ⟨_, _, -, hplan⟩ := bind_eq_ok.mp hplan
    have hcount := cellsOf_mul_size_le (ofChecked_eq_ok.mp hmax).1 (ofChecked_eq_ok.mp hplan).1 hmem
    change ((serving codec limit).watched.loadChunk start c).Keeps _
    rw [loadChunk_eq_fetch]
    refine Link.keeps_fetch (Link.keeps_watched_read ?_ ?_) _
    · exact Link.keeps_serveBlock_read codec _ _
    · rintro r e _ rfl hread
      obtain ⟨data, hdata, he⟩ := Checked.bind_eq_ok.mp (ofChecked_eq_ok.mp hread).1
      exact Nat.le_trans (payload_part_le hc hregion hdata he) hcount

end Blocks

/-- Under whatever limit, no element that a proxy sends in a write, over any link, and none that the
owner of the region sends for a read, carries more bytes than the limit. -/
theorem messages_within (hc : codec.Measured Γ Sound) (limit : Nat) :
    (∀ (l : Link σ) (s : σ) (stop : σ × List Element → Bool),
      (∀ (buffer : List α) (pos start n : Nat), (∀ x ∈ buffer, Sound x) →
        let write := (⟨l, codec, limit⟩ : Proxy σ α).watched.writeFlat stop pos buffer start n
        ∀ e ∈ (write.outcome (s, [])).2.2, e.payload ≤ limit) ∧
      (∀ (buffer : Block α) (pos start counts : List Nat), (∀ x ∈ buffer.items, Sound x) →
        let write := (⟨l, codec, limit⟩ : Proxy σ α).watched.writeBlock stop pos buffer start counts
        ∀ e ∈ (write.outcome (s, [])).2.2, e.payload ≤ limit)) ∧
    (∀ (region buffer : List α) (stop : List α × List Element → Bool) (pos start n : Nat),
      (∀ x ∈ region, Sound x) →
      let read := (servingFlat codec limit).watched.readFlat stop pos start n
      ∀ e ∈ (read.outcome ((region, []), buffer)).2.1.2, e.payload ≤ limit) ∧
    (∀ (region buffer : Block α) (stop : Block α × List Element → Bool)
      (pos start counts : List Nat), (∀ x ∈ region.items, Sound x) →
      let read := (serving codec limit).watched.readBlock stop pos start counts
      ∀ e ∈ (read.outcome ((region, []), buffer)).2.1.2, e.payload ≤ limit) := by
  have hnone : ∀ e ∈ ([] : List Element), e.payload ≤ limit := List.forall_mem_nil _
  refine ⟨fun l s stop => ⟨fun buffer pos start n hbuffer => ?_,
    fun buffer pos start counts hbuffer => ?_⟩, fun region buffer stop pos start n hregion => ?_,
    fun region buffer stop pos start counts hregion => ?_⟩
  · exact (writeFlat_keeps hc l hbuffer stop pos start n (s, []) ⟨trivial, hnone⟩).2
  · exact (writeBlock_keeps hc l hbuffer stop pos start counts (s, []) ⟨trivial, hnone⟩).2
  · exact (readFlat_keeps hc hregion stop pos start n ((region, []), buffer) ⟨rfl, hnone⟩).2
  · exact (readBlock_keeps hc hregion stop pos start counts ((region, []), buffer) ⟨rfl, hnone⟩).2

theorem messages_within_points : ∃ codec, ItemCodec.pod Geo.scope "geo.Point" = .ok codec ∧
    let points := [Geo.pointAt 7 7, Geo.pointAt 8 8, Geo.pointAt 9 9, Geo.pointAt 0 9]
    let proxy := (⟨.serveFlat codec, codec, 9⟩ : Proxy (List (Record Value)) (Record Value)).watched
    let sent := ((proxy.writeFlat (fun _ => false) 0 points 0 4).outcome (points, [])).2.2
    sent.length = 2 ∧ ∀ e ∈ sent, e.payload ≤ 9 := by
  refine ⟨_, rfl, rfl, ?_⟩
  have hpoint : Geo.point.Resolved Geo.scope := by
    refine .make ?_ (show PodType.make "geo.Point" [.scalar "x" .int16, .scalar "y" .int16] =
      .ok Geo.point from rfl)
    simp [PodMember.Resolved.scalar]
  have hsound : ∀ x ∈ [Geo.pointAt 7 7, Geo.pointAt 8 8, Geo.pointAt 9 9, Geo.pointAt 0 9],
      Value.RecordWellFormed x := by
    simp [Geo.pointAt_wellFormed]
  exact ((messages_within (.pod (t := "geo.Point") rfl hpoint rfl) 9).1 _ _ _).1 _ 0 0 4 hsound

end Proxy

end TypedWire
