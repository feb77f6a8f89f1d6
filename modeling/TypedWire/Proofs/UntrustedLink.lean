import TypedWire.Proofs.Pasting
import TypedWire.Proofs.Taps

namespace TypedWire

variable {σ α β χ : Type}

structure Fetched (σ β χ : Type) where
  asked : List χ
  result : Checked Unit
  state : σ
  buffer : β

namespace Link

/-- Every answer to a question for the dimensions is a list of 64-bit words. -/
def ReportsWords (l : Link σ) : Prop :=
  ∀ s dims s', l.dimensions s = .ok dims s' → ∀ d ∈ dims, d < wordBound

/-- The chunks are asked for one after the other, and each answer goes into the buffer; the first
error, of the link or of the buffer that does not take the answer, is the end. -/
inductive Fetches (l : Link σ) (request : χ → Request) (accept : χ → Element → β → Checked β) :
    List χ → σ → β → Fetched σ β χ → Prop
  | done {s b} : Fetches l request accept [] s b ⟨[], .ok (), s, b⟩
  | lost {c cs s s' b e} : l.read (request c) s = .error e s' →
      Fetches l request accept (c :: cs) s b ⟨[c], .error e, s', b⟩
  | rejected {c cs s s' b x e} : l.read (request c) s = .ok x s' → accept c x b = .error e →
      Fetches l request accept (c :: cs) s b ⟨[c], .error e, s', b⟩
  | next {c cs s s' b b' x out} : l.read (request c) s = .ok x s' → accept c x b = .ok b' →
      Fetches l request accept cs s' b' out →
      Fetches l request accept (c :: cs) s b { out with asked := c :: out.asked }

inductive Reads (l : Link σ) (plan : List Nat → Checked (List χ)) (request : χ → Request)
    (accept : χ → Element → β → Checked β) (s : σ) (b : β) : Fetched σ β χ → Prop
  | lost {s' e} : l.dimensions s = .error e s' →
      Reads l plan request accept s b ⟨[], .error e, s', b⟩
  | refused {s' dims e} : l.dimensions s = .ok dims s' → plan dims = .error e →
      Reads l plan request accept s b ⟨[], .error e, s', b⟩
  | planned {s' dims cs out} : l.dimensions s = .ok dims s' → plan dims = .ok cs →
      l.Fetches request accept cs s' b out → Reads l plan request accept s b out

def fetch (l : Link σ) (q : Request) (accept : Element → β → Checked β) : Action (σ × β) Unit := do
  let e ← Action.beside (l.read q)
  let (s, b) ← get
  set (s, ← .ofChecked (accept e b))

section Runs

variable {l : Link σ} {s s' : σ} {b b' : β} {e : WireError} {x : Element} {q : Request}
  {f : Element → β → Checked β}

theorem fetch_lost (h : l.read q s = .error e s') : l.fetch q f (s, b) = .error e (s', b) :=
  Action.bind_error (Action.beside_error h)

theorem fetch_rejected (h : l.read q s = .ok x s') (hx : f x b = .error e) :
    l.fetch q f (s, b) = .error e (s', b) := by
  unfold fetch
  rw [Action.bind_ok (Action.beside_ok h)]
  exact Action.bind_refused hx

theorem fetch_ok (h : l.read q s = .ok x s') (hx : f x b = .ok b') :
    l.fetch q f (s, b) = .ok () (s', b') := by
  unfold fetch
  rw [Action.bind_ok (Action.beside_ok h)]
  exact Action.bind_ofChecked hx

theorem fetch_eq_ok {s s' : σ × β} : l.fetch q f s = .ok () s' ↔
    ∃ x, l.read q s.1 = .ok x s'.1 ∧ f x s.2 = .ok s'.2 := by
  obtain ⟨s, b⟩ := s
  constructor
  · intro h
    cases hread : l.read q s with
    | error e t => cases (fetch_lost hread).symm.trans h
    | ok x t =>
      cases hx : f x b with
      | error e => cases (fetch_rejected hread hx).symm.trans h
      | ok b' =>
        cases (fetch_ok hread hx).symm.trans h
        exact ⟨x, rfl, hx⟩
  · rintro ⟨x, hread, hx⟩
    exact fetch_ok hread hx

theorem fetch_eq_error {s s' : σ × β} : l.fetch q f s = .error e s' ↔
    (l.read q s.1 = .error e s'.1 ∨ ∃ x, l.read q s.1 = .ok x s'.1 ∧ f x s.2 = .error e) ∧
      s'.2 = s.2 := by
  obtain ⟨s, b⟩ := s
  constructor
  · intro h
    cases hread : l.read q s with
    | error e t =>
      cases (fetch_lost hread).symm.trans h
      exact ⟨.inl rfl, rfl⟩
    | ok x t =>
      cases hx : f x b with
      | ok b' => cases (fetch_ok hread hx).symm.trans h
      | error e =>
        cases (fetch_rejected hread hx).symm.trans h
        exact ⟨.inr ⟨x, rfl, hx⟩, rfl⟩
  · obtain ⟨s', b'⟩ := s'
    rintro ⟨hread | ⟨x, hread, hx⟩, rfl⟩
    · exact fetch_lost hread
    · exact fetch_rejected hread hx

end Runs

theorem fetch_unpacked {γ : Type} (l : Link σ) (q : Request) (unpack : Element → Checked γ)
    (place : γ → β → Checked β) :
    (do
      let e ← Action.beside (l.read q)
      let x ← Action.ofChecked (unpack e)
      let (s, b) ← get
      set (s, ← Action.ofChecked (place x b)) : Action (σ × β) Unit) =
    l.fetch q fun e b => unpack e >>= (place · b) := by
  funext ⟨s, b⟩
  unfold fetch
  cases hread : l.read q s with
  | error e s' =>
    rw [Action.bind_error (Action.beside_error hread),
      Action.bind_error (Action.beside_error hread)]
  | ok e s' =>
    rw [Action.bind_ok (Action.beside_ok hread), Action.bind_ok (Action.beside_ok hread)]
    change _ = (Action.ofChecked (unpack e >>= (place · b)) >>= fun b => set (s', b)) (s', b)
    cases unpack e <;> rfl

variable {l : Link σ} {plan : List Nat → Checked (List χ)} {request : χ → Request}
  {accept : χ → Element → β → Checked β} {size : χ → Nat} {cs : List χ} {s : σ} {b : β}
  {out : Fetched σ β χ}

variable (l request accept) in
theorem exists_fetches (cs : List χ) (s : σ) (b : β) :
    ∃ out, l.Fetches request accept cs s b out := by
  induction cs generalizing s b with
  | nil => exact ⟨_, .done⟩
  | cons c cs ih =>
    cases hread : l.read (request c) s with
    | error e s' => exact ⟨_, .lost hread⟩
    | ok x s' =>
      cases haccept : accept c x b with
      | error e => exact ⟨_, .rejected hread haccept⟩
      | ok b' =>
        obtain ⟨out, hout⟩ := ih s' b'
        exact ⟨_, .next hread haccept hout⟩

variable (l plan request accept s b) in
theorem exists_reads : ∃ out, l.Reads plan request accept s b out := by
  cases hdims : l.dimensions s with
  | error e s' => exact ⟨_, .lost hdims⟩
  | ok dims s' =>
    cases hplan : plan dims with
    | error e => exact ⟨_, .refused hdims hplan⟩
    | ok cs =>
      obtain ⟨out, hout⟩ := exists_fetches l request accept cs s' b
      exact ⟨out, .planned hdims hplan hout⟩

namespace Fetches

theorem run (h : l.Fetches request accept cs s b out) (done : Nat) :
    (transfer (fun _ => false) size (fun c => l.fetch (request c) (accept c)) done cs).outcome
      (s, b) = (out.result, out.state, out.buffer) := by
  induction h generalizing done with
  | done => rfl
  | lost h => rw [transfer_cons, Action.outcome, Action.bind_error (fetch_lost h)]
  | rejected h hx => rw [transfer_cons, Action.outcome, Action.bind_error (fetch_rejected h hx)]
  | next h hx _ ih =>
    rw [transfer_cons, Action.outcome, Action.bind_ok (fetch_ok h hx)]
    exact ih _

theorem asked_isPrefix (h : l.Fetches request accept cs s b out) : out.asked <+: cs := by
  induction h with
  | done => exact List.nil_prefix
  | lost | rejected => exact List.cons_prefix_cons.mpr ⟨rfl, List.nil_prefix⟩
  | next _ _ _ ih => exact List.cons_prefix_cons.mpr ⟨rfl, ih⟩

theorem keeps {Inv : β → Prop} (h : l.Fetches request accept cs s b out)
    (hstep : ∀ c ∈ cs, ∀ x b b', accept c x b = .ok b' → Inv b → Inv b') (hb : Inv b) :
    Inv out.buffer := by
  induction h with
  | done | lost | rejected => exact hb
  | next _ hx _ ih =>
    obtain ⟨hc, htail⟩ := List.forall_mem_cons.mp hstep
    exact ih htail (hc _ _ _ hx hb)

theorem tapped (h : l.Fetches request accept cs s b out) (log : List (Access × Request))
    (served : Nat) : ∃ served', (Tap.link l).Fetches request accept cs (.seen s log served) b
      ⟨out.asked, out.result,
        .seen out.state (log ++ out.asked.map fun c => (.read, request c)) served',
        out.buffer⟩ := by
  induction h generalizing log served with
  | done =>
    rw [List.map_nil, List.append_nil]
    exact ⟨_, .done⟩
  | lost h => exact ⟨_, .lost (Tap.read_error h)⟩
  | rejected h hx => exact ⟨_, .rejected (Tap.read_ok h) hx⟩
  | @next c _ _ _ _ _ _ _ h hx _ ih =>
    obtain ⟨served', hout⟩ := ih (log ++ [(.read, request c)]) (served + 1)
    rw [List.append_assoc, List.singleton_append] at hout
    exact ⟨served', .next (Tap.read_ok h) hx hout⟩

end Fetches

namespace Reads

theorem tapped (h : l.Reads plan request accept s b out) :
    ∃ served, (Tap.link l).Reads plan request accept (.make s) b
      ⟨out.asked, out.result,
        .seen out.state (out.asked.map fun c => (.read, request c)) served, out.buffer⟩ := by
  have hdims {s' x} (h : l.dimensions s = .ok x s') :
      (Tap.link l).dimensions (.make s) = .ok x (.seen s' [] 0) := Tap.onInner_ok h
  cases h with
  | lost h =>
    have hlost : (Tap.link l).dimensions (.seen s [] 0) = _ := Tap.onInner_error h
    exact ⟨0, .lost hlost⟩
  | refused h hplan => exact ⟨0, .refused (hdims h) hplan⟩
  | planned h hplan hout =>
    obtain ⟨served, hout⟩ := hout.tapped [] 0
    exact ⟨served, .planned (hdims h) hplan hout⟩

end Reads

end Link

structure Block.SameOutside (b : Block α) (as : List Nat) (b' : Block α) : Prop where
  dims_eq : b'.dims = b.dims
  items : Region.SameOutside as b.items b'.items

namespace Proxy

open Region

variable {p : Proxy σ α} {s : σ}

structure Ends (direct : Action (σ × β) Unit) (tapped : Action (Tap σ × β) Unit)
    (request : χ → Request) (s : σ) (b : β) (out : Fetched σ β χ) : Prop where
  direct : direct.outcome (s, b) = (out.result, out.state, out.buffer)
  tapped : ∃ served, tapped.outcome (.make s, b) =
    (out.result, .seen out.state (out.asked.map fun c => (.read, request c)) served, out.buffer)

section Flat

variable {pos start n : Nat} {buffer : List α} {out : Fetched σ (List α) (Chunk Nat)}

def takeFlat (codec : ItemCodec α) (start : Nat) (c : Chunk Nat) (e : Element) (buffer : List α) :
    Checked (List α) := do
  placeFlat buffer (start + c.offset) (← codec.unpackFlat e) c.count

def ReadsFlat (p : Proxy σ α) (pos start n : Nat) (s : σ) (buffer : List α)
    (out : Fetched σ (List α) (Chunk Nat)) : Prop :=
  p.link.Reads (planFlat p.limit p.codec.size pos buffer.length start n)
    (fun c => .flat c.pos c.count) (takeFlat p.codec start) s buffer out

structure SpanInRange (pos start n length : Nat) (c : Chunk Nat) : Prop where
  within : c.offset + c.count ≤ n
  pos_eq : c.pos = pos + c.offset
  words : c.pos + c.count < wordBound
  slots : start + c.offset + c.count ≤ length

structure ConfinedFlat (p : Proxy σ α) (pos start n : Nat) (s : σ) (buffer : List α)
    (out : Fetched σ (List α) (Chunk Nat)) : Prop where
  reads : p.ReadsFlat pos start n s buffer out
  asked : out.asked <+: (FlatPlan.make pos n (p.limit / p.codec.size)).chunks
  inRange : ∀ c ∈ out.asked, SpanInRange pos start n buffer.length c
  kept : SameOutside (List.range' start n) buffer out.buffer

theorem loadSpan_eq_fetch (p : Proxy σ α) (start : Nat) (c : Chunk Nat) :
    p.loadSpan start c = p.link.fetch (.flat c.pos c.count) (takeFlat p.codec start c) :=
  p.link.fetch_unpacked _ p.codec.unpackFlat fun values b =>
    placeFlat b (start + c.offset) values c.count

theorem takeFlat_eq_ok {codec : ItemCodec α} {c : Chunk Nat} {e : Element} {b b' : List α} :
    takeFlat codec start c e b = .ok b' ↔ ∃ values, codec.unpackFlat e = .ok values ∧
      values.length = c.count ∧ splice b (start + c.offset) values = b' := by
  simp only [takeFlat, placeFlat, Checked.bind_eq_ok, Checked.refuse_eq_ok, not_not,
    Except.ok.injEq]

theorem readFlat_of_reads (h : p.ReadsFlat pos start n s buffer out) :
    (p.readFlat (fun _ => false) pos start n).outcome (s, buffer) =
      (out.result, out.state, out.buffer) := by
  have hmove : p.loadSpan start = fun c =>
      p.link.fetch (.flat c.pos c.count) (takeFlat p.codec start c) :=
    funext (p.loadSpan_eq_fetch start)
  cases h with
  | lost h => rw [Action.outcome, readFlat_lost h]
  | refused h hplan => rw [Action.outcome, readFlat_refused h hplan]
  | planned h hplan hout =>
    rw [Action.outcome, readFlat_planned h hplan, hmove]
    exact hout.run 0

theorem confinedFlat (hl : p.link.ReportsWords) (h : p.ReadsFlat pos start n s buffer out) :
    p.ConfinedFlat pos start n s buffer out := by
  have hreads := h
  cases h with
  | lost | refused => exact ⟨hreads, List.nil_prefix, List.forall_mem_nil _, .refl _ _⟩
  | @planned s' dims cs _ hdims hplan hout =>
    obtain ⟨hroom, max, hmax, rfl⟩ := planFlat_eq_ok.mp hplan
    obtain ⟨hb, d, rfl, hr⟩ := expectRoom_eq_ok.mp hroom
    have hd : d < wordBound := hl s [d] s' hdims d List.mem_cons_self
    have hpos : ∀ c ∈ (FlatPlan.make pos n max).chunks, c.pos = pos + c.offset :=
      FlatPlan.pos_of_mem_chunks pos n max
    have hwithin := FlatPlan.chunks_within pos n max
    refine ⟨hreads, eq_of_itemsPerMessage hmax ▸ hout.asked_isPrefix, ?_, ?_⟩
    · intro c hc
      have hmem := hout.asked_isPrefix.subset hc
      have hcpos := hpos c hmem
      have hcount := hwithin c hmem
      exact ⟨hcount, hcpos, by omega, by omega⟩
    · refine hout.keeps (fun c hc x b b' hx hkept => ?_) (.refl _ _)
      obtain ⟨values, -, hlen, rfl⟩ := takeFlat_eq_ok.mp hx
      have hcount := hwithin c hc
      have hlength := hkept.length_eq
      rw [splice_eq_scatter (by omega)]
      refine hkept.scatter (fun a ha => ?_) values
      rw [List.mem_range'_1] at ha ⊢
      omega

end Flat

section Blocks

variable {pos start counts : List Nat} {buffer : Block α}
  {out : Fetched σ (Block α) (Chunk (List Nat))}

def takeBlock (codec : ItemCodec α) (start : List Nat) (c : Chunk (List Nat)) (e : Element)
    (buffer : Block α) : Checked (Block α) := do
  placeBlock buffer start c (← codec.unpackBlock e)

/-- Without room for one item in a message, no question is asked at all. -/
def ReadsBlock (p : Proxy σ α) (pos start counts : List Nat) (s : σ) (buffer : Block α)
    (out : Fetched σ (Block α) (Chunk (List Nat))) : Prop :=
  match itemsPerMessage p.limit p.codec.size with
  | .ok max => p.link.Reads (fun dims => planBlock dims buffer pos start counts max)
      (fun c => ⟨c.pos, c.count⟩) (takeBlock p.codec start) s buffer out
  | .error e => out = ⟨[], .error e, s, buffer⟩

structure PartInRange (pos start counts : List Nat) (buffer : Block α)
    (c : Chunk (List Nat)) : Prop where
  volume : count? counts = some (cellsOf counts)
  within : Within counts c.offset c.count
  pos_eq : c.pos = List.zipWith (· + ·) pos c.offset
  words : List.Forall₂ (fun p n => p + n < wordBound) c.pos c.count
  room : Within buffer.axes (chunkStart start c) c.count
  slots : ∀ a ∈ addresses buffer.axes (chunkStart start c) c.count, a < buffer.items.length

structure ConfinedBlock (p : Proxy σ α) (pos start counts : List Nat) (s : σ) (buffer : Block α)
    (out : Fetched σ (Block α) (Chunk (List Nat))) : Prop where
  reads : p.ReadsBlock pos start counts s buffer out
  asked : out.asked = [] ∨ ∃ plan, BlockPlan.make pos counts (p.limit / p.codec.size) = .ok plan ∧
    out.asked <+: plan
  inRange : ∀ c ∈ out.asked, PartInRange pos start counts buffer c
  kept : buffer.SameOutside (addresses buffer.axes start counts) out.buffer

theorem loadChunk_eq_fetch (p : Proxy σ α) (start : List Nat) (c : Chunk (List Nat)) :
    p.loadChunk start c = p.link.fetch ⟨c.pos, c.count⟩ (takeBlock p.codec start c) :=
  p.link.fetch_unpacked _ p.codec.unpackBlock fun data b => placeBlock b start c data

theorem readBlock_of_reads (h : p.ReadsBlock pos start counts s buffer out) :
    (p.readBlock (fun _ => false) pos start counts).outcome (s, buffer) =
      (out.result, out.state, out.buffer) := by
  have hmove : p.loadChunk start = fun c =>
      p.link.fetch ⟨c.pos, c.count⟩ (takeBlock p.codec start c) :=
    funext (p.loadChunk_eq_fetch start)
  unfold ReadsBlock at h
  cases hmax : itemsPerMessage p.limit p.codec.size with
  | error e =>
    rw [hmax] at h
    cases h
    rw [Action.outcome, readBlock_unsized hmax]
  | ok max =>
    rw [hmax] at h
    cases h with
    | lost h => rw [Action.outcome, readBlock_lost hmax h]
    | refused h hplan => rw [Action.outcome, readBlock_refused hmax h hplan]
    | planned h hplan hout =>
      rw [Action.outcome, readBlock_planned hmax h hplan, hmove]
      exact hout.run 0

theorem of_takeBlock {codec : ItemCodec α} {c : Chunk (List Nat)} {e : Element} {b b' : Block α}
    (h : takeBlock codec start c e b = .ok b') : ∃ data : Block α,
      codec.unpackBlock e = .ok data ∧ data.axes = c.count ∧
        data.items.length = cellsOf c.count ∧
        b' = ⟨b.dims, scatter b.items (addresses b.axes (chunkStart start c) c.count)
          data.items⟩ := by
  simp only [takeBlock, placeBlock, Checked.bind_eq_ok, Checked.refuse_eq_ok, not_not,
    Checked.pure_eq_ok, copy_eq_ok] at h
  obtain ⟨data, hdata, haxes, items, ⟨hcount, -, -, -, rfl⟩, rfl⟩ := h
  refine ⟨data, hdata, haxes, haxes ▸ count?_eq_some hcount, ?_⟩
  rw [← haxes, gather_origin hcount]

theorem confinedBlock (hl : p.link.ReportsWords) (hb : buffer.WellFormed)
    (h : p.ReadsBlock pos start counts s buffer out) :
    p.ConfinedBlock pos start counts s buffer out := by
  have hreads := h
  unfold ReadsBlock at h
  cases hmax : itemsPerMessage p.limit p.codec.size with
  | error e =>
    rw [hmax] at h
    cases h
    exact ⟨hreads, .inl rfl, List.forall_mem_nil _, ⟨rfl, .refl _ _⟩⟩
  | ok max =>
    rw [hmax] at h
    cases h with
    | lost | refused => exact ⟨hreads, .inl rfl, List.forall_mem_nil _, ⟨rfl, .refl _ _⟩⟩
    | @planned s' dims cs _ hdims hplan hout =>
      obtain ⟨⟨-, hroom⟩, ⟨-, hregion⟩, hmake⟩ := planBlock_eq_ok.mp hplan
      have htiles := BlockPlan.tiles_of_make hmake
      have hslots : ∀ c ∈ cs, ∀ a ∈ addresses buffer.axes (chunkStart start c) c.count,
          a ∈ addresses buffer.axes start counts := by
        intro c hc a ha
        rw [← htiles.addresses_eq hroom]
        exact List.mem_flatMap.mpr ⟨c, hc, ha⟩
      refine ⟨hreads, .inr ⟨cs, eq_of_itemsPerMessage hmax ▸ hmake, hout.asked_isPrefix⟩, ?_, ?_⟩
      · intro c hc
        have hmem := hout.asked_isPrefix.subset hc
        have hwithin := htiles.within c hmem
        have hpos := htiles.pos_eq c hmem
        have hvolume := exists_count? hroom.counts_le (Block.wellFormed_iff.mp hb)
        refine ⟨hvolume, hwithin, hpos, ?_, hroom.add hwithin, ?_⟩
        · rw [hpos]
          exact (hregion.add hwithin).add_lt (hl s dims s' hdims)
        · intro a ha
          rw [hb.length_items]
          exact addresses_lt hroom a (hslots c hmem a ha)
      · refine hout.keeps (fun c hc x b b' hx hkept => ?_) ⟨rfl, .refl _ _⟩
        obtain ⟨hdims, hitems⟩ := hkept
        obtain ⟨data, -, -, -, rfl⟩ := of_takeBlock hx
        have haxes : b.axes = buffer.axes := congrArg axes hdims
        rw [haxes]
        exact ⟨hdims, hitems.scatter (hslots c hc) _⟩

end Blocks

theorem exists_readsBlock (p : Proxy σ α) (pos start counts : List Nat) (s : σ)
    (buffer : Block α) : ∃ out, p.ReadsBlock pos start counts s buffer out := by
  unfold ReadsBlock
  cases itemsPerMessage p.limit p.codec.size with
  | error e => exact ⟨_, rfl⟩
  | ok max => exact p.link.exists_reads _ _ _ s buffer

theorem endsFlat {pos start n : Nat} {buffer : List α} {out : Fetched σ (List α) (Chunk Nat)}
    (h : p.ReadsFlat pos start n s buffer out) :
    Ends (p.readFlat (fun _ => false) pos start n) (p.tapped.readFlat (fun _ => false) pos start n)
      (fun c => .flat c.pos c.count) s buffer out := by
  obtain ⟨served, htapped⟩ := Link.Reads.tapped h
  have htap : p.tapped.ReadsFlat pos start n (.make s) buffer _ := htapped
  exact ⟨readFlat_of_reads h, served, readFlat_of_reads htap⟩

theorem endsBlock {pos start counts : List Nat} {buffer : Block α}
    {out : Fetched σ (Block α) (Chunk (List Nat))}
    (h : p.ReadsBlock pos start counts s buffer out) :
    Ends (p.readBlock (fun _ => false) pos start counts)
      (p.tapped.readBlock (fun _ => false) pos start counts) (fun c => ⟨c.pos, c.count⟩) s buffer
      out := by
  have htap : ∃ served, p.tapped.ReadsBlock pos start counts (.make s) buffer
      ⟨out.asked, out.result,
        .seen out.state (out.asked.map fun c => (.read, ⟨c.pos, c.count⟩)) served,
        out.buffer⟩ := by
    have hlimit : itemsPerMessage p.tapped.limit p.tapped.codec.size =
      itemsPerMessage p.limit p.codec.size := rfl
    unfold ReadsBlock at h ⊢
    rw [hlimit]
    cases hmax : itemsPerMessage p.limit p.codec.size with
    | error e =>
      rw [hmax] at h
      cases h
      exact ⟨0, rfl⟩
    | ok max =>
      rw [hmax] at h
      exact Link.Reads.tapped h
  obtain ⟨served, htap⟩ := htap
  exact ⟨readBlock_of_reads h, served, readBlock_of_reads htap⟩

/-- Whatever its link answers, a read has an end at which it has asked for chunks of its plan alone,
in order and up to the first that failed, and has changed nothing outside the part to fill. -/
theorem reads_confined (hl : p.link.ReportsWords) (s : σ) :
    (∀ pos start n (buffer : List α), ∃ out, p.ConfinedFlat pos start n s buffer out ∧
      Ends (p.readFlat (fun _ => false) pos start n)
        (p.tapped.readFlat (fun _ => false) pos start n) (fun c => .flat c.pos c.count) s buffer
        out) ∧
    (∀ pos start counts (buffer : Block α), buffer.WellFormed →
      ∃ out, p.ConfinedBlock pos start counts s buffer out ∧
        Ends (p.readBlock (fun _ => false) pos start counts)
          (p.tapped.readBlock (fun _ => false) pos start counts) (fun c => ⟨c.pos, c.count⟩) s
          buffer out) := by
  constructor
  · intro pos start n buffer
    obtain ⟨out, hout⟩ : ∃ out, p.ReadsFlat pos start n s buffer out := p.link.exists_reads ..
    exact ⟨out, confinedFlat hl hout, endsFlat hout⟩
  · intro pos start counts buffer hb
    obtain ⟨out, hout⟩ := p.exists_readsBlock pos start counts s buffer
    exact ⟨out, confinedBlock hl hb hout, endsBlock hout⟩

def swelling : Proxy Nat (Item .int32) where
  link :=
    { dimensions := fun s => .ok (if s % 2 = 0 then [6] else [6, 6]) (s + 1)
      read := fun _ s =>
        .ok (.ofArray chunkId ⟨.int32, List.replicate (s + 1) (.ofInt32 7)⟩) (s + 1)
      write := fun _ _ s => .ok () s }
  codec := .numeric (.ofRegistry .empty) .int32
  limit := 8

theorem swelling_reports : swelling.link.ReportsWords := by
  intro s dims s' h
  cases h
  split <;> decide

theorem reads_confined_swelling :
    (∃ out, swelling.ConfinedFlat 0 1 4 0 (List.replicate 6 (.ofInt32 0)) out ∧
      out.result = .error (.lengthMismatch 2 3) ∧ out.asked.length = 2 ∧
      out.buffer = [.ofInt32 0, .ofInt32 7, .ofInt32 7, .ofInt32 0, .ofInt32 0, .ofInt32 0]) ∧
    ∃ out, swelling.ConfinedBlock [0, 1] [0, 0] [2, 2] 1 ⟨[2, 2], List.replicate 4 (.ofInt32 0)⟩
        out ∧
      out.asked.length = 1 ∧ out.buffer = ⟨[2, 2], List.replicate 4 (.ofInt32 0)⟩ := by
  constructor
  · obtain ⟨out, hconfined, hends⟩ :=
      (reads_confined swelling_reports 0).1 0 1 4 (List.replicate 6 (.ofInt32 0))
    obtain ⟨served, htapped⟩ := hends.tapped
    have hlog := congrArg (fun r => r.2.1.log.length) htapped
    rw [Tap.seen, List.length_map] at hlog
    exact ⟨out, hconfined, (congrArg Prod.fst htapped).symm, hlog.symm,
      (congrArg (fun r => r.2.2) htapped).symm⟩
  · obtain ⟨out, hconfined, hends⟩ :=
      (reads_confined swelling_reports 1).2 [0, 1] [0, 0] [2, 2]
        ⟨[2, 2], List.replicate 4 (.ofInt32 0)⟩ rfl
    obtain ⟨served, htapped⟩ := hends.tapped
    have hlog := congrArg (fun r => r.2.1.log.length) htapped
    rw [Tap.seen, List.length_map] at hlog
    exact ⟨out, hconfined, hlog.symm, (congrArg (fun r => r.2.2) htapped).symm⟩

end Proxy

end TypedWire
