import TypedWire.Proofs.Settled
import TypedWire.ItemCodec

namespace TypedWire

namespace ItemCodec

variable {α : Type} {Γ : Scope}

theorem pod_eq_ok {t : String} {codec : ItemCodec (Record Value)} :
    pod Γ t = .ok codec ↔ ∃ d, Γ.pod t = .ok d ∧ .ofPods Γ t d.size = codec := by
  simp only [pod, Checked.bind_eq_ok, Checked.pure_eq_ok]

theorem named_eq_ok {t : String} {codec : ItemCodec NamedRecord} : named Γ t = .ok codec ↔
    ∃ d, Γ.named t = .ok d ∧ d.bytes < wordBound ∧ .ofNamed Γ t d.bytes = codec := by
  simp only [named, NamedType.size, Checked.bind_eq_ok, Checked.word_eq_ok, Checked.pure_eq_ok,
    and_assoc, exists_and_left, exists_eq_left']

/-- The codecs there are, and the items that each of them carries: any numbers, the pods and the
named arrays that the definition accepts, of pods no more than there are positions. -/
inductive BuiltIn (Γ : Scope) : {α : Type} → ItemCodec α → (List α → Prop) → Prop
  | numeric (k) : BuiltIn Γ (numeric Γ k) fun _ => True
  | pod {t p codec} : Γ.pod t = .ok p → ItemCodec.pod Γ t = .ok codec → BuiltIn Γ codec fun rs =>
      rs.length ≤ positionBound ∧ ∀ r ∈ rs, p.Accepts Γ r
  | named {t d codec} : Γ.named t = .ok d → ItemCodec.named Γ t = .ok codec →
      BuiltIn Γ codec fun rs => ∀ r ∈ rs, d.expectRecord r = .ok ()

namespace BuiltIn

variable {codec : ItemCodec α} {Carries : List α → Prop}

theorem mono (h : codec.BuiltIn Γ Carries) {xs ys : List α} (hsub : xs.Sublist ys)
    (hys : Carries ys) : Carries xs := by
  cases h with
  | numeric => trivial
  | pod => exact ⟨Nat.le_trans hsub.length_le hys.1, fun r hr => hys.2 r (hsub.subset hr)⟩
  | named => exact fun r hr => hys r (hsub.subset hr)

theorem losslessFlat (hΓ : Γ.Built) (h : codec.BuiltIn Γ Carries) {xs : List α}
    (hc : Carries xs) : ∃ e, codec.packFlat xs = .ok e ∧ codec.unpackFlat e = .ok xs := by
  cases h with
  | numeric k =>
    have hxs : Γ.Settled (.array k .free) (.array ⟨k, xs⟩) :=
      Scope.settled_array (a := ⟨k, xs⟩) rfl
    obtain ⟨e, he, hback⟩ := hxs.exists_pack hΓ chunkId
    exact ⟨e, he, Checked.bind_eq_ok.mpr ⟨_, hback, Numbers.itemsOf_eq_ok.mpr rfl⟩⟩
  | @pod t p _ hp hcodec =>
    have hrs : Γ.Settled (.pod t (.array .free)) (.podArray t xs) :=
      Scope.settled_podArray hΓ hp rfl hc.1 hc.2
    obtain ⟨_, -, rfl⟩ := pod_eq_ok.mp hcodec
    obtain ⟨e, he, hback⟩ := hrs.exists_pack hΓ chunkId
    exact ⟨e, he, Checked.bind_eq_ok.mpr ⟨_, hback, rfl⟩⟩
  | @named t d _ hd hcodec =>
    have hrs : Γ.Settled (.named t (.array .free)) (.namedArray t xs) :=
      Scope.settled_namedArray hΓ hd rfl hc
    obtain ⟨_, -, -, rfl⟩ := named_eq_ok.mp hcodec
    obtain ⟨e, he, hback⟩ := hrs.exists_pack hΓ chunkId
    exact ⟨e, he, Checked.bind_eq_ok.mpr ⟨_, hback, rfl⟩⟩

theorem lossless (hΓ : Γ.Built) (h : codec.BuiltIn Γ Carries) {b : Block α} (hb : b.WellFormed)
    (hc : Carries b.items) : ∃ e, codec.packBlock b = .ok e ∧ codec.unpackBlock e = .ok b := by
  have hmake : Block.make b.dims b.items = .ok b := Block.make_eq_ok_iff.mpr ⟨rfl, hb⟩
  cases h with
  | numeric k =>
    have hxs : Γ.Settled (.block k none) (.block k b) := Scope.settled_block hb rfl
    obtain ⟨e, he, hback⟩ := hxs.exists_pack hΓ chunkId
    refine ⟨e, Checked.bind_eq_ok.mpr ⟨b, hmake, he⟩, Checked.bind_eq_ok.mpr ⟨_, hback, ?_⟩⟩
    exact Checked.bind_eq_ok.mpr ⟨b.items, Numbers.itemsOf_eq_ok.mpr rfl, hmake⟩
  | @pod t p _ hp hcodec =>
    have hrs : Γ.Settled (.pod t (.block none)) (.podBlock t b) :=
      Scope.settled_podBlock hΓ hp hb rfl hc.1 hc.2
    obtain ⟨_, -, rfl⟩ := pod_eq_ok.mp hcodec
    obtain ⟨e, he, hback⟩ := hrs.exists_pack hΓ chunkId
    exact ⟨e, Checked.bind_eq_ok.mpr ⟨b, hmake, he⟩, Checked.bind_eq_ok.mpr ⟨_, hback, hmake⟩⟩
  | @named t d _ hd hcodec =>
    have hrs : Γ.Settled (.named t (.block none)) (.namedBlock t b) :=
      Scope.settled_namedBlock hΓ hd hb rfl hc
    obtain ⟨_, -, -, rfl⟩ := named_eq_ok.mp hcodec
    obtain ⟨e, he, hback⟩ := hrs.exists_pack hΓ chunkId
    exact ⟨e, Checked.bind_eq_ok.mpr ⟨b, hmake, he⟩, Checked.bind_eq_ok.mpr ⟨_, hback, hmake⟩⟩

end BuiltIn

structure Faithful (codec : ItemCodec α) (Sound : α → Prop) : Prop where
  flat : ∀ {xs e}, (∀ x ∈ xs, Sound x) → codec.packFlat xs = .ok e → codec.unpackFlat e = .ok xs
  block : ∀ {b : Block α} {e}, b.WellFormed → (∀ x ∈ b.items, Sound x) →
    codec.packBlock b = .ok e → codec.unpackBlock e = .ok b

theorem faithful_numeric (k : NumericKind) : (numeric Γ k).Faithful fun _ => True where
  flat {xs e} _ he := by
    have hback : Γ.unpack e (.array k .free) = .ok (.array ⟨k, xs⟩) :=
      Scope.returns_array ⟨k, xs⟩ _ _ _ he
    exact Checked.bind_eq_ok.mpr ⟨_, hback, Numbers.itemsOf_eq_ok.mpr rfl⟩
  block {b e} hb _ he := by
    have hmake : Block.make b.dims b.items = .ok b := Block.make_eq_ok_iff.mpr ⟨rfl, hb⟩
    simp only [numeric, hmake] at he
    have hback : Γ.unpack e (.block k none) = .ok (.block k b) := Scope.returns_block hb _ _ _ he
    exact Checked.bind_eq_ok.mpr ⟨_, hback, Checked.bind_eq_ok.mpr
      ⟨b.items, Numbers.itemsOf_eq_ok.mpr rfl, hmake⟩⟩

theorem exists_packFlat_numeric (k : NumericKind) (xs : List (Item k)) :
    ∃ e, (numeric Γ k).packFlat xs = .ok e := by
  have he : Γ.pack chunkId (.array ⟨k, xs⟩) (.array k .free) = .ok (.ofArray chunkId ⟨k, xs⟩) :=
    Scope.encode_array.mpr ⟨.free, rfl, rfl, rfl⟩
  exact ⟨_, he⟩

theorem exists_packBlock_numeric {k : NumericKind} {b : Block (Item k)} (hb : b.WellFormed) :
    ∃ e, (numeric Γ k).packBlock b = .ok e :=
  ⟨_, Checked.bind_eq_ok.mpr ⟨b, Block.make_eq_ok_iff.mpr ⟨rfl, hb⟩,
    Scope.encode_block.mpr ⟨none, rfl, rfl, rfl⟩⟩⟩

/-- The codecs of a scope, each with the items that are sound: any numbers and named arrays, and
pods whose fields are in order. -/
inductive OfScope (Γ : Scope) : {α : Type} → ItemCodec α → (α → Prop) → Prop
  | numeric (k) : OfScope Γ (numeric Γ k) fun _ => True
  | pod {t codec} : ItemCodec.pod Γ t = .ok codec → OfScope Γ codec Value.RecordWellFormed
  | named {t codec} : ItemCodec.named Γ t = .ok codec → OfScope Γ codec fun _ => True

theorem OfScope.faithful {codec : ItemCodec α} {Sound : α → Prop} (hΓ : Γ.Built)
    (h : codec.OfScope Γ Sound) : codec.Faithful Sound := by
  cases h with
  | numeric k => exact faithful_numeric k
  | @pod t _ hcodec =>
    obtain ⟨p, -, rfl⟩ := pod_eq_ok.mp hcodec
    constructor
    · intro xs e hxs he
      have hv : (Value.podArray t xs).WellFormed := Value.recordsWellFormed_iff.mpr hxs
      have hback : Γ.unpack e (.pod t (.array .free)) = .ok (.podArray t xs) :=
        Scope.returns hΓ hv _ _ _ he
      exact Checked.bind_eq_ok.mpr ⟨_, hback, rfl⟩
    · intro b e hb hxs he
      have hmake : Block.make b.dims b.items = .ok b := Block.make_eq_ok_iff.mpr ⟨rfl, hb⟩
      have hv : (Value.podBlock t b).WellFormed := ⟨hb, Value.recordsWellFormed_iff.mpr hxs⟩
      simp only [ofPods, hmake] at he
      have hback : Γ.unpack e (.pod t (.block none)) = .ok (.podBlock t b) :=
        Scope.returns hΓ hv _ _ _ he
      exact Checked.bind_eq_ok.mpr ⟨_, hback, hmake⟩
  | @named t _ hcodec =>
    obtain ⟨d, -, -, rfl⟩ := named_eq_ok.mp hcodec
    constructor
    · intro xs e _ he
      have hback : Γ.unpack e (.named t (.array .free)) = .ok (.namedArray t xs) :=
        Scope.returns_namedArray hΓ t xs _ _ _ he
      exact Checked.bind_eq_ok.mpr ⟨_, hback, rfl⟩
    · intro b e hb _ he
      have hmake : Block.make b.dims b.items = .ok b := Block.make_eq_ok_iff.mpr ⟨rfl, hb⟩
      simp only [ofNamed, hmake] at he
      have hback : Γ.unpack e (.named t (.block none)) = .ok (.namedBlock t b) :=
        Scope.returns_namedBlock hΓ t hb _ _ _ he
      exact Checked.bind_eq_ok.mpr ⟨_, hback, hmake⟩

end ItemCodec

end TypedWire
