import TypedWire.Proofs.RoundTrip

namespace TypedWire

inductive Family
  | numeric (k : NumericKind)
  | pod (t : String)
  | named (t : String)

namespace Family

abbrev Item : Family → Type
  | numeric k => TypedWire.Item k
  | pod _ => Record Value
  | named _ => NamedRecord

def ty : Family → Shape → Ty
  | numeric k, .single => .scalar k
  | numeric k, .array len => .array k len
  | numeric k, .block dims => .block k dims
  | pod t, shape => .pod t shape
  | named t, shape => .named t shape

def single : (f : Family) → f.Item → Value
  | numeric k, x => .scalar ⟨k, x⟩
  | pod _, r => .pod r
  | named _, r => .named r

def array : (f : Family) → List f.Item → Value
  | numeric k, xs => .array ⟨k, xs⟩
  | pod t, rs => .podArray t rs
  | named t, rs => .namedArray t rs

def block : (f : Family) → Block f.Item → Value
  | numeric k, b => .block k b
  | pod t, b => .podBlock t b
  | named t, b => .namedBlock t b

theorem ty_ne_any (f : Family) (shape : Shape) : f.ty shape ≠ .any := by
  cases f <;> cases shape <;> nofun

theorem single_inj {f : Family} {x y : f.Item} : f.single x = f.single y ↔ x = y := by
  cases f <;> simp [single]

end Family

theorem only_eq_error {α : Type} {xs : List α} (h : xs.length ≠ 1) :
    only xs = .error (.lengthMismatch 1 xs.length) := by
  rcases xs with _ | ⟨x, _ | ⟨y, xs⟩⟩
  · rfl
  · exact absurd rfl h
  · rfl

namespace Scope

variable {Γ : Scope} {f : Family} {i : Key} {e : Element}

theorem pack_single (Γ : Scope) (f : Family) (x : f.Item) (i : Key) :
    Γ.pack i (f.single x) (f.ty .single) = Γ.pack i (f.array [x]) (f.ty (.array .free)) := by
  cases f with
  | numeric k => rfl
  | pod t =>
    simp only [Family.single, Family.array, Family.ty, pack, encode, encodeAllParts, Ty.orOwn,
      encodePods, expectName, if_true]
    rfl
  | named t =>
    simp only [Family.single, Family.array, Family.ty, pack, encode, Ty.orOwn, encodeNamed,
      expectName, if_true]
    rfl

theorem unpack_array (hΓ : Γ.Built) {xs : List f.Item} (hxs : (f.array xs).WellFormed)
    (h : Γ.pack i (f.array xs) (f.ty (.array .free)) = .ok e) :
    Γ.unpack e (f.ty .single) = (do return f.single (← only xs)) ∧
      ∀ len, Γ.unpack e (f.ty (.array len)) = (do len.check xs.length; return f.array xs) := by
  cases f with
  | numeric k =>
    obtain ⟨_, -, -, rfl⟩ := encode_array.mp h
    have harray := Element.arrayOf_ofArray i ⟨k, xs⟩
    constructor
    · rw [unpack_of_ne (Family.ty_ne_any _ _) (by simp)]
      refine (Checked.bind_ok harray _).trans ?_
      rcases xs with _ | ⟨x, _ | ⟨y, xs⟩⟩ <;> rfl
    · intro len
      rw [unpack_of_ne (Family.ty_ne_any _ _) (by simp)]
      exact Checked.bind_ok harray _
  | pod t =>
    obtain ⟨_, -, -, p, hp, l, hl, rfl⟩ := encode_podArray.mp h
    have hrs := Value.recordsWellFormed_iff.mp hxs
    have hback := PodType.decodeArray_encodeArray hΓ (hΓ.pod hp).2
      (fun r hr => (hrs r hr).sorted) (fun r hr => (hrs r hr).every fun _ _ => returns hΓ) hl
    have hlist : (Element.ofList i l).listWith .podArray
        ((Element.ofList i l).children.map Γ.reader) = .ok (Γ.readerList l) := by
      obtain ⟨-, _, -, rfl⟩ := PodType.encodeArray_eq_ok.mp hl
      exact listWith_ofList ..
    constructor
    · rw [unpack_of_ne (Family.ty_ne_any _ _) (by simp), Family.ty, decodeAs, decodePods,
        Checked.bind_ok hp]
      exact (Checked.bind_ok hlist _).trans (Checked.bind_ok hback _)
    · intro len
      rw [unpack_of_ne (Family.ty_ne_any _ _) (by simp), Family.ty, decodeAs, decodePods,
        Checked.bind_ok hp]
      exact (Checked.bind_ok hlist _).trans (Checked.bind_ok hback _)
  | named t =>
    obtain ⟨_, -, -, a, ha, l, hl, rfl⟩ := encode_namedArray.mp h
    have hback := NamedType.decodeArray_encodeArray (hΓ.named ha).2 hl
    have hlist : (Element.ofList i l).listOf .namedArray = .ok l := by
      obtain ⟨-, -, _, -, rfl⟩ := NamedType.encodeArray_eq_ok.mp hl
      exact Element.listOf_ofList ..
    constructor
    · rw [unpack_of_ne (Family.ty_ne_any _ _) (by simp), Family.ty, decodeAs, decodeNamed,
        Checked.bind_ok ha]
      exact (Checked.bind_ok hlist _).trans (Checked.bind_ok hback _)
    · intro len
      rw [unpack_of_ne (Family.ty_ne_any _ _) (by simp), Family.ty, decodeAs, decodeNamed,
        Checked.bind_ok ha]
      exact (Checked.bind_ok hlist _).trans (Checked.bind_ok hback _)

theorem unpack_block (hΓ : Γ.Built) {b : Block f.Item} (hb : (f.block b).WellFormed)
    (h : Γ.pack i (f.block b) (f.ty (.block none)) = .ok e) (dims : Option (List UInt32)) :
    Γ.unpack e (f.ty (.block dims)) = (do expectDims dims b.dims; return f.block b) := by
  cases f with
  | numeric k =>
    obtain ⟨_, -, -, rfl⟩ := encode_block.mp h
    have hopen : unwrapBlock (fun e => e) [.ofArray (.name dimsName) (dimsArray b.dims),
        .ofArray (.name arrayName) ⟨k, b.items⟩] =
          .ok (b.dims, .ofArray (.name arrayName) ⟨k, b.items⟩) := unwrapBlock_pair rfl rfl
    have harray := Element.arrayOf_ofArray (.name arrayName) ⟨k, b.items⟩
    have hitems : Numbers.itemsOf k ⟨k, b.items⟩ = .ok b.items := Numbers.itemsOf_eq_ok.mpr rfl
    have hmake : Block.make b.dims b.items = .ok b := Block.make_eq_ok_iff.mpr ⟨rfl, hb⟩
    rw [unpack_of_ne (Family.ty_ne_any _ _) (by simp), Family.ty, decodeAs]
    refine (Checked.bind_ok rfl _).trans ((Checked.bind_ok hopen _).trans ?_)
    -- The axes are compared before the numbers are read.
    refine bind_congr fun _ => ?_
    rw [Checked.bind_ok harray, Checked.bind_ok hitems, Checked.bind_ok hmake]
    rfl
  | pod t =>
    obtain ⟨_, -, -, p, hp, l, hl, rfl⟩ := encode_podBlock.mp h
    obtain ⟨hname, hp'⟩ := hΓ.pod hp
    obtain ⟨hb, hrs⟩ := hb
    rw [Value.recordsWellFormed_iff] at hrs
    have hback := PodType.decodeBlock_encodeBlock hΓ hp' hb
      (fun r hr => (hrs r hr).sorted) (fun r hr => (hrs r hr).every fun _ _ => returns hΓ) hl
    have hlist : (Element.ofList i l).listWith .podBlock
        ((Element.ofList i l).children.map Γ.reader) = .ok (Γ.readerList l) := by
      obtain ⟨_, -, rfl⟩ := PodType.encodeBlock_eq_ok.mp hl
      exact listWith_ofList ..
    rw [unpack_of_ne (Family.ty_ne_any _ _) (by simp), Family.ty, decodeAs, decodePods,
      Checked.bind_ok hp]
    refine (Checked.bind_ok hlist _).trans ((Checked.bind_ok hback _).trans ?_)
    rw [hname]
    rfl
  | named t =>
    obtain ⟨_, -, -, a, ha, l, hl, rfl⟩ := encode_namedBlock.mp h
    obtain ⟨hname, ha'⟩ := hΓ.named ha
    have hback := NamedType.decodeBlock_encodeBlock ha' hb hl
    have hlist : (Element.ofList i l).listOf .namedBlock = .ok l := by
      obtain ⟨_, -, rfl⟩ := NamedType.encodeBlock_eq_ok.mp hl
      exact Element.listOf_ofList ..
    rw [unpack_of_ne (Family.ty_ne_any _ _) (by simp), Family.ty, decodeAs, decodeNamed,
      Checked.bind_ok ha]
    refine (Checked.bind_ok hlist _).trans ((Checked.bind_ok hback _).trans ?_)
    rw [hname]
    rfl

/-- Of numbers, pods and named records alike, an array is read as one of them when it has no other,
and under the lengths that admit its own; a block is read under its own axes only, whatever their
product. -/
theorem shapes_guarded (hΓ : Γ.Built) (f : Family) :
    (∀ xs i e, (f.array xs).WellFormed → Γ.pack i (f.array xs) (f.ty (.array .free)) = .ok e →
      (∀ x, Γ.unpack e (f.ty .single) = .ok (f.single x) ↔ xs = [x]) ∧
      (xs.length ≠ 1 → Γ.unpack e (f.ty .single) = .error (.lengthMismatch 1 xs.length)) ∧
      ∀ m, (Γ.unpack e (f.ty (.array (.fixed m))) =
          if xs.length = m then .ok (f.array xs) else .error (.lengthMismatch m xs.length)) ∧
        Γ.unpack e (f.ty (.array (.bounded m))) =
          if xs.length ≤ m then .ok (f.array xs) else .error (.lengthMismatch m xs.length)) ∧
    (∀ x i, Γ.pack i (f.single x) (f.ty .single) = Γ.pack i (f.array [x]) (f.ty (.array .free))) ∧
    ∀ b i e, (f.block b).WellFormed → Γ.pack i (f.block b) (f.ty (.block none)) = .ok e →
      ∀ dims, Γ.unpack e (f.ty (.block (some dims))) =
        if dims = b.dims then .ok (f.block b)
        else .error (.dimensionMismatch (axes dims) (axes b.dims)) := by
  refine ⟨?_, pack_single Γ f, ?_⟩
  · intro xs i e hxs h
    obtain ⟨hsingle, harray⟩ := unpack_array hΓ hxs h
    refine ⟨fun x => ?_, fun hlen => ?_, fun m => ⟨?_, ?_⟩⟩
    · simp [hsingle, Family.single_inj]
    · rw [hsingle, only_eq_error hlen]
      rfl
    · rw [harray, Extent.check]
      split <;> rfl
    · rw [harray, Extent.check]
      split <;> rfl
  · intro b i e hb h dims
    rw [unpack_block hΓ hb h, expectDims]
    split <;> rfl

theorem shapes_guarded_points :
    let two := Family.array (.pod "geo.Point") [Geo.pointAt 1 2, Geo.pointAt 3 4]
    let grid := Family.block (.numeric .int32) ⟨[2, 3], [1, 2, 3, 4, 5, 6].map .ofInt32⟩
    (∃ e, Geo.scope.pack (.index 0) two (.pod "geo.Point" (.array .free)) = .ok e ∧
      Geo.scope.unpack e (.pod "geo.Point" .single) = .error (.lengthMismatch 1 2)) ∧
    ∃ e, Geo.scope.pack (.index 0) grid (.block .int32 none) = .ok e ∧
      Geo.scope.unpack e (.block .int32 (some [3, 2])) =
        .error (.dimensionMismatch [3, 2] [2, 3]) := by
  intro two grid
  obtain ⟨harray, -⟩ := shapes_guarded Geo.scope_built (.pod "geo.Point")
  obtain ⟨-, -, hblock⟩ := shapes_guarded Geo.scope_built (.numeric .int32)
  constructor
  · have htwo : two.WellFormed :=
      Value.recordsWellFormed_iff.mpr (by simp [Geo.pointAt_wellFormed])
    exact ⟨_, rfl, (harray _ (.index 0) _ htwo rfl).2.1 (by decide)⟩
  · have hgrid : grid.WellFormed := (rfl : dimsCount [2, 3] = .ok 6)
    exact ⟨_, rfl, (hblock _ (.index 0) _ hgrid rfl [3, 2]).trans (if_neg (by decide))⟩

end Scope

end TypedWire
