import TypedWire.Proofs.LinkMismatches

namespace TypedWire

open Checked

/-- What comes of the operations of the library, but for taking requests as flat ones and cutting
numbers into pieces. Proxies work on any link that is telling for the requests that they ask. -/
inductive Operation : {α : Type} → Checked α → Prop
  -- Numbers, elements and their children.
  | itemOfBytes (k bs) : Operation (Item.ofBytes k bs)
  | numbers (k bs) : Operation (Numbers.ofBytes k bs)
  | itemsOf (k a) : Operation (Numbers.itemsOf k a)
  | slice (a start n) : Operation (Numbers.slice a start n)
  | concat (k parts) : Operation (Numbers.concat k parts)
  | scalar (a) : Operation (Scalar.ofArray a)
  | itemOf (k s) : Operation (Scalar.itemOf k s)
  | element (i t c) : Operation (Element.make i t c)
  | array (e) : Operation (Element.array e)
  | arrayOf (k e) : Operation (Element.arrayOf k e)
  | text (e) : Operation (Element.text e)
  | list (e) : Operation (Element.list e)
  | listOf (k e) : Operation (Element.listOf k e)
  | item (k e) : Operation (Element.item k e)
  | container (kind t) (es : List Element) : Operation (Container.make kind t es)
  | expectType (l : Container Element) (t) : Operation (l.expectType t)
  | position (n) : Operation (position n)
  | packEach {β : Type} {pack : Int32 → β → Checked Element} {xs : List β} :
      (∀ x ∈ xs, ∀ i, (pack i x).Telling) → Operation (packEach pack xs)
  | expectPositions (ids) : Operation (expectPositions ids)
  | children (xs : List (Key × Element)) : Operation (NamedChildren.ofList xs)
  | take (c : NamedChildren Element) (s) : Operation (c.take s)
  | expectNone (c : NamedChildren Element) : Operation c.expectNone
  -- Axes, lengths and host types.
  | dimsCount (dims) : Operation (dimsCount dims)
  | expectCount (dims n) : Operation (expectCount dims n)
  | expectDims (expected found) : Operation (expectDims expected found)
  | block {β : Type} (dims) (xs : List β) : Operation (Block.make dims xs)
  | wrapBlock (kind t dims array) : Operation (wrapBlock kind t dims array)
  | unwrapBlock (es) : Operation (unwrapBlock (fun e => e) es)
  | extent (len n) : Operation (Extent.check len n)
  | keyKind (d) : Operation (Ty.keyKind d)
  | ofValue (t v) : Operation (HostType.ofValue t v)
  | field (r t name) : Operation (Record.get r t name)
  -- Definitions, and who knows them.
  | splitName (q) : Operation (splitName q)
  | defineStruct (t fields) : Operation (StructType.make t fields)
  | podMember (name of shape) : Operation (PodMember.named name of shape)
  | definePod (t fields) : Operation (PodType.make t fields)
  | defineNamed (t k parts) : Operation (NamedType.make t k parts)
  | namedLength (k p) : Operation (NamedPart.length k p)
  | namedSize (d) : Operation (NamedType.size d)
  | namedRecord (d a) : Operation (NamedType.record d a)
  | namedField (d r name) : Operation (NamedType.get d r name)
  | service (owner structs pods named) : Operation (Service.make owner structs pods named)
  | register (r s) : Operation (Registry.register r s)
  | serviceOf (r ns) : Operation (Registry.service r ns)
  | resolve (r q) : Operation (Registry.resolve r q)
  | bind (r ns) : Operation (Scope.bind r ns)
  | struct (Γ q) : Operation (Scope.struct Γ q)
  | pod (Γ q) : Operation (Scope.pod Γ q)
  | named (Γ q) : Operation (Scope.named Γ q)
  -- Packing and unpacking, by a scope or by one definition.
  | pack (Γ i v d) : Operation (Scope.pack Γ i v d)
  | packAny (Γ i v) : Operation (Scope.packAny Γ i v)
  | unpack {Γ : Scope} (hΓ : Γ.Built) (e d) : Operation (Γ.unpack e d)
  | unpackAny {Γ : Scope} (hΓ : Γ.Built) (e) : Operation (Γ.unpackAny e)
  | unpackAs {Γ : Scope} (hΓ : Γ.Built) (e d t) : Operation (Γ.unpackAs e d t)
  | encodeStruct (d : StructType) (Γ r) : Operation (d.encode (Scope.encodeParts Γ r))
  | decodeStruct (d : StructType) {Γ : Scope} (hΓ : Γ.Built) (l) :
      Operation (d.decode (Γ.readerList l))
  | encodePod (d : PodType) (Γ r) : Operation (d.encodeOne (Scope.encodeParts Γ r))
  | decodePod (d : PodType) {Γ : Scope} (hΓ : Γ.Built) (l) :
      Operation (d.decodeOne (Γ.readerList l))
  | encodePods (d : PodType) (Γ : Scope) (rs : List (Record Value)) :
      Operation (d.encodeArray (rs.map Γ.encodeParts))
  | decodePods (d : PodType) {Γ : Scope} (hΓ : Γ.Built) (l) :
      Operation (d.decodeArray (Γ.readerList l))
  | encodePodBlock (d : PodType) (Γ : Scope) (dims) (rs : List (Record Value)) :
      Operation (d.encodeBlock ⟨dims, rs.map Γ.encodeParts⟩)
  | decodePodBlock (d : PodType) {Γ : Scope} (hΓ : Γ.Built) (l) :
      Operation (d.decodeBlock (Γ.readerList l))
  | encodeNamed (d : NamedType) (rs) : Operation (d.encodeArray rs)
  | decodeNamed {d : NamedType} (hd : d.Built) (l) : Operation (d.decodeArray l)
  | encodeNamedBlock (d : NamedType) (b) : Operation (d.encodeBlock b)
  | decodeNamedBlock {d : NamedType} (hd : d.Built) (l) : Operation (d.decodeBlock l)
  | only {β : Type} (xs : List β) : Operation (only xs)
  | codecPod (Γ t) : Operation (ItemCodec.pod Γ t)
  | codecNamed (Γ t) : Operation (ItemCodec.named Γ t)
  -- Regions and plans.
  | readFlat {β : Type} (region : List β) (pos n) : Operation (Region.readFlat region pos n)
  | writeFlat {β : Type} (region : List β) (pos xs) : Operation (Region.writeFlat region pos xs)
  | loadFlat {β : Type} (region : List β) (pos buffer start n) :
      Operation (Region.loadFlat region pos buffer start n)
  | storeFlat {β : Type} (region : List β) (pos buffer start n) :
      Operation (Region.storeFlat region pos buffer start n)
  | readBlock {β : Type} (region : Block β) (pos counts) :
      Operation (Region.readBlock region pos counts)
  | writeBlock {β : Type} (region : Block β) (pos b) : Operation (Region.writeBlock region pos b)
  | loadBlock {β : Type} (region : Block β) (pos buffer start counts) :
      Operation (Region.loadBlock region pos buffer start counts)
  | storeBlock {β : Type} (region : Block β) (pos buffer start counts) :
      Operation (Region.storeBlock region pos buffer start counts)
  | itemsPerMessage (limit size) : Operation (itemsPerMessage limit size)
  | flatPlan (p n) : Operation (FlatPlan.takeChecked n p)
  | plan (pos count max) : Operation (BlockPlan.make pos count max)
  | cellCount (q) : Operation (Request.cellCount q)
  -- Proxies, in any state of the link and whenever they are stopped.
  | length {σ β : Type} {p : Proxy σ β} (hl : p.link.Telling Request.Fits) (s) :
      Operation (p.length.outcome s).1
  | dimensions {σ β : Type} {p : Proxy σ β} (hl : p.link.Telling Request.Fits) (s) :
      Operation (p.dimensions.outcome s).1
  | requireDims {σ β : Type} {p : Proxy σ β} (hl : p.link.Telling Request.Fits) (dims s) :
      Operation ((p.requireDims dims).outcome s).1
  | remoteReadFlat {σ β : Type} {p : Proxy σ β} (hc : p.codec.Telling)
      (hl : p.link.Telling Request.Fits) (stop pos start n s) :
      Operation ((p.readFlat stop pos start n).outcome s).1
  | remoteWriteFlat {σ β : Type} {p : Proxy σ β} (hc : p.codec.Telling)
      (hl : p.link.Telling Request.Fits) (stop pos buffer start n s) :
      Operation ((p.writeFlat stop pos buffer start n).outcome s).1
  | remoteReadBlock {σ β : Type} {p : Proxy σ β} (hc : p.codec.Telling)
      (hl : p.link.Telling Request.Fits) (stop pos start counts s) :
      Operation ((p.readBlock stop pos start counts).outcome s).1
  | remoteWriteBlock {σ β : Type} {p : Proxy σ β} (hc : p.codec.Telling)
      (hl : p.link.Telling Request.Fits) (stop pos buffer start counts s) :
      Operation ((p.writeBlock stop pos buffer start counts).outcome s).1

theorem Operation.telling {α : Type} {x : Checked α} (h : Operation x) : x.Telling := by
  cases h with
  | packEach h => exact telling_packEach h
  | unpack hΓ e d => exact Scope.telling_unpack hΓ e d
  | unpackAny hΓ e => exact Scope.telling_unpack hΓ e .any
  | unpackAs hΓ e d t => exact Scope.telling_unpackAs hΓ e d t
  | encodeStruct d Γ r => exact telling_encodeRecord _ _ (Γ.telling_parts r)
  | decodeStruct d hΓ l =>
    exact Scope.telling_decodeRecord _ _ _ fun c _ => Scope.telling_unpack hΓ c
  | encodePod d Γ r => exact d.telling_encodeOne (Γ.telling_parts r)
  | decodePod d hΓ l =>
    exact Scope.telling_decodeRecord _ _ _ fun c _ => Scope.telling_unpack hΓ c
  | encodePods d Γ rs =>
    exact d.telling_encodeArray (List.forall_mem_map.mpr fun r _ => Γ.telling_parts r)
  | decodePods d hΓ l => exact Scope.telling_decodePodArray d fun c _ => Scope.everywhere_tells hΓ c
  | encodePodBlock d Γ dims rs =>
    exact d.telling_encodeBlock dims (List.forall_mem_map.mpr fun r _ => Γ.telling_parts r)
  | decodePodBlock d hΓ l =>
    exact Scope.telling_decodePodBlock d fun c _ => Scope.everywhere_tells hΓ c
  | decodeNamed hd l => exact Scope.telling_decodeNamedArray hd.count_ne_zero l
  | decodeNamedBlock hd l => exact Scope.telling_decodeNamedBlock hd.count_ne_zero l
  | cellCount q => exact Region.telling_cellCount q.count
  | length hl s => exact Proxy.telling_length hl s
  | dimensions hl s => exact hl.dimensions s
  | requireDims hl dims s => exact Proxy.telling_requireDims hl dims s
  | remoteReadFlat hc hl stop pos start n s =>
    exact Proxy.telling_readFlat hc hl stop pos start n s
  | remoteWriteFlat hc hl stop pos buffer start n s =>
    exact Proxy.telling_writeFlat hc hl stop pos buffer start n s
  | remoteReadBlock hc hl stop pos start counts s =>
    exact Proxy.telling_readBlock hc hl stop pos start counts s
  | remoteWriteBlock hc hl stop pos buffer start counts s =>
    exact Proxy.telling_writeBlock hc hl stop pos buffer start counts s
  | _ => simp

/-- A mismatch names two things that differ, whichever operation refuses and whatever it is given.
The exceptions are exactly a request that does not fit, where it is to be flat or meets a flat
region, and cutting no items to no width. -/
theorem mismatches_tell (q : Request) (a : Numbers) (width : Nat) :
    (∀ {α : Type} {x : Checked α}, Operation x → x.Telling) ∧
      (q.span.Telling ↔ q.Fits) ∧
      ((a.split width).Telling ↔ ¬(width = 0 ∧ a.length = 0)) ∧
      ∀ {Γ : Scope} {α : Type} {codec : ItemCodec α} {Sound : α → Prop}, Γ.Built →
        codec.OfScope Γ Sound →
        codec.Telling ∧ (Link.serveBlock codec).Telling (fun _ => True) ∧
          (Link.serveFlat codec).Telling Request.Fits ∧
          (((Link.serveFlat codec).read q).Telling ↔ q.Fits) ∧
          ∀ e, ((Link.serveFlat codec).write q e).Telling ↔ q.Fits := by
  refine ⟨Operation.telling, q.telling_span_iff, a.telling_split_iff width, ?_⟩
  intro Γ α codec Sound hΓ h
  have hc : codec.Telling := h.telling hΓ
  exact ⟨hc, Link.telling_serveBlock hc, Link.telling_serveFlat hc,
    Link.telling_serveFlat_read_iff hc q, Link.telling_serveFlat_write_iff hc q⟩

theorem mismatches_of_equals :
    Request.span ⟨[1, 2], [3]⟩ = .error (.dimensionMismatch [1] [1]) ∧
      ¬(Request.span ⟨[1, 2], [3]⟩).Telling ∧
      Numbers.split ⟨.int8, []⟩ 0 = .error (.lengthMismatch 0 0) ∧
      ¬(Numbers.split ⟨.int8, []⟩ 0).Telling :=
  ⟨rfl, fun h => h _ rfl rfl, rfl, fun h => h _ rfl rfl⟩

end TypedWire
