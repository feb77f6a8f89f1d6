import TypedWire.Proofs.Canonical
import TypedWire.Proofs.Rearranging
import Mathlib.Logic.Equiv.Defs
import Mathlib.Order.WellFounded

namespace TypedWire

namespace Element

structure Displaced (es : List Element) (n : Nat) (e : Element) : Prop where
  here : es[n]? = some e
  before : ∀ m < n, ∃ c, es[m]? = some c ∧ c.At m
  away : ¬e.At n

variable {es : List Element}

theorem Positioned.length_le (h : Positioned es) : es.length ≤ positionBound := by
  simpa using length_of_expectPositionsFrom (Nat.zero_le _) (expectPositions_eq_ok.mpr h)

theorem expectPositions_displaced {n : Nat} {e : Element} (h : Displaced es n e)
    (hn : n < positionBound) :
    expectPositions (es.map (·.key)) = .error (.positionMismatch n e.key.text) := by
  have hfrom : expectPositionsFrom 0 (es.map (·.key)) =
      .error (.positionMismatch (0 + n) e.key.text) := by
    apply expectPositionsFrom_displaced
    · rwa [Nat.zero_add]
    · rw [List.getElem?_map, h.here]
      rfl
    · intro m hm
      obtain ⟨c, hc, hat⟩ := h.before m hm
      rw [List.getElem?_map, hc, Nat.zero_add, Option.map_some, (at_iff.mp hat).2]
    · intro hkey
      rw [Nat.zero_add] at hkey
      exact h.away (at_iff.mpr ⟨hn, hkey⟩)
  rwa [Nat.zero_add] at hfrom

theorem Positioned.displaced (h : Positioned es) {σ : Equiv.Perm (Fin es.length)}
    {n : Fin es.length} (hn : σ n ≠ n) (hbefore : ∀ m < n, σ m = m) :
    Displaced (List.ofFn fun m => es[σ m]) n es[σ n] where
  here := by simp
  before m hm := by
    have hm' : m < es.length := Nat.lt_trans hm n.isLt
    refine ⟨es[m], ?_, h m _ (List.getElem?_eq_getElem hm')⟩
    have hσ : σ ⟨m, hm'⟩ = ⟨m, hm'⟩ := hbefore _ hm
    simp [hm', hσ]
  away := by
    rintro ⟨i, hkey, hi⟩
    obtain ⟨j, hkey', hj⟩ := h (σ n) es[σ n] (by simp)
    cases hkey.symm.trans hkey'
    exact hn (Fin.ext (Int.ofNat_inj.mp (hj.symm.trans hi)))

theorem exists_first_moved {n : Nat} {σ : Equiv.Perm (Fin n)} (h : σ ≠ Equiv.refl _) :
    ∃ m, σ m ≠ m ∧ ∀ k < m, σ k = k := by
  have hmoved : ∃ m, σ m ≠ m := by
    by_contra hall
    push Not at hall
    exact h (Equiv.ext hall)
  obtain ⟨m, hm, hmin⟩ := (measure Fin.val).wf.has_min {m : Fin n | σ m ≠ m} hmoved
  exact ⟨m, hm, fun k hk => not_not.mp fun hne => hmin k hne hk⟩

end Element

open Element

def Ty.listKind? : Ty → Option ListKind
  | .block .. => some .block
  | .map key _ =>
    match key.keyKind with
    | .ok .int32 => some .vector
    | .ok .text => some .dictionary
    | .error _ => none
  | .list _ => some .list
  | .struct _ => some .struct
  | .pod _ .single | .pod _ (.array _) => some .podArray
  | .pod _ (.block _) => some .podBlock
  | .named _ .single | .named _ (.array _) => some .namedArray
  | .named _ (.block _) => some .namedBlock
  | .any | .scalar _ | .array .. | .text | .enum _ => none

theorem Ty.listKind?_eq_list {d : Ty} : d.listKind? = some .list ↔ ∃ item, d = .list item := by
  unfold listKind?
  split <;> (try split) <;> simp

theorem Ty.listKind?_eq_podArray {d : Ty} : d.listKind? = some .podArray ↔
    ∃ t, d = .pod t .single ∨ ∃ len, d = .pod t (.array len) := by
  unfold listKind?
  split <;> (try split) <;> simp

inductive Value.Positional : Value → ListKind → Prop
  | list (vs) : Positional (.list vs) .list
  | podArray (t rs) : Positional (.podArray t rs) .podArray

namespace Scope

variable {Γ : Scope} {i : Key} {kind : ListKind} {t : Option String} {es : List Element} {d : Ty}
  {v : Value} {e : Element}

theorem decodeAs_list (item : Ty) :
    Γ.decodeAs (.nested i .list t es) (es.map Γ.reader) (.list item) = (do
      expectPositions (es.map (·.key))
      return .list (← es.mapM (Γ.unpack · item))) := by
  have hlist : (Element.nested i .list t es).listWith .list (es.map Γ.reader) =
      .ok ⟨.list, t, es.map Γ.reader⟩ := Element.listWith_nested.mpr ⟨rfl, rfl⟩
  rw [decodeAs, Checked.bind_ok hlist, keys_readers, List.mapM_map]
  rfl

theorem decodeArray_displaced {p : PodType} {n : Nat} (h : Displaced es n e)
    (hn : n < positionBound) : p.decodeArray ⟨.podArray, some p.typeName, es.map Γ.reader⟩ =
      .error (.positionMismatch n e.key.text) := by
  simp only [PodType.decodeArray, Container.expectKind, Container.expectType, if_true,
    keys_readers, expectPositions_displaced h hn]
  rfl

theorem positioned_of_decodeArray {p : PodType} {l : Container Element} {rs : List (Record Value)}
    (h : p.decodeArray (Γ.readerList l) = .ok rs) : Positioned l.items ∧
      List.Forall₂ (fun e r => Γ.look e (.record p) = .ok r) l.items rs := by
  simp only [PodType.decodeArray, Checked.bind_eq_ok, Checked.exists_unit, readerList,
    Container.map, List.map_map, List.mapM_map, Function.comp_def, element_reader,
    Checked.mapM_eq_ok] at h
  obtain ⟨-, -, hpos, hrs⟩ := h
  exact ⟨expectPositions_eq_ok.mp hpos, hrs.imp fun _ _ => Checked.bind_eq_ok.mpr⟩

theorem refuses_displaced (hΓ : Γ.Built) (hv : v.Positional kind)
    (h : Γ.pack i v d = .ok e) : ∃ t es, e = .nested i kind t es ∧ Positioned es ∧
      ∀ es' n c, Displaced es' n c → n < positionBound →
        Γ.unpack (.nested i kind t es') d = .error (.positionMismatch n c.key.text) := by
  cases hv with
  | list vs =>
    obtain ⟨item, es, hown, hes, rfl⟩ := encode_list.mp h
    refine ⟨_, es, rfl, positioned_of_packEach (fun _ _ _ => key_encode) hes, ?_⟩
    intro es' n c hc hn
    rw [unpack_own (v := .list vs) (by simp) rfl, hown]
    refine (decodeAs_list item).trans ?_
    rw [expectPositions_displaced hc hn]
    rfl
  | podArray t rs =>
    obtain ⟨len, hown, -, p, hp, l, hl, rfl⟩ := encode_podArray.mp h
    obtain ⟨hname, -⟩ := hΓ.pod hp
    obtain ⟨es, rfl, hes, -⟩ := records_of_encodeArray (P := fun _ => True) hl
      fun _ _ _ _ _ _ _ _ => trivial
    refine ⟨_, es, rfl, hes, ?_⟩
    intro es' n c hc hn
    have hlist : (Element.nested i .podArray (some p.typeName) es').listWith .podArray
        (es'.map Γ.reader) = .ok ⟨.podArray, some p.typeName, es'.map Γ.reader⟩ :=
      Element.listWith_nested.mpr ⟨rfl, rfl⟩
    rw [unpack_own (v := .podArray t rs) (by simp) (by rw [← hname]; rfl), hown, decodeAs,
      decodePods, Checked.bind_ok hp]
    refine (Checked.bind_ok hlist _).trans ?_
    rw [decodeArray_displaced hc hn]
    rfl

theorem listKind?_of_decodeAs {cs : List Reader} (hd : d ≠ .any)
    (h : Γ.decodeAs (.nested i kind t es) cs d = .ok v) : d.listKind? = some kind := by
  cases d with
  | any => exact absurd rfl hd
  | block k dims =>
    simp only [decodeAs, Checked.bind_eq_ok, Element.listOf_nested] at h
    obtain ⟨_, ⟨rfl, -⟩, -⟩ := h
    rfl
  | map key value =>
    simp only [decodeAs, Checked.bind_eq_ok] at h
    obtain ⟨kk, hk, h⟩ := h
    rw [Ty.listKind?, hk]
    cases kk <;> simp only [Checked.bind_eq_ok, Element.listWith_nested] at h <;>
      obtain ⟨_, ⟨rfl, -⟩, -⟩ := h <;> rfl
  | list item =>
    simp only [decodeAs, Checked.bind_eq_ok, Element.listWith_nested] at h
    obtain ⟨_, ⟨rfl, -⟩, -⟩ := h
    rfl
  | struct u =>
    simp only [decodeAs, Checked.bind_eq_ok, Element.listWith_nested] at h
    obtain ⟨_, ⟨rfl, -⟩, -⟩ := h
    rfl
  | pod u shape =>
    simp only [decodeAs, decodePods, Checked.bind_eq_ok] at h
    obtain ⟨p, -, h⟩ := h
    cases shape <;> simp only [Checked.bind_eq_ok, Element.listWith_nested] at h <;>
      obtain ⟨_, ⟨rfl, -⟩, -⟩ := h <;> rfl
  | named u shape =>
    simp only [decodeAs, decodeNamed, Checked.bind_eq_ok] at h
    obtain ⟨a, -, h⟩ := h
    cases shape <;> simp only [Checked.bind_eq_ok, Element.listOf_nested] at h <;>
      obtain ⟨_, ⟨rfl, -⟩, -⟩ := h <;> rfl
  | _ => simp [decodeAs, Element.arrayOf, Element.text] at h

theorem unpack_nested (h : Γ.unpack (.nested i kind t es) d = .ok v) :
    ∃ d', d.orTag (.nested i kind t es) = .ok d' ∧ d'.listKind? = some kind ∧
      Γ.decodeAs (.nested i kind t es) (es.map Γ.reader) d' = .ok v := by
  have he : (Element.nested i kind t es).tag ≠ .void := by simp
  obtain ⟨d', hd', h⟩ := (unpack_eq_ok he).mp h
  exact ⟨d', hd', listKind?_of_decodeAs (orTag_ne_any he hd') h, h⟩

theorem list_of_unpack (h : Γ.unpack (.nested i .list t es) d = .ok v) :
    ∃ item vs, d.orTag (.nested i .list t es) = .ok (.list item) ∧ v = .list vs ∧
      Positioned es ∧ List.Forall₂ (fun e v => Γ.unpack e item = .ok v) es vs := by
  obtain ⟨d', hd', hkind, h⟩ := unpack_nested h
  obtain ⟨item, rfl⟩ := Ty.listKind?_eq_list.mp hkind
  simp only [decodeAs_list, Checked.bind_eq_ok, Checked.exists_unit, Checked.pure_eq_ok,
    Checked.mapM_eq_ok, expectPositions_eq_ok] at h
  obtain ⟨hpos, vs, hvs, rfl⟩ := h
  exact ⟨item, vs, hd', rfl, hpos, hvs⟩

theorem pods_of_unpack (hΓ : Γ.Built) (h : Γ.unpack (.nested i .podArray t es) d = .ok v) :
    ∃ p rs, Γ.pod p.typeName = .ok p ∧ t = some p.typeName ∧
      (v = .podArray p.typeName rs ∨ ∃ r, rs = [r] ∧ v = .pod r) ∧ Positioned es ∧
      List.Forall₂ (fun e r => Γ.look e (.record p) = .ok r) es rs := by
  obtain ⟨d', -, hkind, h⟩ := unpack_nested h
  obtain ⟨u, rfl | ⟨len, rfl⟩⟩ := Ty.listKind?_eq_podArray.mp hkind
  · simp only [decodeAs, decodePods, Checked.bind_eq_ok, Checked.pure_eq_ok,
      Element.listWith_nested, only_eq_ok] at h
    obtain ⟨p, hp, _, ⟨-, rfl⟩, rs, hrs, r, hr, rfl⟩ := h
    obtain ⟨hpos, hall⟩ := positioned_of_decodeArray (l := ⟨.podArray, t, es⟩) hrs
    obtain rfl : p.typeName = u := (hΓ.pod hp).1
    exact ⟨p, rs, hp, (PodType.typeName_of_decodeArray hrs).1, .inr ⟨r, hr, rfl⟩, hpos, hall⟩
  · simp only [decodeAs, decodePods, Checked.bind_eq_ok, Checked.exists_unit, Checked.pure_eq_ok,
      Element.listWith_nested] at h
    obtain ⟨p, hp, _, ⟨-, rfl⟩, rs, hrs, -, rfl⟩ := h
    obtain ⟨hpos, hall⟩ := positioned_of_decodeArray (l := ⟨.podArray, t, es⟩) hrs
    obtain rfl : p.typeName = u := (hΓ.pod hp).1
    exact ⟨p, rs, hp, (PodType.typeName_of_decodeArray hrs).1, .inl rfl, hpos, hall⟩

/-- Positions hold the children of lists and of arrays of pods in place: no reordering of what was
packed is read, and nothing is read that does not go by 0, 1, 2 and so on. -/
theorem positions_guarded (hΓ : Γ.Built) :
    (∀ v kind, v.Positional kind → ∀ i d e, Γ.pack i v d = .ok e →
      ∃ t es, e = .nested i kind t es ∧ ∀ σ : Equiv.Perm (Fin es.length), σ ≠ Equiv.refl _ →
        ∃ n, σ n ≠ n ∧ (∀ m < n, σ m = m) ∧
          Γ.unpack (.nested i kind t (List.ofFn fun m => es[σ m])) d =
            .error (.positionMismatch n es[σ n].key.text)) ∧
    (∀ i t es d v, Γ.unpack (.nested i .list t es) d = .ok v →
      Positioned es ∧ es.length ≤ positionBound ∧
        ∃ item vs, d.orTag (.nested i .list t es) = .ok (.list item) ∧ v = .list vs ∧
          List.Forall₂ (fun e v => Γ.unpack e item = .ok v) es vs) ∧
    (∀ i t es d v, Γ.unpack (.nested i .podArray t es) d = .ok v →
      Positioned es ∧ es.length ≤ positionBound ∧
        ∃ p rs, Γ.pod p.typeName = .ok p ∧ t = some p.typeName ∧
          (v = .podArray p.typeName rs ∨ ∃ r, rs = [r] ∧ v = .pod r) ∧
          List.Forall₂ (fun e r => Γ.look e (.record p) = .ok r) es rs) ∧
    (∀ (p : PodType) l rs, p.decodeArray (Γ.readerList l) = .ok rs →
      Positioned l.items ∧ l.items.length ≤ positionBound ∧
        List.Forall₂ (fun e r => Γ.look e (.record p) = .ok r) l.items rs) := by
  refine ⟨?_, ?_, ?_, ?_⟩
  · intro v kind hv i d e h
    obtain ⟨t, es, rfl, hes, hrefuse⟩ := refuses_displaced hΓ hv h
    refine ⟨t, es, rfl, fun σ hσ => ?_⟩
    obtain ⟨n, hn, hbefore⟩ := exists_first_moved hσ
    exact ⟨n, hn, hbefore, hrefuse _ _ _ (hes.displaced hn hbefore)
      (n.isLt.trans_le hes.length_le)⟩
  · intro i t es d v h
    obtain ⟨item, vs, hd, hv, hes, hall⟩ := list_of_unpack h
    exact ⟨hes, hes.length_le, item, vs, hd, hv, hall⟩
  · intro i t es d v h
    obtain ⟨p, rs, hp, ht, hv, hes, hall⟩ := pods_of_unpack hΓ h
    exact ⟨hes, hes.length_le, p, rs, hp, ht, hv, hall⟩
  · intro p l rs h
    obtain ⟨hes, hall⟩ := positioned_of_decodeArray h
    exact ⟨hes, hes.length_le, hall⟩

theorem positions_guarded_points : ∃ e,
    let d := Ty.pod "geo.Point" (.array (.bounded 4))
    Geo.scope.pack (.index 0) (.podArray "geo.Point" [Geo.pointAt 1 2, Geo.pointAt 3 4]) d =
      .ok e ∧
    (∃ t es, e = .nested (.index 0) .podArray t es ∧
      ∀ σ : Equiv.Perm (Fin es.length), σ ≠ Equiv.refl _ → ∃ n, σ n ≠ n ∧ (∀ m < n, σ m = m) ∧
        Geo.scope.unpack (.nested (.index 0) .podArray t (List.ofFn fun m => es[σ m])) d =
          .error (.positionMismatch n es[σ n].key.text)) ∧
    Positioned [.ofText (.index 0) "low", .ofText (.index 1) "high"] ∧
    Geo.scope.unpack (.nested (.index 0) .list none
        [.ofText (.index 0) "low", .ofText (.index 2) "high", .ofText (.index 1) "higher"])
      (.list .text) = .error (.positionMismatch 1 "#2") :=
  ⟨_, rfl, (positions_guarded Geo.scope_built).1
      (.podArray "geo.Point" [Geo.pointAt 1 2, Geo.pointAt 3 4]) _ (.podArray _ _) _ _ _ rfl,
    ((positions_guarded Geo.scope_built).2.1 (.index 0) none _ (.list .text) _ rfl).1, rfl⟩

end Scope

end TypedWire
