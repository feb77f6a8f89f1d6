import TypedWire.Settings
import TypedWire.Proofs.Decimals
import Mathlib.Data.List.TakeWhile

namespace TypedWire

/-- A text that is a count between blanks. -/
def Says (text : String) (n : Nat) : Prop :=
  ∃ before number after : List Char, text.toList = before ++ number ++ after ∧
    (∀ c ∈ before, isSpace c) ∧ (∀ c ∈ after, isSpace c) ∧ Counts number n

theorem not_isSpace_of_isDigit {c : Char} (h : c.isDigit) : ¬isSpace c := by
  have hrange : 48 ≤ c.toNat ∧ c.toNat ≤ 57 := by
    simp only [Char.isDigit, Bool.and_eq_true, decide_eq_true_eq] at h
    exact ⟨UInt32.le_iff_toNat_le.mp h.1, UInt32.le_iff_toNat_le.mp h.2⟩
  simp only [isSpace, Bool.or_eq_true, Bool.and_eq_true, decide_eq_true_eq, beq_iff_eq]
  omega

theorem Counts.not_isSpace {cs : List Char} {n : Nat} (h : Counts cs n) : ∀ c ∈ cs, ¬isSpace c := by
  cases h with
  | plain h => exact fun c hc => not_isSpace_of_isDigit (h.2 c hc)
  | plus h =>
    rw [List.forall_mem_cons]
    exact ⟨by decide, fun c hc => not_isSpace_of_isDigit (h.2 c hc)⟩

theorem Counts.ne_nil {cs : List Char} {n : Nat} (h : Counts cs n) : cs ≠ [] := by
  cases h with
  | plain h => exact h.1
  | plus => exact List.cons_ne_nil _ _

theorem dropWhile_blanks {blanks cs : List Char} (rest : List Char)
    (hblanks : ∀ c ∈ blanks, isSpace c) (hcs : ∀ c ∈ cs, ¬isSpace c) (hne : cs ≠ []) :
    (blanks ++ (cs ++ rest)).dropWhile isSpace = cs ++ rest := by
  obtain ⟨c, cs, rfl⟩ := List.exists_cons_of_ne_nil hne
  rw [List.dropWhile_append_of_pos hblanks]
  exact List.dropWhile_cons_of_neg (hcs c List.mem_cons_self)

theorem exists_trimSpace (text : String) :
    ∃ before after : List Char, text.toList = before ++ (trimSpace text).toList ++ after ∧
      (∀ c ∈ before, isSpace c) ∧ (∀ c ∈ after, isSpace c) := by
  let kept := text.toList.dropWhile isSpace
  refine ⟨text.toList.takeWhile isSpace, (kept.reverse.takeWhile isSpace).reverse, ?_,
    fun c hc => List.mem_takeWhile_imp hc,
    fun c hc => List.mem_takeWhile_imp (List.mem_reverse.mp hc)⟩
  rw [trimSpace, String.toList_ofList, List.append_assoc, ← List.reverse_append,
    List.takeWhile_append_dropWhile, List.reverse_reverse, List.takeWhile_append_dropWhile]

theorem toList_trimSpace {text : String} {before number after : List Char} {n : Nat}
    (htext : text.toList = before ++ number ++ after) (hbefore : ∀ c ∈ before, isSpace c)
    (hafter : ∀ c ∈ after, isSpace c) (hnumber : Counts number n) :
    (trimSpace text).toList = number := by
  have hafter' : ∀ c ∈ after.reverse, isSpace c := fun c hc => hafter c (List.mem_reverse.mp hc)
  have hnumber' : ∀ c ∈ number.reverse, ¬isSpace c :=
    fun c hc => hnumber.not_isSpace c (List.mem_reverse.mp hc)
  have hne : number.reverse ≠ [] := List.reverse_ne_nil_iff.mpr hnumber.ne_nil
  rw [trimSpace, String.toList_ofList, htext, List.append_assoc,
    dropWhile_blanks after hbefore hnumber.not_isSpace hnumber.ne_nil, List.reverse_append,
    ← List.append_nil number.reverse, dropWhile_blanks [] hafter' hnumber' hne, List.append_nil,
    List.reverse_reverse]

theorem natOfText?_trimSpace {text : String} {n : Nat} :
    natOfText? (trimSpace text) = some n ↔ Says text n := by
  rw [natOfText?_eq_some]
  constructor
  · intro h
    obtain ⟨before, after, htext, hbefore, hafter⟩ := exists_trimSpace text
    exact ⟨before, _, after, htext, hbefore, hafter, h⟩
  · rintro ⟨before, number, after, htext, hbefore, hafter, hnumber⟩
    rwa [toList_trimSpace htext hbefore hafter hnumber]

namespace Settings

theorem override_of_says {s : Settings} {text : String} {n : Nat} (h : Says text n) (hpos : 1 ≤ n)
    (hn : n < wordBound) : s.override (some text) = ⟨n⟩ := by
  rw [override, Option.bind_some, natOfText?_trimSpace.mpr h]
  exact if_pos ⟨hpos, hn⟩

theorem override_eq_self {s : Settings} {raw : Option String}
    (h : ∀ text ∈ raw, ∀ n, Says text n → ¬(1 ≤ n ∧ n < wordBound)) : s.override raw = s := by
  unfold override
  split
  · rename_i n hn
    obtain ⟨text, htext, hn⟩ := Option.bind_eq_some_iff.mp hn
    exact if_neg (h text htext n (natOfText?_trimSpace.mp hn))
  · rfl

end Settings

namespace Configuration

/-- Steps carried out where the configuration stands: what a step wrote before it failed stays. -/
abbrev InPlace := EStateM SettingsError Configuration

def ofExcept {α : Type} : Except SettingsError α → InPlace α
  | .ok x => pure x
  | .error e => throw e

def write (s : Settings) : InPlace Unit := modify fun c => { c with settings := s }

def goLive (s : Settings) : InPlace Unit := do
  ofExcept s.check
  modify fun c => { c with live := s }

def perform (read : Toml.Reader) : SettingsStep → InPlace Unit
  | .toml text => do write (← ofExcept (Settings.ofToml read text))
  | .file bytes => do write (← ofExcept (Settings.ofFile read bytes))
  | .applyEnv raw => do write ((← get).settings.override raw)
  | .fromEnv raw => write (Settings.default.override raw)
  | .assign n => write ⟨n⟩
  | .check => do ofExcept (← get).settings.check
  | .update => do goLive (← get).settings
  | .setLive n => goLive ⟨n⟩

def outcome (read : Toml.Reader) (st : SettingsStep) (c : Configuration) :
    Except SettingsError Unit × Configuration :=
  match perform read st c with
  | .ok _ c' => (.ok (), c')
  | .error e c' => (.error e, c')

/-- What steps reach one after the other, each carried out whatever became of those before. -/
def run (read : Toml.Reader) (steps : List SettingsStep) (c : Configuration) : Configuration :=
  steps.foldl (fun c st => (outcome read st c).2) c

variable {read : Toml.Reader} {c c' : Configuration} {st : SettingsStep}
  {r : Except SettingsError Unit}

theorem outcome_eq (st : SettingsStep) (c : Configuration) : outcome read st c =
    match c.step read st with
    | .ok c' => (.ok (), c')
    | .error e => (.error e, c) := by
  cases st with
  | toml text =>
    simp only [outcome, perform, step]
    cases Settings.ofToml read text <;> rfl
  | file bytes =>
    simp only [outcome, perform, step]
    cases Settings.ofFile read bytes <;> rfl
  | applyEnv raw => rfl
  | fromEnv raw => rfl
  | assign n => rfl
  | check =>
    change (match (ofExcept c.settings.check) c with | .ok _ c' => _ | .error e c' => _) = _
    simp only [step]
    cases c.settings.check <;> rfl
  | update =>
    change (match (goLive c.settings) c with | .ok _ c' => _ | .error e c' => _) = _
    simp only [step, setLive, goLive]
    cases c.settings.check <;> rfl
  | setLive n =>
    simp only [outcome, perform, step, setLive, goLive]
    cases Settings.check ⟨n⟩ <;> rfl

theorem outcome_error {e : SettingsError} (h : outcome read st c = (.error e, c')) : c' = c := by
  rw [outcome_eq] at h
  split at h
  · cases h
  · exact (Prod.ext_iff.mp h).2.symm

theorem setLive_eq (c : Configuration) (s : Settings) :
    c.setLive s = if 1 ≤ s.limit then .ok { c with live := s } else .error .zeroLimit := by
  simp only [setLive, Settings.check]
  by_cases h : s.limit = 0
  · simp [h, bind, Except.bind]
  · simp [h, Nat.one_le_iff_ne_zero, bind, Except.bind, pure, Except.pure]

inductive Offers (c : Configuration) : SettingsStep → Settings → Prop
  | update : Offers c .update c.settings
  | setLive {n : Nat} : Offers c (.setLive n) ⟨n⟩

variable {s : Settings}

theorem Offers.step_eq (h : Offers c st s) : c.step read st = c.setLive s := by
  cases h <;> rfl

theorem Offers.accepted (h : Offers c st s) (hpos : 1 ≤ s.limit) :
    outcome read st c = (.ok (), { c with live := s }) := by
  rw [outcome_eq, h.step_eq, setLive_eq, if_pos hpos]

theorem Offers.refused (h : Offers c st s) (hzero : s.limit = 0) :
    outcome read st c = (.error .zeroLimit, c) := by
  rw [outcome_eq, h.step_eq, setLive_eq, if_neg (by omega)]

theorem live_of_not_offers (h : ∀ s, ¬Offers c st s) : (outcome read st c).2.live = c.live := by
  rw [outcome_eq]
  cases st with
  | toml text =>
    simp only [step]
    cases Settings.ofToml read text <;> rfl
  | file bytes =>
    simp only [step]
    cases Settings.ofFile read bytes <;> rfl
  | applyEnv raw => rfl
  | fromEnv raw => rfl
  | assign n => rfl
  | check =>
    simp only [step]
    cases c.settings.check <;> rfl
  | update => exact (h _ .update).elim
  | setLive n => exact (h _ .setLive).elim

theorem offers_of_live_ne (h : outcome read st c = (r, c')) (hne : c'.live ≠ c.live) :
    r = .ok () ∧ Offers c st c'.live ∧ 1 ≤ c'.live.limit := by
  by_cases hoffers : ∃ s, Offers c st s
  · obtain ⟨s, hs⟩ := hoffers
    by_cases hpos : 1 ≤ s.limit
    · rw [hs.accepted hpos, Prod.mk.injEq] at h
      obtain ⟨rfl, rfl⟩ := h
      exact ⟨rfl, hs, hpos⟩
    · rw [hs.refused (by omega), Prod.mk.injEq] at h
      exact absurd (congrArg live h.2.symm) hne
  · have hlive : (outcome read st c).2.live = c.live :=
      live_of_not_offers fun s hs => hoffers ⟨s, hs⟩
    rw [h] at hlive
    exact absurd hlive hne

theorem live_pos_outcome (st : SettingsStep) (h : 1 ≤ c.live.limit) :
    1 ≤ (outcome read st c).2.live.limit := by
  by_cases hlive : (outcome read st c).2.live = c.live
  · rwa [hlive]
  · exact (offers_of_live_ne rfl hlive).2.2

theorem live_pos_run (steps : List SettingsStep) (h : 1 ≤ c.live.limit) :
    1 ≤ (run read steps c).live.limit := by
  induction steps generalizing c with
  | nil => exact h
  | cons st steps ih => exact ih (live_pos_outcome st h)

/-- What holds of a configuration that steps have reached, whichever step is next. -/
structure Usable (read : Toml.Reader) (c : Configuration) : Prop where
  live_pos : 1 ≤ c.live.limit
  rejected : ∀ {st e c'}, outcome read st c = (.error e, c') → c' = c
  moved : ∀ {st r c'}, outcome read st c = (r, c') → c'.live ≠ c.live →
    r = .ok () ∧ Offers c st c'.live
  accepted : ∀ {st s}, Offers c st s → 1 ≤ s.limit →
    outcome read st c = (.ok (), { c with live := s })
  refused : ∀ {st s}, Offers c st s → s.limit = 0 → outcome read st c = (.error .zeroLimit, c)
  counted : ∀ {text n}, Says text n → 1 ≤ n → n < wordBound →
    outcome read (.applyEnv (some text)) c = (.ok (), { c with settings := ⟨n⟩ })
  ignored : ∀ {raw}, (∀ text ∈ raw, ∀ n, Says text n → ¬(1 ≤ n ∧ n < wordBound)) →
    outcome read (.applyEnv raw) c = (.ok (), c)

theorem usable_run (read : Toml.Reader) (steps : List SettingsStep) :
    Usable read (run read steps .default) where
  live_pos := live_pos_run steps (by decide)
  rejected := outcome_error
  moved h hne := ⟨(offers_of_live_ne h hne).1, (offers_of_live_ne h hne).2.1⟩
  accepted := Offers.accepted
  refused := Offers.refused
  counted h hpos hn := by
    rw [outcome_eq, step, Settings.override_of_says h hpos hn]
  ignored h := by
    rw [outcome_eq, step, Settings.override_eq_self h]

example :
    (run Toml.parse? [.assign 0, .update, .applyEnv (some " +2048\n"), .update] .default).live =
      ⟨2048⟩ := by
  decide

end Configuration

end TypedWire
