import TypedWire.Numeric.Numbers
import TypedWire.Toml.Document

namespace TypedWire

inductive SettingsError
  | unreadable
  | malformed
  | zeroLimit
  | unwritable
  deriving DecidableEq

namespace SettingsError

def message? : SettingsError → Option String
  | .zeroLimit => some "Invalid configuration: max_transfer_bytes must be greater than 0"
  | .unwritable => some "Invalid configuration: out-of-range value for u64 type"
  | .unreadable | .malformed => none

end SettingsError

def isSpace (c : Char) : Bool :=
  let n := c.toNat
  (9 ≤ n && n ≤ 13) || n == 0x20 || n == 0x85 || n == 0xa0 || n == 0x1680 ||
    (0x2000 ≤ n && n ≤ 0x200a) || n == 0x2028 || n == 0x2029 || n == 0x202f || n == 0x205f ||
    n == 0x3000

def trimSpace (s : String) : String :=
  String.ofList ((s.toList.dropWhile isSpace).reverse.dropWhile isSpace).reverse

structure Settings where
  limit : Nat
  deriving DecidableEq

namespace Settings

def default : Settings := ⟨10 * 1024 * 1024⟩

def limitKey : String := "max_transfer_bytes"

def check (s : Settings) : Except SettingsError Unit :=
  if s.limit = 0 then .error .zeroLimit else .ok ()

/-- The settings that a TOML text holds; other keys are ignored. -/
def ofToml (read : Toml.Reader) (text : String) : Except SettingsError Settings := do
  let some doc := read text | .error .malformed
  let s ←
    match Entries.get? limitKey doc with
    | none => .ok default
    | some (.integer n) => if 0 ≤ n then .ok ⟨n.toNat⟩ else .error .malformed
    | some _ => .error .malformed
  s.check
  return s

def ofFile (read : Toml.Reader) : Option (List UInt8) → Except SettingsError Settings
  | none => .error .unreadable
  | some bytes =>
    match String.fromUTF8? ⟨bytes.toArray⟩ with
    | some text => ofToml read text
    | none => .error .unreadable

/-- A variable with a positive 64-bit count takes the place of the limit. -/
def override (s : Settings) (raw : Option String) : Settings :=
  match raw.bind fun text => natOfText? (trimSpace text) with
  | some n => if 0 < n ∧ n < wordBound then ⟨n⟩ else s
  | none => s

def render (s : Settings) : Except SettingsError String :=
  if s.limit < Nat.pow 2 63 then .ok s!"{limitKey} = {s.limit}\n"
  else .error .unwritable

end Settings

structure Configuration where
  settings : Settings
  live : Settings
  deriving DecidableEq

inductive SettingsStep
  | toml (text : String)
  | file (bytes : Option (List UInt8))
  | applyEnv (raw : Option String)
  | fromEnv (raw : Option String)
  | assign (n : Nat)
  | check
  | update
  | setLive (n : Nat)

namespace Configuration

def default : Configuration := ⟨.default, .default⟩

def setLive (c : Configuration) (s : Settings) : Except SettingsError Configuration := do
  s.check
  return { c with live := s }

def step (read : Toml.Reader) (c : Configuration) :
    SettingsStep → Except SettingsError Configuration
  | .toml text => return { c with settings := ← Settings.ofToml read text }
  | .file bytes => return { c with settings := ← Settings.ofFile read bytes }
  | .applyEnv raw => .ok { c with settings := c.settings.override raw }
  | .fromEnv raw => .ok { c with settings := Settings.default.override raw }
  | .assign n => .ok { c with settings := ⟨n⟩ }
  | .check => do
    c.settings.check
    return c
  | .update => c.setLive c.settings
  | .setLive n => c.setLive ⟨n⟩

end Configuration

end TypedWire
