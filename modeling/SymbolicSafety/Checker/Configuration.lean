import SymbolicSafety.Checker.Setup
import SymbolicSafety.Solver.Basic
import SymbolicSafety.Toml.Reader

namespace SymbolicSafety

/-! Settings of a check, and the files that hold them. -/

structure Configuration where
  direction : Direction := .forward
  bound : Option Nat := none
  cumulative : Bool := true
  /-- In milliseconds. -/
  timeout : Option Nat := none
  limits : Limits := Limits.default
  deriving DecidableEq

inductive ConfigurationError where
  | malformed
  | zeroBound
  deriving DecidableEq, Repr

namespace Configuration

def validate (configuration : Configuration) : Except ConfigurationError Unit :=
  if configuration.bound = some 0 then .error .zeroBound else .ok ()

def duration? (configuration : Configuration) : Option Duration :=
  configuration.timeout.map .ofMilliseconds

def apply {State : Type} (configuration : Configuration) (draft : Draft State) : Draft State :=
  { draft with
    direction := configuration.direction
    bound := configuration.bound
    cumulative := configuration.cumulative
    timeout := configuration.duration? }

/-! ## Reading -/

def natural? : Toml.Value → Option Nat
  | .integer value => if 0 ≤ value ∧ value.toNat < UInt64.size then some value.toNat else none
  | _ => none

def boolean? : Toml.Value → Option Bool
  | .boolean value => some value
  | _ => none

/-- A direction is named by a text, or by the only key of a table, under which
there must be nothing. -/
def direction? : Toml.Value → Option Direction
  | .string text => Direction.ofText? text
  | .table _ [(text, .array [])] => Direction.ofText? text
  | .table _ [(text, .table _ [])] => Direction.ofText? text
  | _ => none

def setting (entries : Toml.Entries) (key : String) (value? : Toml.Value → Option α)
    (default : α) : Option α :=
  match entries.lookup key with
  | some value => value? value
  | none => some default

/-- Limits are given by name, or by a list in the order of the names. A date or a
time names none of them. -/
def limits? : Toml.Value → Option Limits
  | .table _ entries => do
      let maxDecisions ← setting entries "max_decisions" natural? Limits.default.maxDecisions
      let maxCubes ← setting entries "max_cubes" natural? Limits.default.maxCubes
      pure ⟨maxDecisions, maxCubes⟩
  | .dateTime _ => some Limits.default
  | .array [] => some Limits.default
  | .array [decisions] => do pure ⟨← natural? decisions, Limits.default.maxCubes⟩
  | .array (decisions :: cubes :: _) => do pure ⟨← natural? decisions, ← natural? cubes⟩
  | _ => none

def ofToml? (entries : Toml.Entries) : Option Configuration := do
  let direction ← setting entries "direction" direction? .forward
  let bound ← setting entries "bound" (fun value => some <$> natural? value) none
  let cumulative ← setting entries "cumulative_bad_states" boolean? true
  let timeout ← setting entries "timeout_ms" (fun value => some <$> natural? value) none
  let limits ← setting entries "solver" limits? Limits.default
  pure { direction, bound, cumulative, timeout, limits }

def read (text : String) : Except ConfigurationError Configuration :=
  match Toml.read text >>= ofToml? with
  | some configuration => do
      configuration.validate
      pure configuration
  | none => .error .malformed

/-! ## Writing -/

def text (configuration : Configuration) : String :=
  let optional (key : String) : Option Nat → String
    | some value => key ++ " = " ++ value.repr ++ "\n"
    | none => ""
  "direction = \"" ++ configuration.direction.text ++ "\"\n"
    ++ optional "bound" configuration.bound
    ++ "cumulative_bad_states = " ++ (if configuration.cumulative then "true" else "false") ++ "\n"
    ++ optional "timeout_ms" configuration.timeout
    ++ "\n[solver]\nmax_decisions = " ++ configuration.limits.maxDecisions.repr
    ++ "\nmax_cubes = " ++ configuration.limits.maxCubes.repr ++ "\n"

end Configuration

end SymbolicSafety
