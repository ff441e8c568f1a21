/-!
# Settings

How an engine treats equal writes and when it gives up on effects that keep each other running.
-/
namespace LiveTemplate.Reactive

/-- Whether writing an equal value counts as a write. -/
inductive WriteEquality where
  | skipEqual
  | always
  deriving DecidableEq, Repr

def WriteEquality.name : WriteEquality → String
  | skipEqual => "SkipEqual"
  | always => "Always"

structure Settings where
  writeEquality : WriteEquality
  /-- The number of queued effects that one write may run. -/
  maxRuns : Nat
  maxRuns_pos : 0 < maxRuns

namespace Settings

def default : Settings := ⟨.skipEqual, 10000, by decide⟩

instance : Inhabited Settings := ⟨default⟩

def withWriteEquality (s : Settings) (policy : WriteEquality) : Settings :=
  { s with writeEquality := policy }

/-- At least one effect may run. -/
def withMaxRuns (s : Settings) (runs : Nat) : Settings :=
  { s with maxRuns := max runs 1, maxRuns_pos := by omega }

def describe (s : Settings) : String :=
  "RuntimeConfig \x7b write_equality: " ++ s.writeEquality.name ++ ", max_effect_runs: " ++
    toString s.maxRuns ++ " \x7d"

end Settings

end LiveTemplate.Reactive
