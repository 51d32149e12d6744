import FiniteDomain.Demo.Arguments
import FiniteDomain.Demo.Seating

/-!
# The pigeonhole demonstration on the command line

The positional number is that of the pigeons. `--values` gives the number of holes,
`--budget` that of the values that may be tried, and with `--descending` high holes are
taken first.
-/

namespace FiniteDomain.Demo.Pigeonhole

/-- The command lines that are accepted. -/
def usage : Usage where
  positional := wordMax
  options := [("values", wordMax), ("budget", wordMax)]
  switches := ["descending"]

/-- Reads a command line. Without a number there are five pigeons. -/
def Request.parse? (words : List String) : Option Request := do
  let a ← usage.parse? words
  return {
    pigeons := a.positional.getD 5
    holes? := a.option? "values"
    budget? := a.option? "budget"
    descending := a.hasSwitch "descending" }

/-- Runs the demonstration on a command line. -/
def run (words : List String) : Report :=
  match Request.parse? words with
  | none => .usage
  | some r => r.report

end FiniteDomain.Demo.Pigeonhole
