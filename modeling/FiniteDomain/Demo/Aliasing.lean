import FiniteDomain.Demo.Arguments
import FiniteDomain.Demo.Buffer

/-!
# The aliasing demonstration on the command line

The positional number is that of the accesses. `--entries` gives the number of entries in
the buffer and `--width` that of the bits of a tag.
-/

namespace FiniteDomain.Demo.Aliasing

/-- The command lines that are accepted. -/
def usage : Usage where
  positional := wordMax
  options := [("entries", wordMax), ("width", halfWordMax)]
  switches := []

/-- Reads a command line. What is left out is four accesses, three entries, 16 bits. -/
def Request.parse? (words : List String) : Option Request := do
  let a ← usage.parse? words
  return {
    accesses := a.positional.getD 4
    entries := (a.option? "entries").getD 3
    width := (a.option? "width").getD 16 }

/-- Runs the demonstration on a command line. -/
def run (words : List String) : Report :=
  match Request.parse? words with
  | none => .usage
  | some r => r.report

end FiniteDomain.Demo.Aliasing
