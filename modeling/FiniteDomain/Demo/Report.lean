/-!
# Reports

What is left of a run of a demonstration: the lines it printed and how it ended.
-/

namespace FiniteDomain.Demo

/-- How the run of a demonstration ended, and the lines it printed. -/
inductive Report where
  /-- The command line was refused. -/
  | usage
  /-- All went well. -/
  | finished (lines : List String)
  /-- The run ended early with an error. -/
  | failed (message : String) (exitCode : Nat) (lines : List String)

/-- The exit code of a run that was refused by the solver. -/
def faultExitCode : Nat := 101

end FiniteDomain.Demo
