import FiniteDomain.Demo.Aliasing
import FiniteDomain.Demo.Pigeonhole

/-!
# Command line

`pigeonhole` and `aliasing` run the two demonstrations.
-/

namespace FiniteDomain.Demo

/-- How the demonstrations are called. -/
def usageLines : List String :=
  [ "pigeonhole [INT] [--values INT] [--budget INT] [--descending]"
  , "aliasing [INT] [--entries INT] [--width INT]" ]

/-- The demonstration that a word stands for. -/
def byName : List String → Report
  | "pigeonhole" :: words => Pigeonhole.run words
  | "aliasing" :: words => Aliasing.run words
  | _ => .usage

/-- Prints what a run printed and returns its exit code. -/
def Report.print : Report → IO UInt32
  | usage => do
      for line in usageLines do
        IO.eprintln line
      return 2
  | finished lines => do
      for line in lines do
        IO.println line
      return 0
  | failed message exitCode lines => do
      for line in lines do
        IO.println line
      IO.eprintln s!"Error: {message}"
      return exitCode.toUInt32

end FiniteDomain.Demo

/-- Runs the demonstration that the first argument names. -/
def main (args : List String) : IO UInt32 :=
  (FiniteDomain.Demo.byName args).print
