import FiniteDomain.Demo.Report
import FiniteDomain.Solve.Formula

/-!
# Hits and misses in a buffer

A buffer is loaded with tags that are known. A sequence of accesses is to hit the
buffer with every other access, starting with the first, and to miss it with those in
between, and no access uses the tag of the one before. The tags of the accesses are
what is solved for.
-/

namespace FiniteDomain.Demo.Aliasing

/-- What is asked for. -/
structure Request where
  accesses : Nat
  entries : Nat
  width : Nat
  deriving DecidableEq

/-- The request as it is echoed. -/
def Request.text (r : Request) : String :=
  "Cli \x7b accesses: " ++ toString r.accesses ++ ", entries: " ++ toString r.entries ++
    ", width: " ++ toString r.width ++ " \x7d"

/-- Why the buffer cannot be loaded. -/
inductive LoadError where
  /-- Tags have no bits. -/
  | noWidth
  /-- The tag of an entry is too large. -/
  | entryTooLarge (index tag width : Nat)
  deriving DecidableEq

/-- A number in hexadecimal. -/
def hexText (n : Nat) : String := "0x" ++ String.ofList (Nat.toDigits 16 n)

/-- The text of a load error. -/
def LoadError.message : LoadError → String
  | noWidth => "Tag width must be positive"
  | entryTooLarge index tag width =>
      s!"Entry {index} = {hexText tag} does not fit in {width} bits"

/-- The tag of an entry. Neighbouring tags differ by half of the bits. -/
def entryTag (width i : Nat) : Nat := (i + 1) * valueCount (width / 2)

/-- An entry with its tag, which must fit. -/
def entry (width : Nat) (width_pos : 0 < width) (i : Nat) : Except LoadError Variable :=
  if h : (entryTag width i : Int) ≤ maxOfWidth width then
    .ok {
      name := s!"entry{i}"
      width
      value? := some (entryTag width i)
      width_pos
      value_fits := by
        intro v hv
        cases hv
        exact ⟨Int.natCast_nonneg _, h⟩ }
  else .error (.entryTooLarge i (entryTag width i) width)

/-- The entries from number `i` on, so many of them. -/
def entriesFrom (width : Nat) (width_pos : 0 < width) :
    Nat → Nat → Except LoadError (List Variable)
  | 0, _ => .ok []
  | count + 1, i => do
      let x ← entry width width_pos i
      return x :: (← entriesFrom width width_pos count (i + 1))

/-- The loaded entries of a buffer. -/
def buffer (count width : Nat) : Except LoadError (List Variable) :=
  if h : 0 < width then entriesFrom width h count 0 else .error .noWidth

/-- The tag of an access. -/
def tag (width : Nat) (width_pos : 0 < width) (i : Nat) : Variable :=
  .ofWidth s!"tag{i}" width width_pos

/-- The tags of so many accesses. -/
def tags (width accesses : Nat) : List Variable :=
  if h : 0 < width then (List.range accesses).map (tag width h) else []

/-- An access that hits one of the entries. -/
def hit (x : Variable) (entries : List Variable) : Constraint where
  name := s!"{x.name} hits"
  formula := .ofClauses [.anyOf (entries.map fun e => .pair x.name e.name true)]

/-- An access that hits none of the entries. -/
def miss (x : Variable) (entries : List Variable) : Constraint where
  name := s!"{x.name} misses"
  formula := .ofClauses [.allOf (entries.map fun e => .pair x.name e.name false)]

/-- What is asked of each access. -/
def constraints (entries tags : List Variable) : List Constraint :=
  tags.zipIdx.map fun (x, i) => if i % 2 = 0 then hit x entries else miss x entries

/-- Each variable differs from the next one. -/
def alternating : List Variable → List Equation
  | x :: y :: rest => .pair x.name y.name false :: alternating (y :: rest)
  | _ => []

/-- The whole problem. -/
def problem (entries tags : List Variable) : Formula :=
  (alternating tags).foldl Formula.addEquation
    ((constraints entries tags).foldl Formula.addConstraint .empty)

/-- The verdict on the problem. -/
def verdict (entries tags : List Variable) : Except Fault Verdict := do
  let scope ← Scope.ofGroups [entries, tags]
  ((problem entries tags).solve scope {} .witness).outcome

/-- The tag of an access in a solution. -/
def tagLine (s : Assignment) (x : Variable) : Option String :=
  (s.get? x.name).map fun v => s!"{x.name} = {hexText v.toNat}"

/-- The lines that tell the solution, or why there is none. -/
def answerLines (tags : List Variable) (v : Verdict) : List String :=
  match v.solution? with
  | some s => tags.filterMap (tagLine s)
  | none => v.errors

/-- The lines that are printed before the problem is solved. -/
def preamble (entries tags : List Variable) : List String :=
  let f := problem entries tags
  (constraints entries tags).map Constraint.text ++
    [s!"formula of {f.size} clauses = {f.text}"]

/-- Runs the demonstration. -/
def Request.report (r : Request) : Report :=
  let echo := [s!"args = {r.text}"]
  match buffer r.entries r.width with
  | .error e => .failed e.message 1 echo
  | .ok entries =>
      let tags := tags r.width r.accesses
      let lines := echo ++ preamble entries tags
      match verdict entries tags with
      | .ok v => .finished (lines ++ [s!"status = {v.status.text}"] ++ answerLines tags v)
      | .error fault => .failed fault.message faultExitCode lines

end FiniteDomain.Demo.Aliasing
