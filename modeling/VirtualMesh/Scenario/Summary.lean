import VirtualMesh.Scenario.Basic

/-!
# Summary of scenarios

A table with one line for each result. Columns are filled up with blanks to their widths and
never cut, and a value that is missing shows as a dash.
-/

namespace VirtualMesh.Summary

/-- At least `width` characters, with blanks behind. -/
def fill (width : Nat) (cs : List Char) : List Char :=
  cs ++ List.replicate (width - cs.length) ' '

/-- A first column of 15 characters, and further ones of 12, with a blank between them. -/
def row (first : List Char) (rest : List (List Char)) : List Char :=
  fill 15 first ++ rest.flatMap fun c => ' ' :: fill 12 c

def delay : Option Delay → List Char
  | none => ['-']
  | some d => d.text

def header : List Char :=
  row "Scenario".toList ["Delivered".toList, "Bytes".toList, "Min".toList, "Mean".toList, "Max".toList]

def resultRow (r : ScenarioResult) : List Char :=
  let stats := r.report.stats
  row r.name.toList
    [Decimal.digits stats.messages.toNat ++ '/' :: Decimal.digits r.expected.toNat,
      Decimal.digits stats.bytes.toNat, delay stats.latencies.min, delay r.report.meanLatency,
      delay stats.latencies.max]

/-- The whole table, starting with an empty line and ending with the end of its last line. -/
def text (rs : List ScenarioResult) : List Char :=
  let lines := [] :: "=== LATENCY SCENARIO SUMMARY ===".toList :: header :: List.replicate 80 '-' ::
    rs.map resultRow
  lines.flatMap fun l => l ++ ['\n']

end VirtualMesh.Summary
