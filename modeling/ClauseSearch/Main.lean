import ClauseSearch.CommandLine.Run

/-! The command on a terminal: it reads the file and the clock and prints the response. A solve under a
time limit is run with more and more checks for each task until it is not cut short or the time is
over, so that the solve itself needs no clock. -/

namespace ClauseSearch.CommandLine

/-- What stands at a path of the file system. -/
def load (path : String) : IO Source := do
  try
    return .file (← IO.FS.readBinFile path).toList
  catch
    | .inappropriateType _ 21 _ => return .directory
    | _ => return .missing

def now : IO Instant := return ⟨.ofNanoseconds (← IO.monoNanosNow)⟩

/-- Responds with more checks for each task, up to the end of the time. -/
partial def respondInTime (args : List String) (source : Source) (start : Instant)
    (deadline : Option Instant) (checks : Nat) : IO Response := do
  let response := respond args (fun _ => source) (.standing start checks)
  match deadline with
  | some deadline =>
    if response.timedOut && !decide (deadline ≤ (← now)) then
      respondInTime args source start (some deadline) (2 * checks)
    else
      return response
  | none => return response

end ClauseSearch.CommandLine

open ClauseSearch ClauseSearch.CommandLine in
def main (args : List String) : IO UInt32 := do
  let start ← now
  let (source, limit) ← match readArguments args with
    | .ok (.solve path given) => pure (← load path, given.values.lookup .timeLimit)
    | _ => pure (Source.missing, none)
  let deadline := limit.bind fun seconds => start.after? ⟨seconds, 0⟩
  let response ← respondInTime args source start deadline 1024
  for line in response.lines do
    IO.println line
  return response.code.toUInt32
