import ClauseSearch.CommandLine.Arguments
import ClauseSearch.CommandLine.Report

/-! The command: it reads a file, solves the formula in it and prints the verdict. The exit code says
which verdict it is, or that the arguments (2) or the file or the bounds of a setting (1) are at
fault. -/

namespace ClauseSearch.CommandLine

/-- What stands at a path. -/
inductive Source where
  | missing
  | directory
  | file (bytes : List UInt8)

structure Response where
  lines : List String
  code : Nat
  /-- Whether the time limit cut the solve short. -/
  timedOut : Bool := false
  deriving DecidableEq, Repr

namespace Code

def failure : Nat := 1
def usage : Nat := 2
def satisfiable : Nat := 10
def unsatisfiable : Nat := 20
def unknown : Nat := 30
/-- A fault ends the command. -/
def fault : Nat := 101

end Code

def programName : String := "bough_sat"

def versionLine : String := programName ++ " 0.1.0"

def helpLines : List String :=
  ["Determines whether a formula is satisfiable or unsatisfiable",
   "",
   "Usage: " ++ programName ++ " [OPTIONS] <path>",
   "",
   "Arguments:",
   "  <path>  The DIMACS form CNF file to parse.",
   "",
   "Options:",
   "      --no-heuristic           Keep the order of variables, and prefer true for each",
   "      --no-pure                Do not value pure variables before the search",
   "  -a, --all                    Count every model",
   "  -m, --models                 When counting models, display each model found",
   "      --no-model               Do not display a model",
   "  -d, --partition-depth <n>    The depth of the search tree split into partitions",
   "  -j, --threads <n>            The number of worker threads",
   "      --stack-size <n>         The stack size of each worker thread, in MiB",
   "      --trace-depth <n>        Log each variable decided at the depth",
   "  -t, --time-limit <n>         A time limit for the solve, in seconds",
   "  -s, --stats                  Display stats on completion",
   "  -h, --help                   Print help",
   "  -V, --version                Print version"]

def boundsLine (b : Bounds Nat) : String :=
  "c " ++ b.name ++ " requires a value between " ++ ErrorText.number b.least ++ " and "
    ++ ErrorText.number b.greatest

/-- The bytes of a number of MiB, no more than fit 64 bits. -/
def mebibytes (n : Nat) : Nat := min (n * 1048576) 18446744073709551615

/-- The settings with the value given for one of them, if any, or the bounds that the value exceeds. -/
def change (s : Settings) (b : Bounds Nat) (setting : Nat → Setting) (value : Option Nat) :
    Except (Bounds Nat) Settings :=
  match value with
  | none => .ok s
  | some n =>
    match s.set? (setting n) with
    | some s => .ok s
    | none => .error b

/-- The settings that flags and values ask for, or the first bounds that a value exceeds. -/
def settings (g : Given) : Except (Bounds Nat) Settings := do
  let s : Settings :=
    { heuristic := !g.flags.contains .noHeuristic
      pureLiterals := !g.flags.contains .noPure
      enumerate := g.flags.contains .all
      keepModels := g.flags.contains .models
      timeLimit := ⟨(g.values.lookup .timeLimit).getD 0, 0⟩
      traceDepth := g.values.lookup .traceDepth }
  let s ← change s Settings.partitionDepthBounds .partitionDepth (g.values.lookup .partitionDepth)
  let s ← change s Settings.threadsBounds .threads (g.values.lookup .threads)
  change s Settings.stackSizeBounds .stackSize ((g.values.lookup .stackSize).map mebibytes)

/-- Reads what stands at the path; a directory fails as its first line is read. -/
def readSource (s : Session) : Source → Except SessionError Session
  | .missing => .error (.read .noFile)
  | .directory => .error (.read (.unreadable 1))
  | .file bytes => s.read bytes

/-- Reports on the result of a solve after the lines printed before. -/
def report (g : Given) (before : List String)
    (result : Except Fault (Except SessionError Verdict × Session)) : Response :=
  match result with
  | .error _ => { lines := before, code := Code.fault }
  | .ok (.error e, _) => { lines := before ++ ["c Solve error: " ++ e.text], code := Code.failure }
  | .ok (.ok verdict, s) =>
    let before := before ++ if g.flags.contains .stats then tallyLines s.tally else []
    match verdict with
    | .unsatisfiable => ⟨before ++ unsatisfiableLines s, Code.unsatisfiable, s.timedOut⟩
    | .unknown => ⟨before ++ ["s UNKNOWN"], Code.unknown, s.timedOut⟩
    | .satisfiable =>
      match s.solutions.model.mapM s.verify with
      | .error _ => { lines := before, code := Code.fault }
      | .ok (some false) => { lines := before ++ ["c Model failed verification"], code := Code.failure }
      | .ok _ =>
        ⟨before ++ satisfiableLines s (!g.flags.contains .noModel), Code.satisfiable, s.timedOut⟩

/-- Reads a formula, solves it with a way to solve sessions and reports on the result. -/
def solveFile (solve : Session → Except Fault (Except SessionError Verdict × Session))
    (path : String) (g : Given) (source : Source) : Response :=
  match settings g with
  | .error b => { lines := [boundsLine b], code := Code.failure }
  | .ok settings =>
    let reading := "c Reading DIMACS file from " ++ Quoted.encode path.toList
    match readSource { settings } source with
    | .error e => { lines := [reading, "c Parse error: " ++ e.text], code := Code.failure }
    | .ok s => report g (reading :: formulaLines s.formula) (solve s)

/-- The response to arguments, where `sources` says what stands at each path, with a way to solve
sessions. -/
def respondWith (solve : Session → Except Fault (Except SessionError Verdict × Session))
    (args : List String) (sources : String → Source) : Response :=
  match readArguments args with
  | .error _ => { lines := [], code := Code.usage }
  | .ok .help => { lines := helpLines, code := 0 }
  | .ok .version => { lines := [versionLine], code := 0 }
  | .ok (.solve path g) => solveFile solve path g (sources path)

/-- The response where the tasks of a solve run one after another. -/
def respond (args : List String) (sources : String → Source) (clock : Clock) : Response :=
  respondWith (fun s => s.solve clock) args sources

end ClauseSearch.CommandLine
