import ClauseSearch.Text.Numeral

/-! The arguments of the command. One path names the file; all else are switches, some with a value.
A long switch takes its value after an equals sign or from the next argument, a short one also from
the characters after it, and short switches without a value may share one dash. No switch is given
twice. After two dashes every argument is a path; a single dash is one anywhere. -/

namespace ClauseSearch.CommandLine

/-- A switch without a value. -/
inductive Flag where
  | noHeuristic
  | noPure
  | all
  | models
  | noModel
  | stats
  deriving DecidableEq, Repr

/-- A switch with a value. -/
inductive ValueSwitch where
  | partitionDepth
  | threads
  | stackSize
  | traceDepth
  | timeLimit
  deriving DecidableEq, Repr

inductive Switch where
  | flag (f : Flag)
  | option (o : ValueSwitch)
  | help
  | version
  deriving DecidableEq, Repr

inductive UsageError where
  | unknownSwitch
  | repeated
  | missingValue
  | unexpectedValue
  | invalidValue
  | missingPath
  | emptyPath
  | secondPath
  deriving DecidableEq, Repr

structure Given where
  path : Option String := none
  flags : List Flag := []
  values : List (ValueSwitch × Nat) := []
  deriving DecidableEq, Repr

inductive Request where
  | solve (path : String) (given : Given)
  | help
  | version
  deriving DecidableEq, Repr

def Switch.ofLong? (name : String) : Option Switch :=
  match name with
  | "no-heuristic" => some (.flag .noHeuristic)
  | "no-pure" => some (.flag .noPure)
  | "all" => some (.flag .all)
  | "models" => some (.flag .models)
  | "no-model" => some (.flag .noModel)
  | "stats" => some (.flag .stats)
  | "partition-depth" => some (.option .partitionDepth)
  | "threads" => some (.option .threads)
  | "stack-size" => some (.option .stackSize)
  | "trace-depth" => some (.option .traceDepth)
  | "time-limit" => some (.option .timeLimit)
  | "help" => some .help
  | "version" => some .version
  | _ => none

def Switch.ofShort? (c : Char) : Option Switch :=
  match c with
  | 'a' => some (.flag .all)
  | 'm' => some (.flag .models)
  | 's' => some (.flag .stats)
  | 'd' => some (.option .partitionDepth)
  | 'j' => some (.option .threads)
  | 't' => some (.option .timeLimit)
  | 'h' => some .help
  | 'V' => some .version
  | _ => none

namespace ValueSwitch

/-- The value of a switch. Depths are signed numbers that fit 32 bits without their sign, so a zero may
have a minus; the other values are unsigned and fit 64 bits. -/
def value? (o : ValueSwitch) (text : List Char) : Option Nat :=
  match o with
  | partitionDepth | traceDepth => (Numeral.int? 0 4294967295 text).map Int.toNat
  | threads | stackSize | timeLimit => Numeral.nat? 18446744073709551615 text

end ValueSwitch

namespace Given

def setFlag (g : Given) (f : Flag) : Except UsageError Given :=
  if g.flags.contains f then .error .repeated else .ok { g with flags := f :: g.flags }

def setValue (g : Given) (o : ValueSwitch) (text : List Char) : Except UsageError Given :=
  match o.value? text with
  | none => .error .invalidValue
  | some n =>
    if (g.values.lookup o).isSome then .error .repeated
    else .ok { g with values := (o, n) :: g.values }

def setPath (g : Given) (path : String) : Except UsageError Given :=
  if path.isEmpty then .error .emptyPath
  else if g.path.isSome then .error .secondPath
  else .ok { g with path := some path }

def request (g : Given) : Except UsageError Request :=
  match g.path with
  | none => .error .missingPath
  | some path => .ok (.solve path g)

end Given

/-- What one argument leads to. -/
inductive Reading where
  | go (given : Given)
  /-- The next argument is the value of this switch. -/
  | await (o : ValueSwitch) (given : Given)
  | done (request : Request)

/-- The characters without one equals sign at their front. -/
def dropEquals : List Char → List Char
  | '=' :: rest => rest
  | cs => cs

/-- The characters after one dash. -/
def readShort (g : Given) : List Char → Except UsageError Reading
  | [] => .ok (.go g)
  | c :: rest =>
    match Switch.ofShort? c with
    | none => .error .unknownSwitch
    | some .help => .ok (.done .help)
    | some .version => .ok (.done .version)
    | some (.flag f) =>
      match g.setFlag f with
      | .ok g => readShort g rest
      | .error e => .error e
    | some (.option o) =>
      if rest.isEmpty then .ok (.await o g) else (g.setValue o (dropEquals rest)).map .go

/-- The characters after two dashes. -/
def readLong (g : Given) (cs : List Char) : Except UsageError Reading :=
  let name := cs.takeWhile (· ≠ '=')
  let value := cs.dropWhile (· ≠ '=')
  match Switch.ofLong? (String.ofList name) with
  | none => .error .unknownSwitch
  | some (.option o) =>
    if value.isEmpty then .ok (.await o g) else (g.setValue o (dropEquals value)).map .go
  | some switch =>
    if value.isEmpty then
      match switch with
      | .flag f => (g.setFlag f).map .go
      | .help => .ok (.done .help)
      | _ => .ok (.done .version)
    else .error .unexpectedValue

/-- Whether an argument is a switch: it begins with a dash and is more than that. -/
def isSwitch (arg : List Char) : Bool :=
  match arg with
  | '-' :: _ :: _ => true
  | _ => false

/-- Reads the arguments after two dashes. -/
def readPaths (g : Given) : List String → Except UsageError Request
  | [] => g.request
  | arg :: rest =>
    match g.setPath arg with
    | .ok g => readPaths g rest
    | .error e => .error e

/-- Reads the arguments; `awaiting` is the switch whose value comes next. -/
def readFrom (g : Given) (awaiting : Option ValueSwitch) : List String → Except UsageError Request
  | [] => if awaiting.isSome then .error .missingValue else g.request
  | arg :: rest =>
    match awaiting, isSwitch arg.toList with
    | some _, true => .error .missingValue
    | some o, false =>
      match g.setValue o arg.toList with
      | .ok g => readFrom g none rest
      | .error e => .error e
    | none, false =>
      match g.setPath arg with
      | .ok g => readFrom g none rest
      | .error e => .error e
    | none, true =>
      let reading := match arg.toList with
        | '-' :: '-' :: cs => if cs.isEmpty then none else some (readLong g cs)
        | cs => some (readShort g cs.tail)
      match reading with
      | none => readPaths g rest
      | some (.ok (.go g)) => readFrom g none rest
      | some (.ok (.await o g)) => readFrom g (some o) rest
      | some (.ok (.done request)) => .ok request
      | some (.error e) => .error e

def readArguments (args : List String) : Except UsageError Request := readFrom {} none args

end ClauseSearch.CommandLine
