import JvmPatch.Decimal.Integer
import JvmPatch.Files.Path
import JvmPatch.Resolve.Search

/-! The options of a run and how a command line gives them. An option with a value is written
`--name value` or `--name=value`. -/

set_option autoImplicit false

namespace JvmPatch

structure Options where
  inputs : List Path := []
  classpath : List Path := []
  /-- The scripts, in the order in which they are applied. -/
  patches : List Path := []
  /-- The directory or the archive to write. -/
  output : Option Path := none
  /-- The classes to list, `*` for all. -/
  listed : List String := []
  /-- The file for the report, `-` for the standard output. -/
  report : Option Path := none
  batchSize : Option UInt64 := none
  sequential : Bool := false
  quiet : Bool := false
  timing : Bool := false
  deriving DecidableEq, Repr

/-- An option without a value. -/
inductive Switch
  | sequential
  | quiet
  | timing
  deriving DecidableEq, Repr

inductive Setting
  | input
  | classpath
  | patch
  | output
  | disassemble
  | report
  | batchSize
  deriving DecidableEq, Repr

def Switch.ofText? : String → Option Switch
  | "--sequential" => some .sequential
  | "--quiet" => some .quiet
  | "--timing" => some .timing
  | _ => none

def Setting.ofText? : String → Option Setting
  | "--input" => some .input
  | "--classpath" => some .classpath
  | "--patch" => some .patch
  | "--output" => some .output
  | "--disassemble" => some .disassemble
  | "--report" => some .report
  | "--batch-size" => some .batchSize
  | _ => none

/-- Whether a word can be a value: it is not empty, and it does not start with a hyphen unless it is
one. -/
def isOptionValue (s : String) : Bool := s != "" && (s == "-" || s.toList.head? != some '-')

namespace Options

/-- How the search for an assignment is carried out. -/
def search (o : Options) : ResolveOptions := ⟨!o.sequential, o.batchSize.getD 64⟩

/-- Turns a switch on. A switch is given at most once. -/
def turnOn (o : Options) : Switch → Option Options
  | .sequential => if o.sequential then none else some { o with sequential := true }
  | .quiet => if o.quiet then none else some { o with quiet := true }
  | .timing => if o.timing then none else some { o with timing := true }

/-- Takes a value. The output, the report and the batch size are given at most once. -/
def take (o : Options) (value : String) : Setting → Option Options
  | .input => some { o with inputs := o.inputs ++ [⟨value⟩] }
  | .classpath => some { o with classpath := o.classpath ++ [⟨value⟩] }
  | .patch => some { o with patches := o.patches ++ [⟨value⟩] }
  | .disassemble => some { o with listed := o.listed ++ [value] }
  | .output => if o.output.isSome then none else some { o with output := some ⟨value⟩ }
  | .report => if o.report.isSome then none else some { o with report := some ⟨value⟩ }
  | .batchSize =>
    match Decimal.readInteger (.unsigned 64) value.toList with
    | .error _ => none
    | .ok n =>
      if o.batchSize.isSome then none else some { o with batchSize := some (.ofNat n.toNat) }

/-- Takes a value for the option that is written in a given way. -/
def setOption (o : Options) (name value : String) : Option Options :=
  if isOptionValue value then (Setting.ofText? name).bind (o.take value) else none

/-- Takes the words of a command line. -/
def addWords (o : Options) : List String → Option Options
  | [] => some o
  | word :: words =>
    match Switch.ofText? word with
    | some switch => (o.turnOn switch).bind fun o => o.addWords words
    | none =>
      let s := word.toList
      if s.contains '=' then
        let name := String.ofList (s.takeWhile (· != '='))
        let value := String.ofList ((s.dropWhile (· != '=')).drop 1)
        (o.setOption name value).bind fun o => o.addWords words
      else
        match words with
        | [] => none
        | value :: words => (o.setOption word value).bind fun o => o.addWords words

/-- The options of a command line. At least one input is needed. -/
def ofWords (words : List String) : Option Options :=
  (({} : Options).addWords words).filter fun o => !o.inputs.isEmpty

end Options

end JvmPatch
