/-!
# `Command.Arguments` — reading the command line

One file to compile, and options before or after it. Options have long names, and some a letter: letters
can stand together after one dash, and a value stands in the same argument or in the next one. Two dashes
end the options. Arguments are read from left to right and the first one that is wrong, or that asks for
the version or for help, decides.
-/

namespace Offside.Command

/-- What the user asks for. -/
structure Invocation where
  input : String
  output : String
  print : Bool
  comments : Bool
  entry : String
  dumpTree : Bool
  noColour : Bool
  verbose : Bool
deriving DecidableEq

/-- The options. -/
inductive Choice where
  | output | print | comments | entry | dumpTree | noColour | verbose | version | help
deriving DecidableEq

namespace Choice

/-- Every option. -/
def all : List Choice :=
  [.output, .print, .comments, .entry, .dumpTree, .noColour, .verbose, .version, .help]

/-- The long name of an option. -/
def longName : Choice → String
  | .output => "output"
  | .print => "print"
  | .comments => "comments"
  | .entry => "entry"
  | .dumpTree => "dump-ast"
  | .noColour => "no-color"
  | .verbose => "verbose"
  | .version => "version"
  | .help => "help"

/-- The letter of an option, if it has one. -/
def letter? : Choice → Option Char
  | .output => some 'o'
  | .print => some 'p'
  | .comments => some 'c'
  | .verbose => some 'v'
  | .version => some 'V'
  | .help => some 'h'
  | .entry | .dumpTree | .noColour => none

/-- The option wants a value. -/
def takesValue : Choice → Bool
  | .output | .entry => true
  | _ => false

/-- The option with a long name. -/
def ofLongName? (name : String) : Option Choice := all.find? fun o => o.longName == name

/-- The option with a letter. -/
def ofLetter? (c : Char) : Option Choice := all.find? fun o => o.letter? == some c

end Choice

/-- What is wrong with a command line. -/
inductive UsageFault where
  | unknownOption (text : String)
  | missingValue (o : Choice)
  | unexpectedValue (o : Choice)
  | repeated (o : Choice)
  | emptyFile
  | extraArgument (text : String)
  | missingInput
deriving DecidableEq

namespace UsageFault

/-- The text of a fault. -/
def message : UsageFault → String
  | .unknownOption text => "unexpected argument '" ++ text ++ "' found"
  | .missingValue o => "a value is required for '--" ++ o.longName ++ "' but none was supplied"
  | .unexpectedValue o => "unexpected value for '--" ++ o.longName ++ "' found; no more were expected"
  | .repeated o => "the argument '--" ++ o.longName ++ "' cannot be used multiple times"
  | .emptyFile => "a file name is required but an empty one was supplied"
  | .extraArgument text => "unexpected argument '" ++ text ++ "' found"
  | .missingInput => "the input file was not provided"

end UsageFault

/-- Why reading the command line stops early. -/
inductive Stop where
  | version
  | help
  | fault (f : UsageFault)
deriving DecidableEq

/-- What has been read so far. -/
structure Draft where
  input : Option String := none
  output : Option String := none
  entry : Option String := none
  flags : List Choice := []
deriving DecidableEq

namespace Draft

/-- Takes a file to compile. -/
def addInput (d : Draft) (file : String) : Except Stop Draft :=
  if d.input.isSome then .error (.fault (.extraArgument file))
  else if file = "" then .error (.fault .emptyFile)
  else .ok { d with input := some file }

/-- Takes an option without a value. -/
def addFlag (d : Draft) (o : Choice) : Except Stop Draft :=
  if o = .version then .error .version
  else if o = .help then .error .help
  else if d.flags.contains o then .error (.fault (.repeated o))
  else .ok { d with flags := o :: d.flags }

/-- Takes an option with its value. -/
def addValue (d : Draft) (o : Choice) (value : String) : Except Stop Draft :=
  if o = .output then
    if d.output.isSome then .error (.fault (.repeated o))
    else if value = "" then .error (.fault .emptyFile)
    else .ok { d with output := some value }
  else
    if d.entry.isSome then .error (.fault (.repeated o)) else .ok { d with entry := some value }

/-- Letters after one dash. The rest of the argument is the value of a letter that wants one, with or
    without an equals sign; if nothing is left, the option still waits for its value. -/
def addLetters (d : Draft) : List Char → Except Stop (Draft × Option Choice)
  | [] => .ok (d, none)
  | c :: rest =>
    match Choice.ofLetter? c with
    | none => .error (.fault (.unknownOption (String.ofList ['-', c])))
    | some o =>
      if o.takesValue then
        match rest with
        | [] => .ok (d, some o)
        | v :: vs => do
          let d ← d.addValue o (String.ofList (if v = '=' then vs else v :: vs))
          return (d, none)
      else do
        let d ← d.addFlag o
        addLetters d rest

/-- A long option, with the value that stands after an equals sign. -/
def addLong (d : Draft) (body : List Char) : Except Stop (Draft × Option Choice) :=
  let name := String.ofList (body.takeWhile (· != '='))
  let value? := match body.dropWhile (· != '=') with
    | [] => none
    | _ :: v => some (String.ofList v)
  match Choice.ofLongName? name, value? with
  | none, _ => .error (.fault (.unknownOption ("--" ++ name)))
  | some o, some v =>
    if o.takesValue then do
      let d ← d.addValue o v
      return (d, none)
    else .error (.fault (.unexpectedValue o))
  | some o, none =>
    if o.takesValue then .ok (d, some o)
    else do
      let d ← d.addFlag o
      return (d, none)

/-- An argument that is no option: it does not start with a dash, or is nothing but one. -/
def isPlain (arg : List Char) : Bool := arg.head? != some '-' || arg.length == 1

/-- Reads the arguments that are left; an option may wait for its value. -/
def read (d : Draft) (waiting : Option Choice) : List String → Except Stop Draft
  | [] =>
    match waiting with
    | some o => .error (.fault (.missingValue o))
    | none => .ok d
  | arg :: rest =>
    match waiting with
    | some o =>
      if isPlain arg.toList then do
        let d ← d.addValue o arg
        read d none rest
      else .error (.fault (.missingValue o))
    | none =>
      if arg = "--" then rest.foldlM addInput d
      else if isPlain arg.toList then do
        let d ← d.addInput arg
        read d none rest
      else do
        let (d, waiting) ←
          match arg.toList with
          | '-' :: '-' :: body => d.addLong body
          | letters => d.addLetters letters.tail
        read d waiting rest

/-- The finished invocation. -/
def finish (d : Draft) : Except Stop Invocation :=
  match d.input with
  | none => .error (.fault .missingInput)
  | some input =>
    .ok
      { input := input
        output := d.output.getD "output.s"
        print := d.flags.contains .print
        comments := d.flags.contains .comments
        entry := d.entry.getD "main"
        dumpTree := d.flags.contains .dumpTree
        noColour := d.flags.contains .noColour
        verbose := d.flags.contains .verbose }

end Draft

/-- What a command line asks for. -/
def readArguments (args : List String) : Except Stop Invocation := do
  let d ← Draft.read {} none args
  d.finish

end Offside.Command
