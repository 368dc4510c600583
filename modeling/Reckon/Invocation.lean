import Reckon.Session

/-!
Invocations: what the arguments of the command line ask for, and a whole run of the program.
-/

set_option autoImplicit false
set_option relaxedAutoImplicit false

namespace Reckon

inductive UsageError
  | unexpectedArgument (argument : String)
  | unexpectedValue (value option : String)
  | repeatedOption (option : String)
  deriving DecidableEq

/-- The wording of a refusal. What was typed is quoted as plain text, so that it cannot steer a
terminal. -/
def UsageError.message : UsageError → String
  | .unexpectedArgument argument =>
    "error: unexpected argument '" ++ Text.plain argument ++ "' found"
  | .unexpectedValue value option =>
    "error: unexpected value '" ++ Text.plain value ++ "' for '" ++ option ++
      "' found; no more were expected"
  | .repeatedOption option =>
    "error: the argument '" ++ option ++ "' cannot be used multiple times"

structure Invocation where
  showTree : Bool
  term : Option String
  deriving DecidableEq

inductive Request
  | run (invocation : Invocation)
  | help
  | version
  | refused (error : UsageError)
  deriving DecidableEq

inductive Flag
  | showTree | help | version
  deriving DecidableEq

namespace Flag

def all : List Flag :=
  [.showTree, .help, .version]

def long : Flag → String
  | .showTree => "--show-tree"
  | .help => "--help"
  | .version => "--version"

def letter : Flag → Char
  | .showTree => 's'
  | .help => 'h'
  | .version => 'V'

end Flag

namespace Invocation

def plain : Invocation := ⟨false, none⟩

/-- Takes an option. Help and version end the reading of arguments at once. -/
def flag (i : Invocation) : Flag → Except Request Invocation
  | .help => .error .help
  | .version => .error .version
  | .showTree =>
    if i.showTree then .error (.refused (.repeatedOption Flag.showTree.long))
    else .ok { i with showTree := true }

/-- Takes an argument that is no option: there is one at most. -/
def positional (i : Invocation) (argument : String) : Except Request Invocation :=
  if i.term.isSome then .error (.refused (.unexpectedArgument argument))
  else .ok { i with term := some argument }

def letters (i : Invocation) : List Char → Except Request Invocation
  | [] => .ok i
  | c :: cs =>
    match Flag.all.find? (·.letter == c) with
    | none => .error (.refused (.unexpectedArgument (String.ofList ['-', c])))
    | some f =>
      match i.flag f with
      | .error request => .error request
      | .ok taken => taken.letters cs

/-- Takes an option by its long name. What follows an equals sign is a value, and no option has
one. -/
def longName (i : Invocation) (argument : List Char) : Except Request Invocation :=
  let name := String.ofList (argument.takeWhile (· ≠ '='))
  match Flag.all.find? (·.long == name) with
  | none => .error (.refused (.unexpectedArgument name))
  | some f =>
    match argument.dropWhile (· ≠ '=') with
    | [] => i.flag f
    | _ :: value => .error (.refused (.unexpectedValue (String.ofList value) f.long))

/-- Takes an argument that stands before any lone pair of dashes. A single dash is no option. -/
def argument (i : Invocation) (text : String) : Except Request Invocation :=
  match text.toList with
  | '-' :: '-' :: _ => i.longName text.toList
  | '-' :: c :: cs => i.letters (c :: cs)
  | _ => i.positional text

/-- Takes arguments from left to right, up to the first that settles the request. After a lone
pair of dashes no argument is an option. -/
def read (i : Invocation) (options : Bool) : List String → Request
  | [] => .run i
  | text :: rest =>
    if options ∧ text = "--" then i.read false rest
    else
      match if options then i.argument text else i.positional text with
      | .error request => request
      | .ok taken => taken.read options rest

end Invocation

namespace Request

def ofArguments (arguments : List String) : Request :=
  Invocation.plain.read true arguments

def versionText : String :=
  unlines ["minicalc 0.1.0"]

def helpText : String :=
  unlines
    ["An interactive evaluator for integer and boolean expressions",
      "",
      "Usage: minicalc [OPTIONS] [EXPRESSION]",
      "",
      "Arguments:",
      "  [EXPRESSION]  Evaluates this expression and exits instead of starting the prompt",
      "",
      "Options:",
      "  -s, --show-tree  Prints the syntax tree of every expression before its result",
      "  -h, --help       Print help",
      "  -V, --version    Print version"]

def transcript (request : Request) (verbosity : Verbosity) (input : List UInt8) : Transcript :=
  match request with
  | .help => ⟨0, helpText, ""⟩
  | .version => ⟨0, versionText, ""⟩
  | .refused error => ⟨2, "", unlines [error.message]⟩
  | .run ⟨showTree, some term⟩ => Session.once ⟨showTree, verbosity⟩ term
  | .run ⟨showTree, none⟩ => Session.converse ⟨showTree, verbosity⟩ (Text.lines input)

end Request

end Reckon
