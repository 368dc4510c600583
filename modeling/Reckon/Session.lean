import Reckon.Log
import Reckon.Text

/-!
Sessions: a prompt that answers one line after another. A line is a command or a term; terms are
evaluated as they stand, so that spans count from the start of the line.
-/

set_option autoImplicit false
set_option relaxedAutoImplicit false

namespace Reckon

structure Reply where
  out : String
  err : String
  deriving DecidableEq

structure Transcript where
  exit : UInt32
  out : String
  err : String
  deriving DecidableEq

def unlines (lines : List String) : String :=
  String.join (lines.map (· ++ "\n"))

structure Session where
  showTree : Bool
  verbosity : Verbosity
  deriving DecidableEq

def Session.prompt : String :=
  unlines ["Enter a mathematical term"]

/-- How a session ends behind its last prompt: with the input, or at a line that is no text. -/
structure Ending where
  exit : UInt32
  err : String
  deriving DecidableEq

namespace Ending

def done : Ending := ⟨0, ""⟩

def unreadable : Ending :=
  ⟨1, unlines ["Failed to read input: stream did not contain valid UTF-8"]⟩

def transcript (e : Ending) : Transcript :=
  ⟨e.exit, Session.prompt, e.err⟩

end Ending

inductive Command
  | blank
  | toggleTree
  | clear
  | term (text : String)
  deriving DecidableEq

/-- White space around a command does not count. -/
def Command.ofLine (line : String) : Command :=
  let words := String.ofList (Text.trim line.toList)
  if words = "" then .blank
  else if words = "#showtree" then .toggleTree
  else if words = "#cls" ∨ words = "#clear" then .clear
  else .term line

namespace Outcome

/-- A value goes to the output, and everything else to the errors. -/
def reply : Outcome → Reply
  | .value v => ⟨unlines [v.render], ""⟩
  | .rejected diagnostics => ⟨"", unlines (diagnostics.map Diagnostic.render)⟩
  | .failed failure => ⟨"", unlines ["fatal: " ++ failure.message]⟩

def exit : Outcome → UInt32
  | .value _ => 0
  | _ => 1

end Outcome

namespace Session

def drawing (s : Session) (root : Node) : String :=
  if s.showTree then unlines root.draw else ""

/-- Answers a term: its drawing and then its outcome, and the log before all other errors. -/
def answer (s : Session) (a : Analysis) : Reply :=
  let reply := a.outcome.reply
  ⟨s.drawing a.parse.root ++ reply.out,
    unlines ((a.events s.verbosity).map Event.line) ++ reply.err⟩

def clearScreen : String :=
  "\x1b[2J\x1b[1;1H"

def respond (s : Session) (line : String) : Session × Reply :=
  match Command.ofLine line with
  | .blank => (s, ⟨unlines ["You have to enter a valid term", ""], ""⟩)
  | .toggleTree =>
    let toggled := { s with showTree := !s.showTree }
    (toggled,
      ⟨unlines [if toggled.showTree then "Showing parse trees" else "Hiding parse trees"], ""⟩)
  | .clear => (s, ⟨clearScreen, ""⟩)
  | .term text => (s, s.answer (.ofText text))

/-- A single term: the run ends with its outcome. -/
def once (s : Session) (text : String) : Transcript :=
  let analysis := Analysis.ofText text
  let reply := s.answer analysis
  ⟨analysis.outcome.exit, reply.out, reply.err⟩

/-- Takes the line that a prompt asked for. -/
def turn (s : Session) (line : List UInt8) : Except Ending (Session × Reply) :=
  match Text.decode? line with
  | none => .error .unreadable
  | some text => .ok (s.respond text)

/-- Line after line, with a prompt before each and before the end. -/
def converse : Session → List (List UInt8) → Transcript
  | _, [] => Ending.done.transcript
  | s, line :: lines =>
    match s.turn line with
    | .error ending => ending.transcript
    | .ok (next, reply) =>
      let rest := next.converse lines
      ⟨rest.exit, prompt ++ reply.out ++ rest.out, reply.err ++ rest.err⟩

end Session

end Reckon
