import LayoutInference.Report
import LayoutInference.Text.Space

/-!
# Interactive sessions

A session collects lines of a script. An empty line runs inference over all of them; lines that start
with a colon are commands.
-/

namespace LayoutInference

/-- A session: the lines collected so far, and the bound on the number of passes. -/
structure Session where
  maxIterations : Int
  lines : List String := []

/-- What a line did: the texts it printed, and whether the session goes on. -/
structure Session.Reply where
  out : String := ""
  err : String := ""
  more : Bool := true

namespace Session

/-- The name under which the lines of a session are read. -/
def fileName : String := "<repl>"

/-- Run inference over the lines collected so far. A fault is part of the reply; any other failure
ends the session. -/
def infer (parser : Parser) (s : Session) : Except Failure Reply :=
  if s.lines.isEmpty then .ok {}
  else
    match describe parser fileName ("\n".intercalate s.lines) "text" s.maxIterations false with
    | .ok out => .ok { out }
    | .error (.fault fault) => .ok { err := fault.message ++ "\n" }
    | .error failure => .error failure

/-- Take in one line. -/
def handle (parser : Parser) (s : Session) (line : String) : Except Failure (Reply × Session) :=
  match trimSpace line with
  | ":quit" => .ok ({ more := false }, s)
  | ":reset" => .ok ({}, { s with lines := [] })
  | ":show" => .ok ({ out := String.join (s.lines.map (· ++ "\n")) }, s)
  | "" => (s.infer parser).map fun reply => (reply, s)
  | command =>
    if command.startsWith ":" then .ok ({ out := "unknown command. Type :quit to exit.\n" }, s)
    else .ok ({}, { s with lines := s.lines ++ [line] })

/-- Take in lines until one ends the session. Each reply comes with the number of lines collected
after it. -/
def handleAll (parser : Parser) (s : Session) : List String → Except Failure (List (Reply × Nat))
  | [] => .ok []
  | line :: lines => do
    let (reply, s) ← s.handle parser line
    if reply.more then return (reply, s.lines.length) :: (← s.handleAll parser lines)
    else return [(reply, s.lines.length)]

end Session

end LayoutInference
