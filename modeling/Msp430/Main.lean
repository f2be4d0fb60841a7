import Msp430.Service.Session

/-!
# The command line

The argument is a configuration; a session is then held over standard input and output.
-/

namespace Msp430

/-- Answers the lines of the input until it ends. -/
partial def converseAll (input output : IO.FS.Stream) (s : Service) : IO Unit := do
  let line ← input.getLine
  if line.isEmpty then return
  let (answer, s) := s.converse line
  match answer with
  | some text =>
    output.putStrLn text
    output.flush
  | none => pure ()
  converseAll input output s

end Msp430

def main (args : List String) : IO UInt32 := do
  match Msp430.Config.parse? (args.headD "\x7b\x7d") with
  | some config =>
    Msp430.converseAll (← IO.getStdin) (← IO.getStdout) (Msp430.Service.start config)
    return 0
  | none =>
    (← IO.getStderr).putStrLn "the configuration is not valid"
    return 1
