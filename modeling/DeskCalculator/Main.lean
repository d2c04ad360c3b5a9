import DeskCalculator.CommandLine

/-!
# Sessions — The program

The command line on the standard streams.  Standard input is read one line at a time, and the results
of a line are written before the next one is asked for.
-/

namespace DeskCalculator

/-- Writes what a sink holds for its stream. -/
def Sink.flush (sink : Sink) : IO Sink := do
  let stream ← match sink with
    | .stderr _ => IO.getStderr
    | _         => IO.getStdout
  unless sink.written.isEmpty do
    stream.putStr sink.written
    stream.flush
  return sink.flushed

/-- Reads bytes up to and with a newline, or to the end. -/
partial def readLineBytes (stream : IO.FS.Stream) (line : Array UInt8) : IO (List UInt8) := do
  match (← stream.read 1).toList with
  | [] => return line.toList
  | b :: _ =>
      if b == Chunk.newline then return (line.push b).toList
      else readLineBytes stream (line.push b)

/-- The next line of a stream as chunks of a reader. -/
def nextChunks (stream : IO.FS.Stream) : IO (List Chunk) := do
  try
    let line ← readLineBytes stream #[]
    return if line.isEmpty then [] else [.bytes line]
  catch error => return [.failure (toString error)]

/-- A session over standard input. -/
partial def converse (stdin : IO.FS.Stream) (s : Session) : IO Session := do
  let lexer := s.calculator.lexer
  let chunks ← if lexer.wantsLine then nextChunks stdin else pure []
  let (more, s) := { s with calculator.lexer := lexer.supply chunks }.step
  let output ← s.output.flush
  let diagnostics ← s.calculator.journal.sink.flush
  let s := { s with output := output, calculator.journal.sink := diagnostics }
  if more then converse stdin s else return s

end DeskCalculator

open DeskCalculator

def main (arguments : List String) : IO UInt32 := do
  let errors ← match CommandLine.parse arguments with
    | .ok .interactive =>
        let c := Calculator.ofInput .empty .seeded (.ofSink (.stderr ""))
        let s ← converse (← IO.getStdin) ⟨0, c, .stdout ""⟩
        pure s.calculator.errors
    | _ =>
        let r := CommandLine.execute arguments .empty (.stdout "") (.stderr "")
        let _ ← r.output.flush
        let _ ← r.journal.sink.flush
        pure r.journal.errors
  return (exitStatus errors).toUInt32
