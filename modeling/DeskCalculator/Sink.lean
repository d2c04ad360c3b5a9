/-!
# Diagnostics — Sinks

Where lines of text go: to one of the two standard streams, to a buffer, or nowhere.  Only a buffer
is read back and emptied by the program (`captured`, `clear`); what was sent to a standard stream is
kept for the outer layer that owns the stream (`written`), and no operation of the calculator looks
at it.
-/

namespace DeskCalculator

/-- A destination for lines, with the text it has been sent. -/
inductive Sink where
  | stdout (written : String)
  | stderr (written : String)
  | buffer (text : String)
  | silent
  deriving DecidableEq, Repr

namespace Sink

/-- Adds `line` and a newline. -/
def println : Sink → String → Sink
  | .stdout written, line => .stdout (written ++ line ++ "\n")
  | .stderr written, line => .stderr (written ++ line ++ "\n")
  | .buffer text,    line => .buffer (text ++ line ++ "\n")
  | .silent,         _    => .silent

/-- The text of a buffer; nothing for a sink that does not capture. -/
def captured : Sink → String
  | .buffer text => text
  | _            => ""

/-- Empties a buffer. -/
def clear : Sink → Sink
  | .buffer _ => .buffer ""
  | sink      => sink

/-- The text on its way to a standard stream. -/
def written : Sink → String
  | .stdout written | .stderr written => written
  | .buffer _ | .silent               => ""

/-- The sink once the outer layer has passed its `written` text on. -/
def flushed : Sink → Sink
  | .stdout _ => .stdout ""
  | .stderr _ => .stderr ""
  | sink      => sink

end Sink

end DeskCalculator
