import LoxCalc.Config
import LoxCalc.Text.Styling

/-!
# The console

The console is the sink of the command line: two streams, one for results and
one for everything that is said.  Diagnostics and traces go to the second one,
traces only if the level of the log shows them.  Text that the command line
writes itself loses its terminal styling, since nothing here is a terminal.
-/

namespace LoxCalc.CommandLine

structure Console where
  out : String
  err : String
  /-- Whether traces are shown. -/
  traces : Bool
  deriving DecidableEq, Repr

instance : Sink Console where
  say c message := { c with err := c.err ++ message ++ "\n" }
  note c t := if c.traces then { c with err := c.err ++ t.text ++ "\n" } else c

namespace Console

def blank (traces : Bool) : Console := ⟨"", "", traces⟩

def write (c : Console) (text : String) : Console :=
  { c with out := c.out ++ Text.unstyled text }

def writeLine (c : Console) (text : String) : Console :=
  c.write (text ++ "\n")

/-- The console after a line of the command line on standard error. -/
def complain (c : Console) (text : String) : Console :=
  { c with err := c.err ++ Text.unstyled (text ++ "\n") }

end Console

end LoxCalc.CommandLine

namespace LoxCalc.Reporter

open CommandLine

def onConsole (level : LogLevel) : Reporter Console :=
  .fresh (.blank level.showsTraces)

def write (r : Reporter Console) (text : String) : Reporter Console :=
  { r with sink := r.sink.write text }

def writeLine (r : Reporter Console) (text : String) : Reporter Console :=
  { r with sink := r.sink.writeLine text }

/-- The reporter after a line on standard error that is no diagnostic. -/
def complain (r : Reporter Console) (text : String) : Reporter Console :=
  { r with sink := r.sink.complain text }

end LoxCalc.Reporter
