/-!
# Output

What a program prints is kept in a buffer until the host takes it, or thrown away.
-/

namespace TreeScript

/-- Where output goes. -/
inductive Output where
  | buffer (text : String)
  | silent
  deriving DecidableEq, Repr, Inhabited

namespace Output

/-- Print a text. -/
def print : Output → String → Output
  | buffer text, s => buffer (text ++ s)
  | silent, _ => silent

/-- Print a text and end the line. -/
def printLine (o : Output) (s : String) : Output := o.print (s ++ "\n")

/-- What has been kept. -/
def text : Output → String
  | buffer text => text
  | silent => ""

/-- Throw away what has been kept. -/
def clear : Output → Output
  | buffer _ => buffer ""
  | silent => silent

/-- Take what has been kept. -/
def take (o : Output) : String × Output := (o.text, o.clear)

end Output
end TreeScript
