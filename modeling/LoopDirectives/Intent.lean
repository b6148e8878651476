import LoopDirectives.Text.Blank
import LoopDirectives.Text.Letter

/-!
# Intents

The direction in which data flows through a parameter, as it is declared or as it is asked for.
-/

namespace LoopDirectives

inductive Intent where
  | input
  | output
  | inputOutput
  /-- Asked for: whatever is declared. -/
  | any
  /-- Declared: no direction. -/
  | unspecified
  deriving DecidableEq

namespace Intent

/-- The intent that an attribute declares; everything but the three directions declares none. -/
def ofAttribute (value? : Option String) : Intent :=
  match value?.map fun value => Text.lower (Text.trim value) with
  | some "in" => input
  | some "out" => output
  | some "inout" => inputOutput
  | _ => unspecified

def text : Intent → String
  | input => "in"
  | output => "out"
  | inputOutput => "inout"
  | any => "any"
  | unspecified => ""

/-- Whether a parameter declared with the second intent answers a request for the first. -/
def accepts : (requested declared : Intent) → Bool
  | input, input => true
  | input, inputOutput => true
  | output, output => true
  | output, inputOutput => true
  | inputOutput, input => true
  | inputOutput, output => true
  | inputOutput, inputOutput => true
  | any, _ => true
  | _, _ => false

end Intent

end LoopDirectives
