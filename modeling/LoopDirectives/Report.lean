/-!
# Reports

What a run says about one unit: how many directives were applied, how many were dropped, and a
message, with its line, for everything that is not as it should be.
-/

namespace LoopDirectives

inductive Severity where
  | info | warning | error
  deriving DecidableEq

def Severity.text : Severity → String
  | info => "info"
  | warning => "warning"
  | error => "error"

structure Diagnostic where
  file : String
  line : Nat
  severity : Severity
  message : String
  deriving DecidableEq

def Diagnostic.text (diagnostic : Diagnostic) : String :=
  diagnostic.file ++ ":" ++ toString diagnostic.line ++ ": " ++ diagnostic.severity.text ++ ": " ++
    diagnostic.message

structure Report where
  file : String
  diagnostics : List Diagnostic := []
  applied : Nat := 0
  dropped : Nat := 0
  deriving DecidableEq

namespace Report

def add (report : Report) (line : Nat) (severity : Severity) (message : String) : Report :=
  { report with
    diagnostics := report.diagnostics ++ [{ file := report.file, line, severity, message }] }

def recordApplied (report : Report) : Report :=
  { report with applied := report.applied + 1 }

/-- The report after a directive is dropped, with the message that says why. -/
def recordDropped (report : Report) (line : Nat) (severity : Severity) (message : String) :
    Report :=
  { report.add line severity message with dropped := report.dropped + 1 }

def hasErrors (report : Report) : Bool :=
  report.diagnostics.any fun diagnostic => diagnostic.severity == .error

end Report

end LoopDirectives
