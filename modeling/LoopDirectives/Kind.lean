/-!
# Kinds of elements

The elements of a unit that the program understands, each with the tag that marks it. A tag
outside the vocabulary is of kind `Kind.other`; such elements are kept as they are.

`Kind.ofTag_tag` says that a kind is read back from its own tag.
-/

namespace LoopDirectives

inductive BinaryOperator where
  | plus | minus | times | divide | power
  | equal | notEqual | less | lessEqual | greater | greaterEqual
  | conjunction | disjunction
  deriving DecidableEq

namespace BinaryOperator

def all : List BinaryOperator :=
  [plus, minus, times, divide, power, equal, notEqual, less, lessEqual, greater, greaterEqual,
    conjunction, disjunction]

def symbol : BinaryOperator → String
  | plus => "+"
  | minus => "-"
  | times => "*"
  | divide => "/"
  | power => "**"
  | equal => "=="
  | notEqual => "/="
  | less => "<"
  | lessEqual => "<="
  | greater => ">"
  | greaterEqual => ">="
  | conjunction => ".and."
  | disjunction => ".or."

def tag : BinaryOperator → String
  | plus => "plusExpr"
  | minus => "minusExpr"
  | times => "mulExpr"
  | divide => "divExpr"
  | power => "FpowerExpr"
  | equal => "logEQExpr"
  | notEqual => "logNEQExpr"
  | less => "logLTExpr"
  | lessEqual => "logLEExpr"
  | greater => "logGTExpr"
  | greaterEqual => "logGEExpr"
  | conjunction => "logAndExpr"
  | disjunction => "logOrExpr"

/-- How tightly the operator binds its operands; a greater number binds tighter. -/
def precedence : BinaryOperator → Nat
  | power => 6
  | times | divide => 5
  | plus | minus => 4
  | equal | notEqual | less | lessEqual | greater | greaterEqual => 3
  | conjunction => 2
  | disjunction => 1

end BinaryOperator

inductive ConstantKind where
  | integer | real | character | logical | complex
  deriving DecidableEq

namespace ConstantKind

def all : List ConstantKind :=
  [integer, real, character, logical, complex]

def tag : ConstantKind → String
  | integer => "FintConstant"
  | real => "FrealConstant"
  | character => "FcharacterConstant"
  | logical => "FlogicalConstant"
  | complex => "FcomplexConstant"

end ConstantKind

inductive Kind where
  | programRoot | moduleRoot
  | typeTable | globalSymbols | globalDeclarations | identifiers | declarations | symbols
  | identifier | name | value
  | basicType | functionType | structType | parameters | kindParameter | length
  | variableDeclaration | functionDefinition | moduleDefinition | useDeclaration
  | assignment | doLoop | whileLoop | conditional | condition | thenBranch | elseBranch
  | expressionStatement | pragma | returnStatement | continueStatement | cycleStatement
  | exitStatement | body
  | var | variableReference | indexRange | lowerBound | upperBound | step
  | arrayReference | arrayIndex | memberReference
  | binary (operator : BinaryOperator) | negation | complement
  | constant (type : ConstantKind)
  | call | arguments | namedArgument
  | other
  deriving DecidableEq

namespace Kind

/-- The kinds of the vocabulary, all but `other`. -/
def vocabulary : List Kind :=
  [programRoot, moduleRoot, typeTable, globalSymbols, globalDeclarations, identifiers, declarations,
    symbols, identifier, name, value, basicType, functionType, structType, parameters,
    kindParameter, length, variableDeclaration, functionDefinition, moduleDefinition,
    useDeclaration, assignment, doLoop, whileLoop, conditional, condition, thenBranch, elseBranch,
    expressionStatement, pragma, returnStatement, continueStatement, cycleStatement, exitStatement,
    body, var, variableReference, indexRange, lowerBound, upperBound, step, arrayReference,
    arrayIndex, memberReference, negation, complement, call, arguments, namedArgument] ++
    BinaryOperator.all.map binary ++ ConstantKind.all.map constant

def tag : Kind → String
  | programRoot => "XcodeProgram"
  | moduleRoot => "OmniFortranModule"
  | typeTable => "typeTable"
  | globalSymbols => "globalSymbols"
  | globalDeclarations => "globalDeclarations"
  | identifiers => "identifiers"
  | declarations => "declarations"
  | symbols => "symbols"
  | identifier => "id"
  | name => "name"
  | value => "value"
  | basicType => "FbasicType"
  | functionType => "FfunctionType"
  | structType => "FstructType"
  | parameters => "params"
  | kindParameter => "kind"
  | length => "len"
  | variableDeclaration => "varDecl"
  | functionDefinition => "FfunctionDefinition"
  | moduleDefinition => "FmoduleDefinition"
  | useDeclaration => "FuseDecl"
  | assignment => "FassignStatement"
  | doLoop => "FdoStatement"
  | whileLoop => "FdoWhileStatement"
  | conditional => "FifStatement"
  | condition => "condition"
  | thenBranch => "then"
  | elseBranch => "else"
  | expressionStatement => "exprStatement"
  | pragma => "FpragmaStatement"
  | returnStatement => "FreturnStatement"
  | continueStatement => "ContinueStatement"
  | cycleStatement => "FcycleStatement"
  | exitStatement => "FexitStatement"
  | body => "body"
  | var => "Var"
  | variableReference => "varRef"
  | indexRange => "indexRange"
  | lowerBound => "lowerBound"
  | upperBound => "upperBound"
  | step => "step"
  | arrayReference => "FarrayRef"
  | arrayIndex => "arrayIndex"
  | memberReference => "FmemberRef"
  | binary operator => operator.tag
  | negation => "unaryMinusExpr"
  | complement => "logNotExpr"
  | constant type => type.tag
  | call => "functionCall"
  | arguments => "arguments"
  | namedArgument => "namedValue"
  | other => "unknown"

def ofTag (tag : String) : Kind :=
  (vocabulary.find? fun kind => kind.tag == tag).getD other

def isConstant : Kind → Bool
  | constant _ => true
  | _ => false

def operator? : Kind → Option BinaryOperator
  | binary operator => some operator
  | _ => none

/-- How tightly the kind binds as an operand; nothing for what is not a binary expression. -/
def precedence? (kind : Kind) : Option Nat :=
  kind.operator?.map BinaryOperator.precedence

/-- Reading the tag of a kind gives the kind back. -/
theorem ofTag_tag (kind : Kind) : ofTag kind.tag = kind := by
  cases kind with
  | binary operator => cases operator <;> rfl
  | constant type => cases type <;> rfl
  | _ => rfl

end Kind

end LoopDirectives
