import CseMachine.Code

/-!
The page of each error code: what went wrong, an example, and what to do.
-/
namespace CseMachine.Code

/-- Lines of the page of a code. -/
def pageLines : Code → List String
  | .unterminatedString => [
    "# E0001: Unterminated string literal",
    "",
    "A string literal was opened with `'` or `\"` but the line ended before the",
    "matching closing quote.",
    "",
    "```python",
    "greeting = \"hello",
    "```",
    "",
    "Close the string on the same line:",
    "",
    "```python",
    "greeting = \"hello\"",
    "```"]
  | .invalidCharacter => [
    "# E0002: Invalid character",
    "",
    "The source contains a character that cannot start any token, such as `$`",
    "or `?`.",
    "",
    "```python",
    "total = price $ 2",
    "```",
    "",
    "Remove the character or replace it with an operator the language supports."]
  | .invalidNumber => [
    "# E0003: Invalid number literal",
    "",
    "A numeric literal could not be read as an integer, float, or imaginary",
    "number.",
    "",
    "```python",
    "x = 1e",
    "```",
    "",
    "Complete the exponent (`1e3`) or remove it."]
  | .inconsistentDedent => [
    "# E0004: Inconsistent dedent",
    "",
    "A line was indented less than the line before it, but its indentation does",
    "not match any enclosing block.",
    "",
    "```python",
    "def f():",
    "        x = 1",
    "    return x",
    "```",
    "",
    "Indent every line of a block by the same amount."]
  | .unexpectedToken => [
    "# E1001: Unexpected token",
    "",
    "The parser found a token that cannot appear at this position.",
    "",
    "```python",
    "def f(x y):",
    "    return x",
    "```",
    "",
    "Check for a missing comma, colon, or parenthesis near the reported token."]
  | .expectedExpression => [
    "# E1002: Expected expression",
    "",
    "An expression was required, for example after an operator or `=`, but the",
    "line ended or another construct began.",
    "",
    "```python",
    "x = 1 +",
    "```",
    "",
    "Complete the expression."]
  | .unclosedDelimiter => [
    "# E1003: Unclosed delimiter",
    "",
    "A `(` or `[` was opened and never closed.",
    "",
    "```python",
    "print(max(1, 2)",
    "```",
    "",
    "Add the matching closing delimiter."]
  | .invalidTarget => [
    "# E1004: Invalid assignment target",
    "",
    "Only plain names can be assigned to.",
    "",
    "```python",
    "f() = 3",
    "xs[0] = 1",
    "```",
    "",
    "Assign to a variable name instead."]
  | .returnOutsideFunction => [
    "# E1005: `return` outside function",
    "",
    "`return` only makes sense inside a `def` body.",
    "",
    "```python",
    "return 5",
    "```",
    "",
    "Move the statement into a function, or drop `return` and keep the",
    "expression."]
  | .misplacedNonlocal => [
    "# E1006: Misplaced `nonlocal`",
    "",
    "`nonlocal` must appear inside a function, before the name is used there.",
    "",
    "```python",
    "def counter():",
    "    count = 0",
    "    def bump():",
    "        count = count + 1",
    "        nonlocal count",
    "```",
    "",
    "Place `nonlocal count` at the top of the inner function."]
  | .chainedComparison => [
    "# E1007: Chained comparison",
    "",
    "Comparisons such as `a < b < c` are not supported.",
    "",
    "```python",
    "ok = 0 < x < 10",
    "```",
    "",
    "Split the chain with `and`:",
    "",
    "```python",
    "ok = 0 < x and x < 10",
    "```"]
  | .zeroDivision => [
    "# E6001: ZeroDivisionError",
    "",
    "The right operand of `/`, `//`, or `%` was zero. Integers, floats, and",
    "complex numbers all refuse a zero divisor; the result is never silently",
    "`inf` or `nan`.",
    "",
    "```python",
    "print(5 // 0)",
    "```",
    "",
    "Test the divisor before dividing."]
  | .mathDomain => [
    "# E6002: Math domain error",
    "",
    "A math function was called outside the range where it is defined, such as",
    "`math_sqrt` of a negative number or `math_asin` of a value above 1.",
    "",
    "```python",
    "math_asin(2)",
    "```",
    "",
    "Check the argument's range before calling the function."]
  | .badValue => [
    "# E6003: ValueError",
    "",
    "A conversion received a value of the right type but the wrong contents,",
    "such as `int(\"abc\")`.",
    "",
    "```python",
    "n = int(\"12a\")",
    "```",
    "",
    "Validate the string before converting it."]
  | .overflow => [
    "# E6004: OverflowError",
    "",
    "A numeric result is too large to represent, for example a float power that",
    "exceeds the largest double, or an integer too large to convert to float.",
    "",
    "```python",
    "x = 10.0 ** 400",
    "```",
    "",
    "Use integer arithmetic, which has arbitrary precision, or reduce the",
    "magnitude."]
  | .unsupportedOperand => [
    "# E6010: Unsupported operand types",
    "",
    "The binary operator is not defined for this combination of types. Numbers",
    "are promoted along int, float, complex; nothing else is converted",
    "implicitly.",
    "",
    "```python",
    "x = True + 1",
    "```",
    "",
    "Convert one operand explicitly, for example with `int()` or `str()`."]
  | .concatenation => [
    "# E6011: Concatenation type error",
    "",
    "`+` with a string on one side requires a string on the other.",
    "",
    "```python",
    "label = \"total: \" + 5",
    "```",
    "",
    "Convert the other operand with `str()`:",
    "",
    "```python",
    "label = \"total: \" + str(5)",
    "```"]
  | .badUnaryOperand => [
    "# E6012: Bad operand for unary operator",
    "",
    "Unary `-` and `+` need a number.",
    "",
    "```python",
    "x = -\"a\"",
    "```"]
  | .notABool => [
    "# E6013: Condition is not a bool",
    "",
    "Conditions of `if`, conditional expressions, `and`, `or`, and `not` must be",
    "`True` or `False`. Other values are not truth-tested implicitly.",
    "",
    "```python",
    "if 1:",
    "    pass",
    "```",
    "",
    "Compare explicitly: `if n != 0:`."]
  | .ordering => [
    "# E6014: Ordering not supported",
    "",
    "`<`, `<=`, `>`, and `>=` compare numbers with numbers and strings with",
    "strings. Complex numbers have no ordering.",
    "",
    "```python",
    "1 < \"2\"",
    "```"]
  | .builtinArgument => [
    "# E6015: Builtin argument type",
    "",
    "A builtin function received an argument of a type it does not accept.",
    "",
    "```python",
    "len(5)",
    "```"]
  | .badSubscript => [
    "# E6016: Bad subscript",
    "",
    "Only lists and strings can be indexed, and the index must be an `int`.",
    "Booleans and floats are not accepted as indices.",
    "",
    "```python",
    "xs = [1, 2, 3]",
    "xs[1.0]",
    "```",
    "",
    "Convert the index with `int()`, or check that the value is a list."]
  | .undefinedVariable => [
    "# E6020: Undefined variable",
    "",
    "The name is not bound in the current scope or any enclosing scope.",
    "",
    "```python",
    "print(totl)",
    "```",
    "",
    "Check the spelling, or assign the variable before using it."]
  | .unassignedVariable => [
    "# E6021: Variable used before assignment",
    "",
    "The name is declared in this scope because it is assigned somewhere in it,",
    "but it was read before the assignment ran.",
    "",
    "```python",
    "def f():",
    "    print(x)",
    "    x = 1",
    "```",
    "",
    "Assign the variable before reading it."]
  | .redeclaration => [
    "# E6022: Variable redeclaration",
    "",
    "A name was declared twice in the same scope, or a function's local variable",
    "shadows one of its own parameters."]
  | .constantReassignment => [
    "# E6023: Constant reassignment",
    "",
    "The name is bound to a constant, such as a builtin constant, and cannot be",
    "reassigned from this scope."]
  | .indexOutOfRange => [
    "# E6024: IndexError",
    "",
    "The list index is outside the list. Negative indices count from the end,",
    "so valid indices for a list of length `n` are `-n` through `n - 1`.",
    "",
    "```python",
    "xs = [1, 2]",
    "xs[2]",
    "```"]
  | .missingArguments => [
    "# E6030: Missing positional arguments",
    "",
    "The function was called with fewer arguments than it has parameters. The",
    "message names every unfilled parameter.",
    "",
    "```python",
    "def add(a, b):",
    "    return a + b",
    "",
    "add(1)",
    "```"]
  | .tooManyArguments => [
    "# E6031: Too many positional arguments",
    "",
    "The function was called with more arguments than it has parameters.",
    "",
    "```python",
    "def add(a, b):",
    "    return a + b",
    "",
    "add(1, 2, 3)",
    "```",
    "",
    "Remove the extra arguments or add a `*rest` parameter."]
  | .notCallable => [
    "# E6032: Value is not callable",
    "",
    "Only functions, lambdas, and builtins can be called.",
    "",
    "```python",
    "x = 5",
    "x()",
    "```"]
  | .userError => [
    "# E6050: User error",
    "",
    "The program called `error(...)` to stop with a message."]
  | .stepLimit => [
    "# E6070: Step limit reached",
    "",
    "Evaluation paused after the configured number of machine steps. This is",
    "not a failure: the machine state is kept and can be resumed. Raise",
    "`--step-limit` if the program needs more steps."]
  | .internal => [
    "# E9001: Internal error",
    "",
    "The machine reached a state that should be impossible, such as an empty",
    "stash where an operand was expected. Please report it along with the",
    "program that triggered it."]

/-- The page as one text, each line ended. -/
def page (c : Code) : String := String.join (c.pageLines.map (· ++ "\n"))

end CseMachine.Code
