/-!
# What can be wrong with a script

Every way a script can fail to be one is a constructor; the wording is in `Fault.message`.
-/

namespace ModuleWorkers.Script

inductive Fault
  | unexpectedEnd
  | expected (what got : String)
  | unexpected (got expected : String)
  | expressionExpected
  | semicolonExpected
  | identifierExpected
  | commaWithoutDeclaration
  | unterminatedString
  | unterminatedComment
  | unterminatedTemplate
  | unterminatedRegex
  | unknownRegexFlags
  | repeatedRegexFlag
  | unexpectedCharacter (char : Char)
  | badEscape
  | escapeInKeyword (word : String)
  | digitExpected (radix : Nat)
  | exponentExpected
  | separatorPlacement
  | identifierAfterNumber
  | legacyOctal
  | legacyComment
  | legacyDecimal
  | spaceAfterHash
  | emptyParentheses
  | spreadInParentheses
  | arrowNotAllowed
  | lineBreakBeforeArrow
  | lineBreakAfterThrow
  | unaryBeforeExponent
  | mixedCoalescing
  | invalidAssignmentTarget
  | invalidPattern
  | defaultedProperty
  | reservedShorthand
  | restNotLast
  | commaAfterRest
  | restWithInitializer
  | restNotIdentifier
  | patternWithoutInitializer
  | constantWithoutInitializer
  | loopInitializer
  | tooManyLoopVariables
  | awaitInLoop
  | awaitInFunction
  | awaitInParameters
  | awaitStar
  | reservedAwait
  | reservedInStrict (word : String)
  | reservedInImport
  | strictBinding
  | strictDelete
  | strictWith
  | yieldInParameters
  | illegalBreak
  | illegalContinue
  | unknownLabel
  | repeatedLabel (label : String)
  | labeledFunction
  | illegalReturn
  | declarationNotAllowed
  | catchOrFinallyExpected
  | repeatedDefaultClause
  | nestedModuleDeclaration
  | moduleDeclarationInScript
  | exportNeedsSource (name : String)
  | stringExport
  | stringImport (name : String)
  | trailingCommaInImport
  | importNotCalled
  | superNotAllowed
  | superCallNotAllowed
  | newTargetNotAllowed
  | optionalConstructor
  | optionalTemplate
  | repeatedConstructor
  | specialConstructor
  | accessorParameters
  | argumentsInField
  | tooDeep
  deriving DecidableEq, Inhabited, Repr

namespace Fault

/-- The wording of a fault. -/
def message : Fault → String
  | unexpectedEnd => "Unexpected eof"
  | expected what got => s!"Expected {what}, got {got}"
  | unexpected got what => "Unexpected token `" ++ got ++ "`. Expected " ++ what
  | expressionExpected => "Expression expected"
  | semicolonExpected => "Expected a semicolon"
  | identifierExpected => "Expected ident"
  | commaWithoutDeclaration => "Trailing comma is not allowed"
  | unterminatedString => "Unterminated string constant"
  | unterminatedComment => "Unterminated block comment"
  | unterminatedTemplate => "Unterminated template"
  | unterminatedRegex => "Unterminated regexp literal"
  | unknownRegexFlags => "Unknown regular expression flags."
  | repeatedRegexFlag => "Duplicated regular expression flag."
  | unexpectedCharacter c => "Unexpected character '" ++ String.singleton c ++ "'"
  | badEscape => "Bad character escape sequence, expected 2 hex characters"
  | escapeInKeyword w => s!"Unexpected escape sequence in reserved word: {w}"
  | digitExpected _ => "Expected a digit"
  | exponentExpected => "Expected an exponent"
  | separatorPlacement => "A numeric separator is only allowed between two digits"
  | identifierAfterNumber => "Identifier cannot follow number"
  | legacyOctal => "Legacy octal literals are not available when targeting ECMAScript 5 and higher"
  | legacyComment => "Legacy comments cannot be used in module code"
  | legacyDecimal => "Legacy decimal escape is not permitted in strict mode"
  | spaceAfterHash => "Unexpected space between # and identifier"
  | emptyParentheses => "Parenthesized expression cannot be empty"
  | spreadInParentheses => "Parenthesized expression cannot contain spread operator"
  | arrowNotAllowed => "Arrow function is not allowed here"
  | lineBreakBeforeArrow => "Unexpected line break between arrow head and arrow"
  | lineBreakAfterThrow => "LineBreak cannot follow 'throw'"
  | unaryBeforeExponent => "'**' operator can't be applied directly to unary expression"
  | mixedCoalescing =>
    "Nullish coalescing operator(??) requires parens when mixing with logical operators"
  | invalidAssignmentTarget => "Cannot assign to this"
  | invalidPattern => "Not a pattern"
  | defaultedProperty => "Assignment property is invalid syntax"
  | reservedShorthand => "Cannot use a reserved word as a shorthand property"
  | restNotLast => "Rest element must be final element"
  | commaAfterRest => "Trailing comma isn't permitted after a rest element"
  | restWithInitializer => "A rest parameter cannot have an initializer"
  | restNotIdentifier => "`...` must be followed by an identifier in declaration contexts"
  | patternWithoutInitializer => "Destructuring bindings require initializers"
  | constantWithoutInitializer => "'const' declarations must be initialized"
  | loopInitializer => "Unexpected initializer in for in/of loop"
  | tooManyLoopVariables => "Expected one variable binding"
  | awaitInLoop => "for await syntax is valid only for for-of statement"
  | awaitInFunction => "await isn't allowed in non-async function"
  | awaitInParameters => "`await` expressions cannot be used in a parameter initializer."
  | awaitStar =>
    "await* has been removed from the async functions proposal. Use Promise.all() instead."
  | reservedAwait => "`await` cannot be used as an identifier in an async context"
  | reservedInStrict w => "`" ++ w ++ "` cannot be used as an identifier in strict mode"
  | reservedInImport => "cannot import as reserved word"
  | strictBinding => "'eval' and 'arguments' cannot be used as a binding identifier in strict mode"
  | strictDelete => "`delete` cannot be called on an identifier in strict mode"
  | strictWith => "With statement are not allowed in strict mode"
  | yieldInParameters => "'yield' cannot be used as a parameter within generator"
  | illegalBreak => "A 'break' statement can only be used within an enclosing iteration or switch " ++
    "statement"
  | illegalContinue => "A 'continue' statement can only be used within an enclosing iteration " ++
    "statement"
  | unknownLabel => "Jump target cannot cross function boundary"
  | repeatedLabel l => s!"Label {l} is already declared"
  | labeledFunction => "In strict mode code, functions can only be declared at top level or inside " ++
    "a block."
  | illegalReturn => "Return statement is not allowed here"
  | declarationNotAllowed => "Declaration is not allowed"
  | catchOrFinallyExpected => "Expected catch or finally"
  | repeatedDefaultClause => "A switch block cannot have multiple defaults"
  | nestedModuleDeclaration => "'import', and 'export' are not permitted here"
  | moduleDeclarationInScript => "'import', and 'export' cannot be used outside of module code"
  | exportNeedsSource n => "`" ++ n ++ "` cannot be used without `from` clause"
  | stringExport => "A string literal cannot be used as an exported binding without `from`."
  | stringImport n => "A string literal cannot be used as an imported binding.\n- Did you mean " ++
    "`import \x7b \"" ++ n ++ "\" as foo \x7d`?"
  | trailingCommaInImport => "Trailing comma is disallowed inside import(...) arguments"
  | importNotCalled => "Import is not allowed here"
  | superNotAllowed => "Invalid access to super"
  | superCallNotAllowed => "Invalid `super()`"
  | newTargetNotAllowed =>
    "'new.target' is only allowed in the body of a function declaration, function expression, " ++
    "or class."
  | optionalConstructor => "Constructor in/after an optional chaining is not allowed."
  | optionalTemplate => "Tagged template expressions are not permitted in an optional chain"
  | repeatedConstructor => "A class can only have one constructor"
  | specialConstructor => "Constructor can't be a generator, async or an accessor"
  | accessorParameters => "A getter has no parameter and a setter exactly one"
  | argumentsInField => "'arguments' is only allowed in functions and class methods"
  | tooDeep => "The script is nested too deeply"

end Fault

/-- A fault at a byte position, counted from one as in `Span`. -/
structure Failure where
  fault : Fault
  position : Nat
  deriving DecidableEq, Inhabited, Repr

end ModuleWorkers.Script
