import OutlineMarkup.Text.Numeral

/-!
# Faults

The causes for which a document, a grammar or an expression is turned down. The wording of a
cause is given in one place.
-/

namespace OutlineMarkup

/-- Why a line of a document does not make sense in the language. -/
inductive Rejection where
  | undefinedVariable (name : Text)
  | undeclaredVariable (name : Text)
  | notArithmetic (command : Text)
  | engineTarget
  | notColour (colour : Text)
  | argumentCount (method : Text) (expected given : Nat)
  | indentation
  | engineArgumentCount (method : Text) (expected given : Nat)
  | notIndex (index : Text)
  | brokenIndex
  | unknownTag (name : Text)
  | noAssignment (name : Text)
  | constantTarget (name : Text)
  | methodName
  | reservedName (name : Text)
  | reusedIterator (name : Text)
  | severalAssignments (command : Text)
  | importForm (line : Text)
  | missingModule (name : Text)
  | engineForm
  | engineName
  | undeclaredEngine
  | branchForm
  | branchOwner
  | closingNeeded (method : Text)
  | branchInline (method : Text)
  | engineCall
  | codeBlockArity (given : Nat)
  | verbatimArity (given : Nat)
  | forbiddenAttribute (name element : Text)
  deriving Repr, DecidableEq

namespace Rejection

private def named (before name after : Text) : Text := before ++ name ++ after

def message : Rejection → Text
  | undefinedVariable n => named "Variable '" n "' used prior to definition"
  | undeclaredVariable n => named "Variable '" n "' used prior to declaration."
  | notArithmetic c => named "Command '" c "' is not a valid mathematical operation"
  | engineTarget =>
    "Improper TemplateEngine method declaration, variable assigned to must follow format of ".toList
      ++ "TemplateEngine.MethodName".toList
  | notColour c => named "Color '" c "' is not a valid HTML color"
  | argumentCount m expected given =>
    named "Method '" m "' expects " ++ Text.ofNat expected ++ " attributes, ".toList
      ++ Text.ofNat given ++ " given.".toList
  | indentation => "Incorrect indentation"
  | engineArgumentCount m expected given =>
    named "TemplateEngine method " m " takes " ++ Text.ofNat expected ++ " variables, ".toList
      ++ Text.ofNat given ++ " given".toList
  | notIndex i => named "Invalid index '" i "', index must be an integer"
  | brokenIndex => "Syntax error while trying to parse index"
  | unknownTag n => named "'" n "' is not a valid markup tag or method name."
  | noAssignment n => named "You're trying to declare variable " n " without assignment"
  | constantTarget n => named "Illegal assignment to a constant '" n "'"
  | methodName =>
    "Method name must be alphanumeric with underscores and start with a letter or underscore"
  | reservedName n =>
    named "Can't create method named '" n "', it's a reserved markup element name"
  | reusedIterator n => named "Can't reuse previously defined variable " n " as loop iterator"
  | severalAssignments c =>
    named "Command '" c "' has multiple assignment operators, invalid syntax"
  | importForm l => named "Invalid import statement: " l ""
  | missingModule n => named "Can't import '" n "', module doesn't exist"
  | engineForm => "Improper TemplateEngine declaration"
  | engineName => "TemplateEngine must have alphanumeric name that starts with a letter"
  | undeclaredEngine => "Attempting to add a method to a TemplateEngine prior to declaration"
  | branchForm => "Method being appended to must follow TemplateEngine.MethodName format"
  | branchOwner => "Attempting to append functionality to a non-existing method"
  | closingNeeded m =>
    named "'" m "' method requires a closing tag, it can't be used as part of other "
      ++ "logic on the line".toList
  | branchInline m =>
    named "Can't use '" m "' as part of other logic on the line because it's a branch of "
      ++ "an existing method".toList
  | engineCall => "Improper TemplateEngine method declaration or invocation"
  | codeBlockArity n =>
    named "Code Block definition takes 1, 2, or 3 arguments, " (Text.ofNat n)
      " arguments were given"
  | verbatimArity n =>
    named "Verbatim definition takes 0, 1, or 2 arguments, " (Text.ofNat n) " arguments were given"
  | forbiddenAttribute a e =>
    named "'" a "' is not one of allowed attributes for '" ++ e ++ "' element".toList

end Rejection

inductive Fault where
  /-- A line is rejected. -/
  | rejected (why : Rejection)
  /-- The command of a code block wrote to its error channel. -/
  | complaint (block text : Text)
  /-- Compilation ended after the error had been reported. -/
  | stopped
  /-- The command line does not fit the options. -/
  | usage
  /-- The command line asks for help. -/
  | help
  /-- A position outside a text or a list. -/
  | outOfRange
  /-- A name that a table does not hold. -/
  | unknownKey
  | wrongType
  | badValue
  /-- A name without meaning in an expression. -/
  | unknownName
  | unknownAttribute
  /-- The text of an expression does not follow its grammar. -/
  | malformed
  /-- A result is used that no case has produced. -/
  | unassigned
  | zeroDivision
  | overflow
  | missingFile
  /-- A pattern or a replacement that cannot be read. -/
  | badPattern
  /-- Lines nest more deeply than the bound given. -/
  | tooDeep
  deriving Repr, DecidableEq

namespace Fault

/-- Rejections and complaints carry a message; the other faults are known by their cause. -/
def message? : Fault → Option Text
  | rejected why => some why.message
  | complaint block text =>
    some ('\'' :: block ++ "' code_block tag triggered the following OS error: ".toList ++ text)
  | _ => none

end Fault
end OutlineMarkup
