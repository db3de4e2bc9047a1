import TypeErasure.Literal

/-!
# Constructs

A construct is a part of a source text that the eraser recognises. Literals are recognised so that
nothing inside them is taken for type syntax, and are copied; all other constructs are type syntax,
and are commented out.

`Construct.all` lists the constructs by precedence: of two that start at the same offset, the
earlier one in the list is taken. Literals come first.
-/

namespace TypeErasure

/-- What the eraser recognises. -/
inductive Construct where
  /-- A literal or comment, copied as it is. -/
  | literal (kind : LiteralKind)
  /-- A `declare …` statement. -/
  | ambient
  /-- A `type Name = …` statement. -/
  | typeAlias
  /-- An `interface Name { … }` declaration. -/
  | interface
  /-- The fields at the head of a class body, an `implements` clause, or the `abstract` of a
  class. -/
  | classMembers
  /-- A `<…>` list of type parameters or arguments. -/
  | typeArguments
  /-- The `: Type` between a parameter list and a function body. -/
  | returnType
  /-- The `: Type` of a variable or parameter. -/
  | annotated
  /-- An `as Type` behind an expression. -/
  | cast
  deriving DecidableEq, Repr

namespace Construct

/-- All constructs, in the order of precedence. -/
def all : List Construct :=
  [literal .lineComment, literal .blockComment, literal .string, literal .template, literal .regex,
    ambient, typeAlias, interface, classMembers, typeArguments, returnType, annotated, cast]

/-- The list of constructs leaves none out. -/
theorem mem_all (k : Construct) : k ∈ all := by
  cases k with
  | literal kind => cases kind <;> decide
  | _ => decide

/-- The literal kind of a construct that is a literal. -/
def literalKind? : Construct → Option LiteralKind
  | literal kind => some kind
  | _ => none

/-- The name of the construct in messages. -/
def name : Construct → String
  | literal .lineComment => "single-line comment"
  | literal .blockComment => "multi-line comment"
  | literal .string => "string literal"
  | literal .template => "template literal"
  | literal .regex => "regex literal"
  | ambient => "ambient declaration"
  | typeAlias => "type alias"
  | interface => "interface declaration"
  | classMembers => "class member block"
  | typeArguments => "generic argument list"
  | returnType => "function return type"
  | annotated => "annotated declaration"
  | cast => "cast expression"

/-- The identifier of the construct in data. -/
def tag : Construct → String
  | literal .lineComment => "SingleLineComment"
  | literal .blockComment => "MultiLineComment"
  | literal .string => "StringLiteral"
  | literal .template => "TemplateLiteral"
  | literal .regex => "RegexLiteral"
  | ambient => "AmbientDeclaration"
  | typeAlias => "TypeAliasStatement"
  | interface => "InterfaceDeclaration"
  | classMembers => "ClassMemberBlock"
  | typeArguments => "GenericArgumentList"
  | returnType => "FunctionReturnType"
  | annotated => "AnnotatedDeclaration"
  | cast => "CastExpression"

/-- The construct with the given identifier. -/
def ofTag? (s : String) : Option Construct :=
  all.find? fun k => k.tag == s

end Construct

end TypeErasure
