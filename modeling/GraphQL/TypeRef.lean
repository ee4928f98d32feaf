/-!
Type references: a named type under list and non-null wrappers.
-/
namespace GraphQL

inductive TypeRef where
  | named (name : String)
  | list (item : TypeRef)
  | nonNull (inner : TypeRef)
deriving DecidableEq

namespace TypeRef

/-- The name under all wrappers. -/
def coreName : TypeRef → String
  | named name => name
  | list item => item.coreName
  | nonNull inner => inner.coreName

def isNonNull : TypeRef → Bool
  | nonNull _ => true
  | _ => false

def isList : TypeRef → Bool
  | list _ => true
  | _ => false

def isNamed : TypeRef → Bool
  | named _ => true
  | _ => false

/-- Without one outer wrapper; a named type is left as it is. -/
def ofType : TypeRef → TypeRef
  | named name => named name
  | list item => item
  | nonNull inner => inner

/-- Without one outer non-null wrapper. -/
def nullable : TypeRef → TypeRef
  | nonNull inner => inner
  | t => t

/-- The reference as written: brackets around list items, `!` after non-null types. -/
def text : TypeRef → String
  | named name => name
  | list item => "[" ++ item.text ++ "]"
  | nonNull inner => inner.text ++ "!"

end TypeRef

end GraphQL
