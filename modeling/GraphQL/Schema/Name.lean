import GraphQL.Error.Schema

/-!
# Names

A name is made of letters, digits and underscores and does not start with a digit. Names with two underscores in
front are kept for what is built in.
-/

namespace GraphQL

/-- What is wrong with a name, if anything. -/
def nameFault? (name : String) (builtin : Bool) : Option NameFault :=
  match name.toUTF8.toList with
  | [] => some .empty
  | b :: bytes =>
    if Byte.isDigit b || !(b :: bytes).all Byte.isName then some (.invalid name)
    else if !builtin && name.startsWith "__" then some (.reserved name)
    else none

end GraphQL
