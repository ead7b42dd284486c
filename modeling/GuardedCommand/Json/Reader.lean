import GuardedCommand.Json.Token

/-! # Reading JSON

A sequence of tokens is read by a machine with a stack of unfinished arrays and objects.

* `Json.parse?`: the value of a text, which may have unreadable parts.
* `Json.read?`: the value of a text that can be read completely.
-/

namespace GuardedCommand.Json

/-- An array or an object that is not finished. What it holds so far is in reverse order. -/
inductive Unfinished where
  | array (items : List Json)
  | object (fields : List (String × Json))
  /-- An object in which the value of a field is to come. -/
  | member (fields : List (String × Json)) (name : String)
  /-- An object in which the name of a field cannot be read, and which therefore cannot either. -/
  | broken

/-- What has to come next. -/
inductive Expected where
  /-- A value. -/
  | value
  /-- The first item of an array, or its end. -/
  | firstItem
  /-- The first field of an object, or its end. -/
  | firstField
  /-- A further field of an object. -/
  | field
  /-- The colon between the name and the value of a field. -/
  | colon
  /-- What follows a finished value. -/
  | after (j : Json)

/-- What a token that starts a value does. -/
def startValue (stack : List Unfinished) : Token → Option (List Unfinished × Expected)
  | .beginArray => some (.array [] :: stack, .firstItem)
  | .beginObject => some (.object [] :: stack, .firstField)
  | .text s => some (stack, .after (.str s))
  | .brokenText => some (stack, .after .unreadable)
  | .atom j => some (stack, .after j)
  | _ => none

/-- What the name of a field does. -/
def startField : List Unfinished → Token → Option (List Unfinished × Expected)
  | .object fields :: stack, .text name => some (.member fields name :: stack, .colon)
  | .object _ :: stack, .brokenText => some (.broken :: stack, .colon)
  | .broken :: stack, .text _ => some (.broken :: stack, .colon)
  | .broken :: stack, .brokenText => some (.broken :: stack, .colon)
  | _, _ => none

/-- What a token does. -/
def advance (stack : List Unfinished) : Expected → Token → Option (List Unfinished × Expected)
  | .value, token => startValue stack token
  | .firstItem, .endArray =>
    match stack with
    | .array items :: stack => some (stack, .after (.arr items.reverse))
    | _ => none
  | .firstItem, token => startValue stack token
  | .firstField, .endObject =>
    match stack with
    | .object fields :: stack => some (stack, .after (.obj fields.reverse))
    | _ => none
  | .firstField, token => startField stack token
  | .field, token => startField stack token
  | .colon, .colon => some (stack, .value)
  | .colon, _ => none
  | .after j, token =>
    match stack, token with
    | .array items :: stack, .comma => some (.array (j :: items) :: stack, .value)
    | .array items :: stack, .endArray => some (stack, .after (.arr (j :: items).reverse))
    | .member fields name :: stack, .comma => some (.object ((name, j) :: fields) :: stack, .field)
    | .member fields name :: stack, .endObject =>
      some (stack, .after (.obj ((name, j) :: fields).reverse))
    | .broken :: stack, .comma => some (.broken :: stack, .field)
    | .broken :: stack, .endObject => some (stack, .after .unreadable)
    | _, _ => none

/-- Runs the machine to the end of a sequence of tokens. -/
def run : List Token → List Unfinished → Expected → Option Json
  | [], [], .after j => some j
  | [], _, _ => none
  | token :: rest, stack, expected =>
    match advance stack expected token with
    | some (stack, expected) => run rest stack expected
    | none => none

/-- The value of a text; parts of the right form that stand for no value are kept as such. -/
def parse? (text : String) : Option Json := do
  let ts ← tokens text.toList
  run ts [] .value

/-- The value of a text, if all of it can be read. -/
def read? (text : String) : Option Json := do
  let j ← parse? text
  if j.isReadable then some j else none

end GuardedCommand.Json
