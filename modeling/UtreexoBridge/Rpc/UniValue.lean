import UtreexoBridge.Rpc.Http

/-!
# JSON values (`UniValue`)

A number keeps its text, an object its members in order. The typed getters throw
on a value of another type.
-/

namespace UtreexoBridge.Rpc

inductive UniValue
  | null
  | bool (value : Bool)
  | num (text : List UInt8)
  | str (text : List UInt8)
  | arr (values : List UniValue)
  | obj (members : List (List UInt8 × UniValue))

namespace UniValue

def typeName : UniValue → String
  | null => "null"
  | bool _ => "bool"
  | num _ => "number"
  | str _ => "string"
  | arr _ => "array"
  | obj _ => "object"

def isObject : UniValue → Bool
  | obj _ => true
  | _ => false

/-- The value of the first member with this key. Only objects have members. -/
def findValue (value : UniValue) (key : String) : UniValue :=
  match value with
  | obj members => ((members.find? fun entry => entry.1 = ascii key).map (·.2)).getD null
  | _ => null

def hasKey (value : UniValue) (key : String) : Bool :=
  match value with
  | obj members => members.any fun entry => entry.1 = ascii key
  | _ => false

def typeError (value : UniValue) (expected : String) : String :=
  "JSON value of type " ++ value.typeName ++ " is not of expected type " ++ expected

def getUint32 : UniValue → Except String Nat
  | num text =>
    match wholeNumber (fromChars 10 text) with
    | some value => if value < 2 ^ 32 then .ok value else .error "JSON integer out of range"
    | none => .error "JSON integer out of range"
  | value => .error (value.typeError "number")

def getBool : UniValue → Except String Bool
  | bool value => .ok value
  | value => .error (value.typeError "bool")

end UniValue

end UtreexoBridge.Rpc
