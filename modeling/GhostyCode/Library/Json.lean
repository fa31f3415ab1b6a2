import GhostyCode.Library.Text

set_option autoImplicit false

open RustText

inductive JsonNumber where
  | posInt (n : Nat)
  | negInt (n : Nat)
  | float (digits : Text)
  deriving DecidableEq, Repr

/-- The keys of an object are distinct. -/
inductive Json where
  | null
  | bool (b : Bool)
  | num (n : JsonNumber)
  | str (s : Text)
  | arr (items : List Json)
  | obj (members : List (Text × Json))

namespace Json

def get (value : Json) (key : Text) : Option Json :=
  match value with
  | obj members => members.lookup key
  | _ => none

def asStr : Json → Option Text
  | str s => some s
  | _ => none

def asArray : Json → Option (List Json)
  | arr items => some items
  | _ => none

def asU64 : Json → Option Nat
  | num (.posInt n) => some n
  | _ => none

def getNonempty (value : Json) (key : Text) : Option Text :=
  ((value.get key).bind asStr).filter (!·.isEmpty)

end Json
