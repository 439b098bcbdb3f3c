import Mathlib.Algebra.Order.Field.Rat

/-!
# V2I.Utils.Json

A parsed JSON value and what the accessors of `jsonobject` in `utils/json.cpp` read from
it. An accessor never fails: what is not there reads as the null object.
-/

namespace V2I

/-- A `jsonobject`. `constNullObject` is the object that stands for a missing value, not
the JSON value `null`. A number is kept as an integer and as a double. -/
inductive Jsonobject where
  | constNullObject
  | null
  | bool (value : Bool)
  | number (valueint : ℤ) (valuedouble : ℚ)
  | string (value : String)
  | array (items : List Jsonobject)
  | object (members : List (String × Jsonobject))

namespace Jsonobject

/-- `is_null()` -/
def isNull : Jsonobject → Bool
  | constNullObject => true
  | _ => false

/-- `is_array()` -/
def isArray : Jsonobject → Bool
  | array _ => true
  | _ => false

/-- `to_number()` -/
def toNumber : Jsonobject → ℤ
  | number valueint _ => valueint
  | _ => 0

/-- `to_double()` -/
def toDouble : Jsonobject → ℚ
  | number _ valuedouble => valuedouble
  | _ => 0

/-- `count()` -/
def count : Jsonobject → ℤ
  | array items => items.length
  | _ => -1

/-- `get(index)` -/
def get (j : Jsonobject) (index : ℕ) : Jsonobject :=
  match j with
  | array items => items.getD index constNullObject
  | _ => constNullObject

/-- `get(name)`: the first member of that name, upper and lower case alike. -/
def getMember (j : Jsonobject) (name : String) : Jsonobject :=
  match j with
  | object members =>
      ((members.find? fun e => e.1.map Char.toLower == name.map Char.toLower).map
        Prod.snd).getD constNullObject
  | _ => constNullObject

end Jsonobject

end V2I
