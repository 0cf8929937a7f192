/-!
# JSON values
-/
namespace PipelineScripts

/-- A JSON value. Members keep their order, and a key may occur twice. -/
inductive Json
  | null
  | bool (value : Bool)
  | integer (value : Int)
  /-- A number with a fraction or an exponent, or `-0`, as written. -/
  | decimal (text : String)
  | string (text : String)
  | array (items : List Json)
  | object (members : List (String × Json))
  /-- A string with half a surrogate pair, or an object with such a key: valid text that stands
  for no value. -/
  | illFormed
deriving Repr

namespace Json

/-- A number as a value. -/
def nat (n : Nat) : Json := .integer n

end Json

end PipelineScripts
