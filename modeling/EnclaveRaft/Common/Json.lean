import EnclaveRaft.Types
import Mathlib.Algebra.Order.Floor.Defs
import Mathlib.Data.Rat.Floor

/-!
# JSON values

The values of `json11` and the accessors that the ports and the key store read them with. An accessor
never fails: on a value of another type it returns a default.

Parsing is not modelled: a parser is a function from text to a value, `none` for an error, in which
case `Json::parse` returns the null value.
-/

namespace EnclaveRaft

/-- A value. A number is kept as an `int` or as a `double`, which is a rational number or infinite. -/
inductive Json
  | null
  | int (value : Int32)
  | double (value : Option Rat)
  | bool (value : Bool)
  | string (value : Bytes)
  | array (items : List Json)
  | object (fields : List (String × Json))

namespace Json

/-- `static_cast<int>` of a `double`: towards zero; out of range the processor gives the least
`int`. -/
def intOfDouble : Option Rat → Int32
  | some q =>
    let z := if 0 ≤ q then ⌊q⌋ else ⌈q⌉
    if -2 ^ 31 ≤ z ∧ z < 2 ^ 31 then Int32.ofInt z else Int32.minValue
  | none => Int32.minValue

def intValue : Json → Int32
  | int value => value
  | double value => intOfDouble value
  | _ => 0

def stringValue : Json → Bytes
  | string value => value
  | _ => []

def arrayItems : Json → List Json
  | array items => items
  | _ => []

/-- `operator[]` with a key. -/
def field : Json → String → Json
  | object fields, key => ((fields.find? fun f => f.1 = key).map Prod.snd).getD null
  | _, _ => null

/-- The value `Json::parse` returns. -/
def ofParse : Option Json → Json
  | some body => body
  | none => null

/-! ## Shapes -/

/-- The value is the number `z`. -/
def IsNumber (z : Int) : Json → Prop
  | int value => value.toInt = z
  | double value => value = some (z : Rat)
  | _ => False

def IsArray : Json → Prop
  | array _ => True
  | _ => False

def IsString : Json → Prop
  | string _ => True
  | _ => False

theorem intValue_of_isNumber {z : Int} {j : Json} (hmin : -2 ^ 31 ≤ z) (hmax : z < 2 ^ 31)
    (h : j.IsNumber z) : j.intValue.toInt = z := by
  cases j with
  | int value => exact h
  | double value =>
    rw [show value = some (z : Rat) from h, intValue, intOfDouble]
    simp only [Int.floor_intCast, Int.ceil_intCast, ite_self]
    rw [if_pos ⟨hmin, hmax⟩]
    exact Int32.toInt_ofInt_of_le hmin hmax
  | _ => exact h.elim

end Json

end EnclaveRaft
