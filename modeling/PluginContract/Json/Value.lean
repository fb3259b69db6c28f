import PluginContract.Decimal.Binary64
import PluginContract.Entries

/-! # JSON values

Objects keep their keys in order. A number written without fraction and exponent is an integer;
every other number is a binary floating-point number. Strings hold whole characters: half of one, a
surrogate without its partner, is no value here. -/

namespace PluginContract

/-- A JSON value. -/
inductive Json
  | null
  | bool (value : Bool)
  | int (value : Int)
  | float (value : Decimal.Binary64)
  | str (value : String)
  | arr (items : List Json)
  | obj (fields : List (String × Json))

namespace Json

instance : Inhabited Json := ⟨null⟩

/-- The fields of an object. -/
def fields? : Json → Option (Entries Json)
  | obj fields => some fields
  | _ => none

/-- The items of an array. -/
def items? : Json → Option (List Json)
  | arr items => some items
  | _ => none

/-- A string value. -/
def str? : Json → Option String
  | str value => some value
  | _ => none

/-- Whether a value is an array or an object. -/
def hasParts : Json → Bool
  | .arr _ => true
  | .obj _ => true
  | _ => false

/-- The value under a key; `null` where there is none. -/
def field (fields : Entries Json) (key : String) : Json := (fields.get? key).getD null

/-- Whether a value counts as given: null, false, zeros and empty texts, arrays and objects do
not. -/
def isGiven : Json → Bool
  | null => false
  | bool value => value
  | int value => value != 0
  | float value => !value.isZero
  | str value => value != ""
  | arr items => !items.isEmpty
  | obj fields => !fields.isEmpty

/-- The name of a value's type in messages. -/
def typeName : Json → String
  | null => "NoneType"
  | bool _ => "bool"
  | int _ => "int"
  | float _ => "float"
  | str _ => "str"
  | arr _ => "list"
  | obj _ => "dict"

/-- A non-empty string. -/
def text? : Json → Option String
  | str value => if value = "" then none else some value
  | _ => none

theorem text?_eq_some_iff {v : Json} {s : String} : v.text? = some s ↔ v = str s ∧ s ≠ "" := by
  cases v with
  | str value =>
      by_cases h : value = ""
      · subst h
        simp [text?, eq_comm]
      · simp only [text?, if_neg h, Option.some.injEq, str.injEq]
        exact ⟨fun e => ⟨e, e ▸ h⟩, fun e => e.1⟩
  | _ => simp [text?]

theorem fields?_eq_some_iff {v : Json} {fields : Entries Json} :
    v.fields? = some fields ↔ v = obj fields := by
  cases v with
  | obj given => simp [fields?]
  | _ => simp [fields?]

end Json

end PluginContract
