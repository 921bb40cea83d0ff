import Icq.Lib.Parser

/-! JSON values, as far as the readers look at them. -/

namespace Icq.Tools
open Icq.Lib

/-- A number that is no integer is only told apart from the others. -/
inductive JsonValue where
  | null
  | bool (b : Bool)
  | int (n : Int)
  | number
  | string (text : Bytes)
  | array (items : List JsonValue)
  | object (members : List (String × JsonValue))

namespace JsonValue

/-- The first member of the name; a value that is no object has none. -/
def findMember (v : JsonValue) (name : String) : Option JsonValue :=
  match v with
  | .object members => (members.find? fun m => m.1 = name).map (·.2)
  | _ => none

def getInt (v : JsonValue) : Option Int32 :=
  match v with
  | .int n => if -2 ^ 31 ≤ n ∧ n < 2 ^ 31 then some (Int32.ofInt n) else none
  | _ => none

def getText (v : JsonValue) : Option Bytes :=
  match v with
  | .string text => some text
  | _ => none

/-- Only an array has items; nobody looks whether it is one. -/
def getArray (v : JsonValue) : Outcome (List JsonValue) :=
  match v with
  | .array items => .ok items
  | _ => .crashed

def ofInt32 (n : Int32) : JsonValue := .int n.toInt

@[simp] theorem getInt_ofInt32 (n : Int32) : (ofInt32 n).getInt = some n := by
  have hlow := n.le_toInt
  have hhigh := n.toInt_lt
  rw [ofInt32, getInt, if_pos ⟨hlow, hhigh⟩, Int32.ofInt_toInt]

@[simp] theorem getText_string (text : Bytes) : (string text).getText = some text := rfl

theorem findMember_cons (name member : String) (v : JsonValue)
    (members : List (String × JsonValue)) :
    (object ((member, v) :: members)).findMember name =
      if member = name then some v else (object members).findMember name := by
  rw [findMember, List.find?_cons]
  by_cases h : member = name
  · rw [if_pos h, decide_eq_true h, Option.map_some]
  · rw [if_neg h, decide_eq_false h]
    rfl

theorem findMember_append (name : String) (members more : List (String × JsonValue)) :
    (object (members ++ more)).findMember name =
      ((object members).findMember name).or ((object more).findMember name) := by
  rw [findMember, List.find?_append, findMember, findMember]
  cases members.find? fun m => m.1 = name <;> rfl

@[simp] theorem findMember_nil (name : String) : (object []).findMember name = none := rfl

end JsonValue

end Icq.Tools
