import Mathlib.Data.Int.Notation

/-! # Values of a JSON text

The values that a JSON text stands for, their serialisation, and the decoding of one text
field. A call that raises has no value; a call that throws has an error.
-/

namespace Treena.Swift

inductive JSON
  | null
  | bool (value : Bool)
  | number (mantissa exponent : ℤ)
  | string (value : String)
  | array (elements : List JSON)
  | object (fields : List (String × JSON))

namespace JSON

/-- The values that may stand alone in a text that is written. -/
def IsTopLevel : JSON → Prop
  | array _ => True
  | object _ => True
  | _ => False

instance : ∀ json : JSON, Decidable json.IsTopLevel
  | null => isFalse id
  | bool _ => isFalse id
  | number _ _ => isFalse id
  | string _ => isFalse id
  | array _ => isTrue trivial
  | object _ => isTrue trivial

def asString : JSON → Option String
  | string value => some value
  | _ => none

def stringField (key : String) : JSON → Option String
  | object fields => (fields.lookup key).bind asString
  | _ => none

end JSON

/-- A text, as the value it stands for. -/
structure Data where
  json : JSON
  isTopLevel : json.IsTopLevel

inductive DecodingError
  | typeMismatch
  | keyNotFound (key : String)
  | valueNotFound (key : String)
  deriving DecidableEq

/-- The description of an error that the system throws. -/
abbrev NSError := String

/-- `JSONSerialization.data(withJSONObject:)` raises on a value that may not stand alone. It
throws on no value that a parser has delivered. -/
def dataWithJSONObject (json : JSON) : Option (Except NSError Data) :=
  if h : json.IsTopLevel then some (.ok ⟨json, h⟩) else none

/-- `decode(String.self, forKey: key)` on the container of the top level. -/
def decodeString (key : String) (data : Data) : Except DecodingError String :=
  match data.json with
  | .object fields =>
    match fields.lookup key with
    | none => .error (.keyNotFound key)
    | some .null => .error (.valueNotFound key)
    | some (.string value) => .ok value
    | some _ => .error .typeMismatch
  | _ => .error .typeMismatch

variable {json : JSON} {data : Data} {key value : String}

theorem isTopLevel_of_stringField (h : json.stringField key = some value) : json.IsTopLevel := by
  cases json with
  | object fields => trivial
  | null => cases h
  | bool b => cases h
  | number m e => cases h
  | string s => cases h
  | array elements => cases h

/-- A decoder finds exactly the text fields. -/
theorem toOption_decodeString : (decodeString key data).toOption = data.json.stringField key := by
  obtain ⟨json, h⟩ := data
  cases json with
  | object fields =>
    simp only [decodeString, JSON.stringField]
    rcases fields.lookup key with _ | value
    · rfl
    · cases value <;> rfl
  | array elements => rfl
  | null => cases h
  | bool b => cases h
  | number m e => cases h
  | string s => cases h

end Treena.Swift
