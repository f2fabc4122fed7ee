import Afx.Data.Association
import Afx.Decimal.Shortest
import Afx.Text.Quoted
import Afx.Text.Segments

/-!
# Settings Data

Settings come from a data file and are used without being checked: whatever
stands where a text is expected is written out by its text. So the library has
one type of plain data, with the text of each value, the rule by which a value
counts as true, and the addition by which levels of indentation are stacked.

A record keeps its fields in the order in which they were first given. A text
may be torn: it holds halves of surrogate pairs, which are no characters.

Settings are read from a record, one field after another. Most names are those
of single settings, or of nothing at all. Three names are reserved for what
settings as a whole are made of. Two of these can never be set; the third holds
the fields themselves, and a record given for it takes the place of all that
was set before.

## Main definitions

* `Datum`: Plain data.
* `Datum.kindName`: The name of a value's kind in messages.
* `Datum.literal`, `Datum.display`: How a value is written, inside and outside
  of other values.
* `Datum.isTrue`: Whether a value counts as true.
* `Datum.plus`: Texts and lists are appended, numbers are added.
* `Datum.isWritable`: Whether a value is written out at all.
* `Datum.mended`: A value with something in place of the halves of a torn text.
* `Reserved`: What the reserved names stand for.
* `RecordFault`: Why data gives no settings.
* `Reserved.set`: Settings after a reserved field was set.
-/

namespace Afx

/-- Plain data, as a settings file holds it. -/
inductive Datum where
  | null
  | bool (value : Bool)
  | integer (value : Int)
  | fraction (value : Float)
  | text (value : String)
  /-- A text with halves of surrogate pairs in it. -/
  | torn (points : List Text.Point)
  | list (items : List Datum)
  | record (fields : List (String × Datum))
  deriving Inhabited

namespace Datum

/-- The name of a value's kind in messages. -/
def kindName : Datum → String
  | null => "NoneType"
  | bool _ => "bool"
  | integer _ => "int"
  | fraction _ => "float"
  | text _ | torn _ => "str"
  | list _ => "list"
  | record _ => "dict"

mutual

/-- How a value is written inside another value: texts are quoted. -/
def literal : Datum → String
  | null => "None"
  | bool true => "True"
  | bool false => "False"
  | integer n => toString n
  | fraction x => Decimal.text x
  | text s => Text.quoted s
  | torn points => Text.quotedPoints points
  | list items => "[" ++ Text.joined ", " (literals items) ++ "]"
  | record fields => "\x7b" ++ Text.joined ", " (pairs fields) ++ "\x7d"

/-- The items of a list, each as it is written inside the list. -/
def literals : List Datum → List String
  | [] => []
  | item :: rest => literal item :: literals rest

/-- The fields of a record, each as it is written inside the record. -/
def pairs : List (String × Datum) → List String
  | [] => []
  | (key, value) :: rest => (Text.quoted key ++ ": " ++ literal value) :: pairs rest

end

/-- How a value is written on its own: a text stands for itself, and the
    replacement character for each half in it. -/
def display : Datum → String
  | text s => s
  | torn points => Text.spelled (fun _ => ['\ufffd']) points
  | value => literal value

/-- Null, false, zero and everything empty count as false. -/
def isTrue : Datum → Bool
  | null => false
  | bool b => b
  | integer n => n != 0
  | fraction x => x != 0
  | text s => s != ""
  | torn points => !points.isEmpty
  | list items => !items.isEmpty
  | record fields => !fields.isEmpty

/-- A whole number; truth values count as zero and one. -/
def integer? : Datum → Option Int
  | bool b => some (if b then 1 else 0)
  | integer n => some n
  | _ => none

/-- Why two values have no sum. -/
inductive SumFault where
  /-- Their kinds do not go together. -/
  | unsuited
  /-- One is a binary fraction, and the other a whole number beyond their range. -/
  | outOfRange
  deriving DecidableEq, Repr

/-- Any number as a binary fraction, unless it is beyond their range. -/
def toFraction : Datum → Except SumFault Float
  | fraction x => .ok x
  | value =>
    match value.integer? with
    | some n => if (Float.ofInt n).isInf then .error .outOfRange else .ok (Float.ofInt n)
    | none => .error .unsuited

/-- Whether a value is a number, whole or not. -/
def isNumber : Datum → Bool
  | fraction _ => true
  | value => value.integer?.isSome

/-- Texts and lists are appended and numbers are added; other values have no sum. -/
def plus : Datum → Datum → Except SumFault Datum
  | text s, text t => .ok (text (s ++ t))
  | text s, torn q => .ok (torn (Text.points s ++ q))
  | torn p, text t => .ok (torn (p ++ Text.points t))
  | torn p, torn q => .ok (torn (p ++ q))
  | list xs, list ys => .ok (list (xs ++ ys))
  | x, y =>
    match x.integer?, y.integer? with
    | some m, some n => .ok (integer (m + n))
    | _, _ =>
      if x.isNumber && y.isNumber then
        do return fraction ((← x.toFraction) + (← y.toFraction))
      else .error .unsuited

/-- How many digits a whole number may have to be read or written out. -/
def digitLimit : Nat := 4300

/-- Whether a whole number has at most so many digits. -/
def fitsDigits (limit : Nat) (n : Int) : Bool :=
  n.natAbs < Nat.pow 10 limit

/-- Whether a value is written out: a whole number must not have too many digits. -/
def isWritable : Datum → Bool
  | integer n => fitsDigits digitLimit n
  | _ => true

/-- A value that is no torn text: `write` stands for the halves of one. -/
def mended (write : Nat → List Char) : Datum → Datum
  | torn points => text (Text.spelled write points)
  | value => value

/-- The text of code points, torn if there is a half among them. -/
def ofPoints (points : List Text.Point) : Datum :=
  match points.mapM Text.Point.char? with
  | some characters => text (String.ofList characters)
  | none => torn points

/-- The value of a record's field; data of another kind has no fields. -/
def get? : Datum → String → Option Datum
  | record fields, key => fields.lookup key
  | _, _ => none

/-- The record of the given fields, in which the last value given for a key
    stands at the key's first place. -/
def recordOf (fields : List (String × Datum)) : Datum :=
  record (fields.foldl (fun kept (key, value) => assign key value kept) [])

end Datum

/-! ## Reserved fields -/

/-- What the reserved names stand for: the kind of the settings, all their
    fields, and the references to them. -/
inductive Reserved where
  | kind
  | fields
  | references
  deriving DecidableEq, Repr

/-- Why data gives no settings. -/
inductive RecordFault where
  /-- It is no record. -/
  | notARecord
  /-- It sets a field that cannot be set. -/
  | fixedField
  /-- It gives a field a value that the field cannot have. -/
  | unsuitedValue
  deriving DecidableEq, Repr

namespace Reserved

/-- What a name is reserved for, if it is. -/
def ofName? : String → Option Reserved
  | "__class__" => some kind
  | "__dict__" => some fields
  | "__weakref__" => some references
  | _ => none

/-- The settings after a reserved field was set; `ofFields` gives those that
    consist of given fields. -/
def set {σ : Type} (ofFields : List (String × Datum) → σ) : Reserved → Datum → Except RecordFault σ
  | fields, .record given => .ok (ofFields given)
  | fields, _ => .error .unsuitedValue
  | kind, _ => .error .unsuitedValue
  | references, _ => .error .fixedField

end Reserved

end Afx
