import TensorNetwork.Binary64.Shortest
import TensorNetwork.Text.Listing
import TensorNetwork.Text.Quoted

/-! Plain data, as a document or a caller supplies it. Numbers of different
kinds are compared by value, truth values counting as zero and one, and
mappings without regard to the order of their entries. -/
namespace TensorNetwork

mutual
inductive Datum where
  | null
  | bool (value : Bool)
  | int (value : Int)
  | float (value : Binary64)
  | text (value : String)
  | list (items : List Datum)
  /-- A list that serves as a key. -/
  | tuple (items : List Datum)
  | mapping (entries : List Entry)

/-- An entry of a mapping. -/
structure Entry where
  key : Datum
  value : Datum
end

namespace Datum

/-- The name of the kind of a datum. -/
def kind : Datum → String
  | .null => "NoneType"
  | .bool _ => "bool"
  | .int _ => "int"
  | .float _ => "float"
  | .text _ => "str"
  | .list _ => "list"
  | .tuple _ => "tuple"
  | .mapping _ => "dict"

mutual
/-- The datum written as a literal. -/
def literal : Datum → String
  | .null => "None"
  | .bool value => if value then "True" else "False"
  | .int value => toString value
  | .float value => value.text
  | .text value => Text.quoted value
  | .list items => Text.bracketed (literals items)
  | .tuple items => Text.tuple (literals items)
  | .mapping entries => "\x7b" ++ Text.commaSeparated (entryLiterals entries) ++ "\x7d"

def literals : List Datum → List String
  | [] => []
  | item :: rest => item.literal :: literals rest

def entryLiterals : List Entry → List String
  | [] => []
  | ⟨key, value⟩ :: rest => (key.literal ++ ": " ++ value.literal) :: entryLiterals rest
end

/-- The datum as it is shown to a reader: a text stands for itself. -/
def shown : Datum → String
  | .text value => value
  | datum => datum.literal

def ofBool (value : Bool) : Int := if value then 1 else 0

mutual
/-- Equality by value. -/
def equal : Datum → Datum → Bool
  | .null, .null => true
  | .bool a, .bool b => a = b
  | .bool a, .int b => ofBool a = b
  | .bool a, .float b => b.isInteger (ofBool a)
  | .int a, .bool b => a = ofBool b
  | .int a, .int b => a = b
  | .int a, .float b => b.isInteger a
  | .float a, .bool b => a.isInteger (ofBool b)
  | .float a, .int b => a.isInteger b
  | .float a, .float b => a.equal b
  | .text a, .text b => a = b
  | .list as, .list bs => equalAll as bs
  | .tuple as, .tuple bs => equalAll as bs
  | .mapping as, .mapping bs => as.length = bs.length && includedIn as bs
  | _, _ => false

def equalAll : List Datum → List Datum → Bool
  | [], [] => true
  | a :: as, b :: bs => equal a b && equalAll as bs
  | _, _ => false

/-- Whether every entry has an equal one among the others. -/
def includedIn : List Entry → List Entry → Bool
  | [], _ => true
  | ⟨key, value⟩ :: rest, others =>
      others.any (fun other => equal key other.key && equal value other.value) && includedIn rest others
end

/-- The value that a mapping associates with a text. -/
def field? (name : String) (entries : List Entry) : Option Datum :=
  (entries.find? fun entry => entry.key.equal (.text name)).map Entry.value

/-- The items of a datum that can be gone through: those of a list, the
characters of a text, or the keys of a mapping. -/
def items? : Datum → Option (List Datum)
  | .list items => some items
  | .text value => some (value.toList.map fun c => .text (String.singleton c))
  | .mapping entries => some (entries.map Entry.key)
  | _ => none

end Datum
end TensorNetwork
