import TensorNetwork.Codegen.Module
import TensorNetwork.Operation.Canonical
import TensorNetwork.Operation.Reader
import TensorNetwork.Yaml.Load

/-! Documents that describe a program and the function to generate from it:

    program:
        operations:
            - T2 = einsum(T0[7, 8], T1[8, 9] -> [7, 9])
    codegen:
        name: f
        shapes:
            0: [2, 3]

Contractions get canonical labels. The name and the extents are kept as they
are given and checked when they are used. -/
namespace TensorNetwork

structure Document where
  name : Datum
  program : Program
  /-- Shapes by tensor, each tensor once. -/
  shapes : Option (List (TensorId × List Datum))

namespace Document

/-- The operations that a datum lists: the items of a list, the characters of a
text or the keys of a mapping. -/
def operations (datum : Datum) : Except Error (List Datum) :=
  match datum.items? with
  | some items => .ok items
  | none => .error .operationsNotListed

def readOperation : Datum → Except Error Operation
  | .text text => do (← Operation.ofText text).normalized
  | _ => .error .operationNotText

def readProgram : Datum → Except Error Program
  | .mapping entries =>
      match Datum.field? "operations" entries with
      | none => .error .noOperations
      | some listed => do .ok ⟨← (← operations listed).mapM readOperation⟩
  | _ => .error .programNotMapping

/-- The tensor that a key of the shapes denotes. -/
def readTensor : Datum → Except Error TensorId
  | .int n => .ok n
  | .bool value => .ok (Datum.ofBool value)
  | .float (.infinite _) => .error .shapeKeyInfinite
  | .float x =>
      match x.integerPart? with
      | some n => .ok n
      | none => .error .shapeKeyNotANumber
  | .text text =>
      match Text.integer? text.toList with
      | some n => .ok n
      | none => .error (.notAnInteger 10 (Text.quoted text))
  | _ => .error .shapeKeyNotNumber

def readShape (entry : Entry) : Except Error (TensorId × List Datum) := do
  let tensor ← readTensor entry.key
  match entry.value.items? with
  | some extents => .ok (tensor, extents)
  | none => .error .shapeNotListed

/-- A tensor given again takes the later shape and keeps its place. -/
def setShape (shapes : List (TensorId × List Datum)) (shape : TensorId × List Datum) :
    List (TensorId × List Datum) :=
  if shapes.any fun known => known.1 = shape.1 then
    shapes.map fun known => if known.1 = shape.1 then shape else known
  else shapes ++ [shape]

def readShapes : Datum → Except Error (List (TensorId × List Datum))
  | .mapping entries => do .ok ((← entries.mapM readShape).foldl setShape [])
  | _ => .error .shapesNotMapping

/-- The settings of the generated function; null counts as none. -/
def readSettings : Option Datum → Except Error (List Entry)
  | none => .ok []
  | some .null => .ok []
  | some (.mapping entries) => .ok entries
  | some _ => .error .settingsNotMapping

def ofDatum : Datum → Except Error Document
  | .null => .error .noProgram
  | .mapping entries =>
      match Datum.field? "program" entries with
      | none => .error .noProgram
      | some listed => do
          let program ← readProgram listed
          let settings ← readSettings (Datum.field? "codegen" entries)
          let name := (Datum.field? "name" settings).getD (.text Codegen.defaultName)
          match Datum.field? "shapes" settings with
          | none => .ok ⟨name, program, none⟩
          | some shapes => do .ok ⟨name, program, some (← readShapes shapes)⟩
  | _ => .error .documentNotMapping

def ofText (text : String) : Except Error Document := do
  ofDatum (← Yaml.load text)

def givenShapes (d : Document) : Option (GivenShapes Extent) :=
  d.shapes.map fun shapes => shapes.map fun (tensor, extents) => (tensor, extents.map .datum)

/-- The source text of the document's program. A name that is no text is found
out last. -/
def compile (d : Document) : Except Error String :=
  match d.name with
  | .text name => (Codegen.compile name d.program d.givenShapes).map Codegen.fileText
  | _ => do
      let _ ← Codegen.compile "" d.program d.givenShapes
      .error .nameNotText

/-- Shapes are compared tensor by tensor. -/
def equalShapes : Option (List (TensorId × List Datum)) → Option (List (TensorId × List Datum)) → Bool
  | none, none => true
  | some as, some bs =>
      as.length = bs.length &&
        as.all fun a => bs.any fun b => a.1 = b.1 && Datum.equalAll a.2 b.2
  | _, _ => false

def equal (a b : Document) : Bool :=
  a.program = b.program && a.name.equal b.name && equalShapes a.shapes b.shapes

end Document
end TensorNetwork
