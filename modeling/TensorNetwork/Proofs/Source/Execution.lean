import TensorNetwork.Proofs.Arrays.Library
import TensorNetwork.Source.Basic

/-! What source code does when it is executed. Execution is stuck at a variable
that is not bound, at an operation that is not defined, and at whatever the code
that is generated has no use for. -/
namespace TensorNetwork.Execution
open Source

inductive Value (A : Type) where
  | array (value : A)
  | int (value : Int)
  | text (value : String)
  | tuple (items : List (Value A))
  | slice (start stop : Option Int)

abbrev Env (A : Type) := String → Option (Value A)

variable {A : Type}

def Env.set (env : Env A) (name : String) (value : Value A) : Env A :=
  fun other => if name = other then some value else env other

mutual
/-- The environment after an assignment. -/
def Env.assign (env : Env A) : Target → Value A → Option (Env A)
  | .var name, value => some (env.set name value)
  | .tuple targets, .tuple items => Env.assignAll env targets items
  | .tuple _, _ => none

def Env.assignAll (env : Env A) : List Target → List (Value A) → Option (Env A)
  | [], [] => some env
  | target :: targets, item :: items => do Env.assignAll (← Env.assign env target item) targets items
  | _, _ => none
end

namespace Value

def int? : Value A → Option Int
  | .int value => some value
  | _ => none

def extent? : Value A → Option Nat
  | .int (.ofNat value) => some value
  | _ => none

/-- A shape as it is read from an array. -/
def ofShape (shape : List Nat) : Value A := .tuple (shape.map fun extent : Nat => .int extent)

def add : Value A → Value A → Option (Value A)
  | .int a, .int b => some (.int (a + b))
  | .text a, .text b => some (.text (a ++ b))
  | .tuple a, .tuple b => some (.tuple (a ++ b))
  | _, _ => none

/-- Positions below zero are counted from the end. -/
def position (length : Nat) (index : Int) : Int := if index < 0 then index + length else index

/-- The items from one position up to another, as far as they exist. -/
def between (items : List (Value A)) (start stop : Option Int) : List (Value A) :=
  let upTo := (stop.map fun i => items.take (position items.length i).toNat).getD items
  (start.map fun i => upTo.drop (position items.length i).toNat).getD upTo

def access : Value A → Value A → Option (Value A)
  | .tuple items, .int index =>
      if 0 ≤ position items.length index then items[(position items.length index).toNat]? else none
  | .tuple items, .slice start stop => some (.tuple (between items start stop))
  | _, _ => none

end Value

/-- An argument is passed by position or by name. -/
abbrev Passed (A : Type) := Option String × Value A

/-- Arrays alternate with their labels, and the kept labels come last. -/
def operands? : List (Passed A) → Option (List (A × List Label) × List Label)
  | [(none, .tuple kept)] => do some ([], ← kept.mapM Value.int?)
  | (none, .array a) :: (none, .tuple labels) :: rest => do
      let labels ← labels.mapM Value.int?
      let (operands, kept) ← operands? rest
      some ((a, labels) :: operands, kept)
  | _ => none

section
variable (arrays : ArrayLibrary A)

def einsum (passed : List (Passed A)) : Option (Value A) := do
  let (operands, kept) ← operands? passed
  (arrays.einsum operands kept).map .array

def transpose : List (Passed A) → Option (Value A)
  | [(none, .array a), (none, .tuple axes)] => do
      (arrays.transpose a (← axes.mapM Value.int?)).map .array
  | _ => none

/-- The product of no integers is not an integer. -/
def prod : List (Passed A) → Option (Value A)
  | [(none, .tuple (item :: items))] => do some (.int (← (item :: items).mapM Value.int?).prod)
  | _ => none

def qr : List (Passed A) → Option (Value A)
  | [(none, .array a), (some "mode", .text "reduced")] => do
      let factors ← arrays.qr a
      some (.tuple [.array factors.1, .array factors.2])
  | _ => none

/-- The functions of the array library, which is loaded as `np`. -/
def function (name : String) (passed : List (Passed A)) : Option (Value A) :=
  if name = "np.einsum" then einsum arrays passed
  else if name = "np.transpose" then transpose arrays passed
  else if name = "np.prod" then prod passed
  else if name = "np.linalg.qr" then qr arrays passed
  else none

def method (object : Value A) (name : String) (passed : List (Passed A)) : Option (Value A) :=
  match object, passed with
  | .array a, [(none, .tuple items)] =>
      if name = "reshape" then do (arrays.reshape a (← items.mapM Value.extent?)).map .array else none
  | _, _ => none

def field (object : Value A) (name : String) : Option (Value A) :=
  match object with
  | .array a => if name = "shape" then some (.ofShape (arrays.shape a)) else none
  | _ => none

mutual
def eval (env : Env A) : Expr → Option (Value A)
  | .var name => env name
  | .int value => some (.int value)
  | .string text => some (.text text)
  | .tuple items => do some (.tuple (← evalAll env items))
  | .field object name => do field arrays (← env object) name
  | .access object index => do (← eval env object).access (← eval env index)
  | .slice start stop => do some (.slice (← evalBound env start) (← evalBound env stop))
  | .binary left .add right => do (← eval env left).add (← eval env right)
  | .call name arguments => do function arrays name (← evalArguments env arguments)
  | .method object name arguments => do
      method arrays (← eval env object) name (← evalArguments env arguments)

def evalAll (env : Env A) : List Expr → Option (List (Value A))
  | [] => some []
  | e :: rest => do some ((← eval env e) :: (← evalAll env rest))

def evalBound (env : Env A) : Option Expr → Option (Option Int)
  | none => some none
  | some e => do some (← (← eval env e).int?)

def evalArguments (env : Env A) : List Argument → Option (List (Passed A))
  | [] => some []
  | argument :: rest => do some ((← evalArgument env argument) :: (← evalArguments env rest))

def evalArgument (env : Env A) : Argument → Option (Passed A)
  | .positional e => do some (none, ← eval env e)
  | .keyword name e => do some (some name, ← eval env e)
end

inductive Flow (A : Type) where
  | next (env : Env A)
  | returned (value : Value A)

mutual
def exec (env : Env A) : Statement → Option (Flow A)
  | .assign target value _ => do some (.next (← env.assign target (← eval arrays env value)))
  | .blank => some (.next env)
  | .block statements => execAll env statements
  | .result value => do some (.returned (← eval arrays env value))
  | .function .. => none
  | .load .. => none

def execAll (env : Env A) : List Statement → Option (Flow A)
  | [] => some (.next env)
  | statement :: rest => do
      match ← exec env statement with
      | .next env => execAll env rest
      | .returned value => some (.returned value)
end

/-- The value that a function returns when it is called. -/
def call (parameters : List String) (body : Statement) (arguments : List (Value A)) : Option (Value A) :=
  if parameters.length = arguments.length then do
    match ← exec arrays (fun name => (parameters.zip arguments).lookup name) body with
    | .next _ => none
    | .returned value => some value
  else none

end
end TensorNetwork.Execution
