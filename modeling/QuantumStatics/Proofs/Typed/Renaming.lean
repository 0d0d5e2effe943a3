/-
  Renaming a local binding.

  A local binding is named where it is bound, where it is used and where a function that it holds is
  called.  Calls of anything else, and functions used as values, name what is registered.
-/
import QuantumStatics.Proofs.Typed.Parts

namespace QuantumStatics.Typed

/-- The name `y` for `x`; others stay. -/
def renamed (x y n : String) : String := if n = x then y else n

/-- Renames the callee if it is a local value. -/
def CallTarget.rename (x y : String) (c : CallTarget) : CallTarget :=
  if c.kind = .localValue then { c with callee := renamed x y c.callee } else c

@[simp] theorem CallTarget.typeArgs_rename (x y : String) (c : CallTarget) :
    (c.rename x y).typeArgs = c.typeArgs := by
  unfold rename
  split <;> rfl

@[simp] theorem CallTarget.natArgs_rename (x y : String) (c : CallTarget) :
    (c.rename x y).natArgs = c.natArgs := by
  unfold rename
  split <;> rfl

mutual

/-- An expression in which the local binding `x` is called `y`. -/
def Expr.rename (x y : String) : Expr → Expr
  | .int location t value => .int location t value
  | .float location value => .float location value
  | .bool location value => .bool location value
  | .name location t n use => .name location t (renamed x y n) use
  | .natParam location n => .natParam location n
  | .fnRef location t n => .fnRef location t n
  | .tuple location t elems => .tuple location t (Expr.renameAll x y elems)
  | .array location t elems => .array location t (Expr.renameAll x y elems)
  | .call location t target args =>
    .call location t (target.rename x y) (Expr.renameAll x y args)
  | .field location t object label index use =>
    .field location t (object.rename x y) label index use
  | .subscript location t indexed index use =>
    .subscript location t (indexed.rename x y) (index.rename x y) use

/-- The same for some expressions. -/
def Expr.renameAll (x y : String) : List Expr → List Expr
  | [] => []
  | e :: es => e.rename x y :: Expr.renameAll x y es

end

mutual

/-- A statement in which the local binding `x` is called `y`. -/
def Stmt.rename (x y : String) : Stmt → Stmt
  | .assign location target value => .assign location (renamed x y target) (value.rename x y)
  | .tupleAssign location targets value =>
    .tupleAssign location (targets.map (renamed x y)) (value.rename x y)
  | .expr location value => .expr location (value.rename x y)
  | .ret location value => .ret location (value.map (Expr.rename x y))
  | .branch location condition thenBody elseBody =>
    .branch location (condition.rename x y) (Stmt.renameAll x y thenBody)
      (Stmt.renameAll x y elseBody)
  | .whileLoop location condition body =>
    .whileLoop location (condition.rename x y) (Stmt.renameAll x y body)
  | .forLoop location loopVar varType iterable body =>
    .forLoop location (renamed x y loopVar) varType (iterable.rename x y) (Stmt.renameAll x y body)
  | .breakLoop location => .breakLoop location
  | .continueLoop location => .continueLoop location

/-- The same for some statements. -/
def Stmt.renameAll (x y : String) : List Stmt → List Stmt
  | [] => []
  | s :: ss => s.rename x y :: Stmt.renameAll x y ss

end

/-- Renames a local name everywhere in a function. -/
def Function.rename (x y : String) (f : Function) : Function :=
  { f with
    params := f.params.map fun p => { p with name := renamed x y p.name }
    body := Stmt.renameAll x y f.body }

/-- Renames the callee of a call. -/
def Part.rename (x y : String) : Part → Part
  | .call location c => .call location (c.rename x y)
  | part => part

mutual

theorem Expr.parts_rename (x y : String) : ∀ e : Expr,
    (e.rename x y).parts = e.parts.map (Part.rename x y)
  | .int _ _ _ | .float _ _ | .bool _ _ | .name _ _ _ _ | .natParam _ _ | .fnRef _ _ _ => rfl
  | .tuple _ _ elems | .array _ _ elems => by
    simp only [rename, parts, List.map_cons, Expr.partsAll_renameAll x y elems, Part.rename]
  | .call _ _ target args => by
    simp [rename, parts, Expr.partsAll_renameAll x y args, Part.rename, Function.comp_def]
  | .field _ _ object _ _ _ => by
    simp only [rename, parts, List.map_cons, Expr.parts_rename x y object, Part.rename]
  | .subscript _ _ indexed index _ => by
    simp only [rename, parts, List.map_cons, List.map_append, Expr.parts_rename x y indexed,
      Expr.parts_rename x y index, Part.rename]

theorem Expr.partsAll_renameAll (x y : String) : ∀ es : List Expr,
    Expr.partsAll (Expr.renameAll x y es) = (Expr.partsAll es).map (Part.rename x y)
  | [] => rfl
  | e :: es => by
    simp only [renameAll, partsAll, List.map_append, Expr.parts_rename x y e,
      Expr.partsAll_renameAll x y es]

end

mutual

theorem Stmt.parts_rename (x y : String) : ∀ s : Stmt,
    (s.rename x y).parts = s.parts.map (Part.rename x y)
  | .assign _ _ value | .tupleAssign _ _ value | .expr _ value | .ret _ (some value) => by
    simp only [rename, parts, Option.map_some, value.parts_rename x y]
  | .ret _ none | .breakLoop _ | .continueLoop _ => rfl
  | .branch _ condition thenBody elseBody => by
    simp only [rename, parts, List.map_append, condition.parts_rename x y,
      Stmt.partsAll_renameAll x y thenBody, Stmt.partsAll_renameAll x y elseBody]
  | .whileLoop _ condition body => by
    simp only [rename, parts, List.map_append, condition.parts_rename x y,
      Stmt.partsAll_renameAll x y body]
  | .forLoop _ _ _ iterable body => by
    simp only [rename, parts, List.map_cons, List.map_append, iterable.parts_rename x y,
      Stmt.partsAll_renameAll x y body, Part.rename]

theorem Stmt.partsAll_renameAll (x y : String) : ∀ ss : List Stmt,
    Stmt.partsAll (Stmt.renameAll x y ss) = (Stmt.partsAll ss).map (Part.rename x y)
  | [] => rfl
  | s :: ss => by
    simp only [renameAll, partsAll, List.map_append, Stmt.parts_rename x y s,
      Stmt.partsAll_renameAll x y ss]

end

/-- **Renaming a local binding** changes nothing among the parts of a function but the callees of
    calls of local bindings. -/
theorem Function.parts_rename (x y : String) (f : Function) :
    (f.rename x y).parts = f.parts.map (Part.rename x y) := by
  simp [parts, rename, Stmt.partsAll_renameAll, Part.rename, Function.comp_def]

end QuantumStatics.Typed
