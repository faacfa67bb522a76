/-
# Functions

A function (`LoweredFunction`) has an index among all callables, parameters, a table of locals, a
result and a body.  Nothing ties these together by construction: the table may lack the
parameters, the body may use locals that are not declared, the flags may be wrong.  What the rest
of the library asks of a function is collected here; what a function has to satisfy for the
theorems about it is a predicate of its own in each case (`Proofs/Locals`, `Proofs/Typing`).

Two flags come with a function and are believed.  `throws` keeps it from being inlined, beyond
what its body shows.  `usesMemory` is the only thing that gives a program a memory: a body that
loads and a flag that is off make a program without one, unless another function has the flag.
Inlining hands the flag to the functions that receive the body, and to them only.
-/
import WasmTrim.Instr.Basic
import WasmTrim.Program.Local

namespace WasmTrim

/-- The function that a host calls (`ENTRY_POINT`). It is found by its name and exported under it,
and it is never inlined away. -/
def entryName : String := "main"

/-- A function of a program (`LoweredFunction`). What it declares and what its body does are not
tied together by this type: it may use locals that do not exist, or memory without the flag. -/
structure Function where
  /-- Position among all callables, imports included. -/
  index : Nat
  name : String
  params : List ValueType
  locals : LocalTable
  result : ResultType
  body : Body
  throws : Bool
  usesMemory : Bool
deriving DecidableEq

namespace Function

/-! ## 1. Construction

A function is declared without a body, which is given to it later. -/

/-- A function with an empty body, whose parameters are its first locals (`new`). -/
def declare (index : Nat) (name : String) (params : List (String × ValueType))
    (result : ResultType) : Function where
  index
  name
  params := params.map Prod.snd
  locals := .ofList (params.mapIdx fun i p => ⟨p.1, i, p.2⟩)
  result
  body := []
  throws := false
  usesMemory := false

/-- The same function with another body (`with_body`). -/
def withBody (f : Function) (body : Body) : Function := { f with body }

/-! ## 2. Facts

None of these looks at the body except the last, which sees plain calls only: a function that
calls itself by a tail call is refused by another name. -/

/-- Whether the host calls this function (`is_entry`). Nothing keeps a program from having several
functions of this name; the first one is exported. -/
def isEntry (f : Function) : Bool := f.name = entryName

/-- Whether the function stands at the given index. -/
def hasIndex (index : Nat) (f : Function) : Bool := f.index = index

/-- The number of parameters (`param_count`), below which lie the locals that no pass removes. -/
def paramCount (f : Function) : Nat := f.params.length

/-- Parameters and result, which is what a caller has to know of a function. -/
def signature (f : Function) : Signature := ⟨f.params, f.result⟩

/-- The types of the locals that are not parameters, in the order of their indices
(`local_types`). -/
def localTypes (f : Function) : List ValueType :=
  (f.locals.byIndex.filter fun l => f.paramCount ≤ l.index).map Local.type

/-- Whether the body calls the function itself, other than by a tail call (`calls_self`). -/
def callsSelf (f : Function) : Bool := f.body.any fun i => i.op = .call f.index

/-! ## 3. New locals

The only way in which a function gets a local after it was declared.  A name that is taken is not an
error: the local of that name is used again, with the type that it has. -/

/-- Finds or adds a local and tells its index (`add_local`). -/
def addLocal (f : Function) (name : String) (type : ValueType) :
    Except Fault (Function × Nat) := do
  let (locals, index) ← f.locals.declare name type
  return ({ f with locals }, index)

/-! ## 4. Renumbering

The two renumberings of the optimizer.  Each changes every place where an index of its kind
stands, in the table and in the body at once, so that what refers to what is unchanged. -/

/-- Renumbers the function and its calls after functions have been removed, as `remove_function`
does for each function that stays. -/
def compactCalls (c : Compaction) (f : Function) : Function :=
  { f with index := c.apply f.index, body := f.body.map (Instr.mapCall c.apply) }

/-- Renumbers the locals after some have been removed, in the table and in the body, as
`eliminate` does at its end. -/
def compactLocals (c : Compaction) (f : Function) : Function :=
  { f with locals := f.locals.compact c, body := f.body.map (Instr.mapLocal c.apply) }

end Function

end WasmTrim
