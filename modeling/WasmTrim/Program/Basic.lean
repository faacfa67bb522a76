/-
# Programs

A program (`LoweredModule`) is what the assembler turns into one binary module: imported
functions, which take the first function indices, the functions themselves, globals, exception
tags, and the record of constructed runtime types.

Functions know their own index.  In a program that can be assembled the index of a function is
its position after the imports, but nothing enforces that before; look-ups therefore go by the
index that a function says it has, or by its name, and of several the first one counts.
Signatures are the exception: they are collected in a table keyed by index, where a later entry
replaces an earlier one, so there the last one counts (`signatureAt?`).

`removeFunction` is the one operation that changes which functions there are.  It shifts the
indices above down and renumbers every call in every remaining function, so that each call keeps
its target.
-/
import WasmTrim.Program.Function

namespace WasmTrim

/-! ## 1. Parts

Imports, globals and tags are never changed by the optimizer, and they are never renumbered. -/

/-- A function provided by the host (`ImportedFunction`), named by its origin and its own name. -/
structure Import where
  origin : String
  name : String
  signature : Signature
deriving DecidableEq

/-- A global variable (`Global`).  Its initializer should be a constant, which only the assembler
checks. -/
structure Global where
  name : String
  type : ValueType
  mutable : Bool
  init : Op
deriving DecidableEq

/-- An exception tag: the types of the values it carries. -/
structure Tag where
  params : List ValueType
deriving DecidableEq

/-- The tag as a callable without a result, which is how it enters the type section. -/
def Tag.signature (t : Tag) : Signature := ⟨t.params, none⟩

/-- A whole program (`LoweredModule`). Callables are numbered through: the imports first, and the
functions after them in the order of the list. -/
structure Program where
  imports : List Import
  functions : List Function
  globals : List Global
  tags : List Tag
  /-- The messages of the exceptions that the program may raise. -/
  exceptions : List String
  types : TypeUsage
deriving DecidableEq

namespace Program

/-! ## 2. Look-up

The function indices start with the imports, whose signatures are known by position. -/

/-- The index of the first function that is not imported (`function_base`). -/
def functionBase (p : Program) : Nat := p.imports.length

/-- The first function of the given name (`function_by_name`). -/
def functionNamed? (p : Program) (name : String) : Option Function :=
  p.functions.find? fun f => f.name = name

/-- Whether some function uses memory (`uses_memory`).  A program has a memory, and exports it,
exactly when this holds. -/
def usesMemory (p : Program) : Bool := p.functions.any Function.usesMemory

/-- Every callable with its index: first the imports, then the functions. -/
def callables (p : Program) : List (Nat × Signature) :=
  p.imports.mapIdx (fun i x => (i, x.signature)) ++ p.functions.map fun f => (f.index, f.signature)

/-- The signature of the callable at an index; of several the last one counts (`signatures`). -/
def signatureAt? (p : Program) (index : Nat) : Option Signature := p.callables.reverse.lookup index

/-! ## 3. Removing a function

The removed index itself has no new number.  A call to the removed function keeps the old one and
would then name its successor, so whoever removes a function first sees to it that nobody calls
it. -/

/-- Takes the function with the given index out of the program (`remove_function`).  The
functions above it move down, and every call follows. -/
def removeFunction (p : Program) (index : Nat) : Option (Function × Program) :=
  match p.functions.find? (Function.hasIndex index) with
  | none => none
  | some removed =>
    let rest := p.functions.eraseP (Function.hasIndex index)
    some (removed, { p with functions := rest.map (Function.compactCalls (.removing [index])) })

/-- The program without the function at the given index; unchanged when there is none. -/
def withoutFunction (p : Program) (index : Nat) : Program :=
  match p.removeFunction index with
  | some (_, p') => p'
  | none => p

/-- Nothing is removed exactly when no function has the index. -/
theorem removeFunction_eq_none_iff {p : Program} {index : Nat} :
    p.removeFunction index = none ↔ ∀ f ∈ p.functions, f.index ≠ index := by
  simp only [removeFunction]
  split
  · rename_i h
    simpa [Function.hasIndex] using h
  · rename_i f h
    have hf := List.find?_some h
    simp only [Function.hasIndex, decide_eq_true_eq] at hf
    simpa using ⟨f, List.mem_of_find?_eq_some h, hf⟩

/-- Where every function stands at its index, the function at a position is the one that is taken
out. -/
theorem removeFunction_of_getElem? {p : Program} {k : Nat} {f : Function}
    (hindex : ∀ (i : Nat) (g : Function), p.functions[i]? = some g → g.index = p.functionBase + i)
    (hk : p.functions[k]? = some f) :
    p.removeFunction f.index = some (f, { p with
      functions := (p.functions.eraseIdx k).map
        (Function.compactCalls (.removing [f.index])) }) := by
  obtain ⟨hlt, rfl⟩ := List.getElem?_eq_some_iff.mp hk
  have hfirst : p.functions.findIdx? (Function.hasIndex p.functions[k].index) = some k := by
    rw [List.findIdx?_eq_some_iff_getElem]
    refine ⟨hlt, by simp [Function.hasIndex], fun j hj => ?_⟩
    rw [Function.hasIndex, decide_eq_true_eq, hindex k _ hk,
      hindex j _ (List.getElem?_eq_getElem (by omega))]
    omega
  have hfind : p.functions.find? (Function.hasIndex p.functions[k].index)
      = some p.functions[k] := by
    rw [List.find?_eq_bind_findIdx?_getElem?, hfirst, Option.bind_some, hk]
  simp only [removeFunction, hfind, List.eraseP_eq_eraseIdx, hfirst]

/-- A removal shortens the table by one. It fails only where no function has the given index. -/
theorem length_of_removeFunction {p p' : Program} {f : Function} {index : Nat}
    (h : p.removeFunction index = some (f, p')) :
    p'.functions.length + 1 = p.functions.length := by
  simp only [removeFunction] at h
  split at h
  · simp at h
  · rename_i g hg
    obtain ⟨-, rfl⟩ := by simpa using h
    have hm : g ∈ p.functions := List.mem_of_find?_eq_some hg
    have he := List.length_eraseP_of_mem hm (List.find?_some hg)
    have hpos : 0 < p.functions.length := List.length_pos_of_mem hm
    simp only [List.length_map]
    omega

end Program

end WasmTrim
