/-
# The stack machine

What a program does.  A code is evaluated on an operand stack, the locals of one function and a
world: the globals, the memory, the state of the host, and the calls that were made to it.
Evaluation is a total function.  It ends with a *signal*: the stack to go on with, a way to
leave a region or the function, a trap, or one of two signals that no execution shows:

* `stuck` for what a well-typed body never does, such as popping from an empty stack;
* `timeout` when a bound on loops and nested calls has been reached.

A program yields a result when some bound is enough (`Program.Yields`).  The bound is one number,
used up by rounds of loops and by nested calls alike; raising it changes nothing but timeouts.
The depth of calls that a real engine allows is not modelled, so a program that runs out of it
there yields a result here.

**The host** is arbitrary: its answers may depend on everything it has seen, and it may change the
memory.  It may answer with a value of the wrong type or an exception that does not exist, in
which case the call traps; so no assumption about the host is ever needed.

**Memory** is a matter of the program.  One in which no function has the flag for it declares none
(`Machine.hasMemory`), and its operations on memory then get stuck, whatever they would have done:
such a program is not valid.  The store nevertheless has a memory in it, since the imports may
read and write one that they brought along.  For a program without a memory of its own it is the
memory of the imports only, which no instruction touches.

**Structure** comes from the parsed code and not from positions: a branch is a signal that counts
down as it leaves regions, and each region decides by its kind what a branch to it means.  A body
that does not parse has no meaning, and a call of it is stuck.
-/
import WasmTrim.Program.Basic
import WasmTrim.Proofs.Code
import WasmTrim.Proofs.Semantics.Numeric

namespace WasmTrim

/-! ## 1. Memory

A memory is a function from addresses to bytes with a size beside it.  Accesses are checked against
the size, so bytes past it do not matter. -/

namespace Access

/-- The number of bytes accessed, which may be fewer than the value has. -/
def size (a : Access) : Nat := 2 ^ a.alignment

/-- The value that a load makes of the bytes it finds, read as a number. -/
def ofBytes (a : Access) (n : Nat) : Value :=
  match a.type with
  | .i32 => .i32 (.ofNat 32 n)
  | .i64 => .i64 (.ofNat 64 n)
  | .f64 => .f64 ⟨.ofNat 64 n⟩

@[simp] theorem type_ofBytes (a : Access) (n : Nat) : (a.ofBytes n).type = a.type := by
  cases a <;> rfl

end Access

/-- The bits of a value as a number, of which an access stores as many as it has room for. -/
def Value.toNat : Value → Nat
  | .i32 bits => bits.toNat
  | .i64 bits => bits.toNat
  | .f64 number => number.bits.toNat

/-- A memory: its size in pages and its bytes. Bytes beyond the size are there in the function but
cannot be reached. -/
structure Memory where
  pages : Nat
  byte : Nat → BitVec 8

namespace Memory

/-- The number of bytes of a page. The size of a memory is counted in pages. -/
def pageSize : Nat := 65536

/-- How far a memory may grow, in pages (`MAX_PAGES`). It is part of the memory's declaration, so
growing beyond it fails without a trap. -/
def maxPages : Nat := 16

/-- Some bytes from an address on as a number, the lowest first. -/
def read (m : Memory) (address : Nat) : Nat → Nat
  | 0 => 0
  | count + 1 => (m.byte address).toNat + 256 * m.read (address + 1) count

/-- The memory with the lowest bytes of a number from an address on. -/
def write (m : Memory) (address count n : Nat) : Memory :=
  { m with
    byte := fun i =>
      if address ≤ i ∧ i < address + count then .ofNat 8 (n / 256 ^ (i - address)) else m.byte i }

/-- Whether all bytes of an access exist. If one is missing the access traps, and nothing is read or
written. -/
def contains (m : Memory) (address count : Nat) : Bool := address + count ≤ m.pages * pageSize

/-- Adds pages of zeros and tells the old size; when there is no room, tells `-1`. -/
def grow (m : Memory) (delta : Nat) : Memory × BitVec 32 :=
  if m.pages + delta ≤ maxPages then
    ({ pages := m.pages + delta
       byte := fun i => if i < m.pages * pageSize then m.byte i else 0 }, .ofNat 32 m.pages)
  else (m, -1)

end Memory

/-! ## 2. The world

Everything that outlives a call.  The calls to the host are recorded in it, so that two runs that
leave the same world have called the host alike. -/

/-- An exception: its tag and what it carries.  One that the host made has no tag. -/
structure Exception where
  tag : Option Nat
  args : List Value
deriving DecidableEq

/-- Whether the tag exists and the values are those that it carries. -/
def Exception.fits (tags : List Tag) (e : Exception) : Bool :=
  match e.tag with
  | none => true
  | some t => (tags[t]?).any fun tag => e.args.map Value.type = tag.params

/-- A call of an imported function, as the host sees it. -/
structure ImportCall where
  index : Nat
  args : List Value
deriving DecidableEq

/-- Everything outside of the running functions.  The calls are listed latest first, and the host
cannot change the list. -/
structure World (σ : Type) where
  globals : List Value
  memory : Memory
  host : σ
  calls : List ImportCall

/-- What the host may answer to a call. It has a state of its own, and its answer may depend on it
and change it. -/
inductive HostAnswer where
  | returned (values : List Value)
  | raised (e : Exception)
  | trapped

/-- The imported functions: from the arguments, the memory and its own state the host computes an
answer, the new memory and its new state. -/
structure Host (σ : Type) where
  call : Nat → List Value → Memory → σ → HostAnswer × Memory × σ

/-- How a call ends. Only the first three are ends that can be observed of a typed program;
`timeout` says that the bound was too small to tell. -/
inductive Answer where
  | returned (values : List Value)
  | raised (e : Exception)
  | trapped
  | stuck
  | timeout
deriving DecidableEq

/-- An answer of the host as the end of a call.  An answer that does not fit the signature is a
trap. -/
def HostAnswer.answer (tags : List Tag) (result : ResultType) : HostAnswer → Answer
  | .returned values => if values.map Value.type = result.types then .returned values else .trapped
  | .raised e => if e.fits tags then .raised e else .trapped
  | .trapped => .trapped

/-! ## 3. Signals

How control leaves a code.  A signal is turned into another on the way out of a region, and into an
answer on the way out of a function. -/

/-- How the evaluation of a code ends: control runs on behind it, leaves it for somewhere else, or
stops. -/
inductive Signal where
  /-- Control runs on with this stack, the top first. -/
  | next (stack : List Value)
  /-- Control leaves to the region that is `label` regions out, with the values it takes. -/
  | branch (label : Nat) (values : List Value)
  /-- Control leaves the function. -/
  | ret (values : List Value)
  /-- An exception that the next `skip` regions do not handle. -/
  | raise (skip : Nat) (e : Exception)
  /-- An exception that no region of the function handles, and that its caller has to deal with. -/
  | escape (e : Exception)
  | trap
  | stuck
  | timeout
deriving DecidableEq

/-- The locals of the running function and the world. The operands are not part of it, as they are
passed along from one operation to the next. -/
structure State (σ : Type) where
  locals : List Value
  world : World σ

/-- A signal with the state in which it is given. -/
abbrev Outcome (σ : Type) := Signal × State σ

namespace Outcome

variable {σ : Type}

/-- Goes on with the stack, if control runs on; every other signal is passed outwards. -/
def andThen (o : Outcome σ) (k : List Value → State σ → Outcome σ) : Outcome σ :=
  match o with
  | (.next stack, st) => k stack st
  | o => o

/-- Hands an exception that is not to be skipped to its handlers. -/
def caughtBy (o : Outcome σ) (handler : Option Exception → State σ → Outcome σ) : Outcome σ :=
  match o with
  | (.raise 0 e, st) => handler (some e) st
  | o => o

end Outcome

/-- The signal outside of a region: control runs on behind it with exactly its results, and
everything else is one region nearer to its goal. -/
def Signal.leave (arity : Nat) (below : List Value) : Signal → Signal
  | .next values => if values.length = arity then .next (values ++ below) else .stuck
  | .branch 0 values => .next (values ++ below)
  | .branch (label + 1) values => .branch label values
  | .raise (skip + 1) e => .raise skip e
  | s => s

/-- The end of a call as a signal of the caller. -/
def Answer.signal (onReturn : List Value → Signal) (onRaise : Exception → Signal) :
    Answer → Signal
  | .returned values => onReturn values
  | .raised e => onRaise e
  | .trapped => .trap
  | .stuck => .stuck
  | .timeout => .timeout

/-! ## 4. Operations

Operations on operands are given by the values they take and leave.  Only calls and branches see
more of the stack than their operands. -/

/-- What an operation on operands does to the stack, from which its operands have been taken. -/
inductive Effect where
  | push (values : List Value)
  | trap
  | stuck
deriving DecidableEq

/-- An open region, and the exception it has caught, which a `rethrow` in its handler raises again.
-/
structure Label where
  region : Region
  caught : Option Exception

/-- The regions of the labels, innermost first, which is all that the passes know of them. -/
def regionsOf (labels : List Label) : Nesting := labels.map Label.region

/-- What a function needs to run besides its own code: the operations on doubles, whether the
program has a memory, the signatures of all callables by position, the tags, the number of its
results, a bound on the rounds of loops, and a way to call. -/
structure Machine (σ : Type) where
  floats : FloatUnit
  hasMemory : Bool
  signatures : List Signature
  tags : List Tag
  results : Nat
  fuel : Nat
  call : Nat → List Value → World σ → Answer × World σ

namespace Machine

variable {σ : Type} (M : Machine σ)

/-- What an operation does to the memory of the world.  Where the program has no memory of its own,
it gets stuck: no such operation is part of a valid program then. -/
def onMemory (w : World σ) (act : Memory → Effect × Memory) : Effect × World σ :=
  if M.hasMemory then ((act w.memory).1, { w with memory := (act w.memory).2 }) else (.stuck, w)

/-- An operation on operands that does not use the locals.  The operands are given top first. -/
def actOnWorld (op : Op) (args : List Value) (w : World σ) : Effect × World σ :=
  match op, args with
  | .nop, [] => (.push [], w)
  | .drop, [_] => (.push [], w)
  | .select, [.i32 c, b, a] => (.push [if c = 0 then b else a], w)
  | .globalGet i, [] =>
    match w.globals[i]? with
    | some v => (.push [v], w)
    | none => (.stuck, w)
  | .globalSet i, [v] =>
    if i < w.globals.length then (.push [], { w with globals := w.globals.set i v })
    else (.stuck, w)
  | .load a arg, [.i32 address] => M.onMemory w fun m =>
    if m.contains (address.toNat + arg.offset) a.size then
      (.push [a.ofBytes (m.read (address.toNat + arg.offset) a.size)], m)
    else (.trap, m)
  | .store a arg, [v, .i32 address] => M.onMemory w fun m =>
    if m.contains (address.toNat + arg.offset) a.size then
      (.push [], m.write (address.toNat + arg.offset) a.size v.toNat)
    else (.trap, m)
  | .memorySize, [] => M.onMemory w fun m => (.push [.i32 (.ofNat 32 m.pages)], m)
  | .memoryGrow, [.i32 delta] => M.onMemory w fun m =>
    (.push [.i32 (m.grow delta.toNat).2], (m.grow delta.toNat).1)
  | .const v, [] => (.push [v], w)
  | .num op, args =>
    match op.compute? M.floats args.reverse with
    | some (.value v) => (.push [v], w)
    | some .trap => (.trap, w)
    | none => (.stuck, w)
  | _, _ => (.stuck, w)

/-- An operation on operands. It is stuck on operands of the wrong number or type, on a local or
global that is not there, and on a memory that the program does not have. -/
def act (op : Op) (args : List Value) (st : State σ) : Effect × State σ :=
  match op, args with
  | .localGet i, [] =>
    match st.locals[i]? with
    | some v => (.push [v], st)
    | none => (.stuck, st)
  | .localSet i, [v] =>
    if i < st.locals.length then (.push [], { st with locals := st.locals.set i v })
    else (.stuck, st)
  | .localTee i, [v] =>
    if i < st.locals.length then (.push [v], { st with locals := st.locals.set i v })
    else (.stuck, st)
  | .localGet _, _ | .localSet _, _ | .localTee _, _ => (.stuck, st)
  | op, args =>
    ((M.actOnWorld op args st.world).1, { st with world := (M.actOnWorld op args st.world).2 })

/-- The number of values that a branch to a label takes, if there is such a label. -/
def labelArity? (labels : List Label) (label : Nat) : Option Nat :=
  if label ≤ labels.length then some ((regionsOf labels).labelArity label M.results) else none

/-- A branch to a label: it carries as many values as the label takes from the top of the stack. It
is stuck if there are fewer, or if no region or function has the label. -/
def branch (labels : List Label) (label : Nat) (stack : List Value) : Signal :=
  match M.labelArity? labels label with
  | some n => if n ≤ stack.length then .branch label (stack.take n) else .stuck
  | none => .stuck

/-- Pops the operands and pushes what an operation makes of them; the stack below is left alone. -/
def apply (op : Op) (count : Nat) (stack : List Value) (st : State σ) : Outcome σ :=
  if count ≤ stack.length then
    match M.act op (stack.take count) st with
    | (.push values, st) => (.next (values ++ stack.drop count), st)
    | (.trap, st) => (.trap, st)
    | (.stuck, st) => (.stuck, st)
  else (.stuck, st)

/-- Calls a function with the arguments on the stack, and goes on as its answer says. -/
def invokeWith (target : Nat) (stack : List Value) (st : State σ)
    (onReturn : ResultType → List Value → List Value → Signal) (onRaise : Exception → Signal) :
    Outcome σ :=
  match M.signatures[target]? with
  | none => (.stuck, st)
  | some s =>
    if s.params.length ≤ stack.length then
      let a := M.call target (stack.take s.params.length).reverse st.world
      (a.1.signal (fun values => onReturn s.result values (stack.drop s.params.length)) onRaise,
        { st with world := a.2 })
    else (.stuck, st)

/-- A plain operation.  An exception of a tail call is not handled in this function any more;
where no handler is open that makes no difference. -/
def perform (labels : List Label) (op : Op) (stack : List Value) (st : State σ) : Outcome σ :=
  match op with
  | .unreachable => (.trap, st)
  | .br label => (M.branch labels label stack, st)
  | .brIf label =>
    match stack with
    | .i32 c :: stack => (if c = 0 then .next stack else M.branch labels label stack, st)
    | _ => (.stuck, st)
  | .brTable targets fallback =>
    match stack with
    | .i32 c :: stack => (M.branch labels (targets.getD c.toNat fallback) stack, st)
    | _ => (.stuck, st)
  | .ret =>
    (if M.results ≤ stack.length then .ret (stack.take M.results) else .stuck, st)
  | .call target =>
    M.invokeWith target stack st
      (fun result values below =>
        if values.length = result.arity then .next (values ++ below) else .stuck)
      (.raise 0)
  | .returnCall target =>
    M.invokeWith target stack st
      (fun _ values _ => if values.length = M.results then .ret values else .stuck)
      (fun e => if (regionsOf labels).insideTry then .escape e else .raise 0 e)
  | .throwTag tag =>
    match M.tags[tag]? with
    | some t =>
      (if t.params.length ≤ stack.length then
        .raise 0 ⟨some tag, (stack.take t.params.length).reverse⟩ else .stuck, st)
    | none => (.stuck, st)
  | .rethrow label =>
    match (labels[label]?).bind Label.caught with
    | some e => (.raise 0 e, st)
    | none => (.stuck, st)
  | op =>
    match op.stackEffect? with
    | some (count, _) => M.apply op count stack st
    | none => (.stuck, st)

/-! ## 5. Regions

A region runs its first part on a stack of its own.  A branch to a loop runs it again; a branch to
any other region leaves it, as does running to its end. -/

/-- Runs a loop until a round does not start it again. Each round begins with the state that the one
before has left, and with an empty stack. -/
def iterate (round : State σ → Outcome σ) : Nat → State σ → Outcome σ
  | 0, st => (.timeout, st)
  | rounds + 1, st =>
    match round st with
    | (.branch 0 _, st) => iterate round rounds st
    | o => o

/-- Runs a region: `first` is its first part, `other` its other arms, which are chosen by an
exception or, after a condition that does not hold, without one. -/
def region (r : Region) (first : State σ → Outcome σ)
    (other : Option Exception → State σ → Outcome σ) (stack : List Value) (st : State σ) :
    Outcome σ :=
  match r.kind with
  | .block =>
    let o := first st
    (o.1.leave r.result.arity stack, o.2)
  | .loop =>
    let o := iterate first M.fuel st
    (o.1.leave r.result.arity stack, o.2)
  | .ifThen =>
    match stack with
    | .i32 c :: stack =>
      let o := if c = 0 then other none st else first st
      (o.1.leave r.result.arity stack, o.2)
    | _ => (.stuck, st)
  | .tryCatch =>
    let o := Outcome.caughtBy (first st) other
    (o.1.leave r.result.arity stack, o.2)

end Machine

/-- The stack with which an arm begins, if it is the one to run. -/
def armStack? : Option Exception → Op → Option (List Value)
  | none, .elseArm => some []
  | some e, .catchTag tag => if e.tag = some tag then some e.args.reverse else none
  | some _, .catchAll => some []
  | _, _ => none

mutual

/-- Evaluates a code, given the labels around it, by recursion on its structure. Loops and calls are
bounded by the machine, so nothing else is needed to make it end. -/
def Code.eval {σ : Type} (M : Machine σ) (labels : List Label) :
    Code → List Value → State σ → Outcome σ
  | .done, stack, st => (.next stack, st)
  | .op o rest, stack, st => Outcome.andThen (M.perform labels o stack st) (rest.eval M labels)
  | .region kind result body arms rest, stack, st =>
    Outcome.andThen
      (M.region ⟨kind, result⟩ (body.eval M (⟨⟨kind, result⟩, none⟩ :: labels) [])
        (arms.eval M ⟨kind, result⟩ labels) stack st)
      (rest.eval M labels)

/-- Evaluates the arm of a region that an exception, or its absence, selects.  An exception that
no arm handles goes on; one that is delegated skips the regions in between. -/
def Arms.eval {σ : Type} (M : Machine σ) (r : Region) (labels : List Label) :
    Arms → Option Exception → State σ → Outcome σ
  | .close, none, st => (.next [], st)
  | .close, some e, st => (.raise 0 e, st)
  | .delegate _, none, st => (.stuck, st)
  | .delegate label, some e, st => (.raise (label + 1) e, st)
  | .arm head body more, trigger, st =>
    match armStack? trigger head with
    | some stack => body.eval M (⟨r, trigger⟩ :: labels) stack st
    | none => more.eval M r labels trigger st

end

/-! ## 6. Functions and programs

A call runs the body in a frame of its own: nothing of the caller's stack or locals is seen there,
and nothing but results, exceptions and the world comes back. -/

/-- The end of a body as the end of a call. The label of the function comes behind those of its
regions, and a branch to it returns. -/
def Signal.answer (arity : Nat) : Signal → Answer
  | .next values => if values.length = arity then .returned values else .stuck
  | .branch 0 values => .returned values
  | .branch (_ + 1) _ => .stuck
  | .ret values => .returned values
  | .raise _ e | .escape e => .raised e
  | .trap => .trapped
  | .stuck => .stuck
  | .timeout => .timeout

/-- The operations of a body, without their markers. Markers mean nothing at run time. -/
def Body.ops (body : Body) : List Op := body.map Instr.op

/-- The state in which a function starts: its arguments, and zeros for its other locals. -/
def Function.entryState {σ : Type} (f : Function) (args : List Value) (w : World σ) : State σ :=
  ⟨args ++ f.localTypes.map Value.zero, w⟩

/-- Runs a function: its arguments become the first locals, the others start at zero, and the values
on top at the end are its results. A body that is not well nested is stuck at once. -/
def Function.run {σ : Type} (f : Function) (M : Machine σ) (args : List Value) (w : World σ) :
    Answer × World σ :=
  match Code.parse f.body.ops with
  | none => (.stuck, w)
  | some c =>
    let o := c.eval { M with results := f.result.arity } [] [] (f.entryState args w)
    (o.1.answer f.result.arity, o.2.world)

namespace Program

variable {σ : Type}

/-- The signatures of all callables by position, imports first, in the order in which indices count
them (`signatures`). -/
def signatures (p : Program) : List Signature :=
  p.imports.map Import.signature ++ p.functions.map Function.signature

/-- Calls the host. The call is recorded in the world with its arguments, whatever comes of it, and
the answer is checked against the signature of the import. -/
def callImport (p : Program) (host : Host σ) (i : Import) (index : Nat) (args : List Value)
    (w : World σ) : Answer × World σ :=
  let (answer, memory, state) := host.call index args w.memory w.host
  (answer.answer p.tags i.signature.result,
    { w with memory, host := state, calls := ⟨index, args⟩ :: w.calls })

/-- Calls the callable at an index, with a bound on nested calls and on the rounds of loops.  Each
level of calls has one less of both. -/
def invoke (p : Program) (u : FloatUnit) (host : Host σ) :
    Nat → Nat → List Value → World σ → Answer × World σ
  | 0, _, _, w => (.timeout, w)
  | fuel + 1, index, args, w =>
    match p.imports[index]? with
    | some i => p.callImport host i index args w
    | none =>
      match p.functions[index - p.imports.length]? with
      | some f =>
        f.run ⟨u, p.usesMemory, p.signatures, p.tags, 0, fuel, p.invoke u host fuel⟩ args w
      | none => (.stuck, w)

/-- The machine on which the functions of a program run. Whether it has a memory is what the program
declares (`uses_memory`), and its calls are those of the program. -/
def machine (p : Program) (u : FloatUnit) (host : Host σ) (fuel : Nat) : Machine σ :=
  ⟨u, p.usesMemory, p.signatures, p.tags, 0, fuel, p.invoke u host fuel⟩

/-- A call of the callable at an index ends with the given answer and world.  A call that never
ends yields nothing, under any bound. -/
def Yields (p : Program) (u : FloatUnit) (host : Host σ) (index : Nat) (args : List Value)
    (w : World σ) (answer : Answer) (w' : World σ) : Prop :=
  answer ≠ .timeout ∧ ∃ fuel, p.invoke u host fuel index args w = (answer, w')

end Program

end WasmTrim
