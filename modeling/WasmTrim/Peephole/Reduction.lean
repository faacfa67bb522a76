/-
# The peephole rules

Each rule looks at the instructions that end at the *focus*, the last one before the cursor,
and some also at what follows.  A rule that applies gives the cursor from which the scan goes
on: the new body, cut at the first place the rule has touched.

A rule sees operations, with two exceptions: the rules on dispatch over types look at markers,
and so does the one that takes away a block, which leaves the block of a dispatch alone.  What a
rule keeps of the instructions it changes keeps its marker; what it puts in has none, unless it
is an operation changed in place.

| rule | pattern | replaced by |
|---|---|---|
| `setGet` | `local.set L; local.get L` | `local.tee L` |
| `getDrop` | `local.get` or `global.get; drop` | nothing |
| `teeDrop` | `local.tee L; drop` | `local.set L` |
| `constDrop` | a constant; `drop` | nothing |
| `eqz` | constant zero; `eq` | `eqz` |
| `extendWrap` | `i64.extend_i32`; `i32.wrap_i64` | nothing |
| `convertTrunc` | `f64.convert_i32`; truncation back | nothing |
| `foldTrunc` | double constant; saturating truncation | integer constant |
| `foldConvert` | integer constant; conversion | double constant |
| `tailCall` | `call f; return` | `return_call f` |
| `loopIncrement` | `end; local.get L; local.get L`, an increment of `L`, `drop` | one read |
| `postIncrement` | `local.get L; local.get L`, an increment of `L`, `drop` or a branch | one read |
| `paramShuffle` | `local.set X; local.tee Y; local.get X`, both unused otherwise | nothing |
| `transparentBlock` | a block without branches | its contents |
| `deadTypeCase` | the guard and arm of a type that is never constructed | the other arm |
| `emptyTypeSwitch` | a dispatch without cases | `drop` |
| `deadLastType` | a write of the unread local `#last_type` | `drop` or nothing |

Increments are meant to be a constant, a sum or difference, and a `local.set` of the local that
was read.  The table says `eq` and truncation for all widths and both signs: which of them a rule
accepts is in its definition.

The rules that fold take any constants that have a value; those that remove a pair remove it only
where the pair is the identity, which for a conversion and a truncation back means that the signs
agree.  Three rules rely on what else the body does.  A shuffle and a store to `#last_type` go only
when nothing reads the locals, counted over the whole body.  A dispatch without cases goes without
such a count: what follows is taken not to read the local that captured the type.

Every rule makes the body lighter and goes back at most five instructions
(`reduceAt_progress`), which is why a scan ends.
-/
import WasmTrim.Constant
import WasmTrim.Nesting
import WasmTrim.Peephole.Cursor
import WasmTrim.Peephole.Rule

namespace WasmTrim.Peephole

/-! ## 1. What the rules may consult

The scope is fixed for a scan.  In particular the number of results of a callable is read from the
program as it is before the scan, where no pass has changed it. -/

/-- The name of the local that holds the runtime type of the last computed value (`LAST_TYPE`). -/
def lastTypeName : String := "#last_type"

/-- What is known about the function and the program around the body (`Scope`). -/
structure Scope where
  /-- Whether tail calls are wanted. -/
  tailCalls : Bool
  /-- The runtime types that the program constructs. -/
  types : TypeUsage
  /-- The number of results of a callable. -/
  resultsOf : Nat → Option Nat
  /-- The local named `#last_type`. -/
  lastType : Option Nat
  /-- The number of results of the function. -/
  results : Nat

/-! ## 2. Rules on two instructions

The focus and the instruction before it.  These rules match on the two operations, and those that
put something in change the operation of one of the two. -/

/-- A value that is written and read back stays on the stack (`set_get`). -/
def setGet : Cursor → Option Cursor
  | ⟨⟨.localGet read, _⟩ :: ⟨.localSet written, m⟩ :: seen, rest⟩ =>
    if written = read then some ⟨seen, ⟨.localTee written, m⟩ :: rest⟩ else none
  | _ => none

/-- A variable that is read only to be dropped is not read (`get_drop`). -/
def getDrop : Cursor → Option Cursor
  | ⟨⟨.drop, _⟩ :: ⟨.localGet _, _⟩ :: seen, rest⟩ => some ⟨seen, rest⟩
  | ⟨⟨.drop, _⟩ :: ⟨.globalGet _, _⟩ :: seen, rest⟩ => some ⟨seen, rest⟩
  | _ => none

/-- A value that is kept only to be dropped is not kept (`tee_drop`). -/
def teeDrop : Cursor → Option Cursor
  | ⟨⟨.drop, _⟩ :: ⟨.localTee l, m⟩ :: seen, rest⟩ => some ⟨seen, ⟨.localSet l, m⟩ :: rest⟩
  | _ => none

/-- A constant that is dropped is not pushed (`const_drop`), of any of the three types. -/
def constDrop : Cursor → Option Cursor
  | ⟨⟨.drop, _⟩ :: ⟨.const _, _⟩ :: seen, rest⟩ => some ⟨seen, rest⟩
  | _ => none

/-- A comparison with zero is a test (`eqz`), for either width of integer. -/
def eqz : Cursor → Option Cursor
  | ⟨⟨.num .i32Eq, m⟩ :: ⟨.const (.i32 v), _⟩ :: seen, rest⟩ =>
    if v = 0 then some ⟨seen, ⟨.num .i32Eqz, m⟩ :: rest⟩ else none
  | ⟨⟨.num .i64Eq, m⟩ :: ⟨.const (.i64 v), _⟩ :: seen, rest⟩ =>
    if v = 0 then some ⟨seen, ⟨.num .i64Eqz, m⟩ :: rest⟩ else none
  | _ => none

/-- Widening and narrowing again changes nothing (`extend_wrap`), whichever way the sign was
extended. -/
def extendWrap : Cursor → Option Cursor
  | ⟨⟨.num .i32WrapI64, _⟩ :: ⟨.num op, _⟩ :: seen, rest⟩ =>
    if op = .i64ExtendI32S ∨ op = .i64ExtendI32U then some ⟨seen, rest⟩ else none
  | _ => none

/-- Whether an operation turns back what a conversion to double has done.  Every 32-bit
integer is a double, so only the signs have to agree. -/
def undoes : NumOp → NumOp → Bool
  | .i32TruncSatF64S, .f64ConvertI32S | .i32TruncF64S, .f64ConvertI32S => true
  | .i32TruncSatF64U, .f64ConvertI32U | .i32TruncF64U, .f64ConvertI32U => true
  | _, _ => false

/-- The four truncations that undo a conversion. -/
theorem undoes_cases {trunc convert : NumOp} (h : undoes trunc convert) :
    (trunc = .i32TruncSatF64S ∨ trunc = .i32TruncF64S) ∧ convert = .f64ConvertI32S ∨
      (trunc = .i32TruncSatF64U ∨ trunc = .i32TruncF64U) ∧ convert = .f64ConvertI32U := by
  unfold undoes at h
  split at h
  · exact .inl ⟨.inl rfl, rfl⟩
  · exact .inl ⟨.inr rfl, rfl⟩
  · exact .inr ⟨.inl rfl, rfl⟩
  · exact .inr ⟨.inr rfl, rfl⟩
  · cases h

/-- Converting a 32-bit integer to a double and back changes nothing (`convert_trunc`), whether the
truncation saturates or traps: it never has to do either. -/
def convertTrunc : Cursor → Option Cursor
  | ⟨⟨.num trunc, _⟩ :: ⟨.num convert, _⟩ :: seen, rest⟩ =>
    if undoes trunc convert then some ⟨seen, rest⟩ else none
  | _ => none

/-- A double constant is truncated ahead of time (`fold_trunc`). Only saturating truncations are, as
the others may trap. -/
def foldTrunc : Cursor → Option Cursor
  | ⟨⟨.num op, _⟩ :: ⟨.const (.f64 x), m⟩ :: seen, rest⟩ =>
    (op.truncate? x).map fun v => ⟨seen, ⟨.const v, m⟩ :: rest⟩
  | _ => none

/-- An integer constant is converted ahead of time (`fold_convert`), with or without a sign, rounded
if it has too many digits for a double. -/
def foldConvert : Cursor → Option Cursor
  | ⟨⟨.num op, _⟩ :: ⟨.const v, m⟩ :: seen, rest⟩ =>
    (op.convert? v).map fun x => ⟨seen, ⟨.const (.f64 x), m⟩ :: rest⟩
  | _ => none

/-- A call whose results are returned at once becomes a tail call (`tail_call`).  Inside a handler
it would escape the handler, and the callee must return as many values as the function. -/
def tailCall (s : Scope) : Cursor → Option Cursor
  | ⟨⟨.ret, _⟩ :: ⟨.call target, m⟩ :: seen, rest⟩ =>
    if s.tailCalls && !(Nesting.ofReversed seen).insideTry
        && s.resultsOf target = some s.results then
      some ⟨seen, ⟨.returnCall target, m⟩ :: rest⟩
    else none
  | _ => none

/-! ## 3. Increments

The second reading is for the sum; the first one is the value of an expression that nobody wants.
The two rules differ in where they stand when they see it. -/

/-- A local that is read twice, incremented and dropped is read once (`loop_increment`).  This
rule sees the increment ahead of it, just after the end of a region that leaves two open. -/
def loopIncrement : Cursor → Option Cursor
  | ⟨⟨.localGet second, _⟩ :: ⟨.localGet first, m⟩ :: ⟨.close, m'⟩ :: seen,
      ⟨.const v, mv⟩ :: ⟨.num op, mo⟩ :: ⟨.localSet written, mw⟩ :: ⟨.drop, _⟩ :: rest⟩ =>
    if first = second ∧ written = first ∧ op.isIncrement
        ∧ (Nesting.ofReversed (⟨.close, m'⟩ :: seen)).depth = 2 then
      some ⟨⟨.localGet first, m⟩ :: ⟨.close, m'⟩ :: seen,
        ⟨.const v, mv⟩ :: ⟨.num op, mo⟩ :: ⟨.localSet written, mw⟩ :: rest⟩
    else none
  | _ => none

/-- A local that is read twice and incremented is read once, when the first reading is
discarded by a `drop` or by a branch whose label takes no value (`post_increment`). -/
def postIncrement (s : Scope) : Cursor → Option Cursor
  | ⟨last :: ⟨.localSet written, mw⟩ :: ⟨.num op, mo⟩ :: ⟨.const v, mv⟩
      :: ⟨.localGet second, m⟩ :: ⟨.localGet first, _⟩ :: seen, rest⟩ =>
    if first = second ∧ written = first ∧ op.isIncrement then
      match last.op with
      | .drop =>
        some ⟨seen, ⟨.localGet second, m⟩ :: ⟨.const v, mv⟩ :: ⟨.num op, mo⟩
          :: ⟨.localSet written, mw⟩ :: rest⟩
      | .br label =>
        if (Nesting.ofReversed seen).labelArity label s.results = 0 then
          some ⟨seen, ⟨.localGet second, m⟩ :: ⟨.const v, mv⟩ :: ⟨.num op, mo⟩
            :: ⟨.localSet written, mw⟩ :: last :: rest⟩
        else none
      | _ => none
    else none
  | _ => none

/-! ## 4. Rules that read the whole body

The first counts the readings of two locals, the second looks for the end of a region. -/

/-- A value that passes through two locals which nothing else reads stays where it is
(`param_shuffle`). -/
def paramShuffle (c : Cursor) : Option Cursor :=
  match c with
  | ⟨⟨.localGet read, _⟩ :: ⟨.localTee y, _⟩ :: ⟨.localSet x, _⟩ :: seen, rest⟩ =>
    if x = read ∧ x ≠ y ∧ c.reads x = 1 ∧ c.reads y = 0 then some ⟨seen, rest⟩ else none
  | _ => none

/-- A block that nothing inside it branches out of is replaced by its contents
(`transparent_block`).  The block of a dispatch over types stays until it is empty. -/
def transparentBlock : Cursor → Option Cursor
  | ⟨⟨.enter .block _, _⟩ :: seen, rest⟩ => do
    let k ← Body.closeOffset 1 rest
    match rest.drop k with
    | [] => none
    | last :: after =>
      if last.marker = some .typeSwitchEnd ∨ (rest.take k).any (·.op.referencesLabel) then none
      else some ⟨seen, rest.take k ++ after⟩
  | _ => none

/-! ## 5. Dispatch over runtime types

A dispatch captures the type of a value, then has a block of cases, each an `if` behind a guard on
the captured type.  The markers say where each of these begins or ends; they are believed. -/

/-- Whether straight-line code stops here, because a region begins or ends. The guard of a case is
looked for up to such a place. -/
def stopsGuard (i : Instr) : Bool := i.op.opensRegion || i.op = .close || i.op = .elseArm

/-- What follows the `else` of the region that the body is the inside of. -/
def afterElse : Nat → Body → Option Body
  | _, [] => none
  | depth, i :: rest =>
    if i.op.opensRegion then afterElse (depth + 1) rest
    else if i.op.closesRegion then afterElse (depth - 1) rest
    else if i.op = .elseArm ∧ depth = 0 then some rest
    else afterElse depth rest

/-- A case for a type that is never constructed is removed with its guard (`dead_type_case`).  If
it has another arm, that arm runs always; a block keeps the label that branches in it count on. -/
def deadTypeCase (s : Scope) : Cursor → Option Cursor
  | ⟨focus :: seen, rest⟩ =>
    match focus.marker with
    | some (.typeCase t) =>
      if s.types.isConstructed t then none
      else
        match (focus :: rest).dropWhile fun i => !stopsGuard i with
        | ⟨.enter .ifThen result, _⟩ :: inside => do
          let k ← Body.closeOffset 1 inside
          match afterElse 0 (inside.take k) with
          | some arm => some ⟨seen, (Op.enter .block result).plain :: arm ++ inside.drop k⟩
          | none => some ⟨seen, inside.drop (k + 1)⟩
        | _ => none
    | _ => none
  | _ => none

/-- A dispatch without cases only drops what it would have captured (`empty_type_switch`).  Whether
the local is read behind the dispatch is not asked. -/
def emptyTypeSwitch : Cursor → Option Cursor
  | ⟨⟨.close, some .typeSwitchEnd⟩ :: ⟨.enter .block none, _⟩
      :: ⟨.localSet _, some .typeSwitch⟩ :: seen, rest⟩ => some ⟨seen, Op.drop.plain :: rest⟩
  | _ => none

/-- The runtime type of the last value is not recorded when nothing reads it (`dead_last_type`). -/
def deadLastType (s : Scope) (c : Cursor) : Option Cursor :=
  match s.lastType, c with
  | some last, ⟨⟨.localSet l, _⟩ :: seen, rest⟩ =>
    if l = last ∧ c.reads last = 0 then some ⟨seen, Op.drop.plain :: rest⟩ else none
  | some last, ⟨⟨.localTee l, _⟩ :: seen, rest⟩ =>
    if l = last ∧ c.reads last = 0 then some ⟨seen, rest⟩ else none
  | _, _ => none

/-! ## 6. Application

One function from the name of a rule to what the rule does, so that a list of names stands for a
list of rules (`RULES`). -/

/-- Applies a rule at a cursor, if its pattern ends there. -/
def reduceAt (s : Scope) (c : Cursor) : Rule → Option Cursor
  | .setGet => setGet c
  | .getDrop => getDrop c
  | .teeDrop => teeDrop c
  | .constDrop => constDrop c
  | .eqz => eqz c
  | .extendWrap => extendWrap c
  | .convertTrunc => convertTrunc c
  | .foldTrunc => foldTrunc c
  | .foldConvert => foldConvert c
  | .tailCall => tailCall s c
  | .loopIncrement => loopIncrement c
  | .postIncrement => postIncrement s c
  | .paramShuffle => paramShuffle c
  | .transparentBlock => transparentBlock c
  | .deadTypeCase => deadTypeCase s c
  | .emptyTypeSwitch => emptyTypeSwitch c
  | .deadLastType => deadLastType s c

/-! ## 7. Progress

The two facts that a scan needs of a rule.  Rules on two instructions get them from one of two
lemmas; the rules on regions need that what is kept of a region is part of it. -/

/-- What every rule achieves: a lighter body, and a cursor not far back. -/
structure Progress (c c' : Cursor) : Prop where
  lighter : c'.weight < c.weight
  near : c'.rest.length ≤ c.rest.length + 5

/-- Two instructions that shrink to at most one lighter one. -/
theorem Progress.of_pair {x y z : Instr} {seen rest : Body}
    (h : z.op.weight < x.op.weight + y.op.weight) :
    Progress ⟨x :: y :: seen, rest⟩ ⟨seen, z :: rest⟩ :=
  ⟨by simp only [Cursor.weight, Body.weight_cons]; omega, by simp⟩

/-- Two instructions that vanish, the most common shape of a rule, and the one that needs no new
code. -/
theorem Progress.of_vanish {x y : Instr} {seen rest : Body} :
    Progress ⟨x :: y :: seen, rest⟩ ⟨seen, rest⟩ :=
  ⟨by have := x.op.two_le_weight; simp only [Cursor.weight, Body.weight_cons]; omega, by simp⟩

theorem setGet_progress {c c' : Cursor} (h : setGet c = some c') : Progress c c' := by
  unfold setGet at h
  split at h
  · split at h
    · obtain rfl := Option.some.inj h
      exact .of_pair (by simp [Op.weight, Op.isLocalSet])
    · simp at h
  · simp at h

theorem getDrop_progress {c c' : Cursor} (h : getDrop c = some c') : Progress c c' := by
  unfold getDrop at h
  split at h
  · obtain rfl := Option.some.inj h
    exact .of_vanish
  · obtain rfl := Option.some.inj h
    exact .of_vanish
  · simp at h

theorem teeDrop_progress {c c' : Cursor} (h : teeDrop c = some c') : Progress c c' := by
  unfold teeDrop at h
  split at h
  · obtain rfl := Option.some.inj h
    exact .of_pair (by simp [Op.weight, Op.isLocalSet])
  · simp at h

theorem constDrop_progress {c c' : Cursor} (h : constDrop c = some c') : Progress c c' := by
  unfold constDrop at h
  split at h
  · obtain rfl := Option.some.inj h
    exact .of_vanish
  · simp at h

theorem eqz_progress {c c' : Cursor} (h : eqz c = some c') : Progress c c' := by
  unfold eqz at h
  split at h
  · split at h
    · obtain rfl := Option.some.inj h
      exact .of_pair (by simp [Op.weight, Op.isLocalSet])
    · simp at h
  · split at h
    · obtain rfl := Option.some.inj h
      exact .of_pair (by simp [Op.weight, Op.isLocalSet])
    · simp at h
  · simp at h

theorem extendWrap_progress {c c' : Cursor} (h : extendWrap c = some c') : Progress c c' := by
  unfold extendWrap at h
  split at h
  · split at h
    · obtain rfl := Option.some.inj h
      exact .of_vanish
    · simp at h
  · simp at h

theorem convertTrunc_progress {c c' : Cursor} (h : convertTrunc c = some c') : Progress c c' := by
  unfold convertTrunc at h
  split at h
  · split at h
    · obtain rfl := Option.some.inj h
      exact .of_vanish
    · simp at h
  · simp at h

theorem foldTrunc_progress {c c' : Cursor} (h : foldTrunc c = some c') : Progress c c' := by
  unfold foldTrunc at h
  split at h
  · obtain ⟨v, -, rfl⟩ := Option.map_eq_some_iff.mp h
    exact .of_pair (by simp [Op.weight, Op.isLocalSet])
  · simp at h

theorem foldConvert_progress {c c' : Cursor} (h : foldConvert c = some c') : Progress c c' := by
  unfold foldConvert at h
  split at h
  · obtain ⟨v, -, rfl⟩ := Option.map_eq_some_iff.mp h
    exact .of_pair (by simp [Op.weight, Op.isLocalSet])
  · simp at h

theorem tailCall_progress {s : Scope} {c c' : Cursor} (h : tailCall s c = some c') :
    Progress c c' := by
  unfold tailCall at h
  split at h
  · split at h
    · obtain rfl := Option.some.inj h
      exact .of_pair (by simp [Op.weight, Op.isLocalSet])
    · simp at h
  · simp at h

theorem loopIncrement_progress {c c' : Cursor} (h : loopIncrement c = some c') :
    Progress c c' := by
  unfold loopIncrement at h
  split at h
  · split at h
    · obtain rfl := Option.some.inj h
      refine ⟨?_, by simp⟩
      simp only [Cursor.weight, Body.weight_cons, Op.weight_drop, Op.weight_localGet]
      omega
    · simp at h
  · simp at h

theorem postIncrement_progress {s : Scope} {c c' : Cursor} (h : postIncrement s c = some c') :
    Progress c c' := by
  unfold postIncrement at h
  split at h
  · rename_i last _ _ _ _ _ _ _ _ _ _ _ _
    have hlast := last.op.two_le_weight
    split at h
    · split at h
      · obtain rfl := Option.some.inj h
        refine ⟨?_, by simp⟩
        simp only [Cursor.weight, Body.weight_cons, Op.weight_localGet]
        omega
      · split at h
        · obtain rfl := Option.some.inj h
          refine ⟨?_, by simp⟩
          simp only [Cursor.weight, Body.weight_cons, Op.weight_localGet]
          omega
        · simp at h
      · simp at h
    · simp at h
  · simp at h

theorem paramShuffle_progress {c c' : Cursor} (h : paramShuffle c = some c') :
    Progress c c' := by
  unfold paramShuffle at h
  split at h
  · split at h
    · obtain rfl := Option.some.inj h
      refine ⟨?_, by simp⟩
      simp only [Cursor.weight, Body.weight_cons, Op.weight_localGet]
      omega
    · simp at h
  · simp at h

theorem transparentBlock_progress {c c' : Cursor} (h : transparentBlock c = some c') :
    Progress c c' := by
  unfold transparentBlock at h
  split at h
  · rename_i result m seen rest
    obtain ⟨k, -, h⟩ := Option.bind_eq_some_iff.mp h
    split at h
    · simp at h
    · rename_i last after hdrop
      split at h
      · simp at h
      · obtain rfl := Option.some.inj h
        have hw := Body.weight_take_add_drop k rest
        have hl : (rest.take k).length + (rest.drop k).length = rest.length := by
          rw [← List.length_append, List.take_append_drop]
        rw [hdrop] at hw hl
        simp only [Body.weight_cons, List.length_cons] at hw hl
        constructor
        · simp only [Cursor.weight, Body.weight_cons, Body.weight_append, Op.weight_enter]
          omega
        · simp only [List.length_append]
          omega
  · simp at h

/-- What follows an `else` is part of what stood around it, and the `else` is left out. -/
theorem weight_of_afterElse : ∀ {depth : Nat} {body arm : Body},
    afterElse depth body = some arm → arm.weight + 2 ≤ body.weight ∧ arm.length < body.length
  | _, [], _, h => by simp [afterElse] at h
  | depth, i :: rest, arm, h => by
    have hi := i.op.two_le_weight
    simp only [afterElse] at h
    simp only [Body.weight_cons, List.length_cons]
    split at h
    · have := weight_of_afterElse h; omega
    · split at h
      · have := weight_of_afterElse h; omega
      · split at h
        · obtain rfl := Option.some.inj h; omega
        · have := weight_of_afterElse h; omega

theorem weight_dropWhile_le (p : Instr → Bool) : ∀ body : Body,
    Body.weight (body.dropWhile p) ≤ body.weight ∧ (body.dropWhile p).length ≤ body.length
  | [] => by simp
  | i :: rest => by
    have := weight_dropWhile_le p rest
    simp only [List.dropWhile_cons]
    split
    · simp only [Body.weight_cons, List.length_cons]; omega
    · simp

theorem deadTypeCase_progress {s : Scope} {c c' : Cursor} (h : deadTypeCase s c = some c') :
    Progress c c' := by
  unfold deadTypeCase at h
  split at h
  · rename_i focus seen rest
    split at h
    · split at h
      · simp at h
      · split at h
        · rename_i result m inside hinside
          obtain ⟨k, hk, h⟩ := Option.bind_eq_some_iff.mp h
          have hd := weight_dropWhile_le (fun i => !stopsGuard i) (focus :: rest)
          rw [hinside] at hd
          have hw := Body.weight_take_add_drop k inside
          have hlt := Body.closeOffset_lt hk
          simp only [Body.weight_cons, List.length_cons, Op.weight_enter] at hd
          split at h
          · rename_i arm harm
            obtain rfl := Option.some.inj h
            have ha := weight_of_afterElse harm
            have := ha.2
            simp only [List.length_take] at this
            constructor
            · simp only [Cursor.weight, Body.weight_cons, Body.weight_append, Op.op_plain,
                Op.weight_enter]
              omega
            · simp only [List.length_cons, List.length_append, List.length_drop]
              omega
          · obtain rfl := Option.some.inj h
            have hw' := Body.weight_take_add_drop (k + 1) inside
            constructor
            · simp only [Cursor.weight, Body.weight_cons]
              omega
            · simp only [List.length_drop]
              omega
        · simp at h
    · simp at h
  · simp at h

theorem emptyTypeSwitch_progress {c c' : Cursor} (h : emptyTypeSwitch c = some c') :
    Progress c c' := by
  unfold emptyTypeSwitch at h
  split at h
  · obtain rfl := Option.some.inj h
    refine ⟨?_, by simp⟩
    simp only [Cursor.weight, Body.weight_cons, Op.op_plain, Op.weight_drop, Op.weight_localSet]
    omega
  · simp at h

theorem deadLastType_progress {s : Scope} {c c' : Cursor} (h : deadLastType s c = some c') :
    Progress c c' := by
  unfold deadLastType at h
  split at h
  · split at h
    · obtain rfl := Option.some.inj h
      refine ⟨?_, by simp⟩
      simp only [Cursor.weight, Body.weight_cons, Op.op_plain, Op.weight_drop, Op.weight_localSet]
      omega
    · simp at h
  · split at h
    · obtain rfl := Option.some.inj h
      refine ⟨?_, by simp⟩
      simp only [Cursor.weight, Body.weight_cons, Op.weight_localTee]
      omega
    · simp at h
  · simp at h

/-- Every rule makes progress: it lowers the weight, and puts at most five instructions more before
the cursor than there were. One lemma for each rule stands before it. -/
theorem reduceAt_progress {s : Scope} {c c' : Cursor} {r : Rule} (h : reduceAt s c r = some c') :
    Progress c c' := by
  cases r with
  | setGet => exact setGet_progress h
  | getDrop => exact getDrop_progress h
  | teeDrop => exact teeDrop_progress h
  | constDrop => exact constDrop_progress h
  | eqz => exact eqz_progress h
  | extendWrap => exact extendWrap_progress h
  | convertTrunc => exact convertTrunc_progress h
  | foldTrunc => exact foldTrunc_progress h
  | foldConvert => exact foldConvert_progress h
  | tailCall => exact tailCall_progress h
  | loopIncrement => exact loopIncrement_progress h
  | postIncrement => exact postIncrement_progress h
  | paramShuffle => exact paramShuffle_progress h
  | transparentBlock => exact transparentBlock_progress h
  | deadTypeCase => exact deadTypeCase_progress h
  | emptyTypeSwitch => exact emptyTypeSwitch_progress h
  | deadLastType => exact deadLastType_progress h

end WasmTrim.Peephole
