/-
# The names of the peephole rules

The rules in the order in which they are tried (`RULES`).  What each of them does is defined in
`WasmTrim.Peephole.Reduction`; here are only their names, since the log needs them and the rules
do not need the log.

The order decides which rule is applied where several match.  They can: a `local.get` behind a
`local.set` of the same local may also begin the guard of a case that is never taken.  Whatever
the order, a scan ends and keeps the meaning of the body; which body it ends with depends on it.
-/

namespace WasmTrim.Peephole

/-- A peephole rule, named as in `RULES` but for the hyphens. -/
inductive Rule where
  | setGet
  | getDrop
  | teeDrop
  | constDrop
  | eqz
  | extendWrap
  | convertTrunc
  | foldTrunc
  | foldConvert
  | tailCall
  | loopIncrement
  | postIncrement
  | paramShuffle
  | transparentBlock
  | deadTypeCase
  | emptyTypeSwitch
  | deadLastType
deriving DecidableEq

namespace Rule

/-- Every rule, in the order in which they are tried. -/
def all : List Rule :=
  [setGet, getDrop, teeDrop, constDrop, eqz, extendWrap, convertTrunc, foldTrunc, foldConvert,
   tailCall, loopIncrement, postIncrement, paramShuffle, transparentBlock, deadTypeCase,
   emptyTypeSwitch, deadLastType]

theorem mem_all (r : Rule) : r ∈ all := by cases r <;> decide

/-- The name of a rule in the log, as it stands in the table of rules (`RULES`). -/
def name : Rule → String
  | setGet => "set-get"
  | getDrop => "get-drop"
  | teeDrop => "tee-drop"
  | constDrop => "const-drop"
  | eqz => "eqz"
  | extendWrap => "extend-wrap"
  | convertTrunc => "convert-trunc"
  | foldTrunc => "fold-trunc"
  | foldConvert => "fold-convert"
  | tailCall => "tail-call"
  | loopIncrement => "loop-increment"
  | postIncrement => "post-increment"
  | paramShuffle => "param-shuffle"
  | transparentBlock => "transparent-block"
  | deadTypeCase => "dead-type-case"
  | emptyTypeSwitch => "empty-type-switch"
  | deadLastType => "dead-last-type"

end Rule

end WasmTrim.Peephole
