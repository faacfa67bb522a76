/-
# Instructions as text

The one-line form of an instruction that log messages and error messages quote: its mnemonic,
its immediates separated by blanks, and, after two semicolons, its marker.

Two messages quote an operation.  The report on a folded pair of constants quotes the constants,
the operation and the result, and the refusal of a global whose initializer is not a constant
quotes that initializer.  What the quoted text says is therefore part of what the program
answers, and it is given here once.

Integers are written as signed numbers, doubles with the fewest digits that read back.  The text
is not meant to be read back: the alignment of a memory access is left out, and so is an offset
of zero.
-/
import WasmTrim.F64.Decimal
import WasmTrim.Instr.Basic

namespace WasmTrim

/-! ## 1. Mnemonics

The openers and the memory accesses have one mnemonic for each of their immediates; every other
operation has one. -/

/-- The name of the operation that opens a region. -/
def RegionKind.mnemonic : RegionKind → String
  | .block => "block"
  | .loop => "loop"
  | .ifThen => "if"
  | .tryCatch => "try"

/-- The name of the operation that loads. -/
def Access.loadMnemonic : Access → String
  | .i32 => "i32.load"
  | .i64 => "i64.load"
  | .f64 => "f64.load"
  | .i32Byte => "i32.load8_u"
  | .i32Half => "i32.load16_u"

/-- The name of the operation that stores. -/
def Access.storeMnemonic : Access → String
  | .i32 => "i32.store"
  | .i64 => "i64.store"
  | .f64 => "f64.store"
  | .i32Byte => "i32.store8"
  | .i32Half => "i32.store16"

/-- The name of an operation in the text format. -/
def Op.mnemonic : Op → String
  | .unreachable => "unreachable"
  | .nop => "nop"
  | .enter kind _ => kind.mnemonic
  | .elseArm => "else"
  | .close => "end"
  | .br _ => "br"
  | .brIf _ => "br_if"
  | .brTable _ _ => "br_table"
  | .ret => "return"
  | .call _ => "call"
  | .returnCall _ => "return_call"
  | .catchTag _ => "catch"
  | .catchAll => "catch_all"
  | .throwTag _ => "throw"
  | .rethrow _ => "rethrow"
  | .delegate _ => "delegate"
  | .drop => "drop"
  | .select => "select"
  | .localGet _ => "local.get"
  | .localSet _ => "local.set"
  | .localTee _ => "local.tee"
  | .globalGet _ => "global.get"
  | .globalSet _ => "global.set"
  | .load access _ => access.loadMnemonic
  | .store access _ => access.storeMnemonic
  | .memorySize => "memory.size"
  | .memoryGrow => "memory.grow"
  | .const v => v.type.name ++ ".const"
  | .num op => op.mnemonic

/-! ## 2. Immediates

The result of a region is written in the spelling of its derived text, with a capital letter. -/

/-- A value: integers are signed, doubles have the fewest digits that read back. -/
def Value.text : Value → String
  | .i32 bits => toString bits.toInt
  | .i64 bits => toString bits.toInt
  | .f64 number => number.text

/-- The immediates of an operation, each after a blank.  A memory access shows its offset
unless that is zero, and never its alignment. -/
def Op.immediates : Op → String
  | .enter _ (some t) => " (result " ++ t.label ++ ")"
  | .br n | .brIf n | .call n | .returnCall n | .catchTag n | .throwTag n | .rethrow n
  | .delegate n | .localGet n | .localSet n | .localTee n | .globalGet n | .globalSet n =>
    " " ++ toString n
  | .brTable targets fallback =>
    " " ++ " ".intercalate (targets.map toString) ++ " " ++ toString fallback
  | .load _ arg | .store _ arg =>
    if arg.offset = 0 then "" else " offset=" ++ toString arg.offset
  | .const v => " " ++ v.text
  | _ => ""

/-- An operation with its immediates, as it is shown in the log and in the error about an
initializer. -/
def Op.text (op : Op) : String := op.mnemonic ++ op.immediates

/-! ## 3. Markers

The text of a marker is that of its constructor, with the type in brackets for the one that has
one. -/

/-- The name of a marker. -/
def Marker.text : Marker → String
  | .typeSwitch => "TypeSwitch"
  | .typeCase t => "TypeCase(" ++ t.name ++ ")"
  | .typeSwitchEnd => "TypeSwitchEnd"

/-- An instruction with its marker, as in `end ;; TypeSwitchEnd`. -/
def Instr.text (i : Instr) : String :=
  match i.marker with
  | none => i.op.text
  | some m => i.op.text ++ " ;; " ++ m.text

end WasmTrim
