/-
# Inlining by position

The height of the stack is followed by jumping over regions to the positions of their ends; a final
`return` is cut off by the length of the body; a call is removed at its position and the code for it
put there, after which the loop goes on behind that code; the local of each argument is written into
a list by its position; a function is taken out of the table at the position where it was found.

All of this goes through, except that there may be no index for another local, which is refused here
as it is by the inlining of the library (`inlineFunctionsAt_eq`).

The argument follows the pass from the inside out.  A loop over positions is compared with a
recursion on the rest of the list by cutting the body at the position, once for the height of the
stack (`stack_height`), once for the calls (`inline_call_sites`).  What is built on the loops needs
no more cutting: the functions of a program are gone through in order, and a step that reports
something reports the same in both forms.

A call is replaced behind the code for the calls before it, so the body that the loop holds is not
the body of the caller any more.  The lemma on that loop (`expandAt_eq`) says what it does with
anything at all in front.
-/
import WasmTrim.Inline.Pass
import WasmTrim.Proofs.Positional.Passes

namespace WasmTrim.Positional

open Inline

/-! ## 1. The height of the stack

At an opener the position jumps to its closer and the height is not followed inside
(`stack_height`). -/

/-- The height at the end of a body, from a position and the height there. -/
def heightAt (signatureOf : Nat → Option Signature) (body : Body) (i height : Nat) :
    Checked (Option Nat) :=
  if _h : i < body.length then do
    let x ← item body i
    match x.op with
    | .enter kind result => do
      match ← matchingEnd body i with
      | none => .ok none
      | some last =>
        match shiftHeight height (kind.operandCount, result.arity) with
        | none => .ok none
        | some height =>
          if _lower : body.length - (last + 1) < body.length - i then
            heightAt signatureOf body (last + 1) height
          else .error .stalled
    | .call target =>
      match signatureOf target with
      | none => .ok none
      | some s =>
        match shiftHeight height (s.params.length, s.result.arity) with
        | none => .ok none
        | some height => heightAt signatureOf body (i + 1) height
    | op =>
      match op.stackEffect? with
      | none => .ok none
      | some effect =>
        match shiftHeight height effect with
        | none => .ok none
        | some height => heightAt signatureOf body (i + 1) height
  else .ok (some height)
termination_by body.length - i

theorem heightAt_eq (signatureOf : Nat → Option Signature) (a rest : Body) (height : Nat) :
    heightAt signatureOf (a ++ rest) a.length height
      = .ok (rest.heightFrom signatureOf height) := by
  fun_induction Body.heightFrom signatureOf height rest generalizing a with
  | case1 height =>
    rw [heightAt, dif_neg (by simp)]
  | case2 height x rest kind result hx ih =>
    obtain ⟨op, m⟩ := x
    obtain rfl : op = .enter kind result := hx
    have hitem : item (a ++ ⟨.enter kind result, m⟩ :: rest) a.length
        = .ok ⟨.enter kind result, m⟩ := item_at a _ rest rfl rfl
    rw [heightAt, dif_pos (by simp)]
    simp only [hitem, bind, Except.bind, matchingEnd_enter a rest rfl rfl]
    cases hk : Body.closeOffset 1 rest with
    | none => rfl
    | some k =>
      obtain ⟨inside, close, after, rfl, rfl⟩ := cut_of_closeOffset hk
      simp only [Option.map_some, Option.bind_some]
      cases shiftHeight height (kind.operandCount, result.arity) with
      | none => rfl
      | some height =>
        have hdone : (inside ++ close :: after).drop (inside.length + 1) = after := by
          simp [List.drop_append]
        have hnext := ih inside.length height (a ++ (⟨.enter kind result, m⟩ : Instr)
          :: (inside ++ [close]))
        rw [hdone] at hnext
        have hbody : a ++ (⟨.enter kind result, m⟩ : Instr) :: (inside ++ [close]) ++ after
            = a ++ ⟨.enter kind result, m⟩ :: (inside ++ close :: after) := by simp
        have hlast : (a ++ (⟨.enter kind result, m⟩ : Instr) :: (inside ++ [close])).length
            = a.length + 1 + inside.length + 1 := by
          simp only [List.length_append, List.length_cons, List.length_nil]
          omega
        rw [hbody, hlast] at hnext
        have hlt : a.length
            < (a ++ (⟨.enter kind result, m⟩ : Instr) :: (inside ++ close :: after)).length := by
          simp
        dsimp only
        rw [dif_pos (by omega), hnext, hdone]
        rfl
  | case3 height x rest target hx ih =>
    have hnext : ∀ height, heightAt signatureOf (a ++ x :: rest) (a.length + 1) height
        = .ok (Body.heightFrom signatureOf height rest) :=
      fun height => by simpa using ih height (a ++ [x])
    obtain ⟨op, m⟩ := x
    obtain rfl : op = .call target := hx
    have hitem : item (a ++ ⟨.call target, m⟩ :: rest) a.length = .ok ⟨.call target, m⟩ :=
      item_at a _ rest rfl rfl
    rw [heightAt, dif_pos (by simp)]
    simp only [hitem, bind, Except.bind]
    cases signatureOf target with
    | none => rfl
    | some s =>
      dsimp only [Option.bind]
      cases shiftHeight height (s.params.length, s.result.arity) with
      | none => rfl
      | some height => exact hnext height
  | case4 height x rest hregion hcall ih =>
    have hitem : item (a ++ x :: rest) a.length = .ok x := item_at a x rest rfl rfl
    rw [heightAt, dif_pos (by simp)]
    simp only [hitem, bind, Except.bind]
    cases x.op.stackEffect? with
    | none => rfl
    | some effect =>
      dsimp only [Option.bind]
      cases shiftHeight height effect with
      | none => rfl
      | some height => simpa using ih height (a ++ [x])

/-! ## 2. The body of a callee

A final `return` stands at the last position, which is the length less one; there is one only if the
body is not empty (`prepare_body`). -/

/-- The body without a final `return` that does nothing. What stands before the `return` is a slice
up to the length less one (`prepare_body`). -/
def withoutFinalReturnAt (signatureOf : Nat → Option Signature) (f : Function) : Checked Body :=
  if f.body.getLast?.map Instr.op = some .ret then do
    let last ← sub f.body.length 1
    let before ← slice f.body 0 last
    let height ← heightAt signatureOf before 0 0
    if height = some f.result.arity then remove f.body last else .ok f.body
  else .ok f.body

theorem withoutFinalReturnAt_eq (signatureOf : Nat → Option Signature) (f : Function) :
    withoutFinalReturnAt signatureOf f = .ok (f.withoutFinalReturn signatureOf) := by
  unfold withoutFinalReturnAt Function.withoutFinalReturn
  by_cases hlast : f.body.getLast?.map Instr.op = some .ret
  · rw [if_pos hlast]
    obtain ⟨x, hx, -⟩ := Option.map_eq_some_iff.mp hlast
    obtain ⟨before, hbody⟩ := List.getLast?_eq_some_iff.mp hx
    have hsub : sub f.body.length 1 = .ok before.length := by
      rw [hbody, List.length_append, List.length_singleton, sub_add]
    have hslice : slice f.body 0 before.length = .ok before :=
      slice_at [] before [x] hbody rfl (by simp)
    have hremove : remove f.body before.length = .ok (before ++ []) :=
      remove_at before x [] hbody rfl
    have hheight := heightAt_eq signatureOf [] before 0
    simp only [List.nil_append, List.length_nil] at hheight
    simp only [hsub, hslice, hheight, hremove, bind, Except.bind, List.append_nil, hlast, true_and]
    rw [hbody, List.dropLast_concat]
    exact (apply_ite Except.ok _ _ _).symm
  · rw [if_neg hlast, if_neg fun h => hlast h.1]

/-- The body of a function in a form that can stand for a call of it. -/
def preparedBodyAt (signatureOf : Nat → Option Signature) (f : Function) : Checked Body := do
  let body ← withoutFinalReturnAt signatureOf f
  return if body.exitsEarly [] then body.wrapped f.result else body

theorem preparedBodyAt_eq (signatureOf : Nat → Option Signature) (f : Function) :
    preparedBodyAt signatureOf f = .ok (f.preparedBody signatureOf) := by
  rw [preparedBodyAt, withoutFinalReturnAt_eq]
  rfl

/-! ## 3. The locals of the arguments

The last argument lies on top of the stack and is stored first, so the locals are declared from the
last one on, while the list of their indices is written by the positions of the parameters. -/

/-- Declares the locals for the first parameters, the last one first, and writes their indices into
a list. -/
def bindArguments (callee : Function) : Nat → LocalTable → List Nat →
    Checked (LocalTable × List Nat)
  | 0, locals, arguments => .ok (locals, arguments)
  | j + 1, locals, arguments => do
    let type ← item callee.params j
    let (locals, index) ← ofFault (locals.declare (argumentName callee.name j) type)
    let arguments ← put arguments j index
    bindArguments callee j locals arguments

/-- The locals of the last parameters are declared before those of the first. -/
theorem declareArguments_append (name : String) (types : List ValueType) :
    ∀ (first : List ValueType) (position : Nat) (locals : LocalTable),
    declareArguments name (first ++ types) position locals = do
      let (locals, later) ← declareArguments name types (position + first.length) locals
      let (locals, earlier) ← declareArguments name first position locals
      return (locals, earlier ++ later)
  | [], position, locals => by
    simp only [List.nil_append, declareArguments, bind, Except.bind, List.length_nil,
      Nat.add_zero]
    cases declareArguments name types position locals <;> rfl
  | type :: first, position, locals => by
    simp only [List.cons_append, declareArguments, declareArguments_append name types first,
      List.length_cons, show position + 1 + first.length = position + (first.length + 1) by omega,
      bind, Except.bind]
    cases declareArguments name types (position + (first.length + 1)) locals with
    | error e => rfl
    | ok r =>
      dsimp only [pure, Except.pure]
      cases declareArguments name first (position + 1) r.1 with
      | error e => rfl
      | ok r' =>
        dsimp only
        cases r'.1.declare (argumentName name position) type <;> rfl

theorem bindArguments_append (callee : Function) (later : List Nat) :
    ∀ (n : Nat) (first rest : List ValueType), first.length = n → callee.params = first ++ rest →
      ∀ locals : LocalTable, bindArguments callee n locals (List.replicate n 0 ++ later)
        = ofFault (do
            let (locals, earlier) ← declareArguments callee.name first 0 locals
            return (locals, earlier ++ later))
  | 0, first, rest, hn, _, locals => by
    obtain rfl := List.length_eq_zero_iff.mp hn
    rfl
  | n + 1, first, rest, hn, hparams, locals => by
    obtain ⟨init, type, rfl⟩ : ∃ init type, first = init ++ [type] :=
      ⟨_, _, (List.dropLast_concat_getLast (List.ne_nil_of_length_eq_add_one hn)).symm⟩
    have hlength : init.length = n := by simpa using hn
    have hitem : item callee.params n = .ok type :=
      item_at init type rest (by rw [hparams, List.append_assoc, List.singleton_append])
        hlength.symm
    have hzeros : List.replicate (n + 1) 0 ++ later = List.replicate n 0 ++ 0 :: later := by
      rw [List.replicate_succ', List.append_assoc, List.singleton_append]
    have hput : ∀ index, put (List.replicate n 0 ++ 0 :: later) n index
        = .ok (List.replicate n 0 ++ index :: later) :=
      fun index => put_at _ 0 later rfl (by simp) index
    simp only [bindArguments, hitem, hzeros, bind, Except.bind, declareArguments_append,
      declareArguments, Nat.zero_add, hlength]
    cases locals.declare (argumentName callee.name n) type with
    | error e => rfl
    | ok r =>
      have ih := bindArguments_append callee (r.2 :: later) n init (type :: rest) hlength
        (by rw [hparams, List.append_assoc, List.singleton_append]) r.1
      simp only [ofFault_ok, hput, ih, bind, Except.bind, pure, Except.pure]
      cases declareArguments callee.name init 0 r.1 with
      | error e => rfl
      | ok r' => simp only [ofFault_ok, List.append_assoc, List.singleton_append]

theorem bindArguments_eq (callee : Function) (locals : LocalTable) :
    bindArguments callee callee.params.length locals (List.replicate callee.params.length 0)
      = ofFault (declareArguments callee.name callee.params 0 locals) := by
  have h := bindArguments_append callee [] _ callee.params [] rfl (by simp) locals
  simp only [List.append_nil, bind, Except.bind, pure, Except.pure] at h
  rw [h]
  cases declareArguments callee.name callee.params 0 locals <;> rfl

/-! ## 4. Replacing calls

A call is found by its target, the code is put at its position, and the loop goes on behind that
code: a call of the callee by itself, which is never inlined, would otherwise be replaced without
end. -/

/-- Replaces every call of the callee from a position on. -/
def expandAt (verbose : Bool) (callee : Function) (prepared : Body) (caller : String) (body : Body)
    (i : Nat) (locals : LocalTable) : Checked Expansion :=
  if _h : i < body.length then do
    let x ← item body i
    if x.op = .call callee.index then do
      let cut ← remove body i
      let (locals, arguments) ← bindArguments callee callee.params.length locals
        (List.replicate callee.params.length 0)
      let code := callCode prepared arguments
      let body' ← splice cut i i code
      if _lower : body'.length - (i + code.length) < body.length - i then do
        let out ← expandAt verbose callee prepared caller body' (i + code.length) locals
        return { out with
          sites := out.sites + 1
          trace := note verbose (.inlining callee.name caller)
            ++ (prepared.filterMap (renamed? arguments)).flatMap (note verbose) ++ out.trace }
      else .error .stalled
    else expandAt verbose callee prepared caller body (i + 1) locals
  else .ok ⟨body, locals, 0, []⟩
termination_by body.length - i

theorem renamed?_isWarning {arguments : List Nat} {i : Instr} {e : Event}
    (h : renamed? arguments i = some e) : e.isWarning = false := by
  simp only [renamed?, bind, Option.bind_eq_some_iff, pure, Option.some.injEq] at h
  obtain ⟨old, -, new, -, rfl⟩ := h
  rfl

/-- **Replacing calls by position** gives what replacing them in the rest of the body gives,
whatever stands in front of the position. The locals are carried along from one call to the next in
both. -/
theorem expandAt_eq (verbose : Bool) (callee : Function) (prepared : Body) (caller : String) :
    ∀ (rest done : Body) (locals : LocalTable),
      expandAt verbose callee prepared caller (done ++ rest) done.length locals
        = ofFault ((expandCalls callee prepared caller rest locals).map fun out =>
            { out with body := done ++ out.body, trace := out.trace.shown verbose })
  | [], done, locals => by
    rw [expandAt, dif_neg (by simp)]
    rfl
  | x :: rest, done, locals => by
    have hitem : item (done ++ x :: rest) done.length = .ok x := item_at done x rest rfl rfl
    rw [expandAt, dif_pos (by simp)]
    simp only [hitem, bind, Except.bind, expandCalls]
    by_cases hcall : x.op = .call callee.index
    · have hcut : remove (done ++ x :: rest) done.length = .ok (done ++ rest) :=
        remove_at done x rest rfl rfl
      rw [if_pos hcall, if_pos hcall, hcut, bindArguments_eq]
      cases declareArguments callee.name callee.params 0 locals with
      | error e => rfl
      | ok r =>
        have hsplice : splice (done ++ rest) done.length done.length (callCode prepared r.2)
            = .ok (done ++ callCode prepared r.2 ++ rest) := splice_at done [] rest rfl rfl rfl _
        have ih := expandAt_eq verbose callee prepared caller rest
          (done ++ callCode prepared r.2) r.1
        simp only [List.length_append] at ih
        simp only [ofFault_ok, hsplice]
        rw [dif_pos (by simp only [List.length_append, List.length_cons]; omega), ih]
        cases expandCalls callee prepared caller rest r.1 with
        | error e => rfl
        | ok out =>
          have hrenamed : ∀ e ∈ prepared.filterMap (renamed? r.2), e.isWarning = false := by
            intro e he
            obtain ⟨i, -, hi⟩ := List.mem_filterMap.mp he
            exact renamed?_isWarning hi
          simp only [Except.map, ofFault_ok, pure, Except.pure, flatMap_note verbose hrenamed,
            List.append_assoc]
          rw [note_eq rfl, ← Trace.shown_append, ← Trace.shown_append]
          rfl
    · have ih := expandAt_eq verbose callee prepared caller rest (done ++ [x]) locals
      simp only [List.append_assoc, List.singleton_append, List.length_append,
        List.length_singleton] at ih
      rw [if_neg hcall, if_neg hcall, ih]
      cases expandCalls callee prepared caller rest locals <;> rfl

/-- Replaces every call of the callee in a caller (`inline_call_sites`). The caller is handed the
flag of the callee for memory if there was a call. -/
def inlineIntoAt (verbose : Bool) (callee : Function) (prepared : Body) (caller : Function) :
    Checked (Function × Trace) := do
  let out ← expandAt verbose callee prepared caller.name caller.body 0 caller.locals
  return ({ caller with
      body := out.body
      locals := out.locals
      usesMemory := caller.usesMemory || (0 < out.sites && callee.usesMemory) }, out.trace)

/-- What is shown of the outcome of a computation: its result, and those of its events that are
reported. -/
def shownOf {α : Type} (verbose : Bool) (r : Except Fault (α × Trace)) : Checked (α × Trace) :=
  ofFault (r.map fun out => (out.1, out.2.shown verbose))

@[simp] theorem shownOf_ok {α : Type} (verbose : Bool) (r : α × Trace) :
    shownOf verbose (.ok r) = .ok (r.1, r.2.shown verbose) := rfl

@[simp] theorem shownOf_error {α : Type} (verbose : Bool) (e : Fault) :
    shownOf verbose (.error e : Except Fault (α × Trace)) = .error (.fault e) := rfl

theorem inlineIntoAt_eq (verbose : Bool) (callee : Function) (prepared : Body) (caller : Function) :
    inlineIntoAt verbose callee prepared caller
      = shownOf verbose (inlineInto callee prepared caller) := by
  have h := expandAt_eq verbose callee prepared caller.name caller.body [] caller.locals
  simp only [List.nil_append, List.length_nil] at h
  simp only [inlineIntoAt, inlineInto, h, bind, Except.bind]
  cases expandCalls callee prepared caller.name caller.body caller.locals <;> rfl

/-- Replaces the calls of the callee in every function but itself, one function after the other
(`inline_functions`). The first refusal ends it. -/
def inlineIntoAllAt (verbose : Bool) (callee : Function) (prepared : Body) :
    List Function → Checked (List Function × Trace)
  | [] => .ok ([], [])
  | f :: fs =>
    if f.index = callee.index then do
      let (fs, t) ← inlineIntoAllAt verbose callee prepared fs
      return (f :: fs, t)
    else do
      let (f, t) ← inlineIntoAt verbose callee prepared f
      let (fs, t') ← inlineIntoAllAt verbose callee prepared fs
      return (f :: fs, t ++ t')

theorem inlineIntoAllAt_eq (verbose : Bool) (callee : Function) (prepared : Body) :
    ∀ fs : List Function, inlineIntoAllAt verbose callee prepared fs
      = shownOf verbose (inlineIntoAll callee prepared fs)
  | [] => rfl
  | f :: fs => by
    simp only [inlineIntoAllAt, inlineIntoAll, inlineIntoAllAt_eq verbose callee prepared fs,
      inlineIntoAt_eq, bind, Except.bind]
    split
    · cases inlineIntoAll callee prepared fs <;> rfl
    · cases inlineInto callee prepared f with
      | error e => rfl
      | ok r =>
        cases inlineIntoAll callee prepared fs with
        | error e => rfl
        | ok r' => simp only [shownOf_ok, pure, Except.pure, Trace.shown_append]

/-! ## 5. Removing a function

The function is found in the table by its index and taken out, and the functions behind it and all
calls get new numbers (`remove_function`). -/

/-- Renumbers a function and its calls, after another function has been taken out
(`remove_function`). -/
def remapFunction (c : Compaction) (f : Function) : Checked Function := do
  let index ← remapOperand c f.index
  let body ← f.body.mapM (remapCall c)
  return { f with index, body }

theorem remapFunction_eq (c : Compaction) (f : Function) :
    remapFunction c f = .ok (f.compactCalls c) := by
  simp only [remapFunction, remapOperand_eq, mapM_ok (remapCall_eq c), bind, Except.bind]
  rfl

/-- Takes the function with the given index out of the program, if there is one (`remove_function`):
it is looked for, removed at its position, and the others are renumbered. -/
def removeFunctionAt (p : Program) (index : Nat) : Checked Program :=
  match p.functions.findIdx? (Function.hasIndex index) with
  | none => .ok p
  | some position => do
    let rest ← remove p.functions position
    let functions ← rest.mapM (remapFunction (.removing [index]))
    return { p with functions }

theorem removeFunctionAt_eq (p : Program) (index : Nat) :
    removeFunctionAt p index = .ok (p.withoutFunction index) := by
  unfold removeFunctionAt Program.withoutFunction Program.removeFunction
  cases hposition : p.functions.findIdx? (Function.hasIndex index) with
  | none =>
    have hfind : p.functions.find? (Function.hasIndex index) = none := by
      rw [List.find?_eq_none]
      simpa using List.findIdx?_eq_none_iff.mp hposition
    rw [hfind]
  | some position =>
    obtain ⟨hlt, hhas, -⟩ := List.findIdx?_eq_some_iff_getElem.mp hposition
    have hremove : remove p.functions position
        = .ok (p.functions.eraseP (Function.hasIndex index)) := by
      rw [remove, if_pos hlt, List.eraseP_eq_eraseIdx, hposition]
    cases hfind : p.functions.find? (Function.hasIndex index) with
    | none =>
      exact absurd hhas (by simpa using List.find?_eq_none.mp hfind _ (List.getElem_mem hlt))
    | some f =>
      simp only [hremove, mapM_ok (remapFunction_eq _), bind, Except.bind]
      rfl

/-- Replaces all calls of the callee and removes it from the program. This is the work done for one
candidate (`inline_functions`). -/
def inlineCalleeAt (verbose : Bool) (p : Program) (callee : Function) :
    Checked (Program × Trace) := do
  let prepared ← preparedBodyAt p.signatureAt? callee
  let (functions, t) ← inlineIntoAllAt verbose callee prepared p.functions
  let p ← removeFunctionAt { p with functions } callee.index
  return (p, t)

theorem inlineCalleeAt_eq (verbose : Bool) (p : Program) (callee : Function) :
    inlineCalleeAt verbose p callee = shownOf verbose (inlineCallee p callee) := by
  simp only [inlineCalleeAt, inlineCallee, preparedBodyAt_eq, inlineIntoAllAt_eq,
    removeFunctionAt_eq, bind, Except.bind]
  cases inlineIntoAll callee (callee.preparedBody p.signatureAt?) p.functions <;> rfl

/-! ## 6. The pass

The whole of it (`inline_functions`), with the reports on what is not inlined, and why, made only
where everything is to be reported. -/

/-- Inlines the named functions in turn, as far as they can still be inlined. -/
def inlineEachAt (verbose : Bool) : List String → Program → Checked ((Program × Bool) × Trace)
  | [], p => .ok ((p, false), [])
  | name :: names, p =>
    match p.functionNamed? name with
    | none => inlineEachAt verbose names p
    | some callee =>
      match callee.obstacles p.tailCallTargets with
      | [] => do
        let (p, t) ← inlineCalleeAt verbose p callee
        let ((p, _), t') ← inlineEachAt verbose names p
        return ((p, true), t ++ t')
      | obstacles => do
        let report := note verbose (.noLongerInlining callee.name obstacles)
        let (r, t) ← inlineEachAt verbose names p
        return (r, report ++ t)

/-- A triple as a pair, so that the events stand last, where `shownOf` expects them. -/
def regroup {α β γ : Type} (r : Except Fault (α × β × γ)) : Except Fault ((α × β) × γ) :=
  r.map fun out => ((out.1, out.2.1), out.2.2)

theorem inlineEachAt_eq (verbose : Bool) : ∀ (names : List String) (p : Program),
    inlineEachAt verbose names p = shownOf verbose (regroup (inlineEach names p))
  | [], p => rfl
  | name :: names, p => by
    simp only [inlineEachAt, inlineEach]
    cases p.functionNamed? name with
    | none => exact inlineEachAt_eq verbose names p
    | some callee =>
      dsimp only
      cases callee.obstacles p.tailCallTargets with
      | nil =>
        simp only [inlineCalleeAt_eq, bind, Except.bind]
        cases inlineCallee p callee with
        | error e => rfl
        | ok r =>
          simp only [shownOf_ok, inlineEachAt_eq verbose names r.1]
          cases inlineEach names r.1 with
          | error e => rfl
          | ok r' =>
            simp only [regroup, Except.map, shownOf_ok, pure, Except.pure, Trace.shown_append]
      | cons o obstacles =>
        simp only [inlineEachAt_eq verbose names p, bind, Except.bind]
        cases inlineEach names p with
        | error e => rfl
        | ok r =>
          simp only [regroup, Except.map, shownOf_ok, pure, Except.pure]
          rw [note_eq rfl, ← Trace.shown_append]
          rfl

/-- Inlines everything that can be inlined, and tells whether anything was (`inline_functions`). -/
def inlineFunctionsAt (verbose : Bool) (p : Program) : Checked ((Program × Bool) × Trace) := do
  let report : Trace := if verbose then survey p else []
  let (r, t) ← inlineEachAt verbose (candidates p) p
  return (r, report ++ t)

theorem survey_shown (verbose : Bool) (p : Program) :
    Trace.shown verbose (survey p) = if verbose then survey p else [] := by
  cases verbose with
  | true => simp
  | false =>
    refine (Trace.shown_false _).trans (List.filter_eq_nil_iff.mpr fun e he => ?_)
    rcases List.mem_cons.mp he with rfl | he
    · exact Bool.false_ne_true
    · obtain ⟨f, -, rfl⟩ := List.mem_map.mp he
      exact Bool.false_ne_true

theorem inlineFunctionsAt_eq (verbose : Bool) (p : Program) :
    inlineFunctionsAt verbose p = shownOf verbose (regroup (inlineFunctions p)) := by
  simp only [inlineFunctionsAt, inlineFunctions, inlineEachAt_eq, ← survey_shown, bind, Except.bind]
  cases inlineEach (candidates p) p with
  | error e => rfl
  | ok r => simp only [regroup, Except.map, shownOf_ok, pure, Except.pure, Trace.shown_append]

end WasmTrim.Positional
