/-
# Calls after inlining

Inlining moves instructions from one function to another, and every removal of a function renumbers
those behind it.  To say that a call still means what it meant, a record is kept beside the
program: for every instruction it tells which instruction of the program before all inlining it
stems from, if it stems from one (`Traced`).  Only the stores of arguments and the block around a
body that leaves early are new.

A call of the record names, by the new numbers, what the call it stems from named by the old ones:
the same import, or the function of the same name, which is still there (`Traced.faithful`).  One
step of this rests on two facts: the function that is removed is not called any more, and all other
functions are found at their new positions (`Inlined.designated?_apply`).

What a call names is said by name, not by index, since indices are what changes.  For this the names
of functions have to be different, and every call has to name something to begin with.

The call that an inlined call stood for is not in the record any more, because there is no such
instruction; its callee is there in the form of the instructions that have come in its place.  A
callee that was itself inlined into is no exception: the record follows an instruction through any
number of bodies to the one that it was written in.

Beside this, one pass leaves nothing to do (`Proofs/Inline/Exhaustion`), and it reports a change
exactly if a function is gone.  The theorem at the end puts the three together.
-/
import WasmTrim.Proofs.Headroom
import WasmTrim.Proofs.Idempotence
import WasmTrim.Proofs.Termination

namespace WasmTrim

/-! ## 1. What a call designates

An index designates an import or a function.  Functions are told apart by their names, because their
indices change while others are removed. -/

/-- Something that can be called: an import, by its position, or a function, by its name. -/
inductive Callable where
  | imported (position : Nat)
  | function (name : String)
deriving DecidableEq

/-- A call that is directed to where it goes already. -/
theorem Instr.mapCall_of_callTarget? {i : Instr} {target : Nat}
    (h : i.op.callTarget? = some target) : i.mapCall (fun _ => target) = i := by
  obtain ⟨op, m⟩ := i
  cases op with
  | call index | returnCall index =>
    obtain rfl := Option.some.inj h
    rfl
  | _ => cases h

/-- What stands at an index among all callables: an import by its index, or a function by its name.
Names do not change when functions are renumbered. -/
def Program.designated? (p : Program) (index : Nat) : Option Callable :=
  if index < p.imports.length then some (.imported index)
  else (p.functions[index - p.imports.length]?).map fun f => .function f.name

namespace Inline

/-! ## 2. Where instructions come from

As for the arguments, a record is kept beside the program: every instruction of the result with the
place in the first program at which it stood, if it stood there. -/

/-- A place in a program: a function, by its position, and a position in its body. -/
structure Place where
  function : Nat
  position : Nat
deriving DecidableEq

/-- An instruction, and the place of the one it stems from. -/
structure Sourced where
  instr : Instr
  source : Option Place
deriving DecidableEq

namespace Sourced

/-- The instructions of a function before all inlining, each of which comes from its own position.
-/
def own (function : Nat) (f : Function) : List Sourced :=
  f.body.mapIdx fun position i => ⟨i, some ⟨function, position⟩⟩

/-- An instruction that stems from none: a store of an argument, or the region around a body that
returns early. -/
def new (i : Instr) : Sourced := ⟨i, none⟩

/-- Other instructions in the same places, for a step that rewrites a body instruction by
instruction. -/
def withInstrs (body : Body) (code : List Sourced) : List Sourced :=
  (body.zip code).map fun x => ⟨x.1, x.2.source⟩

/-- The body of a callee in the form in which it is put in place of a call. -/
def prepare (signatureOf : Nat → Option Signature) (callee : Function) (code : List Sourced) :
    List Sourced :=
  let body := callee.withoutFinalReturn signatureOf
  let code := code.take body.length
  if body.exitsEarly [] then
    new (Op.enter .block callee.result).plain
      :: withInstrs (body.branchReturns []) code ++ [new Op.close.plain]
  else code

/-- What is put in place of one call. The stores come from nowhere; the rest comes from where it
came from in the callee. -/
def callCode (prepared : List Sourced) (arguments : List Nat) : List Sourced :=
  (storeArguments arguments).map new
    ++ prepared.map fun x => { x with instr := x.instr.mapLocal (renameLocal arguments) }

/-- The code of a caller with a piece put in for every call of a function. -/
def replaceCalls (index : Nat) (piece code : List Sourced) : List Sourced :=
  code.flatMap fun x => if x.instr.op = .call index then piece else [x]

/-- What becomes of a caller when a callee is put in place of its calls. -/
def inlineInto (callee : Function) (prepared : List Sourced) (caller : Function)
    (code : List Sourced) : List Sourced :=
  match declareArguments callee.name callee.params 0 caller.locals with
  | .ok (_, arguments) => replaceCalls callee.index (callCode prepared arguments) code
  | .error _ => code

/-- Renumbers the calls, which leaves every instruction where it came from. -/
def compactCalls (c : Compaction) (code : List Sourced) : List Sourced :=
  code.map fun x => { x with instr := x.instr.mapCall c.apply }

end Sourced

/-- The record before all inlining, function by function, each instruction in its own place. -/
def ownSources (p : Program) : List (List Sourced) := p.functions.mapIdx Sourced.own

/-- The record after one inlining, of the function at position `k`. -/
def inlineSources (p : Program) (callee : Function) (k : Nat) (record : List (List Sourced)) :
    List (List Sourced) :=
  match record[k]? with
  | some code =>
    ((List.zipWith (Sourced.inlineInto callee (Sourced.prepare p.signatureAt? callee code))
      p.functions record).eraseIdx k).map (Sourced.compactCalls (.removing [callee.index]))
  | none => record

/-- **A record of where the instructions of a program come from**, when it came out of another one
by inlining functions. -/
inductive Traced (p : Program) : Program → List (List Sourced) → Prop where
  | start : Traced p p (ownSources p)
  | step {q q' : Program} {record : List (List Sourced)} {callee : Function} {k : Nat} {t : Trace}
    (before : Traced p q record) (position : q.functions[k]? = some callee)
    (eligible : callee.obstacles q.tailCallTargets = [])
    (inlined : inlineCallee q callee = .ok (q', t)) :
    Traced p q' (inlineSources q callee k record)

/-! ## 3. Faithful records

A record is faithful if every call in it designates now what the call at its place designated in the
first program. -/

/-- **A call means what its source means**: it stems from the same kind of call, and by the new
numbers it designates what that call designates by the old ones, which is there in both. -/
def Sourced.Faithful (p q : Program) (x : Sourced) : Prop :=
  ∀ target, x.instr.op.callTarget? = some target → ∃ place f i target₀ callable,
    x.source = some place ∧ p.functions[place.function]? = some f ∧
    f.body[place.position]? = some i ∧ i.op.callTarget? = some target₀ ∧
    x.instr = i.mapCall (fun _ => target) ∧
    p.designated? target₀ = some callable ∧ q.designated? target = some callable

/-- The record has the instructions of every function, and each of its calls means what its source
means. -/
structure Faithful (p q : Program) (record : List (List Sourced)) : Prop where
  length : record.length = q.functions.length
  functions : ∀ (k : Nat) (g : Function) (code : List Sourced), q.functions[k]? = some g →
    record[k]? = some code → code.map Sourced.instr = g.body ∧ ∀ x ∈ code, x.Faithful p q

/-! ## 4. The code of a callee

Preparing a body keeps the places of its instructions; what it adds has none. -/

namespace Sourced

theorem map_instr_withInstrs {body : Body} {code : List Sourced}
    (h : body.length ≤ code.length) : (withInstrs body code).map instr = body := by
  rw [withInstrs, List.map_map]
  exact List.map_fst_zip h

/-- Turning `return`s into branches changes nothing else: an instruction of the new code is a
branch, or it was there. -/
theorem mem_withInstrs_branchReturns : ∀ {n : Nesting} {code : List Sourced} {x : Sourced},
    x ∈ withInstrs (Body.branchReturns n (code.map instr)) code →
      x ∈ code ∨ ∃ label, x.instr.op = .br label
  | n, [], x, h => by cases h
  | n, y :: code, x, h => by
    simp only [withInstrs, List.map_cons, Body.branchReturns, List.zip_cons_cons,
      List.mem_cons] at h
    rcases h with rfl | h
    · dsimp only
      split
      · exact .inr ⟨_, rfl⟩
      · exact .inl List.mem_cons_self
    · exact (mem_withInstrs_branchReturns h).imp_left (List.mem_cons_of_mem _)

section

variable {signatureOf : Nat → Option Signature} {callee : Function} {code : List Sourced}

theorem withoutFinalReturn_eq_take : callee.withoutFinalReturn signatureOf
    = callee.body.take (callee.withoutFinalReturn signatureOf).length := by
  unfold Function.withoutFinalReturn
  split
  · rw [List.length_dropLast, List.dropLast_eq_take]
  · rw [List.take_length]

theorem map_instr_take (signatureOf : Nat → Option Signature)
    (hcode : code.map instr = callee.body) :
    (code.take (callee.withoutFinalReturn signatureOf).length).map instr
      = callee.withoutFinalReturn signatureOf := by
  rw [List.map_take, hcode, ← withoutFinalReturn_eq_take]

theorem map_instr_prepare (hcode : code.map instr = callee.body) :
    (prepare signatureOf callee code).map instr = callee.preparedBody signatureOf := by
  have htake := map_instr_take signatureOf hcode
  simp only [prepare, Function.preparedBody]
  split
  · have hlength := congrArg List.length htake
    rw [List.length_map] at hlength
    simp only [List.cons_append, List.map_cons, List.map_append, List.map_nil, Body.wrapped]
    rw [map_instr_withInstrs (by rw [Body.length_branchReturns, hlength])]
    rfl
  · exact htake

/-- **Where the calls of a prepared body come from**: all of them stood in the body of the callee.
What preparing adds, a block around the body and branches for `return`s, calls nothing. -/
theorem mem_prepare (hcode : code.map instr = callee.body) {x : Sourced}
    (hx : x ∈ prepare signatureOf callee code) : x ∈ code ∨ x.instr.op.callTarget? = none := by
  have htake := map_instr_take signatureOf hcode
  simp only [prepare] at hx
  split at hx
  · simp only [List.cons_append, List.mem_cons, List.mem_append, List.not_mem_nil, or_false] at hx
    rcases hx with rfl | hx | rfl
    · exact .inr rfl
    · have hx' : x ∈ withInstrs (Body.branchReturns []
          ((code.take (callee.withoutFinalReturn signatureOf).length).map instr))
          (code.take (callee.withoutFinalReturn signatureOf).length) := by
        rw [htake]
        exact hx
      rcases mem_withInstrs_branchReturns hx' with hx | ⟨label, e⟩
      · exact .inl (List.mem_of_mem_take hx)
      · exact .inr (by rw [e]; rfl)
    · exact .inr rfl
  · exact .inl (List.mem_of_mem_take hx)

end

/-! ## 5. One caller

The calls of the callee are replaced, and what is put there brings its places along from the callee.
-/

section

variable {index : Nat} {piece code prepared : List Sourced} {arguments : List Nat}

theorem map_instr_callCode : (callCode prepared arguments).map instr
    = Inline.callCode (prepared.map instr) arguments := by
  simp only [callCode, Inline.callCode, List.map_append, List.map_map]
  congr 1
  exact List.map_id _

theorem map_instr_replaceCalls : (replaceCalls index piece code).map instr
    = Inline.replaceCalls index (piece.map instr) (code.map instr) := by
  simp only [replaceCalls, Inline.replaceCalls, List.map_flatMap, List.flatMap_map]
  refine congrArg (List.flatMap · code) (funext fun x => ?_)
  split <;> rfl

theorem replaceCalls_of_notMem (h : ∀ x ∈ code, x.instr.op ≠ .call index) :
    replaceCalls index piece code = code := by
  induction code with
  | nil => rfl
  | cons x code ih =>
    rw [replaceCalls, List.flatMap_cons, if_neg (h x List.mem_cons_self)]
    exact congrArg (x :: ·) (ih fun y hy => h y (List.mem_cons_of_mem _ hy))

/-- The calls in what is put in are those of the prepared body. -/
theorem mem_callCode {x : Sourced} (hx : x ∈ callCode prepared arguments) :
    x ∈ prepared ∨ x.instr.op.callTarget? = none := by
  rcases List.mem_append.mp hx with hx | hx
  · obtain ⟨i, hi, rfl⟩ := List.mem_map.mp hx
    obtain ⟨a, -, rfl⟩ := List.mem_map.mp hi
    exact .inr rfl
  · obtain ⟨y, hy, rfl⟩ := List.mem_map.mp hx
    obtain ⟨⟨op, m⟩, source⟩ := y
    -- renaming locals leaves calls as they are
    cases op with
    | localGet _ | localSet _ | localTee _ => exact .inr rfl
    | _ => exact .inl hy

theorem mem_replaceCalls {x : Sourced} (hx : x ∈ replaceCalls index piece code) :
    (x ∈ code ∧ x.instr.op ≠ .call index) ∨ x ∈ piece := by
  obtain ⟨y, hy, hx⟩ := List.mem_flatMap.mp hx
  split at hx
  · exact .inr hx
  · rename_i hne
    obtain rfl := List.mem_singleton.mp hx
    exact .inl ⟨hy, hne⟩

end

section

variable {q : Program} {callee f f' : Function} {t : Trace} {code calleeCode : List Sourced}

/-- **What becomes of a caller**: the record follows its body, and every call in it stood in the
caller or in the callee before and does not call the callee. -/
theorem inlineInto_spec (hcont : f.locals.isContiguous)
    (he : callee.Eligible q.tailCallTargets) (hf : f ∈ q.functions)
    (hin : Inline.inlineInto callee (callee.preparedBody q.signatureAt?) f = .ok (f', t))
    (hcode : code.map instr = f.body) (hcallee : calleeCode.map instr = callee.body) :
    (inlineInto callee (prepare q.signatureAt? callee calleeCode) f code).map instr = f'.body ∧
      ∀ x ∈ inlineInto callee (prepare q.signatureAt? callee calleeCode) f code,
        ∀ target, x.instr.op.callTarget? = some target →
          (x ∈ code ∨ x ∈ calleeCode) ∧ target ≠ callee.index := by
  have hmem : ∀ x ∈ code, x.instr ∈ f.body := fun x hx => hcode ▸ List.mem_map_of_mem hx
  -- a call of the callee that is not replaced would be a tail call
  have hown : ∀ x ∈ code, x.instr.op ≠ .call callee.index → ∀ target,
      x.instr.op.callTarget? = some target → target ≠ callee.index := by
    rintro x hx hne target htarget rfl
    cases ho : x.instr.op with
    | call index =>
      rw [ho] at htarget hne
      obtain rfl := Option.some.inj htarget
      exact hne rfl
    | returnCall index =>
      rw [ho] at htarget
      obtain rfl := Option.some.inj htarget
      exact he.notTarget (mem_tailCallTargets hf (hmem x hx) ho)
    | _ =>
      rw [ho] at htarget
      cases htarget
  have hother : ∀ x ∈ calleeCode, ∀ target, x.instr.op.callTarget? = some target →
      target ≠ callee.index := by
    rintro x hx target htarget rfl
    have hx' : x.instr ∈ callee.body := hcallee ▸ List.mem_map_of_mem hx
    have hself := he.notSelf _ hx'
    have htail := he.noTailCall _ hx'
    cases ho : x.instr.op with
    | call index =>
      rw [ho] at htarget hself
      obtain rfl := Option.some.inj htarget
      exact hself rfl
    | returnCall index =>
      rw [ho] at htail
      cases htail
    | _ =>
      rw [ho] at htarget
      cases htarget
  rcases inlineInto_cases hcont hin with ⟨hn, rfl⟩ | ⟨-, locals, arguments, hdecl, rfl⟩
  · have hsame : inlineInto callee (prepare q.signatureAt? callee calleeCode) f' code = code := by
      unfold inlineInto
      split
      · exact replaceCalls_of_notMem fun x hx => hn _ (hmem x hx)
      · rfl
    rw [hsame]
    exact ⟨hcode, fun x hx target htarget =>
      ⟨.inl hx, hown x hx (hn _ (hmem x hx)) target htarget⟩⟩
  · simp only [inlineInto, hdecl]
    refine ⟨?_, fun x hx target htarget => ?_⟩
    · rw [map_instr_replaceCalls, map_instr_callCode, map_instr_prepare hcallee, hcode]
    · rcases mem_replaceCalls hx with ⟨hx, hne⟩ | hx
      · exact ⟨.inl hx, hown x hx hne target htarget⟩
      · rcases mem_callCode hx with hx | hnone
        · rcases mem_prepare hcallee hx with hx | hnone
          · exact ⟨.inr hx, hother x hx target htarget⟩
          · rw [hnone] at htarget
            cases htarget
        · rw [hnone] at htarget
          cases htarget

end

end Sourced

/-! ## 6. Renumbering

Once the callee is gone all calls are renumbered (`remove_function`).  A call of anything else
designates the same as before, and calls of the callee are no longer there. -/

section

variable {p q q' : Program} {callee : Function} {k : Nat} {record : List (List Sourced)}
  {t : Trace}

/-- **Whatever is not removed is found under its new number.** The function behind a number before
the removal is the function behind the renumbered one after it, and imports keep their numbers. -/
theorem Inlined.designated?_apply (h : Inlined q q' callee k) (hq : q.Arranged)
    (hk : q.functions[k]? = some callee) {target : Nat} (hne : target ≠ callee.index) :
    q'.designated? ((Compaction.removing [callee.index]).apply target) = q.designated? target := by
  have hindex := hq.indices k callee hk
  have hklt := (List.getElem?_eq_some_iff.mp hk).1
  have hlength := h.length_functions hk
  rw [Program.functionBase] at hindex
  simp only [Compaction.apply_removing_one, hindex, Program.designated?, h.imports]
  rw [hindex] at hne
  by_cases himport : target < q.imports.length
  · have hstays : ¬ q.imports.length + k < target := by omega
    rw [if_neg hstays, if_pos himport, if_pos himport]
  · obtain ⟨i, rfl⟩ : ∃ i, target = q.imports.length + i := ⟨target - q.imports.length, by omega⟩
    have hik : i ≠ k := by omega
    -- the position moves as the number does
    have hposition : (if q.imports.length + k < q.imports.length + i
        then q.imports.length + i - 1 else q.imports.length + i)
          = q.imports.length + position k i := by
      unfold position
      split <;> split <;> omega
    rw [hposition, if_neg (by omega), if_neg (by omega), Nat.add_sub_cancel_left,
      Nat.add_sub_cancel_left]
    cases hf : q.functions[i]? with
    | some f =>
      obtain ⟨f', t, hin, hat⟩ := h.getElem? hf hik
      obtain ⟨body, locals, usesMemory, rfl⟩ := exists_of_inlineInto hin
      rw [hat]
      rfl
    | none =>
      have hle := List.getElem?_eq_none_iff.mp hf
      have hle' : q'.functions.length ≤ position k i := by
        rw [position, if_pos (by omega)]
        omega
      rw [List.getElem?_eq_none hle', Option.map_none]

/-- A call that is renumbered still means what its source means. -/
theorem Sourced.Faithful.compactCalls {x : Sourced} (hx : x.Faithful p q)
    (hsame : ∀ target, x.instr.op.callTarget? = some target →
      q'.designated? ((Compaction.removing [callee.index]).apply target) = q.designated? target) :
    Sourced.Faithful p q'
      { x with instr := x.instr.mapCall (Compaction.removing [callee.index]).apply } := by
  intro target htarget
  rw [Instr.op_mapCall, Op.callTarget?_mapCall] at htarget
  obtain ⟨before, hbefore, rfl⟩ := Option.map_eq_some_iff.mp htarget
  obtain ⟨place, f, i, target₀, callable, hsource, hf, hi, hi₀, hinstr, hp, hq⟩ :=
    hx before hbefore
  refine ⟨place, f, i, target₀, callable, hsource, hf, hi, hi₀, ?_, hp, ?_⟩
  · rw [hinstr]
    obtain ⟨op, m⟩ := i
    cases op <;> rfl
  · rw [hsame before hbefore, hq]

/-! ## 7. The program

What holds after one pass: what is left cannot be inlined, a second pass does nothing, a
change is reported if and only if a function is gone, and every call can be traced back. -/

/-- Every call of the program before designates something, and trivially what it designates itself;
the record starts out faithful. -/
theorem faithful_own (hcalls : ∀ f ∈ p.functions, ∀ i ∈ f.body, ∀ target,
    i.op.callTarget? = some target → target < p.imports.length + p.functions.length) :
    Faithful p p (ownSources p) where
  length := List.length_mapIdx
  functions := by
    intro k g code hg hcode
    rw [ownSources, List.getElem?_mapIdx, hg] at hcode
    obtain rfl := Option.some.inj hcode
    refine ⟨?_, fun x hx target htarget => ?_⟩
    · refine List.ext_getElem? fun n => ?_
      rw [Sourced.own, List.getElem?_map, List.getElem?_mapIdx, Option.map_map]
      exact Option.map_id_apply
    · obtain ⟨n, hn, rfl⟩ := List.mem_mapIdx.mp hx
      have hlt := hcalls g (List.mem_of_getElem? hg) _ (List.getElem_mem hn) target htarget
      have hsome : ∃ callable, p.designated? target = some callable := by
        unfold Program.designated?
        split
        · exact ⟨_, rfl⟩
        · exact ⟨_, by rw [List.getElem?_eq_getElem (by omega)]; rfl⟩
      obtain ⟨callable, hcallable⟩ := hsome
      exact ⟨⟨k, n⟩, g, g.body[n], target, callable, rfl, hg, List.getElem?_eq_getElem hn,
        htarget, (Instr.mapCall_of_callTarget? htarget).symm, hcallable, hcallable⟩

/-- **One inlining keeps what calls mean.** A call that was in the caller is renumbered along with
its target, and a call that comes from the callee means in the caller what it meant in the callee.
-/
theorem Faithful.step (h : Faithful p q record) (hq : q.Arranged)
    (hk : q.functions[k]? = some callee) (ho : callee.obstacles q.tailCallTargets = [])
    (hin : inlineCallee q callee = .ok (q', t)) :
    Faithful p q' (inlineSources q callee k record) := by
  have he := Function.eligible_of_obstacles ho
  have hi := inlineCallee_spec hq.indices hk hin
  have hklt := (List.getElem?_eq_some_iff.mp hk).1
  have hget : ∀ (i : Nat) (f : Function), q.functions[i]? = some f →
      ∃ code, record[i]? = some code := by
    intro i f hf
    have hlt := (List.getElem?_eq_some_iff.mp hf).1
    exact ⟨_, List.getElem?_eq_getElem (h.length ▸ hlt)⟩
  obtain ⟨calleeCode, hcalleeCode⟩ := hget k callee hk
  obtain ⟨hcallee, hcalleeCalls⟩ := h.functions k callee calleeCode hk hcalleeCode
  simp only [inlineSources, hcalleeCode]
  constructor
  · have hl := hi.length_functions hk
    rw [List.length_map, List.length_eraseIdx_of_lt (by rw [List.length_zipWith, h.length]; omega),
      List.length_zipWith, h.length]
    omega
  · intro i' g newCode hg hnew
    obtain ⟨i, f, f', t', hne, rfl, hf, hinto, rfl⟩ := hi.exists_source hg
    obtain ⟨code, hcode⟩ := hget i f hf
    obtain ⟨hbody, hcalls⟩ := h.functions i f code hf hcode
    have hmf := List.mem_of_getElem? hf
    rw [List.getElem?_map, Inlined.getElem?_eraseIdx_position hne, List.getElem?_zipWith, hf,
      hcode] at hnew
    obtain rfl := Option.some.inj hnew
    obtain ⟨hbody', hsource⟩ :=
      Sourced.inlineInto_spec (hq.locals f hmf).1 he hmf hinto hbody hcallee
    refine ⟨?_, fun x' hx' => ?_⟩
    · rw [Function.compactCalls, ← hbody', List.map_map, Sourced.compactCalls, List.map_map]
      rfl
    · obtain ⟨x, hx, rfl⟩ := List.mem_map.mp hx'
      have hfaithful : x.Faithful p q := by
        intro target htarget
        rcases (hsource x hx target htarget).1 with hx | hx
        · exact hcalls x hx target htarget
        · exact hcalleeCalls x hx target htarget
      exact hfaithful.compactCalls fun target htarget =>
        hi.designated?_apply hq hk (hsource x hx target htarget).2

/-- **All inlinings keep what calls mean**, by induction on how the program came about. So a call in
the last program can be traced back to one in the first, and both designate the same function. -/
theorem Traced.faithful (h : Traced p q record) (hp : p.Arranged)
    (hcalls : ∀ f ∈ p.functions, ∀ i ∈ f.body, ∀ target,
      i.op.callTarget? = some target → target < p.imports.length + p.functions.length) :
    q.Arranged ∧ Faithful p q record := by
  induction h with
  | start => exact ⟨hp, faithful_own hcalls⟩
  | step before hk ho hin ih =>
    obtain ⟨hq, hfaithful⟩ := ih
    exact ⟨(inlineCallee_spec hq.indices hk hin).arranged hq hk, hfaithful.step hq hk ho hin⟩

/-- There is a record of every run of the pass that gives a result, one that is kept along with the
program from step to step. -/
theorem exists_traced {changed : Bool} (h : inlineFunctions p = .ok (q, changed, t)) :
    ∃ record, Traced p q record := by
  refine Optimize.inlineFunctions_induction (P := fun q => ∃ record, Traced p q record)
    (fun q callee q' t hm ho hin ⟨record, hr⟩ => ?_) h ⟨_, .start⟩
  obtain ⟨k, hk⟩ := List.getElem?_of_mem hm
  exact ⟨_, hr.step hk ho hin⟩

/-- The imports stay, and the functions that are left are some of those before. -/
theorem survivors_of_inlineFunctions {changed : Bool} (hp : p.Arranged)
    (h : inlineFunctions p = .ok (q, changed, t)) : q.imports = p.imports ∧
      (q.functions.map Function.name).Sublist (p.functions.map Function.name) := by
  refine (Optimize.inlineFunctions_induction (P := fun q => q.Arranged ∧ q.imports = p.imports ∧
    (q.functions.map Function.name).Sublist (p.functions.map Function.name))
    (fun q callee q' t hm ho hin ⟨hq, himports, hsub⟩ => ?_) h ⟨hp, rfl, .refl _⟩).2
  obtain ⟨k, hk⟩ := List.getElem?_of_mem hm
  have hi := inlineCallee_spec hq.indices hk hin
  refine ⟨hi.arranged hq hk, hi.imports.trans himports, ?_⟩
  rw [hi.names]
  exact (List.eraseIdx_sublist _ _).trans hsub

/-- **A pass reports a change exactly if a function is gone.** There is no other change that it
could make, because code is put in place of calls only where the callee is then removed. -/
theorem changed_iff_removed {changed : Bool} (hp : p.Arranged)
    (h : inlineFunctions p = .ok (q, changed, t)) :
    changed = true ↔ ∃ f ∈ p.functions, ∀ g ∈ q.functions, g.name ≠ f.name := by
  constructor
  · rintro rfl
    obtain ⟨hle, -⟩ := inlineFunctions_effect h
    rw [Bool.toNat_true] at hle
    by_contra hnone
    simp only [not_exists, not_and, not_forall, ne_eq, Classical.not_not] at hnone
    -- otherwise the names before, which are distinct, would all be among fewer names
    have hsub : p.functions.map Function.name ⊆ q.functions.map Function.name := by
      intro name hname
      obtain ⟨f, hf, rfl⟩ := List.mem_map.mp hname
      obtain ⟨g, hg, e⟩ := hnone f hf
      exact List.mem_map.mpr ⟨g, hg, e⟩
    have hlength := (List.subperm_of_subset hp.names hsub).length_le
    simp only [List.length_map] at hlength
    omega
  · rintro ⟨f, hf, hgone⟩
    cases changed with
    | true => rfl
    | false =>
      obtain rfl := eq_of_inlineFunctions_unchanged h
      exact absurd rfl (hgone f hf)

theorem exists_inlineFunctions_of_headroom (h : p.HasHeadroom) :
    ∃ q changed t, inlineFunctions p = .ok (q, changed, t) := by
  obtain ⟨names, bound, hroom, hfits⟩ := h.fits
  obtain ⟨q, changed, t, hq, -⟩ := Optimize.exists_inlineFunctions
    (P := fun p => ∀ f ∈ p.functions, f.Fits names bound)
    (fun p callee hmem ho hp => exists_inlineCallee_of_fits hroom hmem ho hp) hfits
  exact ⟨q, changed, t, hq⟩

/-- **One inlining pass does it all and leaves no call without its callee.**  It gives a result
unless local indices run out.  Then every function left meets an obstacle, so that another pass
changes nothing; a change is reported exactly if a function is gone; and every call left, by
whatever record of where it comes from, designates the import or the function, by its name and
still there, that the call it stems from designated before. -/
theorem inlineFunctions_complete (p : Program) (hp : p.Arranged)
    (hcalls : ∀ f ∈ p.functions, ∀ i ∈ f.body, ∀ target,
      i.op.callTarget? = some target → target < p.imports.length + p.functions.length) :
    (p.HasHeadroom → ∃ q changed t, inlineFunctions p = .ok (q, changed, t)) ∧
    ∀ q changed t, inlineFunctions p = .ok (q, changed, t) →
      (∀ f ∈ q.functions, f.obstacles q.tailCallTargets ≠ []) ∧
      inlineFunctions q = .ok (q, false, survey q) ∧
      (changed = true ↔ ∃ f ∈ p.functions, ∀ g ∈ q.functions, g.name ≠ f.name) ∧
      (q.imports = p.imports ∧
        (q.functions.map Function.name).Sublist (p.functions.map Function.name)) ∧
      (∃ record, Traced p q record) ∧ ∀ record, Traced p q record → Faithful p q record := by
  refine ⟨exists_inlineFunctions_of_headroom, fun q changed t h => ?_⟩
  obtain ⟨-, hnone⟩ := candidates_of_inlineFunctions hp h
  refine ⟨fun f hf ho => ?_, inlineFunctions_of_candidates hnone, changed_iff_removed hp h,
    survivors_of_inlineFunctions hp h, exists_traced h,
    fun record hr => (hr.faithful hp hcalls).2⟩
  have hmem := mem_candidates hf (List.isEmpty_iff.mpr ho)
  rw [hnone] at hmem
  cases hmem

end

/-! ## 8. An example

The function in between meets no obstacle, and the one behind it calls itself. -/

/-- A function that calls itself, and one between it and the entry point that only passes on. -/
def detour : Program where
  imports := [⟨"env", "log", ⟨[], none⟩⟩]
  functions := [
    { index := 1, name := entryName, params := [], locals := ⟨[], sortedByName_nil⟩, result := none
      body := [.call 2].map Op.plain, throws := false, usesMemory := false },
    { index := 2, name := "pass", params := [], locals := ⟨[], sortedByName_nil⟩, result := none
      body := [.call 3, .call 0, .ret].map Op.plain, throws := false, usesMemory := false },
    { index := 3, name := "spin", params := [], locals := ⟨[], sortedByName_nil⟩, result := none
      body := [.call 3].map Op.plain, throws := false, usesMemory := false }]
  globals := []
  tags := []
  exceptions := []
  types := .empty

theorem detour_arranged : detour.Arranged where
  indices
    | 0, _, h | 1, _, h | 2, _, h => by
      obtain rfl := Option.some.inj h
      rfl
  names := by decide
  locals := by
    intro f hf
    simp only [detour, List.mem_cons, List.not_mem_nil, or_false] at hf
    rcases hf with rfl | rfl | rfl <;>
      exact ⟨by simp [LocalTable.isContiguous, LocalTable.byIndex, LocalTable.size], by decide⟩

theorem detour_calls : ∀ f ∈ detour.functions, ∀ i ∈ f.body, ∀ target,
    i.op.callTarget? = some target → target < detour.imports.length + detour.functions.length := by
  have h : ∀ f ∈ detour.functions, ∀ i ∈ f.body, ∀ target ∈ i.op.callTarget?,
      target < detour.imports.length + detour.functions.length := by decide
  exact h

/-- The function in between is gone, and the entry point calls by a new number what it called
through it. -/
theorem inlineFunctions_complete_detour : detour.Arranged ∧ detour.HasHeadroom ∧
    ∃ q t record, inlineFunctions detour = .ok (q, true, t) ∧
      q.functions.map (fun f => (f.name, f.body.map Instr.op))
        = [(entryName, [.call 2, .call 0]), ("spin", [.call 2])] ∧
      Traced detour q record ∧
      record.map (fun code => code.map Sourced.source)
        = [[some ⟨1, 0⟩, some ⟨1, 1⟩], [some ⟨2, 0⟩]] ∧
      Faithful detour q record ∧ inlineFunctions q = .ok (q, false, survey q) := by
  have hroom : ∀ f ∈ detour.functions, ∀ l ∈ f.locals.entries,
      l.index + detour.paramTotal < indexLimit - 1 := by decide
  have hrun : (inlineFunctions detour).toOption.map (fun r => (r.2.1,
      r.1.functions.map fun f => (f.name, f.body.map Instr.op)))
        = some (true, [(entryName, [.call 2, .call 0]), ("spin", [.call 2])]) := by decide +kernel
  have hstep : (inlineCallee detour detour.functions[1]).toOption.map Prod.fst
      = (inlineFunctions detour).toOption.map Prod.fst := by decide +kernel
  obtain ⟨⟨q, _, t'⟩, h, e⟩ := exists_ok_of_map hrun
  obtain ⟨rfl, hq⟩ := Prod.mk.inj e
  rw [h] at hstep
  obtain ⟨⟨q', t⟩, hin, e'⟩ := exists_ok_of_map hstep
  obtain rfl : q = q' := e'.symm
  have hr : Traced detour q (inlineSources detour detour.functions[1] 1 (ownSources detour)) :=
    .step .start rfl rfl hin
  have hall := (inlineFunctions_complete detour detour_arranged detour_calls).2 q true t' h
  exact ⟨detour_arranged, hroom, q, t', _, h, hq, hr, by decide +kernel,
    hall.2.2.2.2.2 _ hr, hall.2.1⟩

end Inline

end WasmTrim
