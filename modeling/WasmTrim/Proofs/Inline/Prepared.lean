/-
# Callees

A function without obstacles is one that can be put in place of its calls (`Function.Eligible`).

The body that stands for a call is the body of the callee, perhaps without its last `return`, and
perhaps inside a block in which every `return` is a branch.  So its instructions are those of the
callee, except for some that only deal with the block (`Function.mem_preparedBody`).

Both facts are used wherever it is asked what inlining can bring into a caller: no local but those
of the parameters, no exceptions, no tail call, no call of the callee itself, and no operation on
memory that the callee did not have.  What the branches of a prepared body mean is another matter,
for which the instructions have to be looked at in their places (`Proofs/Inline/Targets`).
-/
import WasmTrim.Inline.Eligibility
import WasmTrim.Inline.Prepare
import WasmTrim.Proofs.Code

namespace WasmTrim

/-! ## 1. Functions without obstacles

The list of obstacles is empty exactly if none of them is met (`ineligibility`); what this means for
the body of the function is said once. -/

/-- **A function can be inlined**, in a program with the given targets of tail calls. These are the
conditions that the absence of obstacles comes to, as far as later arguments use them. -/
structure Function.Eligible (tailCalled : List Nat) (f : Function) : Prop where
  notEntry : f.isEntry = false
  size : f.locals.size = f.paramCount
  notSelf : ∀ i ∈ f.body, i.op ≠ .call f.index
  noException : ∀ i ∈ f.body, i.op.isException = false
  noTailCall : ∀ i ∈ f.body, i.op.tailCallTarget? = none
  notTarget : f.index ∉ tailCalled

theorem Function.eligible_of_obstacles {f : Function} {tailCalled : List Nat}
    (h : f.obstacles tailCalled = []) : f.Eligible tailCalled := by
  have hm : ∀ o, f.meets tailCalled o = false := by
    intro o
    simpa using List.filter_eq_nil_iff.mp h o (Obstacle.mem_all o)
  have hthrow := hm .mayThrow
  have hself := hm .callsItself
  have htail := hm .makesTailCall
  simp only [meets, Bool.or_eq_false_iff, List.any_eq_false] at hthrow
  simp only [meets, callsSelf, List.any_eq_false, decide_eq_true_eq] at hself
  simp only [meets, List.any_eq_false, Option.not_isSome_iff_eq_none] at htail
  exact ⟨hm .entryPoint, by simpa [meets] using hm .declaresLocals, hself,
    fun i hi => by simpa using hthrow.2 i hi, htail, by simpa [meets] using hm .isTailCalled⟩

/-! ## 2. The instructions of a prepared body

Preparing takes away a `return`, turns others into branches, and adds an opener and a closer
(`prepare_body`).  So an instruction of a prepared body is one of the callee, or one of these three.
-/

namespace Body

theorem mem_branchReturns {i : Instr} : ∀ {n : Nesting} {body : Body}, i ∈ branchReturns n body →
    i ∈ body ∨ ∃ label, i.op = .br label
  | n, [], h => by cases h
  | n, j :: body, h => by
    rw [branchReturns, List.mem_cons] at h
    rcases h with rfl | h
    · split
      · exact .inr ⟨_, rfl⟩
      · exact .inl List.mem_cons_self
    · exact (mem_branchReturns h).imp_left (List.mem_cons_of_mem _)

theorem mem_wrapped {i : Instr} {result : ResultType} {body : Body} (h : i ∈ body.wrapped result) :
    i ∈ body ∨ i.op = .enter .block result ∨ i.op = .close ∨ ∃ label, i.op = .br label := by
  simp only [wrapped, List.cons_append, List.mem_cons, List.mem_append, List.not_mem_nil,
    or_false] at h
  rcases h with rfl | h | rfl
  · exact .inr (.inl rfl)
  · rcases mem_branchReturns h with h | h
    · exact .inl h
    · exact .inr (.inr (.inr h))
  · exact .inr (.inr (.inl rfl))

end Body

namespace Function

variable {signatureOf : Nat → Option Signature} {f : Function}

theorem mem_withoutFinalReturn {i : Instr} (h : i ∈ f.withoutFinalReturn signatureOf) :
    i ∈ f.body := by
  unfold withoutFinalReturn at h
  split at h
  · exact List.dropLast_subset _ h
  · exact h

/-- **The instructions of a prepared body** are those of the function, and some that open, close
or leave a block. -/
theorem mem_preparedBody {i : Instr} (h : i ∈ f.preparedBody signatureOf) :
    i ∈ f.body ∨ i.op = .enter .block f.result ∨ i.op = .close ∨ ∃ label, i.op = .br label := by
  simp only [preparedBody] at h
  split at h
  · exact (Body.mem_wrapped h).imp_left mem_withoutFinalReturn
  · exact .inl (mem_withoutFinalReturn h)

end Function

end WasmTrim
