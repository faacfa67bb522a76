/-
# One scan of a function

A peephole scan (`rewrite`) of a well-typed body without markers leaves a function with the same
outcomes (`Peephole.simplify_sameOutcomes`): every rule that applies in such a body is a rewrite.
All rules are scanned for, in any settings; without markers two of them never apply.

Markers bring in two more rules.  A dispatch over types whose cases are gone is collapsed, and
with it goes the store of the value that it has captured, whoever reads the local: after that
the function may give another result (`Peephole.simplify_loses_capture`).  The outcomes are the
same if at each collapse nothing reads the local any more
(`Peephole.simplify_sameOutcomes_of_unread`).

The condition has to be about each collapse and not about the body at the start, since a local
that is read in the dispatch may not be read any more when the dispatch has become empty.  It is
computed along the scan (`collapsesUnread`), so it can be checked for a given body.

The other rules on stores do count the readings: a store to the local of types goes only when
nothing reads that, and a shuffle only when nothing reads the two locals otherwise.
-/
import WasmTrim.Proofs.Semantics.Outcomes
import WasmTrim.Proofs.Semantics.Passes

namespace WasmTrim

namespace Peephole

/-! ## 1. Bodies without markers

Every rule is one of the rewrites, and those that look at markers never apply, so a scan is a
sequence of refinements. -/

/-- What a scan is told about the results of callables is true. -/
theorem arity_of_resultsOf (c : Config) {p : Program}
    (hp : ∀ (k : Nat) (g : Function), p.functions[k]? = some g → g.index = p.functionBase + k)
    (t count : Nat) (h : (Optimize.context c p).resultsOf t = some count) (signature : Signature)
    (hs : p.signatures[t]? = some signature) : signature.result.arity = count := by
  simpa [Optimize.context, Program.signatureAt?_eq hp, hs] using h

/-- **A scan keeps the outcomes of a function without markers**, in its program and with the facts
about the program that the scan is given. All seventeen rules are covered, in whatever order the
scan has applied them. -/
theorem simplify_sameOutcomes (c : Config) (p : Program)
    (hp : ∀ (k : Nat) (g : Function), p.functions[k]? = some g → g.index = p.functionBase + k)
    (f : Function) (hf : f.Typed p.surroundings) (hm : f.body.MarkerFree) :
    f.SameOutcomes p.surroundings (simplify (Optimize.context c p) f).1 := by
  have hscan : f.Refines p.signatures (simplify (Optimize.context c p) f).1 ∧
      (simplify (Optimize.context c p) f).1.body.MarkerFree := by
    refine scanFrom_induction (s := (Optimize.context c p).scope f)
      (P := fun b => f.Refines p.signatures { f with body := b } ∧ b.MarkerFree)
      (fun b b' hstep ⟨href, hfree⟩ => ⟨href.trans ?_, hstep.markerFree hfree⟩) [] f.body
      ⟨.refl _ f, hm⟩
    exact Function.refines_of_step (f := { f with body := b }) hfree (arity_of_resultsOf c hp) hstep
  exact hscan.1.sameOutcomes hf

/-- A function that records the type of its argument, and then calls the host from within a block
and returns. -/
def relay : Function where
  index := 1
  name := "relay"
  params := [.i32]
  locals := ⟨[⟨lastTypeName, 1, .i32⟩, ⟨"value", 0, .i32⟩], by decide +kernel⟩
  result := some .i32
  body := [.const (.i32 2), .localSet 1, .enter .block none, .localGet 0, .call 0, .ret, .close,
    .unreachable].map Op.plain
  throws := false
  usesMemory := false

/-- A host function and one that relays calls to it, which a scan turns into a tail call. -/
def relayProgram : Program where
  imports := [⟨"env", "double", ⟨[.i32], some .i32⟩⟩]
  functions := [relay]
  globals := []
  tags := []
  exceptions := []
  types := .empty

theorem relayProgram_indices : ∀ (k : Nat) (g : Function),
    relayProgram.functions[k]? = some g → g.index = relayProgram.functionBase + k
  | 0, _, h => by
    obtain rfl := Option.some.inj h
    rfl

theorem simplify_sameOutcomes_relay :
    (simplify (Optimize.context { tailCalls := true } relayProgram) relay).1.body
        = [.localGet 0, .returnCall 0, .unreachable].map Op.plain ∧
      relay.SameOutcomes relayProgram.surroundings
        (simplify (Optimize.context { tailCalls := true } relayProgram) relay).1 := by
  have hm : ∀ i ∈ relay.body, i.marker = none := by decide
  have hindex : relay.locals.byIndex = [⟨"value", 0, .i32⟩, ⟨lastTypeName, 1, .i32⟩] :=
    LocalTable.byIndex_eq_of_perm (by decide +kernel) rfl
  have ht : relay.Typed relayProgram.surroundings := by
    rw [Function.Typed, Function.env, Function.localTypes, hindex]
    decide +kernel
  exact ⟨by decide +kernel,
    simplify_sameOutcomes { tailCalls := true } relayProgram relayProgram_indices relay ht hm⟩

/-! ## 2. Dispatches without cases

A collapse is two steps, the first of which takes away an empty block and changes nothing.  The
second is the removal of a store. -/

/-- Whether nothing reads the local that the dispatch at the cursor has captured. -/
def capturesUnread (c : Cursor) : Bool :=
  match c.seen with
  | _ :: _ :: ⟨.localSet l, _⟩ :: _ => c.reads l = 0
  | _ => true

/-- Whether at each collapse of a dispatch in the course of a scan nothing reads the local that the
dispatch has captured. -/
def collapsesUnread (rules : List Rule) (s : Scope) (seen rest : Body) : Bool :=
  match rest with
  | [] => true
  | i :: rest =>
    match h : firstMatch rules s ⟨i :: seen, rest⟩ with
    | some (r, c) =>
      have _progress := reduceAt_progress (reduceAt_of_firstMatch h).2
      (r ≠ .emptyTypeSwitch || capturesUnread ⟨i :: seen, rest⟩)
        && collapsesUnread rules s c.seen c.rest
    | none => collapsesUnread rules s (i :: seen) rest
termination_by 5 * (seen.weight + rest.weight) + rest.length
decreasing_by
  · have hl := _progress.lighter
    have hn := _progress.near
    simp only [Cursor.weight, Body.weight_cons, List.length_cons] at hl hn ⊢
    omega
  · simp only [Body.weight_cons, List.length_cons]
    omega

section

variable {signatures : List Signature} {f : Function} {s : Scope} {c c' : Cursor}
  (hresults : s.results = f.result.arity)
  (hsignatures : ∀ t count, s.resultsOf t = some count → ∀ signature,
    signatures[t]? = some signature → signature.result.arity = count)

include hresults hsignatures

/-- **A dispatch that has captured for nobody may be collapsed.**  First its empty block goes, and
then the store, which nothing reads. -/
theorem refines_of_emptyTypeSwitch (hbody : f.body = c.body) (hunread : capturesUnread c)
    (h : emptyTypeSwitch c = some c') : f.Refines signatures { f with body := c'.body } := by
  unfold emptyTypeSwitch at h
  split at h
  · rename_i m l seen rest
    obtain rfl := Option.some.inj h
    have hreads : Body.reads seen l + Body.reads rest l = 0 := by
      simpa [capturesUnread, Cursor.reads, Body.reads] using hunread
    have hblock : RewritesTo s.surround f.body.ops
        (Body.ops (seen.reverse ++ ⟨.localSet l, some .typeSwitch⟩ :: rest)) :=
      ⟨Body.ops seen.reverse ++ [.localSet l], Body.ops rest, [.enter .block none, .close], [],
        by simp [hbody, Cursor.body], by simp,
        .block none (c := .done) trivial (by simp [Code.ops])⟩
    have hstore : RewritesTo s.surround
        (Body.ops (seen.reverse ++ ⟨.localSet l, some .typeSwitch⟩ :: rest))
        (Body.ops (seen.reverse ++ Op.drop.plain :: rest)) :=
      ⟨Body.ops seen.reverse, Body.ops rest, [.localSet l], [.drop], by simp, by simp,
        .deadSet (notMem_of_reads hreads)⟩
    have hfirst : f.Refines signatures
        { f with body := seen.reverse ++ ⟨.localSet l, some .typeSwitch⟩ :: rest } :=
      Function.refines_of_rewritesTo rfl hresults hsignatures hblock
    exact hfirst.trans
      (Function.refines_of_rewritesTo (s := s.surround) rfl hresults hsignatures hstore)
  · simp at h

/-- **What every rule does without the markers of cases**: it refines the function. The rule for a
dispatch without cases needs that the value it captures is not read, which nothing in its pattern
ensures. -/
theorem refines_of_reduceAt {r : Rule} (hbody : f.body = c.body)
    (hcase : ∀ i ∈ f.body, ∀ t, i.marker ≠ some (.typeCase t))
    (hunread : r = .emptyTypeSwitch → capturesUnread c) (h : reduceAt s c r = some c') :
    f.Refines signatures { f with body := c'.body } := by
  by_cases hswitch : r = .emptyTypeSwitch
  · subst hswitch
    exact refines_of_emptyTypeSwitch hresults hsignatures hbody (hunread rfl) h
  · have hcase' : r ≠ .deadTypeCase := by
      rintro rfl
      obtain ⟨i, hi, t, ht⟩ := exists_typeCase_of_deadTypeCase h
      exact hcase i (hbody ▸ hi) t ht
    cases hc : Code.parse f.body.ops with
    | none =>
      refine ⟨rfl, rfl, fun h => by simp [hc] at h, fun M _ args w _ => .inl ?_⟩
      simp only [Function.run, hc]
    | some d =>
      have hd := rewrites_of_reduceAt (hbody ▸ hc) hcase' hswitch h
      rw [← hbody] at hd
      exact Function.refines_of_rewritesTo rfl hresults hsignatures hd

/-- The whole scan, by the recursion of the scan: each rule that is applied refines the function
once more, and each `local.set` collapsed on the way stores to a local that is not read. -/
theorem refines_scanFrom (rules : List Rule) (seen rest : Body)
    (href : f.Refines signatures { f with body := seen.reverse ++ rest })
    (hcase : ∀ i ∈ seen.reverse ++ rest, ∀ t, i.marker ≠ some (.typeCase t))
    (hunread : collapsesUnread rules s seen rest) :
    f.Refines signatures { f with body := (scanFrom rules s seen rest).body } := by
  fun_induction scanFrom rules s seen rest with
  | case1 seen => simpa using href
  | case2 seen i rest r c hr _ _ ih =>
    have hred := (reduceAt_of_firstMatch hr).2
    have hbody : seen.reverse ++ i :: rest = Cursor.body ⟨i :: seen, rest⟩ := by simp [Cursor.body]
    rw [hbody] at href hcase
    rw [collapsesUnread] at hunread
    split at hunread
    · rename_i r' c' hr'
      obtain ⟨rfl, rfl⟩ := Prod.mk.inj (Option.some.inj (hr.symm.trans hr'))
      obtain ⟨hnow, hlater⟩ := Bool.and_eq_true_iff.mp hunread
      refine ih (href.trans (refines_of_reduceAt
        (f := { f with body := Cursor.body ⟨i :: seen, rest⟩ }) hresults hsignatures rfl hcase ?_
        hred)) (fun j hj t ht => ?_) hlater
      · rintro rfl
        simpa using hnow
      · -- no rule marks an instruction as the guard of a case
        rcases (provides_of_reduceAt hred j hj).marker with hnone | ⟨k, hk, hmk⟩
        · simp [hnone] at ht
        · exact hcase k hk t (hmk.trans ht)
    · rename_i hr'
      simp [hr] at hr'
  | case3 seen i rest hr ih =>
    rw [collapsesUnread] at hunread
    split at hunread
    · rename_i r' c' hr'
      simp [hr] at hr'
    · exact ih (by simpa using href) (by simpa using hcase) hunread

end

/-- **A scan that collapses dispatches keeps the outcomes** of a function without marked cases, if
at each collapse nothing reads the captured local. -/
theorem simplify_sameOutcomes_of_unread (c : Config) (p : Program)
    (hp : ∀ (k : Nat) (g : Function), p.functions[k]? = some g → g.index = p.functionBase + k)
    (f : Function) (hf : f.Typed p.surroundings)
    (hcase : ∀ i ∈ f.body, ∀ t, i.marker ≠ some (.typeCase t))
    (hunread : collapsesUnread Rule.all ((Optimize.context c p).scope f) [] f.body) :
    f.SameOutcomes p.surroundings (simplify (Optimize.context c p) f).1 := by
  refine Function.Refines.sameOutcomes ?_ hf
  exact refines_scanFrom (s := (Optimize.context c p).scope f) rfl
    (arity_of_resultsOf c hp) Rule.all [] f.body (.refl _ f) hcase hunread

/-- A function that captures a number for a dispatch, with the given operations inside of the
dispatch and after it. -/
def dispatch (inside after : List Op) : Function where
  index := 0
  name := entryName
  params := []
  locals := ⟨[⟨"captured", 0, .i32⟩], List.pairwise_singleton _ _⟩
  result := some .i32
  body := [⟨.const (.i32 7), none⟩, ⟨.localSet 0, some .typeSwitch⟩, ⟨.enter .block none, none⟩]
    ++ inside.map Op.plain ++ ⟨.close, some .typeSwitchEnd⟩ :: after.map Op.plain
  throws := false
  usesMemory := false

/-- The program that has only this function. It imports nothing, and has no globals and no
exceptions. -/
def dispatchProgram (inside after : List Op) : Program where
  imports := []
  functions := [dispatch inside after]
  globals := []
  tags := []
  exceptions := []
  types := .empty

theorem dispatchProgram_indices (inside after : List Op) : ∀ (k : Nat) (g : Function),
    (dispatchProgram inside after).functions[k]? = some g →
      g.index = (dispatchProgram inside after).functionBase + k
  | 0, _, h => by
    obtain rfl := Option.some.inj h
    rfl

/-- The captured number is read inside of the dispatch, but not any more when that is
collapsed. -/
theorem simplify_sameOutcomes_of_unread_dispatch :
    let f := dispatch [.localGet 0, .drop] [.const (.i32 5)]
    let p := dispatchProgram [.localGet 0, .drop] [.const (.i32 5)]
    (simplify (Optimize.context {} p) f).1.body = [.const (.i32 5)].map Op.plain ∧
      f.SameOutcomes p.surroundings (simplify (Optimize.context {} p) f).1 := by
  intro f p
  have hmarkers : ∀ i ∈ f.body,
      i.marker = none ∨ i.marker = some .typeSwitch ∨ i.marker = some .typeSwitchEnd := by decide
  refine ⟨by decide +kernel, simplify_sameOutcomes_of_unread {} p (dispatchProgram_indices _ _) f
    (by decide +kernel) (fun i hi t ht => ?_) (by decide +kernel)⟩
  rcases hmarkers i hi with h | h | h <;> simp [h] at ht

/-- **A scan can lose a captured value.**  A function that reads the local after the dispatch
returns the number that was captured, and after the scan it returns zero. -/
theorem simplify_loses_capture :
    let f := dispatch [] [.localGet 0]
    let p := dispatchProgram [] [.localGet 0]
    let M := Function.inertMachine p.signatures 1
    let w : World Unit := ⟨[], ⟨0, fun _ => 0⟩, (), []⟩
    f.Typed p.surroundings ∧ (f.run M [] w).1 = .returned [.i32 7] ∧
      ((simplify (Optimize.context {} p) f).1.run M [] w).1 = .returned [.i32 0] ∧
      ¬ f.SameOutcomes p.surroundings (simplify (Optimize.context {} p) f).1 := by
  intro f p M w
  have hbefore : (f.run M [] w).1 = .returned [.i32 7] := by decide +kernel
  have hafter : ((simplify (Optimize.context {} p) f).1.run M [] w).1 = .returned [.i32 0] := by
    decide +kernel
  refine ⟨by decide +kernel, hbefore, hafter, fun h => ?_⟩
  have hoffers : Typing.Offers p.surroundings M :=
    ⟨fun _ => rfl, rfl, rfl, fun _ _ hw => ⟨trivial, hw⟩⟩
  have hsame := congrArg Prod.fst (h.run M hoffers [] w rfl rfl).1
  rw [hbefore, hafter] at hsame
  simp at hsame

end Peephole

end WasmTrim
