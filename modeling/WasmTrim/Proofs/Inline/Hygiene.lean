/-
# The locals of inlined arguments

A call that is replaced hands its arguments over in locals of the caller, which are found by their
names.  To say who may use such a local, a record is kept beside the program: it tells for every
instruction the call in whose place it stands, if it was put in for one (`Recorded`).

If functions are told apart by their names and the names that arguments are given are not used
yet, each of these locals has the type of its parameter, and only code that was put in for the
same callee uses it (`inlineFunctions_hygienic`).  Otherwise an argument can end up in a local of
another type that belongs to somebody else (`inlineFunctions_unhygienic`).

Reuse by name is how locals are declared (`add_local`), and it is wanted: all calls of one callee in
one caller share their locals.  It cannot tell a local that was put in for the callee from one that
happens to have the name.  Two conditions rule this out, one for each way in which it can happen:
names of functions are different, so no two callees make up one name; and no function has such a
name in the program that is given.

The record is a ghost.  It takes the same steps as the program, and instructions that stem from no
call carry nothing; nothing the inliner does depends on it.
-/
import WasmTrim.Proofs.Semantics.Behaviour

namespace WasmTrim.Inline

/-! ## 1. Where instructions come from

The inliner keeps no record, so one is made beside it: for each function of the result a list of its
instructions, each with the call that it was put in for.  A record is built up by the same steps as
the program. -/

/-- A call that was replaced: the callee, by its position in the program before all inlining, and
the locals of the caller that receive the arguments. -/
structure Site where
  callee : Nat
  arguments : List Nat
deriving DecidableEq

/-- An instruction, and the call in whose place it stands, if it was put in for one. -/
structure Placed where
  instr : Instr
  site : Option Site
deriving DecidableEq

/-- What has become of a function: its position in the program before all inlining, and its
instructions. -/
structure Lineage where
  origin : Nat
  code : List Placed
deriving DecidableEq

namespace Lineage

/-- A function before all inlining: no instruction has been put in, and each is the function's own.
-/
def own (origin : Nat) (f : Function) : Lineage := ⟨origin, f.body.map fun i => ⟨i, none⟩⟩

/-- The code with a piece put in for every call of a function. -/
def replaceCalls (index : Nat) (site : Site) (piece : Body) (h : Lineage) : Lineage :=
  { h with
    code := h.code.flatMap fun x =>
      if x.instr.op = .call index then piece.map fun i => ⟨i, some site⟩ else [x] }

/-- What becomes of a caller when a callee of the given origin is put in place of its calls. -/
def inlineInto (callee : Function) (origin : Nat) (prepared : Body) (caller : Function)
    (h : Lineage) : Lineage :=
  match declareArguments callee.name callee.params 0 caller.locals with
  | .ok (_, arguments) =>
    h.replaceCalls callee.index ⟨origin, arguments⟩ (callCode prepared arguments)
  | .error _ => h

/-- Renumbers the calls, after a function has been taken out. Where an instruction comes from does
not change. -/
def compactCalls (c : Compaction) (h : Lineage) : Lineage :=
  { h with code := h.code.map fun x => { x with instr := x.instr.mapCall c.apply } }

end Lineage

/-- The record before all inlining, with the functions at their own positions. -/
def ownLineages (p : Program) : List Lineage := p.functions.mapIdx Lineage.own

/-- The record after one inlining, of the function at position `k`: its lineage goes, and that of
every caller takes in the code that has been put in place of the calls. -/
def inlineLineages (p : Program) (callee : Function) (k : Nat) (record : List Lineage) :
    List Lineage :=
  match record[k]? with
  | some source =>
    ((List.zipWith (Lineage.inlineInto callee source.origin (callee.preparedBody p.signatureAt?))
      p.functions record).eraseIdx k).map (Lineage.compactCalls (.removing [callee.index]))
  | none => record

/-- **A record of how a program came out of another one** by inlining functions. -/
inductive Recorded (p : Program) : Program → List Lineage → Prop where
  | start : Recorded p p (ownLineages p)
  | step {q q' : Program} {record : List Lineage} {callee : Function} {k : Nat} {t : Trace}
    (before : Recorded p q record) (position : q.functions[k]? = some callee)
    (eligible : callee.obstacles q.tailCallTargets = [])
    (inlined : inlineCallee q callee = .ok (q', t)) :
    Recorded p q' (inlineLineages q callee k record)

/-! ## 2. Hygiene

What a record is asked to show.  The locals that receive the arguments of one callee are used only
by what was put in for that callee, and have the types of its parameters. -/

namespace Lineage

/-- The lineage is that of a function: it tells which one it was, and what its instructions
are. -/
structure Describes (p : Program) (h : Lineage) (g : Function) : Prop where
  origin : ∃ f, p.functions[h.origin]? = some f ∧ f.name = g.name ∧ f.signature = g.signature
  code : h.code.map Placed.instr = g.body

/-- Only what was put in for the given callee uses the local. -/
def Reserves (h : Lineage) (callee index : Nat) : Prop :=
  ∀ x ∈ h.code, x.instr.op.localIndex? = some index → ∃ s, x.site = some s ∧ s.callee = callee

/-- **The arguments are kept apart.**  For every call that was replaced, the local that receives
an argument has the type of the parameter, and only what was put in for the same callee uses
it. -/
def Hygienic (p : Program) (h : Lineage) (g : Function) : Prop :=
  ∀ x ∈ h.code, ∀ s, x.site = some s → ∃ callee, p.functions[s.callee]? = some callee ∧
    ∀ (j : Nat) (type : ValueType), callee.params[j]? = some type → ∃ l ∈ g.locals.entries,
      s.arguments[j]? = some l.index ∧ l.type = type ∧ h.Reserves s.callee l.index

end Lineage

/-- The functions of a program are described by their lineages, and their arguments are kept
apart. -/
structure Hygienic (p q : Program) (record : List Lineage) : Prop where
  length : record.length = q.functions.length
  functions : ∀ (i : Nat) (g : Function) (h : Lineage), q.functions[i]? = some g →
    record[i]? = some h → h.Describes p g ∧ h.Hygienic p g

/-! ## 3. One caller

Replacing the calls in a caller adds stores and a copy of the callee at each site, and all of them
use the same locals; what stood in the caller before uses others. -/

/-- A new argument is a new local of the type of its parameter. -/
theorem exists_argument {callee : String} {types : List ValueType} {t t' : LocalTable}
    {arguments : List Nat} (ht : t.isContiguous)
    (hfresh : ∀ j, t.find? (argumentName callee j) = none)
    (h : declareArguments callee types 0 t = .ok (t', arguments)) {j : Nat} {type : ValueType}
    (hj : types[j]? = some type) :
    ∃ l ∈ t'.entries, arguments[j]? = some l.index ∧ l.type = type ∧ t.size ≤ l.index := by
  obtain ⟨htypes, hargs⟩ := declareArguments_fresh ht hfresh h
  have hlt := (List.getElem?_eq_some_iff.mp hj).1
  have harg : arguments[j]? = some (t.size + (types.length - 1 - j)) := by
    rw [hargs, List.getElem?_map, List.getElem?_reverse (by simpa using hlt), List.length_range,
      List.getElem?_range (by omega), Option.map_some]
  have htype : t'.types[t.size + (types.length - 1 - j)]? = some type := by
    rw [htypes, List.getElem?_append_right (by rw [LocalTable.length_types]; omega),
      LocalTable.length_types, Nat.add_sub_cancel_left, List.getElem?_reverse (by omega),
      show types.length - 1 - (types.length - 1 - j) = j by omega, hj]
  obtain ⟨l, hl, hi, e⟩ :=
    (LocalTable.getElem?_types (declareArguments_spec ht h).contiguous).mp htype
  exact ⟨l, hl, by rw [harg, hi], e, by omega⟩

/-- New arguments lie behind the locals that were there, if their names are new. Without that
condition an argument is given a local in use, which is what the counterexamples below are about. -/
theorem le_of_mem_arguments {callee : String} {types : List ValueType} {t t' : LocalTable}
    {arguments : List Nat} (ht : t.isContiguous)
    (hfresh : ∀ j, t.find? (argumentName callee j) = none)
    (h : declareArguments callee types 0 t = .ok (t', arguments)) {a : Nat} (ha : a ∈ arguments) :
    t.size ≤ a := by
  rw [(declareArguments_fresh ht hfresh h).2] at ha
  obtain ⟨i, -, rfl⟩ := List.mem_map.mp ha
  exact Nat.le_add_right _ _

/-- The code for a call uses only the locals of the arguments, if the callee has no other locals
than its parameters. -/
theorem mem_arguments_of_callCode {callee : Function} {n : Nat} (hc : callee.Scoped n)
    (hsize : callee.locals.size = callee.paramCount) {signatureOf : Nat → Option Signature}
    {arguments : List Nat} (hlength : arguments.length = callee.params.length) {i : Instr}
    (hi : i ∈ callCode (callee.preparedBody signatureOf) arguments) {l : Nat}
    (hl : i.op.localIndex? = some l) : l ∈ arguments := by
  rcases mem_callCode hi with ⟨a, ha, rfl⟩ | ⟨j, hj, rfl⟩
  · obtain rfl : a = l := by simpa [Op.localIndex?] using hl
    exact ha
  · rw [Instr.op_mapLocal, Op.localIndex?_mapLocal] at hl
    obtain ⟨k, hk, rfl⟩ := Option.map_eq_some_iff.mp hl
    rcases Function.mem_preparedBody hj with hj | e | e | ⟨label, e⟩
    · have hlt := hc.locals j hj k hk
      rw [hsize, Function.paramCount, ← hlength] at hlt
      rw [renameLocal, List.getElem?_eq_getElem hlt]
      exact List.getElem_mem hlt
    all_goals
      rw [e] at hk
      cases hk

namespace Lineage

theorem replaceCalls_of_notMem {index : Nat} {site : Site} {piece : Body} {h : Lineage}
    (hn : ∀ x ∈ h.code, x.instr.op ≠ .call index) : h.replaceCalls index site piece = h := by
  obtain ⟨origin, code⟩ := h
  unfold replaceCalls
  congr 1
  induction code with
  | nil => rfl
  | cons x code ih =>
    rw [List.flatMap_cons, if_neg (hn x List.mem_cons_self),
      ih fun y hy => hn y (List.mem_cons_of_mem _ hy)]
    rfl

theorem map_instr_replaceCalls (index : Nat) (site : Site) (piece : Body) (h : Lineage) :
    (h.replaceCalls index site piece).code.map Placed.instr
      = Inline.replaceCalls index piece (h.code.map Placed.instr) := by
  simp only [replaceCalls, Inline.replaceCalls, List.map_flatMap, List.flatMap_map]
  refine congrArg (List.flatMap · h.code) (funext fun x => ?_)
  split
  · rw [List.map_map]
    exact List.map_id _
  · rfl

/-- **Where an instruction stands** after calls have been replaced: where it stood before, if it
belonged to the caller, and at the site of the call, if it belongs to the piece that was put there.
-/
theorem mem_replaceCalls {index : Nat} {site : Site} {piece : Body} {h : Lineage} {x : Placed}
    (hx : x ∈ (h.replaceCalls index site piece).code) :
    x ∈ h.code ∨ (x.instr ∈ piece ∧ x.site = some site) := by
  obtain ⟨y, hy, hx⟩ := List.mem_flatMap.mp hx
  split at hx
  · obtain ⟨i, hi, rfl⟩ := List.mem_map.mp hx
    exact .inr ⟨hi, rfl⟩
  · obtain rfl := List.mem_singleton.mp hx
    exact .inl hy

section

variable {p : Program} {h : Lineage} {callee f f' : Function} {n origin : Nat} {t : Trace}
  {signatureOf : Nat → Option Signature}

theorem origin_inlineInto {prepared : Body} :
    (h.inlineInto callee origin prepared f).origin = h.origin := by
  unfold inlineInto
  split <;> rfl

/-- Renumbering the calls leaves the locals alone, and so the history of a function stays a good
one. -/
theorem Hygienic.compactCalls (hh : h.Hygienic p f) (c : Compaction) :
    (h.compactCalls c).Hygienic p (f.compactCalls c) := by
  intro x' hx' s hs
  obtain ⟨x, hx, rfl⟩ := List.mem_map.mp hx'
  obtain ⟨callee, hcallee, hargs⟩ := hh x hx s hs
  refine ⟨callee, hcallee, fun j type hj => ?_⟩
  obtain ⟨l, hl, hi, htype, hres⟩ := hargs j type hj
  refine ⟨l, hl, hi, htype, fun y' hy' e => ?_⟩
  obtain ⟨y, hy, rfl⟩ := List.mem_map.mp hy'
  refine hres y hy (e ▸ ?_)
  rw [Instr.op_mapCall]
  cases y.instr.op <;> rfl

/-- **Replacing the calls of one caller keeps its arguments apart.**  The new locals are used by
the new code only, and the new code uses no other locals. -/
theorem hygienic_inlineInto (hf : f.Scoped n) (hc : callee.Scoped n)
    (hsize : callee.locals.size = callee.paramCount)
    (hfresh : ∀ j, f.locals.find? (argumentName callee.name j) = none)
    (horigin : ∃ c, p.functions[origin]? = some c ∧ c.params = callee.params)
    (hin : Inline.inlineInto callee (callee.preparedBody signatureOf) f = .ok (f', t))
    (hcode : h.code.map Placed.instr = f.body) (hh : h.Hygienic p f) :
    (h.inlineInto callee origin (callee.preparedBody signatureOf) f).code.map Placed.instr
        = f'.body ∧
      (h.inlineInto callee origin (callee.preparedBody signatureOf) f).Hygienic p f' := by
  have hmem : ∀ x ∈ h.code, x.instr ∈ f.body := fun x hx => hcode ▸ List.mem_map_of_mem hx
  have ht := hf.declares.contiguous
  rcases inlineInto_cases ht hin with ⟨hn, rfl⟩ | ⟨-, locals, arguments, hdecl, rfl⟩
  · have hsame : h.inlineInto callee origin (callee.preparedBody signatureOf) f' = h := by
      unfold inlineInto
      split
      · exact replaceCalls_of_notMem fun x hx => hn _ (hmem x hx)
      · rfl
    rw [hsame]
    exact ⟨hcode, hh⟩
  · have hspec := declareArguments_spec ht hdecl
    have hnew : h.inlineInto callee origin (callee.preparedBody signatureOf) f
        = h.replaceCalls callee.index ⟨origin, arguments⟩
            (callCode (callee.preparedBody signatureOf) arguments) := by
      unfold inlineInto
      rw [hdecl]
    rw [hnew, map_instr_replaceCalls, hcode]
    refine ⟨rfl, fun x hx s hs => ?_⟩
    rcases mem_replaceCalls hx with hx | ⟨-, hsite⟩
    · -- a call that was replaced before: the new code does not use its locals
      obtain ⟨c, hc', hargs⟩ := hh x hx s hs
      refine ⟨c, hc', fun j type hj => ?_⟩
      obtain ⟨l, hl, hi, htype, hres⟩ := hargs j type hj
      have hlt := LocalTable.index_lt ht hl
      have hkept : locals.types[l.index]? = some type := by
        obtain ⟨rest, e⟩ := hspec.longer
        rw [← e, List.getElem?_append_left (by rwa [LocalTable.length_types])]
        exact (LocalTable.getElem?_types ht).mpr ⟨l, hl, rfl, htype⟩
      obtain ⟨l', hl', hi', htype'⟩ := (LocalTable.getElem?_types hspec.contiguous).mp hkept
      refine ⟨l', hl', by rw [hi, hi'], htype', fun y hy e => ?_⟩
      rw [hi'] at e
      rcases mem_replaceCalls hy with hy | ⟨hy, -⟩
      · exact hres y hy e
      · have := le_of_mem_arguments ht hfresh hdecl
          (mem_arguments_of_callCode hc hsize hspec.length hy e)
        omega
    · -- a call that is replaced now: its locals were not there before
      obtain rfl := Option.some.inj (hsite.symm.trans hs)
      obtain ⟨c, hc', hparams⟩ := horigin
      refine ⟨c, hc', fun j type hj => ?_⟩
      obtain ⟨l, hl, hi, htype, hle⟩ := exists_argument ht hfresh hdecl (hparams ▸ hj)
      refine ⟨l, hl, hi, htype, fun y hy e => ?_⟩
      rcases mem_replaceCalls hy with hy | ⟨-, hsite⟩
      · have := hf.locals _ (hmem y hy) _ e
        omega
      · exact ⟨_, hsite, rfl⟩

end

end Lineage

/-! ## 4. The program

By induction on the record.  One step inlines one callee into all functions at once and then takes
it out (`inline_functions`). -/

namespace Hygienic

variable {p q q' : Program} {record : List Lineage} {callee : Function} {k : Nat} {t : Trace}

theorem own (p : Program) : Hygienic p p (ownLineages p) where
  length := List.length_mapIdx
  functions := by
    intro i g h hg hh
    rw [ownLineages, List.getElem?_mapIdx, hg] at hh
    obtain rfl := Option.some.inj hh
    refine ⟨⟨⟨g, hg, rfl, rfl⟩, ?_⟩, fun x hx s hs => ?_⟩
    · rw [Lineage.own, List.map_map]
      exact List.map_id _
    · obtain ⟨i, -, rfl⟩ := List.mem_map.mp hx
      cases hs

/-- **One inlining keeps the arguments apart.** The locals that it declares have names of their own
in the caller, and the locals of earlier inlinings are carried along under the names that they have.
-/
theorem step (h : Hygienic p q record) (hq : q.Scoped) (hd : q.Distinct)
    (hk : q.functions[k]? = some callee) (ho : callee.obstacles q.tailCallTargets = [])
    (hin : inlineCallee q callee = .ok (q', t)) :
    Hygienic p q' (inlineLineages q callee k record) := by
  have he := Function.eligible_of_obstacles ho
  have hi := inlineCallee_spec hq.indices hk hin
  have hmk := List.mem_of_getElem? hk
  have hklt := (List.getElem?_eq_some_iff.mp hk).1
  have hget : ∀ (i : Nat) (f : Function), q.functions[i]? = some f → ∃ e, record[i]? = some e := by
    intro i f hf
    have hlt := (List.getElem?_eq_some_iff.mp hf).1
    exact ⟨_, List.getElem?_eq_getElem (h.length ▸ hlt)⟩
  obtain ⟨source, hsource⟩ := hget k callee hk
  obtain ⟨c, hc, -, hsignature⟩ := (h.functions k callee source hk hsource).1.origin
  have horigin : ∃ c, p.functions[source.origin]? = some c ∧ c.params = callee.params :=
    ⟨c, hc, congrArg Signature.params hsignature⟩
  have hrecord : inlineLineages q callee k record
      = ((List.zipWith (Lineage.inlineInto callee source.origin
          (callee.preparedBody q.signatureAt?)) q.functions record).eraseIdx k).map
            (Lineage.compactCalls (.removing [callee.index])) := by
    rw [inlineLineages, hsource]
  rw [hrecord]
  constructor
  · have hl := hi.length_functions hk
    rw [List.length_map, List.length_eraseIdx_of_lt (by rw [List.length_zipWith, h.length]; omega),
      List.length_zipWith, h.length]
    omega
  · intro i' g l hg hl
    obtain ⟨i, f, f', t', hne, rfl, hf, hinto, rfl⟩ := hi.exists_source hg
    obtain ⟨e, hrec⟩ := hget i f hf
    obtain ⟨hdesc, hhyg⟩ := h.functions i f e hf hrec
    have hmf := List.mem_of_getElem? hf
    rw [List.getElem?_map, Inlined.getElem?_eraseIdx_position hne, List.getElem?_zipWith, hf,
      hrec] at hl
    obtain rfl := Option.some.inj hl
    have hscoped := hq.functions f hmf
    obtain ⟨hcode, hapart⟩ := Lineage.hygienic_inlineInto hscoped (hq.functions callee hmk) he.size
      (fun j => hd.fresh f hmf callee hmk j) horigin hinto hdesc.code hhyg
    have hkept : f'.name = f.name ∧ f'.signature = f.signature := by
      rcases inlineInto_cases hscoped.declares.contiguous hinto with
        ⟨-, rfl⟩ | ⟨-, locals, arguments, -, rfl⟩ <;> exact ⟨rfl, rfl⟩
    refine ⟨⟨?_, ?_⟩, hapart.compactCalls _⟩
    · obtain ⟨f₀, hf₀, hname, hsig⟩ := hdesc.origin
      refine ⟨f₀, ?_, hname.trans hkept.1.symm, hsig.trans hkept.2.symm⟩
      rw [← hf₀, Lineage.compactCalls, Lineage.origin_inlineInto]
    · rw [Function.compactCalls, ← hcode, List.map_map, Lineage.compactCalls, List.map_map]
      rfl

end Hygienic

/-- **All inlinings keep the arguments apart**, by induction on how the program came about. The
program stays well scoped and its names distinct on the way, which each step needs of the one
before. -/
theorem Recorded.hygienic {p q : Program} {record : List Lineage} (h : Recorded p q record)
    (hp : p.Scoped) (hd : p.Distinct) : q.Scoped ∧ q.Distinct ∧ Hygienic p q record := by
  induction h with
  | start => exact ⟨hp, hd, .own p⟩
  | step before hk ho hin ih =>
    obtain ⟨hq, hd, hh⟩ := ih
    have he := Function.eligible_of_obstacles ho
    have hi := inlineCallee_spec hq.indices hk hin
    exact ⟨hi.wellScoped hq hk he, hi.distinct hq hd hk he, hh.step hq hd hk ho hin⟩

/-- There is a record of every run of the pass, whatever program it starts from; that the record is
a good one is proved afterwards. -/
theorem exists_recorded {p q : Program} {changed : Bool} {t : Trace}
    (h : inlineFunctions p = .ok (q, changed, t)) : ∃ record, Recorded p q record := by
  refine Optimize.inlineFunctions_induction (P := fun q => ∃ record, Recorded p q record)
    (fun q callee q' t hm ho hin ⟨record, hr⟩ => ?_) h ⟨_, .start⟩
  obtain ⟨k, hk⟩ := List.getElem?_of_mem hm
  exact ⟨_, hr.step hk ho hin⟩

/-- **Inlined arguments are kept apart.**  There is a record of what was put in for which call, and
every record says that the local which receives an argument has the type of the parameter and is
used by nothing but what was put in for the same callee. -/
theorem inlineFunctions_hygienic (p : Program) (hp : p.WellFormed) {q : Program} {changed : Bool}
    {t : Trace} (h : inlineFunctions p = .ok (q, changed, t)) :
    (∃ record, Recorded p q record) ∧ ∀ record, Recorded p q record → Hygienic p q record :=
  ⟨exists_recorded h, fun _ hr => (hr.hygienic hp.wellScoped hp.distinct).2.2⟩

/-- The two calls of the sample are replaced, and the second one shares the local of the first. -/
theorem inlineFunctions_hygienic_sample : sample.WellFormed ∧ ∃ q t record,
    inlineFunctions sample = .ok (q, true, t) ∧ Recorded sample q record ∧
      record.map (fun h => h.code.map Placed.site |>.eraseDups) = [[none, some ⟨1, [0]⟩]] ∧
      Hygienic sample q record := by
  have hrun : (inlineFunctions sample).toOption.map (fun r => r.2.1) = some true := by
    decide +kernel
  have hstep : (inlineCallee sample sample.functions[1]).toOption.map Prod.fst
      = (inlineFunctions sample).toOption.map Prod.fst := by decide +kernel
  obtain ⟨⟨q, _, t'⟩, h, rfl⟩ := exists_ok_of_map hrun
  rw [h] at hstep
  obtain ⟨⟨q', t⟩, hin, e'⟩ := exists_ok_of_map hstep
  obtain rfl : q = q' := e'.symm
  have hr : Recorded sample q (inlineLineages sample sample.functions[1] 1 (ownLineages sample)) :=
    .step .start rfl rfl hin
  exact ⟨sample_wellFormed, q, t', _, h, hr, by decide +kernel,
    (inlineFunctions_hygienic sample sample_wellFormed h).2 _ hr⟩

/-! ## 5. Names that are used twice

One program for each of the two conditions. -/

/-- A function that does nothing with its only argument but take it, so that nothing but the store
of the argument is left of a call. -/
def ignoring (index : Nat) (type : ValueType) : Function where
  index
  name := "ignore"
  params := [type]
  locals := ⟨[⟨"value", 0, type⟩], List.pairwise_singleton _ _⟩
  result := none
  body := [.localGet 0, .drop].map Op.plain
  throws := false
  usesMemory := false

/-- An entry point that has the given locals and body, without parameters and results. -/
def entryWith (locals : LocalTable) (ops : List Op) : Function where
  index := 0
  name := entryName
  params := []
  locals
  result := none
  body := ops.map Op.plain
  throws := false
  usesMemory := false

/-- A table with the name that the argument of `ignore` is given. -/
def argumentTable (type : ValueType) : LocalTable :=
  ⟨[⟨"#inline_ignore_param_0", 0, type⟩], List.pairwise_singleton _ _⟩

/-- A program that has only functions: no imports, globals or tags, and no type marked. -/
def programOf (functions : List Function) : Program := ⟨[], functions, [], [], [], .empty⟩

/-- The caller has a local of its own, of another type, by the name of the argument. -/
def borrowed : Program :=
  programOf [entryWith (argumentTable .i64) [.const (.i32 1), .call 1, .localGet 0, .drop],
    ignoring 1 .i32]

/-- Two functions have the same name, and parameters of different types. Both are put into the entry
point, where the argument of the second is given the local of the first. -/
def twins : Program :=
  programOf [entryWith (.ofList []) [.const (.i32 1), .call 1, .const (.i64 2), .call 2],
    ignoring 1 .i32, ignoring 2 .i64]

/-- An argument that is received by a local of another type. -/
theorem not_hygienic_of_type {p q : Program} {record : List Lineage} {i j : Nat}
    {g callee : Function} {h : Lineage} {x : Placed} {s : Site} {type : ValueType}
    (hg : q.functions[i]? = some g) (hh : record[i]? = some h) (hx : x ∈ h.code)
    (hs : x.site = some s)
    (hcallee : p.functions[s.callee]? = some callee) (hj : callee.params[j]? = some type)
    (htypes : ∀ l ∈ g.locals.entries, l.type ≠ type) : ¬ Hygienic p q record := by
  intro hyg
  obtain ⟨c, hc, hargs⟩ := (hyg.functions i g h hg hh).2 x hx s hs
  obtain rfl := Option.some.inj (hcallee.symm.trans hc)
  obtain ⟨l, hl, -, htype, -⟩ := hargs j type hj
  exact htypes l hl htype

theorem declaresParams_ignoring (index : Nat) (type : ValueType) :
    (ignoring index type).DeclaresParams :=
  ⟨by simp [ignoring, LocalTable.isContiguous, LocalTable.byIndex, LocalTable.size],
    by simp [ignoring, LocalTable.types, LocalTable.byIndex]⟩

theorem declaresParams_entryWith {locals : LocalTable} (h : locals.isContiguous) (ops : List Op) :
    (entryWith locals ops).DeclaresParams :=
  ⟨h, List.nil_prefix⟩

theorem isContiguous_argumentTable (type : ValueType) : (argumentTable type).isContiguous := by
  simp [argumentTable, LocalTable.isContiguous, LocalTable.byIndex, LocalTable.size]

/-- **Inlining mixes up arguments** of a program whose functions stand at their indices, whose
parameters are the first locals and whose bodies are well typed. -/
structure MixesArguments (p : Program) : Prop where
  indices : ∀ (i : Nat) (f : Function), p.functions[i]? = some f → f.index = p.functionBase + i
  declares : ∀ f ∈ p.functions, f.DeclaresParams
  typed : p.Typed
  mixes : ∃ q t record, inlineFunctions p = .ok (q, true, t) ∧ Recorded p q record ∧
    ¬ Hygienic p q record

theorem mixesArguments_borrowed : MixesArguments borrowed where
  indices
    | 0, _, h | 1, _, h => by
      obtain rfl := Option.some.inj h
      rfl
  declares := by
    intro f hf
    simp only [borrowed, programOf, List.mem_cons, List.not_mem_nil, or_false] at hf
    rcases hf with rfl | rfl
    · exact declaresParams_entryWith (isContiguous_argumentTable _) _
    · exact declaresParams_ignoring _ _
  typed := by decide +kernel
  mixes := by
    let q := programOf [entryWith (argumentTable .i64)
      [.const (.i32 1), .localSet 0, .localGet 0, .drop, .localGet 0, .drop]]
    have hrun :
        (inlineFunctions borrowed).toOption.map (fun r => (r.1, r.2.1)) = some (q, true) := by
      decide +kernel
    have hstep : (inlineCallee borrowed (ignoring 1 .i32)).toOption.map Prod.fst = some q := by
      decide +kernel
    obtain ⟨⟨_, _, t⟩, h, e⟩ := exists_ok_of_map hrun
    obtain ⟨rfl, rfl⟩ := Prod.mk.inj e
    obtain ⟨⟨_, t'⟩, hin, rfl⟩ := exists_ok_of_map hstep
    have hr : Recorded borrowed q _ := .step (k := 1) .start rfl rfl hin
    refine ⟨q, t, _, h, hr, ?_⟩
    exact not_hygienic_of_type (i := 0) (j := 0) (x := ⟨(Op.localSet 0).plain, some ⟨1, [0]⟩⟩) rfl
      rfl (by decide +kernel) rfl rfl rfl (by decide)

theorem mixesArguments_twins : MixesArguments twins where
  indices
    | 0, _, h | 1, _, h | 2, _, h => by
      obtain rfl := Option.some.inj h
      rfl
  declares := by
    intro f hf
    simp only [twins, programOf, List.mem_cons, List.not_mem_nil, or_false] at hf
    rcases hf with rfl | rfl | rfl
    · exact declaresParams_entryWith (by decide +kernel) _
    · exact declaresParams_ignoring _ _
    · exact declaresParams_ignoring _ _
  typed := by decide +kernel
  mixes := by
    -- the first of the two is inlined, then the second one, which has its index by now
    let q₁ := programOf [entryWith (argumentTable .i32)
      [.const (.i32 1), .localSet 0, .localGet 0, .drop, .const (.i64 2), .call 1], ignoring 1 .i64]
    let q := programOf [entryWith (argumentTable .i32)
      [.const (.i32 1), .localSet 0, .localGet 0, .drop,
        .const (.i64 2), .localSet 0, .localGet 0, .drop]]
    have hrun : (inlineFunctions twins).toOption.map (fun r => (r.1, r.2.1)) = some (q, true) := by
      decide +kernel
    have hstep₁ : (inlineCallee twins (ignoring 1 .i32)).toOption.map Prod.fst = some q₁ := by
      decide +kernel
    have hstep₂ : (inlineCallee q₁ (ignoring 1 .i64)).toOption.map Prod.fst = some q := by
      decide +kernel
    obtain ⟨⟨_, _, t⟩, h, e⟩ := exists_ok_of_map hrun
    obtain ⟨rfl, rfl⟩ := Prod.mk.inj e
    obtain ⟨⟨_, t₁⟩, hin₁, rfl⟩ := exists_ok_of_map hstep₁
    obtain ⟨⟨_, t₂⟩, hin₂, rfl⟩ := exists_ok_of_map hstep₂
    have hr : Recorded twins q _ :=
      .step (k := 1) (.step (k := 1) .start rfl rfl hin₁) rfl rfl hin₂
    refine ⟨q, t, _, h, hr, ?_⟩
    exact not_hygienic_of_type (i := 0) (j := 0) (x := ⟨(Op.localSet 0).plain, some ⟨2, [0]⟩⟩) rfl
      rfl (by decide +kernel) rfl rfl rfl (by decide)

/-- **Arguments are not kept apart by their names alone.**  An argument is received by a local of
another type: one that the caller had before, or one that belongs to another function of the same
name. -/
theorem inlineFunctions_unhygienic : MixesArguments borrowed ∧ MixesArguments twins :=
  ⟨mixesArguments_borrowed, mixesArguments_twins⟩

end WasmTrim.Inline
