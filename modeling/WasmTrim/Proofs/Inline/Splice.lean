/-
# Splicing a callee into its callers

What one inlining does to the program, without its bookkeeping.  The calls of a caller are
replaced one after the other, and each replacement declares the locals for the arguments.  All
of them find the same locals, so the code put in place of the calls is always the same, and the
table changes only once (`Inline.inlineInto_cases`).  When the names of these locals are new,
they lie behind all other locals, the last parameter first (`Inline.declareArguments_fresh`).

In the program every function but the callee is changed in this way, the callee is taken out, and
the functions and calls behind it are renumbered (`Inline.inlineCallee_spec`).

This is all that later modules know of the inliner: `Inline.Inlined` relates a program to what one
inlining has made of it, and nothing behind this module opens the definitions of the pass
(`inline_call_sites`, `inline_functions`).  It says of each function what it was before, which code
stands for each call, which locals were added, and what the flag on memory has become.

Declaring the arguments again finds them again, because names do not change and nothing removes a
local between two calls of one caller.  So the code for the second call is that for the first.  The
only thing that a further call needs is that there would be an index for one more local.
-/
import WasmTrim.Inline.Pass
import WasmTrim.Proofs.Locals

namespace WasmTrim.Inline

/-! ## 1. The names of the arguments

A name ends in the position of a parameter, written in digits, behind a piece that holds a letter;
so the two parts of a name can be told apart. -/

theorem toList_argumentName (callee : String) (position : Nat) :
    (argumentName callee position).toList
      = "#inline_".toList ++ callee.toList ++ "_param_".toList ++ Nat.toDigits 10 position := by
  simp only [argumentName, String.toList_append]
  simp [toString, Nat.toList_repr]

/-- **The name of an argument tells the callee and the parameter.** So the locals for one callee do
not take the names of those for another, also where one callee was inlined into the other before. -/
theorem argumentName_inj {callee callee' : String} {position position' : Nat}
    (h : argumentName callee position = argumentName callee' position') :
    callee = callee' ∧ position = position' := by
  have h := congrArg String.toList h
  rw [toList_argumentName, toList_argumentName] at h
  -- the digits are what stands behind the last underscore
  have hsplit : ∀ {a a' b b' : List Char}, '_' ∉ b → '_' ∉ b' →
      a ++ '_' :: b = a' ++ '_' :: b' → a = a' ∧ b = b' := by
    intro a a' b b' hb hb' e
    rcases List.append_eq_append_iff.mp e with ⟨c, rfl, hc⟩ | ⟨c, rfl, hc⟩
    · cases c with
      | nil => exact ⟨by simp, (List.cons.inj hc).2⟩
      | cons x c =>
        refine absurd ?_ hb
        rw [(List.cons.inj hc).2]
        simp
    · cases c with
      | nil => exact ⟨by simp, (List.cons.inj hc).2.symm⟩
      | cons x c =>
        refine absurd ?_ hb'
        rw [(List.cons.inj hc).2]
        simp
  have hassoc : ∀ (c : String) (n : Nat),
      "#inline_".toList ++ c.toList ++ "_param_".toList ++ Nat.toDigits 10 n
        = ("#inline_".toList ++ c.toList ++ "_param".toList) ++ '_' :: Nat.toDigits 10 n := by
    intro c n
    simp
  rw [hassoc, hassoc] at h
  obtain ⟨hc, hd⟩ := hsplit Nat.underscore_not_in_toDigits Nat.underscore_not_in_toDigits h
  refine ⟨String.toList_inj.mp (List.append_cancel_left (List.append_cancel_right hc)), ?_⟩
  have e := congrArg (Nat.ofDigitChars 10 · 0) hd
  simpa using e

/-! ## 2. Declaring the arguments

The last parameter is declared first (`inline_call_sites`).  A name that is taken gives the index
that it has, and any other the next index, so the first call decides and all others repeat its
answer. -/

/-- What declaring the arguments of a callee makes of a table. -/
structure Declared (callee : String) (position : Nat) (types : List ValueType)
    (t t' : LocalTable) (arguments : List Nat) : Prop where
  contiguous : t'.isContiguous
  longer : t.types <+: t'.types
  length : arguments.length = types.length
  found : ∀ j a, arguments[j]? = some a →
    ∃ l, t'.find? (argumentName callee (position + j)) = some l ∧ l.index = a
  kept : ∀ name l, t.find? name = some l → t'.find? name = some l
  names : ∀ l ∈ t'.entries, l ∈ t.entries ∨
    ∃ j < types.length, l.name = argumentName callee (position + j)

theorem Declared.size_le {callee : String} {position : Nat} {types : List ValueType}
    {t t' : LocalTable} {arguments : List Nat}
    (h : Declared callee position types t t' arguments) : t.size ≤ t'.size := by
  rw [← LocalTable.length_types, ← LocalTable.length_types]
  exact h.longer.length_le

theorem Declared.lt {callee : String} {position : Nat} {types : List ValueType}
    {t t' : LocalTable} {arguments : List Nat}
    (h : Declared callee position types t t' arguments) {a : Nat} (ha : a ∈ arguments) :
    a < t'.size := by
  obtain ⟨j, hj⟩ := List.getElem?_of_mem ha
  obtain ⟨l, hl, rfl⟩ := h.found j a hj
  exact LocalTable.index_lt h.contiguous (LocalTable.mem_of_find? hl).1

/-- The two ways in which one more argument is declared. -/
theorem declareArguments_cons {callee : String} {position : Nat} {type : ValueType}
    {types : List ValueType} {t t' : LocalTable} {arguments : List Nat}
    (h : declareArguments callee (type :: types) position t = .ok (t', arguments)) :
    ∃ t₁ rest index, declareArguments callee types (position + 1) t = .ok (t₁, rest) ∧
      t₁.declare (argumentName callee position) type = .ok (t', index) ∧
      arguments = index :: rest := by
  simp only [declareArguments, bind, Except.bind] at h
  split at h
  · cases h
  · rename_i v hv
    obtain ⟨t₁, rest⟩ := v
    simp only at h
    split at h
    · cases h
    · rename_i v' hv'
      obtain ⟨t₂, index⟩ := v'
      obtain ⟨rfl, rfl⟩ := Prod.mk.inj (Except.ok.inj h)
      exact ⟨t₁, rest, index, hv, hv', rfl⟩

/-- A local is found under its name after it has been declared. -/
theorem declare_cases {t t' : LocalTable} (ht : t.isContiguous) {name : String} {type : ValueType}
    {index : Nat} (h : t.declare name type = .ok (t', index)) :
    (t' = t ∧ ∃ l, t.find? name = some l ∧ l.index = index) ∨
      (t.find? name = none ∧ t' = t.insert ⟨name, t.size, type⟩ ∧ index = t.size) := by
  cases hf : t.find? name with
  | some l =>
    rw [LocalTable.declare_of_find? ht hf] at h
    split at h
    · obtain ⟨rfl, rfl⟩ := Prod.mk.inj (Except.ok.inj h)
      exact .inl ⟨rfl, l, rfl, rfl⟩
    · cases h
  | none =>
    rw [LocalTable.declare_new ht hf] at h
    split at h
    · obtain ⟨rfl, rfl⟩ := Prod.mk.inj (Except.ok.inj h)
      exact .inr ⟨rfl, rfl, rfl⟩
    · cases h

/-- **What declaring the arguments does**, whether or not their names are taken: the indices that it
gives are those of the names, and the table has grown by the names that were new. -/
theorem declareArguments_spec {callee : String} : ∀ {types : List ValueType} {position : Nat}
    {t t' : LocalTable} {arguments : List Nat}, t.isContiguous →
    declareArguments callee types position t = .ok (t', arguments) →
      Declared callee position types t t' arguments
  | [], position, t, t', arguments, ht, h => by
    obtain ⟨rfl, rfl⟩ := Prod.mk.inj (Except.ok.inj h)
    exact ⟨ht, List.prefix_rfl, rfl, fun j a e => by simp at e, fun _ _ h => h, fun l hl => .inl hl⟩
  | type :: types, position, t, t', arguments, ht, h => by
    obtain ⟨t₁, rest, index, h₁, h₂, rfl⟩ := declareArguments_cons h
    have ih := declareArguments_spec ht h₁
    have hnames : ∀ l ∈ t₁.entries, l ∈ t.entries ∨
        ∃ j < (type :: types).length, l.name = argumentName callee (position + j) := by
      intro l hl
      refine (ih.names l hl).imp_right ?_
      rintro ⟨j, hj, e⟩
      exact ⟨j + 1, by simpa using hj, by rw [e]; congr 1; omega⟩
    have hfound : ∀ {t' : LocalTable} {l₀ : Local},
        t'.find? (argumentName callee position) = some l₀ → l₀.index = index →
        (∀ name l, t₁.find? name = some l → t'.find? name = some l) →
        ∀ j a, (index :: rest)[j]? = some a →
          ∃ l, t'.find? (argumentName callee (position + j)) = some l ∧ l.index = a := by
      intro t' l₀ h₀ hi hk j a e
      cases j with
      | zero => exact ⟨l₀, h₀, hi.trans (by simpa using e)⟩
      | succ j =>
        obtain ⟨l, hl, hla⟩ := ih.found j a (by simpa using e)
        refine ⟨l, hk _ _ ?_, hla⟩
        rw [← hl]
        congr 2
        omega
    rcases declare_cases ih.contiguous h₂ with ⟨rfl, l₀, hl₀, hi⟩ | ⟨hn, rfl, rfl⟩
    · exact ⟨ih.contiguous, ih.longer, by simp [ih.length], hfound hl₀ hi fun _ _ h => h, ih.kept,
        hnames⟩
    · have hc := LocalTable.insert_contiguous ih.contiguous type hn
      have hkept : ∀ name l, t₁.find? name = some l →
          (t₁.insert ⟨argumentName callee position, t₁.size, type⟩).find? name = some l := by
        intro name l hl
        rw [LocalTable.find?_insert_of_ne _ ?_, hl]
        rintro rfl
        rw [hn] at hl
        cases hl
      refine ⟨hc.1, ?_, by simp [ih.length], hfound (LocalTable.find?_insert_self _ _) rfl hkept,
        fun name l h => hkept name l (ih.kept name l h), fun l hl => ?_⟩
      · rw [hc.2]
        exact ih.longer.trans (List.prefix_append _ _)
      · rcases List.mem_cons.mp ((LocalTable.insert_perm hn).mem_iff.mp hl) with rfl | hl
        · exact .inr ⟨0, by simp, rfl⟩
        · exact hnames l hl

/-- Declaring arguments that are there changes nothing; it only needs room for one more. -/
theorem declareArguments_of_found {callee : String} : ∀ {types : List ValueType} {position : Nat}
    {t : LocalTable} {arguments : List Nat}, t.isContiguous → arguments.length = types.length →
    (∀ j a, arguments[j]? = some a →
      ∃ l, t.find? (argumentName callee (position + j)) = some l ∧ l.index = a) →
    declareArguments callee types position t
      = if types = [] ∨ t.size < indexLimit then .ok (t, arguments)
        else .error .localIndexOverflow
  | [], position, t, arguments, _, hl, _ => by
    obtain rfl := List.eq_nil_of_length_eq_zero hl
    rfl
  | type :: types, position, t, [], _, hl, _ => by cases hl
  | type :: types, position, t, index :: rest, ht, hl, hf => by
    have hrest := @declareArguments_of_found callee types (position + 1) t rest ht
      (by simpa using hl) (fun j a e => by
        obtain ⟨l, hl, hla⟩ := hf (j + 1) a (by simpa using e)
        refine ⟨l, ?_, hla⟩
        rw [← hl]
        congr 2
        omega)
    obtain ⟨l, hfl, rfl⟩ := hf 0 index rfl
    have e := @LocalTable.declare_of_find? t ht (argumentName callee position) type l hfl
    rw [declareArguments, hrest]
    by_cases hs : t.size < indexLimit
    · rw [if_pos hs] at e
      simp only [hs, or_true, if_true, e, bind, Except.bind, pure, Except.pure]
    · rw [if_neg hs] at e
      simp only [hs, or_false, reduceCtorEq, if_false]
      split <;> simp only [e, bind, Except.bind]

/-- **New arguments lie behind all other locals**, the last parameter first. No local of the caller
is moved or retyped, so the rest of its body can stay as it is. -/
theorem declareArguments_fresh {callee : String} : ∀ {types : List ValueType} {position : Nat}
    {t t' : LocalTable} {arguments : List Nat}, t.isContiguous →
    (∀ j, t.find? (argumentName callee j) = none) →
    declareArguments callee types position t = .ok (t', arguments) →
      t'.types = t.types ++ types.reverse ∧
        arguments = (List.range types.length).reverse.map (t.size + ·)
  | [], position, t, t', arguments, ht, hn, h => by
    obtain ⟨rfl, rfl⟩ := Prod.mk.inj (Except.ok.inj h)
    exact ⟨by simp, rfl⟩
  | type :: types, position, t, t', arguments, ht, hn, h => by
    obtain ⟨t₁, rest, index, h₁, h₂, rfl⟩ := declareArguments_cons h
    obtain ⟨htypes, hrest⟩ := declareArguments_fresh ht hn h₁
    have hd := declareArguments_spec ht h₁
    -- what has been declared so far belongs to later parameters
    have hnew : t₁.find? (argumentName callee position) = none := by
      rw [LocalTable.find?_eq_none]
      intro l hl e
      rcases hd.names l hl with hl | ⟨j, -, ej⟩
      · exact LocalTable.find?_eq_none.mp (hn position) l hl e
      · have := (argumentName_inj (e.symm.trans ej)).2
        omega
    have hsize : t₁.size = t.size + types.length := by
      rw [← LocalTable.length_types, htypes, List.length_append, LocalTable.length_types,
        List.length_reverse]
    rcases declare_cases hd.contiguous h₂ with ⟨-, l, hl, -⟩ | ⟨-, rfl, rfl⟩
    · rw [hnew] at hl
      cases hl
    · refine ⟨?_, ?_⟩
      · rw [(LocalTable.insert_contiguous hd.contiguous type hnew).2, htypes, List.reverse_cons,
          List.append_assoc]
      · rw [List.length_cons, List.range_succ, List.reverse_append, List.map_append, ← hrest, hsize]
        rfl

/-- Declaring the arguments succeeds while there are indices left, and adds at most one local for
each of them. -/
theorem exists_declareArguments {callee : String} : ∀ {types : List ValueType} {position : Nat}
    {t : LocalTable}, t.isContiguous → t.size + types.length < indexLimit →
    ∃ t' arguments, declareArguments callee types position t = .ok (t', arguments) ∧
      t'.size ≤ t.size + types.length
  | [], position, t, _, _ => ⟨t, [], rfl, Nat.le_refl _⟩
  | type :: types, position, t, ht, hs => by
    rw [List.length_cons] at hs
    obtain ⟨t₁, rest, h₁, hle⟩ :=
      @exists_declareArguments callee types (position + 1) t ht (by omega)
    have hd := declareArguments_spec ht h₁
    have hlt : t₁.size < indexLimit := by omega
    rw [List.length_cons]
    cases hf : t₁.find? (argumentName callee position) with
    | some l =>
      have e := @LocalTable.declare_of_find? t₁ hd.contiguous _ type l hf
      rw [if_pos hlt] at e
      refine ⟨t₁, l.index :: rest, ?_, by omega⟩
      simp only [declareArguments, h₁, e, bind, Except.bind, pure, Except.pure]
    | none =>
      have e := @LocalTable.declare_new t₁ hd.contiguous _ type hf
      rw [if_pos hlt] at e
      refine ⟨t₁.insert ⟨argumentName callee position, t₁.size, type⟩, t₁.size :: rest, ?_, ?_⟩
      · simp only [declareArguments, h₁, e, bind, Except.bind, pure, Except.pure]
      · have :=
          (LocalTable.insert_perm (l := ⟨argumentName callee position, t₁.size, type⟩) hf).length_eq
        simp only [List.length_cons] at this
        simp only [LocalTable.size] at hle this ⊢
        omega

/-! ## 3. Replacing the calls of one function

The loop over the body declares the arguments at each call anew.  After the first call this changes
nothing, and the loop is a plain replacement. -/

/-- A body with a piece of code in place of every call of a function. -/
def replaceCalls (index : Nat) (code : Body) (body : Body) : Body :=
  body.flatMap fun i => if i.op = .call index then code else [i]

theorem replaceCalls_of_notMem {index : Nat} {code body : Body}
    (h : ∀ i ∈ body, i.op ≠ .call index) : replaceCalls index code body = body := by
  unfold replaceCalls
  induction body with
  | nil => rfl
  | cons i body ih =>
    rw [List.flatMap_cons, if_neg (h i List.mem_cons_self),
      ih fun j hj => h j (List.mem_cons_of_mem _ hj)]
    rfl

theorem mem_replaceCalls {index : Nat} {code body : Body} {i : Instr} :
    i ∈ replaceCalls index code body ↔
      (i ∈ body ∧ i.op ≠ .call index) ∨ (i ∈ code ∧ ∃ j ∈ body, j.op = .call index) := by
  unfold replaceCalls
  simp only [List.mem_flatMap]
  constructor
  · rintro ⟨j, hj, hi⟩
    split at hi
    · rename_i e
      exact .inr ⟨hi, j, hj, e⟩
    · rename_i e
      obtain rfl : i = j := by simpa using hi
      exact .inl ⟨hj, e⟩
  · rintro (⟨hi, e⟩ | ⟨hi, j, hj, e⟩)
    · exact ⟨i, hi, by simp [e]⟩
    · exact ⟨j, hj, by simp [e, hi]⟩

section

variable {callee : Function} {prepared : Body} {caller : String}

/-- Once the arguments are declared, every further call finds them. -/
theorem expandCalls_of_declared {t : LocalTable} {arguments : List Nat}
    (h : ∀ r, declareArguments callee.name callee.params 0 t = .ok r → r = (t, arguments)) :
    ∀ {body : Body} {out : Expansion}, expandCalls callee prepared caller body t = .ok out →
      out.body = replaceCalls callee.index (callCode prepared arguments) body ∧ out.locals = t ∧
        (0 < out.sites ↔ ∃ i ∈ body, i.op = .call callee.index)
  | [], out, e => by
    obtain rfl := Except.ok.inj e
    exact ⟨rfl, rfl, by simp⟩
  | i :: body, out, e => by
    rw [expandCalls] at e
    split at e
    · rename_i hi
      simp only [bind, Except.bind] at e
      split at e
      · cases e
      · rename_i v hv
        obtain rfl := h v hv
        simp only at e
        split at e
        · cases e
        · rename_i out' hout
          obtain ⟨hb, hl, -⟩ := expandCalls_of_declared h hout
          obtain rfl := Except.ok.inj e
          refine ⟨?_, hl, ?_⟩
          · simp only [hb, replaceCalls, List.flatMap_cons, if_pos hi]
          · exact ⟨fun _ => ⟨i, List.mem_cons_self, hi⟩, fun _ => Nat.succ_pos _⟩
    · rename_i hi
      simp only [bind, Except.bind] at e
      split at e
      · cases e
      · rename_i out' hout
        obtain ⟨hb, hl, hs⟩ := expandCalls_of_declared h hout
        obtain rfl := Except.ok.inj e
        refine ⟨?_, hl, ?_⟩
        · simp only [hb, replaceCalls, List.flatMap_cons, if_neg hi]
          rfl
        · simp [hs, hi]

/-- **All calls of a body are replaced by the same code**, for which the arguments are declared
once; a body without calls stays as it is. -/
theorem expandCalls_cases {t : LocalTable} (ht : t.isContiguous) :
    ∀ {body : Body} {out : Expansion}, expandCalls callee prepared caller body t = .ok out →
      ((∀ i ∈ body, i.op ≠ .call callee.index) ∧ out.body = body ∧ out.locals = t ∧ out.sites = 0) ∨
      ((∃ i ∈ body, i.op = .call callee.index) ∧ 0 < out.sites ∧ ∃ arguments,
        declareArguments callee.name callee.params 0 t = .ok (out.locals, arguments) ∧
        out.body = replaceCalls callee.index (callCode prepared arguments) body)
  | [], out, e => by
    obtain rfl := Except.ok.inj e
    exact .inl ⟨by simp, rfl, rfl, rfl⟩
  | i :: body, out, e => by
    rw [expandCalls] at e
    split at e
    · rename_i hi
      simp only [bind, Except.bind] at e
      split at e
      · cases e
      · rename_i v hv
        obtain ⟨t', arguments⟩ := v
        have hd := declareArguments_spec ht hv
        simp only at e
        split at e
        · cases e
        · rename_i out' hout
          have hagain : ∀ r, declareArguments callee.name callee.params 0 t' = .ok r →
              r = (t', arguments) := by
            intro r hr
            rw [declareArguments_of_found hd.contiguous hd.length hd.found] at hr
            split at hr
            · exact (Except.ok.inj hr).symm
            · cases hr
          obtain ⟨hb, hl, -⟩ := expandCalls_of_declared hagain hout
          obtain rfl := Except.ok.inj e
          refine .inr ⟨⟨i, List.mem_cons_self, hi⟩, Nat.succ_pos _, arguments, ?_, ?_⟩
          · simp only [hl, hv]
          · simp only [hb, replaceCalls, List.flatMap_cons, if_pos hi]
    · rename_i hi
      simp only [bind, Except.bind] at e
      split at e
      · cases e
      · rename_i out' hout
        have ih := expandCalls_cases ht hout
        obtain rfl := Except.ok.inj e
        rcases ih with ⟨hn, hb, hl, hs⟩ | ⟨⟨j, hj, hc⟩, hs, arguments, hd, hb⟩
        · refine .inl ⟨?_, by simp only [hb], hl, hs⟩
          simp only [List.mem_cons, forall_eq_or_imp]
          exact ⟨hi, hn⟩
        · refine .inr ⟨⟨j, List.mem_cons_of_mem _ hj, hc⟩, hs, arguments, hd, ?_⟩
          simp only [hb, replaceCalls, List.flatMap_cons, if_neg hi]
          rfl

/-- **What inlining does to one caller.** A caller without calls of the callee is left alone; in any
other all calls are replaced by one and the same code, and the table of locals has changed once. -/
theorem inlineInto_cases {f f' : Function} {t : Trace} (hf : f.locals.isContiguous)
    (h : inlineInto callee prepared f = .ok (f', t)) :
    ((∀ i ∈ f.body, i.op ≠ .call callee.index) ∧ f' = f) ∨
      ((∃ i ∈ f.body, i.op = .call callee.index) ∧ ∃ locals arguments,
        declareArguments callee.name callee.params 0 f.locals = .ok (locals, arguments) ∧
        f' = { f with
          body := replaceCalls callee.index (callCode prepared arguments) f.body
          locals := locals
          usesMemory := f.usesMemory || callee.usesMemory }) := by
  simp only [inlineInto, bind, Except.bind] at h
  split at h
  · cases h
  · rename_i out hout
    obtain ⟨rfl, -⟩ := Prod.mk.inj (Except.ok.inj h)
    rcases expandCalls_cases hf hout with ⟨hn, hb, hl, hs⟩ | ⟨hc, hs, arguments, hd, hb⟩
    · refine .inl ⟨hn, ?_⟩
      simp only [hb, hl, hs, Nat.lt_irrefl, decide_false, Bool.false_and, Bool.or_false]
    · exact .inr ⟨hc, out.locals, arguments, hd, by simp only [hb, hs, decide_true, Bool.true_and]⟩

/-- Inlining into one caller succeeds while there are indices left. -/
theorem exists_inlineInto {f : Function} (hf : f.locals.isContiguous)
    (hs : f.locals.size + callee.params.length < indexLimit) :
    ∃ f' t, inlineInto callee prepared f = .ok (f', t) ∧
      f'.locals.size ≤ f.locals.size + callee.params.length := by
  -- the table is as at the start, or the arguments have been declared
  let Ready (t : LocalTable) : Prop :=
    t.isContiguous ∧ t.size ≤ f.locals.size + callee.params.length ∧
      (t = f.locals ∨ ∃ arguments : List Nat, arguments.length = callee.params.length ∧
        ∀ j a, arguments[j]? = some a →
          ∃ l, t.find? (argumentName callee.name (0 + j)) = some l ∧ l.index = a)
  have hdeclare : ∀ t, Ready t → ∃ t' arguments,
      declareArguments callee.name callee.params 0 t = .ok (t', arguments) ∧ Ready t' := by
    rintro t ⟨hc, hle, rfl | ⟨arguments, hl, hfound⟩⟩
    · obtain ⟨t', arguments, hd, hle'⟩ :=
        @exists_declareArguments callee.name callee.params 0 f.locals hf hs
      have hspec := declareArguments_spec hf hd
      exact ⟨t', arguments, hd, hspec.contiguous, hle', .inr ⟨arguments, hspec.length, hspec.found⟩⟩
    · refine ⟨t, arguments, ?_, hc, hle, .inr ⟨arguments, hl, hfound⟩⟩
      rw [declareArguments_of_found hc hl hfound, if_pos (.inr (by omega))]
  have hexpand : ∀ (body : Body) (t : LocalTable), Ready t →
      ∃ out, expandCalls callee prepared f.name body t = .ok out ∧ Ready out.locals := by
    intro body
    induction body with
    | nil => exact fun t ht => ⟨⟨[], t, 0, []⟩, rfl, ht⟩
    | cons i body ih =>
      intro t ht
      rw [expandCalls]
      split
      · obtain ⟨t', arguments, hd, ht'⟩ := hdeclare t ht
        obtain ⟨out, ho, hr⟩ := ih t' ht'
        simp only [hd, ho, bind, Except.bind, pure, Except.pure]
        exact ⟨_, rfl, hr⟩
      · obtain ⟨out, ho, hr⟩ := ih t ht
        simp only [ho, bind, Except.bind, pure, Except.pure]
        exact ⟨_, rfl, hr⟩
  obtain ⟨out, ho, hr⟩ := hexpand f.body f.locals ⟨hf, by omega, .inl rfl⟩
  simp only [inlineInto, ho, bind, Except.bind, pure, Except.pure]
  exact ⟨_, _, rfl, hr.2.1⟩

end

/-! ## 4. The program

All functions but the callee are callers, whether or not they call it (`inline_functions`). -/

/-- What inlining does to the list of functions: those at another index than the callee's are
changed one by one. -/
theorem inlineIntoAll_spec {callee : Function} {prepared : Body} :
    ∀ {fs fs' : List Function} {t : Trace}, inlineIntoAll callee prepared fs = .ok (fs', t) →
      fs'.length = fs.length ∧
        ∀ (i : Nat) (f : Function), fs[i]? = some f → ∃ f', fs'[i]? = some f' ∧
        ((f.index = callee.index ∧ f' = f) ∨
          (f.index ≠ callee.index ∧ ∃ t, inlineInto callee prepared f = .ok (f', t)))
  | [], fs', t, h => by
    obtain ⟨rfl, -⟩ := Prod.mk.inj (Except.ok.inj h)
    exact ⟨rfl, fun i f e => by simp at e⟩
  | f :: fs, fs', t, h => by
    rw [inlineIntoAll] at h
    split at h
    · rename_i hi
      simp only [bind, Except.bind] at h
      split at h
      · cases h
      · rename_i v hv
        obtain ⟨rest, t'⟩ := v
        obtain ⟨rfl, -⟩ := Prod.mk.inj (Except.ok.inj h)
        obtain ⟨hl, hr⟩ := inlineIntoAll_spec hv
        refine ⟨by simp [hl], fun i g e => ?_⟩
        cases i with
        | zero =>
          obtain rfl : f = g := by simpa using e
          exact ⟨f, rfl, .inl ⟨hi, rfl⟩⟩
        | succ i => simpa using hr i g (by simpa using e)
    · rename_i hi
      simp only [bind, Except.bind] at h
      split at h
      · cases h
      · rename_i v hv
        obtain ⟨f', t'⟩ := v
        simp only at h
        split at h
        · cases h
        · rename_i v' hv'
          obtain ⟨rest, t''⟩ := v'
          obtain ⟨rfl, -⟩ := Prod.mk.inj (Except.ok.inj h)
          obtain ⟨hl, hr⟩ := inlineIntoAll_spec hv'
          refine ⟨by simp [hl], fun i g e => ?_⟩
          cases i with
          | zero =>
            obtain rfl : f = g := by simpa using e
            exact ⟨f', rfl, .inr ⟨hi, t', hv⟩⟩
          | succ i => simpa using hr i g (by simpa using e)

theorem exists_inlineIntoAll {callee : Function} {prepared : Body} :
    ∀ {fs : List Function}, (∀ f ∈ fs, f.index ≠ callee.index →
      ∃ f' t, inlineInto callee prepared f = .ok (f', t)) →
      ∃ fs' t, inlineIntoAll callee prepared fs = .ok (fs', t)
  | [], _ => ⟨[], [], rfl⟩
  | f :: fs, h => by
    obtain ⟨fs', t, hfs⟩ := exists_inlineIntoAll fun g hg => h g (List.mem_cons_of_mem _ hg)
    rw [inlineIntoAll]
    split
    · simp only [hfs, bind, Except.bind, pure, Except.pure]
      exact ⟨_, _, rfl⟩
    · rename_i hi
      obtain ⟨f', t', hf⟩ := h f List.mem_cons_self hi
      simp only [hf, hfs, bind, Except.bind, pure, Except.pure]
      exact ⟨_, _, rfl⟩

theorem index_of_inlineInto {callee f f' : Function} {prepared : Body} {t : Trace}
    (h : inlineInto callee prepared f = .ok (f', t)) : f'.index = f.index := by
  simp only [inlineInto, bind, Except.bind] at h
  split at h
  · cases h
  · obtain ⟨rfl, -⟩ := Prod.mk.inj (Except.ok.inj h)
    rfl

/-- What inlining leaves of a program whose functions stand at their indices. -/
structure Inlined (p p' : Program) (callee : Function) (k : Nat) : Prop where
  imports : p'.imports = p.imports
  globals : p'.globals = p.globals
  tags : p'.tags = p.tags
  exceptions : p'.exceptions = p.exceptions
  types : p'.types = p.types
  /-- The callee is taken out, and every other function is changed and renumbered. -/
  functions : ∃ fs : List Function, fs.length = p.functions.length ∧
    p'.functions = (fs.eraseIdx k).map (Function.compactCalls (.removing [callee.index])) ∧
    ∀ (i : Nat) (f : Function), p.functions[i]? = some f → ∃ f', fs[i]? = some f' ∧
      ((i = k ∧ f' = f) ∨
        (i ≠ k ∧ ∃ t, inlineInto callee (callee.preparedBody p.signatureAt?) f = .ok (f', t)))

/-- **What one inlining does to a program**, stated as a relation between the programs before and
after it. Nothing is said about how the pass goes about it. -/
theorem inlineCallee_spec {p p' : Program} {callee : Function} {k : Nat} {t : Trace}
    (hindex : ∀ (i : Nat) (f : Function), p.functions[i]? = some f → f.index = p.functionBase + i)
    (hk : p.functions[k]? = some callee) (h : inlineCallee p callee = .ok (p', t)) :
    Inlined p p' callee k := by
  simp only [inlineCallee, bind, Except.bind] at h
  split at h
  · cases h
  · rename_i v hv
    obtain ⟨fs, t'⟩ := v
    obtain ⟨rfl, -⟩ := Prod.mk.inj (Except.ok.inj h)
    obtain ⟨hl, hfs⟩ := inlineIntoAll_spec hv
    -- the callee is the only function at its index
    have hat : ∀ (i : Nat) (f' : Function), fs[i]? = some f' → f'.index = p.functionBase + i := by
      intro i f' e
      have hi : i < p.functions.length := by
        have := (List.getElem?_eq_some_iff.mp e).1
        omega
      have ep := List.getElem?_eq_getElem hi
      obtain ⟨g, hg, hcase⟩ := hfs i _ ep
      obtain rfl := Option.some.inj (e.symm.trans hg)
      rcases hcase with ⟨-, rfl⟩ | ⟨-, t, ht⟩
      · exact hindex i _ ep
      · rw [index_of_inlineInto ht]
        exact hindex i _ ep
    have hcallee := hindex k callee hk
    have hkl : k < fs.length := by
      have := (List.getElem?_eq_some_iff.mp hk).1
      omega
    have hg := List.getElem?_eq_getElem hkl
    have hcallee' : fs[k].index = callee.index := (hat k _ hg).trans hcallee.symm
    have hremoved : ({ p with functions := fs } : Program).withoutFunction callee.index
        = { p with functions :=
            (fs.eraseIdx k).map (Function.compactCalls (.removing [callee.index])) } := by
      have := @Program.removeFunction_of_getElem? { p with functions := fs } k _ hat hg
      rw [Program.withoutFunction, ← hcallee', this]
    rw [hremoved]
    refine ⟨rfl, rfl, rfl, rfl, rfl, fs, hl, rfl, fun i f e => ?_⟩
    obtain ⟨f', hf', hcase⟩ := hfs i f e
    refine ⟨f', hf', ?_⟩
    have hfi := hindex i f e
    rcases hcase with ⟨he, rfl⟩ | ⟨hne, ht⟩
    · exact .inl ⟨by omega, rfl⟩
    · exact .inr ⟨fun e => hne (by rw [hfi, hcallee, e]), ht⟩

namespace Inlined

variable {p p' : Program} {callee : Function} {k : Nat}

/-- The new position of a function, when the one at another position has been taken out. -/
def position (k i : Nat) : Nat := if k < i then i - 1 else i

/-- What stays of a list is found at its new position. -/
theorem getElem?_eraseIdx_position {α : Type} {l : List α} {i k : Nat} (h : i ≠ k) :
    (l.eraseIdx k)[position k i]? = l[i]? := by
  rw [List.getElem?_eraseIdx, position]
  by_cases hlt : k < i
  · rw [if_pos hlt, if_neg (by omega), Nat.sub_add_cancel (by omega)]
  · rw [if_neg hlt, if_pos (by omega)]

/-- Nothing else is found: every item that is left was there, at the position that this one stems
from. -/
theorem exists_of_getElem?_eraseIdx {α : Type} {l : List α} {a : α} {i k : Nat}
    (h : (l.eraseIdx k)[i]? = some a) : ∃ j, j ≠ k ∧ i = position k j ∧ l[j]? = some a := by
  rw [List.getElem?_eraseIdx] at h
  split at h
  · exact ⟨i, by omega, by rw [position, if_neg (by omega)], h⟩
  · exact ⟨i + 1, by omega, by rw [position, if_pos (by omega), Nat.add_sub_cancel], h⟩

/-- Every function but the callee is found, changed, at its new position. -/
theorem getElem? (h : Inlined p p' callee k) {i : Nat} {f : Function}
    (hf : p.functions[i]? = some f) (hi : i ≠ k) :
    ∃ f' t, inlineInto callee (callee.preparedBody p.signatureAt?) f = .ok (f', t) ∧
      p'.functions[position k i]? = some (f'.compactCalls (.removing [callee.index])) := by
  obtain ⟨fs, -, hfs, hrel⟩ := h.functions
  obtain ⟨f', hf', hcase⟩ := hrel i f hf
  rcases hcase with ⟨e, -⟩ | ⟨-, t, ht⟩
  · exact absurd e hi
  · refine ⟨f', t, ht, ?_⟩
    rw [hfs, List.getElem?_map, getElem?_eraseIdx_position hi, hf', Option.map_some]

/-- There are no other functions: each one of the new program is an old one with its calls of the
callee replaced and the others renumbered. -/
theorem exists_source (h : Inlined p p' callee k) {i' : Nat} {g : Function}
    (hg : p'.functions[i']? = some g) :
    ∃ i f f' t, i ≠ k ∧ i' = position k i ∧ p.functions[i]? = some f ∧
      inlineInto callee (callee.preparedBody p.signatureAt?) f = .ok (f', t) ∧
      g = f'.compactCalls (.removing [callee.index]) := by
  obtain ⟨fs, hl, hfs, hrel⟩ := h.functions
  rw [hfs, List.getElem?_map] at hg
  obtain ⟨f', hf', rfl⟩ := Option.map_eq_some_iff.mp hg
  obtain ⟨i, hi, hpos, hfi⟩ := exists_of_getElem?_eraseIdx hf'
  have hlt : i < p.functions.length := by
    have := (List.getElem?_eq_some_iff.mp hfi).1
    omega
  have hp := List.getElem?_eq_getElem hlt
  obtain ⟨f₁, hf₁, hcase⟩ := hrel i _ hp
  obtain rfl := Option.some.inj (hfi.symm.trans hf₁)
  rcases hcase with ⟨e, -⟩ | ⟨-, t, ht⟩
  · exact absurd e hi
  · exact ⟨i, _, f', t, hi, hpos, hp, ht, rfl⟩

theorem length_functions (h : Inlined p p' callee k) (hk : p.functions[k]? = some callee) :
    p'.functions.length + 1 = p.functions.length := by
  obtain ⟨fs, hl, hfs, -⟩ := h.functions
  have hlt := (List.getElem?_eq_some_iff.mp hk).1
  rw [hfs, List.length_map, List.length_eraseIdx_of_lt (by omega)]
  omega

end Inlined

end WasmTrim.Inline
