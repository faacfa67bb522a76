/-
# The rule that looks ahead adds nothing

Two rules drop one of two readings of a local that is incremented behind them.  `postIncrement`
waits until the scan has come to the end of the increment.  `loopIncrement` sees the increment
ahead of it, four instructions earlier, but only after an `end` that leaves two regions open; it
drops the other one of the two readings, and the scan goes on from another place.

On a body without markers all of this makes no difference (`loopIncrement_redundant`).  Nothing can
happen on the way to the end of an increment (`firstMatch_increment`), so a scan without
`loopIncrement` arrives there and applies `postIncrement`; of the two readings one is as good as the
other; and after one more step both scans stand at the same place of the same body
(`scanFrom_increment`).

Markers are excluded because they are what makes readings differ: the two rules keep different
readings, and with them different markers, and a marker on the second may begin a guard.

The reports differ too.  The scans apply different rules, and not even equally many steps lie
between two applications; what is the same is the body and whether anything has changed.
-/
import WasmTrim.Proofs.Rewrite

namespace WasmTrim.Peephole

variable {s : Scope} {rules : List Rule} {i : Instr} {seen rest : Body} {r x : Rule} {c c' : Cursor}

/-! ## 1. Single steps of a scan

The scan with a list of rules, and with the same list without one of them.  They differ where the
missing rule is the first that applies. -/

/-- Where no rule applies, a scan steps over the instruction. -/
theorem scanFrom_of_none (h : firstMatch rules s ⟨i :: seen, rest⟩ = none) :
    scanFrom rules s seen (i :: rest) = scanFrom rules s (i :: seen) rest := by
  rw [scanFrom]
  split
  · rename_i hsome
    rw [h] at hsome
    cases hsome
  · rfl

/-- Where a rule applies, a scan goes on from the cursor it gives. -/
theorem scanFrom_of_some (h : firstMatch rules s ⟨i :: seen, rest⟩ = some (r, c)) :
    scanFrom rules s seen (i :: rest)
      = { scanFrom rules s c.seen c.rest with
          firings := ⟨r, seen.length, i⟩ :: (scanFrom rules s c.seen c.rest).firings } := by
  rw [scanFrom]
  split
  · rename_i hsome
    rw [h] at hsome
    obtain ⟨rfl, rfl⟩ := Prod.mk.inj (Option.some.inj hsome)
    rfl
  · rename_i hnone
    rw [h] at hnone
    cases hnone

theorem firstMatch_cons (y : Rule) : firstMatch (y :: rules) s c
    = match reduceAt s c y with
      | some c' => some (y, c')
      | none => firstMatch rules s c := by
  simp only [firstMatch, List.findSome?_cons]
  cases reduceAt s c y <;> rfl

/-- A rule that is not the one applied can be left out. -/
theorem firstMatch_erase (h : firstMatch rules s c = some (r, c')) (hne : r ≠ x) :
    firstMatch (rules.erase x) s c = some (r, c') := by
  induction rules with
  | nil => cases h
  | cons y rules ih =>
    rw [firstMatch_cons] at h
    by_cases hy : y = x
    · subst hy
      rw [List.erase_cons_head]
      split at h
      · obtain ⟨rfl, -⟩ := Prod.mk.inj (Option.some.inj h)
        exact absurd rfl hne
      · exact h
    · rw [List.erase_cons_tail (by simpa using hy), firstMatch_cons]
      split at h
      · exact h
      · exact ih h

theorem firstMatch_erase_eq_none (h : firstMatch rules s c = none) :
    firstMatch (rules.erase x) s c = none := by
  rw [firstMatch_eq_none_iff] at h ⊢
  intro r hr
  exact h r (List.mem_of_mem_erase hr)

/-! ## 2. Where no rule applies

For each kind of instruction in an increment, which rules could end with it and what they would need
in front of it. -/

/-- The increment rule ends with a `drop` or a branch. -/
theorem postIncrement_of_focus (hdrop : i.op ≠ .drop) (hbr : ∀ label, i.op ≠ .br label) :
    postIncrement s ⟨i :: seen, rest⟩ = none := by
  unfold postIncrement
  split
  · rename_i e
    simp only [Cursor.mk.injEq, List.cons.injEq] at e
    obtain ⟨⟨rfl, -⟩, -⟩ := e
    split
    · split
      · rename_i h
        exact absurd h hdrop
      · rename_i h
        exact absurd h (hbr _)
      · rfl
    · rfl
  · rfl

/-- No rule ends with a constant as its second instruction, so a scan passes every constant without
a change. -/
theorem reduceAt_const (v : Value) (r : Rule) :
    reduceAt s ⟨(Op.const v).plain :: seen, rest⟩ r = none := by
  cases r with
  | postIncrement => exact postIncrement_of_focus (by simp) (by simp)
  | deadLastType => simp [reduceAt, deadLastType, Op.plain]
  | _ => rfl

/-- A sum or a difference is nothing that is evaluated with the instruction before it. -/
theorem isIncrement_spec {op : NumOp} (h : op.isIncrement) :
    (op ≠ .i32Eq ∧ op ≠ .i64Eq ∧ op ≠ .i32WrapI64) ∧ (∀ o, undoes op o = false) ∧
      (∀ x, op.truncate? x = none) ∧ ∀ v, op.convert? v = none := by
  have hcases : op = .i32Add ∨ op = .i32Sub ∨ op = .i64Add ∨ op = .i64Sub ∨ op = .f64Add ∨
      op = .f64Sub := by
    revert h
    cases op <;> decide
  rcases hcases with rfl | rfl | rfl | rfl | rfl | rfl <;>
    exact ⟨by decide, fun _ => rfl, fun _ => rfl, fun v => by cases v <;> rfl⟩

/-- No rule ends with a sum or a difference either. A constant and the operation behind it are
therefore passed together. -/
theorem reduceAt_increment {op : NumOp} (hop : op.isIncrement) (r : Rule) :
    reduceAt s ⟨(Op.num op).plain :: seen, rest⟩ r = none := by
  obtain ⟨⟨heq, heq', hwrap⟩, hundoes, htruncate, hconvert⟩ := isIncrement_spec hop
  cases r with
  | postIncrement => exact postIncrement_of_focus (by simp) (by simp)
  | deadLastType => simp [reduceAt, deadLastType, Op.plain]
  | eqz =>
    change eqz _ = none
    unfold eqz
    split <;> simp_all [Op.plain]
  | extendWrap =>
    change extendWrap _ = none
    unfold extendWrap
    split <;> simp_all [Op.plain]
  | convertTrunc =>
    change convertTrunc _ = none
    unfold convertTrunc
    split <;> simp_all [Op.plain]
  | foldTrunc =>
    change foldTrunc _ = none
    unfold foldTrunc
    split <;> simp_all [Op.plain]
  | foldConvert =>
    change foldConvert _ = none
    unfold foldConvert
    split <;> simp_all [Op.plain]
  | _ => rfl

/-- Only `setGet`, `paramShuffle` and `loopIncrement` end with a reading, and they ask for more than
an `end` or another reading before it. -/
theorem reduceAt_localGet {y : Instr} (l : Nat) (hset : ∀ k, y.op ≠ .localSet k)
    (htee : ∀ k, y.op ≠ .localTee k) (hr : r ≠ .loopIncrement) :
    reduceAt s ⟨(Op.localGet l).plain :: y :: seen, rest⟩ r = none := by
  cases r with
  | postIncrement => exact postIncrement_of_focus (by simp) (by simp)
  | deadLastType => simp [reduceAt, deadLastType, Op.plain]
  | loopIncrement => exact absurd rfl hr
  | setGet =>
    change setGet _ = none
    unfold setGet
    split <;> simp_all [Op.plain]
  | paramShuffle =>
    change paramShuffle _ = none
    unfold paramShuffle
    split <;> simp_all [Op.plain]
  | _ => rfl

/-- A local that is read is not taken for the unread one that holds a type. -/
theorem reduceAt_localSet (l : Nat) (hreads : seen.reads l ≠ 0) (r : Rule) :
    reduceAt s ⟨(Op.localSet l).plain :: seen, rest⟩ r = none := by
  cases r with
  | postIncrement => exact postIncrement_of_focus (by simp) (by simp)
  | deadLastType =>
    simp only [reduceAt, deadLastType, Op.plain]
    cases s.lastType with
    | none => rfl
    | some last =>
      refine if_neg ?_
      rintro ⟨rfl, h⟩
      simp only [Cursor.reads, Body.reads, Nat.add_eq_zero_iff, List.countP_cons] at h
      exact hreads h.1.1
  | _ => rfl

/-! ## 3. One increment

The shorter rule removes the same instructions as the longer one does, but earlier
(`loop_increment`, `post_increment`).  The scan without it goes on and removes them when it comes to
the end of the pattern. -/

/-- The rules without the one that looks ahead (`loop_increment`), in the same order. -/
def Rule.withoutLookAhead : List Rule := all.erase .loopIncrement

theorem Rule.mem_withoutLookAhead {r : Rule} (h : r ∈ withoutLookAhead) : r ≠ .loopIncrement := by
  revert h
  cases r <;> decide

/-- **At the end of an increment** the general rule is the first to apply. -/
theorem firstMatch_increment {op : NumOp} (hop : op.isIncrement) (l : Nat) (v : Value) :
    firstMatch Rule.withoutLookAhead s
      ⟨Op.drop.plain :: (Op.localSet l).plain :: (Op.num op).plain :: (Op.const v).plain
        :: (Op.localGet l).plain :: (Op.localGet l).plain :: seen, rest⟩
      = some (.postIncrement, ⟨seen, (Op.localGet l).plain :: (Op.const v).plain
          :: (Op.num op).plain :: (Op.localSet l).plain :: rest⟩) := by
  have hrules : Rule.withoutLookAhead = [.setGet, .getDrop, .teeDrop, .constDrop, .eqz, .extendWrap,
      .convertTrunc, .foldTrunc, .foldConvert, .tailCall, .postIncrement, .paramShuffle,
      .transparentBlock, .deadTypeCase, .emptyTypeSwitch, .deadLastType] := rfl
  simp [hrules, firstMatch_cons, reduceAt, setGet, getDrop, teeDrop, constDrop, eqz, extendWrap,
    convertTrunc, foldTrunc, foldConvert, tailCall, postIncrement, Op.plain, hop]

/-- **A scan of an increment** of a local that is read twice, without the rule that looks ahead.  It
steps over everything up to the `drop`, goes back to the reading that is left and steps over it: it
comes to where the rule that looks ahead leads at once. -/
theorem scanFrom_increment {op : NumOp} (hop : op.isIncrement) (l : Nat) (v : Value) :
    let out := scanFrom Rule.withoutLookAhead s ((Op.localGet l).plain :: Op.close.plain :: seen)
      ((Op.localGet l).plain :: (Op.const v).plain :: (Op.num op).plain :: (Op.localSet l).plain
        :: Op.drop.plain :: rest)
    out.body = (scanFrom Rule.withoutLookAhead s ((Op.localGet l).plain :: Op.close.plain :: seen)
      ((Op.const v).plain :: (Op.num op).plain :: (Op.localSet l).plain :: rest)).body ∧
    out.changed = true := by
  intro out
  have hread : ∀ {y : Instr} {below after : Body}, y.op = .close ∨ y.op = .localGet l →
      firstMatch Rule.withoutLookAhead s ⟨(Op.localGet l).plain :: y :: below, after⟩ = none := by
    intro y below after hy
    refine firstMatch_eq_none_iff.mpr fun r hr => ?_
    refine reduceAt_localGet l ?_ ?_ (Rule.mem_withoutLookAhead hr)
    · intro k hk
      simp [hk] at hy
    · intro k hk
      simp [hk] at hy
  have hreads : Body.reads ((Op.num op).plain :: (Op.const v).plain :: (Op.localGet l).plain
      :: (Op.localGet l).plain :: Op.close.plain :: seen) l ≠ 0 := by
    simp [Body.reads]
  have hout : out = scanFrom Rule.withoutLookAhead s ((Op.localSet l).plain :: (Op.num op).plain
      :: (Op.const v).plain :: (Op.localGet l).plain :: (Op.localGet l).plain :: Op.close.plain
        :: seen) (Op.drop.plain :: rest) := by
    simp only [out]
    rw [scanFrom_of_none (hread (.inr rfl)),
      scanFrom_of_none (firstMatch_eq_none_iff.mpr fun r _ => reduceAt_const v r),
      scanFrom_of_none (firstMatch_eq_none_iff.mpr fun r _ => reduceAt_increment hop r),
      scanFrom_of_none (firstMatch_eq_none_iff.mpr fun r _ => reduceAt_localSet l hreads r)]
  rw [hout, scanFrom_of_some (firstMatch_increment hop l v)]
  constructor
  · dsimp only
    rw [scanFrom_of_none (hread (.inl rfl))]
  · rfl

/-! ## 4. Whole scans

By induction along the scan with all rules.  Where it applies the rule that looks ahead, the other
scan takes the steps of an increment; anywhere else both do the same. -/

/-- What the rule that looks ahead does to a body without markers. -/
theorem loopIncrement_cases (hm : c.body.MarkerFree) (h : loopIncrement c = some c') :
    ∃ l v op below after, op.isIncrement ∧
      c = ⟨(Op.localGet l).plain :: (Op.localGet l).plain :: Op.close.plain :: below,
        (Op.const v).plain :: (Op.num op).plain :: (Op.localSet l).plain :: Op.drop.plain
          :: after⟩ ∧
      c' = ⟨(Op.localGet l).plain :: Op.close.plain :: below,
        (Op.const v).plain :: (Op.num op).plain :: (Op.localSet l).plain :: after⟩ := by
  unfold loopIncrement at h
  split at h
  · rename_i second m₂ first m₁ m below v mv op mo written mw md after
    split at h
    · rename_i hcond
      obtain ⟨rfl, rfl, hop, -⟩ := hcond
      obtain rfl := Option.some.inj h
      simp only [Cursor.body, Body.MarkerFree, List.reverse_cons, List.append_assoc,
        List.mem_append, List.mem_cons, List.mem_reverse, or_imp, forall_and, forall_eq] at hm
      obtain ⟨-, ⟨rfl, -⟩, ⟨rfl, -⟩, ⟨rfl, -⟩, rfl, rfl, rfl, rfl, -⟩ := hm
      exact ⟨_, _, _, _, _, hop, rfl, rfl⟩
    · cases h
  · cases h

/-- **A scan without the rule that looks ahead** gives the same body, and tells the same about
whether anything has changed. -/
theorem scanFrom_withoutLookAhead (hm : Body.MarkerFree (seen.reverse ++ rest)) :
    (scanFrom Rule.withoutLookAhead s seen rest).body = (scanFrom Rule.all s seen rest).body ∧
      (scanFrom Rule.withoutLookAhead s seen rest).changed
        = (scanFrom Rule.all s seen rest).changed := by
  fun_induction scanFrom Rule.all s seen rest with
  | case1 seen =>
    rw [scanFrom]
    exact ⟨rfl, rfl⟩
  | case2 seen i rest r c hmatch _ out ih =>
    have hred := (reduceAt_of_firstMatch hmatch).2
    have hbody : Cursor.body ⟨i :: seen, rest⟩ = seen.reverse ++ i :: rest := by
      simp [Cursor.body]
    have hfree : c.body.MarkerFree := (step_of_reduceAt hred).markerFree (hbody ▸ hm)
    by_cases hr : r = .loopIncrement
    · subst hr
      obtain ⟨l, v, op, below, after, hop, hc, rfl⟩ := loopIncrement_cases (hbody ▸ hm) hred
      simp only [Cursor.mk.injEq, List.cons.injEq] at hc
      obtain ⟨⟨rfl, rfl⟩, rfl⟩ := hc
      obtain ⟨hbody', hchanged⟩ := @scanFrom_increment s below after op hop l v
      exact ⟨hbody'.trans (ih hfree).1, hchanged⟩
    · have hsame : firstMatch Rule.withoutLookAhead s ⟨i :: seen, rest⟩ = some (r, c) :=
        firstMatch_erase hmatch hr
      rw [scanFrom_of_some hsame]
      exact ⟨(ih hfree).1, rfl⟩
  | case3 seen i rest hmatch ih =>
    have hsame : firstMatch Rule.withoutLookAhead s ⟨i :: seen, rest⟩ = none :=
      firstMatch_erase_eq_none hmatch
    rw [scanFrom_of_none hsame]
    exact ih (by simpa using hm)

/-- **The rule that looks ahead is redundant.**  On a body without markers, in any context, a scan
with all rules but `loopIncrement` leaves the same body as a scan with all rules, and reports a
change exactly if that one does. -/
theorem loopIncrement_redundant (ctx : Context) (f : Function) (hm : f.body.MarkerFree) :
    (scan (Rule.all.erase .loopIncrement) (ctx.scope f) f.body).body = (simplify ctx f).1.body ∧
      (scan (Rule.all.erase .loopIncrement) (ctx.scope f) f.body).changed
        = (simplify ctx f).2.1 :=
  scanFrom_withoutLookAhead hm

/-- A loop that counts to ten, as a `for` statement is compiled. -/
def countingLoop : Function where
  index := 4
  name := "countingLoop"
  params := [.i32]
  locals := ⟨[⟨"i", 1, .i32⟩, ⟨"value", 0, .i32⟩], by decide +kernel⟩
  result := none
  body := [.enter .block none, .enter .loop none, .localGet 1, .const (.i32 10), .num .i32LtS,
    .num .i32Eqz, .brIf 1, .enter .block none, .call 3, .br 0, .close, .localGet 1,
    .localGet 1, .const (.i32 1), .num .i32Add, .localSet 1, .drop, .br 0, .close,
    .close].map Op.plain
  throws := false
  usesMemory := false

/-- The two scans of such a loop apply two different rules. -/
theorem loopIncrement_redundant_countingLoop :
    let ctx : Context := ⟨false, .empty, fun _ => none⟩
    let full := scan Rule.all (ctx.scope countingLoop) countingLoop.body
    let partly := scan (Rule.all.erase .loopIncrement) (ctx.scope countingLoop) countingLoop.body
    full.firings.map Firing.rule = [.loopIncrement] ∧
      partly.firings.map Firing.rule = [.postIncrement] ∧
      partly.body = (simplify ctx countingLoop).1.body ∧
      partly.changed = (simplify ctx countingLoop).2.1 := by
  intro ctx full partly
  have hm : countingLoop.body.MarkerFree := by
    unfold Body.MarkerFree
    decide
  exact ⟨by decide +kernel, by decide +kernel, loopIncrement_redundant ctx countingLoop hm⟩

end WasmTrim.Peephole
