/-
# Flags

The settings that a list of flags gives, for every list.  A flag that starts like a level must
continue with a number (`ReadsLevel`); the first one that does not is the error.  If there is none,
the last level counts, a switch is on exactly if its flag is there, and nothing else matters
(`Config.ofFlags_spec`).

Numbers are decimal numerals, with leading zeros or without (`IsNumeral`).  A level is read from a
numeral below 256, and a plus sign in front of it is taken.

The list is read by a fold (`from_args`), so the settings at its end might depend on everything in
it.  They depend on three things: whether some flag is unreadable and which is the first, what the
last level is, and which switches occur.  Everything else, the order of switches, repetitions,
flags that belong to others, is shown to make no difference by computing the fold in closed form
(`Config.ofFlags_eq`).

That a number of 256 or more is refused, while one of 4 to 255 means the last level, is a
consequence of reading the number with eight bits before it is clamped; the last theorem has a
flag of either kind.
-/
import Mathlib.Data.List.Induction
import WasmTrim.Config

namespace WasmTrim

/-! ## 1. Numerals

Which texts are read as a level, and as which.  The text behind `-O` may begin with a sign, as
numbers of this type may be written with one, and its value must be below 256. -/

/-- **A decimal numeral** of a number: its digits, perhaps behind some zeros. There is no sign, no
blank and no separator in it. -/
def IsNumeral (n : Nat) (text : List Char) : Prop :=
  ∃ zeros, text = List.replicate zeros '0' ++ Nat.toDigits 10 n

theorem toNat_of_isDigit {c : Char} (h : c.isDigit) : 48 ≤ c.toNat ∧ c.toNat ≤ 57 := by
  simp only [Char.isDigit, Bool.and_eq_true, decide_eq_true_eq, ge_iff_le] at h
  exact ⟨UInt32.le_iff_toNat_le.mp h.1, UInt32.le_iff_toNat_le.mp h.2⟩

/-- A digit is the numeral of its value, the shortest of all numerals. -/
theorem toDigits_of_isDigit {c : Char} (h : c.isDigit) :
    Nat.toDigits 10 (c.toNat - '0'.toNat) = [c] := by
  obtain ⟨hlow, hhigh⟩ := toNat_of_isDigit h
  have hlt : c.toNat - 48 < 10 := by omega
  have hchar : Nat.digitChar (c.toNat - 48) = c := by
    apply Char.toNat_inj.mp
    rw [Nat.toNat_digitChar_of_lt_ten hlt]
    omega
  exact (Nat.toDigits_of_lt_base hlt).trans (by rw [hchar])

/-- Digits are a numeral of their value, zeros in front included, as long as there is at least one
digit. -/
theorem isNumeral_ofDigitChars {digits : List Char} (hne : digits ≠ [])
    (hdigits : digits.all Char.isDigit) : IsNumeral (Nat.ofDigitChars 10 digits 0) digits := by
  induction digits using List.reverseRecOn with
  | nil => exact absurd rfl hne
  | append_singleton digits last ih =>
    simp only [List.all_append, List.all_cons, List.all_nil, Bool.and_true,
      Bool.and_eq_true] at hdigits
    have hlast := toDigits_of_isDigit hdigits.2
    have hlt : last.toNat - '0'.toNat < 10 := by
      have := (toNat_of_isDigit hdigits.2).2
      simp only [Char.reduceToNat]
      omega
    have hvalue : Nat.ofDigitChars 10 (digits ++ [last]) 0
        = 10 * Nat.ofDigitChars 10 digits 0 + (last.toNat - '0'.toNat) := by
      rw [Nat.ofDigitChars_append]
      rfl
    rw [hvalue]
    by_cases hnil : digits = []
    · subst hnil
      refine ⟨0, ?_⟩
      simp only [Nat.ofDigitChars, List.foldl_nil, Nat.mul_zero, Nat.zero_add, hlast]
      rfl
    · obtain ⟨zeros, hzeros⟩ := ih hnil hdigits.1
      generalize Nat.ofDigitChars 10 digits 0 = m at hzeros
      subst hzeros
      rcases Nat.eq_zero_or_pos m with rfl | hpos
      · -- all digits so far are zeros
        refine ⟨zeros + 1, ?_⟩
        rw [Nat.mul_zero, Nat.zero_add, hlast, List.replicate_succ']
        rfl
      · refine ⟨zeros, ?_⟩
        rw [← Nat.toDigits_append_toDigits (by decide) hpos hlt, hlast, List.append_assoc]

theorem ofDigitChars_replicate_zero (zeros : Nat) :
    Nat.ofDigitChars 10 (List.replicate zeros '0') 0 = 0 := by
  induction zeros with
  | zero => rfl
  | succ zeros ih => exact ih

/-- **The numerals are read, each as its number, and nothing else is.** The value is not bounded
here; what may be written behind `-O` is decided later. -/
theorem decimal?_eq_some_iff {text : List Char} {n : Nat} :
    decimal? text = some n ↔ IsNumeral n text := by
  constructor
  · intro h
    unfold decimal? at h
    split at h
    · rename_i hc
      obtain rfl := Option.some.inj h
      exact isNumeral_ofDigitChars hc.1 hc.2
    · cases h
  · rintro ⟨zeros, rfl⟩
    have hne : List.replicate zeros '0' ++ Nat.toDigits 10 n ≠ [] := by
      intro h
      exact Nat.toDigits_ne_nil (List.append_eq_nil_iff.mp h).2
    have hdigits : (List.replicate zeros '0' ++ Nat.toDigits 10 n).all Char.isDigit := by
      rw [List.all_eq_true]
      intro c hc
      rcases List.mem_append.mp hc with hc | hc
      · rw [(List.mem_replicate.mp hc).2]
        rfl
      · exact Nat.isDigit_of_mem_toDigits (by decide) (by decide) hc
    have hvalue : Nat.ofDigitChars 10 (List.replicate zeros '0' ++ Nat.toDigits 10 n) 0 = n := by
      rw [Nat.ofDigitChars_append, ofDigitChars_replicate_zero,
        Nat.ofDigitChars_toDigits (by decide) (by decide)]
    rw [decimal?, if_pos ⟨hne, hdigits⟩]
    exact congrArg some hvalue

/-- **The text of a level**: a numeral of a number below 256, perhaps behind a plus sign. -/
def ReadsLevel (n : Nat) (text : List Char) : Prop :=
  n < 256 ∧ (IsNumeral n text ∨ ∃ digits, text = '+' :: digits ∧ IsNumeral n digits)

/-- No numeral starts with a plus sign, though a level may be written with one: that is a case of
its own. -/
theorem not_isNumeral_plus (n : Nat) (digits : List Char) : ¬ IsNumeral n ('+' :: digits) := by
  intro h
  have h := decimal?_eq_some_iff.mpr h
  simp [decimal?] at h

theorem levelNumber?_eq_some_iff {text : List Char} {n : Nat} :
    levelNumber? text = some n ↔ ReadsLevel n text := by
  unfold levelNumber? ReadsLevel
  simp only [Option.filter_eq_some_iff, decimal?_eq_some_iff, decide_eq_true_eq]
  rw [and_comm]
  refine and_congr_right fun _ => ?_
  split
  · rename_i digits
    constructor
    · exact fun h => .inr ⟨digits, rfl, h⟩
    · rintro (h | ⟨digits', e, h⟩)
      · exact absurd h (not_isNumeral_plus n digits)
      · exact (List.cons.inj e).2 ▸ h
  · rename_i hplus
    constructor
    · exact .inl
    · rintro (h | ⟨digits, rfl, -⟩)
      · exact h
      · exact absurd rfl (hplus digits)

/-! ## 2. One flag

Either a switch, or something that starts like a level, or nothing that concerns the settings. -/

/-- **A flag that starts like a level**, and what follows. Such a flag is never looked up among the
switches, so it is either a level or an error. -/
def LevelFlag (flag : String) (text : List Char) : Prop := flag.toList = '-' :: 'O' :: text

/-- What follows in a flag that starts like a level. -/
def levelText? (flag : String) : Option (List Char) :=
  match flag.toList with
  | '-' :: 'O' :: text => some text
  | _ => none

theorem levelText?_eq_some_iff {flag : String} {text : List Char} :
    levelText? flag = some text ↔ LevelFlag flag text := by
  unfold levelText? LevelFlag
  split
  · rename_i text' h
    rw [h]
    simp
  · rename_i h
    constructor
    · intro e
      cases e
    · exact fun e => absurd e (h text)

theorem levelText?_eq_none_iff {flag : String} :
    levelText? flag = none ↔ ∀ text, ¬ LevelFlag flag text := by
  rw [Option.eq_none_iff_forall_ne_some]
  exact forall_congr' fun text => not_congr levelText?_eq_some_iff

/-- Starts like a level and cannot be read as one (`from_args`). Such a flag is an error and stops
the reading of the others. -/
def isUnreadable (flag : String) : Bool :=
  (levelText? flag).any fun text => (levelNumber? text).isNone

theorem isUnreadable_iff {flag : String} :
    isUnreadable flag ↔ ∃ text, LevelFlag flag text ∧ ∀ n, ¬ ReadsLevel n text := by
  simp only [isUnreadable, Option.any_eq_true, levelText?_eq_some_iff, Option.isNone_iff_eq_none,
    Option.eq_none_iff_forall_ne_some, ne_eq, levelNumber?_eq_some_iff]

/-- The level that a flag sets, if it is a level at all. Numbers past the last level have been
brought down to it. -/
def levelOf? (flag : String) : Option Level :=
  ((levelText? flag).bind levelNumber?).map Level.clamp

namespace Config

/-- The flags that turn something on (`from_args`). None of them turns anything off, so their order
and number do not matter. -/
def switches : List String := ["-opt-no-inline", "-opt-inline-only", "-tail-call", "-opt-log"]

/-- The settings after flags that can be read: the last level counts, and switches stay on. -/
def after (c : Config) (flags : List String) : Config where
  level := (flags.filterMap levelOf?).getLast?.getD c.level
  disableInlining := c.disableInlining || decide ("-opt-no-inline" ∈ flags)
  inlineOnly := c.inlineOnly || decide ("-opt-inline-only" ∈ flags)
  tailCalls := c.tailCalls || decide ("-tail-call" ∈ flags)
  verbose := c.verbose || decide ("-opt-log" ∈ flags)

theorem after_nil (c : Config) : c.after [] = c := by
  cases c
  simp [after]

theorem after_cons (c : Config) (flag : String) (flags : List String) :
    c.after (flag :: flags) = (c.after [flag]).after flags := by
  have hlevel : ((flag :: flags).filterMap levelOf?).getLast?.getD c.level
      = (flags.filterMap levelOf?).getLast?.getD
          (([flag].filterMap levelOf?).getLast?.getD c.level) := by
    rw [← List.singleton_append, List.filterMap_append, List.getLast?_append]
    cases (flags.filterMap levelOf?).getLast? <;> rfl
  simp only [after, hlevel, List.mem_cons, List.not_mem_nil, or_false, Bool.or_assoc,
    Bool.decide_or]

/-- **What one flag does.** It is either unreadable, and then it is named in the error, or it has
the effect that lists of flags are described by; a flag that is not known has none. -/
theorem readFlag_eq (c : Config) (flag : String) :
    c.readFlag flag = if isUnreadable flag then .error ⟨flag⟩ else .ok (c.after [flag]) := by
  by_cases hswitch : flag ∈ switches
  · simp only [switches, List.mem_cons, List.not_mem_nil, or_false] at hswitch
    rcases hswitch with rfl | rfl | rfl | rfl <;>
      · cases c
        simp [readFlag, after, isUnreadable, levelOf?, levelText?]
  · simp only [switches, List.mem_cons, List.not_mem_nil, or_false, not_or] at hswitch
    obtain ⟨h₁, h₂, h₃, h₄⟩ := hswitch
    -- a flag that is no switch can only change the level
    have hafter : c.after [flag] = { c with level := (levelOf? flag).getD c.level } := by
      cases hlevel : levelOf? flag <;>
        simp [after, hlevel, Ne.symm h₁, Ne.symm h₂, Ne.symm h₃, Ne.symm h₄]
    simp only [readFlag, if_neg h₁, if_neg h₂, if_neg h₃, if_neg h₄, hafter]
    split
    · rename_i text h
      have htext : levelText? flag = some text := levelText?_eq_some_iff.mpr h
      simp only [isUnreadable, levelOf?, htext, Option.any_some, Option.bind_some]
      cases levelNumber? text <;> rfl
    · rename_i h
      have htext : levelText? flag = none := levelText?_eq_none_iff.mpr h
      simp only [isUnreadable, levelOf?, htext]
      rfl

/-! ## 3. Lists of flags

Flags are read from left to right (`from_args`).  A level replaces the one before it, and a switch
is never turned off again; both show in what a list of flags comes to. -/

/-- Flags are read up to the first that is unreadable. -/
theorem foldlM_readFlag (c : Config) (flags : List String) :
    flags.foldlM readFlag c = match flags.find? isUnreadable with
      | some flag => .error ⟨flag⟩
      | none => .ok (c.after flags) := by
  induction flags generalizing c with
  | nil => rw [after_nil]; rfl
  | cons flag flags ih =>
    rw [List.foldlM_cons, readFlag_eq, List.find?_cons]
    cases isUnreadable flag with
    | true => rfl
    | false => rw [after_cons c flag flags]; exact ih (c.after [flag])

/-- **The settings of a list of flags.** The first unreadable flag is the one that is reported, even
if other flags before it have taken effect; without one the settings are those that all flags
together give. -/
theorem ofFlags_eq (flags : List String) :
    ofFlags flags = match flags.find? isUnreadable with
      | some flag => .error ⟨flag⟩
      | none => .ok (after {} flags) := foldlM_readFlag {} flags

/-- Without levels the level stays as it is, whatever switches stand among the flags. -/
theorem level_after_of_none {flags : List String}
    (h : ∀ flag ∈ flags, ∀ text, ¬ LevelFlag flag text) (c : Config) :
    (c.after flags).level = c.level := by
  have hnone : flags.filterMap levelOf? = [] := by
    rw [List.filterMap_eq_nil_iff]
    intro flag hflag
    rw [levelOf?, levelText?_eq_none_iff.mpr (h flag hflag)]
    rfl
  simp only [after, hnone, List.getLast?_nil, Option.getD_none]

theorem after_append (c : Config) (a b : List String) :
    c.after (a ++ b) = (c.after a).after b := by
  induction a generalizing c with
  | nil => rw [after_nil]; rfl
  | cons flag a ih => rw [List.cons_append, after_cons, ih, ← after_cons]

/-- **The last level counts**, and levels past the last one mean the last one. What stands before
the last of these flags, and which switches stand behind it, does not matter. -/
theorem rank_after_of_last {before after : List String} {flag : String} {text : List Char} {n : Nat}
    (hflag : LevelFlag flag text) (hn : ReadsLevel n text)
    (hlast : ∀ later ∈ after, ∀ text, ¬ LevelFlag later text) (c : Config) :
    (c.after (before ++ flag :: after)).level.rank = min n 3 := by
  have hlevel : levelOf? flag = some (.clamp n) := by
    rw [levelOf?, levelText?_eq_some_iff.mpr hflag, Option.bind_some,
      levelNumber?_eq_some_iff.mpr hn, Option.map_some]
  rw [after_append, after_cons, level_after_of_none hlast]
  simp only [Config.after, List.filterMap_cons, hlevel, List.filterMap_nil,
    List.getLast?_singleton, Option.getD_some]
  exact Level.rank_clamp n

/-- **Only the levels, in their order, and the presence of each switch matter.** Two lists of flags
that agree in these give the same settings, whatever else they hold and however often a switch is
repeated. -/
theorem ofFlags_congr {flags flags' : List String}
    (hlevels : flags'.filter (fun flag => (levelText? flag).isSome)
      = flags.filter fun flag => (levelText? flag).isSome)
    (hswitches : ∀ s ∈ switches, s ∈ flags' ↔ s ∈ flags) : ofFlags flags' = ofFlags flags := by
  have hfind : ∀ l : List String, l.find? isUnreadable
      = (l.filter fun flag => (levelText? flag).isSome).find? isUnreadable := by
    intro l
    rw [List.find?_filter]
    congr 1
    funext flag
    cases h : levelText? flag with
    | none => simp [isUnreadable, h]
    | some text => cases hn : levelNumber? text <;> simp [isUnreadable, h, hn]
  have hlevel : ∀ l : List String, l.filterMap levelOf?
      = (l.filter fun flag => (levelText? flag).isSome).filterMap levelOf? := by
    intro l
    rw [List.filterMap_filter]
    congr 1
    funext flag
    cases h : levelText? flag <;> simp [levelOf?, h]
  have hafter : after {} flags' = after {} flags := by
    simp only [switches, List.forall_mem_cons] at hswitches
    obtain ⟨h₁, h₂, h₃, h₄, -⟩ := hswitches
    simp only [after, hlevel flags', hlevels, ← hlevel flags, h₁, h₂, h₃, h₄]
  rw [ofFlags_eq, ofFlags_eq, hfind flags', hlevels, ← hfind flags, hafter]

/-- A list without unreadable flags is read, and the settings are those that the flags lead to, one
after the other. -/
theorem ofFlags_of_readable {flags : List String}
    (h : ∀ flag ∈ flags, ∀ text, LevelFlag flag text → ∃ n, ReadsLevel n text) :
    ofFlags flags = .ok (after {} flags) := by
  have hnone : flags.find? isUnreadable = none := by
    rw [List.find?_eq_none]
    intro flag hflag hbad
    obtain ⟨text, htext, hn⟩ := isUnreadable_iff.mp hbad
    obtain ⟨n, hread⟩ := h flag hflag text htext
    exact hn n hread
  rw [ofFlags_eq, hnone]

/-- An unreadable flag is an error, wherever it stands; the first one is named. -/
theorem ofFlags_of_unreadable {flags : List String} {flag : String} (hflag : flag ∈ flags)
    (hbad : isUnreadable flag) : ∃ e, ofFlags flags = .error e ∧ e.flag ∈ flags ∧
      isUnreadable e.flag := by
  cases hfind : flags.find? isUnreadable with
  | none => exact absurd hbad (List.find?_eq_none.mp hfind flag hflag)
  | some first =>
    refine ⟨⟨first⟩, ?_, List.mem_of_find?_eq_some hfind, List.find?_some hfind⟩
    rw [ofFlags_eq, hfind]

/-- **What a list of flags gives.**  If every flag that starts like a level continues with a
number, the flags are read: the level is that of the last one, or 1 if there is none, and a switch
is on exactly if its flag is there.  If some flag that starts like a level does not, the list is
refused.  Other flags, and the order of the switches, do not matter. -/
theorem ofFlags_spec (flags : List String) :
    ((∀ flag ∈ flags, ∀ text, LevelFlag flag text → ∃ n, ReadsLevel n text) →
      ∃ c, ofFlags flags = .ok c ∧
        ((∀ flag ∈ flags, ∀ text, ¬ LevelFlag flag text) → c.level.rank = 1) ∧
        (∀ before flag after text n, flags = before ++ flag :: after → LevelFlag flag text →
          ReadsLevel n text → (∀ later ∈ after, ∀ text, ¬ LevelFlag later text) →
            c.level.rank = min n 3) ∧
        (c.disableInlining ↔ "-opt-no-inline" ∈ flags) ∧
        (c.inlineOnly ↔ "-opt-inline-only" ∈ flags) ∧
        (c.tailCalls ↔ "-tail-call" ∈ flags) ∧
        (c.verbose ↔ "-opt-log" ∈ flags)) ∧
    ((∃ flag ∈ flags, ∃ text, LevelFlag flag text ∧ ∀ n, ¬ ReadsLevel n text) →
      ∃ e, ofFlags flags = .error e ∧ e.flag ∈ flags ∧
        ∃ text, LevelFlag e.flag text ∧ ∀ n, ¬ ReadsLevel n text) ∧
    ∀ flags' : List String,
      flags'.filter (fun flag => (levelText? flag).isSome)
          = flags.filter (fun flag => (levelText? flag).isSome) →
        (∀ s ∈ switches, s ∈ flags' ↔ s ∈ flags) → ofFlags flags' = ofFlags flags := by
  refine ⟨fun hread => ?_, ?_, fun flags' => ofFlags_congr⟩
  · refine ⟨after {} flags, ofFlags_of_readable hread, fun hnone => ?_, ?_, ?_⟩
    · rw [level_after_of_none hnone]
      rfl
    · rintro before flag after text n rfl hflag hn hlast
      exact rank_after_of_last hflag hn hlast {}
    · simp [after]
  · rintro ⟨flag, hflag, hbad⟩
    obtain ⟨e, he, hmem, hunreadable⟩ := ofFlags_of_unreadable hflag (isUnreadable_iff.mpr hbad)
    exact ⟨e, he, hmem, isUnreadable_iff.mp hunreadable⟩

theorem ofFlags_spec_mixed :
    (∃ c, ofFlags ["-O1", "input", "-tail-call", "-O007", "-opt-log"] = .ok c ∧
      c.level.rank = 3 ∧ c.tailCalls) ∧
    ∃ e, ofFlags ["-Ofast", "-O2"] = .error e ∧ e.flag ∈ ["-Ofast", "-O2"] := by
  have hone : ReadsLevel 1 ['1'] := ⟨by decide, .inl ⟨0, by decide⟩⟩
  have hseven : ReadsLevel 7 ['0', '0', '7'] := ⟨by decide, .inl ⟨2, by decide⟩⟩
  constructor
  · obtain ⟨c, hc, -, hlast, -, -, htail, -⟩ :=
      (ofFlags_spec ["-O1", "input", "-tail-call", "-O007", "-opt-log"]).1 (by
        simp only [List.forall_mem_cons, List.not_mem_nil, false_implies, implies_true, and_true,
          LevelFlag]
        refine ⟨?_, ?_, ?_, ?_, ?_⟩ <;> rintro text h
        · obtain rfl : ['1'] = text := by simpa using h
          exact ⟨1, hone⟩
        · simp at h
        · simp at h
        · obtain rfl : ['0', '0', '7'] = text := by simpa using h
          exact ⟨7, hseven⟩
        · simp at h)
    refine ⟨c, hc, ?_, htail.mpr (by simp)⟩
    exact hlast ["-O1", "input", "-tail-call"] "-O007" ["-opt-log"] ['0', '0', '7'] 7 rfl rfl hseven
      (by simp [LevelFlag])
  · obtain ⟨e, he, hmem, -⟩ := (ofFlags_spec ["-Ofast", "-O2"]).2.1
      ⟨"-Ofast", by simp, ['f', 'a', 's', 't'], rfl, fun n hn => by
        have h := levelNumber?_eq_some_iff.mpr hn
        cases h⟩
    exact ⟨e, he, hmem⟩

/-- A level may be too large to be read, and a numeral may stand behind a sign: the first of these
flags continues with a decimal numeral and is refused, the second does not and is read. -/
theorem ofFlags_numeral_refused :
    (LevelFlag "-O256" ['2', '5', '6'] ∧ IsNumeral 256 ['2', '5', '6'] ∧
      ofFlags ["-O256"] = .error ⟨"-O256"⟩) ∧
    LevelFlag "-O+2" ['+', '2'] ∧ (∀ n, ¬ IsNumeral n ['+', '2']) ∧
      ofFlags ["-O+2"] = .ok { level := .inline } :=
  ⟨⟨rfl, ⟨0, by decide⟩, rfl⟩, rfl, fun n => not_isNumeral_plus n ['2'], rfl⟩

end Config

end WasmTrim
