/-
# Closers and open regions

The library reads the structure of a body in two ways.  `Nesting` follows the stack of the open
regions, and a closer too many leaves it empty.  `Body.matchingClose?` counts regions from an
opener on and stops where none is left.  Some rules use both on one body, well nested or not, so
both have to speak of the same regions.

That they do is seen on the positions of the openers that make up the stack (`Body.openers`).  From
an opener on, the stack is what it was in front of it, then the opener, then as many openers as the
search has counted beyond the first (`Instr.trackOpener_cases`).  Hence the opener stays on the
stack up to its closer (`Body.suffix_openers`), behind it the stack is what it was
(`Body.openers_close`), and the openers on the stack after a body are those for which the search
finds nothing (`Body.openers_eq_unclosed`).

None of this needs the body to be well nested.  The two functions (`matching_end`, and `observe`
with what is asked of the stack) differ on bodies that are not, in that a closer too many ends the
search and leaves the stack alone; but a search that starts at an opener ends before its count could
fall below zero, so it never meets one.

The labels of branches come last.  A label counts openers from the inside, so it names the opener
at its place on the stack, and a label past all of them names the function and nothing else.
-/
import Mathlib.Data.List.Sort
import Mathlib.Order.Bounds.Basic
import Mathlib.Order.Interval.Set.Basic
import WasmTrim.Proofs.Labels

namespace WasmTrim

/-! ## 1. The stack while the search goes on

The invariant of the search: the count is the number of openers on the stack from its own opener
upwards. -/

/-- **One instruction on the stack and in the search.**  Above the opener `s` there are some more
openers, and the search has counted these and `s`.  Either the instruction takes `s` from the stack
and the search ends here, or `s` stays, and the search goes on with the openers that are then
above. -/
theorem Instr.trackOpener_cases (i : Instr) (pos s : Nat) (inner base : List Nat) :
    (i.op.trackOpener pos (inner ++ s :: base) = base ∧
      ∀ rest, Body.closeOffset (inner.length + 1) (i :: rest) = some 0) ∨
    ∃ inner', i.op.trackOpener pos (inner ++ s :: base) = inner' ++ s :: base ∧
      ∀ rest, Body.closeOffset (inner.length + 1) (i :: rest)
        = (Body.closeOffset (inner'.length + 1) rest).map (· + 1) := by
  obtain ⟨o, marker⟩ := i
  cases o with
  | enter kind result => exact .inr ⟨pos :: inner, rfl, fun _ => rfl⟩
  | close | delegate _ =>
    cases inner with
    | nil => exact .inl ⟨rfl, fun _ => rfl⟩
    | cons q inner => exact .inr ⟨inner, rfl, fun _ => rfl⟩
  | _ => exact .inr ⟨inner, rfl, fun _ => rfl⟩

section

variable {s j k : Nat} {base : List Nat} {rest : Body}

/-- As long as the search has not ended, the opener is on the stack, over what was under it. -/
theorem suffix_openersFrom (pos : Nat) (inner : List Nat)
    (h : ∀ k, Body.closeOffset (inner.length + 1) rest = some k → j ≤ k) :
    s :: base <:+ openersFrom pos (inner ++ s :: base) (rest.ops.take j) := by
  -- along the rest of the body, where the openers above `s` come and go
  induction rest generalizing pos inner j with
  | nil =>
    rw [Body.ops, List.map_nil, List.take_nil]
    exact List.suffix_append ..
  | cons i rest ih =>
    cases j with
    | zero => exact List.suffix_append ..
    | succ j =>
      rw [Body.ops_cons, List.take_succ_cons, openersFrom]
      obtain ⟨-, hend⟩ | ⟨inner', htrack, hsearch⟩ := i.trackOpener_cases pos s inner base
      · exact absurd (h 0 (hend rest)) (Nat.not_succ_le_zero j)
      · rw [htrack]
        refine ih (pos + 1) inner' fun k hk => Nat.le_of_succ_le_succ (h (k + 1) ?_)
        rw [hsearch, hk, Option.map_some]

/-- Where the search ends, what was under the opener is left. -/
theorem openersFrom_close (pos : Nat) (inner : List Nat)
    (h : Body.closeOffset (inner.length + 1) rest = some k) :
    openersFrom pos (inner ++ s :: base) (rest.ops.take (k + 1)) = base := by
  induction rest generalizing pos inner k with
  | nil => cases h
  | cons i rest ih =>
    rw [Body.ops_cons, List.take_succ_cons, openersFrom]
    obtain ⟨htrack, hend⟩ | ⟨inner', htrack, hsearch⟩ := i.trackOpener_cases pos s inner base
    · obtain rfl := Option.some.inj ((hend rest).symm.trans h)
      exact htrack
    · rw [hsearch] at h
      obtain ⟨k, hk, rfl⟩ := Option.map_eq_some_iff.mp h
      rw [htrack]
      exact ih (pos + 1) inner' hk

/-- An opener on the stack was there before or is one of those that followed. -/
theorem mem_or_le_of_mem_openersFrom : ∀ {pos : Nat} {openers : List Nat} {ops : List Op},
    s ∈ openersFrom pos openers ops → s ∈ openers ∨ pos ≤ s
  | _, _, [], h => .inl h
  | pos, openers, o :: ops, h => by
    rw [openersFrom] at h
    rcases mem_or_le_of_mem_openersFrom h with hm | hle
    · cases o with
      | enter kind result =>
        rcases List.mem_cons.mp hm with rfl | hm
        · exact .inr (Nat.le_refl _)
        · exact .inl hm
      | close | delegate _ => exact .inl (List.mem_of_mem_tail hm)
      | _ => exact .inl hm
    · exact .inr (Nat.le_of_succ_le hle)

/-- The openers are on the stack in the order of their positions, the last one on top. -/
theorem pairwise_openersFrom : ∀ {pos : Nat} {openers : List Nat} (ops : List Op),
    openers.Pairwise (· > ·) → (∀ q ∈ openers, q < pos) →
      (openersFrom pos openers ops).Pairwise (· > ·)
  | _, _, [], h, _ => h
  | pos, openers, o :: ops, h, hlt => by
    have hlater : ∀ q ∈ openers, q < pos + 1 := fun q hq => Nat.lt_succ_of_lt (hlt q hq)
    rw [openersFrom]
    cases o with
    | enter kind result =>
      refine pairwise_openersFrom ops (List.pairwise_cons.mpr ⟨hlt, h⟩) ?_
      exact List.forall_mem_cons.mpr ⟨Nat.lt_succ_self pos, hlater⟩
    | close | delegate _ =>
      exact pairwise_openersFrom ops h.tail fun q hq => hlater q (List.mem_of_mem_tail hq)
    | _ => exact pairwise_openersFrom ops h hlater

end

/-! ## 2. The openers of a body

The stack of open regions, with the position of every opener instead of its kind alone.  It is the
stack that `observe` keeps, and in addition says where each of them was opened. -/

/-- The region that an operation opens, with its kind and result, if it opens one. -/
def Op.region? : Op → Option Region
  | .enter kind result => some ⟨kind, result⟩
  | _ => none

namespace Body

/-- The region that begins at a position, if an opener stands there. -/
def region? (body : Body) (pos : Nat) : Option Region := body.ops[pos]?.bind Op.region?

/-- The regions that are open in front of a position, innermost first, as a scan up to there gives
them (`scan`). -/
def nestingAt (body : Body) (pos : Nat) : Nesting := .ofBody (body.take pos)

/-- The positions of the openers whose region is not closed in the body, the last one first. -/
def unclosed (body : Body) : List Nat :=
  ((List.range body.length).filter fun s =>
    (body.region? s).isSome && (body.matchingClose? s).isNone).reverse

variable {body : Body} {s e : Nat} {r : Region}

/-- The nesting at a position lists the regions that begin at the openers. -/
theorem map_region?_openers (body : Body) (pos : Nat) :
    (body.openers pos).map body.region? = (body.nestingAt pos).map some := by
  have hscan : body.nestingAt pos = Nesting.observeAll [] (body.ops.take pos) := by
    rw [nestingAt, ← List.reverse_reverse (body.take pos), ← Nesting.ofReversed_eq,
      Nesting.ofReversed_eq_observe, List.reverse_reverse, ops, List.map_take]
    rfl
  have h := congrArg (List.map (Option.bind · Op.region?)) (body.regions_openers pos)
  rw [List.map_map, List.map_map] at h
  rw [hscan]
  exact h

theorem nestingAt_eq_filterMap (body : Body) (pos : Nat) :
    body.nestingAt pos = (body.openers pos).filterMap body.region? := by
  have h := congrArg (List.filterMap id) (body.map_region?_openers pos)
  rw [List.filterMap_map, List.filterMap_map] at h
  simpa using h.symm

theorem mem_openers_lt {pos : Nat} (h : s ∈ body.openers pos) : s < pos := by
  rcases mem_openersFrom h with h | h
  · cases h
  · rw [List.length_take] at h
    omega

theorem openers_add {pos : Nat} (h : pos ≤ body.length) (j : Nat) :
    body.openers (pos + j)
      = openersFrom pos (body.openers pos) ((ops (body.drop pos)).take j) := by
  rw [openers, List.take_add, openersFrom_append, List.length_take, length_ops,
    Nat.zero_add, Nat.min_eq_left h, ops, ops, List.map_drop]
  rfl

/-- At an opener the body is cut in two: what is before it, and the opener with all that follows. -/
theorem cut_of_region? (h : body.region? s = some r) :
    s < body.length ∧ ∃ m, body.drop s = ⟨.enter r.kind r.result, m⟩ :: body.drop (s + 1) := by
  obtain ⟨o, ho, hr⟩ := Option.bind_eq_some_iff.mp h
  rw [ops, List.getElem?_map, Option.map_eq_some_iff] at ho
  obtain ⟨⟨o, m⟩, hi, rfl⟩ := ho
  obtain ⟨hlt, hi⟩ := List.getElem?_eq_some_iff.mp hi
  refine ⟨hlt, m, ?_⟩
  rw [List.drop_eq_getElem_cons hlt, hi]
  cases o with
  | enter kind result =>
    obtain rfl := Option.some.inj hr
    rfl
  | _ => cases hr

theorem openers_succ (h : body.region? s = some r) :
    body.openers (s + 1) = s :: body.openers s := by
  obtain ⟨hlt, m, hcut⟩ := cut_of_region? h
  rw [openers_add (Nat.le_of_lt hlt), hcut]
  rfl

theorem matchingClose?_of_region? (h : body.region? s = some r) :
    body.matchingClose? s = (closeOffset 1 (body.drop (s + 1))).map (s + 1 + ·) := by
  obtain ⟨-, m, hcut⟩ := cut_of_region? h
  rw [matchingClose?, hcut]
  -- the search first counts the opener itself
  change Option.map _ (Option.map _ _) = _
  rw [Option.map_map]
  refine congrArg (Option.map · _) (funext fun k => ?_)
  simp only [Function.comp_apply]
  omega

/-- **Up to its closer an opener is on the stack**, over the openers that were there in front of
it. -/
theorem suffix_openers {k : Nat} (hs : body.region? s = some r) (hk : s < k)
    (h : ∀ e, body.matchingClose? s = some e → k ≤ e) :
    s :: body.openers s <:+ body.openers k := by
  obtain ⟨hlt, -⟩ := cut_of_region? hs
  obtain ⟨j, rfl⟩ := Nat.exists_eq_add_of_le hk
  rw [Nat.succ_eq_add_one, openers_add hlt, openers_succ hs]
  refine suffix_openersFrom (s + 1) [] fun k hk => Nat.le_of_add_le_add_left (h (s + 1 + k) ?_)
  exact (matchingClose?_of_region? hs).trans (congrArg (Option.map _) hk)

/-- **Behind its closer the stack is what it was in front of the opener.** In between it is never
shorter, so the closer is the first place at which this can be so. -/
theorem openers_close (hs : body.region? s = some r) (h : body.matchingClose? s = some e) :
    s < e ∧ e < body.length ∧ body.openers (e + 1) = body.openers s := by
  obtain ⟨hlt, -⟩ := cut_of_region? hs
  rw [matchingClose?_of_region? hs] at h
  obtain ⟨k, hk, rfl⟩ := Option.map_eq_some_iff.mp h
  have hend := closeOffset_lt hk
  rw [List.length_drop] at hend
  refine ⟨by omega, by omega, ?_⟩
  rw [Nat.add_assoc, openers_add hlt, openers_succ hs]
  exact openersFrom_close (s + 1) [] hk

/-! ## 3. Openers without a closer

A region whose search for a closer has no result stays open to the end of the body, and the other
way round. -/

theorem mem_unclosed :
    s ∈ body.unclosed ↔ (∃ r, body.region? s = some r) ∧ body.matchingClose? s = none := by
  simp only [unclosed, List.mem_reverse, List.mem_filter, List.mem_range, Bool.and_eq_true,
    Option.isSome_iff_exists, Option.isNone_iff_eq_none, and_iff_right_iff_imp, and_imp,
    forall_exists_index]
  exact fun r hr _ => (cut_of_region? hr).1

/-- **The stack at the end of a body** holds the openers for which the search finds no closer. -/
theorem openers_eq_unclosed (body : Body) : body.openers body.length = body.unclosed := by
  have hsorted : body.unclosed.Pairwise (· > ·) :=
    List.pairwise_reverse.mpr (List.pairwise_lt_range.filter _)
  -- both lists are in decreasing order, so it is enough to compare what they hold
  refine (pairwise_openersFrom _ .nil (by simp)).eq_of_mem_iff hsorted fun s => ?_
  change s ∈ body.openers body.length ↔ _
  rw [mem_unclosed]
  constructor
  · intro h
    have hregion : body.region? s ∈ (body.nestingAt body.length).map some :=
      map_region?_openers body _ ▸ List.mem_map_of_mem h
    obtain ⟨r, -, hr⟩ := List.mem_map.mp hregion
    refine ⟨⟨r, hr.symm⟩, Option.eq_none_iff_forall_ne_some.mpr fun e he => ?_⟩
    -- with a closer at `e` the opener would have to come back onto the stack behind it
    obtain ⟨hse, hlt, hstack⟩ := openers_close hr.symm he
    obtain ⟨j, hj⟩ := Nat.exists_eq_add_of_le hlt
    rw [hj, Nat.succ_eq_add_one, openers_add hlt, hstack] at h
    rcases mem_or_le_of_mem_openersFrom h with h | h
    · exact absurd (mem_openers_lt h) (Nat.lt_irrefl s)
    · omega
  · rintro ⟨⟨r, hr⟩, hnone⟩
    refine (suffix_openers hr (cut_of_region? hr).1 fun e he => ?_).subset List.mem_cons_self
    rw [hnone] at he
    cases he

/-! ## 4. One nesting

What was shown of positions, said of regions, depths and labels. -/

/-- Up to its closer an opened region is on the stack of regions, over those around it. -/
theorem suffix_nestingAt {k : Nat} (hs : body.region? s = some r) (hk : s < k)
    (h : ∀ e, body.matchingClose? s = some e → k ≤ e) :
    r :: body.nestingAt s <:+ body.nestingAt k := by
  have hregions := (suffix_openers hs hk h).filterMap body.region?
  rw [List.filterMap_cons, hs] at hregions
  simpa only [nestingAt_eq_filterMap] using hregions

/-- Up to its closer an opener makes the nesting deeper. -/
theorem depth_lt_of_before_close {k : Nat} (hs : body.region? s = some r) (hk : s < k)
    (h : ∀ e, body.matchingClose? s = some e → k ≤ e) :
    (body.nestingAt s).depth < (body.nestingAt k).depth :=
  (suffix_nestingAt hs hk h).length_le

theorem nestingAt_close (hs : body.region? s = some r) (h : body.matchingClose? s = some e) :
    body.nestingAt (e + 1) = body.nestingAt s := by
  rw [nestingAt_eq_filterMap, nestingAt_eq_filterMap, (openers_close hs h).2.2]

/-- **The closer is where the depth first returns** to what it was in front of the opener. -/
theorem matchingClose?_eq_some_iff (hs : body.region? s = some r) :
    body.matchingClose? s = some e ↔
      IsLeast {e | s < e ∧ e < body.length ∧
        (body.nestingAt (e + 1)).depth = (body.nestingAt s).depth} e := by
  have hleast : ∀ e, body.matchingClose? s = some e → IsLeast {e | s < e ∧ e < body.length ∧
      (body.nestingAt (e + 1)).depth = (body.nestingAt s).depth} e := by
    intro e he
    obtain ⟨hse, hlt, -⟩ := openers_close hs he
    refine ⟨⟨hse, hlt, by rw [nestingAt_close hs he]⟩, ?_⟩
    rintro k ⟨hsk, -, hdepth⟩
    by_contra hke
    have hdeeper := depth_lt_of_before_close hs (by omega : s < k + 1) fun e' he' => by
      obtain rfl := Option.some.inj (he.symm.trans he')
      omega
    omega
  refine ⟨hleast e, fun h => ?_⟩
  cases hfound : body.matchingClose? s with
  | some e' => rw [(hleast e' hfound).unique h]
  | none =>
    obtain ⟨⟨hse, -, hdepth⟩, -⟩ := h
    have hdeeper := depth_lt_of_before_close hs (by omega : s < e + 1) (by simp [hfound])
    omega

section

variable {t f : Nat} {r' : Region} (hs : body.region? s = some r) (ht : body.region? t = some r')
  (he : body.matchingClose? s = some e) (hf : body.matchingClose? t = some f)

include hs ht he hf

/-- A region that begins inside of another one also ends there. -/
theorem close_lt_close (hst : s < t) (hte : t ≤ e) : f < e := by
  -- otherwise it would be open behind the closer of the other one, where the depth has fallen
  by_contra hef
  have hdeeper := depth_lt_of_before_close hs hst (by simpa [he] using hte)
  have hback := congrArg Nesting.depth (nestingAt_close hs he)
  rcases Nat.lt_or_eq_of_le (Nat.not_lt.mp hef) with hlt | rfl
  · have hinner := depth_lt_of_before_close ht (by omega : t < e + 1) fun f' hf' => by
      obtain rfl := Option.some.inj (hf.symm.trans hf')
      omega
    omega
  · have hinner := congrArg Nesting.depth (nestingAt_close ht hf)
    omega

theorem icc_subset_or_disjoint (hst : s < t) :
    Set.Icc t f ⊆ Set.Icc s e ∨ Set.Icc s e ∩ Set.Icc t f = ∅ := by
  rcases Nat.lt_or_ge e t with hlt | hge
  · refine .inr (Set.eq_empty_iff_forall_notMem.mpr ?_)
    rintro q ⟨⟨-, hqe⟩, ⟨htq, -⟩⟩
    omega
  · exact .inl (Set.Icc_subset_Icc hst.le (close_lt_close hs ht he hf hst hge).le)

/-- **Two regions lie one in the other or apart.** They never overlap in part, whatever the list of
instructions looks like around them. -/
theorem icc_nested_or_disjoint : Set.Icc s e ⊆ Set.Icc t f ∨ Set.Icc t f ⊆ Set.Icc s e ∨
    Set.Icc s e ∩ Set.Icc t f = ∅ := by
  rcases Nat.lt_trichotomy s t with hst | rfl | hts
  · exact .inr (icc_subset_or_disjoint hs ht he hf hst)
  · obtain rfl := Option.some.inj (he.symm.trans hf)
    exact .inl subset_rfl
  · rw [Set.inter_comm]
    exact (icc_subset_or_disjoint ht hs hf he hts).imp_right .inr

end

theorem unclosed_take (body : Body) (k : Nat) : unclosed (body.take k) = body.openers k := by
  rw [← openers_eq_unclosed, openers, openers, ← length_ops, List.take_length, ops, List.map_take]
  rfl

/-- A branch carries what the opener asks for that its label names. -/
theorem labelArity_nestingAt (body : Body) (k label results : Nat) :
    (∀ s, (body.openers k)[label]? = some s → ∃ r, body.region? s = some r ∧
      (body.nestingAt k).labelArity label results
        = if r.kind = .loop then 0 else r.result.arity) ∧
    ((body.openers k).length ≤ label →
      (body.nestingAt k).labelArity label results = results) := by
  have hmap := congrArg (·[label]?) (body.map_region?_openers k)
  simp only [List.getElem?_map] at hmap
  constructor
  · intro s hs
    rw [hs, Option.map_some] at hmap
    obtain ⟨r, hr, e⟩ := Option.map_eq_some_iff.mp hmap.symm
    refine ⟨r, e.symm, ?_⟩
    rw [Nesting.labelArity, hr]
    obtain ⟨kind, result⟩ := r
    cases kind <;> rfl
  · intro hle
    rw [List.getElem?_eq_none hle, Option.map_none, eq_comm, Option.map_eq_none_iff] at hmap
    rw [Nesting.labelArity, hmap]

/-- **The search for closers and the stack of open regions describe one nesting**, in every body.

The search from an opener ends at the first position behind which the stack is as deep as in front
of the opener.  Then it is the same stack, and up to there the region that the opener begins was on
it.  So two regions lie one in the other or apart.  After any first part of the body, label `d`
names the opener number `d`, from the inside, of those that have no closer in that part.  A branch
to it carries the result of its region, or nothing if that is a loop, and a label past all of them
names the function. -/
theorem matchingClose?_follows_nesting (body : Body) :
    (∀ s r, body.region? s = some r →
      body.findClose s = .ok (body.matchingClose? s) ∧
      (∀ e, body.matchingClose? s = some e ↔
        IsLeast {e | s < e ∧ e < body.length ∧
          (body.nestingAt (e + 1)).depth = (body.nestingAt s).depth} e) ∧
      ∀ e, body.matchingClose? s = some e →
        body.nestingAt (e + 1) = body.nestingAt s ∧
        ∀ k, s < k → k ≤ e → r :: body.nestingAt s <:+ body.nestingAt k) ∧
    (∀ s t r r' e f, body.region? s = some r → body.region? t = some r' →
      body.matchingClose? s = some e → body.matchingClose? t = some f →
        Set.Icc s e ⊆ Set.Icc t f ∨ Set.Icc t f ⊆ Set.Icc s e ∨
          Set.Icc s e ∩ Set.Icc t f = ∅) ∧
    ∀ k label results,
      (∀ s, (unclosed (body.take k))[label]? = some s → ∃ r, body.region? s = some r ∧
        (body.nestingAt k).labelArity label results
          = if r.kind = .loop then 0 else r.result.arity) ∧
      ((unclosed (body.take k)).length ≤ label →
        (body.nestingAt k).labelArity label results = results) := by
  refine ⟨fun s r hs => ⟨?_, fun e => matchingClose?_eq_some_iff hs, fun e he => ⟨?_, ?_⟩⟩,
    fun s t r r' e f hs ht he hf => icc_nested_or_disjoint hs ht he hf, fun k label results => ?_⟩
  · exact if_neg (Nat.not_lt.mpr (Nat.le_of_lt (cut_of_region? hs).1))
  · exact nestingAt_close hs he
  · exact fun k hsk hke => suffix_nestingAt hs hsk (by simpa [he] using hke)
  · rw [unclosed_take]
    exact labelArity_nestingAt body k label results

/-- Closers too many at the start and in the middle, and two regions that stay open. -/
def unbalanced : Body :=
  [Op.close, .enter .block (some .i32), .enter .loop none, .delegate 0, .i32Const 7, .close, .close,
    .enter .ifThen (some .i32), .enter .loop none].map Op.plain

theorem matchingClose?_follows_nesting_unbalanced :
    unbalanced.region? 1 = some ⟨.block, some .i32⟩ ∧ unbalanced.matchingClose? 1 = some 5 ∧
      IsLeast {e | 1 < e ∧ e < unbalanced.length ∧
        (unbalanced.nestingAt (e + 1)).depth = (unbalanced.nestingAt 1).depth} 5 ∧
      (unbalanced.nestingAt 9).labelArity 1 0 = 1 := by
  obtain ⟨hregion, -, hlabel⟩ := matchingClose?_follows_nesting unbalanced
  obtain ⟨-, hleast, -⟩ := hregion 1 ⟨.block, some .i32⟩ rfl
  obtain ⟨r, hr, harity⟩ := (hlabel 9 1 0).1 7 (by decide)
  obtain rfl := Option.some.inj hr
  exact ⟨rfl, rfl, (hleast 5).mp rfl, harity⟩

end Body

end WasmTrim
