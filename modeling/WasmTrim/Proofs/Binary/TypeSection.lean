/-
# The type section

An assembler gives every signature a position when it first meets it.  After some uses of signatures
it holds those that were used, each once and in the order of first use, and its look-up table is the
inverse of that list (`Assembler.Registered`).  One more use keeps this (`Registered.register`), so
the entries of imports, functions and tags refer to the positions that their signatures have at the
end (`Registered.enter`).

Since a program begins with a cleared table, nothing of an earlier program is left in a later one:
every program is assembled as it would be on its own (`Assembler.assemble_eq`).  What its type
section holds is read off the bytes (`TypeSection.decode`).

The list and the look-up table are kept side by side (`signatures`, `signature_index`), and a
position is only ever taken from the second while the section is written from the first.  So what
has to hold of them is that they say the same, after every use and also where a program is given up
half-way (`generate`): the global that is no constant is noticed after all signatures have been
entered, and they stay in the table until the next program clears it.

First uses are the occurrences that `List.eraseDups` keeps, and positions among them are found with
`List.idxOf`; the lemmas on these two are what the model of the table rests on.
-/
import Mathlib.Data.List.Induction
import WasmTrim.Binary.Assembler
import WasmTrim.Proofs.Binary.Image

namespace WasmTrim

open Leb128

/-! ## 1. First uses

About a list of uses in general.  A position is settled by the first use and does not depend on what
is used later. -/

section

variable {α : Type} [DecidableEq α]

/-- One more use is a first use if it is not among those before. -/
theorem eraseDups_concat (uses : List α) (s : α) :
    (uses ++ [s]).eraseDups = if s ∈ uses then uses.eraseDups else uses.eraseDups ++ [s] := by
  rw [List.eraseDups_append]
  by_cases h : s ∈ uses
  · have hnone : [s].removeAll uses = [] := by simp [List.removeAll, h]
    rw [hnone, if_pos h, List.eraseDups_nil, List.append_nil]
  · have hall : [s].removeAll uses = [s] := by simp [List.removeAll, h]
    rw [hall, if_neg h]
    rfl

/-- Later uses leave the positions of earlier ones alone. That is why the assembler may hand out a
position before it has seen the rest of the program. -/
theorem idxOf_eraseDups_append {uses : List α} {s : α} (h : s ∈ uses) (more : List α) :
    (uses ++ more).eraseDups.idxOf s = uses.eraseDups.idxOf s := by
  rw [List.eraseDups_append, List.idxOf_append_of_mem (List.mem_eraseDups.mpr h)]

/-- **First uses are listed in their order**: of two signatures in the table, the one with the
smaller position was used before the other for the first time. -/
theorem pairwise_eraseDups (uses : List α) :
    uses.eraseDups.Pairwise fun s u => uses.idxOf s < uses.idxOf u := by
  induction uses using List.reverseRecOn with
  | nil => exact .nil
  | append_singleton uses last ih =>
    -- what was used before keeps its first use
    have hold : ∀ s ∈ uses.eraseDups, (uses ++ [last]).idxOf s = uses.idxOf s := fun s hs =>
      List.idxOf_append_of_mem (List.mem_eraseDups.mp hs)
    have hbefore : uses.eraseDups.Pairwise fun s u =>
        (uses ++ [last]).idxOf s < (uses ++ [last]).idxOf u := by
      refine ih.imp_of_mem fun {s u} hs hu hlt => ?_
      rwa [hold s hs, hold u hu]
    rw [eraseDups_concat]
    split
    · exact hbefore
    · rename_i hlast
      refine List.pairwise_append.mpr ⟨hbefore, List.pairwise_singleton _ _, ?_⟩
      intro s hs u hu
      obtain rfl := List.mem_singleton.mp hu
      rw [hold s hs, List.idxOf_append_of_notMem hlast]
      exact Nat.lt_add_right _ (List.idxOf_lt_length_of_mem (List.mem_eraseDups.mp hs))

end

/-! ## 2. Registering

A use either finds its signature in the table or adds it behind all others (`signature`).  The
invariant says what the table holds after some uses, and one use is one step. -/

namespace Assembler

/-- **An assembler that has met the given uses**: its list holds their signatures, each once, and
its look-up table is the inverse of the list. -/
structure Registered (uses : List Signature) (a : Assembler) : Prop where
  signatures : a.signatures = uses.eraseDups
  positions : ∀ s, a.positions.lookup s = if s ∈ uses then some (a.signatures.idxOf s) else none

/-- A cleared assembler has met nothing, whatever it held before. -/
theorem registered_clear (a : Assembler) : Registered [] a.clear where
  signatures := List.eraseDups_nil.symm
  positions _ := rfl

namespace Registered

variable {uses : List Signature} {a : Assembler}

/-- **One more use**: the assembler has met it, and it is given the position of its signature. -/
theorem register (h : Registered uses a) (s : Signature) :
    Registered (uses ++ [s]) (a.register s).2 ∧
      (a.register s).1 = (uses ++ [s]).eraseDups.idxOf s := by
  have hlookup := h.positions s
  by_cases hs : s ∈ uses
  · rw [if_pos hs] at hlookup
    have hsame : (uses ++ [s]).eraseDups = uses.eraseDups := by rw [eraseDups_concat, if_pos hs]
    simp only [Assembler.register, hlookup]
    refine ⟨⟨h.signatures.trans hsame.symm, fun u => ?_⟩, by rw [hsame, h.signatures]⟩
    have hmem : u ∈ uses ++ [s] ↔ u ∈ uses := by
      simp only [List.mem_append, List.mem_singleton, or_iff_left_iff_imp]
      rintro rfl
      exact hs
    simp only [h.positions u, hmem]
  · rw [if_neg hs] at hlookup
    have hnew : (uses ++ [s]).eraseDups = a.signatures ++ [s] := by
      rw [eraseDups_concat, if_neg hs, h.signatures]
    have hfresh : s ∉ a.signatures := by
      rw [h.signatures, List.mem_eraseDups]
      exact hs
    have hlast : (a.signatures ++ [s]).idxOf s = a.signatures.length := by
      rw [List.idxOf_append_of_notMem hfresh, List.idxOf_cons_self, Nat.add_zero]
    simp only [Assembler.register, hlookup]
    refine ⟨⟨hnew.symm, fun u => ?_⟩, by rw [hnew, hlast]⟩
    by_cases hu : u = s
    · subst hu
      rw [List.lookup_cons_self, hlast, if_pos (by simp)]
    · -- the positions of the others stay as they are
      have hne : (u == s) = false := beq_false_of_ne hu
      rw [List.lookup_cons, hne, h.positions u]
      by_cases hmem : u ∈ uses
      · have hin : u ∈ a.signatures := by
          rw [h.signatures, List.mem_eraseDups]
          exact hmem
        rw [if_pos hmem, if_pos (List.mem_append_left _ hmem), List.idxOf_append_of_mem hin]
      · rw [if_neg hmem, if_neg (by simp [hmem, hu])]

/-- **The entries of some items**: each refers to the position of its signature, also among all
signatures that come later. -/
theorem enter {α : Type} (signature : α → Signature) (encode : Nat → α → Bytes)
    (h : Registered uses a) (xs : List α) :
    Registered (uses ++ xs.map signature) (a.enter signature encode xs).2 ∧
      ∀ later, (a.enter signature encode xs).1 = xs.map fun x =>
        encode ((uses ++ xs.map signature ++ later).eraseDups.idxOf (signature x)) x := by
  induction xs generalizing uses a with
  | nil => exact ⟨by simpa [Assembler.enter] using h, fun _ => rfl⟩
  | cons x xs ih =>
    obtain ⟨hx, hposition⟩ := h.register (signature x)
    obtain ⟨hxs, hentries⟩ := ih hx
    have huses : uses ++ [signature x] ++ xs.map signature = uses ++ (x :: xs).map signature := by
      simp
    refine ⟨huses ▸ hxs, fun later => ?_⟩
    have hstays : (uses ++ (x :: xs).map signature ++ later).eraseDups.idxOf (signature x)
        = (uses ++ [signature x]).eraseDups.idxOf (signature x) := by
      rw [← huses, List.append_assoc]
      exact idxOf_eraseDups_append (by simp) _
    have hrest := hentries later
    rw [huses] at hrest
    simp only [Assembler.enter]
    rw [List.map_cons, hstays, hposition, hrest]

end Registered

/-! ## 3. One program

Imports come first, then functions, then tags, and the type section is written behind all three. -/

/-- The module is the one that refers to the table of the program. -/
theorem layOut_typeTable (p : Program) :
    p.layOut p.typeTable
        (p.imports.map fun i => Import.entry (p.typeTable.idxOf i.signature) i)
        (p.functions.map fun f => Function.entry (p.typeTable.idxOf f.signature) f)
        (p.tags.map fun t => Tag.entry (p.typeTable.idxOf t.signature) t)
      = p.binary := by
  simp only [Program.layOut, Program.binary, encodeVector, List.length_map, List.flatMap_map]
  rfl

/-- **A program is assembled as it would be on its own**, whatever the assembler held before. This
covers refusals: the message is the one that a fresh assembler gives. -/
theorem assemble_eq (a : Assembler) (p : Program) : (a.assemble p).1 = p.assemble := by
  unfold assemble Program.assemble Program.defect?
  cases hmisplaced : p.misplaced? with
  | some e => rfl
  | none =>
    obtain ⟨himports, hi⟩ :=
      (registered_clear a).enter Import.signature Import.entry p.imports
    obtain ⟨hfunctions, hf⟩ := himports.enter Function.signature Function.entry p.functions
    obtain ⟨htags, ht⟩ := hfunctions.enter Tag.signature Tag.entry p.tags
    -- in the end the table is that of the program
    have huses : p.imports.map Import.signature ++ p.functions.map Function.signature
        ++ p.tags.map Tag.signature = p.signatureUses := rfl
    have hi := hi (p.functions.map Function.signature ++ p.tags.map Tag.signature)
    have hf := hf (p.tags.map Tag.signature)
    have ht := ht []
    have hsignatures := htags.signatures
    simp only [List.nil_append, List.append_nil, ← List.append_assoc, huses] at hi hf ht hsignatures
    have hbytes := layOut_typeTable p
    simp only [Program.typeTable] at hbytes
    simp only [hi, hf, ht, hsignatures, hbytes]
    cases p.notConstant? <|> p.scatteredLocals? <;> rfl

/-- **Programs are assembled one by one.** Each result is that of the program by itself, so neither
the order of the programs nor a refusal among them matters. -/
theorem assembleAll_eq (a : Assembler) (programs : List Program) :
    (a.assembleAll programs).1 = programs.map Program.assemble := by
  induction programs generalizing a with
  | nil => rfl
  | cons p programs ih =>
    simp only [assembleAll, List.map_cons, assemble_eq, ih]

end Assembler

/-! ## 4. Reading the type section

Only the sections that have to do with types are looked at here: the types themselves, and the three
sections that refer to them. -/

/-- **What a binary says about types**: the type section, and the positions in it that the imports,
functions and tags refer to. -/
structure TypeSection where
  types : List Signature
  imports : List Nat
  functions : List Nat
  tags : List Nat

/-- The position that an import refers to, behind the two names that are read past. -/
def readImportType : Reader Nat := do
  let _ ← readName
  let _ ← readName
  Reader.expect 0x00
  natural

/-- The position that a tag refers to, behind the byte that says that it is the tag of an exception.
-/
def readTagType : Reader Nat := do
  Reader.expect 0x00
  natural

theorem parses_readImportType (position : Nat) (i : Import) :
    readImportType.Parses (i.entry position) position := by
  have hall : readImportType.Parses
      (encodeName i.origin ++ (encodeName i.name ++ ([0x00] ++ unsigned position))) position :=
    (parses_readName i.origin).bind ((parses_readName i.name).bind
      ((Reader.parses_expect 0x00).bind (parses_natural position)))
  rwa [← List.append_assoc] at hall

theorem parses_readTagType (position : Nat) (t : Tag) :
    readTagType.Parses (t.entry position) position :=
  (Reader.parses_expect 0x00).bind (parses_natural position)

/-- Reads the types, and what refers to them, off a binary. Positions are read as numbers and not
replaced by what they stand for. -/
def TypeSection.decode (bytes : Bytes) : Option TypeSection := do
  let (magic, rest) ← (Reader.take 8).read bytes
  if magic ≠ Program.preamble then none
  let sections ← readSection.all rest
  let types ← sectionItems sections 1 readSignature
  let imports ← sectionItems sections 2 readImportType
  let functions ← sectionItems sections 3 natural
  let tags ← sectionItems sections 13 readTagType
  return { types, imports, functions, tags }

/-- The types of a program, and what refers to them, without an assembler: the table lists the
signatures by first use, and a position is the place in that table. -/
def Program.typeSection (p : Program) : TypeSection where
  types := p.typeTable
  imports := p.imports.map fun i => p.typeTable.idxOf i.signature
  functions := p.functions.map fun f => p.typeTable.idxOf f.signature
  tags := p.tags.map fun t => p.typeTable.idxOf t.signature

/-- **The type section is read back**, and with it the positions in it that imports, functions and
tags refer to. The other sections are passed over. -/
theorem TypeSection.decode_binary (p : Program) :
    TypeSection.decode p.binary = some p.typeSection := by
  obtain ⟨⟨h₁, h₂⟩, ⟨h₃, -⟩, ⟨h₁₃, -⟩, -⟩ := lookup_sections _ _ _ _ _ _ _ _ _ _ _ _ p.sections rfl
  have htypes : sectionItems p.sections 1 readSignature = some p.typeTable := by
    rw [sectionItems_of_lookup h₁ fun s _ => parses_readSignature s, List.map_id']
  have himports : sectionItems p.sections 2 readImportType = some p.typeSection.imports :=
    sectionItems_eq h₂ List.isEmpty_iff.mp fun i _ => parses_readImportType _ i
  have hfunctions : sectionItems p.sections 3 natural = some p.typeSection.functions :=
    sectionItems_of_lookup h₃ fun _ _ => parses_natural _
  have htags : sectionItems p.sections 13 readTagType = some p.typeSection.tags :=
    sectionItems_eq h₁₃ List.isEmpty_iff.mp fun t _ => parses_readTagType _ t
  simp only [TypeSection.decode, p.read_preamble, p.readSection_all, htypes, himports, hfunctions,
    htags, bind, Option.bind, pure, ne_eq, not_true_eq_false, if_false]
  rfl

/-! ## 5. Exact type sections

The statement is about a sequence of programs that one assembler is given, some of which it may
refuse. -/

/-- **A type section is exact**: it lists the signatures that the program uses, each once and in the
order of first use, and every position in use is that of the signature it stands for. -/
structure TypeSection.Exact (t : TypeSection) (p : Program) : Prop where
  mem_iff : ∀ s, s ∈ t.types ↔ s ∈ p.signatureUses
  nodup : t.types.Nodup
  firstUses : t.types.Pairwise fun s u => p.signatureUses.idxOf s < p.signatureUses.idxOf u
  imports : t.imports.map (t.types[·]?) = p.imports.map fun i => some i.signature
  functions : t.functions.map (t.types[·]?) = p.functions.map fun f => some ⟨f.params, f.result⟩
  tags : t.tags.map (t.types[·]?) = p.tags.map fun t => some ⟨t.params, none⟩

theorem Program.getElem?_typeTable {p : Program} {s : Signature} (h : s ∈ p.signatureUses) :
    p.typeTable[p.typeTable.idxOf s]? = some s := List.getElem?_idxOf (mem_typeTable.mpr h)

theorem Program.typeSection_exact (p : Program) : p.typeSection.Exact p where
  mem_iff _ := mem_typeTable
  nodup := (pairwise_eraseDups p.signatureUses).imp fun hlt e => by
    subst e
    exact Nat.lt_irrefl _ hlt
  firstUses := pairwise_eraseDups p.signatureUses
  imports := by
    rw [typeSection, List.map_map]
    exact List.map_congr_left fun i hi =>
      getElem?_typeTable (by simp [signatureUses, List.mem_map_of_mem hi])
  functions := by
    rw [typeSection, List.map_map]
    exact List.map_congr_left fun f hf =>
      getElem?_typeTable (s := f.signature) (by simp [signatureUses, List.mem_map_of_mem hf])
  tags := by
    rw [typeSection, List.map_map]
    exact List.map_congr_left fun t ht =>
      getElem?_typeTable (s := t.signature) (by simp [signatureUses, List.mem_map_of_mem ht])

/-- **An assembler can be used again, and its type sections are exact.**  Whatever it holds, also
after programs that were given up in the middle, every program gets the result that a fresh
assembler gives; and the type section of every binary is exact. -/
theorem Assembler.assembleAll_exact (a : Assembler) (programs : List Program) :
    (a.assembleAll programs).1 = programs.map (fun p => (fresh.assemble p).1) ∧
    ∀ (i : Nat) (p : Program) (bytes : Bytes), programs[i]? = some p →
      (a.assembleAll programs).1[i]? = some (.ok bytes) →
        ∃ t, TypeSection.decode bytes = some t ∧ t.Exact p := by
  refine ⟨?_, fun i p bytes hp hbytes => ?_⟩
  · rw [assembleAll_eq]
    exact List.map_congr_left fun p _ => (fresh.assemble_eq p).symm
  · rw [assembleAll_eq, List.getElem?_map, hp, Option.map_some, Option.some.injEq] at hbytes
    obtain rfl : bytes = p.binary := by
      unfold Program.assemble at hbytes
      split at hbytes
      · cases hbytes
      · exact (Except.ok.inj hbytes).symm
    exact ⟨p.typeSection, TypeSection.decode_binary p, p.typeSection_exact⟩

/-- A program that is given up after its signatures have been registered: a global does not start
as a constant. -/
def abandoned : Program :=
  { sample with
    tags := [⟨[.f64, .f64]⟩]
    globals := [⟨"pages", .i32, true, .memorySize⟩] }

/-- A program in which a tag shares its type with an import, and another has a type of its own. -/
def tagged : Program := { sample with tags := [⟨[.i64]⟩, ⟨[.i32]⟩] }

theorem Assembler.assembleAll_exact_afterFailure :
    (fresh.assembleAll [abandoned, tagged]).1
      = [.error (.notConstant "pages" .memorySize), .ok tagged.binary] ∧
    ∃ t, TypeSection.decode tagged.binary = some t ∧ t.Exact tagged := by
  have habandoned : abandoned.defect? = some (.notConstant "pages" .memorySize) := by
    decide +kernel
  have htagged : tagged.defect? = none := by decide +kernel
  have hresults : (fresh.assembleAll [abandoned, tagged]).1
      = [.error (.notConstant "pages" .memorySize), .ok tagged.binary] := by
    simp only [assembleAll_eq, List.map_cons, List.map_nil, Program.assemble, habandoned, htagged]
  refine ⟨hresults, (assembleAll_exact fresh [abandoned, tagged]).2 1 tagged tagged.binary rfl ?_⟩
  rw [hresults]
  rfl

end WasmTrim
