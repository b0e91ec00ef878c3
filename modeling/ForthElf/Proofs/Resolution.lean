import ForthElf.Proofs.Names
import ForthElf.Proofs.WordEffects

/-!
# Words in the finished program

* `Compilation.start k` — where the instructions of item `k` itself start;
* `Compilation.process` — the finished code in memory;
* `Compilation.Inlines`, `Compilation.CallsOnly`, `Compilation.Pushes` — the bytes of an item and what they do: the
  effect of a built-in word, a call as the only branch, or one more cell;
* `Compilation.Resolved k token` — what the plain word `token` has become;
* `names_resolve` — **every plain word means in the finished code what its name refers to**.
-/

namespace ForthElf

open Text Register

namespace Compilation

open Compiler

variable (c : Compilation)

/-! ### The parts of an item -/

/-- The start of the main program, if item `k` comes first in it. -/
def lead (k : Nat) : List Instruction :=
  ((c.items[k]?).map (c.state k).lead).getD []

/-- The place of the top cell where the instructions of item `k` itself start. -/
def topPlace (k : Nat) : CacheState :=
  ((c.items[k]?).map fun item => ((c.state k).ready item).cache.state).getD .spilled

/-- Where the instructions of item `k` itself start. -/
def start (k : Nat) : Nat :=
  c.offset k + codeSize (c.lead k)

/-- The finished code in memory, with areas for its stacks. -/
def process (kernel : Kernel) (base : BitVec 64) (areas : Areas) : Process where
  kernel := kernel
  code := ⟨base, c.program.code⟩
  areas := areas
  instructions := c.instructions
  consists := ⟨c.code_eq, c.encodable_instructions, c.codeSize_instructions_lt⟩

/-- The bytes of item `k` are the code of a built-in word.  Wherever they are loaded they have its effect, and leave the
top cell where the next item expects it. -/
structure Inlines (k : Nat) (p : Primitive) : Prop where
  bytes : c.bytes k = assemble (c.lead k ++ p.recipe.code 0 (c.start k) (c.topPlace k))
  obeys : ∀ (kernel : Kernel) (base : BitVec 64) (m : Machine) (w : World),
    m.ip = LoadedCode.address ⟨base, c.program.code⟩ (c.start k) → m.Ready p (c.topPlace k) w →
      m.Obeys kernel ⟨base, c.program.code⟩ p (c.topPlace k) (c.state (k + 1)).cache.state (c.offset (k + 1)) w

/-- The bytes of item `k` end with a call to `target`, and there is no other branch in them.  Wherever they are loaded
they get there with all cells in memory, where the next item expects them, and return to it. -/
structure CallsOnly (k target : Nat) : Prop where
  bytes : ∃ front, Straight front ∧
    c.bytes k = assemble (front ++ [leading (c.offset (k + 1) - 5) .call target])
  branch : BranchAt c.program.code (c.offset (k + 1) - 5) .call target
  state : (c.state (k + 1)).cache.state = .spilled
  takes : ∀ kernel base areas data ret output, data.length ≤ (areas.area .data).cells →
    ret.length < (areas.area .ret).cells →
      (c.process kernel base areas).Takes (c.start k) ⟨c.topPlace k, data, ret, output⟩ target
        ⟨.spilled, data, (c.process kernel base areas).code.address (c.offset (k + 1)) :: ret, output⟩

/-- The bytes of item `k` move the top cell to memory and load `value`.  Wherever they are loaded they push `value`, and
leave it in `rax`, where the next item expects it. -/
structure Pushes (k : Nat) (value : Cell) : Prop where
  bytes : c.bytes k = assemble (c.lead k ++ (c.topPlace k).spilling ++ [.movRegImm rax value])
  state : (c.state (k + 1)).cache.state = .cached
  takes : ∀ kernel base areas data ret output, data.length ≤ (areas.area .data).cells →
    (c.process kernel base areas).Takes (c.start k) ⟨c.topPlace k, data, ret, output⟩ (c.offset (k + 1))
      ⟨.cached, value :: data, ret, output⟩

/-- What the plain word `token`, item number `k`, has become in the finished program. -/
structure Resolved (k : Nat) (token : Token) : Prop where
  /-- A built-in word is compiled in place, whatever else has its name. -/
  primitive : ∀ p, Primitive.lookup? token.text = some p → c.Inlines k p
  /-- A defined word is called. -/
  definition : Primitive.lookup? token.text = none → ∀ h colon name index,
    IsReferent c.items k token.text h → c.items[h]? = some (.define colon name index) →
      c.CallsOnly k (c.offset (h + 1))
  /-- A variable pushes its own address. -/
  cell : Primitive.lookup? token.text = none → ∀ h word name index,
    IsReferent c.items k token.text h → c.items[h]? = some (.«variable» word name index) →
      c.Pushes k (c.cellAddress h).toBitVec
  /-- A word that is defined ahead is called: the first of its definitions. -/
  ahead : Primitive.lookup? token.text = none → (∀ h, ¬IsReferent c.items k token.text h) →
    c.options.forwardRefs → ∀ j, c.DefinedBehind k token.text j →
      (∀ j', c.DefinedBehind k token.text j' → j ≤ j') → c.CallsOnly k (c.offset (j + 1))
  /-- Any other word is passed over with a warning. -/
  skipped : Primitive.lookup? token.text = none → (∀ h, ¬IsReferent c.items k token.text h) →
    ¬(c.options.forwardRefs ∧ ∃ j, c.DefinedBehind k token.text j) →
      c.options.bestEffort ∧ c.bytes k = [] ∧
        (c.state (k + 1)).warnings = (c.state k).warnings.push ⟨token.pos, token.text⟩ ∧
        (c.state (k + 1)).warnings.toList <+: c.program.warnings

variable {c} {k : Nat} {item : Item} {token : Token} {index : Nat}

/-! ### Blocks of words -/

theorem lead_eq (h : c.items[k]? = some item) : c.lead k = (c.state k).lead item := by
  rw [lead, h]
  rfl

theorem topPlace_eq (h : c.items[k]? = some item) : c.topPlace k = ((c.state k).ready item).cache.state := by
  rw [topPlace, h]
  rfl

theorem offset_ready_eq (h : c.items[k]? = some item) : ((c.state k).ready item).offset = c.start k := by
  rw [offset_ready, start, lead_eq h]
  rfl

theorem straight_lead (c : Compilation) (k : Nat) : Straight (c.lead k) := by
  unfold lead
  cases c.items[k]? with
  | none => exact fun kind d => List.not_mem_nil
  | some item => exact Compiler.straight_lead _ item

section Words

variable (hword : c.items[k]? = some (.word token index))
include hword

theorem block_eq_of_resolve {reference : Reference} (hr : (c.state k).resolve token index = some reference) :
    c.block k = c.lead k ++ ((c.state k).ready (.word token index)).referenceCode reference := by
  rw [c.block_eq hword, Compiler.block, itemCode, resolve_ready, hr, lead_eq hword]
  rfl

/-- Only a call ahead waits for its target. -/
theorem not_opens_of_resolve (hr : (c.state k).resolve token index ≠ some .later) (kind : Branch) :
    ¬c.Opens k kind := by
  intro hopens
  cases hopens with
  | «if» h | «else» h | «while» h | define h _ =>
    rw [hword] at h
    cases h
  | call h =>
    obtain ⟨index', h, hlater⟩ := h
    rw [hword] at h
    cases h
    exact hr hlater

theorem bytes_of_resolve {reference : Reference} (hr : (c.state k).resolve token index = some reference)
    (hne : reference ≠ .later) :
    c.bytes k = assemble (c.lead k ++ ((c.state k).ready (.word token index)).referenceCode reference) := by
  have hk := (List.getElem?_eq_some_iff.mp hword).1
  have hopens := not_opens_of_resolve hword (k := k) (by rw [hr]; exact fun h => hne (Option.some.inj h))
  rw [bytes_eq hk, segment_eq_block hk hopens, block_eq_of_resolve hword hr]

end Words

/-- **The instructions of an item** that waits for no target. -/
theorem placed_itemCode (h : c.items[k]? = some item) (hopens : ∀ kind, ¬c.Opens k kind) :
    Placed c.instructions (c.start k) (((c.state k).ready item).itemCode item) ∧
      c.start k + codeSize (((c.state k).ready item).itemCode item) = c.offset (k + 1) := by
  have hk := (List.getElem?_eq_some_iff.mp h).1
  have hblock : c.block k = c.lead k ++ ((c.state k).ready item).itemCode item := by
    rw [c.block_eq h, Compiler.block, lead_eq h]
  have hplaced := placed_segment hk
  rw [segment_eq_block hk hopens, hblock] at hplaced
  refine ⟨hplaced.right, ?_⟩
  rw [c.offset_succ hk, hblock, codeSize_append, start, Nat.add_assoc]

/-! ### Built-in words -/

theorem placed_primitive {word : Primitive} (h : c.items[k]? = some (.word token index))
    (hlookup : Primitive.lookup? token.text = some word) :
    Placed c.instructions (c.start k) (word.recipe.code 0 (c.start k) (c.topPlace k)) ∧
      c.start k + codeSize (word.recipe.code 0 (c.start k) (c.topPlace k)) = c.offset (k + 1) ∧
      (c.state (k + 1)).cache.state = word.recipe.exitState := by
  have hk := Nat.le_of_lt (List.getElem?_eq_some_iff.mp h).1
  have hresolve : (c.state k).resolve token index = some (.primitive word) := by rw [resolve, hlookup]
  obtain ⟨hplaced, hend⟩ := placed_itemCode h (not_opens_of_resolve h (by rw [hresolve]; simp))
  rw [itemCode, resolve_ready, hresolve, Option.map_some, Option.getD_some, referenceCode, printNumber_ready,
    c.printNumber_state hk, offset_ready_eq h, ← topPlace_eq h] at hplaced hend
  refine ⟨hplaced, hend, ?_⟩
  rw [(c.compiled h).state, stateAfter, resolve_ready, hresolve]

theorem inlines_of_lookup? {p : Primitive} (hword : c.items[k]? = some (.word token index))
    (hp : Primitive.lookup? token.text = some p) : c.Inlines k p := by
  have hk := (List.getElem?_eq_some_iff.mp hword).1
  have hr : (c.state k).resolve token index = some (.primitive p) := by rw [resolve, hp]
  refine ⟨?_, fun kernel base m w hip hready => ?_⟩
  · rw [bytes_of_resolve hword hr (by simp), referenceCode, printNumber_ready, c.printNumber_state (Nat.le_of_lt hk),
      offset_ready_eq hword, topPlace_eq hword]
  · obtain ⟨hplaced, hend, hstate⟩ := placed_primitive hword hp
    rw [← hend, hstate]
    exact hready.obeys ⟨c.code_eq, c.encodable_instructions, c.codeSize_instructions_lt⟩ hip
      (fun _ => c.placed_printNumber) hplaced

/-! ### Variables -/

theorem pushes_of_resolve {address : UInt64} (hword : c.items[k]? = some (.word token index))
    (hr : (c.state k).resolve token index = some (.defined (.cell address))) : c.Pushes k address.toBitVec := by
  refine ⟨?_, ?_, fun kernel base areas data ret output hroom => ?_⟩
  · rw [bytes_of_resolve hword hr (by simp), referenceCode, topPlace_eq hword, List.append_assoc]
  · rw [(c.compiled hword).state, stateAfter, resolve_ready, hr]
  · obtain ⟨hplaced, hend⟩ := placed_itemCode hword (not_opens_of_resolve hword (by rw [hr]; simp))
    rw [itemCode, resolve_ready, hr, Option.map_some, Option.getD_some, referenceCode,
      ← topPlace_eq hword] at hplaced hend
    rw [← hend]
    exact Process.takes_literal (P := c.process kernel base areas) hplaced hroom

/-! ### Calls -/

theorem callsOnly_of_segment_eq {target : Nat} (hk : k < c.items.length)
    (hsegment : c.segment k =
      c.lead k ++ (c.topPlace k).spilling ++ [leading (c.offset (k + 1) - 5) .call target])
    (htarget : target < 2 ^ 31) (hstate : (c.state (k + 1)).cache.state = .spilled) : c.CallsOnly k target := by
  have hplace : c.start k + codeSize (c.topPlace k).spilling = c.offset (k + 1) - 5 := by
    rw [c.offset_succ hk, ← codeSize_segment, hsegment, start]
    simp only [codeSize_append, codeSize_cons, codeSize_nil, size_leading, length_opcode_call]
    omega
  have hblock : Placed c.instructions (c.start k) (branching (c.start k) (c.topPlace k).spilling .call target) := by
    have hplaced := placed_segment hk
    rw [hsegment, List.append_assoc] at hplaced
    rw [branching, hplace]
    exact hplaced.right
  have hend : c.start k + codeSize (branching (c.start k) (c.topPlace k).spilling .call target) = c.offset (k + 1) := by
    rw [c.offset_succ hk, ← codeSize_segment, hsegment, branching, start]
    simp only [codeSize_append, codeSize_cons, codeSize_nil, size_leading]
    omega
  refine ⟨⟨_, (c.straight_lead k).append (c.topPlace k).straight_spilling, by rw [bytes_eq hk, hsegment]⟩, ?_, hstate,
    fun kernel base areas data ret output hroom hret => ?_⟩
  · have hcall := hblock.right
    rw [hplace] at hcall
    exact branchAt_code hcall htarget
  · rw [← hend]
    exact Process.takes_calling (P := c.process kernel base areas) hblock htarget hroom hret

theorem offset_lt_of_le {j : Nat} (hj : j ≤ c.items.length) : c.offset j < 2 ^ 31 :=
  Nat.lt_of_le_of_lt (Nat.le_add_right _ _) (c.offset_lt hj)

theorem callsOnly_of_defined {h : Nat} (hword : c.items[k]? = some (.word token index)) (hh : h < c.items.length)
    (hr : (c.state k).resolve token index = some (.defined (.code (c.offset (h + 1))))) :
    c.CallsOnly k (c.offset (h + 1)) := by
  have hk := (List.getElem?_eq_some_iff.mp hword).1
  have hopens := not_opens_of_resolve hword (by rw [hr]; simp)
  have hblock := block_eq_of_resolve hword hr
  refine callsOnly_of_segment_eq hk ?_ (offset_lt_of_le hh)
    (by rw [(c.compiled hword).state, stateAfter, resolve_ready, hr])
  have hplace : c.start k + codeSize (c.topPlace k).spilling = c.offset (k + 1) - 5 := by
    rw [c.offset_succ hk, hblock, referenceCode, branching, ← topPlace_eq hword, start]
    simp only [codeSize_append, codeSize_cons, codeSize_nil, size_leading, length_opcode_call]
    omega
  rw [segment_eq_block hk hopens, hblock, referenceCode, branching, ← topPlace_eq hword, offset_ready_eq hword, hplace,
    List.append_assoc]

theorem callsOnly_of_later {j : Nat} (hword : c.items[k]? = some (.word token index))
    (hr : (c.state k).resolve token index = some .later) (hres : c.Resolves j k) :
    c.CallsOnly k (c.offset (j + 1)) := by
  have hopens : c.Opens k .call := .call ⟨index, hword, hr⟩
  have hblock : c.block k = c.lead k ++ (c.topPlace k).spilling ++ [Instruction.branch .call 0] := by
    rw [block_eq_of_resolve hword hr, referenceCode, ← topPlace_eq hword, List.append_assoc]
  exact callsOnly_of_segment_eq hopens.lt (segment_eq_of_resolves hopens hblock hres) (offset_lt_of_le hres.lt_length)
    (by rw [(c.compiled hword).state, stateAfter, resolve_ready, hr])

/-- The first definition of the name resolves a call ahead. -/
theorem resolves_of_first {j : Nat} (hword : c.items[k]? = some (.word token index))
    (hr : (c.state k).resolve token index = some .later) (hj : c.DefinedBehind k token.text j)
    (hfirst : ∀ j', c.DefinedBehind k token.text j' → j ≤ j') : c.Resolves j k := by
  obtain ⟨hlt, colon, name, index', hdefine, hname⟩ := hj
  refine .defining ⟨hlt, ⟨index, hword, hr⟩, fun i colon' name' index'' hki hij hi => ?_⟩ hdefine
    (by rw [sameWord_comm]; exact hname)
  refine Bool.eq_false_iff.mpr fun hsame => ?_
  have hle := hfirst i ⟨hki, colon', name', index'', hi, by rw [sameWord_comm]; exact hsame⟩
  omega

/-! ### All words -/

theorem resolved_of_word (hword : c.items[k]? = some (.word token index)) : c.Resolved k token := by
  have hk := (List.getElem?_eq_some_iff.mp hword).1
  have hstep := c.compiled hword
  have hnone : (∀ h, ¬IsReferent c.items k token.text h) → referent? c.items k token.text = none :=
    fun hno => Option.eq_none_iff_forall_ne_some.mpr fun h hsome => hno h (referent?_eq_some_iff.mp hsome)
  refine ⟨fun p => inlines_of_lookup? hword, ?_, ?_, ?_, ?_⟩
  · intro hp h colon name index' href hh
    have hr := resolve_of_referent? hword hp (referent?_eq_some_iff.mpr href) hh
    exact callsOnly_of_defined hword (List.getElem?_eq_some_iff.mp hh).1 hr
  · intro hp h word name index' href hh
    exact pushes_of_resolve hword (resolve_of_referent? hword hp (referent?_eq_some_iff.mpr href) hh)
  · intro hp hno hrefs j hj hfirst
    have hr := resolve_of_referent?_eq_none hword hp (hnone hno)
    rw [if_pos ⟨hrefs, j, hj⟩] at hr
    exact callsOnly_of_later hword hr (resolves_of_first hword hr hj hfirst)
  · intro hp hno hahead
    have hr := resolve_of_referent?_eq_none hword hp (hnone hno)
    rw [if_neg hahead] at hr
    cases hbest : c.options.bestEffort with
    | false =>
      -- Without best effort the word would have been refused.
      have hadmits := hstep.admits
      simp only [Admits, resolve_ready, hr, hbest, Bool.false_eq_true, ↓reduceIte, Option.isSome_none] at hadmits
    | true =>
      rw [hbest, if_pos rfl] at hr
      have hlead : c.lead k = [] := by
        rw [lead_eq hword, Compiler.lead, startsCode, hr]
        rfl
      have hwarnings : (c.state (k + 1)).warnings = (c.state k).warnings.push ⟨token.pos, token.text⟩ := by
        have hcounts := congrArg (·.2.2.2) hstep.counts
        simpa [countsAfter, hr] using hcounts
      refine ⟨rfl, ?_, hwarnings, ?_⟩
      · rw [bytes_of_resolve hword hr (by simp), hlead]
        rfl
      · rw [c.built.2.2.2.2]
        exact c.warnings_prefix hk (Nat.le_refl _)

/-! ### Addresses of variables -/

theorem toNat_cellAddress {h : Nat} :
    (c.cellAddress h).toNat = c.options.stackTop.toNat + 8 * (c.items.take h).countP Item.isVariable := by
  have hlayout := c.built.2.2.2.1
  unfold Layout.ofOptions at hlayout
  dsimp only at hlayout
  split at hlayout
  · next hfits =>
    have hcells : c.last.cells = (c.items.take c.items.length).countP Item.isVariable := cells_eq (Nat.le_refl _)
    have hle : (c.items.take h).countP Item.isVariable ≤ c.items.countP Item.isVariable :=
      (List.take_sublist h c.items).countP_le
    rw [List.take_length] at hcells
    have htop := c.sound.stackTop_eq
    have hmax : Options.maxAddress = 2 ^ 64 - 1 := rfl
    rw [cellAddress, UInt64.toNat_add, UInt64.toNat_mul, UInt64.toNat_ofNat', show (8 : UInt64).toNat = 8 from rfl]
    omega
  · cases hlayout

theorem cellAddress_inj {h h' : Nat} {word name word' name' : Token} {index index' : Nat}
    (hh : c.items[h]? = some (.«variable» word name index))
    (hh' : c.items[h']? = some (.«variable» word' name' index')) (heq : c.cellAddress h = c.cellAddress h') :
    h = h' := by
  have hcount : ∀ {i j word name index}, c.items[i]? = some (.«variable» word name index) → i < j →
      (c.items.take i).countP Item.isVariable < (c.items.take j).countP Item.isVariable := by
    intro i j word name index hi hij
    have hle : (c.items.take (i + 1)).countP Item.isVariable ≤ (c.items.take j).countP Item.isVariable :=
      (List.take_sublist_take_left hij).countP_le
    rw [List.take_add_one, hi, Option.toList_some, List.countP_append, List.countP_singleton] at hle
    simp only [Item.isVariable, ↓reduceIte] at hle
    omega
  have hnat := congrArg UInt64.toNat heq
  rw [toNat_cellAddress, toNat_cellAddress] at hnat
  rcases Nat.lt_trichotomy h h' with hlt | heq | hlt
  · have := hcount hh hlt
    omega
  · exact heq
  · have := hcount hh' hlt
    omega

end Compilation

/-- **Names in the finished program.** In every program that compiles, a plain word is a built-in word in place, a
call to the newest complete definition of its name, the address of the newest variable of its name, a call to the next
definition of its name, or nothing but a warning; no later definition changes that. -/
theorem names_resolve {source : String} {options : Options} {program : Program}
    (h : compile source options = .ok program) :
    ∃ c : Compilation, c.options = options ∧ c.program = program ∧ tokenize source = .ok c.tokens ∧
      (∀ k token index, c.items[k]? = some (.word token index) → c.Resolved k token) ∧
      ∀ h h' word name index word' name' index', c.items[h]? = some (.«variable» word name index) →
        c.items[h']? = some (.«variable» word' name' index') → c.cellAddress h = c.cellAddress h' → h = h' := by
  obtain ⟨c, hoptions, hprogram, htokens⟩ := exists_compilation h
  refine ⟨c, hoptions, hprogram, htokens, fun k token index hword => Compilation.resolved_of_word hword, ?_⟩
  intro h h' word name index word' name' index' hh hh' heq
  exact Compilation.cellAddress_inj hh hh' heq

/-- A variable, a call ahead, a built-in word, an unknown word and a name that is defined twice. -/
def mixed : String :=
  "variable v a v ! zz : a 1 ; : a 2 ; a"

def mixedItems : List Item :=
  [.«variable» ⟨"variable", ⟨1, 1⟩⟩ ⟨"v", ⟨1, 10⟩⟩ 0, .word ⟨"a", ⟨1, 12⟩⟩ 2, .word ⟨"v", ⟨1, 14⟩⟩ 3,
    .word ⟨"!", ⟨1, 16⟩⟩ 4, .word ⟨"zz", ⟨1, 18⟩⟩ 5,
    .define ⟨":", ⟨1, 21⟩⟩ ⟨"a", ⟨1, 23⟩⟩ 6, .number (.cell 1) ⟨"1", ⟨1, 25⟩⟩ 8, .keyword .semicolon ⟨";", ⟨1, 27⟩⟩ 9,
    .define ⟨":", ⟨1, 29⟩⟩ ⟨"a", ⟨1, 31⟩⟩ 10, .number (.cell 2) ⟨"2", ⟨1, 33⟩⟩ 12,
    .keyword .semicolon ⟨";", ⟨1, 35⟩⟩ 13, .word ⟨"a", ⟨1, 37⟩⟩ 14]

/-- The call ahead stands behind the start of the main program and leads to the first definition of `a`, the last word
to the second. -/
theorem names_resolve_mixed : ∃ c : Compilation,
    compile mixed { bestEffort := true, forwardRefs := true } = .ok c.program ∧ c.items = mixedItems ∧
    (List.range 13).map c.offset = [116, 116, 128, 135, 145, 145, 150, 157, 165, 170, 177, 185, 190] ∧
    (c.CallsOnly 1 150 ∧ c.bytes 1 = [0x48, 0xC7, 0xC3, 0, 0, 0x61, 0, 0xE8, 0x16, 0, 0, 0]) ∧
    (c.Pushes 2 0x610000 ∧ c.bytes 2 = [0x48, 0xC7, 0xC0, 0, 0, 0x61, 0]) ∧
    (c.Inlines 3 .store ∧ c.bytes 3 = [0x48, 0x8B, 0x0B, 0x48, 0x89, 0x08, 0x48, 0x83, 0xC3, 8]) ∧
    (c.bytes 4 = [] ∧ c.program.warnings = [⟨⟨1, 18⟩, "zz"⟩]) ∧
    c.CallsOnly 11 170 ∧ c.bytes 11 = [0xE8, 0xEC, 0xFF, 0xFF, 0xFF] := by
  let options : Options := { bestEffort := true, forwardRefs := true }
  obtain ⟨program, h, hcode⟩ := exists_of_any (x := compile mixed options)
    (p := fun program => decide (
      (program.code.drop 116).take 12 = [0x48, 0xC7, 0xC3, 0, 0, 0x61, 0, 0xE8, 0x16, 0, 0, 0] ∧
      (program.code.drop 128).take 7 = [0x48, 0xC7, 0xC0, 0, 0, 0x61, 0] ∧
      (program.code.drop 135).take 10 = [0x48, 0x8B, 0x0B, 0x48, 0x89, 0x08, 0x48, 0x83, 0xC3, 8] ∧
      (program.code.drop 185).take 5 = [0xE8, 0xEC, 0xFF, 0xFF, 0xFF] ∧ program.warnings = [⟨⟨1, 18⟩, "zz"⟩]))
    (by decide +kernel)
  obtain ⟨tokens, htokens, hrun⟩ := exists_of_any (x := tokenize mixed)
    (p := fun tokens => decide (items tokens = mixedItems ∧
      (List.range 13).map (fun k => (Compiler.after options tokens k).offset) =
        [116, 116, 128, 135, 145, 145, 150, 157, 165, 170, 177, 185, 190]))
    (by decide +kernel)
  obtain ⟨hahead, hpush, hstore, hcall, hwarnings⟩ := of_decide_eq_true hcode
  obtain ⟨c, hoptions, rfl, htokens', hwords, -⟩ := names_resolve h
  obtain rfl := Except.ok.inj (htokens'.symm.trans htokens)
  obtain ⟨hitems, hoffsets⟩ := of_decide_eq_true hrun
  change c.items = mixedItems at hitems
  rw [← hoptions] at hoffsets
  have hoffset : ∀ k, k < 13 →
      some (c.offset k) = [116, 116, 128, 135, 145, 145, 150, 157, 165, 170, 177, 185, 190][k]? := by
    intro k hk
    rw [← hoffsets, List.getElem?_map, List.getElem?_range hk]
    rfl
  have hbytes : ∀ {k a b}, some (c.offset k) = some a → some (c.offset (k + 1)) = some b →
      c.bytes k = (c.program.code.drop a).take (b - a) := by
    intro k a b ha hb
    rw [Compilation.bytes, Option.some.inj ha, Option.some.inj hb]
  have hresolved : ∀ {k token index}, mixedItems[k]? = some (.word token index) → c.Resolved k token := by
    intro k token index hk
    exact hwords k token index (by rw [hitems, hk])
  have hreferent : ∀ {name k d}, referent? mixedItems k name = some d → IsReferent c.items k name d := by
    intro name k d hd
    exact referent?_eq_some_iff.mp (by rw [hitems, hd])
  have hnone : ∀ {name k}, referent? mixedItems k name = none → ∀ d, ¬IsReferent c.items k name d := by
    intro name k hno d href
    rw [← hitems, referent?_eq_some_iff.mpr href] at hno
    cases hno
  have hfirst : ∀ j, c.DefinedBehind 1 "a" j → 5 ≤ j := by
    rintro j ⟨hlt, colon, name, index, hj, -⟩
    rw [hitems] at hj
    rcases j with _ | _ | _ | _ | _ | j <;> first | omega | cases hj
  have hdefined : c.DefinedBehind 1 "a" 5 := ⟨by decide, _, _, _, by rw [hitems]; rfl, by decide +kernel⟩
  have hcallAhead := (hresolved (k := 1) rfl).ahead (by decide +kernel) (hnone (by decide +kernel)) (by rw [hoptions]) 5
    hdefined hfirst
  have hcell := (hresolved (k := 2) rfl).cell (by decide +kernel) 0 _ _ _ (hreferent (by decide +kernel))
    (by rw [hitems]; rfl)
  have hcallLast := (hresolved (k := 11) rfl).definition (by decide +kernel) 8 _ _ _ (hreferent (by decide +kernel))
    (by rw [hitems]; rfl)
  rw [Option.some.inj (hoffset 6 (by decide))] at hcallAhead
  rw [Option.some.inj (hoffset 9 (by decide))] at hcallLast
  have haddress : c.cellAddress 0 = 0x610000 := by
    rw [Compilation.cellAddress, hoptions, hitems]
    decide +kernel
  rw [haddress] at hcell
  exact ⟨c, h, hitems, hoffsets, ⟨hcallAhead, (hbytes (hoffset 1 (by decide)) (hoffset 2 (by decide))).trans hahead⟩,
    ⟨hcell, (hbytes (hoffset 2 (by decide)) (hoffset 3 (by decide))).trans hpush⟩,
    ⟨(hresolved (k := 3) rfl).primitive _ (by decide +kernel),
      (hbytes (hoffset 3 (by decide)) (hoffset 4 (by decide))).trans hstore⟩,
    ⟨(hbytes (hoffset 4 (by decide)) (hoffset 5 (by decide))).trans List.take_zero, hwarnings⟩, hcallLast,
    (hbytes (hoffset 11 (by decide)) (hoffset 12 (by decide))).trans hcall⟩

end ForthElf
