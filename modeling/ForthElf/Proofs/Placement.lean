import ForthElf.Proofs.Assembly

/-!
# Where instructions stand

* `Placed code offset block` — the instructions of `block` stand at `offset` of the code;
* `BranchAt bytes offset kind target` — at `offset` of the bytes stands a branch to `target`;
* `Compilation.segment k` — the instructions of item `k` in the finished program, and `Compilation.placed_segment`
  their place;
* `Compilation.decodeAll_code` — **the code of a program decodes to its instructions**.
-/

namespace ForthElf

/-! ### Blocks in code -/

/-- The instructions of `block` stand at `offset` of the code. -/
def Placed (code : List Instruction) (offset : Nat) (block : List Instruction) : Prop :=
  ∃ front back, code = front ++ block ++ back ∧ codeSize front = offset

def Branch.size (kind : Branch) : Nat :=
  kind.opcode.length + 4

/-- At `offset` of the bytes stands a branch of the given kind that leads to `target`. -/
def BranchAt (bytes : List UInt8) (offset : Nat) (kind : Branch) (target : Nat) : Prop :=
  ∃ d rest, decode (bytes.drop offset) = some (.branch kind d, rest) ∧
    (offset + kind.size : Int) + d.toInt = target

namespace Placed

variable {code a b : List Instruction} {offset : Nat}

theorem left (h : Placed code offset (a ++ b)) : Placed code offset a := by
  obtain ⟨front, back, rfl, rfl⟩ := h
  exact ⟨front, b ++ back, by simp, rfl⟩

theorem right (h : Placed code offset (a ++ b)) : Placed code (offset + codeSize a) b := by
  obtain ⟨front, back, rfl, rfl⟩ := h
  exact ⟨front ++ a, back, by simp, by simp⟩

theorem head {i : Instruction} (h : Placed code offset (i :: b)) : Placed code offset [i] :=
  left (a := [i]) h

theorem tail {i : Instruction} (h : Placed code offset (i :: b)) : Placed code (offset + i.size) b := by
  have := right (a := [i]) h
  rwa [codeSize_cons, codeSize_nil, Nat.add_zero] at this

theorem mem {i : Instruction} (h : Placed code offset [i]) : i ∈ code := by
  obtain ⟨front, back, rfl, -⟩ := h
  simp

theorem add_codeSize_le (h : Placed code offset a) : offset + codeSize a ≤ codeSize code := by
  obtain ⟨front, back, rfl, rfl⟩ := h
  simp only [codeSize_append]
  omega

theorem add_size_le {i j : Instruction} {p q : Nat} (hi : Placed code p [i]) (hj : Placed code q [j]) (hpq : p < q) :
    p + i.size ≤ q := by
  obtain ⟨front, back, rfl, rfl⟩ := hi
  obtain ⟨front', back', heq, rfl⟩ := hj
  rw [List.append_assoc, List.append_assoc, List.append_eq_append_iff] at heq
  rcases heq with ⟨more, rfl, hmore⟩ | ⟨more, rfl, -⟩
  · cases more with
    | nil => simp at hpq
    | cons i' more =>
      cases hmore
      rw [codeSize_append, codeSize_cons]
      omega
  · rw [codeSize_append] at hpq
    omega

theorem decode_drop {i : Instruction} (h : Placed code offset [i]) (hi : i.Encodable) :
    ∃ rest, decode ((assemble code).drop offset) = some (i, rest) := by
  obtain ⟨front, back, rfl, rfl⟩ := h
  refine ⟨assemble back, ?_⟩
  rw [assemble_append, assemble_append, List.append_assoc, ← length_assemble, List.drop_left, assemble_cons,
    assemble_nil, List.append_nil]
  exact decode_encode hi _

theorem eq_of_placed {i j : Instruction} (hi : Placed code offset [i]) (hj : Placed code offset [j])
    (hcode : ∀ i ∈ code, i.Encodable) : i = j := by
  obtain ⟨_, hdecode⟩ := hi.decode_drop (hcode i hi.mem)
  obtain ⟨_, hdecode'⟩ := hj.decode_drop (hcode j hj.mem)
  rw [hdecode] at hdecode'
  cases hdecode'
  rfl

theorem take_drop (h : Placed code offset a) :
    ((assemble code).drop offset).take (codeSize a) = assemble a := by
  obtain ⟨front, back, rfl, rfl⟩ := h
  rw [assemble_append, assemble_append, List.append_assoc, ← length_assemble, ← length_assemble, List.drop_left,
    List.take_left]

end Placed

/-- The places of the instructions of a block at `offset`. -/
def starts : Nat → List Instruction → List Nat
  | _, [] => []
  | offset, i :: block => offset :: starts (offset + i.size) block

theorem placed_of_mem_starts {code block : List Instruction} {offset p : Nat} (h : Placed code offset block)
    (hp : p ∈ starts offset block) : ∃ i, Placed code p [i] := by
  induction block generalizing offset with
  | nil => cases hp
  | cons i block ih =>
    rcases List.mem_cons.mp hp with rfl | hp
    · exact ⟨i, h.head⟩
    · exact ih h.tail hp

theorem encodable_branch (kind : Branch) (d : BitVec 32) : (Instruction.branch kind d).Encodable := by
  intro r hr
  cases hr

theorem branchAt_of_placed {code : List Instruction} {offset target : Nat} {kind : Branch}
    (h : Placed code offset [leading offset kind target]) (hsize : codeSize code ≤ 2 ^ 31)
    (htarget : target < 2 ^ 31) : BranchAt (assemble code) offset kind target := by
  obtain ⟨rest, hdecode⟩ := h.decode_drop (encodable_branch kind _)
  refine ⟨_, rest, hdecode, ?_⟩
  have hle := h.add_codeSize_le
  rw [codeSize_cons, codeSize_nil, size_leading] at hle
  rw [toInt_distance (by omega) htarget, Branch.size]
  omega

namespace Compilation

open Compiler

variable {c : Compilation} {k : Nat}

/-! ### The instructions of an item -/

/-- The instructions of item `k` in the finished program. -/
def segment (c : Compilation) (k : Nat) : List Instruction :=
  redirect (c.sent c.items.length) (c.offset k) (c.block k)

@[simp] theorem codeSize_segment (c : Compilation) (k : Nat) :
    codeSize (c.segment k) = codeSize (c.block k) :=
  codeSize_redirect _ _ _

theorem exists_blocks_eq {n : Nat} (hkn : k < n) : ∃ more, c.blocks n = c.blocks k ++ c.block k ++ more := by
  induction hkn with
  | refl => exact ⟨[], by rw [List.append_nil]; rfl⟩
  | @step n _ ih =>
    obtain ⟨more, hmore⟩ := ih
    exact ⟨more ++ c.block n, by rw [blocks, hmore, List.append_assoc]⟩

/-- **Every item has its place.** -/
theorem placed_segment (hk : k < c.items.length) : Placed c.instructions (c.offset k) (c.segment k) := by
  obtain ⟨more, hmore⟩ := exists_blocks_eq (c := c) hk
  refine ⟨redirect (c.sent c.items.length) 0 (c.blocks k),
    redirect (c.sent c.items.length) (c.offset (k + 1)) (more ++ c.ending), ?_, ?_⟩
  · rw [instructions, emitted, hmore, List.append_assoc, List.append_assoc, redirect_append, redirect_append,
      Nat.zero_add, codeSize_blocks (Nat.le_of_lt hk), ← c.offset_succ hk, segment, List.append_assoc]
  · rw [codeSize_redirect, codeSize_blocks (Nat.le_of_lt hk)]

theorem redirect_printNumber (c : Compilation) : redirect (c.sent c.items.length) 0 printNumber = printNumber := by
  refine redirect_eq_self fun l hl => Option.eq_none_iff_forall_ne_some.mpr fun target hsent => ?_
  obtain ⟨i, j, -, hres, hsite, -⟩ := (sent_eq_some_iff (Nat.le_refl _)).mp hsent
  obtain ⟨kind, hopens⟩ := hres.opens
  have hbounds := site_bounds_of_mem_links hl
  have hi := hopens.offset_lt
  have hstart : codeSize printNumber = c.offset 0 := codeSize_blocks (Nat.zero_le _)
  have hmono := c.offset_mono (Nat.zero_le i) (Nat.le_of_lt hopens.lt)
  omega

theorem placed_printNumber (c : Compilation) : Placed c.instructions 0 printNumber := by
  have hsplit : ∀ k, ∃ more, c.blocks k = printNumber ++ more := by
    intro k
    induction k with
    | zero => exact ⟨[], (List.append_nil _).symm⟩
    | succ k ih =>
      obtain ⟨more, hmore⟩ := ih
      exact ⟨more ++ c.block k, by rw [blocks, hmore, List.append_assoc]⟩
  obtain ⟨more, hmore⟩ := hsplit c.items.length
  refine ⟨[], redirect (c.sent c.items.length) (codeSize printNumber) (more ++ c.ending), ?_, rfl⟩
  rw [instructions, emitted, hmore, List.append_assoc, redirect_append, redirect_printNumber, Nat.zero_add,
    List.nil_append]

theorem placed_ending (c : Compilation) : Placed c.instructions (c.offset c.items.length) c.ending := by
  refine ⟨redirect (c.sent c.items.length) 0 (c.blocks c.items.length), [], ?_, ?_⟩
  · rw [instructions, emitted, redirect_append, Nat.zero_add, codeSize_blocks (Nat.le_refl _),
      redirect_sent_eq_self (Nat.le_refl _) (Nat.le_refl _), List.append_nil]
  · rw [codeSize_redirect, codeSize_blocks (Nat.le_refl _)]

/-- The branches of a program are those of the number printing routine and of its items. -/
theorem mem_links_instructions {l : Link} (hl : l ∈ links 0 c.instructions) :
    l ∈ links 0 printNumber ∨ ∃ k < c.items.length, l ∈ links (c.offset k) (c.segment k) := by
  have hblocks : ∀ n ≤ c.items.length, l ∈ links 0 (redirect (c.sent c.items.length) 0 (c.blocks n)) →
      l ∈ links 0 printNumber ∨ ∃ k < n, l ∈ links (c.offset k) (c.segment k) := by
    intro n hn hmem
    induction n with
    | zero =>
      rw [blocks, redirect_printNumber] at hmem
      exact .inl hmem
    | succ n ih =>
      rw [blocks, redirect_append, links_append, codeSize_redirect, Nat.zero_add,
        codeSize_blocks (Nat.le_of_succ_le hn)] at hmem
      rcases List.mem_append.mp hmem with hmem | hmem
      · rcases ih (Nat.le_of_succ_le hn) hmem with hmem | ⟨k, hk, hmem⟩
        · exact .inl hmem
        · exact .inr ⟨k, Nat.lt_succ_of_lt hk, hmem⟩
      · exact .inr ⟨n, Nat.lt_succ_self n, hmem⟩
  have hending : Straight c.ending := by
    unfold ending opening
    cases c.last.starting <;> cases c.last.begun.cache.state <;> exact straight_of_all rfl
  rw [instructions, emitted, redirect_append, Nat.zero_add, codeSize_blocks (Nat.le_refl _),
    redirect_sent_eq_self (Nat.le_refl _) (Nat.le_refl _), links_append, hending.links_eq, List.append_nil] at hl
  exact hblocks _ (Nat.le_refl _) hl

/-- There is an instruction in front of every item, and one behind the last. -/
theorem exists_placed_offset (hk : k ≤ c.items.length) : ∃ i, Placed c.instructions (c.offset k) [i] := by
  obtain ⟨d, hd⟩ := Nat.le.dest hk
  induction d generalizing k with
  | zero =>
    have hplaced := c.placed_ending
    rw [← hd] at hplaced
    cases h : c.ending with
    | nil => simp [ending, exitBlock] at h
    | cons i rest =>
      rw [h] at hplaced
      exact ⟨i, hplaced.head⟩
  | succ d ih =>
    have hk : k < c.items.length := by omega
    have hplaced := placed_segment hk
    have hnext := c.offset_succ hk
    rw [← codeSize_segment] at hnext
    cases h : c.segment k with
    | nil =>
      obtain ⟨i, hi⟩ := ih hk (by omega)
      rw [hnext, h] at hi
      exact ⟨i, hi⟩
    | cons i rest =>
      rw [h] at hplaced
      exact ⟨i, hplaced.head⟩

theorem codeSize_instructions (c : Compilation) :
    codeSize c.instructions = c.offset c.items.length + codeSize c.ending := by
  rw [instructions, codeSize_redirect, emitted, codeSize_append, codeSize_blocks (Nat.le_refl _)]

theorem codeSize_instructions_lt (c : Compilation) : codeSize c.instructions < 2 ^ 31 := by
  rw [codeSize_instructions]
  exact c.offset_lt (Nat.le_refl _)

/-- The bytes of item `k` in the finished program. -/
def bytes (c : Compilation) (k : Nat) : List UInt8 :=
  (c.program.code.drop (c.offset k)).take (c.offset (k + 1) - c.offset k)

theorem bytes_eq (hk : k < c.items.length) : c.bytes k = assemble (c.segment k) := by
  have hsize : c.offset (k + 1) - c.offset k = codeSize (c.segment k) := by
    rw [c.offset_succ hk, codeSize_segment]
    omega
  rw [bytes, c.code_eq, hsize, (placed_segment hk).take_drop]

/-! ### Waiting branches in the finished program -/

/-- Of the fields of a block only that of its waiting branch is sent elsewhere. -/
theorem resolves_of_sent {l : Link} {target : Nat} (hk : k < c.items.length)
    (hl : l ∈ links (c.offset k) (c.block k)) (hsent : c.sent c.items.length l.site = some target) :
    ∃ j, c.Resolves j k ∧ l.site = c.offset (k + 1) - 4 ∧ target = c.offset (j + 1) := by
  obtain ⟨i, j, -, hres, hsite, htarget⟩ := (sent_eq_some_iff (Nat.le_refl _)).mp hsent
  obtain ⟨kind, hopens⟩ := hres.opens
  have hbounds := site_bounds_of_mem_links hl
  rw [← c.offset_succ hk] at hbounds
  have hi := hopens.offset_lt
  -- A field that belongs to another item would lie in two blocks.
  rcases Nat.lt_trichotomy i k with hlt | rfl | hlt
  · have hmono : c.offset (i + 1) ≤ c.offset k := c.offset_mono hlt (Nat.le_of_lt hk)
    omega
  · exact ⟨j, hres, hsite, htarget⟩
  · have hmono : c.offset (k + 1) ≤ c.offset i := c.offset_mono hlt (Nat.le_of_lt hopens.lt)
    omega

theorem segment_eq_block (hk : k < c.items.length) (h : ∀ kind, ¬c.Opens k kind) : c.segment k = c.block k := by
  refine redirect_eq_self fun l hl => Option.eq_none_iff_forall_ne_some.mpr fun target hsent => ?_
  obtain ⟨j, hres, -⟩ := resolves_of_sent hk hl hsent
  obtain ⟨kind, hopens⟩ := hres.opens
  exact h kind hopens

theorem Opens.offset_add_codeSize {kind : Branch} (h : c.Opens k kind) {front : List Instruction}
    (hblock : c.block k = front ++ [Instruction.branch kind 0]) :
    c.offset k + codeSize front = c.offset (k + 1) - kind.size := by
  rw [c.offset_succ h.lt, hblock, codeSize_append, codeSize_cons, codeSize_nil, size_branch, Branch.size]
  omega

/-- **A waiting branch** leads to the place behind the item that resolves it. -/
theorem segment_eq_of_resolves {j : Nat} {kind : Branch} {front : List Instruction} (h : c.Opens k kind)
    (hblock : c.block k = front ++ [Instruction.branch kind 0]) (hres : c.Resolves j k) :
    c.segment k = front ++ [leading (c.offset (k + 1) - kind.size) kind (c.offset (j + 1))] := by
  have hplace := h.offset_add_codeSize hblock
  have hlast : c.offset k + codeSize front + kind.opcode.length = c.offset (k + 1) - 4 := by
    rw [c.offset_succ h.lt, hblock, codeSize_append, codeSize_cons, codeSize_nil, size_branch]
    omega
  have hfront : redirect (c.sent c.items.length) (c.offset k) front = front := by
    refine redirect_eq_self fun l hl => Option.eq_none_iff_forall_ne_some.mpr fun target hsent => ?_
    have hmem : l ∈ links (c.offset k) (c.block k) := by
      rw [hblock, links_append]
      exact List.mem_append_left _ hl
    obtain ⟨-, -, hsite, -⟩ := resolves_of_sent h.lt hmem hsent
    have := site_bounds_of_mem_links hl
    omega
  have hsent : c.sent c.items.length (c.offset (k + 1) - 4) = some (c.offset (j + 1)) :=
    (sent_eq_some_iff (Nat.le_refl _)).mpr ⟨k, j, hres.lt_length, hres, rfl, rfl⟩
  rw [segment, hblock, redirect_append, hfront, redirect, redirect, redirectOne, hlast, hsent, hplace]

theorem Opens.placed {j : Nat} {kind : Branch} (h : c.Opens k kind) (hres : c.Resolves j k) :
    Placed c.instructions (c.offset (k + 1) - kind.size)
      [leading (c.offset (k + 1) - kind.size) kind (c.offset (j + 1))] := by
  obtain ⟨front, hblock, -⟩ := h.exists_block_eq
  have hplaced := placed_segment h.lt
  rw [segment_eq_of_resolves h hblock hres] at hplaced
  rw [← h.offset_add_codeSize hblock] at hplaced ⊢
  exact hplaced.right

theorem placed_of_block_eq {front back : List Instruction} {i : Instruction} (hk : k < c.items.length)
    (h : ∀ kind, ¬c.Opens k kind) (hblock : c.block k = front ++ i :: back) :
    Placed c.instructions (c.offset k + codeSize front) [i] := by
  have hplaced := placed_segment hk
  rw [segment_eq_block hk h, hblock] at hplaced
  exact hplaced.right.head

theorem branchAt_code {offset target : Nat} {kind : Branch}
    (h : Placed c.instructions offset [leading offset kind target]) (htarget : target < 2 ^ 31) :
    BranchAt c.program.code offset kind target := by
  rw [c.code_eq]
  exact branchAt_of_placed h (Nat.le_of_lt c.codeSize_instructions_lt) htarget

end Compilation

/-! ### Encodable instructions -/

theorem encodable_redirect (choose : Nat → Option Nat) (offset : Nat) {block : List Instruction}
    (h : ∀ i ∈ block, i.Encodable) : ∀ i ∈ redirect choose offset block, i.Encodable := by
  induction block generalizing offset with
  | nil => exact h
  | cons i block ih =>
    intro i' hi'
    rcases List.mem_cons.mp hi' with rfl | hi'
    · unfold redirectOne
      split
      · split
        · exact encodable_branch _ _
        · exact encodable_branch _ _
      · exact h i List.mem_cons_self
    · exact ih (offset + i.size) (fun q hq => h q (List.mem_cons_of_mem i hq)) i' hi'

theorem encodable_recipe (p : Primitive) (printNumber offset : Nat) (state : CacheState) :
    ∀ i ∈ p.recipe.code printNumber offset state, i.Encodable := by
  cases p <;> cases state <;> exact of_decide_eq_true rfl

namespace Compiler

theorem encodable_keywordCode (s : Compiler) (keyword : Keyword) :
    ∀ i ∈ s.keywordCode keyword, i.Encodable := by
  unfold keywordCode
  cases keyword
  case exit =>
    dsimp only
    unfold dropReturnCells
    cases s.cache.state <;> split <;> exact of_decide_eq_true rfl
  all_goals cases s.cache.state <;> exact of_decide_eq_true rfl

theorem encodable_referenceCode (s : Compiler) (reference : Reference) :
    ∀ i ∈ s.referenceCode reference, i.Encodable := by
  unfold referenceCode
  cases reference with
  | primitive p => exact encodable_recipe p _ _ _
  | defined meaning => cases meaning <;> cases s.cache.state <;> exact of_decide_eq_true rfl
  | later => cases s.cache.state <;> exact of_decide_eq_true rfl
  | nothing => exact of_decide_eq_true rfl

theorem encodable_itemCode (s : Compiler) (item : Item) : ∀ i ∈ s.itemCode item, i.Encodable := by
  unfold itemCode
  cases item with
  | define colon name index =>
    cases s.entry.isSome <;> cases s.cache.state <;> exact of_decide_eq_true rfl
  | «variable» word name index => exact of_decide_eq_true rfl
  | keyword keyword token index => exact s.encodable_keywordCode keyword
  | number literal token index => cases literal <;> cases s.cache.state <;> exact of_decide_eq_true rfl
  | word token index =>
    dsimp only
    cases s.resolve token index with
    | none => exact of_decide_eq_true rfl
    | some reference => exact s.encodable_referenceCode reference

theorem encodable_opening (s : Compiler) : ∀ i ∈ s.opening, i.Encodable := by
  unfold opening
  cases s.starting <;> exact of_decide_eq_true rfl

theorem encodable_block (s : Compiler) (item : Item) : ∀ i ∈ s.block item, i.Encodable := by
  refine List.forall_mem_append.mpr ⟨?_, encodable_itemCode _ item⟩
  unfold lead
  cases s.startsCode item with
  | true => exact s.encodable_opening
  | false => exact of_decide_eq_true rfl

end Compiler

namespace Compilation

theorem encodable_blocks (c : Compilation) (k : Nat) : ∀ i ∈ c.blocks k, i.Encodable := by
  induction k with
  | zero => exact of_decide_eq_true rfl
  | succ k ih =>
    refine List.forall_mem_append.mpr ⟨ih, ?_⟩
    unfold block
    cases c.items[k]? with
    | none => exact of_decide_eq_true rfl
    | some item => exact Compiler.encodable_block _ item

theorem encodable_ending (c : Compilation) : ∀ i ∈ c.ending, i.Encodable := by
  unfold ending
  refine List.forall_mem_append.mpr ⟨List.forall_mem_append.mpr ⟨c.last.encodable_opening, ?_⟩, ?_⟩
  · cases c.last.begun.cache.state <;> exact of_decide_eq_true rfl
  · exact of_decide_eq_true rfl

theorem encodable_instructions (c : Compilation) : ∀ i ∈ c.instructions, i.Encodable :=
  encodable_redirect _ 0 (List.forall_mem_append.mpr ⟨c.encodable_blocks _, c.encodable_ending⟩)

/-- **The code of a program decodes to its instructions.** -/
theorem decodeAll_code (c : Compilation) : decodeAll c.program.code = c.instructions.map Instruction.piece := by
  rw [c.code_eq]
  exact decodeAll_assemble c.encodable_instructions

end Compilation

end ForthElf
