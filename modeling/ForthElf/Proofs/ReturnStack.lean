import ForthElf.Proofs.ReturnCells

/-!
# The return stack of a definition

* `Walks code start p r` — control can go from `start` to `p` and moves `rsp` up by `r` bytes on the way;
* `Compilation.Height h e p r` — `rsp` is at `p` as much higher than at the label as the compiler has counted;
* `Height.step` — **what one instruction preserves**, `height_of_walks` — **what a whole way through a body preserves**;
* `Compilation.Level h e` — on every way through a body `rsp` is back where it was at each `ret` of fewer than 2^28
  cells and behind each counted loop, and never above that;
* `return_stack_level` — **this holds of every definition with paired cells in a program that compiles**.
-/

namespace ForthElf

open Register

/-- Control can go from `start` to `p` without a return, and moves `rsp` up by `r` bytes on the way.  Calls are passed
over. -/
inductive Walks (code : List Instruction) (start : Nat) : Nat → Int → Prop
  | start : Walks code start start 0
  | step {p q : Nat} {r : Int} {i : Instruction} (h : Walks code start p r) (hi : Placed code p [i])
    (hflow : Flows code p q) : Walks code start q (r + i.rise)

namespace Compilation

open Compiler

variable {c : Compilation} {h e k : Nat} {item : Item}

/-! ### Heights -/

theorem IsBody.starting_eq_false (hb : c.IsBody h e) (hk : h < k) (hke : k ≤ e) : (c.state k).starting = false :=
  starting_eq_false_iff.mpr (.inr (Option.isSome_iff_ne_none.mpr (hb.current_ne_none hk hke)))

theorem IsBody.exists_segment_eq (hb : c.IsBody h e) (hk : h < k) (hke : k ≤ e) (hitem : c.items[k]? = some item) :
    ∃ front, Quiet front ∧ c.segment k = front ++ item.moving (c.depth k) := by
  have hlead := lead_eq_nil (hb.starting_eq_false hk hke) item
  have hcells : ((c.state k).ready item).cellsToDrop = c.depth k := by simp [cellsToDrop, depth]
  obtain ⟨front, hquiet, hcode⟩ := ((c.state k).ready item).exists_itemCode_eq item
  rw [segment, c.block_eq hitem, Compiler.block, hlead, List.nil_append, hcode, hcells, redirect_append]
  refine ⟨_, hquiet.redirect _ _, congrArg _ (redirect_eq_self fun l hl => ?_)⟩
  rw [(straight_moving item _).links_eq] at hl
  cases hl

/-- Control is at `p` in the body from item `h` to item `e`, and `rsp` is `r` bytes higher than at the label. -/
inductive Height (c : Compilation) (h e : Nat) : Nat → Int → Prop
  | mk {k : Nat} {i : Instruction} {front back : List Instruction} (hk : h < k) (hke : k ≤ e)
    (hsegment : c.segment k = front ++ i :: back) :
    Height c h e (c.offset k + codeSize front) (climb front - 8 * c.depth k)

theorem segment_eq_nil (hk : k < c.items.length) (hoffset : c.offset (k + 1) = c.offset k) : c.segment k = [] := by
  have hsize : codeSize (c.segment k) = 0 := by
    rw [c.offset_succ hk] at hoffset
    rw [codeSize_segment]
    omega
  have hplaced := placed_segment hk
  cases hsegment : c.segment k with
  | nil => rfl
  | cons i back =>
    rw [hsegment] at hplaced hsize
    have hpos := Instruction.size_pos (c.encodable_instructions i hplaced.head.mem)
    rw [codeSize_cons] at hsize
    omega

namespace IsBody

variable (hb : c.IsBody h e) (hp : Paired c.items h e)
include hb hp

theorem depth_behind (hk : h < k) (hke : k < e) (hitem : c.items[k]? = some item) (hexit : item.keyword? ≠ some .exit) :
    climb (c.segment k) - 8 * c.depth k = -8 * (c.depth (k + 1) : Int) := by
  obtain ⟨front, hquiet, hsegment⟩ := hb.exists_segment_eq hk (Nat.le_of_lt hke) hitem
  have hsucc := hb.depth_succ hp hk hke hitem hexit
  rw [hsegment, climb_append, hquiet.climb_eq]
  omega

omit hp in
/-- An item whose code does not end with a return is in front of the `;`. -/
theorem lt_of_segment_ne (hk : h < k) (hke : k ≤ e) (hitem : c.items[k]? = some item)
    (hret : ∀ front, c.segment k ≠ front ++ [Instruction.ret]) : k < e ∧ item.keyword? ≠ some .exit := by
  obtain ⟨front, -, hsegment⟩ := hb.exists_segment_eq hk hke hitem
  have hkeyword : ¬(item.keyword? = some .exit ∨ item.keyword? = some .semicolon) := fun hkeyword => by
    obtain ⟨front', hmoving⟩ := exists_moving_eq hkeyword (c.depth k)
    rw [hmoving, ← List.append_assoc] at hsegment
    exact hret _ hsegment
  refine ⟨Nat.lt_of_le_of_ne hke ?_, fun hexit => hkeyword (.inl hexit)⟩
  rintro rfl
  obtain ⟨token, index, hsemi⟩ := hb.isKeyword
  rw [hsemi] at hitem
  cases hitem
  exact hkeyword (.inr rfl)

theorem depth_of_segment_eq_nil (hk : h < k) (hke : k ≤ e) (hnil : c.segment k = []) :
    k < e ∧ c.depth (k + 1) = c.depth k := by
  have hlength := Nat.lt_of_le_of_lt hke hb.lt_length
  have hitem := List.getElem?_eq_getElem hlength
  generalize c.items[k] = item at hitem
  obtain ⟨hlt, hexit⟩ := hb.lt_of_segment_ne hk hke hitem (by simp [hnil])
  have hbehind := hb.depth_behind hp hk hlt hitem hexit
  rw [hnil, climb_nil] at hbehind
  exact ⟨hlt, by omega⟩

theorem depth_of_offset_eq {n : Nat} (hk : h < k) (hkn : k ≤ n) (hne : n ≤ e) (hoffset : c.offset n = c.offset k) :
    c.depth n = c.depth k := by
  have hlength := hb.lt_length
  induction n, hkn using Nat.le_induction with
  | base => rfl
  | succ n hkn ih =>
    have hle : c.offset k ≤ c.offset n := c.offset_mono hkn (by omega)
    have hle' : c.offset n ≤ c.offset (n + 1) := c.offset_mono (Nat.le_succ n) (by omega)
    have hnil := segment_eq_nil (c := c) (k := n) (by omega) (by omega)
    rw [(hb.depth_of_segment_eq_nil hp (by omega) (by omega) hnil).2]
    exact ih (by omega) (by omega)

/-- In front of an item control is at the height that the count says. -/
theorem height_offset {k : Nat} (hk : h < k) (hke : k ≤ e) : c.Height h e (c.offset k) (-8 * c.depth k) := by
  cases hsegment : c.segment k with
  | cons i back =>
    have hheight : c.Height h e (c.offset k + codeSize []) (climb [] - 8 * c.depth k) := .mk hk hke hsegment
    simpa using hheight
  | nil =>
    -- Items without code are passed over.
    obtain ⟨hlt, hdepth⟩ := hb.depth_of_segment_eq_nil hp hk hke hsegment
    have hoffset : c.offset (k + 1) = c.offset k := by
      rw [c.offset_succ (Nat.lt_trans hlt hb.lt_length), ← codeSize_segment, hsegment]
      rfl
    rw [← hoffset, ← hdepth]
    exact height_offset (Nat.lt_succ_of_lt hk) hlt
termination_by e - k

theorem height_within {front back : List Instruction} (hk : h < k) (hke : k ≤ e) (hitem : c.items[k]? = some item)
    (hsegment : c.segment k = front ++ back) (hback : back = [] → k < e ∧ item.keyword? ≠ some .exit) :
    c.Height h e (c.offset k + codeSize front) (climb front - 8 * c.depth k) := by
  cases back with
  | cons i back => exact .mk hk hke hsegment
  | nil =>
    obtain ⟨hlt, hexit⟩ := hback rfl
    rw [List.append_nil] at hsegment
    have hoffset : c.offset (k + 1) = c.offset k + codeSize front := by
      rw [c.offset_succ (Nat.lt_trans hlt hb.lt_length), ← codeSize_segment, hsegment]
    have hbehind := hb.depth_behind hp hk hlt hitem hexit
    rw [hsegment] at hbehind
    rw [← hoffset, hbehind]
    exact hb.height_offset hp (Nat.lt_succ_of_lt hk) hlt

omit hp in
/-- An instruction of an item stands in its quiet part or at its end. -/
theorem cases_of_segment_eq {i : Instruction} {front back : List Instruction} (hk : h < k) (hke : k ≤ e)
    (hitem : c.items[k]? = some item) (hsegment : c.segment k = front ++ i :: back) :
    i.quiet ∧ climb front = 0 ∨
      ∃ inner, item.moving (c.depth k) = inner ++ i :: back ∧ climb front = climb inner := by
  obtain ⟨quiet, hquiet, hsplit⟩ := hb.exists_segment_eq hk hke hitem
  rw [hsegment] at hsplit
  rcases List.append_eq_append_iff.mp hsplit with ⟨rest, hfront, hrest⟩ | ⟨inner, hfront, hmoving⟩
  · cases rest with
    | nil =>
      rw [List.append_nil] at hfront
      exact .inr ⟨[], hrest.symm, by rw [← hfront, hquiet.climb_eq, climb_nil]⟩
    | cons i' rest =>
      rw [List.cons_append, List.cons.injEq] at hrest
      obtain ⟨rfl, -⟩ := hrest
      rw [hfront] at hquiet
      exact .inl ⟨hquiet i (by simp), hquiet.left.climb_eq⟩
  · refine .inr ⟨inner, hmoving, ?_⟩
    rw [hfront, climb_append, hquiet.climb_eq, Int.zero_add]

omit hp in
theorem climb_of_branch {kind : Branch} {d : BitVec 32} {front back : List Instruction} (hk : h < k) (hke : k ≤ e)
    (hsegment : c.segment k = front ++ .branch kind d :: back) : climb front = 0 := by
  have hlength := Nat.lt_of_le_of_lt hke hb.lt_length
  have hitem := List.getElem?_eq_getElem hlength
  generalize c.items[k] = item at hitem
  rcases hb.cases_of_segment_eq hk hke hitem hsegment with ⟨-, hclimb⟩ | ⟨inner, hmoving, -⟩
  · exact hclimb
  · exact absurd (by rw [hmoving]; simp) (straight_moving item (c.depth k) kind d)

/-- The targets of the jumps inside `?dup` and `+loop` are at the height in front of these words. -/
theorem height_inside {front back : List Instruction} (hk : h < k) (hke : k ≤ e)
    (hsegment : c.segment k = front ++ back)
    (hitem : (∃ token index, c.items[k]? = some (.word token index) ∧
        (c.state k).resolve token index = some (.primitive .questionDup)) ∨
      c.IsKeyword k .plusLoop ∧ back = [dropLoop]) :
    c.Height h e (c.offset k + codeSize front) (-8 * c.depth k) := by
  rcases hitem with ⟨token, index, hitem, hresolve⟩ | ⟨⟨token, index, hitem⟩, rfl⟩
  · -- All of `?dup` is quiet.
    have hmoving : ∀ cells, (Item.word token index).moving cells = [] := fun cells => by
      rw [Item.moving, lookup?_of_resolve hresolve]
      rfl
    obtain ⟨quiet, hquiet, hsplit⟩ := hb.exists_segment_eq hk hke hitem
    rw [hmoving, List.append_nil, hsegment] at hsplit
    rw [← hsplit] at hquiet
    have hheight := hb.height_within hp hk hke hitem hsegment fun _ => by
      refine ⟨Nat.lt_of_le_of_ne hke ?_, by simp [Item.keyword?]⟩
      rintro rfl
      obtain ⟨token', index', hsemi⟩ := hb.isKeyword
      rw [hsemi] at hitem
      cases hitem
    rwa [hquiet.left.climb_eq, Int.zero_sub, ← Int.neg_mul] at hheight
  · -- A `+loop` jumps to its end.
    have hclimb : climb front = 0 := by
      rcases hb.cases_of_segment_eq hk hke hitem hsegment with ⟨-, hclimb⟩ | ⟨inner, hmoving, hclimb⟩
      · exact hclimb
      · have hend : [] ++ [dropLoop] = inner ++ [dropLoop] := hmoving
        rw [hclimb, ← (List.append_inj' hend rfl).1, climb_nil]
    have hheight := Height.mk hk hke hsegment
    rwa [hclimb, Int.zero_sub, ← Int.neg_mul] at hheight

/-- **A jump** keeps the height. -/
theorem height_of_jump {l : Link} {q : Nat} {front back : List Instruction} (hk : h < k) (hke : k ≤ e)
    (hsegment : c.segment k = front ++ .branch l.kind l.disp :: back)
    (hsite : l.site = c.offset k + codeSize front + l.kind.opcode.length) (hkind : l.kind ≠ .call)
    (htarget : l.target = q) : c.Height h e q (climb front - 8 * c.depth k) := by
  have hl : l ∈ links (c.offset k) (c.segment k) := mem_links.mpr ⟨front, back, hsegment, hsite⟩
  rw [hb.climb_of_branch hk hke hsegment, Int.zero_sub, ← Int.neg_mul]
  cases reach_of_mem_links (Nat.lt_of_le_of_lt hke hb.lt_length) hl with
  | routine hcall _ => exact absurd hcall hkind
  | definition hcall _ _ => exact absurd hcall hkind
  | @construct j _ hj ht =>
    obtain ⟨hhj, hje⟩ := hb.le_lt_of_joined hk hke hj
    have hq : q = c.offset (j + 1) := by omega
    rw [hq, ← hb.depth_of_joined hp hk hke hl hj]
    exact hb.height_offset hp (Nat.lt_succ_of_le hhj) hje
  | @within front' back' _ hsegment' hitem ht =>
    have hq : q = c.offset k + codeSize front' := by omega
    rw [hq]
    exact hb.height_inside hp hk hke hsegment' hitem

end IsBody

variable {p q : Nat} {r : Int} {i : Instruction}

theorem Height.exists_segment_eq (hb : c.IsBody h e) (hr : c.Height h e p r) (hi : Placed c.instructions p [i]) :
    ∃ k item front back, h < k ∧ k ≤ e ∧ c.items[k]? = some item ∧ c.segment k = front ++ i :: back ∧
      p = c.offset k + codeSize front ∧ r = climb front - 8 * c.depth k := by
  obtain @⟨k, i', front, back, hk, hke, hsegment⟩ := hr
  have hlength := Nat.lt_of_le_of_lt hke hb.lt_length
  have hplaced := placed_segment hlength
  rw [hsegment] at hplaced
  obtain rfl := hi.eq_of_placed hplaced.right.head c.encodable_instructions
  exact ⟨k, _, front, back, hk, hke, List.getElem?_eq_getElem hlength, hsegment, rfl, rfl⟩

/-- **What one instruction preserves.** -/
theorem Height.step (hb : c.IsBody h e) (hp : Paired c.items h e) (hr : c.Height h e p r)
    (hi : Placed c.instructions p [i]) (hflow : Flows c.instructions p q) : c.Height h e q (r + i.rise) := by
  obtain ⟨k, item, front, back, hk, hke, hitem, hsegment, rfl, rfl⟩ := hr.exists_segment_eq hb hi
  have hclimb : climb front - 8 * c.depth k + i.rise = climb (front ++ [i]) - 8 * c.depth k := by
    rw [climb_append, climb_cons, climb_nil]
    omega
  cases hflow with
  | @next i' hi' hret hjump =>
    obtain rfl := hi.eq_of_placed hi' c.encodable_instructions
    rw [hclimb]
    have hsplit : c.segment k = (front ++ [i]) ++ back := by rw [hsegment, List.append_assoc]; rfl
    have hoffset : c.offset k + codeSize front + i.size = c.offset k + codeSize (front ++ [i]) := by
      rw [codeSize_append, codeSize_cons, codeSize_nil]
      omega
    rw [hoffset]
    refine hb.height_within hp hk hke hitem hsplit fun hback => ?_
    refine hb.lt_of_segment_ne hk hke hitem fun front' heq => hret ?_
    rw [hsplit, hback, List.append_nil] at heq
    exact List.singleton_inj.mp (List.append_inj' heq rfl).2
  | @jump _ kind d hi' hkind ht =>
    obtain rfl := hi.eq_of_placed hi' c.encodable_instructions
    rw [show (Instruction.branch kind d).rise = 0 from rfl, Int.add_zero]
    refine hb.height_of_jump hp (l := ⟨kind, c.offset k + codeSize front + kind.opcode.length, d⟩) hk hke hsegment rfl
      hkind ?_
    rw [Branch.size] at ht
    simp only [Link.target]
    omega

/-- **What a whole way through a body preserves.** -/
theorem height_of_walks (hb : c.IsBody h e) (hp : Paired c.items h e)
    (hwalk : Walks c.instructions (c.offset (h + 1)) p r) : c.Height h e p r := by
  induction hwalk with
  | start =>
    have hstart := hb.height_offset hp (Nat.lt_succ_self h) hb.lt
    rwa [Nat.succ_eq_add_one, hb.depth_start hp] at hstart
  | step _ hi hflow ih => exact ih.step hb hp hi hflow

/-! ### Along a way through a body -/

namespace Height

theorem inBody (hb : c.IsBody h e) (hr : c.Height h e p r) : c.InBody h e p := by
  obtain @⟨k, i, front, back, hk, hke, hsegment⟩ := hr
  have hlength := Nat.lt_of_le_of_lt hke hb.lt_length
  have hplaced := placed_segment hlength
  rw [hsegment] at hplaced
  have hpos := Instruction.size_pos (c.encodable_instructions i hplaced.right.head.mem)
  have hoffset := c.offset_succ hlength
  rw [← codeSize_segment, hsegment, codeSize_append, codeSize_cons] at hoffset
  exact (hb.inBody_iff hlength (Nat.le_add_right _ _) (by omega)).mpr ⟨hk, hke⟩

theorem le_zero (hb : c.IsBody h e) (hr : c.Height h e p r) : r ≤ 0 := by
  obtain @⟨k, i, front, back, hk, hke, hsegment⟩ := hr
  have hlength := Nat.lt_of_le_of_lt hke hb.lt_length
  have hitem := List.getElem?_eq_getElem hlength
  generalize c.items[k] = item at hitem
  rcases hb.cases_of_segment_eq hk hke hitem hsegment with ⟨-, hclimb⟩ | ⟨inner, hmoving, hclimb⟩
  · omega
  · have hle := climb_le_of_moving_eq hmoving
    omega

/-- **Returns** are at the height of the label exactly if the `exit` drops all cells. -/
theorem eq_zero_iff_of_ret (hb : c.IsBody h e) (hp : Paired c.items h e) (hr : c.Height h e p r)
    (hret : Placed c.instructions p [.ret]) : r = 0 ↔ c.Fits p := by
  obtain ⟨k, item, front, back, hk, hke, hitem, hsegment, rfl, rfl⟩ := hr.exists_segment_eq hb hret
  have hlength := Nat.lt_of_le_of_lt hke hb.lt_length
  have hend := c.offset_succ hlength
  rw [← codeSize_segment, hsegment, codeSize_append, codeSize_cons, show Instruction.ret.size = 1 from rfl] at hend
  have hunique : ∀ {k'}, c.IsKeyword k' .exit → c.offset k' ≤ c.offset k + codeSize front →
      c.offset k + codeSize front < c.offset (k' + 1) → k' = k := by
    rintro k' ⟨token, index, hitem'⟩ hle hlt
    exact c.eq_of_offset_le (List.getElem?_eq_some_iff.mp hitem').1 hlength hle hlt (Nat.le_add_right _ _) (by omega)
  rcases hb.cases_of_segment_eq hk hke hitem hsegment with ⟨hquiet, -⟩ | ⟨inner, hmoving, hclimb⟩
  · cases hquiet
  rcases cases_of_moving_eq hmoving with ⟨hshifts, -⟩ | ⟨-, ⟨hexit, rfl⟩ | ⟨hsemi, rfl⟩⟩
  · cases hshifts
  · have hkeyword := keywordAt_eq_some.mp ((keywordAt_of_getElem? hitem).trans hexit)
    rw [hclimb, Int.sub_eq_zero, climb_dropReturnCells_eq_iff]
    refine ⟨fun hdepth k' hk' hle hlt => ?_, fun hfits => hfits k hkeyword (by omega) (by omega)⟩
    rwa [hunique hk' hle hlt]
  · have hlast : k = e := Nat.le_antisymm hke <| Nat.le_of_not_lt fun hlt =>
      Item.keyword?_of_isBoundary (hb.isBoundary_eq hk hlt hitem) hsemi
    have hzero : climb front - 8 * (c.depth k : Int) = 0 := by
      rw [hclimb, hlast, hb.depth_end hp]
      rfl
    refine ⟨fun _ k' hk' hle hlt => ?_, fun _ => hzero⟩
    -- The `;` is no `exit`.
    obtain ⟨token, index, hitem'⟩ := hk'
    obtain rfl := hunique ⟨token, index, hitem'⟩ hle hlt
    rw [hitem] at hitem'
    cases hitem'
    cases hsemi

/-- The height in front of an item depends on nothing else. -/
theorem eq_of_offset (hb : c.IsBody h e) (hp : Paired c.items h e) (hk : h < k) (hke : k ≤ e)
    (hr : c.Height h e (c.offset k) r) : r = -8 * c.depth k := by
  obtain ⟨i, hi⟩ := exists_placed_offset (c := c) (Nat.le_trans hke (Nat.le_of_lt hb.lt_length))
  obtain ⟨k', item, front, back, hk', hke', hitem, hsegment, hoffset, rfl⟩ := hr.exists_segment_eq hb hi
  have hlength := Nat.lt_of_le_of_lt hke' hb.lt_length
  have hpos := Instruction.size_pos (c.encodable_instructions i hi.mem)
  have hend := c.offset_succ hlength
  rw [← codeSize_segment, hsegment, codeSize_append, codeSize_cons] at hend
  have hle : k ≤ k' := Nat.le_of_not_lt fun hlt => by
    have hmono : c.offset (k' + 1) ≤ c.offset k := c.offset_mono hlt (Nat.le_trans hke (Nat.le_of_lt hb.lt_length))
    omega
  have hmono : c.offset k ≤ c.offset k' := c.offset_mono hle (Nat.le_of_lt hlength)
  have hfront : front = [] := by
    cases front with
    | nil => rfl
    | cons j front =>
      have hplaced := placed_segment hlength
      rw [hsegment, List.cons_append] at hplaced
      have hpos := Instruction.size_pos (c.encodable_instructions j hplaced.head.mem)
      rw [codeSize_cons] at hoffset
      omega
  rw [hfront, climb_nil, hb.depth_of_offset_eq hp hk hle hke' (by omega)]
  omega

/-- **The instructions of a body** move `rsp` by their `rise`. -/
theorem rsp_execute (hb : c.IsBody h e) (hr : c.Height h e p r) (hi : Placed c.instructions p [i])
    (hcall : ∀ d, i ≠ .branch .call d) (hret : i ≠ .ret) (kernel : Kernel) {m m' : Machine}
    (hexecute : m.execute kernel i = .running m') : m'.reg rsp = m.reg rsp + BitVec.ofInt 64 i.rise := by
  obtain ⟨k, item, front, back, hk, hke, hitem, hsegment, -, -⟩ := hr.exists_segment_eq hb hi
  rcases hb.cases_of_segment_eq hk hke hitem hsegment with ⟨hquiet, -⟩ | ⟨inner, hmoving, -⟩
  · rw [Machine.rsp_of_quiet hquiet hcall hexecute, Instruction.rise_of_quiet hquiet]
    exact (BitVec.add_zero _).symm
  · rcases cases_of_moving_eq hmoving with ⟨hshifts, -⟩ | ⟨rfl, -⟩
    · exact Machine.rsp_of_shifts hshifts hexecute
    · exact absurd rfl hret

end Height

/-! ### The return stack of a body -/

/-- On every way through a body `rsp` is never above its value at the label.  It has this value at each `ret`, that of
an `exit` of 2^28 cells or more apart, and behind each counted loop it has the value in front of it. -/
structure Level (c : Compilation) (h e : Nat) : Prop where
  inside : ∀ p r, Walks c.instructions (c.offset (h + 1)) p r → c.InBody h e p
  /-- The heights are those of a run: a call apart, each instruction moves `rsp` by its `rise`. -/
  moves : ∀ p r i, Walks c.instructions (c.offset (h + 1)) p r → Placed c.instructions p [i] →
    (∀ d, i ≠ .branch .call d) → i ≠ .ret → ∀ (kernel : Kernel) (m m' : Machine), m.execute kernel i = .running m' →
      m'.reg rsp = m.reg rsp + BitVec.ofInt 64 i.rise
  bounded : ∀ p r, Walks c.instructions (c.offset (h + 1)) p r → r ≤ 0
  returns : ∀ p r, Walks c.instructions (c.offset (h + 1)) p r → Placed c.instructions p [.ret] → c.Fits p → r = 0
  /-- No `exit` drops 2^28 cells unless there are more than 256 MiB of code. -/
  fits : c.program.code.length < 2 ^ 28 → ∀ p, c.Fits p
  /-- Behind a `loop` or `+loop` at `k` the height is that in front of its `do` at `d`. -/
  loops : ∀ d k, opener? c.items k = some d → c.IsKeyword k .loop ∨ c.IsKeyword k .plusLoop → h < d → k < e →
    ∀ r r', Walks c.instructions (c.offset (h + 1)) (c.offset d) r →
      Walks c.instructions (c.offset (h + 1)) (c.offset (k + 1)) r' → r' = r

theorem level (hb : c.IsBody h e) (hp : Paired c.items h e) : c.Level h e where
  inside := fun p r hwalk => (height_of_walks hb hp hwalk).inBody hb
  moves := fun p r i hwalk hi hcall hret kernel m m' hexecute =>
    (height_of_walks hb hp hwalk).rsp_execute hb hi hcall hret kernel hexecute
  bounded := fun p r hwalk => (height_of_walks hb hp hwalk).le_zero hb
  returns := fun p r hwalk hret hfits => ((height_of_walks hb hp hwalk).eq_zero_iff_of_ret hb hp hret).mpr hfits
  fits := fits_of_length
  loops := by
    intro d k ho hloop hd hke r r' hwalk hwalk'
    have hdk := opener?_lt ho
    rw [(height_of_walks hb hp hwalk).eq_of_offset hb hp hd (by omega),
      (height_of_walks hb hp hwalk').eq_of_offset hb hp (by omega) hke, hb.depth_of_loop hp ho hloop hd hke]

end Compilation

end ForthElf
