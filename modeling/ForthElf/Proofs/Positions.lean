import ForthElf.Proofs.Bodies
import ForthElf.Proofs.Interpreter

/-!
# In front of an item

What the compiler knows in front of each item, as far as a run that gets there depends on it.

* `loopsAt items k` — the counted loops that are open in front of item `k`, which are those of the compiler by
  `Compilation.openLoops_eq`;
* `Compilation.starting_succ`, `Compilation.starting_behind` — where the main program or a definition is under way;
* `Compilation.state_behind` — the top cell is in memory behind every word of a construct;
* `Compilation.placed_branching` — **a branch ahead leads behind the word that closes or replaces it**.
-/

namespace ForthElf

/-! ### Brackets around brackets -/

section Brackets

variable {items : List Item} {i j k : Nat}

theorem brackets_succ_of_role (h : roleAt items i = .opens ∨ roleAt items i = .turns) :
    ∃ outer, brackets items (i + 1) = i :: outer := by
  rw [brackets_succ]
  rcases h with h | h <;> rw [h] <;> exact ⟨_, rfl⟩

theorem exists_brackets_eq (h : i ∈ brackets items k) :
    ∃ inner, brackets items k = inner ++ brackets items (i + 1) := by
  induction k with
  | zero => cases h
  | succ k ih =>
    by_cases hik : i = k
    · subst hik
      exact ⟨[], rfl⟩
    obtain ⟨inner, hinner⟩ := ih (mem_brackets_of_succ h hik)
    have hclosed : opener? items k ≠ some i := fun ho =>
      not_mem_brackets_of_opener? ho (Nat.lt_succ_self k) h
    obtain ⟨outer, houter⟩ := brackets_succ_of_role (roleAt_of_mem_brackets h)
    -- A bracket that is taken away is an inner one.
    have htail : (brackets items k).head? ≠ some i →
        (brackets items k).tail = inner.tail ++ brackets items (i + 1) := by
      intro hhead
      rw [hinner] at hhead ⊢
      cases inner with
      | nil =>
        rw [houter] at hhead
        exact absurd rfl hhead
      | cons b inner => rfl
    rw [brackets_succ]
    unfold opener? at hclosed
    cases hrole : roleAt items k <;> simp only [hrole] at hclosed <;> simp only [Role.nest]
    · exact ⟨k :: inner, by rw [hinner]; rfl⟩
    · exact ⟨k :: inner.tail, by rw [htail hclosed]; rfl⟩
    · exact ⟨inner.tail, htail hclosed⟩
    · exact ⟨inner, hinner⟩

/-- Where a bracket is closed, the same is open as where it was opened. -/
theorem brackets_eq_of_opener? (h : opener? items j = some i) : brackets items j = brackets items (i + 1) := by
  have hmem := mem_brackets_of_opener? h
  obtain ⟨inner, hinner⟩ := exists_brackets_eq hmem
  obtain ⟨outer, houter⟩ := brackets_succ_of_role (roleAt_of_mem_brackets hmem)
  cases inner with
  | nil => exact hinner
  | cons b inner =>
    have hhead : (brackets items j).head? = some i := by
      unfold opener? at h
      split at h <;> first | exact h | cases h
    have hpair := pairwise_brackets items j
    rw [hinner, List.cons_append] at hhead hpair
    cases hhead
    refine absurd ((List.pairwise_cons.mp hpair).1 i ?_) (Nat.lt_irrefl i)
    rw [houter]
    exact List.mem_append_right _ List.mem_cons_self

theorem opener?_of_closer? (h : closer? items i = some j) : opener? items j = some i := by
  have htest := List.find?_some h
  exact beq_iff_eq.mp htest

end Brackets

/-! ### Open loops -/

def Item.opensLoop : Item → Bool
  | .keyword .«do» _ _ => true
  | _ => false

/-- The counted loops that are open in front of item `k`. -/
def loopsAt (items : List Item) (k : Nat) : Nat :=
  (brackets items k).countP fun i => (items[i]?).any Item.opensLoop

/-- By how many loops an item goes in. -/
def Item.depth : Item → Int
  | .keyword .«do» _ _ => 1
  | .keyword .loop _ _ | .keyword .plusLoop _ _ => -1
  | _ => 0

theorem loopsAt_of_opener? {items : List Item} {i j : Nat} (h : opener? items j = some i) :
    loopsAt items j = loopsAt items (i + 1) := by
  rw [loopsAt, loopsAt, brackets_eq_of_opener? h]

namespace Compilation

open Compiler

variable {c : Compilation} {k : Nat} {item : Item} {keyword : Keyword} {token : Token} {index : Nat}

theorem exists_closesItem (h : c.items[k]? = some (.keyword keyword token index))
    (hrole : keyword.role = .turns ∨ keyword.role = .closes) :
    ∃ b item, opener? c.items k = some b ∧ c.items[b]? = some item ∧ closesItem keyword item := by
  have hopener : ∃ b, opener? c.items k = some b := by
    have hhead : ∃ b, (brackets c.items k).head? = some b := by
      have ht := c.tracks (Nat.le_of_lt (List.getElem?_eq_some_iff.mp h).1)
      by_cases hsemi : keyword = .semicolon
      · subst hsemi
        obtain ⟨hcurrent, hcontrol⟩ : (c.state k).current.isSome ∧ (c.state k).control = [] := by
          simpa [Admits, AdmitsKeyword] using (c.compiled h).admits
        obtain ⟨d, hd⟩ := Option.isSome_iff_exists.mp hcurrent
        rw [hcontrol, hd] at ht
        obtain ⟨b, -, -, -, hbs, -⟩ := ht.of_body
        exact ⟨b, by rw [hbs]; rfl⟩
      · obtain ⟨construct, hconstruct⟩ := exists_innermost? h hrole hsemi
        obtain ⟨b, ks, -, -, hbs, -⟩ := ht.of_innermost? hconstruct
        exact ⟨b, by rw [hbs]; rfl⟩
    rw [opener?, roleAt_of_getElem? h, Item.role]
    rcases hrole with hrole | hrole <;> rw [hrole] <;> exact hhead
  obtain ⟨b, hb⟩ := hopener
  obtain ⟨keyword', token', index', item, hk, hitem, hcloses⟩ := closesItem_of_opener? hb
  rw [h] at hk
  cases hk
  exact ⟨b, item, hb, hitem, hcloses⟩

theorem loopsAt_succ (h : c.items[k]? = some item) :
    (loopsAt c.items (k + 1) : Int) = loopsAt c.items k + item.depth := by
  have hself : (c.items[k]?).any Item.opensLoop = item.opensLoop := by
    rw [h]
    rfl
  cases item with
  | define colon name index =>
    rw [loopsAt, brackets_succ, roleAt_of_getElem? h, Item.role, Role.nest, List.countP_cons, hself]
    rfl
  | «variable» word name index | number literal token index | word token index =>
    rw [loopsAt, brackets_succ, roleAt_of_getElem? h]
    exact (Int.add_zero _).symm
  | keyword keyword token index =>
    by_cases hrole : keyword.role = .turns ∨ keyword.role = .closes
    · obtain ⟨b, item, hb, hitem, hcloses⟩ := exists_closesItem h hrole
      obtain ⟨outer, houter⟩ : ∃ outer, brackets c.items k = b :: outer := by
        rw [brackets_eq_of_opener? hb]
        exact brackets_succ_of_role (roleAt_of_mem_brackets (mem_brackets_of_opener? hb))
      have hbracket : (c.items[b]?).any Item.opensLoop = item.opensLoop := by
        rw [hitem]
        rfl
      rw [loopsAt, loopsAt, brackets_succ, roleAt_of_getElem? h, houter, List.countP_cons, hbracket, Item.role]
      cases item with
      | keyword opening token' index' =>
        cases keyword <;> simp [Keyword.role] at hrole <;> cases opening <;> simp [closesItem] at hcloses <;>
          simp only [Keyword.role, Role.nest, List.tail_cons, List.countP_cons, hself, Item.opensLoop, Item.depth,
            Bool.false_eq_true, if_false, if_true] <;> omega
      | define colon name index' =>
        cases keyword <;> simp [closesItem] at hcloses
        simp [Keyword.role, Role.nest, Item.opensLoop, Item.depth]
      | _ => cases keyword <;> simp [closesItem] at hcloses
    · rw [loopsAt, brackets_succ, roleAt_of_getElem? h, Item.role, loopsAt]
      cases keyword <;> simp [Keyword.role] at hrole <;>
        simp [Keyword.role, Role.nest, hself, Item.opensLoop, Item.depth]

theorem loopsAt_of_depth (h : c.items[k]? = some item) (hdepth : item.depth = 0) :
    loopsAt c.items (k + 1) = loopsAt c.items k := by
  have hsucc := loopsAt_succ h
  rw [hdepth] at hsucc
  omega

/-- **The compiler counts the open loops.** -/
theorem openLoops_eq (hk : k ≤ c.items.length) : (c.state k).control.openLoops = loopsAt c.items k := by
  have ht := c.tracks hk
  rw [loopsAt]
  generalize (c.state k).current = current at ht
  generalize (c.state k).control = control at ht ⊢
  generalize brackets c.items k = bs at ht ⊢
  induction ht with
  | main => rfl
  | body h =>
    rw [List.countP_singleton, h]
    rfl
  | frame hframe _ ih =>
    rw [ControlStack.openLoops_cons, List.countP_cons, ih]
    cases hframe with
    | «if» h | «else» h | «begin» h | «while» h _ | «do» h =>
      rw [h]
      rfl

/-! ### Where the program is under way -/

theorem starting_eq_false_iff {s : Compiler} : s.starting = false ↔ s.entry.isSome ∨ s.current.isSome := by
  rw [starting, Bool.and_eq_false_iff, Option.isNone_eq_false_iff, Option.isNone_eq_false_iff, or_comm]

/-- Where the program is under way, an item has nothing but its own instructions. -/
theorem lead_eq_nil {s : Compiler} (hlive : s.starting = false) (item : Item) : s.lead item = [] := by
  rw [Compiler.lead, opening, hlive]
  exact ite_self _

theorem state_ready {s : Compiler} (hlive : s.starting = false) (item : Item) :
    (s.ready item).cache.state = s.cache.state := by
  have hmet : (s.met item.token).starting = false := hlive
  rw [ready, begun, hmet]
  split <;> rfl

/-- Once the main program or a definition is under way, it stays so up to a `;`. -/
theorem starting_succ (h : c.items[k]? = some item) (hsemi : ∀ token index, item ≠ .keyword .semicolon token index)
    (hready : (c.state k).starting = false ∨ (c.state k).startsCode item) : (c.state (k + 1)).starting = false := by
  have hstep := c.compiled h
  rw [starting_eq_false_iff] at hready ⊢
  rw [hstep.entry, hstep.current]
  rcases hready with (hentry | hcurrent) | hstarts
  · rw [entry_ready_of_isSome hentry]
    exact .inl hentry
  · refine .inr ?_
    cases item with
    | define colon name index => rfl
    | keyword keyword token index =>
      cases keyword <;> first | exact absurd rfl (hsemi token index) | simpa [currentAfter] using hcurrent
    | _ => simpa [currentAfter] using hcurrent
  · rw [currentAfter_of_startsCode hstarts]
    exact entry_or_current_of_startsCode hstarts

theorem starting_behind (h : c.items[k]? = some (.keyword keyword token index)) (hrole : keyword.role ≠ .plain)
    (hsemi : keyword ≠ .semicolon) : (c.state (k + 1)).starting = false := by
  refine starting_succ h (fun _ _ heq => hsemi (by cases heq; rfl)) ?_
  by_cases hcloses : keyword.role = .turns ∨ keyword.role = .closes
  · obtain ⟨construct, hconstruct⟩ := exists_innermost? h hcloses hsemi
    rw [starting_eq_false_iff]
    rcases entry_or_current_or_control (Nat.le_of_lt (List.getElem?_eq_some_iff.mp h).1) with hlive | hlive | hnil
    · exact .inl (.inl hlive)
    · exact .inl (.inr hlive)
    · simp [innermost?, hnil] at hconstruct
  · refine .inr ?_
    cases keyword <;> simp [Keyword.role] at hrole hcloses <;> rfl

theorem starting_body (h : c.IsDefinition k) : (c.state (k + 1)).starting = false := by
  obtain ⟨colon, name, index, hitem⟩ := h
  rw [starting_eq_false_iff, (c.compiled hitem).current]
  exact .inr rfl

/-! ### The place of the top cell -/

/-- **The top cell is in memory** behind every word that belongs to a construct or a definition. -/
theorem state_behind (h : c.items[k]? = some item) (hrole : item.role ≠ .plain) :
    (c.state (k + 1)).cache.state = .spilled := by
  rw [(c.compiled h).state]
  cases item with
  | define colon name index => rfl
  | keyword keyword token index =>
    by_cases helse : keyword = .«else»
    · subst helse
      obtain ⟨construct, hconstruct⟩ := exists_innermost? h (.inl rfl) (by simp)
      have ht := c.tracks (Nat.le_of_lt (List.getElem?_eq_some_iff.mp h).1)
      obtain ⟨b, ks, frame, rest, -, hcontrol, -, hframe, -⟩ := ht.of_innermost? hconstruct
      rw [stateAfter, mergeState_ready, mergeState, hcontrol]
      cases hframe <;> rfl
    · cases keyword <;> first | rfl | exact absurd rfl hrole | exact absurd rfl helse
  | _ => exact absurd rfl hrole

/-! ### The instructions of an item -/

theorem start_eq (hlive : (c.state k).starting = false) : c.start k = c.offset k := by
  have hlead : c.lead k = [] := by
    unfold lead
    cases c.items[k]? with
    | none => rfl
    | some item => exact lead_eq_nil hlive item
  rw [start, hlead]
  rfl

theorem topPlace_of_starting (h : c.items[k]? = some item) (hlive : (c.state k).starting = false) :
    c.topPlace k = (c.state k).cache.state := by
  rw [topPlace_eq h, state_ready hlive]

theorem placed_lead (hk : k < c.items.length) : Placed c.instructions (c.offset k) (c.lead k) := by
  have h := List.getElem?_eq_getElem hk
  have hlead : redirect (c.sent c.items.length) (c.offset k) (c.lead k) = c.lead k :=
    redirect_eq_self fun l hl => by
      rw [(c.straight_lead k).links_eq] at hl
      cases hl
  have hplaced := placed_segment hk
  rw [segment, c.block_eq h, Compiler.block, ← lead_eq h, redirect_append, hlead] at hplaced
  exact hplaced.left

/-- **The branch ahead** of an item, which leads behind the word that closes or replaces it. -/
theorem placed_branching {kind : Branch} {front : List Instruction} {j : Nat} (h : c.items[k]? = some item)
    (hopens : c.Opens k kind) (hcode : ((c.state k).ready item).itemCode item = front ++ [Instruction.branch kind 0])
    (hj : opener? c.items j = some k) :
    Placed c.instructions (c.start k) (branching (c.start k) front kind (c.offset (j + 1))) ∧
      c.start k + codeSize (branching (c.start k) front kind (c.offset (j + 1))) = c.offset (k + 1) := by
  have hblock : c.block k = c.lead k ++ front ++ [Instruction.branch kind 0] := by
    rw [c.block_eq h, Compiler.block, lead_eq h, hcode, List.append_assoc]
  have hsize := hopens.offset_add_codeSize hblock
  have hplaced := placed_segment hopens.lt
  rw [segment_eq_of_resolves hopens hblock (.closing hj hopens), List.append_assoc] at hplaced
  have hoffset := c.offset_succ hopens.lt
  rw [hblock] at hoffset
  simp only [codeSize_append, codeSize_cons, codeSize_nil, size_branch] at hoffset hsize
  refine ⟨?_, ?_⟩
  · have hright := hplaced.right
    rw [← hsize, ← Nat.add_assoc] at hright
    exact hright
  · rw [branching, codeSize_append, codeSize_cons, codeSize_nil, size_leading, start]
    omega

theorem startsCode_of_lookup? {word : Primitive} (s : Compiler) (h : Primitive.lookup? token.text = some word) :
    s.startsCode (.word token index) = true := by
  rw [startsCode, resolve, h]
  rfl

/-! ### How many loops are open -/

theorem depth_le_codeSize (s : Compiler) (item : Item) : 9 * item.depth.natAbs ≤ codeSize (s.itemCode item) := by
  have henter : codeSize enterLoop = 9 := by decide
  have hone : codeSize stepByOne = 13 := by decide
  have htop : 9 ≤ codeSize stepByTop := by decide
  cases item with
  | keyword keyword token index =>
    cases keyword
    case «do» =>
      simp only [itemCode, keywordCode, codeSize_append, Item.depth, Int.natAbs_one]
      omega
    case loop =>
      simp only [itemCode, keywordCode, branching, codeSize_append, Item.depth, Int.reduceNeg, Int.natAbs_neg,
        Int.natAbs_one]
      omega
    case plusLoop =>
      simp only [itemCode, keywordCode, plusLoopEnd, codeSize_append, Item.depth, Int.reduceNeg, Int.natAbs_neg,
        Int.natAbs_one]
      omega
    all_goals exact Nat.zero_le _
  | _ => exact Nat.zero_le _

/-- Every loop takes code, both where it is opened and where it is closed. -/
theorem loopsAt_le {i n : Nat} (hin : i ≤ n) (hn : n ≤ c.items.length) :
    9 * loopsAt c.items n + c.offset i ≤ 9 * loopsAt c.items i + c.offset n ∧
      9 * loopsAt c.items i + c.offset i ≤ 9 * loopsAt c.items n + c.offset n := by
  induction hin with
  | refl => exact ⟨Nat.le_refl _, Nat.le_refl _⟩
  | @step n _ ih =>
    have ih := ih (Nat.le_of_succ_le hn)
    have h := List.getElem?_eq_getElem hn
    have hloops := loopsAt_succ h
    have hsize := depth_le_codeSize ((c.state n).ready c.items[n]) c.items[n]
    have hoffset : c.offset (n + 1) = c.offset n + _ := c.offset_succ hn
    rw [c.block_eq h, Compiler.block, codeSize_append] at hoffset
    rw [Nat.succ_eq_add_one]
    omega

theorem loopsAt_lt (hk : k ≤ c.items.length) : 16 * loopsAt c.items k < 2 ^ 31 := by
  obtain ⟨hbefore, -⟩ := loopsAt_le (c := c) (Nat.zero_le k) hk
  obtain ⟨-, hbehind⟩ := loopsAt_le hk (Nat.le_refl _)
  have hstart : loopsAt c.items 0 = 0 := rfl
  have hend : loopsAt c.items c.items.length = 0 := by
    rw [loopsAt, c.brackets_last]
    rfl
  have hlt := offset_lt_of_le (c := c) (Nat.le_refl _)
  omega

/-! ### Landing places -/

/-- A jump may land behind item `j`, inside of `n` loops. -/
structure Landing (c : Compilation) (j n : Nat) : Prop where
  lt : j < c.items.length
  live : (c.state (j + 1)).starting = false
  place : (c.state (j + 1)).cache.state = .spilled
  loops : loopsAt c.items (j + 1) = n

theorem landing_of_keyword (h : c.items[k]? = some (.keyword keyword token index)) (hrole : keyword.role ≠ .plain)
    (hsemi : keyword ≠ .semicolon) : c.Landing k (loopsAt c.items (k + 1)) :=
  ⟨(List.getElem?_eq_some_iff.mp h).1, starting_behind h hrole hsemi, state_behind h hrole, rfl⟩

theorem landing_of_depth (h : c.items[k]? = some (.keyword keyword token index)) (hrole : keyword.role ≠ .plain)
    (hsemi : keyword ≠ .semicolon) (hdepth : (Item.keyword keyword token index).depth = 0) :
    c.Landing k (loopsAt c.items k) := by
  rw [← loopsAt_of_depth h hdepth]
  exact landing_of_keyword h hrole hsemi

/-- Behind the word that closes or replaces an `if`, an `else` or a `while`. -/
theorem landing_of_closes {j : Nat} (h : c.items[k]? = some (.keyword keyword token index))
    (hopens : keyword = .«if» ∨ keyword = .«else» ∨ keyword = .«while») (ho : opener? c.items j = some k) :
    c.Landing j (loopsAt c.items k) := by
  obtain ⟨closing, token', index', item, hj, hitem, hcloses⟩ := closesItem_of_opener? ho
  rw [h] at hitem
  cases hitem
  have hdepth : (Item.keyword keyword token index).depth = 0 := by rcases hopens with rfl | rfl | rfl <;> rfl
  obtain ⟨hrole, hsemi, hclosing⟩ : closing.role ≠ .plain ∧ closing ≠ .semicolon ∧
      (Item.keyword closing token' index').depth = 0 := by
    rcases hopens with rfl | rfl | rfl <;> cases closing <;> simp [closesItem] at hcloses <;>
      simp [Keyword.role, Item.depth]
  rw [← loopsAt_of_depth h hdepth, ← loopsAt_of_opener? ho]
  exact landing_of_depth hj hrole hsemi hclosing

/-- Behind the word that starts a loop, for the word that ends it. -/
theorem landing_of_ends {b : Nat} {kind : Branch} {back : List Instruction}
    (h : c.items[k]? = some (.keyword keyword token index)) (hb : backBranch? keyword = some (kind, back))
    (hrepeat : keyword ≠ .«repeat») (ho : opener? c.items k = some b) :
    (c.state k).backTarget = c.offset (b + 1) ∧ c.Landing b (loopsAt c.items k) := by
  obtain ⟨b', hreturns, htarget⟩ := exists_returns h hb
  cases hreturns with
  | direct ho' hbegin =>
    rw [ho] at ho'
    cases ho'
    refine ⟨htarget, ?_⟩
    rw [loopsAt_of_opener? ho]
    rcases hbegin with ⟨_, _, hbegin⟩ | ⟨_, _, hdo⟩
    · exact landing_of_keyword hbegin (by simp [Keyword.role]) (by simp)
    · exact landing_of_keyword hdo (by simp [Keyword.role]) (by simp)
  | past ho' hw _ _ =>
    -- Only `repeat` closes a `while`.
    obtain ⟨_, _, hcloses⟩ := closesItem_of_isKeyword h ho' hw
    cases keyword <;> simp [closesItem] at hcloses hrepeat

theorem backTarget_lt {kind : Branch} {back : List Instruction} (h : c.items[k]? = some (.keyword keyword token index))
    (hb : backBranch? keyword = some (kind, back)) : (c.state k).backTarget < 2 ^ 31 := by
  obtain ⟨b, hreturns, htarget⟩ := exists_returns h hb
  have hk := (List.getElem?_eq_some_iff.mp h).1
  rw [htarget]
  exact offset_lt_of_le (Nat.lt_trans hreturns.lt hk)

theorem landing_of_repeat {w b : Nat} (h : c.items[k]? = some (.keyword .«repeat» token index))
    (how : opener? c.items k = some w) (hob : opener? c.items w = some b) :
    (c.state k).backTarget = c.offset (b + 1) ∧ c.Landing b (loopsAt c.items k) := by
  obtain ⟨b', hreturns, htarget⟩ := exists_returns h rfl
  cases hreturns with
  | direct ho' hbegin =>
    rcases hbegin with hbegin | hbegin <;> obtain ⟨_, _, hcloses⟩ := closesItem_of_isKeyword h ho' hbegin <;>
      simp [closesItem] at hcloses
  | past ho' hw hob' hbegin =>
    rw [how] at ho'
    cases ho'
    rw [hob] at hob'
    cases hob'
    obtain ⟨_, _, hw⟩ := hw
    obtain ⟨_, _, hbegin⟩ := hbegin
    refine ⟨htarget, ?_⟩
    rw [loopsAt_of_opener? how, loopsAt_of_depth hw rfl, loopsAt_of_opener? hob]
    exact landing_of_keyword hbegin (by simp [Keyword.role]) (by simp)

theorem loopsAt_of_isDefinition (h : c.IsDefinition k) : loopsAt c.items k = 0 := by
  rw [loopsAt, brackets_of_isDefinition h]
  rfl

theorem landing_of_isDefinition (h : c.IsDefinition k) : c.Landing k 0 := by
  have hloops := loopsAt_of_isDefinition h
  refine ⟨h.lt, starting_body h, ?_, ?_⟩ <;> obtain ⟨colon, name, index, hitem⟩ := h
  · exact state_behind hitem (by simp [Item.role])
  · rw [loopsAt_of_depth hitem rfl, hloops]

theorem IsBody.landing {h e : Nat} (hb : c.IsBody h e) (hentry : (c.state h).entry.isSome) : c.Landing e 0 := by
  obtain ⟨token, index, he⟩ := hb.isKeyword
  have hloops : loopsAt c.items (e + 1) = 0 := by
    rw [loopsAt_of_depth he rfl, loopsAt_of_opener? hb.closed, (landing_of_isDefinition hb.definition).loops]
  have hsome := entry_isSome_mono (Nat.le_succ_of_le (Nat.le_of_lt hb.lt)) hb.lt_length hentry
  exact ⟨hb.lt_length, starting_eq_false_iff.mpr (.inl hsome), state_behind he (by simp [Item.role, Keyword.role]),
    hloops⟩

/-! ### Definitions -/

theorem isDefinition_of_opensDefinition (h : opensDefinition c.items k = true) : c.IsDefinition k := by
  unfold opensDefinition at h
  cases hk : c.items[k]? with
  | none => simp [hk] at h
  | some item =>
    rw [hk] at h
    cases item with
    | define colon name index => exact ⟨colon, name, index, hk⟩
    | _ => cases h

/-- The open definition is that of the innermost bracket that is one. -/
theorem enclosing?_of_current {d : OpenDefinition} (hk : k ≤ c.items.length) (hd : (c.state k).current = some d) :
    ∃ h, enclosing? c.items k = some h ∧ c.IsDefinition h ∧ d.offset = c.offset (h + 1) := by
  have ht := c.tracks hk
  rw [hd] at ht
  unfold enclosing?
  generalize hcurrent : some d = current at ht
  generalize brackets c.items k = bs at ht ⊢
  generalize (c.state k).control = control at ht
  induction ht with
  | main => cases hcurrent
  | @body h _ _ _ hitem =>
    cases hcurrent
    refine ⟨h, ?_, ⟨_, _, _, hitem⟩, rfl⟩
    rw [List.find?_cons, opensDefinition, hitem]
    rfl
  | frame hframe _ ih =>
    obtain ⟨h, hfind, hh⟩ := ih hcurrent
    refine ⟨h, ?_, hh⟩
    rw [List.find?_cons, Bool.eq_false_iff.mpr fun hopens =>
      hframe.not_isDefinition (isDefinition_of_opensDefinition hopens)]
    exact hfind

/-! ### What words refer to -/

theorem lookup?_of_resolve {s : Compiler} {p : Primitive} (h : s.resolve token index = some (.primitive p)) :
    Primitive.lookup? token.text = some p := by
  rw [resolve] at h
  split at h
  · next hlookup =>
    cases h
    exact hlookup
  split at h
  · cases h
  split at h
  · cases h
  split at h <;> cases h

theorem resolve_ne_nothing {s : Compiler} (h : s.options.bestEffort = false) :
    s.resolve token index ≠ some .nothing := by
  intro hnothing
  rw [resolve, h] at hnothing
  split at hnothing
  · cases hnothing
  split at hnothing
  · cases hnothing
  split at hnothing <;> cases hnothing

/-! ### The start of the main program -/

theorem entry_succ_of_current (hk : k < c.items.length) (hcurrent : (c.state k).current.isSome) :
    (c.state (k + 1)).entry = (c.state k).entry := by
  have h := List.getElem?_eq_getElem hk
  generalize c.items[k] = item at h
  rw [(c.compiled h).entry]
  have hstarting : ((c.state k).met item.token).starting = false := starting_eq_false_iff.mpr (.inr hcurrent)
  rw [ready, begun, hstarting]
  split <;> rfl

theorem IsBody.starting {h e : Nat} (hb : c.IsBody h e) (hstarting : (c.state h).starting = true) :
    (c.state (e + 1)).starting = true := by
  have hentry : ∀ m, h < m → m ≤ e + 1 → (c.state m).entry = none := by
    intro m hm hme
    induction hm with
    | refl =>
      obtain ⟨colon, name, index, hitem⟩ := hb.definition
      rw [Nat.succ_eq_add_one, (c.compiled hitem).entry, entry_ready_define]
      simp only [Compiler.starting, Bool.and_eq_true, Option.isNone_iff_eq_none] at hstarting
      exact hstarting.2
    | @step m hm ih =>
      have hle : m ≤ e := Nat.le_of_succ_le_succ hme
      have hcurrent := Option.ne_none_iff_isSome.mp (hb.current_ne_none hm hle)
      rw [Nat.succ_eq_add_one, entry_succ_of_current (Nat.lt_of_le_of_lt hle hb.lt_length) hcurrent]
      exact ih (Nat.le_of_succ_le hme)
  obtain ⟨token, index, he⟩ := hb.isKeyword
  have hcurrent : (c.state (e + 1)).current = none := by
    rw [(c.compiled he).current]
    rfl
  rw [Compiler.starting, hcurrent, hentry (e + 1) (Nat.lt_succ_of_lt hb.lt) (Nat.le_refl _)]
  rfl

theorem entryOffset_of_entry {entry : Nat} (hk : k ≤ c.items.length) (h : (c.state k).entry = some entry) :
    c.program.entryOffset = entry := by
  have hstays : ∀ n, k ≤ n → n ≤ c.items.length → (c.state n).entry = some entry := by
    intro n hkn hn
    induction hkn with
    | refl => exact h
    | @step n _ ih =>
      have ih := ih (Nat.le_of_succ_le hn)
      rw [Nat.succ_eq_add_one, (c.compiled (List.getElem?_eq_getElem hn)).entry,
        entry_ready_of_isSome (by rw [ih]; rfl), ih]
  have hlast : c.last.entry = some entry := hstays _ hk (Nat.le_refl _)
  have hstarting : c.last.starting = false := starting_eq_false_iff.mpr (.inl (by rw [hlast]; rfl))
  rw [c.built.2.1, begun, hstarting]
  simp [hlast]

/-- **The main program starts** with the first item that is code. -/
theorem entryOffset_eq (h : c.items[k]? = some item) (hstarting : (c.state k).starting = true)
    (hstarts : (c.state k).startsCode item = true) :
    c.program.entryOffset = c.offset k ∧ c.lead k = entryBlock c.options.stackTop ∧ c.topPlace k = .spilled := by
  have hk := (List.getElem?_eq_some_iff.mp h).1
  have hmet : ((c.state k).met item.token).starting = true := hstarting
  refine ⟨entryOffset_of_entry hk ?_, ?_, ?_⟩
  · rw [(c.compiled h).entry, ready, if_pos hstarts, begun, if_pos hmet]
    rfl
  · rw [lead_eq h, Compiler.lead, if_pos hstarts, opening, if_pos hstarting, c.options_state (Nat.le_of_lt hk)]
  · rw [topPlace_eq h, ready, if_pos hstarts, begun, if_pos hmet]
    rfl

theorem entryOffset_of_last (hstarting : c.last.starting = true) :
    c.program.entryOffset = c.offset c.items.length ∧
      c.ending = entryBlock c.options.stackTop ++ exitBlock 0 := by
  have hoptions : c.last.options = c.options := c.options_state (Nat.le_refl _)
  constructor
  · rw [c.built.2.1, begun, if_pos hstarting]
    rfl
  · rw [ending, opening, begun, if_pos hstarting, if_pos hstarting, hoptions]
    rfl

theorem control_of_starting (hk : k ≤ c.items.length) (hstarting : (c.state k).starting = true) :
    (c.state k).control = [] := by
  simp only [Compiler.starting, Bool.and_eq_true, Option.isNone_iff_eq_none] at hstarting
  rcases entry_or_current_or_control hk with hsome | hsome | hnil
  · simp [hstarting.2] at hsome
  · simp [hstarting.1] at hsome
  · exact hnil

/-- In front of the main program there are only definitions and variables. -/
theorem starts_or_defines (h : c.items[k]? = some item) (hstarting : (c.state k).starting = true)
    (hbest : c.options.bestEffort = false) :
    (c.state k).startsCode item = true ∨ c.IsDefinition k ∨ item.isVariable = true := by
  have hk := Nat.le_of_lt (List.getElem?_eq_some_iff.mp h).1
  have hcontrol := control_of_starting hk hstarting
  simp only [Compiler.starting, Bool.and_eq_true, Option.isNone_iff_eq_none] at hstarting
  have hcurrent := hstarting.1
  have hadmits := (c.compiled h).admits
  cases item with
  | define colon name index => exact .inr (.inl ⟨colon, name, index, h⟩)
  | «variable» word name index => exact .inr (.inr rfl)
  | number literal token index => exact .inl rfl
  | word token index =>
    refine .inl ?_
    rw [← c.options_state hk] at hbest
    exact bne_iff_ne.mpr (resolve_ne_nothing hbest)
  | keyword keyword token index =>
    refine .inl ?_
    simp only [Admits, AdmitsKeyword, innermost?_ready, current_ready, control_ready, unlooped_ready] at hadmits
    cases keyword <;> simp [innermost?, hcontrol, hcurrent] at hadmits <;> rfl

/-! ### Words without a trace on the return stack -/

/-- Structured words leave nothing of their own on the return stack. -/
theorem cellsToDrop_eq (hstructured : ∀ item ∈ c.items, item.isStructured) (hk : k ≤ c.items.length) :
    (c.state k).cellsToDrop = 2 * loopsAt c.items k := by
  have hcounts : (c.state k).returnCells = 0 ∧ (c.state k).unlooped = 0 := by
    refine c.invariant (P := fun _ s => s.returnCells = 0 ∧ s.unlooped = 0) ?_ (fun k item h ih => ?_) hk
    · rw [state_zero, announced_eq]
      exact ⟨rfl, rfl⟩
    · have hword := hstructured item (List.mem_of_getElem? h)
      have hstep := (c.compiled h).counts
      obtain ⟨hreturn, hunlooped⟩ : (c.state (k + 1)).returnCells = (((c.state k).ready item).countsAfter item).1 ∧
          (c.state (k + 1)).unlooped = (((c.state k).ready item).countsAfter item).2.1 :=
        ⟨congrArg (·.1) hstep, congrArg (·.2.1) hstep⟩
      rw [hreturn, hunlooped]
      cases item with
      | keyword keyword token index =>
        cases keyword
        case unloop => cases hword
        all_goals simp [countsAfter, ih.1, ih.2]
      | word token index =>
        simp only [countsAfter, resolve_ready, returnCells_ready, unlooped_ready, ih.1, ih.2]
        split
        · next p hp =>
          refine ⟨?_, rfl⟩
          simp only [Item.isStructured, lookup?_of_resolve hp] at hword
          cases p <;> first | rfl | cases hword
        · exact ⟨rfl, rfl⟩
        · exact ⟨rfl, rfl⟩
      | _ => simp [countsAfter, ih.1, ih.2]
  rw [cellsToDrop, hcounts.1, hcounts.2, openLoops_eq hk]
  rfl

end Compilation

end ForthElf
