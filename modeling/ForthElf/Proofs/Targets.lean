import ForthElf.Proofs.Resolution

/-!
# Where branches lead

* `Compilation.Reach k l` — where the branch `l` of item `k` leads in the finished program: the number printing routine,
  a definition, an item of the same construct, or a place of its own block;
* `Compilation.reach_of_mem_links` — every branch leads to one of these;
* `branches_nested` — **every branch of a construct lands on the item that the nesting of the program says**, and every
  branch of the code on the first byte of an instruction.
-/

namespace ForthElf

open Register

namespace Compilation

open Compiler

variable (c : Compilation)

def IsKeyword (k : Nat) (keyword : Keyword) : Prop :=
  ∃ token index, c.items[k]? = some (.keyword keyword token index)

def IsDefinition (k : Nat) : Prop :=
  ∃ colon name index, c.items[k]? = some (.define colon name index)

variable {c} {k : Nat} {keyword : Keyword} {token : Token} {index : Nat}

theorem IsDefinition.lt (h : c.IsDefinition k) : k < c.items.length := by
  obtain ⟨colon, name, index, h⟩ := h
  exact (List.getElem?_eq_some_iff.mp h).1

/-! ### Branches back -/

/-- The branch by which a keyword goes back to the start of its loop, and what follows it. -/
def backBranch? : Keyword → Option (Branch × List Instruction)
  | .«until» => some (.jumpIf .equal, [])
  | .again | .«repeat» => some (.jump, [])
  | .loop => some (.jumpIf .less, [dropLoop])
  | .plusLoop => some (.jumpIf .notEqual, [dropLoop])
  | _ => none

theorem block_eq_of_keyword (h : c.items[k]? = some (.keyword keyword token index))
    (hstarts : (c.state k).startsCode (.keyword keyword token index) = false) :
    c.block k = ((c.state k).ready (.keyword keyword token index)).keywordCode keyword ∧
      ((c.state k).ready (.keyword keyword token index)).offset = c.offset k := by
  have hlead : (c.state k).lead (.keyword keyword token index) = [] := by rw [Compiler.lead, hstarts]; rfl
  constructor
  · rw [c.block_eq h, Compiler.block, hlead, itemCode, List.nil_append]
  · rw [offset_ready, hlead]
    rfl

theorem not_opens_of_keyword (h : c.items[k]? = some (.keyword keyword token index))
    (hrole : keyword ≠ .«if» ∧ keyword ≠ .«else» ∧ keyword ≠ .«while») (kind : Branch) : ¬c.Opens k kind := by
  intro hopens
  cases hopens with
  | «if» h' | «else» h' | «while» h' =>
    rw [h] at h'
    cases h'
    simp at hrole
  | define h' _ =>
    rw [h] at h'
    cases h'
  | call h' =>
    obtain ⟨_, h', -⟩ := h'
    rw [h] at h'
    cases h'

/-- The block of a keyword that ends a loop: only `+loop` has another branch in front of the one that goes back. -/
theorem exists_block_eq_of_backBranch? {kind : Branch} {back : List Instruction}
    (h : c.items[k]? = some (.keyword keyword token index)) (hb : backBranch? keyword = some (kind, back)) :
    ∃ front, c.block k = front ++ leading (c.offset k + codeSize front) kind (c.state k).backTarget :: back ∧
      (Straight front ∨ keyword = .plusLoop ∧ ∃ filled, Straight filled ∧
        front = filled ++ plusLoopTest (c.offset k + codeSize filled)) := by
  have hstarts : (c.state k).startsCode (.keyword keyword token index) = false := by
    cases keyword <;> first | rfl | cases hb
  obtain ⟨hblock, hoffset⟩ := block_eq_of_keyword h hstarts
  rw [hblock]
  cases keyword <;> simp only [backBranch?, reduceCtorEq, Option.some.injEq, Prod.mk.injEq] at hb <;>
    obtain ⟨rfl, rfl⟩ := hb <;> rw [keywordCode, hoffset, backTarget_ready]
  case plusLoop =>
    have hstraight := CacheState.straight_filling ((c.state k).ready (.keyword .plusLoop token index)).cache.state
    generalize CacheState.filling _ = filled at hstraight
    refine ⟨filled ++ plusLoopTest (c.offset k + codeSize filled), ?_, .inr ⟨rfl, filled, hstraight, rfl⟩⟩
    rw [plusLoopEnd_eq, branching, codeSize_append, ← Nat.add_assoc]
    simp only [List.append_assoc, List.singleton_append]
  case loop =>
    refine ⟨_, by rw [branching, List.append_assoc]; rfl, .inl ?_⟩
    exact (CacheState.straight_spilling _).append (straight_of_all rfl)
  case «until» => exact ⟨_, rfl, .inl (straight_testing _)⟩
  all_goals exact ⟨_, rfl, .inl (CacheState.straight_spilling _)⟩

/-- The start of the loop that item `k` ends. -/
inductive Returns (c : Compilation) (k : Nat) : Nat → Prop
  | direct {b : Nat} (ho : opener? c.items k = some b)
    (hb : c.IsKeyword b .«begin» ∨ c.IsKeyword b .«do») : Returns c k b
  | past {w b : Nat} (ho : opener? c.items k = some w) (hw : c.IsKeyword w .«while»)
    (hob : opener? c.items w = some b) (hb : c.IsKeyword b .«begin») : Returns c k b

/-- A loop goes back to the place behind the word that starts it. -/
theorem exists_returns {kind : Branch} {back : List Instruction}
    (h : c.items[k]? = some (.keyword keyword token index)) (hb : backBranch? keyword = some (kind, back)) :
    ∃ b, c.Returns k b ∧ (c.state k).backTarget = c.offset (b + 1) := by
  have hrole : keyword.role = .closes := by cases keyword <;> first | rfl | cases hb
  have hne : keyword ≠ .semicolon := by
    rintro rfl
    cases hb
  obtain ⟨construct, hconstruct⟩ := exists_innermost? h (.inr hrole) hne
  have ht := c.tracks (Nat.le_of_lt (List.getElem?_eq_some_iff.mp h).1)
  obtain ⟨b, ks, frame, rest, hbs, -, hframe, hbf, -⟩ := ht.of_innermost? hconstruct
  have hopener : opener? c.items k = some b := by
    rw [opener?, roleAt_of_getElem? h, Item.role, hrole, hbs]
    rfl
  have htarget : (c.state k).backTarget = frame.construct.target?.getD 0 := by
    rw [backTarget, hconstruct, hframe]
    rfl
  have hadmits := (c.compiled h).admits
  simp only [Admits, AdmitsKeyword, innermost?_ready, hconstruct, ← hframe] at hadmits
  cases hbf with
  | «begin» hitem => exact ⟨b, .direct hopener (.inl ⟨_, _, hitem⟩), htarget⟩
  | «do» hitem => exact ⟨b, .direct hopener (.inr ⟨_, _, hitem⟩), htarget⟩
  | @«while» b' _ _ hitem hob =>
    obtain ⟨keyword', token', index', item, hitem', hb', hcloses⟩ := closesItem_of_opener? hob
    rw [hitem] at hitem'
    cases hitem'
    refine ⟨b', .past hopener ⟨_, _, hitem⟩ hob ?_, htarget⟩
    cases item with
    | keyword opening token'' index'' =>
      cases opening <;> simp [closesItem] at hcloses
      exact ⟨_, _, hb'⟩
    | _ => simp [closesItem] at hcloses
  | «if» hitem | «else» hitem => cases keyword <;> simp [backBranch?] at hb hadmits

theorem Returns.lt {b : Nat} (h : c.Returns k b) : b < k := by
  cases h with
  | direct ho _ => exact opener?_lt ho
  | past ho _ hob _ => exact Nat.lt_trans (opener?_lt hob) (opener?_lt ho)

/-- **A branch back** leads to the place behind the word that starts the loop. -/
theorem branchAt_back {kind : Branch} {back : List Instruction}
    (h : c.items[k]? = some (.keyword keyword token index)) (hb : backBranch? keyword = some (kind, back)) :
    ∃ b, c.Returns k b ∧
      BranchAt c.program.code (c.offset (k + 1) - codeSize back - kind.size) kind (c.offset (b + 1)) := by
  have hk := (List.getElem?_eq_some_iff.mp h).1
  have hopens := not_opens_of_keyword h (by cases keyword <;> cases hb <;> simp)
  obtain ⟨front, hblock, -⟩ := exists_block_eq_of_backBranch? h hb
  obtain ⟨b, hreturns, htarget⟩ := exists_returns h hb
  refine ⟨b, hreturns, branchAt_code ?_ (offset_lt_of_le (Nat.lt_trans hreturns.lt hk))⟩
  have hplaced := placed_of_block_eq hk hopens hblock
  have hplace : c.offset k + codeSize front = c.offset (k + 1) - codeSize back - kind.size := by
    rw [c.offset_succ hk, hblock, codeSize_append, codeSize_cons, size_leading, Branch.size]
    omega
  rw [hplace, htarget] at hplaced
  exact hplaced

/-! ### Branches ahead -/

/-- **A branch ahead** of a construct or a definition leads to the place behind the word that closes or replaces it. -/
theorem branchAt_ahead {kind : Branch} (h : c.Opens k kind) (hkind : kind ≠ .call) :
    ∃ j, opener? c.items j = some k ∧
      BranchAt c.program.code (c.offset (k + 1) - kind.size) kind (c.offset (j + 1)) := by
  obtain ⟨j, hres⟩ := h.exists_resolves
  have hbranch := branchAt_code (h.placed hres) (offset_lt_of_le hres.lt_length)
  cases hres with
  | closing ho _ => exact ⟨j, ho, hbranch⟩
  | defining hw _ _ =>
    -- A waiting call is no branch of another kind.
    obtain ⟨index, hword, -⟩ := hw.2.1
    cases h with
    | «if» h | «else» h | «while» h | define h _ =>
      rw [hword] at h
      cases h
    | call _ => exact absurd rfl hkind

/-! ### All branches of an item -/

/-- Two items of one construct, the second of which may be the target of a jump of the first. -/
def Joined (c : Compilation) (k j : Nat) : Prop :=
  opener? c.items j = some k ∨ c.Returns k j

/-- Where a branch `l` of item `k` leads in the finished program. -/
inductive Reach (c : Compilation) (k : Nat) (l : Link) : Prop
  | routine (hkind : l.kind = .call) (ht : l.target = 0)
  | definition {h : Nat} (hkind : l.kind = .call) (hh : c.IsDefinition h) (ht : l.target = c.offset (h + 1))
  | construct {j : Nat} (hkind : l.kind ≠ .call) (hj : c.Joined k j) (ht : l.target = c.offset (j + 1))
  /-- A place in its own block: only in `?dup` and in `+loop`. -/
  | within {front back : List Instruction} (hkind : l.kind ≠ .call) (hsegment : c.segment k = front ++ back)
    (hitem : (∃ token index, c.items[k]? = some (.word token index) ∧
        (c.state k).resolve token index = some (.primitive .questionDup)) ∨
      c.IsKeyword k .plusLoop ∧ back = [dropLoop])
    (ht : l.target = (c.offset k + codeSize front : Nat))

theorem offset_add_codeSize_le {front back : List Instruction} (hk : k < c.items.length)
    (h : c.block k = front ++ back) : c.offset k + codeSize front + codeSize back < 2 ^ 31 := by
  have hlt : c.offset (k + 1) < 2 ^ 31 := offset_lt_of_le hk
  rw [c.offset_succ hk, h, codeSize_append] at hlt
  omega

theorem target_to_of_block_eq {front back : List Instruction} {kind : Branch} {target : Nat}
    (hk : k < c.items.length)
    (h : c.block k = front ++ leading (c.offset k + codeSize front) kind target :: back)
    (htarget : target < 2 ^ 31) : (Link.to (c.offset k + codeSize front) kind target).target = target := by
  have hlt := offset_add_codeSize_le hk h
  rw [codeSize_cons, size_leading] at hlt
  exact Link.target_to (by omega) htarget

theorem reach_of_opens {kind : Branch} {l : Link} (h : c.Opens k kind)
    (hl : l ∈ links (c.offset k) (c.segment k)) : c.Reach k l := by
  obtain ⟨j, hres⟩ := h.exists_resolves
  obtain ⟨front, hblock, hstraight⟩ := h.exists_block_eq
  have hplace := h.offset_add_codeSize hblock
  have hlt := offset_add_codeSize_le h.lt hblock
  rw [codeSize_cons, codeSize_nil, size_branch] at hlt
  rw [segment_eq_of_resolves h hblock hres, ← hplace, links_append, hstraight.links_eq, List.nil_append,
    links_leading, links_nil, List.mem_singleton] at hl
  subst hl
  have htarget : (Link.to (c.offset k + codeSize front) kind (c.offset (j + 1))).target = c.offset (j + 1) :=
    Link.target_to (by omega) (offset_lt_of_le hres.lt_length)
  cases hres with
  | closing ho _ =>
    refine .construct (fun hcall => ?_) (.inl ho) htarget
    cases h with
    | call h => exact h.opener?_ne j ho
    | _ => cases hcall
  | defining hw hj _ =>
    refine .definition ?_ ⟨_, _, _, hj⟩ htarget
    obtain ⟨index, hword, -⟩ := hw.2.1
    cases h with
    | «if» h | «else» h | «while» h | define h _ =>
      rw [hword] at h
      cases h
    | call _ => rfl

theorem reach_of_backBranch? {kind : Branch} {back : List Instruction} {l : Link}
    (h : c.items[k]? = some (.keyword keyword token index)) (hb : backBranch? keyword = some (kind, back))
    (hl : l ∈ links (c.offset k) (c.segment k)) : c.Reach k l := by
  have hk := (List.getElem?_eq_some_iff.mp h).1
  have hkind : kind ≠ .call := by cases keyword <;> cases hb <;> simp
  have hback : Straight back := by cases keyword <;> cases hb <;> exact straight_of_all rfl
  have hopens := not_opens_of_keyword h (by cases keyword <;> cases hb <;> simp)
  obtain ⟨b, hreturns, htarget⟩ := exists_returns h hb
  obtain ⟨front, hblock, hfront⟩ := exists_block_eq_of_backBranch? h hb
  rw [htarget] at hblock
  have hsegment := segment_eq_block hk hopens
  rw [hsegment, hblock, links_append, links_leading, hback.links_eq, List.mem_append, List.mem_singleton] at hl
  rcases hl with hl | rfl
  · rcases hfront with hstraight | ⟨rfl, filled, hstraight, rfl⟩
    · rw [hstraight.links_eq] at hl
      cases hl
    · -- The jump out of a `+loop` skips the branch back.
      cases hb
      have hstep : Straight stepByTop := straight_of_all rfl
      have hcompare : Straight compareLimit := straight_of_all rfl
      rw [links_append, hstraight.links_eq, List.nil_append, plusLoopTest, links_append, hstep.links_eq,
        List.nil_append, links_leading, hcompare.links_eq, List.mem_singleton] at hl
      subst hl
      have hlt := offset_add_codeSize_le hk hblock
      rw [codeSize_append, codeSize_plusLoopTest, codeSize_cons, size_leading, length_opcode_jumpIf] at hlt
      have hsplit := hsegment.trans hblock
      rw [← List.singleton_append, ← List.append_assoc] at hsplit
      refine .within (fun hcall => by cases hcall) hsplit (.inr ⟨⟨_, _, h⟩, rfl⟩) ?_
      rw [Link.target_to (by rw [length_opcode_jumpIf]; omega) (by omega), codeSize_append, codeSize_append,
        codeSize_plusLoopTest, codeSize_cons, codeSize_nil, size_leading, length_opcode_jumpIf]
      omega
  · exact .construct hkind (.inr hreturns)
      (target_to_of_block_eq hk hblock (offset_lt_of_le (Nat.lt_trans hreturns.lt hk)))

theorem reach_of_call {front : List Instruction} {target : Nat} {l : Link} (hk : k < c.items.length)
    (hopens : ∀ kind, ¬c.Opens k kind) (hfront : Straight front)
    (hblock : c.block k = front ++ [leading (c.offset k + codeSize front) .call target])
    (htarget : target = 0 ∨ ∃ h, c.IsDefinition h ∧ target = c.offset (h + 1))
    (hl : l ∈ links (c.offset k) (c.segment k)) : c.Reach k l := by
  rw [segment_eq_block hk hopens, hblock, links_append, hfront.links_eq, List.nil_append, links_leading, links_nil,
    List.mem_singleton] at hl
  subst hl
  rcases htarget with rfl | ⟨h, hdefinition, rfl⟩
  · exact .routine rfl (target_to_of_block_eq hk hblock (by decide))
  · exact .definition rfl hdefinition (target_to_of_block_eq hk hblock (offset_lt_of_le hdefinition.lt))

theorem exists_offset_eq_of_current {d : OpenDefinition} (hk : k ≤ c.items.length)
    (hd : (c.state k).current = some d) : ∃ h, c.IsDefinition h ∧ d.offset = c.offset (h + 1) := by
  have ht := c.tracks hk
  rw [hd] at ht
  generalize hcurrent : some d = current at ht
  generalize brackets c.items k = bs at ht
  generalize (c.state k).control = control at ht
  induction ht with
  | main => cases hcurrent
  | body h =>
    cases hcurrent
    exact ⟨_, ⟨_, _, _, h⟩, rfl⟩
  | frame _ _ ih => exact ih hcurrent

theorem reach_of_keyword {l : Link} (h : c.items[k]? = some (.keyword keyword token index))
    (hl : l ∈ links (c.offset k) (c.segment k)) : c.Reach k l := by
  have hk := (List.getElem?_eq_some_iff.mp h).1
  by_cases hopens : ∃ kind, c.Opens k kind
  · obtain ⟨kind, hopens⟩ := hopens
    exact reach_of_opens hopens hl
  have hopens : ∀ kind, ¬c.Opens k kind := fun kind hkind => hopens ⟨kind, hkind⟩
  cases hb : backBranch? keyword with
  | some branch => exact reach_of_backBranch? h hb hl
  | none =>
    by_cases hrecurse : keyword = .recurse
    · subst hrecurse
      obtain ⟨hblock, hoffset⟩ := block_eq_of_keyword h rfl
      obtain ⟨d, hd⟩ : ∃ d, (c.state k).current = some d := by
        have hadmits := (c.compiled h).admits
        simp only [Admits, AdmitsKeyword, current_ready] at hadmits
        exact Option.isSome_iff_exists.mp hadmits
      rw [keywordCode, hoffset, current_ready, hd, branching] at hblock
      exact reach_of_call hk hopens (CacheState.straight_spilling _) hblock
        (.inr (exists_offset_eq_of_current (Nat.le_of_lt hk) hd)) hl
    · -- No other keyword has a branch.
      have hstraight : Straight (c.block k) := by
        rw [c.block_eq h]
        refine (Compiler.straight_lead _ _).append ?_
        rw [itemCode]
        unfold keywordCode
        cases keyword <;> simp only [backBranch?, reduceCtorEq] at hb
        case recurse => exact absurd rfl hrecurse
        case «if» => exact absurd (.«if» h) (hopens _)
        case «else» => exact absurd (.«else» h) (hopens _)
        case «while» => exact absurd (.«while» h) (hopens _)
        case exit =>
          refine ((CacheState.straight_spilling _).append ?_).append (straight_of_all rfl)
          unfold dropReturnCells
          split <;> exact straight_of_all rfl
        case colon | «variable» | unloop => exact straight_of_all rfl
        case «then» | «begin» => exact CacheState.straight_spilling _
        case «do» => exact (CacheState.straight_filling _).append (straight_of_all rfl)
        all_goals exact (CacheState.straight_spilling _).append (straight_of_all rfl)
      rw [segment_eq_block hk hopens, hstraight.links_eq] at hl
      cases hl

/-- `?dup` jumps over its own end. -/
theorem reach_of_questionDup {l : Link} (h : c.items[k]? = some (.word token index))
    (hr : (c.state k).resolve token index = some (.primitive .questionDup))
    (hl : l ∈ links (c.offset k) (c.segment k)) : c.Reach k l := by
  have hk := (List.getElem?_eq_some_iff.mp h).1
  have hopens := not_opens_of_resolve h (by rw [hr]; simp)
  have hblock : c.block k = c.lead k ++ (c.topPlace k).filling ++ [Instruction.test rax rax] ++
      .branch (.jumpIf .equal) (skipping pushTop) :: pushTop := by
    rw [block_eq_of_resolve h hr, referenceCode, topPlace_eq h]
    simp [Primitive.recipe, Recipe.onTop, Recipe.code, CacheState.settling]
  have hsegment := (segment_eq_block hk hopens).trans hblock
  have hfront : Straight (c.lead k ++ (c.topPlace k).filling ++ [Instruction.test rax rax]) :=
    ((c.straight_lead k).append (c.topPlace k).straight_filling).append (straight_of_all rfl)
  generalize c.lead k ++ (c.topPlace k).filling ++ [Instruction.test rax rax] = front at hsegment hfront
  have hpush : Straight pushTop := straight_of_all rfl
  have hskip : (skipping pushTop).toInt = codeSize pushTop := by decide
  rw [hsegment, links_append, hfront.links_eq, links_cons, hpush.links_eq] at hl
  simp only [Instruction.link?, Option.toList_some, List.nil_append, List.append_nil, List.mem_singleton] at hl
  subst hl
  refine .within (fun hcall => by cases hcall) (hsegment.trans (List.append_nil _).symm) (.inl ⟨_, _, h, hr⟩) ?_
  simp only [Link.target, hskip, codeSize_append, codeSize_cons, size_branch, length_opcode_jumpIf]
  omega

theorem reach_of_word {l : Link} (h : c.items[k]? = some (.word token index))
    (hl : l ∈ links (c.offset k) (c.segment k)) : c.Reach k l := by
  have hk := (List.getElem?_eq_some_iff.mp h).1
  obtain ⟨reference, hr⟩ : ∃ reference, (c.state k).resolve token index = some reference := by
    have hadmits := (c.compiled h).admits
    simp only [Admits, resolve_ready] at hadmits
    exact Option.isSome_iff_exists.mp hadmits
  by_cases hlater : reference = .later
  · exact reach_of_opens (.call ⟨index, h, hlater ▸ hr⟩) hl
  have hopens := not_opens_of_resolve h (by rw [hr]; exact fun heq => hlater (Option.some.inj heq))
  have hblock := block_eq_of_resolve h hr
  have hsegment := segment_eq_block hk hopens
  have hstraight : Straight (((c.state k).ready (.word token index)).referenceCode reference) → c.Reach k l := by
    intro hcode
    rw [hsegment, hblock, ((c.straight_lead k).append hcode).links_eq] at hl
    cases hl
  have hcall : ∀ {target}, ((c.state k).ready (.word token index)).referenceCode reference =
      branching (c.start k) (c.topPlace k).spilling .call target →
      (target = 0 ∨ ∃ h, c.IsDefinition h ∧ target = c.offset (h + 1)) → c.Reach k l := by
    intro target hcode htarget
    rw [hcode, branching, start, ← List.append_assoc, Nat.add_assoc, ← codeSize_append] at hblock
    exact reach_of_call hk hopens ((c.straight_lead k).append (c.topPlace k).straight_spilling) hblock htarget hl
  cases reference with
  | primitive p =>
    by_cases hdot : p = .dot
    · subst hdot
      refine hcall ?_ (.inl rfl)
      rw [referenceCode, printNumber_ready, c.printNumber_state (Nat.le_of_lt hk), offset_ready_eq h,
        ← topPlace_eq h]
      rfl
    by_cases hdup : p = .questionDup
    · subst hdup
      exact reach_of_questionDup h hr hl
    · exact hstraight (straight_recipe hdup hdot _ _ _)
  | defined meaning =>
    obtain ⟨h', item, href, hitem, rfl⟩ := exists_isReferent_of_resolve h hr
    have hname := isSome_name?_of_defines href.defines
    cases item with
    | define colon name index' =>
      refine hcall ?_ (.inr ⟨h', ⟨colon, name, index', hitem⟩, rfl⟩)
      rw [meaningOf, referenceCode, offset_ready_eq h, topPlace_eq h]
      exact fun _ _ _ heq => by cases heq
    | «variable» word name index' => exact hstraight ((CacheState.straight_spilling _).append (straight_of_all rfl))
    | _ => simp [hitem, Item.name?] at hname
  | later => exact absurd rfl hlater
  | nothing => exact hstraight (straight_of_all rfl)

/-- **Where the branches of an item lead.** -/
theorem reach_of_mem_links {l : Link} (hk : k < c.items.length)
    (hl : l ∈ links (c.offset k) (c.segment k)) : c.Reach k l := by
  have h := List.getElem?_eq_getElem hk
  generalize c.items[k] = item at h
  by_cases hopens : ∃ kind, c.Opens k kind
  · obtain ⟨kind, hopens⟩ := hopens
    exact reach_of_opens hopens hl
  have hopens : ∀ kind, ¬c.Opens k kind := fun kind hkind => hopens ⟨kind, hkind⟩
  have hstraight : Straight (c.block k) → c.Reach k l := by
    intro hblock
    rw [segment_eq_block hk hopens, hblock.links_eq] at hl
    cases hl
  cases item with
  | keyword keyword token index => exact reach_of_keyword h hl
  | word token index => exact reach_of_word h hl
  | define colon name index =>
    have hentry : ¬(c.state k).entry.isSome := fun hsome => hopens _ (.define h hsome)
    refine hstraight ?_
    rw [c.block_eq h, Compiler.block, itemCode, entry_ready_define, if_neg hentry]
    exact (Compiler.straight_lead _ _).append (straight_of_all rfl)
  | «variable» word name index =>
    refine hstraight ?_
    rw [c.block_eq h]
    exact (Compiler.straight_lead _ _).append (straight_of_all rfl)
  | number literal token index =>
    refine hstraight ?_
    rw [c.block_eq h]
    refine (Compiler.straight_lead _ _).append ?_
    cases literal with
    | cell value => exact (CacheState.straight_spilling _).append (straight_of_all rfl)
    | outOfRange => exact straight_of_all rfl

theorem Reach.exists_placed {l : Link} (h : c.Reach k l) (hk : k < c.items.length) :
    ∃ i p, Placed c.instructions p [i] ∧ l.target = (p : Nat) := by
  have hbehind : ∀ j, j < c.items.length → l.target = c.offset (j + 1) →
      ∃ i p, Placed c.instructions p [i] ∧ l.target = (p : Nat) := by
    intro j hj ht
    obtain ⟨i, hi⟩ := exists_placed_offset (c := c) (k := j + 1) hj
    exact ⟨i, _, hi, ht⟩
  cases h with
  | routine _ ht =>
    obtain ⟨i, hi⟩ := placed_of_mem_starts c.placed_printNumber (p := 0) (by decide)
    exact ⟨i, 0, hi, ht⟩
  | definition _ hh ht => exact hbehind _ hh.lt ht
  | @construct j _ hj ht =>
    refine hbehind j ?_ ht
    rcases hj with ho | hreturns
    · obtain ⟨keyword, token, index, -, hitem, -⟩ := closesItem_of_opener? ho
      exact (List.getElem?_eq_some_iff.mp hitem).1
    · exact Nat.lt_trans hreturns.lt hk
  | @within front back _ hsegment _ ht =>
    cases back with
    | nil =>
      refine hbehind k hk ?_
      rw [ht, c.offset_succ hk, ← codeSize_segment, hsegment, List.append_nil]
    | cons i back =>
      have hplaced := placed_segment hk
      rw [hsegment] at hplaced
      exact ⟨i, _, hplaced.right.head, ht⟩

/-- **Every branch leads to an instruction** of the program. -/
theorem exists_placed_of_mem_links {l : Link} (hl : l ∈ links 0 c.instructions) :
    ∃ i p, Placed c.instructions p [i] ∧ l.target = (p : Nat) := by
  rcases mem_links_instructions hl with hl | ⟨k, hk, hl⟩
  · have hroutine : ∀ l ∈ links 0 printNumber, ∃ p ∈ starts 0 printNumber, l.target = (p : Nat) := by decide
    obtain ⟨p, hp, ht⟩ := hroutine l hl
    obtain ⟨i, hi⟩ := placed_of_mem_starts c.placed_printNumber hp
    exact ⟨i, p, hi, ht⟩
  · exact (reach_of_mem_links hk hl).exists_placed hk

theorem lt_length_of_placed {i : Instruction} {p : Nat} (h : Placed c.instructions p [i]) :
    p < c.program.code.length := by
  have hle := h.add_codeSize_le
  have hpos := Instruction.size_pos (c.encodable_instructions i h.mem)
  rw [codeSize_cons, codeSize_nil] at hle
  rw [c.code_eq, length_assemble]
  omega

/-! ### The branches of constructs -/

variable (c) in
/-- Every branch of a construct, and every jump around a definition, lands where the nesting of the program says. -/
structure BranchesNested : Prop where
  /-- The jump of an `if` lands behind its `else`, or behind its `then` if it has no `else`. -/
  «if» : ∀ i, c.IsKeyword i .«if» → ∃ j, opener? c.items j = some i ∧
    (c.IsKeyword j .«else» ∨ c.IsKeyword j .«then») ∧
    BranchAt c.program.code (c.offset (i + 1) - 6) (.jumpIf .equal) (c.offset (j + 1))
  «else» : ∀ i, c.IsKeyword i .«else» → ∃ j, opener? c.items j = some i ∧ c.IsKeyword j .«then» ∧
    BranchAt c.program.code (c.offset (i + 1) - 5) .jump (c.offset (j + 1))
  «while» : ∀ i, c.IsKeyword i .«while» → ∃ j, opener? c.items j = some i ∧ c.IsKeyword j .«repeat» ∧
    BranchAt c.program.code (c.offset (i + 1) - 6) (.jumpIf .equal) (c.offset (j + 1))
  «until» : ∀ j, c.IsKeyword j .«until» → ∃ b, opener? c.items j = some b ∧ c.IsKeyword b .«begin» ∧
    BranchAt c.program.code (c.offset (j + 1) - 6) (.jumpIf .equal) (c.offset (b + 1))
  again : ∀ j, c.IsKeyword j .again → ∃ b, opener? c.items j = some b ∧ c.IsKeyword b .«begin» ∧
    BranchAt c.program.code (c.offset (j + 1) - 5) .jump (c.offset (b + 1))
  /-- A `repeat` replaces the `while` that has replaced the `begin` to which it jumps. -/
  «repeat» : ∀ j, c.IsKeyword j .«repeat» → ∃ w b, opener? c.items j = some w ∧ c.IsKeyword w .«while» ∧
    opener? c.items w = some b ∧ c.IsKeyword b .«begin» ∧
    BranchAt c.program.code (c.offset (j + 1) - 5) .jump (c.offset (b + 1))
  loop : ∀ j, c.IsKeyword j .loop → ∃ b, opener? c.items j = some b ∧ c.IsKeyword b .«do» ∧
    BranchAt c.program.code (c.offset (j + 1) - 10) (.jumpIf .less) (c.offset (b + 1))
  plusLoop : ∀ j, c.IsKeyword j .plusLoop → ∃ b, opener? c.items j = some b ∧ c.IsKeyword b .«do» ∧
    BranchAt c.program.code (c.offset (j + 1) - 10) (.jumpIf .notEqual) (c.offset (b + 1))
  /-- A definition inside the main program is jumped over. -/
  definition : ∀ i, c.IsDefinition i → (c.state i).entry.isSome → ∃ j, opener? c.items j = some i ∧
    c.IsKeyword j .semicolon ∧ BranchAt c.program.code (c.offset (i + 1) - 5) .jump (c.offset (j + 1))

theorem exists_closer {kind : Branch} {item : Item} (hopens : c.Opens k kind) (hkind : kind ≠ .call)
    (h : c.items[k]? = some item) : ∃ j keyword, opener? c.items j = some k ∧ c.IsKeyword j keyword ∧
      closesItem keyword item ∧
      BranchAt c.program.code (c.offset (k + 1) - kind.size) kind (c.offset (j + 1)) := by
  obtain ⟨j, ho, hbranch⟩ := branchAt_ahead hopens hkind
  obtain ⟨keyword, token, index, item', hj, hitem, hcloses⟩ := closesItem_of_opener? ho
  rw [h] at hitem
  cases hitem
  exact ⟨j, keyword, ho, ⟨token, index, hj⟩, hcloses, hbranch⟩

theorem closesItem_of_isKeyword {b : Nat} {opening : Keyword}
    (h : c.items[k]? = some (.keyword keyword token index)) (ho : opener? c.items k = some b)
    (hb : c.IsKeyword b opening) : ∃ token index, closesItem keyword (.keyword opening token index) := by
  obtain ⟨keyword', token', index', item, hk, hitem, hcloses⟩ := closesItem_of_opener? ho
  obtain ⟨token'', index'', hb⟩ := hb
  rw [h] at hk
  cases hk
  rw [hb] at hitem
  cases hitem
  exact ⟨_, _, hcloses⟩

theorem exists_start {kind : Branch} {back : List Instruction}
    (h : c.items[k]? = some (.keyword keyword token index)) (hb : backBranch? keyword = some (kind, back))
    (hrepeat : keyword ≠ .«repeat») : ∃ b opening token' index', opener? c.items k = some b ∧
      c.IsKeyword b opening ∧ closesItem keyword (.keyword opening token' index') ∧
      BranchAt c.program.code (c.offset (k + 1) - codeSize back - kind.size) kind (c.offset (b + 1)) := by
  obtain ⟨b, hreturns, hbranch⟩ := branchAt_back h hb
  cases hreturns with
  | direct ho hbegin =>
    rcases hbegin with hbegin | hdo
    · obtain ⟨token', index', hcloses⟩ := closesItem_of_isKeyword h ho hbegin
      exact ⟨b, _, token', index', ho, hbegin, hcloses, hbranch⟩
    · obtain ⟨token', index', hcloses⟩ := closesItem_of_isKeyword h ho hdo
      exact ⟨b, _, token', index', ho, hdo, hcloses, hbranch⟩
  | past ho hw _ _ =>
    -- Only `repeat` closes a `while`.
    obtain ⟨token', index', hcloses⟩ := closesItem_of_isKeyword h ho hw
    cases keyword <;> simp [closesItem] at hcloses hrepeat

theorem branchesNested (c : Compilation) : c.BranchesNested := by
  refine ⟨?_, ?_, ?_, ?_, ?_, ?_, ?_, ?_, ?_⟩
  · rintro i ⟨token, index, h⟩
    obtain ⟨j, keyword, ho, hj, hcloses, hbranch⟩ := exists_closer (.«if» h) (by simp) h
    refine ⟨j, ho, ?_, hbranch⟩
    cases keyword <;> simp [closesItem] at hcloses
    · exact .inl hj
    · exact .inr hj
  · rintro i ⟨token, index, h⟩
    obtain ⟨j, keyword, ho, hj, hcloses, hbranch⟩ := exists_closer (.«else» h) (by simp) h
    cases keyword <;> simp [closesItem] at hcloses
    exact ⟨j, ho, hj, hbranch⟩
  · rintro i ⟨token, index, h⟩
    obtain ⟨j, keyword, ho, hj, hcloses, hbranch⟩ := exists_closer (.«while» h) (by simp) h
    cases keyword <;> simp [closesItem] at hcloses
    exact ⟨j, ho, hj, hbranch⟩
  · rintro j ⟨token, index, h⟩
    obtain ⟨b, opening, _, _, ho, hb, hcloses, hbranch⟩ := exists_start h rfl (by simp)
    cases opening <;> simp [closesItem] at hcloses
    exact ⟨b, ho, hb, hbranch⟩
  · rintro j ⟨token, index, h⟩
    obtain ⟨b, opening, _, _, ho, hb, hcloses, hbranch⟩ := exists_start h rfl (by simp)
    cases opening <;> simp [closesItem] at hcloses
    exact ⟨b, ho, hb, hbranch⟩
  · rintro j ⟨token, index, h⟩
    obtain ⟨b, hreturns, hbranch⟩ := branchAt_back h rfl
    cases hreturns with
    | direct ho hb =>
      -- Only a `while` is closed by `repeat`.
      rcases hb with hb | hb <;> obtain ⟨_, _, hcloses⟩ := closesItem_of_isKeyword h ho hb <;>
        simp [closesItem] at hcloses
    | past ho hw hob hb => exact ⟨_, b, ho, hw, hob, hb, hbranch⟩
  · rintro j ⟨token, index, h⟩
    obtain ⟨b, opening, _, _, ho, hb, hcloses, hbranch⟩ := exists_start h rfl (by simp)
    cases opening <;> simp [closesItem] at hcloses
    exact ⟨b, ho, hb, hbranch⟩
  · rintro j ⟨token, index, h⟩
    obtain ⟨b, opening, _, _, ho, hb, hcloses, hbranch⟩ := exists_start h rfl (by simp)
    cases opening <;> simp [closesItem] at hcloses
    exact ⟨b, ho, hb, hbranch⟩
  · rintro i ⟨colon, name, index, h⟩ hentry
    obtain ⟨j, keyword, ho, hj, hcloses, hbranch⟩ := exists_closer (.define h hentry) (by simp) h
    cases keyword <;> simp [closesItem] at hcloses
    exact ⟨j, ho, hj, hbranch⟩

end Compilation

/-- **Branch targets.** In the code of every program that compiles, the branches of constructs and the jumps around
definitions land where the nesting of its items says.  Decoded from its start, the code falls into the emitted
instructions, and every branch leads to the first byte of one of them. -/
theorem branches_nested {source : String} {options : Options} {program : Program}
    (h : compile source options = .ok program) :
    ∃ c : Compilation, c.options = options ∧ c.program = program ∧ tokenize source = .ok c.tokens ∧
      c.BranchesNested ∧
      decodeAll program.code = c.instructions.map Instruction.piece ∧
      ∀ l ∈ links 0 c.instructions, ∃ i p, Placed c.instructions p [i] ∧ l.target = (p : Nat) ∧
        p < program.code.length := by
  obtain ⟨c, hoptions, rfl, htokens⟩ := exists_compilation h
  refine ⟨c, hoptions, rfl, htokens, c.branchesNested, c.decodeAll_code, fun l hl => ?_⟩
  obtain ⟨i, p, hplaced, ht⟩ := Compilation.exists_placed_of_mem_links hl
  exact ⟨i, p, hplaced, ht, Compilation.lt_length_of_placed hplaced⟩

/-- A program in which constructs are nested in a definition and in the main program. -/
theorem branches_nested_mixed : ∃ program : Program,
    compile "1 : a begin dup while 1 repeat ; 2 0 do i if a else 3 then loop" {} = .ok program ∧
    ∃ c : Compilation, c.program = program ∧ c.BranchesNested := by
  obtain ⟨program, h⟩ := exists_of_isOk (x :=
    compile "1 : a begin dup while 1 repeat ; 2 0 do i if a else 3 then loop" {}) (by decide +kernel)
  obtain ⟨c, -, hprogram, -, hnested, -⟩ := branches_nested h
  exact ⟨program, h, c, hprogram, hnested⟩

end ForthElf
