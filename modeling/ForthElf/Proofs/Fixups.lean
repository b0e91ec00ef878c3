import ForthElf.Proofs.Atomicity
import Mathlib.Data.List.Forall2
import Mathlib.Data.List.Pairwise

/-!
# Every placeholder is patched once

Branches whose target is not known yet are emitted with an empty field, which is patched later.

* `CodeBuffer.LeadsTo code site target` — the field at `site` holds the displacement to `target`;
* `Compiler.Compiled.leadsTo` — an item leads the fields that it patches to their target;
* `Ledger`, `Compiler.ledger options chunks` — the fields that were placed and those that were patched while several
  lists of tokens were compiled, with the targets of the latter;
* `Compiler.Balanced s l` — what is placed is patched and leads to its target, or waits in `s`;
* `Compiler.Keeps s t` — the code of `s` is that of `t`, but in fields that wait in `s`;
* `Compiler.Balanced.step`, `Compiler.Balanced.run`, `Compiler.Balanced.feed` — an item, several items and several
  lists of tokens keep the balance and the code;
* `fixups_conserved` — **each field that is placed waits in one place until it is patched, once**.
-/

namespace ForthElf

open Register

/-! ### Bytes outside of fields -/

theorem getElem?_encode_redirectOne {choose : Nat → Option Nat} {offset k : Nat} {i : Instruction} (hk : k < i.size)
    (h : ∀ l ∈ i.link? offset, (choose l.site).isSome → ¬(l.site ≤ offset + k ∧ offset + k < l.site + 4)) :
    (redirectOne choose offset i).encode[k]? = i.encode[k]? := by
  unfold redirectOne
  split
  · next kind d =>
    split
    · next target htarget =>
      have hfield := h _ rfl (by rw [htarget]; rfl)
      rw [size_branch] at hk
      have hopcode : k < kind.opcode.length := by
        by_contra hnot
        exact hfield ⟨by dsimp only; omega, by dsimp only; omega⟩
      show (kind.opcode ++ bytes32 _)[k]? = (kind.opcode ++ bytes32 d)[k]?
      rw [List.getElem?_append_left hopcode, List.getElem?_append_left hopcode]
    · rfl
  · rfl

/-- Where branches are led elsewhere, only their fields change. -/
theorem getElem?_assemble_redirect {choose : Nat → Option Nat} {offset k : Nat} {block : List Instruction}
    (h : ∀ l ∈ links offset block, (choose l.site).isSome → ¬(l.site ≤ offset + k ∧ offset + k < l.site + 4)) :
    (assemble (redirect choose offset block))[k]? = (assemble block)[k]? := by
  induction block generalizing offset k with
  | nil => rfl
  | cons i block ih =>
    rw [redirect, assemble_cons, assemble_cons]
    have hsize : (redirectOne choose offset i).encode.length = i.encode.length := size_redirectOne choose offset i
    by_cases hk : k < i.encode.length
    · rw [List.getElem?_append_left (by rwa [hsize]), List.getElem?_append_left hk]
      refine getElem?_encode_redirectOne hk fun l hl => h l ?_
      rw [links_cons]
      exact List.mem_append_left _ (Option.mem_toList.mpr hl)
    · have hle : i.encode.length ≤ k := Nat.le_of_not_lt hk
      rw [List.getElem?_append_right (by rwa [hsize]), List.getElem?_append_right hle, hsize]
      refine ih fun l hl => ?_
      have hplace : offset + i.size + (k - i.encode.length) = offset + k := by
        unfold Instruction.size
        omega
      rw [hplace]
      exact h l (by rw [links_cons]; exact List.mem_append_right _ hl)

/-! ### Where fields lead -/

/-- The field at `site` holds the displacement to `target`. -/
def CodeBuffer.LeadsTo (code : CodeBuffer) (site target : Nat) : Prop :=
  ∃ d : BitVec 32, (code.bytes.toList.drop site).take 4 = bytes32 d ∧ (site : Int) + 4 + d.toInt = target

namespace CodeBuffer

variable {code code' : CodeBuffer} {site target : Nat}

/-- Where a field leads is a matter of its four bytes. -/
theorem LeadsTo.congr (h : code.LeadsTo site target)
    (hsame : ∀ k, site ≤ k → k < site + 4 → code'.bytes.toList[k]? = code.bytes.toList[k]?) :
    code'.LeadsTo site target := by
  obtain ⟨d, hfield, htarget⟩ := h
  refine ⟨d, ?_, htarget⟩
  rw [← hfield]
  apply List.ext_getElem?
  intro k
  by_cases hk : k < 4
  · rw [List.getElem?_take_of_lt hk, List.getElem?_take_of_lt hk, List.getElem?_drop, List.getElem?_drop]
    exact hsame (site + k) (by omega) (by omega)
  · rw [List.getElem?_take_eq_none (by omega), List.getElem?_take_eq_none (by omega)]

theorem Holds.leadsTo {block : List Instruction} {kind : Branch} (h : code.Holds block) (hsize : code.offset ≤ 2 ^ 31)
    (htarget : target < 2 ^ 31) (hl : ⟨kind, site, distance site target⟩ ∈ links 0 block) :
    code.LeadsTo site target := by
  have hbound : site + 4 ≤ 0 + codeSize block := (site_bounds_of_mem_links hl).2
  rw [Nat.zero_add, ← offset_eq_codeSize h] at hbound
  obtain ⟨front, back, rfl, hsite⟩ := mem_links.mp hl
  have hbytes : code.bytes.toList =
      (assemble front ++ kind.opcode) ++ (bytes32 (distance site target) ++ assemble back) := by
    rw [h, assemble_append, assemble_cons, List.append_assoc, Instruction.encode, List.append_assoc]
  have hlength : (assemble front ++ kind.opcode).length = site := by
    rw [List.length_append, length_assemble, ← Nat.zero_add (codeSize front)]
    exact hsite.symm
  refine ⟨distance site target, ?_, ?_⟩
  · rw [hbytes, List.drop_left' hlength, List.take_left' (length_bytes32 _)]
  · rw [toInt_distance (by omega) htarget]
    omega

end CodeBuffer

/-! ### Branches without a target -/

theorem disp_to_ne_zero {offset target : Nat} (kind : Branch) (hoffset : offset < 2 ^ 31 - 6)
    (htarget : target ≤ offset) : (Link.to offset kind target).disp ≠ 0 := by
  intro hzero
  have hopcode : kind.opcode.length ≤ 2 := by cases kind <;> simp
  have hint :
      (distance (offset + kind.opcode.length) target).toInt = target - ((offset + kind.opcode.length : Nat) + 4) :=
    toInt_distance (by omega) (by omega)
  have hdisp : distance (offset + kind.opcode.length) target = 0 := hzero
  have hnone : (0 : BitVec 32).toInt = 0 := rfl
  rw [hdisp, hnone] at hint
  omega

theorem links_placeholder {front : List Instruction} (hfront : Straight front) (offset : Nat) (kind : Branch) :
    links offset (front ++ [Instruction.branch kind 0]) =
      [⟨kind, offset + codeSize (front ++ [Instruction.branch kind 0]) - 4, 0⟩] := by
  rw [links_append, hfront.links_eq, links_cons, codeSize_append, codeSize_cons, codeSize_nil, size_branch]
  simp only [Instruction.link?, Option.toList_some, links_nil, List.nil_append, List.append_nil, List.cons.injEq,
    Link.mk.injEq, true_and, and_true]
  omega

namespace Compiler

variable {s s' : Compiler} {item : Item}

theorem disp_ne_zero_of_branching {offset target : Nat} {front back : List Instruction} {kind : Branch} {l : Link}
    (hfront : Straight front) (hback : Straight back) (hoffset : offset + codeSize front < 2 ^ 31 - 6)
    (htarget : target ≤ offset)
    (hl : l ∈ links offset (branching offset front kind target ++ back)) : l.disp ≠ 0 := by
  rw [links_append, links_branching hfront, hback.links_eq, List.append_nil] at hl
  obtain rfl := List.mem_singleton.mp hl
  exact disp_to_ne_zero kind hoffset (Nat.le_trans htarget (Nat.le_add_right _ _))

theorem codeSize_testing_le (state : CacheState) : codeSize (testing state) ≤ 10 := by
  cases state <;> decide

/-- The jump out of a loop with a step has its field where the item patches it. -/
theorem mem_placed_of_plusLoop (h : s.Roomy) {token : Token} {index : Nat} {l : Link}
    (hl : l ∈ links s.offset (s.keywordCode .plusLoop)) (hzero : l.disp = 0) :
    l.site ∈ s.placed (.keyword .plusLoop token index) := by
  have hlt := h.offset_lt
  have htarget := h.consistent.innermost_ok.2
  have hfill := codeSize_filling_le s.cache.state
  have hstep : codeSize stepByTop ≤ 32 := by decide
  have hcompare : codeSize compareLimit = 3 := by decide
  have hsteps : Straight stepByTop := straight_of_all rfl
  have hcompares : Straight compareLimit := straight_of_all rfl
  have hdrop : Straight [dropLoop] := straight_of_all rfl
  rw [keywordCode, links_append, s.cache.state.straight_filling.links_eq, List.nil_append, plusLoopEnd] at hl
  simp only [List.append_assoc, List.cons_append, List.nil_append] at hl
  rw [links_append, hsteps.links_eq, List.nil_append, links_leading, links_append, hcompares.links_eq,
    List.nil_append] at hl
  rcases List.mem_cons.mp hl with rfl | hl
  · refine List.mem_singleton.mpr ?_
    rw [crossingSite, codeSize_append, ← Nat.add_assoc]
    rfl
  · rw [hcompare, length_opcode_jumpIf, links_leading, hdrop.links_eq] at hl
    obtain rfl := List.mem_singleton.mp hl
    exact absurd hzero (disp_to_ne_zero _ (by omega) (by omega))

theorem mem_placed_of_keyword (h : s.Roomy) {k : Keyword} {token : Token} {index : Nat} {l : Link}
    (hl : l ∈ links s.offset (s.keywordCode k)) (hzero : l.disp = 0) : l.site ∈ s.placed (.keyword k token index) := by
  have hlt := h.offset_lt
  have htarget := h.consistent.innermost_ok.2
  have hspilling := codeSize_spilling_le s.cache.state
  have htesting := codeSize_testing_le s.cache.state
  have hspilled := s.cache.state.straight_spilling
  have hfilled := s.cache.state.straight_filling
  have hnone : Straight [] := straight_of_all rfl
  have hstraight : ∀ {code : List Instruction}, Straight code → l ∉ links s.offset code := by
    intro code hcode
    rw [hcode.links_eq]
    exact List.not_mem_nil
  -- The last instruction of the code is a branch back.
  have hback : ∀ {front : List Instruction} {kind : Branch} {target : Nat}, Straight front → codeSize front ≤ 64 →
      target ≤ s.offset → l ∉ links s.offset (branching s.offset front kind target) := by
    intro front kind target hfront hsize htarget hl
    rw [← List.append_nil (branching _ _ _ _)] at hl
    exact disp_ne_zero_of_branching hfront hnone (by omega) htarget hl hzero
  cases k with
  | «if» | «while» =>
    rw [keywordCode, links_placeholder (straight_testing _)] at hl
    obtain rfl := List.mem_singleton.mp hl
    exact List.mem_singleton_self _
  | «else» =>
    rw [keywordCode, links_placeholder hspilled] at hl
    obtain rfl := List.mem_singleton.mp hl
    exact List.mem_singleton_self _
  | «until» => exact absurd hl (hback (straight_testing _) (by omega) htarget)
  | again | «repeat» => exact absurd hl (hback hspilled (by omega) htarget)
  | loop =>
    have hstep : codeSize stepByOne ≤ 32 := by decide
    refine absurd hzero
      (disp_ne_zero_of_branching (hspilled.append (straight_of_all rfl)) (straight_of_all rfl) ?_ htarget hl)
    rw [codeSize_append]
    omega
  | plusLoop => exact mem_placed_of_plusLoop h hl hzero
  | recurse =>
    refine absurd hl (hback hspilled (by omega) ?_)
    cases hcurrent : s.current with
    | none => exact Nat.zero_le _
    | some definition => exact h.consistent.current_le definition hcurrent
  | colon | «variable» => exact absurd hl (hstraight hnone)
  | semicolon | loopIndex | outerLoopIndex => exact absurd hl (hstraight (hspilled.append (straight_of_all rfl)))
  | «then» | «begin» => exact absurd hl (hstraight hspilled)
  | «do» => exact absurd hl (hstraight (hfilled.append (straight_of_all rfl)))
  | unloop => exact absurd hl (hstraight (straight_of_all rfl))
  | exit =>
    have hdrop : Straight (dropReturnCells s.cellsToDrop) := by
      unfold dropReturnCells
      split <;> exact straight_of_all rfl
    exact absurd hl (hstraight ((hspilled.append hdrop).append (straight_of_all rfl)))

theorem mem_placed_of_word (h : s.Roomy) {token : Token} {index : Nat} {l : Link}
    (hl : l ∈ links s.offset (s.itemCode (.word token index))) (hzero : l.disp = 0) :
    l.site ∈ s.placed (.word token index) := by
  have hlt := h.offset_lt
  have hspilling := codeSize_spilling_le s.cache.state
  have hspilled := s.cache.state.straight_spilling
  have hnone : Straight [] := straight_of_all rfl
  have hcall : ∀ {target : Nat}, target ≤ s.offset →
      l ∉ links s.offset (branching s.offset s.cache.state.spilling .call target) := by
    intro target htarget hl
    rw [← List.append_nil (branching _ _ _ _)] at hl
    exact disp_ne_zero_of_branching hspilled hnone (by omega) htarget hl hzero
  rw [itemCode] at hl
  cases hreference : s.resolve token index with
  | none =>
    rw [hreference] at hl
    cases hl
  | some reference =>
    rw [hreference, Option.map_some, Option.getD_some] at hl
    cases reference with
    | primitive p =>
      by_cases hdot : p = .dot
      · subst hdot
        exact absurd hl (hcall (h.consistent.printNumber_eq ▸ Nat.zero_le _))
      by_cases hdup : p = .questionDup
      · subst hdup
        have hcode : s.referenceCode (.primitive .questionDup) =
            testing s.cache.state ++ .branch (.jumpIf .equal) (skipping pushTop) :: pushTop := by
          simp [referenceCode, testing, Primitive.recipe, Recipe.onTop, Recipe.code, CacheState.settling]
        have hpush : Straight pushTop := straight_of_all rfl
        rw [hcode, links_append, (straight_testing _).links_eq, links_cons, hpush.links_eq] at hl
        obtain rfl := List.mem_singleton.mp hl
        have hskip : skipping pushTop ≠ 0 := by decide
        exact absurd hzero hskip
      · rw [referenceCode, (straight_recipe hdup hdot _ _ _).links_eq] at hl
        cases hl
    | defined meaning =>
      obtain ⟨entry, hfind, rfl⟩ := exists_entry_of_resolve hreference
      cases hmeaning : entry.meaning with
      | code offset =>
        rw [hmeaning] at hl
        exact absurd hl (hcall (h.consistent.defined_le entry (List.mem_of_find?_eq_some hfind) offset hmeaning))
      | cell address =>
        rw [hmeaning, referenceCode, (hspilled.append (straight_of_all rfl)).links_eq] at hl
        cases hl
    | later =>
      rw [referenceCode, links_placeholder hspilled] at hl
      obtain rfl := List.mem_singleton.mp hl
      rw [placed, if_pos hreference, behind, itemCode, hreference]
      exact List.mem_singleton_self _
    | nothing => cases hl

/-- **A branch that an item emits without a target is one that it places.** -/
theorem mem_placed_of_disp_eq_zero (h : s.Consistent) (hsize : s.offset < 2 ^ 31 - 4096) {l : Link}
    (hl : l ∈ links s.offset (s.block item)) (hzero : l.disp = 0) : l.site ∈ (s.ready item).placed item := by
  have hroomy : (s.ready item).Roomy := by
    unfold ready
    split
    · exact (h.roomy hsize item.token).2
    · exact (h.roomy hsize item.token).1
  rw [block, links_append, (s.straight_lead item).links_eq, List.nil_append, ← offset_ready] at hl
  generalize s.ready item = u at *
  have hspilled := u.cache.state.straight_spilling
  cases item with
  | define colon name index =>
    simp only [itemCode] at hl
    split at hl
    · next hentry =>
      rw [links_placeholder hspilled] at hl
      obtain rfl := List.mem_singleton.mp hl
      rw [placed, if_pos hentry, behind, itemCode, if_pos hentry]
      exact List.mem_singleton_self _
    · cases hl
  | «variable» word name index => cases hl
  | keyword k token index => exact mem_placed_of_keyword hroomy hl hzero
  | number literal token index =>
    cases literal with
    | cell value =>
      rw [itemCode, (hspilled.append (straight_of_all rfl)).links_eq] at hl
      cases hl
    | outOfRange => cases hl
  | word token index => exact mem_placed_of_word hroomy hl hzero

/-! ### Branches with a target -/

theorem Compiled.exists_link_of_patched (hc : Compiled (s.ready item) item s') {old : List Instruction}
    (hholds : s.code.Holds old) (hlinks : ∀ site ∈ s.openSites, ∃ kind, ⟨kind, site, 0⟩ ∈ links 0 old) {site : Nat}
    (hsite : site ∈ (s.ready item).patched item) : ∃ kind,
      ⟨kind, site, distance site ((s.ready item).patchTarget item)⟩ ∈
        links 0 (redirect (sending (s.fixes item) s'.offset) 0 (old ++ s.block item)) := by
  have hoffset : s.offset = codeSize old := CodeBuffer.offset_eq_codeSize hholds
  have hperm := hc.openSites_perm_ready
  obtain ⟨kind, d, hlink, -⟩ := exists_link_of_mem hholds hlinks (hperm.mem_iff.mp (List.mem_append_right _ hsite))
  rw [links_redirect]
  unfold patched at hsite
  split at hsite
  · next token index =>
    -- The item sends no field elsewhere: it emits its jump with the displacement.
    obtain rfl := List.mem_singleton.mp hsite
    refine ⟨.jumpIf .overflow, List.mem_map.mpr ⟨_, ?_, rfl⟩⟩
    rw [links_append, Nat.zero_add, ← hoffset, block, links_append, (s.straight_lead _).links_eq, ← offset_ready]
    exact List.mem_append_right _ (mem_links_plusLoop _ token index)
  · next hne =>
    have htarget : (s.ready item).patchTarget item = s'.offset := by
      rw [hc.offset_eq_behind]
      unfold patchTarget
      split
      · exact absurd rfl (hne _ _)
      · rfl
    rw [fixes_ready] at hsite
    refine ⟨kind, List.mem_map.mpr ⟨_, hlink, ?_⟩⟩
    rw [htarget, Link.redirect, sending, if_pos hsite]

/-- **An item leads the fields that it patches to their target.** -/
theorem Compiled.leadsTo (h : s.Consistent) (hc : Compiled (s.ready item) item s') (hsize : s'.offset < 2 ^ 31)
    {site : Nat}
    (hsite : site ∈ (s.ready item).patched item) : s'.code.LeadsTo site ((s.ready item).patchTarget item) := by
  obtain ⟨block, hholds, hlinks⟩ := h.fields
  obtain ⟨kind, hlink⟩ := hc.exists_link_of_patched hholds hlinks hsite
  have htarget := (s.ready item).patchTarget_le item
  rw [← hc.offset_eq_behind] at htarget
  exact (h.fields_step hc hholds hlinks).1.leadsTo (Nat.le_of_lt hsize) (Nat.lt_of_le_of_lt htarget hsize) hlink

end Compiler

/-! ### The ledger -/

/-- The fields of branches that were placed without a target, those that were led to their target, and their targets. -/
structure Ledger where
  placed : List Nat := []
  patched : List Nat := []
  targets : List Nat := []

namespace Compiler

/-- The ledger behind an item that compiles. -/
def entered (s : Compiler) (l : Ledger) (item : Item) : Ledger :=
  ⟨l.placed ++ (s.ready item).placed item, l.patched ++ (s.ready item).patched item,
    l.targets ++ ((s.ready item).patched item).map fun _ => (s.ready item).patchTarget item⟩

/-- The ledger behind items, up to the first that fails. -/
def ledgerOf (s : Compiler) (l : Ledger) : List Item → Ledger
  | [] => l
  | item :: items =>
    match compileItem item s with
    | .ok _ s' => ledgerOf s' (s.entered l item) items
    | .error _ _ => l

/-- The ledger behind several lists of tokens. -/
def ledgerFrom (s : Compiler) (l : Ledger) : List (List Token) → Ledger
  | [] => l
  | tokens :: chunks => ledgerFrom (s.fed tokens) (ledgerOf (s.heard tokens) l (items tokens)) chunks

/-- The ledger of a compiler that was fed several lists of tokens. -/
def ledger (options : Options) (chunks : List (List Token)) : Ledger :=
  ledgerFrom (initial options) {} chunks

/-- What was placed was patched or waits, each field apart from the others, and what was patched leads to its target. -/
structure Balanced (s : Compiler) (l : Ledger) : Prop where
  consistent : s.Consistent
  balance : l.placed.Perm (l.patched ++ s.openSites)
  apart : l.placed.Pairwise fun a b => a + 4 ≤ b
  inside : ∀ site ∈ l.placed, site + 4 ≤ s.offset
  fixups : s.stats.fixups = l.patched.length
  fields : ∃ block, s.code.Holds block ∧ (∀ site ∈ s.openSites, ∃ kind, ⟨kind, site, 0⟩ ∈ links 0 block) ∧
    ∀ link ∈ links 0 block, link.disp = 0 → link.site ∈ l.placed
  led : List.Forall₂ s.code.LeadsTo l.patched l.targets

/-- What becomes of the code: it grows, and changes nowhere but in fields that wait. -/
structure Keeps (s t : Compiler) : Prop where
  offset_le : s.offset ≤ t.offset
  openSites : ∀ site ∈ t.openSites, site ∈ s.openSites ∨ s.offset ≤ site
  bytes : ∀ k < s.offset, (∀ site ∈ s.openSites, ¬(site ≤ k ∧ k < site + 4)) →
    t.code.bytes.toList[k]? = s.code.bytes.toList[k]?

section Runs

variable {s s' t u : Compiler} {item : Item} {l : Ledger}

theorem Keeps.of_eq (hcode : t.code = s.code) (hsites : t.openSites = s.openSites) : s.Keeps t := by
  refine ⟨Nat.le_of_eq (congrArg CodeBuffer.offset hcode.symm), fun site hsite => .inl ?_, fun k _ _ => by rw [hcode]⟩
  rwa [← hsites]

theorem Keeps.trans (h : s.Keeps t) (h' : t.Keeps u) : s.Keeps u := by
  refine ⟨Nat.le_trans h.offset_le h'.offset_le, fun site hsite => ?_, fun k hk hout => ?_⟩
  · rcases h'.openSites site hsite with hsite | hsite
    · exact h.openSites site hsite
    · exact .inr (Nat.le_trans h.offset_le hsite)
  · rw [h'.bytes k (Nat.lt_of_lt_of_le hk h.offset_le) fun site hsite => ?_, h.bytes k hk hout]
    rcases h.openSites site hsite with hsite | hsite
    · exact hout site hsite
    · omega

theorem placed_bounds (hc : Compiled (s.ready item) item s') {site : Nat} (h : site ∈ (s.ready item).placed item) :
    s.offset < site ∧ site + 4 ≤ s'.offset := by
  obtain ⟨kind, d, hlink, -⟩ := mem_links_block h
  rw [hc.offset_eq]
  exact site_bounds_of_mem_links hlink

theorem mem_of_mem_patched (hc : Compiled (s.ready item) item s') {site : Nat}
    (h : site ∈ (s.ready item).patched item) : site ∈ s.openSites ∨ site ∈ (s.ready item).placed item := by
  have hperm := hc.openSites_perm_ready
  exact List.mem_append.mp (hperm.mem_iff.mp (List.mem_append_right _ h))

/-- An item changes the code in fields that waited only. -/
theorem Keeps.step (h : s.Consistent) (hc : Compiled (s.ready item) item s') : s.Keeps s' := by
  have hperm := hc.openSites_perm_ready
  refine ⟨?_, fun site hsite => ?_, fun k hk hout => ?_⟩
  · rw [hc.offset_eq]
    exact Nat.le_add_right _ _
  · rcases List.mem_append.mp (hperm.mem_iff.mp (List.mem_append_left _ hsite)) with hopen | hplaced
    · exact .inl hopen
    · exact .inr (Nat.le_of_lt (placed_bounds hc hplaced).1)
  · obtain ⟨block, hholds, hlinks⟩ := h.fields
    have hoffset : s.offset = codeSize block := CodeBuffer.offset_eq_codeSize hholds
    have hbytes : s'.code.bytes.toList = _ := (h.fields_step hc hholds hlinks).1
    have hold : s.code.bytes.toList = _ := hholds
    rw [hbytes, hold, getElem?_assemble_redirect, assemble_append, List.getElem?_append_left]
    · rwa [length_assemble, ← hoffset]
    · intro link hlink hsome
      rw [Nat.zero_add]
      have hfixes : link.site ∈ s.fixes item := by
        unfold sending at hsome
        split at hsome
        · assumption
        · cases hsome
      have hpatched := mem_patched_of_mem_fixes hfixes
      rcases mem_of_mem_patched hc hpatched with hopen | hplaced
      · exact hout link.site hopen
      · have hbounds := placed_bounds hc hplaced
        omega

theorem Balanced.fields_step (h : s.Balanced l) (hsize : s.offset < 2 ^ 31 - 4096)
    (hc : Compiled (s.ready item) item s') :
    ∃ block, s'.code.Holds block ∧ (∀ site ∈ s'.openSites, ∃ kind, ⟨kind, site, 0⟩ ∈ links 0 block) ∧
      ∀ link ∈ links 0 block, link.disp = 0 → link.site ∈ (s.entered l item).placed := by
  obtain ⟨block, hholds, hlinks, hknown⟩ := h.fields
  have hoffset : s.offset = codeSize block := CodeBuffer.offset_eq_codeSize hholds
  obtain ⟨hholds', hlinks'⟩ := h.consistent.fields_step hc hholds hlinks
  refine ⟨_, hholds', hlinks', fun link hlink hzero => ?_⟩
  rw [links_redirect] at hlink
  obtain ⟨old, hold, rfl⟩ := List.mem_map.mp hlink
  rw [Link.site_redirect]
  by_cases hfixes : old.site ∈ s.fixes item
  · have hpatched := mem_patched_of_mem_fixes hfixes
    rcases mem_of_mem_patched hc hpatched with hopen | hplaced
    · exact List.mem_append_left _ (h.balance.mem_iff.mpr (List.mem_append_right _ hopen))
    · exact List.mem_append_right _ hplaced
  · have hsame : old.redirect (sending (s.fixes item) s'.offset) = old := by
      rw [Link.redirect, sending, if_neg hfixes]
    rw [hsame] at hzero
    rw [links_append, Nat.zero_add, ← hoffset] at hold
    rcases List.mem_append.mp hold with hold | hold
    · exact List.mem_append_left _ (hknown old hold hzero)
    · exact List.mem_append_right _ (mem_placed_of_disp_eq_zero h.consistent hsize hold hzero)

/-- A field is patched at most once, and does not wait from then on. -/
theorem Balanced.nodup (h : s.Balanced l) : (l.patched ++ s.openSites).Nodup := by
  have hplaced : l.placed.Nodup := h.apart.imp fun hab heq => by omega
  exact h.balance.nodup_iff.mp hplaced

theorem Balanced.disjoint (h : s.Balanced l) {site other : Nat} (hsite : site ∈ l.patched)
    (hother : other ∈ s.openSites) : site + 4 ≤ other ∨ other + 4 ≤ site := by
  have hne : site ≠ other := (List.nodup_append.mp h.nodup).2.2 site hsite other hother
  have hsymm : Std.Symm fun a b : Nat => a + 4 ≤ b ∨ b + 4 ≤ a := ⟨fun _ _ => Or.symm⟩
  have happart : l.placed.Pairwise fun a b => a + 4 ≤ b ∨ b + 4 ≤ a := h.apart.imp Or.inl
  refine happart.forall ?_ ?_ hne
  · exact h.balance.mem_iff.mpr (List.mem_append_left _ hsite)
  · exact h.balance.mem_iff.mpr (List.mem_append_right _ hother)

/-- The fields that were patched lead to their targets behind an item as well. -/
theorem Balanced.led_step (h : s.Balanced l) (hc : Compiled (s.ready item) item s') (hsize : s'.offset < 2 ^ 31) :
    List.Forall₂ s'.code.LeadsTo (s.entered l item).patched (s.entered l item).targets := by
  have hkeeps := Keeps.step h.consistent hc
  have hold : ∀ site ∈ l.patched, ∀ target, s.code.LeadsTo site target → s'.code.LeadsTo site target := by
    intro site hsite target hleads
    have hinside := h.inside site (h.balance.mem_iff.mpr (List.mem_append_left _ hsite))
    refine hleads.congr fun k hlow hhigh => hkeeps.bytes k (by omega) fun other hother => ?_
    have := h.disjoint hsite hother
    omega
  refine List.rel_append ?_ ?_
  · exact ((List.forall₂_and_left _ _).mpr ⟨hold, h.led⟩).imp fun site target hboth => hboth.1 target hboth.2
  · rw [List.forall₂_map_right_iff, List.forall₂_same]
    exact fun site hsite => hc.leadsTo h.consistent hsize hsite

/-- **What one item preserves.** -/
theorem Balanced.step (h : s.Balanced l) (hsize : s'.offset < 2 ^ 31 - 4096) (hc : Compiled (s.ready item) item s')
    (hfixups : s'.stats.fixups = s.stats.fixups + ((s.ready item).patched item).length) :
    s'.Balanced (s.entered l item) := by
  have hgrows : s.offset ≤ s'.offset := (Keeps.step h.consistent hc).offset_le
  have hperm := hc.openSites_perm_ready
  constructor
  · exact h.consistent.step hc
  · -- what waited is handed on by the item, with what it places and without what it patches
    have hitem : (s.openSites ++ (s.ready item).placed item).Perm ((s.ready item).patched item ++ s'.openSites) :=
      hperm.symm.trans List.perm_append_comm
    have hplaced := h.balance.append_right ((s.ready item).placed item)
    rw [List.append_assoc] at hplaced
    have hall := hplaced.trans (hitem.append_left l.patched)
    rwa [← List.append_assoc] at hall
  · refine List.pairwise_append.mpr ⟨h.apart, ?_, fun a ha b hb => ?_⟩
    · have hlength := length_placed_le (s.ready item) item
      generalize (s.ready item).placed item = sites at hlength
      rcases sites with _ | ⟨site, _ | ⟨_, _⟩⟩
      · exact .nil
      · exact List.pairwise_singleton _ _
      · simp at hlength
    · have hinside := h.inside a ha
      have hbounds := placed_bounds hc hb
      omega
  · intro site hsite
    rcases List.mem_append.mp hsite with hsite | hsite
    · exact Nat.le_trans (h.inside site hsite) hgrows
    · exact (placed_bounds hc hsite).2
  · rw [hfixups, h.fixups, entered, List.length_append]
  · exact h.fields_step (Nat.lt_of_le_of_lt hgrows hsize) hc
  · exact h.led_step hc (by omega)

theorem Balanced.met (h : s.Balanced l) (token : Token) : (s.met token).Balanced l :=
  ⟨h.consistent.met token, h.balance, h.apart, h.inside, h.fixups, h.fields, h.led⟩

theorem Balanced.heard (h : s.Balanced l) (tokens : List Token) :
    (s.heard tokens).Balanced l ∧ s.Keeps (s.heard tokens) := by
  have hconsistent := h.consistent.heard tokens
  obtain ⟨headers, hheard⟩ := s.exists_heard_eq tokens
  rw [hheard] at hconsistent ⊢
  exact ⟨⟨hconsistent, h.balance, h.apart, h.inside, h.fixups, h.fields, h.led⟩, .of_eq rfl rfl⟩

/-- **What several items preserve**, up to the first that fails. -/
theorem Balanced.run (h : s.Balanced l) {items : List Item}
    (hsize : (stateOf (items.forM compileItem s)).offset < 2 ^ 31 - 4096) :
    (stateOf (items.forM compileItem s)).Balanced (s.ledgerOf l items) ∧
      s.Keeps (stateOf (items.forM compileItem s)) := by
  induction items generalizing s l with
  | nil => exact ⟨h, .of_eq rfl rfl⟩
  | cons item items ih =>
    have hstart := Nat.lt_of_le_of_lt ((regular_forM (item :: items)).grows s) hsize
    rw [ledgerOf]
    rcases compileItem_cases h.consistent hstart item with ⟨s', hrun, hcompiled, hfixups⟩ | ⟨-, e, hrun⟩
    · rw [forM_cons_of_ok hrun] at hsize ⊢
      rw [hrun]
      have hnext := Nat.lt_of_le_of_lt ((regular_forM items).grows s') hsize
      obtain ⟨hbalanced, hkeeps⟩ := ih (h.step hnext hcompiled hfixups) hsize
      exact ⟨hbalanced, (Keeps.step h.consistent hcompiled).trans hkeeps⟩
    · rw [forM_cons_of_error hrun, hrun]
      exact ⟨h.met _, .of_eq rfl rfl⟩

theorem Balanced.feed (h : s.Balanced l) {chunks : List (List Token)}
    (hsize : (chunks.foldl fed s).offset < 2 ^ 31 - 4096) :
    (chunks.foldl fed s).Balanced (s.ledgerFrom l chunks) ∧ s.Keeps (chunks.foldl fed s) := by
  induction chunks generalizing s l with
  | nil => exact ⟨h, .of_eq rfl rfl⟩
  | cons tokens chunks ih =>
    have hfed : (stateOf ((items tokens).forM compileItem (s.heard tokens))).offset < 2 ^ 31 - 4096 := by
      rw [← compileTokens_eq]
      exact Nat.lt_of_le_of_lt (offset_le_foldl_fed (s.fed tokens) chunks) hsize
    obtain ⟨hheard, hsame⟩ := h.heard tokens
    obtain ⟨hbalanced, hkeeps⟩ := hheard.run hfed
    rw [← compileTokens_eq] at hbalanced hkeeps
    obtain ⟨hlast, hrest⟩ := ih hbalanced hsize
    exact ⟨hlast, (hsame.trans hkeeps).trans hrest⟩

theorem balanced_initial (options : Options) : (initial options).Balanced {} where
  consistent := consistent_initial options
  balance := .nil
  apart := .nil
  inside := fun _ hsite => absurd hsite List.not_mem_nil
  fixups := rfl
  fields := by
    refine ⟨ForthElf.printNumber, holds_initial options, fun _ hsite => absurd hsite List.not_mem_nil, ?_⟩
    have hall : (links 0 ForthElf.printNumber).all (fun link => link.disp ≠ 0) := by decide +kernel
    exact fun link hlink hzero => absurd hzero (of_decide_eq_true (List.all_eq_true.mp hall link hlink))
  led := .nil

theorem prefix_of_finish {program : Program} (h : finish s = .ok program t) : s.code.bytes.toList <+: program.code := by
  rw [finish_eq_of_complete (complete_of_finish h)] at h
  have hcode := (Compilation.build_ok h).1
  rw [hcode, code_ended, CodeBuffer.append, Array.toList_append]
  exact List.prefix_append _ _

end Runs

end Compiler

open Compiler

/-- **Each field that is placed waits in one place until it is patched, once,** and leads to its target from then on.
Code changes nowhere but in fields that wait, and none waits in a program that is complete. -/
theorem fixups_conserved {options : Options} {chunks : List (List Token)}
    (hsize : (reached options chunks).offset < 2 ^ 31 - 4096) :
    (reached options chunks).Balanced (ledger options chunks) ∧ (ledger options chunks).patched.Nodup ∧
      (∀ more, (reached options (chunks ++ more)).offset < 2 ^ 31 - 4096 →
        (reached options chunks).Keeps (reached options (chunks ++ more))) ∧
      ∀ program t, finish (reached options chunks) = .ok program t →
        (reached options chunks).openSites = [] ∧ (ledger options chunks).placed.Perm (ledger options chunks).patched ∧
          (reached options chunks).code.bytes.toList <+: program.code := by
  have hbalanced : (reached options chunks).Balanced (ledger options chunks) :=
    ((balanced_initial options).feed hsize).1
  refine ⟨hbalanced, (List.nodup_append.mp hbalanced.nodup).1, fun more hmore => ?_, fun program t hfinish => ?_⟩
  · unfold reached at hmore ⊢
    rw [List.foldl_append] at hmore ⊢
    exact (hbalanced.feed hmore).2
  · obtain ⟨hcurrent, hcontrol, hwaiting⟩ := ensureComplete_eq_ok_iff.mp (complete_of_finish hfinish)
    have hnone : (reached options chunks).openSites = [] := by
      rw [openSites, hcurrent, hcontrol, hwaiting]
      rfl
    have hbalance := hbalanced.balance
    rw [hnone, List.append_nil] at hbalance
    exact ⟨hnone, hbalance, prefix_of_finish hfinish⟩

/-- The second list fails at a colon inside of a construct, with a field that waits; the third one goes on. -/
theorem fixups_conserved_resumed : ∃ chunks : List (List Token),
    chunks.map (·.map (·.text)) = [["1", "if", "2", "else"], ["3", ":", "f", "4"], ["then", ":", "f", "5", ";"]] ∧
      (reached {} chunks).offset < 2 ^ 31 - 4096 ∧ (reached {} chunks).Balanced (ledger {} chunks) ∧
      (ledger {} chunks).patched.Nodup := by
  let chunks : List (List Token) :=
    [[⟨"1", ⟨1, 1⟩⟩, ⟨"if", ⟨1, 3⟩⟩, ⟨"2", ⟨1, 6⟩⟩, ⟨"else", ⟨1, 8⟩⟩],
      [⟨"3", ⟨1, 1⟩⟩, ⟨":", ⟨1, 3⟩⟩, ⟨"f", ⟨1, 5⟩⟩, ⟨"4", ⟨1, 7⟩⟩],
      [⟨"then", ⟨1, 1⟩⟩, ⟨":", ⟨1, 6⟩⟩, ⟨"f", ⟨1, 8⟩⟩, ⟨"5", ⟨1, 10⟩⟩, ⟨";", ⟨1, 12⟩⟩]]
  have hsize : (reached {} chunks).offset < 2 ^ 31 - 4096 := by decide +kernel
  obtain ⟨hbalanced, hnodup, -⟩ := fixups_conserved hsize
  exact ⟨chunks, rfl, hsize, hbalanced, hnodup⟩

end ForthElf
