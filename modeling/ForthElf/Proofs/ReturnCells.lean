import ForthElf.Proofs.StackPointer

/-!
# Cells on the return stack

A definition keeps two cells on the return stack for each counted loop and one for each `>r`.  The compiler counts them
from token to token, and a run follows its jumps.

* `moved items k` — the `>r`s less the `r>`s in front of item `k`;
* `Paired items h e` — the cells that the definition from `h` to `e` keeps on the return stack are paired in its arms
  and loops;
* `Compilation.depth k` — the cells that the compiler counts in front of item `k`;
* `Compilation.Counted h k` — what it counts from, preserved from item to item in `Counted.step` and in the whole body
  in `IsBody.counted`;
* `IsBody.depth_succ`, `IsBody.depth_of_joined`, `IsBody.depth_of_loop` — **the count follows `rsp`** from item to item,
  is the same at both ends of a jump and around a counted loop;
* `Compilation.Fits p` — what the `exit` at `p` adds to `rsp` fits into its operand, as it does in any code that is not
  huge by `fits_of_length`.
-/

namespace ForthElf

/-! ### Pairing -/

/-- The `>r`s less the `r>`s in front of item `k`. -/
def moved (items : List Item) (k : Nat) : Int :=
  (items.take k).countP (Item.spells .toReturn) - (items.take k).countP (Item.spells .fromReturn)

def keywordAt (items : List Item) (k : Nat) : Option Keyword :=
  (items[k]?).bind Item.keyword?

/-- Behind item `k` comes an `exit`, in front of item `e` and with no word of a construct in between. -/
def LeadsToExit (items : List Item) (e k : Nat) : Prop :=
  ∃ x < e, k < x ∧ keywordAt items x = some .exit ∧ ∀ m < x, k < m → roleAt items m = .plain

instance (items : List Item) (e k : Nat) : Decidable (LeadsToExit items e k) :=
  inferInstanceAs (Decidable (∃ x < e, _ ∧ _ ∧ ∀ m < x, _))

/-- In the definition from item `h` to item `e` the cells that are kept on the return stack are paired. -/
structure Paired (items : List Item) (h e : Nat) : Prop where
  /-- No cell is taken that was not put there. -/
  nonneg : ∀ k ≤ e, h < k → moved items h ≤ moved items k
  closed : moved items e = moved items h
  /-- Each arm and each part of a loop leaves as many cells as it finds. -/
  arms : ∀ j < e, ∀ i ∈ opener? items j, h < i → moved items j = moved items (i + 1)
  unloops : ∀ k < e, h < k → keywordAt items k = some .unloop → LeadsToExit items e k

instance (items : List Item) (h e : Nat) : Decidable (Paired items h e) :=
  decidable_of_iff
    ((∀ k ≤ e, h < k → moved items h ≤ moved items k) ∧ moved items e = moved items h ∧
      (∀ j < e, ∀ i ∈ opener? items j, h < i → moved items j = moved items (i + 1)) ∧
      ∀ k < e, h < k → keywordAt items k = some .unloop → LeadsToExit items e k)
    ⟨fun ⟨hnonneg, hclosed, harms, hunloops⟩ => ⟨hnonneg, hclosed, harms, hunloops⟩,
      fun h => ⟨h.nonneg, h.closed, h.arms, h.unloops⟩⟩

theorem moved_succ {items : List Item} {k : Nat} {item : Item} (h : items[k]? = some item) :
    moved items (k + 1) =
      moved items k + (item.spells .toReturn).toInt - (item.spells .fromReturn).toInt := by
  have htake : items.take (k + 1) = items.take k ++ [item] := by
    rw [List.take_add_one, h]
    rfl
  rw [moved, moved, htake, List.countP_append, List.countP_append]
  cases hto : item.spells .toReturn <;> cases hfrom : item.spells .fromReturn <;>
    simp [hto, hfrom] <;> omega

theorem keywordAt_of_getElem? {items : List Item} {k : Nat} {item : Item} (h : items[k]? = some item) :
    keywordAt items k = item.keyword? := by
  rw [keywordAt, h]
  rfl

theorem keywordAt_eq_some {items : List Item} {k : Nat} {keyword : Keyword} :
    keywordAt items k = some keyword ↔ ∃ token index, items[k]? = some (.keyword keyword token index) := by
  unfold keywordAt
  cases items[k]? with
  | none => simp
  | some item => cases item <;> simp [Item.keyword?]

/-! ### Kinds of items -/

/-- Whether an item is the start or the end of a definition. -/
def Item.isBoundary : Item → Bool
  | .define _ _ _ | .keyword .semicolon _ _ => true
  | _ => false

theorem Item.keyword?_of_isBoundary {item : Item} (h : item.isBoundary = false) :
    item.keyword? ≠ some .semicolon := by
  cases item with
  | keyword keyword token index =>
    rintro ⟨⟩
    cases h
  | _ => nofun

theorem Item.role_of_keyword? {item : Item} {keyword : Keyword} (h : item.keyword? = some keyword) :
    item.role = keyword.role := by
  cases item with
  | keyword k token index =>
    cases h
    rfl
  | _ => cases h

theorem Item.depth_of_unloop {item : Item} (h : item.keyword? = some .unloop) : item.depth = 0 := by
  cases item with
  | keyword keyword token index =>
    cases h
    rfl
  | _ => cases h

theorem Item.role_of_depth {item : Item} (h : item.depth < 0) : item.role ≠ .plain := by
  cases item with
  | keyword keyword token index => cases keyword <;> simp [Item.depth] at h <;> simp [Item.role, Keyword.role]
  | _ => simp [Item.depth] at h

namespace Compilation

open Compiler

variable {c : Compilation} {h e k : Nat} {item : Item}

/-- The cells that are on the return stack in front of item `k`, as the compiler counts them. -/
def depth (c : Compilation) (k : Nat) : Nat :=
  (c.state k).cellsToDrop

/-! ### What the compiler counts in a body -/

theorem IsBody.isBoundary_eq (hb : c.IsBody h e) (hk : h < k) (hke : k < e) (hitem : c.items[k]? = some item) :
    item.isBoundary = false := by
  unfold Item.isBoundary
  split
  · next colon name index =>
    have hlt := hb.lt_of_lt ⟨colon, name, index, hitem⟩ hk
    omega
  · -- A `;` here would close another definition.
    obtain ⟨b, opening, ho, hopening, hcloses⟩ := exists_closesItem hitem (.inr rfl)
    have hdefinition : c.IsDefinition b := by
      cases opening with
      | define colon name index' => exact ⟨colon, name, index', hopening⟩
      | _ => cases hcloses
    have hbk := opener?_lt ho
    have hle := hb.le_of_mem_brackets (mem_brackets_of_opener? ho) hk
    rcases Nat.lt_or_eq_of_le hle with hlt | rfl
    · have hlt' := hb.lt_of_lt hdefinition hlt
      omega
    · have heq := opener?_inj ho hb.closed
      omega
  · rfl

theorem returnCells_of_isBoundary (hitem : c.items[k]? = some item) (h : item.isBoundary = true) :
    (c.state (k + 1)).returnCells = 0 := by
  refine (congrArg Prod.fst (c.compiled hitem).counts).trans ?_
  unfold Item.isBoundary at h
  split at h
  · rfl
  · rfl
  · cases h

theorem returnCells_succ (hitem : c.items[k]? = some item) (hinner : item.isBoundary = false) :
    (c.state (k + 1)).returnCells =
      (c.state k).returnCells + (item.spells .toReturn).toNat - (item.spells .fromReturn).toNat := by
  refine (congrArg Prod.fst (c.compiled hitem).counts).trans ?_
  cases item with
  | define colon name index => cases hinner
  | keyword keyword token index =>
    cases keyword <;> first | exact returnCells_ready _ _ | cases hinner
  | word token index =>
    simp only [countsAfter, Item.spells, resolve_ready]
    cases hp : Primitive.lookup? token.text with
    | some p =>
      rw [resolve, hp, returnCells_ready]
      cases p <;> rfl
    | none =>
      split
      · next p hr =>
        rw [lookup?_of_resolve hr] at hp
        cases hp
      · exact returnCells_ready _ _
      · exact returnCells_ready _ _
  | _ => exact returnCells_ready _ _

theorem unlooped_succ (hitem : c.items[k]? = some item) (hinner : item.isBoundary = false)
    (hexit : item.keyword? ≠ some .exit) :
    (c.state (k + 1)).unlooped = (c.state k).unlooped + (item.keyword? == some .unloop).toNat := by
  refine (congrArg (fun counts => counts.2.1) (c.compiled hitem).counts).trans ?_
  cases item with
  | define colon name index => cases hinner
  | keyword keyword token index =>
    cases keyword <;> first
      | exact unlooped_ready _ _
      | exact congrArg Nat.succ (unlooped_ready _ _)
      | exact absurd rfl hexit
      | cases hinner
  | word token index =>
    simp only [countsAfter, resolve_ready]
    split <;> exact unlooped_ready _ _
  | _ => exact unlooped_ready _ _

theorem unlooped_eq_of_ne (hitem : c.items[k]? = some item) (hinner : item.isBoundary = false)
    (hexit : item.keyword? ≠ some .exit) (hunloop : item.keyword? ≠ some .unloop) :
    (c.state (k + 1)).unlooped = (c.state k).unlooped := by
  rw [unlooped_succ hitem hinner hexit, beq_false_of_ne hunloop]
  rfl

theorem unlooped_succ_of_exit (hitem : c.items[k]? = some item) (hexit : item.keyword? = some .exit) :
    (c.state (k + 1)).unlooped = 0 := by
  refine (congrArg (fun counts => counts.2.1) (c.compiled hitem).counts).trans ?_
  cases item with
  | keyword keyword token index =>
    cases hexit
    rfl
  | _ => cases hexit

/-- What the compiler counts in front of item `k` of the body that item `h` starts. -/
structure Counted (c : Compilation) (h k : Nat) : Prop where
  returnCells : ((c.state k).returnCells : Int) = moved c.items k - moved c.items h
  unlooped : (c.state k).unlooped ≤ loopsAt c.items k
  /-- Dropped loops are counted up to the next `exit`. -/
  since : 0 < (c.state k).unlooped → ∃ u, h < u ∧ u < k ∧ keywordAt c.items u = some .unloop ∧
    ∀ x < k, u < x → keywordAt c.items x ≠ some .exit

theorem Counted.unlooped_eq_zero (hc : c.Counted h k) (hp : Paired c.items h e) (hke : k ≤ e)
    (hrole : roleAt c.items k ≠ .plain) : (c.state k).unlooped = 0 := by
  refine Nat.eq_zero_of_not_pos fun hpos => ?_
  obtain ⟨u, hhu, huk, hunloop, hnone⟩ := hc.since hpos
  obtain ⟨x, hxe, hux, hexit, hplain⟩ := hp.unloops u (Nat.lt_of_lt_of_le huk hke) hhu hunloop
  rcases Nat.lt_trichotomy x k with hlt | rfl | hlt
  · exact hnone x hlt hux hexit
  · obtain ⟨token, index, hitem⟩ := keywordAt_eq_some.mp hexit
    exact hrole (roleAt_of_getElem? hitem)
  · exact hrole (hplain k hlt huk)

theorem IsBody.moved_start (hb : c.IsBody h e) : moved c.items (h + 1) = moved c.items h := by
  obtain ⟨colon, name, index, hitem⟩ := hb.definition
  rw [moved_succ hitem]
  simp [Item.spells]

theorem counted_start (hb : c.IsBody h e) : c.Counted h (h + 1) := by
  obtain ⟨colon, name, index, hitem⟩ := hb.definition
  have hcells := returnCells_of_isBoundary hitem rfl
  have hunlooped : (c.state (h + 1)).unlooped = 0 :=
    congrArg (fun counts => counts.2.1) (c.compiled hitem).counts
  refine ⟨?_, ?_, ?_⟩
  · rw [hcells, hb.moved_start]
    omega
  · rw [hunlooped]
    exact Nat.zero_le _
  · rw [hunlooped]
    intro hpos
    cases hpos

theorem unlooped_lt_of_unloop (hunloop : c.IsKeyword k .unloop) : (c.state k).unlooped < loopsAt c.items k := by
  obtain ⟨token, index, hitem⟩ := hunloop
  have hadmits := (c.compiled hitem).admits
  simp only [Admits, AdmitsKeyword, unlooped_ready, control_ready] at hadmits
  rwa [openLoops_eq (Nat.le_of_lt (List.getElem?_eq_some_iff.mp hitem).1)] at hadmits

namespace Counted

variable (hc : c.Counted h k) (hp : Paired c.items h e) (hk : h < k) (hke : k < e)
  (hitem : c.items[k]? = some item) (hinner : item.isBoundary = false)
include hc hp hk hke hitem hinner

theorem returnCells_step : ((c.state (k + 1)).returnCells : Int) = moved c.items (k + 1) - moved c.items h := by
  have hnonneg := hp.nonneg (k + 1) hke (Nat.lt_succ_of_lt hk)
  have hbefore := hc.returnCells
  rw [moved_succ hitem] at hnonneg ⊢
  rw [returnCells_succ hitem hinner]
  generalize item.spells .toReturn = put at hnonneg ⊢
  generalize item.spells .fromReturn = taken at hnonneg ⊢
  cases put <;> cases taken <;> simp at hnonneg ⊢ <;> omega

omit hk in
theorem unlooped_step : (c.state (k + 1)).unlooped ≤ loopsAt c.items (k + 1) := by
  by_cases hexit : item.keyword? = some .exit
  · rw [unlooped_succ_of_exit hitem hexit]
    exact Nat.zero_le _
  by_cases hunloop : item.keyword? = some .unloop
  · have hlt := unlooped_lt_of_unloop (keywordAt_eq_some.mp ((keywordAt_of_getElem? hitem).trans hunloop))
    rw [unlooped_succ hitem hinner hexit, loopsAt_of_depth hitem (Item.depth_of_unloop hunloop), hunloop]
    exact hlt
  rw [unlooped_eq_of_ne hitem hinner hexit hunloop]
  by_cases hdepth : item.depth < 0
  · -- A loop that ends was not dropped.
    have hrole : roleAt c.items k ≠ .plain := by
      rw [roleAt_of_getElem? hitem]
      exact Item.role_of_depth hdepth
    rw [hc.unlooped_eq_zero hp (Nat.le_of_lt hke) hrole]
    exact Nat.zero_le _
  · have hloops := loopsAt_succ hitem
    have hbefore := hc.unlooped
    omega

omit hp hke in
theorem since_step (hpos : 0 < (c.state (k + 1)).unlooped) :
    ∃ u, h < u ∧ u < k + 1 ∧ keywordAt c.items u = some .unloop ∧
      ∀ x < k + 1, u < x → keywordAt c.items x ≠ some .exit := by
  have hexit : item.keyword? ≠ some .exit := fun hexit => by
    rw [unlooped_succ_of_exit hitem hexit] at hpos
    cases hpos
  have hkeyword := keywordAt_of_getElem? hitem
  by_cases hunloop : item.keyword? = some .unloop
  · exact ⟨k, hk, Nat.lt_succ_self k, hkeyword.trans hunloop, fun x hx hkx => by omega⟩
  rw [unlooped_eq_of_ne hitem hinner hexit hunloop] at hpos
  obtain ⟨u, hhu, huk, hu, hnone⟩ := hc.since hpos
  refine ⟨u, hhu, Nat.lt_succ_of_lt huk, hu, fun x hx hux => ?_⟩
  rcases Nat.lt_or_eq_of_le (Nat.le_of_lt_succ hx) with hlt | rfl
  · exact hnone x hlt hux
  · rwa [hkeyword]

/-- **What one item preserves.** -/
theorem step : c.Counted h (k + 1) :=
  ⟨hc.returnCells_step hp hk hke hitem hinner, hc.unlooped_step hp hke hitem hinner, hc.since_step hk hitem hinner⟩

end Counted

/-- **What a body preserves.** -/
theorem IsBody.counted (hb : c.IsBody h e) (hp : Paired c.items h e) (hk : h < k) (hke : k ≤ e) : c.Counted h k := by
  induction k, hk using Nat.le_induction with
  | base => exact counted_start hb
  | succ k hk ih =>
    have hlength := Nat.lt_trans hke hb.lt_length
    have hitem := List.getElem?_eq_getElem hlength
    exact (ih (Nat.le_of_succ_le hke)).step hp hk hke hitem (hb.isBoundary_eq hk hke hitem)

namespace IsBody

variable (hb : c.IsBody h e) (hp : Paired c.items h e)
include hb hp

/-- **What is on the return stack**: two cells for each open loop that was not dropped, and those of `>r`. -/
theorem depth_eq (hk : h < k) (hke : k ≤ e) :
    (c.depth k : Int) =
      2 * (loopsAt c.items k - (c.state k).unlooped) + (moved c.items k - moved c.items h) := by
  have hcounted := hb.counted hp hk hke
  have hunlooped := hcounted.unlooped
  rw [← hcounted.returnCells, depth, cellsToDrop, openLoops_eq (Nat.le_trans hke (Nat.le_of_lt hb.lt_length))]
  omega

/-- From item to item the count follows `rsp`. -/
theorem depth_succ (hk : h < k) (hke : k < e) (hitem : c.items[k]? = some item) (hexit : item.keyword? ≠ some .exit) :
    8 * (c.depth (k + 1) : Int) = 8 * c.depth k - climb (item.moving (c.depth k)) := by
  rw [climb_moving _ hexit, hb.depth_eq hp hk (Nat.le_of_lt hke), hb.depth_eq hp (Nat.lt_succ_of_lt hk) hke,
    loopsAt_succ hitem, moved_succ hitem, unlooped_succ hitem (hb.isBoundary_eq hk hke hitem) hexit]
  generalize (item.keyword? == some .unloop) = unloops
  cases unloops <;> simp only [Bool.toNat_false, Bool.toNat_true, Bool.toInt_false, Bool.toInt_true] <;> omega

theorem unlooped_eq_zero (hk : h < k) (hke : k ≤ e) (hrole : roleAt c.items k ≠ .plain) :
    (c.state k).unlooped = 0 :=
  (hb.counted hp hk hke).unlooped_eq_zero hp hke hrole

theorem unlooped_behind (hk : h < k) (hke : k < e) (hrole : roleAt c.items k ≠ .plain) :
    (c.state (k + 1)).unlooped = 0 := by
  have hlength := Nat.lt_trans hke hb.lt_length
  have hitem := List.getElem?_eq_getElem hlength
  generalize c.items[k] = item at hitem
  have hkeyword : ∀ keyword, keyword.role = .plain → item.keyword? ≠ some keyword := by
    intro keyword hplain heq
    rw [roleAt_of_getElem? hitem, Item.role_of_keyword? heq] at hrole
    exact hrole hplain
  rw [unlooped_eq_of_ne hitem (hb.isBoundary_eq hk hke hitem) (hkeyword _ rfl) (hkeyword _ rfl)]
  exact hb.unlooped_eq_zero hp hk (Nat.le_of_lt hke) hrole

theorem depth_of_opener? {i j : Nat} (ho : opener? c.items j = some i) (hi : h < i) (hie : i ≤ e) :
    c.depth j = c.depth (i + 1) := by
  have hij := opener?_lt ho
  have hje := hb.lt_of_opener? ho hi hie
  have hclosed : (c.state j).unlooped = 0 :=
    hb.unlooped_eq_zero hp (by omega) (Nat.le_of_lt hje) fun hplain => by simp [opener?, hplain] at ho
  have hopened : (c.state (i + 1)).unlooped = 0 := by
    refine hb.unlooped_behind hp hi (by omega) ?_
    rcases roleAt_of_mem_brackets (mem_brackets_of_opener? ho) with hrole | hrole <;> rw [hrole] <;> simp
  have harm := hp.arms j hje i ho hi
  have hj := hb.depth_eq hp (k := j) (by omega) (Nat.le_of_lt hje)
  have hbehind := hb.depth_eq hp (k := i + 1) (by omega) (by omega)
  rw [loopsAt_of_opener? ho, harm, hclosed] at hj
  rw [hopened] at hbehind
  omega

omit hp in
theorem loopsAt_end : loopsAt c.items e = 0 := by
  obtain ⟨colon, name, index, hitem⟩ := hb.definition
  rw [loopsAt, hb.brackets_eq, List.countP_singleton, hitem]
  rfl

theorem depth_start : c.depth (h + 1) = 0 := by
  have hdepth := hb.depth_eq hp (k := h + 1) (by omega) hb.lt
  rw [← loopsAt_of_opener? hb.closed, hb.loopsAt_end, hb.moved_start] at hdepth
  omega

theorem depth_end : c.depth e = 0 := by
  have hdepth := hb.depth_eq hp hb.lt (Nat.le_refl e)
  rw [hb.loopsAt_end, hp.closed] at hdepth
  omega

end IsBody

/-! ### Jumps -/

/-- Of the words that make up a construct only those of counted loops move `rsp`. -/
theorem moving_of_closesItem {keyword : Keyword} (h : closesItem keyword item) (hinner : item.isBoundary = false)
    (hdo : item.keyword? ≠ some .«do») (token : Token) (index cells : Nat) :
    item.moving cells = [] ∧ (Item.keyword keyword token index).moving cells = [] := by
  unfold closesItem at h
  split at h <;> first
    | exact ⟨rfl, rfl⟩
    | exact absurd rfl hdo
    | cases hinner
    | cases h

theorem links_segment_do (hdo : c.IsKeyword k .«do») : links (c.offset k) (c.segment k) = [] := by
  obtain ⟨token, index, hitem⟩ := hdo
  have hopens := not_opens_of_keyword hitem (by simp)
  rw [segment_eq_block (List.getElem?_eq_some_iff.mp hitem).1 hopens, c.block_eq hitem, Compiler.block]
  refine Straight.links_eq ((Compiler.straight_lead _ _).append ?_) _
  exact (CacheState.straight_filling _).append (straight_of_all rfl)

namespace IsBody

variable (hb : c.IsBody h e) (hp : Paired c.items h e)
include hb hp

theorem depth_succ_of_moving (hk : h < k) (hke : k < e) (hitem : c.items[k]? = some item)
    (hmoving : ∀ cells, item.moving cells = []) : c.depth (k + 1) = c.depth k := by
  have hexit : item.keyword? ≠ some .exit := by
    intro hexit
    have hmoving := hmoving 0
    cases item <;> cases hexit
    cases hmoving
  have hsucc := hb.depth_succ hp hk hke hitem hexit
  rw [hmoving, climb_nil] at hsucc
  omega

/-- **A jump** leads to a place with the same count. -/
theorem depth_of_joined {j : Nat} {l : Link} (hk : h < k) (hke : k ≤ e) (hl : l ∈ links (c.offset k) (c.segment k))
    (hj : c.Joined k j) : c.depth (j + 1) = c.depth k := by
  obtain ⟨hhj, hje⟩ := hb.le_lt_of_joined hk hke hj
  have hne : h ≠ j := by
    rintro rfl
    exact hb.not_joined hj
  rcases hj with ho | hreturns
  · -- Behind the arm that the jump passes over.
    have hkj := opener?_lt ho
    obtain ⟨keyword, token, index, item, hj, hitem, hcloses⟩ := closesItem_of_opener? ho
    have hdo : item.keyword? ≠ some .«do» := fun hdo => by
      rw [links_segment_do (keywordAt_eq_some.mp ((keywordAt_of_getElem? hitem).trans hdo))] at hl
      cases hl
    have hmoving := moving_of_closesItem hcloses (hb.isBoundary_eq hk (by omega) hitem) hdo token index
    calc c.depth (j + 1) = c.depth j := hb.depth_succ_of_moving hp (by omega) hje hj fun cells => (hmoving cells).2
      _ = c.depth (k + 1) := hb.depth_of_opener? hp ho hk hke
      _ = c.depth k := hb.depth_succ_of_moving hp hk (by omega) hitem fun cells => (hmoving cells).1
  · -- Back to the start of the loop.
    cases hreturns with
    | direct ho _ =>
      have hjk := opener?_lt ho
      exact (hb.depth_of_opener? hp ho (by omega) (by omega)).symm
    | @past w _ ho hw hob _ =>
      have hjw := opener?_lt hob
      have hwk := opener?_lt ho
      obtain ⟨token, index, hitem⟩ := hw
      calc c.depth (j + 1) = c.depth w := (hb.depth_of_opener? hp hob (by omega) (by omega)).symm
        _ = c.depth (w + 1) := (hb.depth_succ_of_moving hp (by omega) (by omega) hitem fun _ => rfl).symm
        _ = c.depth k := (hb.depth_of_opener? hp ho (by omega) (by omega)).symm

/-- **Behind a counted loop** the count is that in front of it. -/
theorem depth_of_loop {d : Nat} (ho : opener? c.items k = some d)
    (hloop : c.IsKeyword k .loop ∨ c.IsKeyword k .plusLoop) (hd : h < d) (hke : k < e) :
    c.depth (k + 1) = c.depth d := by
  have hdk := opener?_lt ho
  obtain ⟨keyword, token, index, item, hitem, hdo, hcloses⟩ := closesItem_of_opener? ho
  have hkeyword : keyword = .loop ∨ keyword = .plusLoop := by
    rcases hloop with ⟨_, _, hloop⟩ | ⟨_, _, hloop⟩ <;> rw [hloop] at hitem <;> cases hitem
    · exact .inl rfl
    · exact .inr rfl
  have hopened : ∃ token index, item = .keyword .«do» token index := by
    unfold closesItem at hcloses
    rcases hkeyword with rfl | rfl <;> split at hcloses <;> first | exact ⟨_, _, rfl⟩ | contradiction
  have hend : (Item.keyword keyword token index).keyword? ≠ some .exit ∧
      climb ((Item.keyword keyword token index).moving (c.depth k)) = 16 := by
    rcases hkeyword with rfl | rfl <;> exact ⟨nofun, rfl⟩
  obtain ⟨token', index', rfl⟩ := hopened
  have hleft := hb.depth_succ hp (by omega) hke hitem hend.1
  have hentered := hb.depth_succ hp hd (by omega) hdo nofun
  have hstart : climb ((Item.keyword .«do» token' index').moving (c.depth d)) = -16 := rfl
  have hbody := hb.depth_of_opener? hp ho hd (by omega)
  rw [hend.2] at hleft
  rw [hstart] at hentered
  omega

end IsBody

/-! ### The size of what an `exit` drops -/

theorem returnCells_succ_le (hitem : c.items[k]? = some item) :
    (c.state (k + 1)).returnCells ≤ (c.state k).returnCells + (item.spells .toReturn).toNat := by
  cases hboundary : item.isBoundary with
  | true =>
    rw [returnCells_of_isBoundary hitem hboundary]
    exact Nat.zero_le _
  | false =>
    rw [returnCells_succ hitem hboundary]
    exact Nat.sub_le _ _

/-- Each cell on the return stack takes a byte of code. -/
theorem cells_le_offset (hk : k ≤ c.items.length) :
    2 * loopsAt c.items k + (c.state k).returnCells ≤ c.offset k := by
  induction k with
  | zero =>
    rw [state_zero, announced_eq]
    exact Nat.zero_le _
  | succ k ih =>
    have hitem := List.getElem?_eq_getElem hk
    generalize c.items[k] = item at hitem
    have ih := ih (Nat.le_of_succ_le hk)
    have hcells := returnCells_succ_le hitem
    have hloops := loopsAt_succ hitem
    obtain ⟨front, -, hcode⟩ := ((c.state k).ready item).exists_itemCode_eq item
    have hsize := le_codeSize_moving item ((c.state k).ready item).cellsToDrop
    have hoffset := c.offset_succ hk
    rw [c.block_eq hitem, Compiler.block, hcode, codeSize_append, codeSize_append] at hoffset
    have htoInt : (item.spells .toReturn).toInt = (item.spells .toReturn).toNat := by
      cases item.spells .toReturn <;> rfl
    omega

/-- What the `exit` at a place adds to `rsp` fits into 32 bits with sign. -/
def Fits (c : Compilation) (p : Nat) : Prop :=
  ∀ k, c.IsKeyword k .exit → c.offset k ≤ p → p < c.offset (k + 1) → c.depth k < 2 ^ 28

/-- Only in more than 256 MiB of code an `exit` can have too much to drop. -/
theorem fits_of_length (hlength : c.program.code.length < 2 ^ 28) (p : Nat) : c.Fits p := by
  rintro k ⟨token, index, hitem⟩ - -
  have hle : k ≤ c.items.length := Nat.le_of_lt (List.getElem?_eq_some_iff.mp hitem).1
  obtain ⟨i, hi⟩ := exists_placed_offset hle
  have hlt := lt_length_of_placed hi
  have hcells := cells_le_offset hle
  rw [depth, cellsToDrop, openLoops_eq hle]
  omega

end Compilation

end ForthElf
