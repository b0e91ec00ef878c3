import ForthElf.Proofs.Placement

/-!
# What names refer to

* `Visible items k h` — the name that item `h` defines is known at item `k`;
* `IsReferent items k name h` — `name` refers to item `h` at item `k`;
* `referent? items k name` — the newest item that defines `name` and is visible at item `k`;
* `Compilation.dictionary_eq` — **the dictionary** in front of each item holds what the items before it define;
* `Compilation.resolve_of_referent?`, `Compilation.resolve_of_referent?_eq_none` — what a plain word refers to.
-/

namespace ForthElf

open Text

/-! ### Items that define names -/

def Item.name? : Item → Option String
  | .define _ name _ => some name.text
  | .«variable» _ name _ => some name.text
  | _ => none

def Item.isVariable : Item → Bool
  | .«variable» _ _ _ => true
  | _ => false

def defines (items : List Item) (name : String) (h : Nat) : Bool :=
  ((items[h]?).bind Item.name?).any (sameWord · name)

/-- The name that item `h` defines is known at item `k`: a variable at once, a definition behind its `;`. -/
inductive Visible (items : List Item) (k h : Nat) : Prop
  | «variable» {word name : Token} {index : Nat} (hh : items[h]? = some (.«variable» word name index))
    (hk : h < k)
  | definition {colon name : Token} {index e : Nat} (hh : items[h]? = some (.define colon name index))
    (he : opener? items e = some h) (hk : e < k)

/-- Item `h` is the one to which `name` refers at item `k`: of the visible items of that name it comes last. -/
structure IsReferent (items : List Item) (k : Nat) (name : String) (h : Nat) : Prop where
  visible : Visible items k h
  defines : defines items name h
  last : ∀ h', h < h' → Visible items k h' → ForthElf.defines items name h' = false

/-- The newest item that defines `name` and is visible at item `k`. -/
def referent? (items : List Item) (k : Nat) (name : String) : Option Nat :=
  (List.range k).reverse.find? fun h => decide (h ∉ brackets items k) && defines items name h

section Visible

variable {items : List Item} {k h : Nat} {name : String}

theorem not_mem_brackets_of_variable {word token : Token} {index : Nat}
    (hh : items[h]? = some (.«variable» word token index)) : h ∉ brackets items k := by
  intro hmem
  have hrole := roleAt_of_mem_brackets hmem
  rw [roleAt_of_getElem? hh] at hrole
  simp [Item.role] at hrole

theorem visible_iff (hname : ((items[h]?).bind Item.name?).isSome) :
    Visible items k h ↔ h < k ∧ h ∉ brackets items k := by
  constructor
  · rintro (⟨hh, hk⟩ | ⟨hh, he, hk⟩)
    · exact ⟨hk, not_mem_brackets_of_variable hh⟩
    · exact ⟨Nat.lt_trans (opener?_lt he) hk, not_mem_brackets_of_opener? he hk⟩
  · rintro ⟨hk, hout⟩
    cases hh : items[h]? with
    | none => simp [hh] at hname
    | some item =>
      cases item with
      | define colon token index =>
        have hin := mem_brackets_self (.inl (roleAt_of_getElem? hh))
        obtain ⟨e, -, hek, he⟩ := exists_opener?_eq hin hout hk
        exact .definition hh he hek
      | «variable» word token index => exact .«variable» hh hk
      | _ => simp [hh, Item.name?] at hname

theorem isSome_name?_of_defines (hd : defines items name h) : ((items[h]?).bind Item.name?).isSome := by
  unfold defines at hd
  cases hn : (items[h]?).bind Item.name? with
  | none => simp [hn] at hd
  | some _ => rfl

theorem find?_reverse_range_eq_some_iff {p : Nat → Bool} {n i : Nat} :
    (List.range n).reverse.find? p = some i ↔ i < n ∧ p i ∧ ∀ j, i < j → j < n → p j = false := by
  induction n with
  | zero => simp
  | succ n ih =>
    rw [List.range_succ, List.reverse_append, List.reverse_singleton, List.singleton_append, List.find?_cons]
    cases hp : p n with
    | true =>
      simp only [Option.some.injEq]
      constructor
      · rintro rfl
        exact ⟨Nat.lt_succ_self n, hp, fun j hij hj => absurd hij (by omega)⟩
      · rintro ⟨hi, -, hlast⟩
        rcases Nat.lt_succ_iff_lt_or_eq.mp hi with hlt | heq
        · rw [hlast n hlt (Nat.lt_succ_self n)] at hp
          cases hp
        · exact heq.symm
    | false =>
      simp only [ih]
      constructor
      · rintro ⟨hi, hpi, hlast⟩
        refine ⟨Nat.lt_succ_of_lt hi, hpi, fun j hij hj => ?_⟩
        rcases Nat.lt_succ_iff_lt_or_eq.mp hj with hlt | rfl
        · exact hlast j hij hlt
        · exact hp
      · rintro ⟨hi, hpi, hlast⟩
        rcases Nat.lt_succ_iff_lt_or_eq.mp hi with hlt | rfl
        · exact ⟨hlt, hpi, fun j hij hj => hlast j hij (Nat.lt_succ_of_lt hj)⟩
        · rw [hp] at hpi
          cases hpi

theorem visible_and_defines_iff :
    (h < k ∧ (decide (h ∉ brackets items k) && defines items name h) = true) ↔
      Visible items k h ∧ defines items name h := by
  rw [Bool.and_eq_true, decide_eq_true_iff, ← and_assoc]
  refine and_congr_left fun hd => ?_
  rw [visible_iff (isSome_name?_of_defines hd)]

theorem Visible.lt (hv : Visible items k h) : h < k := by
  cases hv with
  | «variable» _ hk => exact hk
  | definition _ he hk => exact Nat.lt_trans (opener?_lt he) hk

/-- **The referent of a name** is the visible item of that name that comes last. -/
theorem referent?_eq_some_iff :
    referent? items k name = some h ↔ IsReferent items k name h := by
  rw [referent?, find?_reverse_range_eq_some_iff, ← and_assoc, visible_and_defines_iff, and_assoc]
  have hfields : IsReferent items k name h ↔ Visible items k h ∧ defines items name h ∧
      ∀ h', h < h' → Visible items k h' → defines items name h' = false :=
    ⟨fun ⟨hv, hd, hl⟩ => ⟨hv, hd, hl⟩, fun ⟨hv, hd, hl⟩ => ⟨hv, hd, hl⟩⟩
  rw [hfields]
  refine and_congr_right fun _ => and_congr_right fun _ => forall_congr' fun h' => forall_congr' fun _ => ?_
  constructor
  · intro hnone hv
    refine Bool.eq_false_iff.mpr fun hd => ?_
    have htest := (visible_and_defines_iff.mpr ⟨hv, hd⟩).2
    rw [hnone hv.lt] at htest
    cases htest
  · intro hnone hlt
    refine Bool.eq_false_iff.mpr fun htest => ?_
    obtain ⟨hv, hd⟩ := visible_and_defines_iff.mp ⟨hlt, htest⟩
    rw [hnone hv] at hd
    cases hd

end Visible

namespace Compilation

open Compiler

variable (c : Compilation)

/-! ### The dictionary -/

def cellAddress (h : Nat) : UInt64 :=
  c.options.stackTop + 8 * UInt64.ofNat ((c.items.take h).countP Item.isVariable)

/-- What the name of item `h` stands for. -/
def meaningOf (h : Nat) : Item → Meaning
  | .«variable» _ _ _ => .cell (c.cellAddress h)
  | _ => .code (c.offset (h + 1))

/-- The entry of item `h` in the dictionary in front of item `k`. -/
def entryAt? (k h : Nat) : Option Entry :=
  match c.items[h]? with
  | some (.define colon name index) =>
    some ⟨name.text, c.meaningOf h (.define colon name index), name.pos, decide (h ∈ brackets c.items k)⟩
  | some (.«variable» word name index) =>
    some ⟨name.text, c.meaningOf h (.«variable» word name index), word.pos, decide (h ∈ brackets c.items k)⟩
  | _ => none

/-- The entries of the first `n` items in front of item `k`, newest first. -/
def entries (k n : Nat) : List Entry :=
  (List.range n).reverse.filterMap (c.entryAt? k)

variable {c} {k n h : Nat}

theorem entries_succ : c.entries k (n + 1) = (c.entryAt? k n).toList ++ c.entries k n := by
  rw [entries, List.range_succ, List.reverse_append, List.reverse_singleton, List.singleton_append,
    List.filterMap_cons]
  cases c.entryAt? k n <;> rfl

/-- Only which definitions are open matters. -/
theorem entryAt?_congr {k' : Nat} (hopen : h ∈ brackets c.items k ↔ h ∈ brackets c.items k') :
    c.entryAt? k h = c.entryAt? k' h := by
  simp only [entryAt?, hopen]

theorem entries_congr {k' : Nat}
    (hopen : ∀ h < n, (c.entryAt? k h).isSome → (h ∈ brackets c.items k ↔ h ∈ brackets c.items k')) :
    c.entries k n = c.entries k' n := by
  induction n with
  | zero => rfl
  | succ n ih =>
    have hlast : c.entryAt? k n = c.entryAt? k' n := by
      cases hn : c.entryAt? k n with
      | some entry =>
        rw [← hn]
        exact entryAt?_congr (hopen n (Nat.lt_succ_self n) (by rw [hn]; rfl))
      | none =>
        simp only [entryAt?] at hn ⊢
        split at hn <;> first | rfl | cases hn
    rw [entries_succ, entries_succ, hlast, ih fun h hh => hopen h (Nat.lt_succ_of_lt hh)]

theorem length_entries (k k' : Nat) : (c.entries k n).length = (c.entries k' n).length := by
  induction n with
  | zero => rfl
  | succ n ih =>
    have hlast : (c.entryAt? k n).toList.length = (c.entryAt? k' n).toList.length := by
      simp only [entryAt?]
      split <;> rfl
    rw [entries_succ, entries_succ, List.length_append, List.length_append, hlast, ih]

theorem cells_eq (hk : k ≤ c.items.length) : (c.state k).cells = (c.items.take k).countP Item.isVariable := by
  refine c.invariant (P := fun k s => s.cells = (c.items.take k).countP Item.isVariable) ?_
    (fun k item h ih => ?_) hk
  · rw [state_zero, announced_eq]
    rfl
  · have hcounts := (c.compiled h).counts
    have hcells : (c.state (k + 1)).cells = (((c.state k).ready item).countsAfter item).2.2.1 :=
      congrArg (·.2.2.1) hcounts
    rw [hcells, List.take_add_one, h, Option.toList_some, List.countP_append, List.countP_singleton, ← ih]
    cases item with
    | «variable» word name index => simp [countsAfter, Item.isVariable]
    | keyword keyword token index => cases keyword <;> simp [countsAfter, Item.isVariable]
    | word token index =>
      simp only [countsAfter, Item.isVariable, Bool.false_eq_true, ↓reduceIte, Nat.add_zero, cells_ready]
      split <;> rfl
    | _ => simp [countsAfter, Item.isVariable]

theorem isSome_entryAt?_iff : (c.entryAt? k h).isSome ↔ ((c.items[h]?).bind Item.name?).isSome := by
  cases hh : c.items[h]? with
  | none => simp [entryAt?, hh]
  | some item => cases item <;> simp [entryAt?, hh, Item.name?]

/-- Only `;` closes a definition. -/
theorem mem_brackets_succ_iff {item : Item} (hk : c.items[k]? = some item)
    (hsemi : ∀ token index, item ≠ .keyword .semicolon token index) (hlt : h < k)
    (hname : (c.entryAt? (k + 1) h).isSome) :
    h ∈ brackets c.items (k + 1) ↔ h ∈ brackets c.items k := by
  refine ⟨fun hmem => mem_brackets_of_succ hmem (Nat.ne_of_lt hlt), fun hmem => mem_brackets_succ hmem fun ho => ?_⟩
  obtain ⟨keyword, token, index, opening, hitem, hh, hcloses⟩ := closesItem_of_opener? ho
  rw [hk] at hitem
  cases hitem
  have hne : keyword ≠ .semicolon := fun heq => hsemi token index (by rw [heq])
  rw [isSome_entryAt?_iff, hh] at hname
  cases opening <;> cases keyword <;> simp [closesItem, Item.name?] at hcloses hname hne

/-- When the open definition `h` is closed, its entry is revealed and the others stay. -/
theorem entries_close {colon name : Token} {index : Nat} (hh : c.items[h]? = some (.define colon name index))
    (hbefore : brackets c.items k = [h]) (hafter : brackets c.items (k + 1) = []) (hhn : h < n) :
    (c.entries k h).length < (c.entries k n).length ∧
      c.entries (k + 1) n = (c.entries k n).modify ((c.entries k n).length - 1 - (c.entries k h).length)
        fun entry => { entry with hidden := false } := by
  -- The entries above that of `h` are counted off one by one.
  induction hhn with
  | refl =>
    have hrest : c.entries (k + 1) h = c.entries k h := by
      refine entries_congr fun i hi _ => ?_
      rw [hbefore, hafter]
      simp [Nat.ne_of_lt hi]
    have hentry : ∀ m, c.entryAt? m h =
        some ⟨name.text, c.meaningOf h (.define colon name index), name.pos, decide (h ∈ brackets c.items m)⟩ :=
      fun m => by simp only [entryAt?, hh]
    rw [Nat.succ_eq_add_one, entries_succ, entries_succ, hrest, hentry, hentry, hbefore, hafter]
    simp
  | @step n hhn ih =>
    obtain ⟨hlt, ih⟩ := ih
    have hne : n ≠ h := Nat.ne_of_gt hhn
    have hentry : c.entryAt? (k + 1) n = c.entryAt? k n := by
      refine entryAt?_congr ?_
      rw [hbefore, hafter]
      simp [hne]
    rw [Nat.succ_eq_add_one, entries_succ, entries_succ, hentry, ih]
    cases c.entryAt? k n with
    | none => exact ⟨hlt, rfl⟩
    | some entry =>
      have hindex : (c.entries k n).length + 1 - 1 - (c.entries k h).length =
          (c.entries k n).length - 1 - (c.entries k h).length + 1 := by omega
      simp only [Option.toList_some, List.singleton_append, List.length_cons, hindex, List.modify_succ_cons,
        and_true]
      omega

theorem dictionary_succ {item : Item} (hitem : c.items[k]? = some item)
    (hsemi : ∀ token index, item ≠ .keyword .semicolon token index)
    (ih : (c.state k).dictionary = ⟨c.entries k k⟩) :
    (c.state (k + 1)).dictionary = ⟨c.entries (k + 1) (k + 1)⟩ := by
  have hstep := c.compiled hitem
  have hk := (List.getElem?_eq_some_iff.mp hitem).1
  have hbehind : c.offset (k + 1) = _ := hstep.offset_eq_behind
  have hold : c.entries (k + 1) k = c.entries k k :=
    entries_congr fun h hh hname => mem_brackets_succ_iff hitem hsemi hh hname
  rw [hstep.dictionary, entries_succ, hold]
  cases item with
  | define colon name index =>
    have hin := mem_brackets_self (.inl (roleAt_of_getElem? hitem))
    simp [dictionaryAfter, Dictionary.define, ih, entryAt?, hitem, meaningOf, ← hbehind, hin]
  | «variable» word name index =>
    have hout : k ∉ brackets c.items (k + 1) := not_mem_brackets_of_variable hitem
    simp [dictionaryAfter, Dictionary.define, ih, entryAt?, hitem, meaningOf, hout, cellAddress,
      c.options_state (Nat.le_of_lt hk), cells_eq (Nat.le_of_lt hk)]
  | keyword keyword token index =>
    have hentry : c.entryAt? (k + 1) k = none := by simp only [entryAt?, hitem]
    have hsame : ((c.state k).ready (.keyword keyword token index)).dictionaryAfter
        (.keyword keyword token index) = (c.state k).dictionary := by
      cases keyword <;> first | exact absurd rfl (hsemi token index) | simp [dictionaryAfter]
    rw [hsame, ih, hentry]
    rfl
  | number literal token index => simp [dictionaryAfter, ih, entryAt?, hitem]
  | word token index => simp [dictionaryAfter, ih, entryAt?, hitem]

/-- **The dictionary** in front of an item holds what the items before it define. -/
theorem dictionary_eq (hk : k ≤ c.items.length) : (c.state k).dictionary = ⟨c.entries k k⟩ := by
  induction k using Nat.strongRecOn with
  | ind k ih =>
    cases k with
    | zero =>
      rw [state_zero, announced_eq]
      rfl
    | succ k =>
      have hlast := ih k (Nat.lt_succ_self k) (Nat.le_of_succ_le hk)
      have hitem := List.getElem?_eq_getElem hk
      generalize c.items[k] = item at hitem
      by_cases hsemi : ∃ token index, item = .keyword .semicolon token index
      · obtain ⟨token, index, rfl⟩ := hsemi
        have hstep := c.compiled hitem
        obtain ⟨hcurrent, hcontrol⟩ : (c.state k).current.isSome ∧ (c.state k).control = [] := by
          simpa [Admits, AdmitsKeyword] using hstep.admits
        obtain ⟨d, hd⟩ := Option.isSome_iff_exists.mp hcurrent
        have ht := c.tracks (Nat.le_of_succ_le hk)
        rw [hcontrol, hd] at ht
        obtain ⟨h, colon, name, index', hbefore, hdefine, rfl⟩ := ht.of_body
        have hafter : brackets c.items (k + 1) = [] := by
          rw [brackets_succ, roleAt_of_getElem? hitem, hbefore]
          rfl
        have hlt : h < k := lt_of_mem_brackets (by rw [hbefore]; exact List.mem_singleton_self h)
        -- The number of the definition is the size of the dictionary at its header.
        have hnumber : (c.definition h colon name).number = (c.entries k h).length := by
          rw [definition, ih h (Nat.lt_succ_of_lt hlt) (by omega), Dictionary.size]
          exact length_entries h k
        obtain ⟨hsize, hclose⟩ := entries_close hdefine hbefore hafter hlt
        have hentry : c.entryAt? (k + 1) k = none := by simp only [entryAt?, hitem]
        rw [hstep.dictionary, entries_succ, hentry, hclose]
        simp [dictionaryAfter, hd, hlast, Dictionary.reveal, Dictionary.size, hnumber, hsize]
      · exact dictionary_succ hitem (fun token index heq => hsemi ⟨token, index, heq⟩) hlast

/-- **Names are found** by their visible items. -/
theorem find?_dictionary (hk : k ≤ c.items.length) (name : String) :
    (c.state k).dictionary.find? name = (referent? c.items k name).bind (c.entryAt? k) := by
  have htest : ∀ h, (c.entryAt? k h).any (·.answersTo name) =
      (decide (h ∉ brackets c.items k) && defines c.items name h) := by
    intro h
    cases hh : c.items[h]? with
    | none => simp [entryAt?, defines, hh]
    | some item =>
      cases item <;> simp [entryAt?, defines, hh, Item.name?, Entry.answersTo]
  rw [dictionary_eq hk, Dictionary.find?, entries, List.find?_filterMap, referent?]
  simp only [htest]

/-! ### Words -/

theorem headers_eq (hk : k ≤ c.items.length) : (c.state k).forward.headers =
    if c.options.forwardRefs then c.items.filterMap Item.header? else [] := by
  refine c.invariant (P := fun _ s => s.forward.headers =
    if c.options.forwardRefs then c.items.filterMap Item.header? else []) ?_ (fun k item h ih => ?_) hk
  · rw [state_zero, announced_eq]
    rfl
  · have hsame : (((c.state k).ready item).forwardAfter item).headers = (c.state k).forward.headers := by
      cases item with
      | define colon name index => simp [forwardAfter, ForwardCalls.resolve]
      | word token index =>
        simp only [forwardAfter]
        split <;> simp [ForwardCalls.await]
      | _ => simp [forwardAfter]
    rw [(c.compiled h).forward, hsame, ih]

theorem index_lt_index_iff {i j : Nat} {a b : Item} (ha : c.items[i]? = some a) (hb : c.items[j]? = some b) :
    a.index < b.index ↔ i < j := by
  have hpair := List.pairwise_iff_getElem.mp (pairwise_itemsFrom 0 c.tokens)
  obtain ⟨hi, rfl⟩ := List.getElem?_eq_some_iff.mp ha
  obtain ⟨hj, rfl⟩ := List.getElem?_eq_some_iff.mp hb
  constructor
  · intro hlt
    rcases Nat.lt_trichotomy i j with h | rfl | h
    · exact h
    · exact absurd hlt (Nat.lt_irrefl _)
    · exact absurd (hpair j i hj hi h) (Nat.lt_asymm hlt)
  · exact hpair i j hi hj

/-- Item `j` is a definition of `name` behind item `k`. -/
def DefinedBehind (c : Compilation) (k : Nat) (name : String) (j : Nat) : Prop :=
  k < j ∧ ∃ colon token index, c.items[j]? = some (.define colon token index) ∧ sameWord token.text name

/-- Whether a name is announced: it has a definition ahead. -/
theorem announcedAfter_iff {token : Token} {index : Nat} (h : c.items[k]? = some (.word token index)) :
    (c.options.forwardRefs ∧ (c.state k).forward.announcedAfter token.text index) ↔
      (c.options.forwardRefs ∧ ∃ j, c.DefinedBehind k token.text j) := by
  refine and_congr_right fun hrefs => ?_
  rw [ForwardCalls.announcedAfter, headers_eq (Nat.le_of_lt (List.getElem?_eq_some_iff.mp h).1), if_pos hrefs,
    List.any_eq_true]
  constructor
  · rintro ⟨header, hmem, htest⟩
    obtain ⟨item, hitem, hheader⟩ := List.mem_filterMap.mp hmem
    obtain ⟨j, hj⟩ := List.getElem?_of_mem hitem
    simp only [Bool.and_eq_true, decide_eq_true_eq] at htest
    cases item with
    | define colon name index' =>
      cases hheader
      exact ⟨j, (index_lt_index_iff h hj).mp htest.2, colon, name, index', hj, htest.1⟩
    | _ => cases hheader
  · rintro ⟨j, hlt, colon, name, index', hj, hname⟩
    refine ⟨⟨name.text, index'⟩, List.mem_filterMap.mpr ⟨_, List.mem_of_getElem? hj, rfl⟩, ?_⟩
    simp only [Bool.and_eq_true, decide_eq_true_eq]
    exact ⟨hname, (index_lt_index_iff h hj).mpr hlt⟩

section Words

variable {token : Token} {index : Nat} (hword : c.items[k]? = some (.word token index))
  (hprimitive : Primitive.lookup? token.text = none)
include hword hprimitive

/-- A word refers to the visible item of its name that comes last. -/
theorem resolve_of_referent? {item : Item} (hr : referent? c.items k token.text = some h)
    (hh : c.items[h]? = some item) :
    (c.state k).resolve token index = some (.defined (c.meaningOf h item)) := by
  have hk := Nat.le_of_lt (List.getElem?_eq_some_iff.mp hword).1
  have hd := (referent?_eq_some_iff.mp hr).defines
  rw [resolve, hprimitive]
  dsimp only
  rw [find?_dictionary hk, hr, Option.bind_some]
  cases item <;> simp [defines, hh, Item.name?] at hd <;> simp [entryAt?, hh]

open Classical in
theorem resolve_of_referent?_eq_none (hr : referent? c.items k token.text = none) :
    (c.state k).resolve token index =
      if c.options.forwardRefs ∧ ∃ j, c.DefinedBehind k token.text j then some .later
      else if c.options.bestEffort then some .nothing
      else none := by
  have hk := Nat.le_of_lt (List.getElem?_eq_some_iff.mp hword).1
  rw [resolve, hprimitive]
  dsimp only
  rw [find?_dictionary hk, hr, Option.bind_none]
  simp only [c.options_state hk, announcedAfter_iff hword]

omit hprimitive in
theorem exists_isReferent_of_resolve {meaning : Meaning}
    (hr : (c.state k).resolve token index = some (.defined meaning)) :
    ∃ h item, IsReferent c.items k token.text h ∧ c.items[h]? = some item ∧ meaning = c.meaningOf h item := by
  have hnone : Primitive.lookup? token.text = none := by
    cases hp : Primitive.lookup? token.text with
    | none => rfl
    | some p =>
      rw [resolve, hp] at hr
      cases hr
  cases hreferent : referent? c.items k token.text with
  | none =>
    rw [resolve_of_referent?_eq_none hword hnone hreferent] at hr
    split at hr
    · cases hr
    · split at hr <;> cases hr
  | some h =>
    have href := referent?_eq_some_iff.mp hreferent
    cases hh : c.items[h]? with
    | none =>
      have hd := href.defines
      simp [defines, hh] at hd
    | some item =>
      rw [resolve_of_referent? hword hnone hreferent hh] at hr
      exact ⟨h, item, href, hh, by cases hr; rfl⟩

end Words

end Compilation

end ForthElf
