import ForthElf.Proofs.Targets
import Mathlib.Logic.Relation

/-!
# The bodies of definitions

The body of a definition is the code from its label to the end of the `ret` of its `;`.

* `Compilation.IsBody h e`, `Compilation.InBody h e p` — item `e` closes the definition that item `h` opens, and `p`
  is a place in its body;
* `Flows code p q` — control can go from `p` to `q` without a call or a return;
* `Compilation.BodiesIsolated` — bodies are disjoint, jumps do not cross their ends, and control does not fall into
  them;
* `bodies_isolated` — **this holds of every program that compiles**.
-/

namespace ForthElf

/-- Control can go from the instruction at `p` to that at `q` without a call or a return.  A call is passed over. -/
inductive Flows (code : List Instruction) : Nat → Nat → Prop
  | next {p : Nat} {i : Instruction} (h : Placed code p [i]) (hret : i ≠ .ret)
    (hjump : ∀ d, i ≠ .branch .jump d) : Flows code p (p + i.size)
  | jump {p q : Nat} {kind : Branch} {d : BitVec 32} (h : Placed code p [.branch kind d]) (hkind : kind ≠ .call)
    (ht : ((p + kind.size : Nat) : Int) + d.toInt = q) : Flows code p q

namespace Compilation

open Compiler

variable (c : Compilation)

/-- Item `e` closes the definition that item `h` opens. -/
structure IsBody (h e : Nat) : Prop where
  definition : c.IsDefinition h
  closed : opener? c.items e = some h

def InBody (h e : Nat) (p : Int) : Prop :=
  (c.offset (h + 1) : Int) ≤ p ∧ p < (c.offset (e + 1) : Int)

variable {c} {k h e : Nat}

/-! ### Items of a body -/

theorem mem_brackets_between {items : List Item} {i m n : Nat} (hi : i ∈ brackets items n) (him : i < m)
    (hmn : m ≤ n) : i ∈ brackets items m := by
  induction hmn with
  | refl => exact hi
  | @step n hmn ih => exact ih (mem_brackets_of_succ hi (Nat.ne_of_lt (Nat.lt_of_lt_of_le him hmn)))

theorem brackets_of_isDefinition (hh : c.IsDefinition h) : brackets c.items h = [] := by
  obtain ⟨colon, name, index, hitem⟩ := hh
  obtain ⟨hcurrent, hcontrol⟩ : (c.state h).current = none ∧ (c.state h).control = [] := by
    simpa [Admits] using (c.compiled hitem).admits
  have ht := c.tracks (Nat.le_of_lt (List.getElem?_eq_some_iff.mp hitem).1)
  rw [hcurrent, hcontrol] at ht
  generalize brackets c.items h = bs at ht
  cases ht
  rfl

namespace IsBody

variable (hb : c.IsBody h e)
include hb

theorem lt : h < e :=
  opener?_lt hb.closed

theorem isKeyword : c.IsKeyword e .semicolon := by
  obtain ⟨colon, name, index, hitem⟩ := hb.definition
  obtain ⟨keyword, token, index', item, he, hitem', hcloses⟩ := closesItem_of_opener? hb.closed
  rw [hitem] at hitem'
  cases hitem'
  cases keyword <;> simp [closesItem] at hcloses
  exact ⟨token, index', he⟩

theorem lt_length : e < c.items.length := by
  obtain ⟨token, index, he⟩ := hb.isKeyword
  exact (List.getElem?_eq_some_iff.mp he).1

/-- In front of its `;` only the definition itself is open. -/
theorem brackets_eq : brackets c.items e = [h] := by
  obtain ⟨token, index, he⟩ := hb.isKeyword
  obtain ⟨hcurrent, hcontrol⟩ : (c.state e).current.isSome ∧ (c.state e).control = [] := by
    simpa [Admits, AdmitsKeyword] using (c.compiled he).admits
  obtain ⟨d, hd⟩ := Option.isSome_iff_exists.mp hcurrent
  have ht := c.tracks (Nat.le_of_lt hb.lt_length)
  rw [hcontrol, hd] at ht
  obtain ⟨b, -, -, -, hbs, -⟩ := ht.of_body
  have hmem := mem_brackets_of_opener? hb.closed
  rw [hbs, List.mem_singleton] at hmem
  rw [hbs, hmem]

theorem mem_brackets_iff : h ∈ brackets c.items k ↔ h < k ∧ k ≤ e := by
  constructor
  · intro hmem
    refine ⟨lt_of_mem_brackets hmem, Nat.le_of_not_lt fun hlt => ?_⟩
    exact not_mem_brackets_of_opener? hb.closed hlt hmem
  · rintro ⟨hlt, hle⟩
    exact mem_brackets_between (mem_brackets_of_opener? hb.closed) hlt hle

/-- Definitions are not nested. -/
theorem lt_of_lt {h' : Nat} (hb' : c.IsDefinition h') (hlt : h < h') : e < h' := by
  refine Nat.lt_of_not_le fun hle => ?_
  have hmem := hb.mem_brackets_iff.mpr ⟨hlt, hle⟩
  rw [brackets_of_isDefinition hb'] at hmem
  cases hmem

theorem le_of_mem_brackets {j : Nat} (hj : j ∈ brackets c.items k) (hk : h < k) : h ≤ j := by
  refine Nat.le_of_not_lt fun hlt => ?_
  have hmem := mem_brackets_between hj hlt (Nat.le_of_lt hk)
  rw [brackets_of_isDefinition hb.definition] at hmem
  cases hmem

theorem lt_of_opener? {i j : Nat} (ho : opener? c.items j = some i) (hi : h < i) (hie : i ≤ e) : j < e := by
  refine Nat.lt_of_not_le fun hle => ?_
  rcases Nat.lt_or_eq_of_le hie with hlt | rfl
  · have hmem := mem_brackets_between (mem_brackets_of_opener? ho) hlt hle
    rw [hb.brackets_eq, List.mem_singleton] at hmem
    omega
  · -- A `;` opens nothing.
    obtain ⟨token, index, he⟩ := hb.isKeyword
    have hrole := roleAt_of_mem_brackets (mem_brackets_of_opener? ho)
    rw [roleAt_of_getElem? he] at hrole
    simp [Item.role, Keyword.role] at hrole

end IsBody

theorem IsDefinition.exists_isBody (hh : c.IsDefinition h) : ∃ e, c.IsBody h e := by
  have hin : h ∈ brackets c.items (h + 1) := by
    obtain ⟨colon, name, index, hitem⟩ := hh
    exact mem_brackets_self (.inl (roleAt_of_getElem? hitem))
  have hout : h ∉ brackets c.items c.items.length := by
    rw [c.brackets_last]
    exact List.not_mem_nil
  obtain ⟨e, -, -, he⟩ := exists_opener?_eq hin hout hh.lt
  exact ⟨e, hh, he⟩

theorem exists_isBody_of_current (hk : k ≤ c.items.length) (hcurrent : (c.state k).current ≠ none) :
    ∃ h e, c.IsBody h e ∧ h < k ∧ k ≤ e := by
  have ht := c.tracks hk
  have hmem : ∃ h ∈ brackets c.items k, c.IsDefinition h := by
    generalize (c.state k).current = current at ht hcurrent
    generalize brackets c.items k = bs at ht ⊢
    generalize (c.state k).control = control at ht
    induction ht with
    | main => exact absurd rfl hcurrent
    | body h => exact ⟨_, List.mem_singleton_self _, _, _, _, h⟩
    | frame _ _ ih =>
      obtain ⟨h, hh, hdefinition⟩ := ih hcurrent
      exact ⟨h, List.mem_cons_of_mem _ hh, hdefinition⟩
  obtain ⟨h, hh, hdefinition⟩ := hmem
  obtain ⟨e, hb⟩ := hdefinition.exists_isBody
  exact ⟨h, e, hb, hb.mem_brackets_iff.mp hh⟩

theorem FrameOf.not_isDefinition {frame : Frame} (hframe : c.FrameOf k frame) : ¬c.IsDefinition k := by
  rintro ⟨colon, name, index, hitem⟩
  cases hframe with
  | «if» h | «else» h | «begin» h | «while» h _ | «do» h =>
    rw [hitem] at h
    cases h

theorem IsBody.current_ne_none (hb : c.IsBody h e) (hk : h < k) (hke : k ≤ e) : (c.state k).current ≠ none := by
  have hmem := hb.mem_brackets_iff.mpr ⟨hk, hke⟩
  have ht := c.tracks (Nat.le_trans hke (Nat.le_of_lt hb.lt_length))
  generalize (c.state k).current = current at ht
  generalize brackets c.items k = bs at ht hmem
  generalize (c.state k).control = control at ht
  induction ht with
  | main => cases hmem
  | body h => simp
  | frame hframe _ ih =>
    rcases List.mem_cons.mp hmem with rfl | hmem
    · exact absurd hb.definition hframe.not_isDefinition
    · exact ih hmem

/-! ### The start of the main program -/

/-- An item that is code starts the main program unless it belongs to a definition. -/
theorem entry_or_current_of_startsCode {s : Compiler} {item : Item} (h : s.startsCode item) :
    (s.ready item).entry.isSome ∨ s.current.isSome := by
  rw [ready, if_pos h]
  cases hstarting : (s.met item.token).starting with
  | true =>
    rw [begun, if_pos hstarting]
    exact .inl rfl
  | false =>
    rw [begun, if_neg (by simp [hstarting])]
    simp only [starting, met, Bool.and_eq_false_iff, Option.isNone_eq_false_iff] at hstarting
    exact hstarting.symm

theorem entry_ready_of_not_startsCode {s : Compiler} {item : Item} (h : s.startsCode item = false) :
    (s.ready item).entry = s.entry := by
  rw [ready, h]
  rfl

theorem currentAfter_of_startsCode {s : Compiler} {item : Item} (h : s.startsCode item) :
    (s.ready item).currentAfter item = s.current := by
  cases item with
  | keyword keyword token index => cases keyword <;> simp [startsCode] at h <;> simp [currentAfter]
  | define colon name index => cases h
  | _ => simp [currentAfter]

theorem entry_ready_of_isSome {s : Compiler} {item : Item} (h : s.entry.isSome) :
    (s.ready item).entry = s.entry := by
  cases hstarts : s.startsCode item with
  | false => exact entry_ready_of_not_startsCode hstarts
  | true =>
    have hstarting : (s.met item.token).starting = false := by
      rw [starting, Bool.and_eq_false_iff]
      exact .inr (Option.isNone_eq_false_iff.mpr h)
    rw [ready, if_pos hstarts, begun, if_neg (by simp [hstarting])]
    rfl

theorem entry_isSome_mono {n : Nat} (hkn : k ≤ n) (hn : n ≤ c.items.length) (h : (c.state k).entry.isSome) :
    (c.state n).entry.isSome := by
  induction hkn with
  | refl => exact h
  | @step n _ ih =>
    have ih := ih (Nat.le_of_succ_le hn)
    rw [Nat.succ_eq_add_one, (c.compiled (List.getElem?_eq_getElem hn)).entry, entry_ready_of_isSome ih]
    exact ih

/-- Constructs are open only inside a definition or behind the start of the main program. -/
theorem entry_or_current_or_control (hk : k ≤ c.items.length) :
    (c.state k).entry.isSome ∨ (c.state k).current.isSome ∨ (c.state k).control = [] := by
  refine c.invariant (P := fun _ s => s.entry.isSome ∨ s.current.isSome ∨ s.control = []) ?_
    (fun k item h ih => ?_) hk
  · rw [state_zero, announced_eq]
    exact .inr (.inr rfl)
  · have hstep := c.compiled h
    have hadmits := hstep.admits
    rw [hstep.entry, hstep.current, hstep.control]
    cases hstarts : (c.state k).startsCode item with
    | true =>
      rcases entry_or_current_of_startsCode hstarts with hentry | hcurrent
      · exact .inl hentry
      · refine .inr (.inl ?_)
        rw [currentAfter_of_startsCode hstarts]
        exact hcurrent
    | false =>
      rw [entry_ready_of_not_startsCode hstarts]
      cases item with
      | define colon name index => exact .inr (.inl rfl)
      | «variable» word name index => simpa [currentAfter, controlAfter, opened, Item.role] using ih
      | number literal token index => cases hstarts
      | word token index => simpa [currentAfter, controlAfter, opened, Item.role] using ih
      | keyword keyword token index =>
        by_cases hsemi : keyword = .semicolon
        · subst hsemi
          obtain ⟨-, hcontrol⟩ : (c.state k).current.isSome ∧ (c.state k).control = [] := by
            simpa [Admits, AdmitsKeyword] using hadmits
          exact .inr (.inr (by simp [controlAfter, opened, Item.role, Keyword.role, hcontrol]))
        · have hcurrent : ((c.state k).ready (.keyword keyword token index)).currentAfter
              (.keyword keyword token index) = (c.state k).current := by
            cases keyword <;> first | exact absurd rfl hsemi | simp [currentAfter]
          rw [hcurrent]
          by_cases hrole : keyword.role = .turns ∨ keyword.role = .closes
          · -- A construct was open, so the main program or a definition had started.
            obtain ⟨construct, hconstruct⟩ := exists_innermost? h hrole hsemi
            rcases ih with hentry | hcurrent | hcontrol
            · exact .inl hentry
            · exact .inr (.inl hcurrent)
            · simp [innermost?, hcontrol] at hconstruct
          · have hcontrol : ((c.state k).ready (.keyword keyword token index)).controlAfter
                (.keyword keyword token index) = (c.state k).control := by
              cases keyword <;> simp [Keyword.role, startsCode] at hrole hstarts <;>
                simp [controlAfter, opened, Item.role, Keyword.role]
            rw [hcontrol]
            exact ih

/-- Outside definitions and in front of the main program no item has code. -/
theorem block_eq_nil {item : Item} (h : c.items[k]? = some item) (hentry : (c.state k).entry = none)
    (hcurrent : (c.state k).current = none) (hstarts : (c.state k).startsCode item = false) : c.block k = [] := by
  have hcontrol : (c.state k).control = [] := by
    rcases entry_or_current_or_control (Nat.le_of_lt (List.getElem?_eq_some_iff.mp h).1) with hsome | hsome | hnil
    · simp [hentry] at hsome
    · simp [hcurrent] at hsome
    · exact hnil
  have hlead : (c.state k).lead item = [] := by
    rw [Compiler.lead, hstarts]
    rfl
  have hadmits := (c.compiled h).admits
  rw [c.block_eq h, Compiler.block, hlead, List.nil_append]
  cases item with
  | define colon name index => simp [itemCode, hentry]
  | «variable» word name index => rfl
  | number literal token index => cases hstarts
  | word token index =>
    have hnothing : (c.state k).resolve token index = some .nothing := by simpa [startsCode] using hstarts
    simp [itemCode, hnothing, referenceCode]
  | keyword keyword token index =>
    simp only [Admits, AdmitsKeyword, innermost?_ready, current_ready, control_ready, unlooped_ready] at hadmits
    cases keyword <;> simp [innermost?, hcontrol, hcurrent, startsCode] at hadmits hstarts

theorem entry_isSome_of_block_ne_nil (hk : k < c.items.length) (hcurrent : (c.state k).current = none)
    (hblock : c.block k ≠ []) : (c.state (k + 1)).entry.isSome := by
  have h := List.getElem?_eq_getElem hk
  generalize c.items[k] = item at h
  rw [(c.compiled h).entry]
  cases hstarts : (c.state k).startsCode item with
  | true =>
    rcases entry_or_current_of_startsCode hstarts with hentry | hsome
    · exact hentry
    · simp [hcurrent] at hsome
  | false =>
    rw [entry_ready_of_not_startsCode hstarts]
    cases hentry : (c.state k).entry with
    | some _ => rfl
    | none => exact absurd (block_eq_nil h hentry hcurrent hstarts) hblock

theorem exists_offset_eq_entry {entry : Nat} (hk : k ≤ c.items.length) (h : (c.state k).entry = some entry) :
    ∃ i < k, entry = c.offset i ∧ (c.state i).entry = none ∧ (c.state i).current = none ∧
      c.offset i < c.offset (i + 1) := by
  induction k generalizing entry with
  | zero =>
    rw [state_zero, announced_eq] at h
    cases h
  | succ k ih =>
    have hitem := List.getElem?_eq_getElem hk
    generalize c.items[k] = item at hitem
    cases hentry : (c.state k).entry with
    | some old =>
      obtain ⟨i, hi, hold, hnone⟩ := ih (Nat.le_of_succ_le hk) hentry
      rw [(c.compiled hitem).entry, entry_ready_of_isSome (by rw [hentry]; rfl), hentry] at h
      cases h
      exact ⟨i, Nat.lt_succ_of_lt hi, hold, hnone⟩
    | none =>
      rw [(c.compiled hitem).entry] at h
      cases hstarts : (c.state k).startsCode item with
      | false =>
        rw [entry_ready_of_not_startsCode hstarts, hentry] at h
        cases h
      | true =>
        rw [ready, if_pos hstarts, begun] at h
        split at h
        · next hstarting =>
          have hcurrent : (c.state k).current = none := by
            simpa [starting, met, hentry] using hstarting
          refine ⟨k, Nat.lt_succ_self k, (Option.some.inj h).symm, hentry, hcurrent, ?_⟩
          have hsize : 0 < codeSize ((c.state k).lead item) := by
            rw [Compiler.lead, if_pos hstarts, opening, starting, hcurrent, hentry]
            exact Instruction.size_pos (of_decide_eq_true rfl)
          rw [c.offset_succ hk, c.block_eq hitem, Compiler.block, codeSize_append]
          omega
        · rw [met, hentry] at h
          cases h

/-- The program starts with the first item of the main program, or at its end. -/
theorem exists_offset_eq_entryOffset (c : Compilation) :
    ∃ i ≤ c.items.length, c.program.entryOffset = c.offset i ∧ (c.state i).entry = none ∧
      (c.state i).current = none ∧ (i < c.items.length → c.offset i < c.offset (i + 1)) := by
  rw [c.built.2.1]
  cases hentry : c.last.entry with
  | some entry =>
    obtain ⟨i, hi, hoffset, hnone, hcurrent, hlt⟩ := exists_offset_eq_entry (Nat.le_refl _) hentry
    refine ⟨i, Nat.le_of_lt hi, ?_, hnone, hcurrent, fun _ => hlt⟩
    have hstarting : c.last.starting = false := by simp [starting, hentry]
    rw [begun, if_neg (by simp [hstarting]), hentry]
    exact hoffset
  | none =>
    refine ⟨c.items.length, Nat.le_refl _, ?_, hentry, c.last_complete.1, fun hlt => absurd hlt (Nat.lt_irrefl _)⟩
    have hstarting : c.last.starting = true := by simp [starting, hentry, c.last_complete.1]
    rw [begun, if_pos hstarting]
    rfl

/-! ### Places and items -/

theorem exists_offset_le {n p : Nat} (hp : c.offset 0 ≤ p) (hpn : p < c.offset n) :
    ∃ k < n, c.offset k ≤ p ∧ p < c.offset (k + 1) := by
  induction n with
  | zero => omega
  | succ n ih =>
    by_cases hlt : p < c.offset n
    · obtain ⟨k, hk, hle, hlt⟩ := ih hlt
      exact ⟨k, Nat.lt_succ_of_lt hk, hle, hlt⟩
    · exact ⟨n, Nat.lt_succ_self n, Nat.le_of_not_lt hlt, hpn⟩

theorem IsBody.inBody_iff {p : Nat} (hb : c.IsBody h e) (hk : k < c.items.length) (hp : c.offset k ≤ p)
    (hpk : p < c.offset (k + 1)) : c.InBody h e p ↔ h < k ∧ k ≤ e := by
  have he := hb.lt_length
  constructor
  · rintro ⟨hlow, hhigh⟩
    constructor
    · refine Nat.lt_of_not_le fun hle => ?_
      have hmono : c.offset (k + 1) ≤ c.offset (h + 1) := c.offset_mono (Nat.succ_le_succ hle) hb.definition.lt
      omega
    · refine Nat.le_of_not_lt fun hlt => ?_
      have hmono : c.offset (e + 1) ≤ c.offset k := c.offset_mono hlt (Nat.le_of_lt hk)
      omega
  · rintro ⟨hlow, hhigh⟩
    have hlow : c.offset (h + 1) ≤ c.offset k := c.offset_mono hlow (Nat.le_of_lt hk)
    have hhigh : c.offset (k + 1) ≤ c.offset (e + 1) := c.offset_mono (Nat.succ_le_succ hhigh) he
    exact ⟨by omega, by omega⟩

/-! ### The ends of a body -/

theorem IsBody.placed_ret (hb : c.IsBody h e) :
    c.offset e < c.offset (e + 1) ∧ Placed c.instructions (c.offset (e + 1) - 1) [.ret] := by
  obtain ⟨token, index, he⟩ := hb.isKeyword
  obtain ⟨hblock, -⟩ := block_eq_of_keyword he rfl
  have hopens := not_opens_of_keyword he (by simp)
  have hplaced := placed_of_block_eq hb.lt_length hopens hblock
  have hret : Instruction.ret.size = 1 := rfl
  have hoffset := c.offset_succ hb.lt_length
  rw [hblock, keywordCode, codeSize_append, codeSize_cons, codeSize_nil, hret] at hoffset
  have hplace : c.offset (e + 1) - 1 =
      c.offset e + codeSize ((c.state e).ready (.keyword .semicolon token index)).cache.state.spilling := by omega
  rw [hplace]
  exact ⟨by omega, hplaced⟩

/-- A definition inside the main program has a jump around it. -/
theorem IsDefinition.opens (hh : c.IsDefinition h) (hentry : (c.state h).entry.isSome) : c.Opens h .jump := by
  obtain ⟨colon, name, index, hitem⟩ := hh
  exact .define hitem hentry

/-- In front of a place outside definitions, up to the start of the main program, stands a `ret`. -/
theorem placed_ret_of_entry_eq_none (hk : k ≤ c.items.length) (hentry : (c.state k).entry = none)
    (hcurrent : (c.state k).current = none) : Placed c.instructions (c.offset k - 1) [.ret] ∧ 1 ≤ c.offset k := by
  induction k with
  | zero =>
    have hstart : c.offset 0 = codeSize printNumber := (codeSize_blocks (Nat.zero_le _)).symm
    have hsplit : printNumber = printNumber.dropLast ++ [Instruction.ret] := by decide
    have hsize : codeSize printNumber = codeSize printNumber.dropLast + 1 := by decide
    have hplaced := c.placed_printNumber
    rw [hsplit] at hplaced
    have hret := hplaced.right
    rw [Nat.zero_add] at hret
    rw [hstart, hsize, Nat.add_sub_cancel]
    exact ⟨hret, by omega⟩
  | succ k ih =>
    have hbefore : (c.state k).entry = none := by
      refine Option.not_isSome_iff_eq_none.mp fun hsome => ?_
      have := entry_isSome_mono (Nat.le_succ k) hk hsome
      rw [hentry] at this
      cases this
    cases hold : (c.state k).current with
    | none =>
      -- The item has no code, or the main program would have started.
      have hblock : c.block k = [] := Decidable.byContradiction fun hne => by
        have := entry_isSome_of_block_ne_nil hk hold hne
        rw [hentry] at this
        cases this
      rw [c.offset_succ hk, hblock]
      exact ih (Nat.le_of_succ_le hk) hbefore hold
    | some d =>
      -- The item is the `;` of a body.
      obtain ⟨h, e, hb, hlt, hle⟩ :=
        exists_isBody_of_current (Nat.le_of_succ_le hk) (by rw [hold]; simp)
      rcases Nat.lt_or_eq_of_le hle with hlt' | rfl
      · exact absurd hcurrent (hb.current_ne_none (Nat.lt_succ_of_lt hlt) hlt')
      · obtain ⟨hoffset, hret⟩ := hb.placed_ret
        exact ⟨hret, by omega⟩

/-- **What stands in front of a body**: a `ret`, or the jump around the body. -/
theorem IsBody.placed_before (hb : c.IsBody h e) :
    ∃ i p, Placed c.instructions p [i] ∧ p + i.size = c.offset (h + 1) ∧
      (i = .ret ∨ i = leading p .jump (c.offset (e + 1))) := by
  cases hentry : (c.state h).entry with
  | some entry =>
    have hopens := hb.definition.opens (by rw [hentry]; rfl)
    have hplaced := hopens.placed (.closing hb.closed hopens)
    refine ⟨_, _, hplaced, ?_, .inr rfl⟩
    have hoffset := hopens.offset_lt
    rw [size_leading, Branch.size, length_opcode_jump]
    omega
  | none =>
    have hlength := hb.definition.lt
    obtain ⟨colon, name, index, hitem⟩ := hb.definition
    obtain ⟨hcurrent, -⟩ : (c.state h).current = none ∧ (c.state h).control = [] := by
      simpa [Admits] using (c.compiled hitem).admits
    have hblock := block_eq_nil hitem hentry hcurrent rfl
    have hoffset : c.offset (h + 1) = c.offset h := by rw [c.offset_succ hlength, hblock]; rfl
    obtain ⟨hret, hpos⟩ := placed_ret_of_entry_eq_none (Nat.le_of_lt hlength) hentry hcurrent
    refine ⟨_, _, hret, ?_, .inl rfl⟩
    have hsize : Instruction.ret.size = 1 := rfl
    omega

/-! ### Jumps -/

namespace IsBody

variable {j : Nat} (hb : c.IsBody h e)
include hb

/-- Jumps inside a body stay in it. -/
theorem le_lt_of_joined (hk : h < k) (hke : k ≤ e) (hj : c.Joined k j) : h ≤ j ∧ j < e := by
  rcases hj with ho | hreturns
  · have hlt := opener?_lt ho
    exact ⟨by omega, hb.lt_of_opener? ho hk hke⟩
  · cases hreturns with
    | direct ho _ =>
      have hlt := opener?_lt ho
      exact ⟨hb.le_of_mem_brackets (mem_brackets_of_opener? ho) hk, by omega⟩
    | @past w _ ho hw hob _ =>
      have hlt := opener?_lt ho
      have hle := hb.le_of_mem_brackets (mem_brackets_of_opener? ho) hk
      have hne : h ≠ w := by
        rintro rfl
        obtain ⟨colon, name, index, hitem⟩ := hb.definition
        obtain ⟨token, index', hw⟩ := hw
        rw [hitem] at hw
        cases hw
      have hlt' := opener?_lt hob
      exact ⟨hb.le_of_mem_brackets (mem_brackets_of_opener? hob) (by omega), by omega⟩

theorem lt_le_of_joined (hj : h < j) (hje : j < e) (hjoined : c.Joined k j) : h < k ∧ k ≤ e := by
  rcases hjoined with ho | hreturns
  · have hlt := opener?_lt ho
    have hle := hb.le_of_mem_brackets (mem_brackets_of_opener? ho) hj
    have hne : h ≠ k := by
      rintro rfl
      exact absurd (opener?_inj ho hb.closed) (Nat.ne_of_lt hje)
    omega
  · cases hreturns with
    | direct ho _ =>
      have hlt := opener?_lt ho
      have hke := hb.lt_of_opener? ho hj (Nat.le_of_lt hje)
      omega
    | past ho _ hob _ =>
      have hlt := opener?_lt ho
      have hlt' := opener?_lt hob
      have hwe := hb.lt_of_opener? hob hj (Nat.le_of_lt hje)
      have hke := hb.lt_of_opener? ho (Nat.lt_trans hj hlt') (Nat.le_of_lt hwe)
      omega

/-- No construct reaches over the start of a definition. -/
theorem lt_of_joined_of_lt (hj : j < h) (hjoined : c.Joined k j) : k < h := by
  have hout : ∀ {i m}, i ∈ brackets c.items m → i < h → m < h := by
    intro i m hi hlt
    refine Nat.lt_of_not_le fun hle => ?_
    have hmem := mem_brackets_between hi hlt hle
    rw [brackets_of_isDefinition hb.definition] at hmem
    cases hmem
  rcases hjoined with ho | hreturns
  · exact Nat.lt_trans (opener?_lt ho) hj
  · cases hreturns with
    | direct ho _ => exact hout (mem_brackets_of_opener? ho) hj
    | past ho _ hob _ => exact hout (mem_brackets_of_opener? ho) (hout (mem_brackets_of_opener? hob) hj)

theorem not_joined : ¬c.Joined k h := by
  rintro (ho | hreturns)
  · have hmem := mem_brackets_of_opener? ho
    rw [brackets_of_isDefinition hb.definition] at hmem
    cases hmem
  · have hno : ∀ keyword, ¬c.IsKeyword h keyword := by
      rintro keyword ⟨token, index, hk⟩
      obtain ⟨colon, name, index', hitem⟩ := hb.definition
      rw [hitem] at hk
      cases hk
    cases hreturns with
    | direct _ hbegin => exact hbegin.elim (hno _) (hno _)
    | past _ _ _ hbegin => exact hno _ hbegin

end IsBody

/-- The item of a branch is outside definitions only behind the start of the main program. -/
theorem entry_isSome_of_mem_links {l : Link} {n : Nat} (hk : k < c.items.length)
    (hl : l ∈ links (c.offset k) (c.segment k)) (hcurrent : (c.state k).current = none) (hkn : k < n)
    (hn : n ≤ c.items.length) : (c.state n).entry.isSome := by
  refine entry_isSome_mono hkn hn (entry_isSome_of_block_ne_nil hk hcurrent fun hnil => ?_)
  have hbounds := start_bounds_of_mem_links hl
  rw [codeSize_segment, hnil, codeSize_nil] at hbounds
  omega

namespace IsBody

variable {l : Link} (hb : c.IsBody h e)
include hb

/-- **A jump inside a body** stays in the body. -/
theorem target_inside (hk : h < k) (hke : k ≤ e) (hr : c.Reach k l) (hkind : l.kind ≠ .call) :
    c.InBody h e l.target := by
  have he := hb.lt_length
  have hret := hb.placed_ret.1
  cases hr with
  | routine hcall _ => exact absurd hcall hkind
  | definition hcall _ _ => exact absurd hcall hkind
  | @construct j _ hj ht =>
    obtain ⟨hhj, hje⟩ := hb.le_lt_of_joined hk hke hj
    have hlow : c.offset (h + 1) ≤ c.offset (j + 1) :=
      c.offset_mono (Nat.succ_le_succ hhj) (Nat.le_trans hje (Nat.le_of_lt he))
    have hhigh : c.offset (j + 1) ≤ c.offset e := c.offset_mono hje (Nat.le_of_lt he)
    exact ⟨by omega, by omega⟩
  | @within front back _ hsegment hitem ht =>
    have hne : k ≠ e := by
      rintro rfl
      obtain ⟨token, index, hsemi⟩ := hb.isKeyword
      rcases hitem with ⟨_, _, hitem, -⟩ | ⟨⟨_, _, hitem⟩, -⟩ <;> rw [hsemi] at hitem <;> cases hitem
    have hlength : k < c.items.length := by omega
    have hoffset := c.offset_succ hlength
    rw [← codeSize_segment, hsegment, codeSize_append] at hoffset
    have hlow : c.offset (h + 1) ≤ c.offset k := c.offset_mono hk (Nat.le_of_lt hlength)
    have hhigh : c.offset (k + 1) ≤ c.offset e := c.offset_mono (by omega) (Nat.le_of_lt he)
    exact ⟨by omega, by omega⟩

/-- **A jump of the main program** does not lead into a body. -/
theorem target_outside (hk : k < c.items.length) (hcurrent : (c.state k).current = none)
    (hl : l ∈ links (c.offset k) (c.segment k)) (hkind : l.kind ≠ .call) :
    ¬c.InBody h e l.target := by
  rintro ⟨hlow, hhigh⟩
  have he := hb.lt_length
  have hout : ¬(h < k ∧ k ≤ e) := fun ⟨hlt, hle⟩ => hb.current_ne_none hlt hle hcurrent
  -- The jump around the definition stands in front of its body.
  have hjump : k < h → c.offset h < c.offset (h + 1) := by
    intro hlt
    have hentry := entry_isSome_of_mem_links hk hl hcurrent hlt (Nat.le_of_lt hb.definition.lt)
    have := (hb.definition.opens hentry).offset_lt
    omega
  cases reach_of_mem_links hk hl with
  | routine hcall _ => exact absurd hcall hkind
  | definition hcall _ _ => exact absurd hcall hkind
  | @construct j _ hj ht =>
    have hje : j < e := Nat.lt_of_not_le fun hle => by
      have hjl : j < c.items.length := by
        rcases hj with ho | hreturns
        · obtain ⟨_, _, _, _, hitem, -⟩ := closesItem_of_opener? ho
          exact (List.getElem?_eq_some_iff.mp hitem).1
        · exact Nat.lt_trans hreturns.lt hk
      have hmono : c.offset (e + 1) ≤ c.offset (j + 1) := c.offset_mono (Nat.succ_le_succ hle) hjl
      omega
    rcases Nat.lt_trichotomy h j with hlt | rfl | hlt
    · exact hout (hb.lt_le_of_joined hlt hje hj)
    · exact hb.not_joined hj
    · have hmono : c.offset (j + 1) ≤ c.offset h := c.offset_mono hlt (Nat.le_of_lt hb.definition.lt)
      have := hjump (hb.lt_of_joined_of_lt hlt hj)
      omega
  | @within front back _ hsegment hitem ht =>
    have hoffset := c.offset_succ hk
    rw [← codeSize_segment, hsegment, codeSize_append] at hoffset
    have hne : k ≠ h := by
      rintro rfl
      obtain ⟨colon, name, index, hdefine⟩ := hb.definition
      rcases hitem with ⟨_, _, hitem, -⟩ | ⟨⟨_, _, hitem⟩, -⟩ <;> rw [hdefine] at hitem <;> cases hitem
    rcases Nat.lt_or_gt_of_ne hne with hlt | hlt
    · have hmono : c.offset (k + 1) ≤ c.offset h := c.offset_mono hlt (Nat.le_of_lt hb.definition.lt)
      have := hjump hlt
      omega
    · have hek : e < k := Nat.lt_of_not_le fun hle => hout ⟨hlt, hle⟩
      have hmono : c.offset (e + 1) ≤ c.offset k := c.offset_mono hek (Nat.le_of_lt hk)
      omega

end IsBody

/-! ### The whole program -/

variable (c) in
/-- Bodies are disjoint, jumps do not cross their ends, and control does not fall into them. -/
structure BodiesIsolated : Prop where
  /-- Every definition has a body, which ends with the `ret` of its `;`. -/
  ends : ∀ h, c.IsDefinition h → ∃ e, c.IsBody h e ∧ c.IsKeyword e .semicolon ∧
    Placed c.instructions (c.offset (e + 1) - 1) [.ret]
  disjoint : ∀ h e h' e', c.IsBody h e → c.IsBody h' e' → h ≠ h' → ∀ p, c.InBody h e p → ¬c.InBody h' e' p
  /-- The number printing routine is at the start of the code, in front of all bodies. -/
  routine : Placed c.instructions 0 printNumber ∧
    ∀ h e, c.IsBody h e → ∀ p, c.InBody h e p → (codeSize printNumber : Int) ≤ p
  /-- All other code is at or behind the start of the main program. -/
  main : ∀ p : Nat, codeSize printNumber ≤ p → (∀ h e, c.IsBody h e → ¬c.InBody h e p) →
    c.program.entryOffset ≤ p
  inside : ∀ h e, c.IsBody h e → ∀ l ∈ links 0 c.instructions, l.kind ≠ .call → c.InBody h e l.start →
    c.InBody h e l.target
  outside : ∀ l ∈ links 0 c.instructions, l.kind ≠ .call → (∀ h e, c.IsBody h e → ¬c.InBody h e l.start) →
    ∀ h e, c.IsBody h e → ¬c.InBody h e l.target
  /-- In front of a body stands a `ret` or the jump to the first byte behind it. -/
  before : ∀ h e, c.IsBody h e → ∃ i p, Placed c.instructions p [i] ∧ p + i.size = c.offset (h + 1) ∧
    (i = .ret ∨ i = leading p .jump (c.offset (e + 1)))
  /-- A call that leads into a body leads to its label. -/
  called : ∀ l ∈ links 0 c.instructions, l.kind = .call → ∀ h e, c.IsBody h e → c.InBody h e l.target →
    l.target = c.offset (h + 1)
  /-- Without a call control does not come into a body from outside. -/
  closed : ∀ h e, c.IsBody h e → ∀ p q, Flows c.instructions p q → ¬c.InBody h e p → ¬c.InBody h e q
  /-- The main program flows around all bodies. -/
  around : ∀ p, Relation.ReflTransGen (Flows c.instructions) c.program.entryOffset p →
    ∀ h e, c.IsBody h e → ¬c.InBody h e p

theorem IsBody.disjoint {h' e' : Nat} {p : Int} (hb : c.IsBody h e) (hb' : c.IsBody h' e') (hne : h ≠ h')
    (hp : c.InBody h e p) : ¬c.InBody h' e' p := by
  have hdefinition := hb.definition.lt
  have hdefinition' := hb'.definition.lt
  rintro ⟨hlow, hhigh⟩
  obtain ⟨hlow', hhigh'⟩ := hp
  rcases Nat.lt_or_gt_of_ne hne with hlt | hlt
  · have hmono : c.offset (e + 1) ≤ c.offset (h' + 1) :=
      c.offset_mono (Nat.succ_le_succ (Nat.le_of_lt (hb.lt_of_lt hb'.definition hlt))) hdefinition'
    omega
  · have hmono : c.offset (e' + 1) ≤ c.offset (h + 1) :=
      c.offset_mono (Nat.succ_le_succ (Nat.le_of_lt (hb'.lt_of_lt hb.definition hlt))) hdefinition
    omega

theorem IsBody.codeSize_printNumber_le {p : Int} (hb : c.IsBody h e) (hp : c.InBody h e p) :
    (codeSize printNumber : Int) ≤ p := by
  have hstart : codeSize printNumber = c.offset 0 := codeSize_blocks (Nat.zero_le _)
  have hmono := c.offset_mono (Nat.zero_le (h + 1)) hb.definition.lt
  have := hp.1
  omega

theorem target_lt_of_mem_links_printNumber {l : Link} (hl : l ∈ links 0 printNumber) :
    l.target < codeSize printNumber := by
  have hall : ∀ l ∈ links 0 printNumber, l.target < codeSize printNumber := by decide
  exact hall l hl

/-- Code in front of the main program belongs to the number printing routine or to a body. -/
theorem entryOffset_le {p : Nat} (hp : codeSize printNumber ≤ p)
    (hout : ∀ h e, c.IsBody h e → ¬c.InBody h e p) : c.program.entryOffset ≤ p := by
  obtain ⟨i, hi, hentry, hnone, -⟩ := c.exists_offset_eq_entryOffset
  rw [hentry]
  refine Nat.le_of_not_lt fun hlt => ?_
  have hstart : codeSize printNumber = c.offset 0 := codeSize_blocks (Nat.zero_le _)
  obtain ⟨k, hki, hle, hlt⟩ := exists_offset_le (by omega) hlt
  have hk : k < c.items.length := Nat.lt_of_lt_of_le hki hi
  have hcurrent : (c.state k).current = none := Decidable.byContradiction fun hne => by
    obtain ⟨h, e, hb, hhk, hke⟩ := exists_isBody_of_current (Nat.le_of_lt hk) hne
    exact hout h e hb ((hb.inBody_iff hk hle hlt).mpr ⟨hhk, hke⟩)
  have hblock : c.block k ≠ [] := by
    intro hnil
    rw [c.offset_succ hk, hnil, codeSize_nil] at hlt
    omega
  have hsome := entry_isSome_mono hki hi (entry_isSome_of_block_ne_nil hk hcurrent hblock)
  rw [hnone] at hsome
  cases hsome

theorem IsBody.inside {l : Link} (hb : c.IsBody h e) (hl : l ∈ links 0 c.instructions) (hkind : l.kind ≠ .call)
    (hstart : c.InBody h e l.start) : c.InBody h e l.target := by
  rcases mem_links_instructions hl with hl | ⟨k, hk, hl⟩
  · have hle := hb.codeSize_printNumber_le hstart
    have hbounds := start_bounds_of_mem_links hl
    omega
  · obtain ⟨hlow, hhigh⟩ := start_bounds_of_mem_links hl
    rw [codeSize_segment, ← c.offset_succ hk] at hhigh
    obtain ⟨hhk, hke⟩ := (hb.inBody_iff hk hlow hhigh).mp hstart
    exact hb.target_inside hhk hke (reach_of_mem_links hk hl) hkind

theorem IsBody.outside {l : Link} (hb : c.IsBody h e) (hl : l ∈ links 0 c.instructions) (hkind : l.kind ≠ .call)
    (hstart : ∀ h e, c.IsBody h e → ¬c.InBody h e l.start) : ¬c.InBody h e l.target := by
  rcases mem_links_instructions hl with hl | ⟨k, hk, hl⟩
  · intro hp
    have hle := hb.codeSize_printNumber_le hp
    have hlt := target_lt_of_mem_links_printNumber hl
    omega
  · obtain ⟨hlow, hhigh⟩ := start_bounds_of_mem_links hl
    rw [codeSize_segment, ← c.offset_succ hk] at hhigh
    refine hb.target_outside hk (Decidable.byContradiction fun hne => ?_) hl hkind
    obtain ⟨h', e', hb', hhk, hke⟩ := exists_isBody_of_current (Nat.le_of_lt hk) hne
    exact hstart h' e' hb' ((hb'.inBody_iff hk hlow hhigh).mpr ⟨hhk, hke⟩)

theorem IsBody.called {l : Link} (hb : c.IsBody h e) (hl : l ∈ links 0 c.instructions) (hkind : l.kind = .call)
    (hp : c.InBody h e l.target) : l.target = c.offset (h + 1) := by
  have hle := hb.codeSize_printNumber_le hp
  have hpos : 0 < codeSize printNumber := by decide
  rcases mem_links_instructions hl with hl | ⟨k, hk, hl⟩
  · have hlt := target_lt_of_mem_links_printNumber hl
    omega
  · cases reach_of_mem_links hk hl with
    | routine _ ht => omega
    | @definition h' _ hh ht =>
      obtain ⟨e', hb'⟩ := hh.exists_isBody
      by_cases hne : h = h'
      · rw [hne, ht]
      · -- The label of another definition is in the body of that one.
        have hin : c.InBody h' e' l.target := by
          have hmono : c.offset (h' + 1) ≤ c.offset e' := c.offset_mono hb'.lt (Nat.le_of_lt hb'.lt_length)
          have hret := hb'.placed_ret.1
          exact ⟨by omega, by omega⟩
        exact absurd hin (hb.disjoint hb' hne hp)
    | construct hcall _ _ => exact absurd hkind hcall
    | within hcall _ _ _ => exact absurd hkind hcall

theorem mem_links_of_placed {p : Nat} {kind : Branch} {d : BitVec 32}
    (h : Placed c.instructions p [.branch kind d]) :
    ⟨kind, p + kind.opcode.length, d⟩ ∈ links 0 c.instructions := by
  obtain ⟨front, back, heq, rfl⟩ := h
  refine mem_links.mpr ⟨front, back, ?_, ?_⟩
  · rw [heq, List.append_assoc]
    rfl
  · rw [Nat.zero_add]

/-- **Control does not fall into a body.** -/
theorem IsBody.not_inBody_of_flows {p q : Nat} (hb : c.IsBody h e) (hflow : Flows c.instructions p q)
    (hp : ¬c.InBody h e p) : ¬c.InBody h e q := by
  cases hflow with
  | @next i hplaced hret hjump =>
    rintro ⟨hlow, hhigh⟩
    have hlt : p < c.offset (h + 1) := Nat.lt_of_not_le fun hle => by
      exact hp ⟨by omega, by omega⟩
    -- The instruction ends where the body starts, so it is the one in front of it.
    obtain ⟨j, hj⟩ := exists_placed_offset (c := c) (k := h + 1) hb.definition.lt
    have hend := hplaced.add_size_le hj hlt
    obtain ⟨i', p', hplaced', hend', hkind⟩ := hb.placed_before
    have hi := Instruction.size_pos (c.encodable_instructions i hplaced.mem)
    have hi' := Instruction.size_pos (c.encodable_instructions i' hplaced'.mem)
    have heq : p = p' := by
      rcases Nat.lt_trichotomy p p' with hlt' | heq | hlt'
      · have := hplaced.add_size_le hplaced' hlt'
        omega
      · exact heq
      · have := hplaced'.add_size_le hplaced hlt'
        omega
    subst heq
    obtain rfl := hplaced.eq_of_placed hplaced' c.encodable_instructions
    rcases hkind with rfl | hkind
    · exact hret rfl
    · exact hjump _ hkind
  | @jump _ kind d hplaced hkind ht =>
    have hl := mem_links_of_placed hplaced
    have hstart : Link.start ⟨kind, p + kind.opcode.length, d⟩ = p := by simp [Link.start]
    have htarget : Link.target ⟨kind, p + kind.opcode.length, d⟩ = q := by
      rw [Branch.size] at ht
      simp only [Link.target]
      omega
    rw [← htarget]
    rw [← hstart] at hp
    by_cases hother : ∃ h' e', c.IsBody h' e' ∧
        c.InBody h' e' (Link.start ⟨kind, p + kind.opcode.length, d⟩ : Nat)
    · obtain ⟨h', e', hb', hin⟩ := hother
      have hne : h' ≠ h := by
        rintro rfl
        obtain rfl := opener?_inj hb.closed hb'.closed
        exact hp hin
      exact hb'.disjoint hb hne (hb'.inside hl hkind hin)
    · exact hb.outside hl hkind fun h' e' hb' hin => hother ⟨h', e', hb', hin⟩

theorem IsBody.not_inBody_entryOffset (hb : c.IsBody h e) : ¬c.InBody h e c.program.entryOffset := by
  obtain ⟨i, hi, hentry, -, hcurrent, hcode⟩ := c.exists_offset_eq_entryOffset
  have hout : ¬(h < i ∧ i ≤ e) := fun ⟨hlt, hle⟩ => hb.current_ne_none hlt hle hcurrent
  have hlength := hb.definition.lt
  rw [hentry]
  rintro ⟨hlow, hhigh⟩
  by_cases hlt : h < i
  · have hmono : c.offset (e + 1) ≤ c.offset i := c.offset_mono (Nat.lt_of_not_le fun hle => hout ⟨hlt, hle⟩) hi
    omega
  · have hmono : c.offset (i + 1) ≤ c.offset (h + 1) :=
      c.offset_mono (Nat.succ_le_succ (Nat.le_of_not_lt hlt)) hlength
    have := hcode (by omega)
    omega

theorem bodiesIsolated (c : Compilation) : c.BodiesIsolated where
  ends := by
    intro h hh
    obtain ⟨e, hb⟩ := hh.exists_isBody
    exact ⟨e, hb, hb.isKeyword, hb.placed_ret.2⟩
  disjoint := fun h e h' e' hb hb' hne p hp => hb.disjoint hb' hne hp
  routine := ⟨c.placed_printNumber, fun h e hb p hp => hb.codeSize_printNumber_le hp⟩
  main := fun p hp hout => entryOffset_le hp hout
  inside := fun h e hb l hl hkind hstart => hb.inside hl hkind hstart
  outside := fun l hl hkind hstart h e hb => hb.outside hl hkind hstart
  before := fun h e hb => hb.placed_before
  called := fun l hl hkind h e hb hp => hb.called hl hkind hp
  closed := fun h e hb p q hflow hp => hb.not_inBody_of_flows hflow hp
  around := by
    intro p hflows h e hb
    induction hflows with
    | refl => exact hb.not_inBody_entryOffset
    | tail _ hflow ih => exact hb.not_inBody_of_flows hflow ih

end Compilation

/-- **Bodies are isolated** in every program that compiles: the bodies of its definitions and the number printing
routine are disjoint, all other code is main code behind the start, no jump leads into a body or out of it, and
control comes into a body only by a call of its label. -/
theorem bodies_isolated {source : String} {options : Options} {program : Program}
    (h : compile source options = .ok program) :
    ∃ c : Compilation, c.options = options ∧ c.program = program ∧ tokenize source = .ok c.tokens ∧
      decodeAll program.code = c.instructions.map Instruction.piece ∧ c.BodiesIsolated := by
  obtain ⟨c, hoptions, rfl, htokens⟩ := exists_compilation h
  exact ⟨c, hoptions, rfl, htokens, c.decodeAll_code, c.bodiesIsolated⟩

/-- A program with a definition in front of the main program and one inside it. -/
theorem bodies_isolated_mixed : ∃ program : Program,
    compile ": a 1 if exit then ; a : b begin a until ; b" {} = .ok program ∧
    ∃ c : Compilation, c.program = program ∧ c.BodiesIsolated := by
  obtain ⟨program, h⟩ := exists_of_isOk (x := compile ": a 1 if exit then ; a : b begin a until ; b" {})
    (by decide +kernel)
  obtain ⟨c, -, hprogram, -, -, hisolated⟩ := bodies_isolated h
  exact ⟨program, h, c, hprogram, hisolated⟩

end ForthElf
