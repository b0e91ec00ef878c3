import ForthElf.Proofs.Decoding
import ForthElf.Proofs.Nesting

/-!
# The instructions of a compiled program

Blocks are put one behind the other, and a branch whose target is not known is led to it later.

* `Compilation.Opens i kind` — item `i` ends with a branch that waits for its target;
* `Compilation.Resolves j i` — item `j` leads the waiting branch of item `i` to the place behind its own block;
* `Compilation.mem_fixes_iff` — the fields that item `j` patches are those of the branches it resolves;
* `Compilation.code_eq` — **the code consists of the emitted blocks with every waiting branch led to its target**.
-/

namespace ForthElf

namespace Compilation

open Compiler Text

variable (c : Compilation)

/-! ### Waiting calls -/

/-- Item `i` is a call to a definition that is still ahead. -/
def IsForwardCall (i : Nat) (token : Token) : Prop :=
  ∃ index, c.items[i]? = some (.word token index) ∧ (c.state i).resolve token index = some .later

/-- The call of item `i` still waits in front of item `k`: no definition of its name came between. -/
def Waits (k i : Nat) (token : Token) : Prop :=
  i < k ∧ c.IsForwardCall i token ∧
    ∀ j colon name index, i < j → j < k → c.items[j]? = some (.define colon name index) →
      sameWord token.text name.text = false

variable {c} {k : Nat}

theorem waits_succ_iff {i : Nat} {token : Token} :
    c.Waits (k + 1) i token ↔ (i = k ∧ c.IsForwardCall k token) ∨
      (c.Waits k i token ∧ ∀ colon name index, c.items[k]? = some (.define colon name index) →
        sameWord token.text name.text = false) := by
  constructor
  · rintro ⟨hi, hcall, hbetween⟩
    rcases Nat.lt_succ_iff_lt_or_eq.mp hi with hlt | rfl
    · refine .inr ⟨⟨hlt, hcall, fun j colon name index hij hjk => ?_⟩, fun colon name index => ?_⟩
      · exact hbetween j colon name index hij (Nat.lt_succ_of_lt hjk)
      · exact hbetween k colon name index hlt (Nat.lt_succ_self k)
    · exact .inl ⟨rfl, hcall⟩
  · rintro (⟨rfl, hcall⟩ | ⟨⟨hi, hcall, hbetween⟩, hlast⟩)
    · exact ⟨Nat.lt_succ_self i, hcall, fun j _ _ _ hij hjk => absurd hij (by omega)⟩
    · refine ⟨Nat.lt_succ_of_lt hi, hcall, fun j colon name index hij hjk hj => ?_⟩
      rcases Nat.lt_succ_iff_lt_or_eq.mp hjk with hlt | rfl
      · exact hbetween j colon name index hij hlt hj
      · exact hlast colon name index hj

/-- The field of a call that item `i` leaves open. -/
def waitingCall (c : Compilation) (i : Nat) (token : Token) : WaitingCall :=
  ⟨token.text, c.offset (i + 1) - 4, token.pos⟩

theorem mem_waiting_succ {item : Item} (h : c.items[k]? = some item) {call : WaitingCall} :
    call ∈ (c.state (k + 1)).forward.waiting ↔
      (∃ token, c.IsForwardCall k token ∧ call = c.waitingCall k token) ∨
      (call ∈ (c.state k).forward.waiting ∧ ∀ colon name index,
        c.items[k]? = some (.define colon name index) → sameWord call.name name.text = false) := by
  have hstep := c.compiled h
  have hbehind : c.offset (k + 1) = _ := hstep.offset_eq_behind
  rw [hstep.forward]
  cases item with
  | define colon name index =>
    have hno : ∀ token, ¬c.IsForwardCall k token := by
      rintro token ⟨index, hword, -⟩
      rw [h] at hword
      cases hword
    simp [forwardAfter, ForwardCalls.resolve, List.mem_filter, h, hno]
  | word token index =>
    have hcall : ∀ token', c.IsForwardCall k token' ↔
        token' = token ∧ (c.state k).resolve token index = some .later := by
      intro token'
      constructor
      · rintro ⟨index', hword, hlater⟩
        rw [h] at hword
        cases hword
        exact ⟨rfl, hlater⟩
      · rintro ⟨rfl, hlater⟩
        exact ⟨index, h, hlater⟩
    by_cases hlater : (c.state k).resolve token index = some .later
    · simp [forwardAfter, ForwardCalls.await, h, hcall, hlater, waitingCall, ← hbehind, or_comm]
    · simp [forwardAfter, h, hcall, hlater]
  | _ =>
    have hno : ∀ token, ¬c.IsForwardCall k token := by
      rintro token ⟨index, hword, -⟩
      rw [h] at hword
      cases hword
    simp [forwardAfter, h, hno]

/-- **The waiting calls** in front of an item. -/
theorem mem_waiting_iff (hk : k ≤ c.items.length) {call : WaitingCall} :
    call ∈ (c.state k).forward.waiting ↔
      ∃ i token, c.Waits k i token ∧ call = c.waitingCall i token := by
  refine c.invariant (P := fun k s => ∀ call, call ∈ s.forward.waiting ↔
    ∃ i token, c.Waits k i token ∧ call = c.waitingCall i token) ?_ (fun k item h ih call => ?_) hk call
  · intro call
    rw [state_zero, announced_eq]
    constructor
    · intro hmem
      cases hmem
    · rintro ⟨i, token, ⟨hi, -⟩, -⟩
      cases hi
  · rw [mem_waiting_succ h, ih]
    constructor
    · rintro (⟨token, hcall, rfl⟩ | ⟨⟨i, token, hwaits, rfl⟩, hother⟩)
      · exact ⟨k, token, waits_succ_iff.mpr (.inl ⟨rfl, hcall⟩), rfl⟩
      · exact ⟨i, token, waits_succ_iff.mpr (.inr ⟨hwaits, hother⟩), rfl⟩
    · rintro ⟨i, token, hwaits, rfl⟩
      rcases waits_succ_iff.mp hwaits with ⟨rfl, hcall⟩ | ⟨hwaits, hother⟩
      · exact .inl ⟨token, hcall, rfl⟩
      · exact .inr ⟨⟨i, token, hwaits, rfl⟩, hother⟩

/-! ### Branches that wait for their targets -/

/-- Item `i` ends with a branch of the given kind that waits for its target. -/
inductive Opens (c : Compilation) : Nat → Branch → Prop
  | «if» {i : Nat} {token : Token} {index : Nat} (h : c.items[i]? = some (.keyword .«if» token index)) :
    Opens c i (.jumpIf .equal)
  | «else» {i : Nat} {token : Token} {index : Nat} (h : c.items[i]? = some (.keyword .«else» token index)) :
    Opens c i .jump
  | «while» {i : Nat} {token : Token} {index : Nat}
    (h : c.items[i]? = some (.keyword .«while» token index)) : Opens c i (.jumpIf .equal)
  | define {i : Nat} {colon name : Token} {index : Nat}
    (h : c.items[i]? = some (.define colon name index)) (hentry : (c.state i).entry.isSome) :
    Opens c i .jump
  | call {i : Nat} {token : Token} (h : c.IsForwardCall i token) : Opens c i .call

theorem Opens.lt {i : Nat} {kind : Branch} (h : c.Opens i kind) : i < c.items.length := by
  cases h with
  | «if» h | «else» h | «while» h | define h _ => exact (List.getElem?_eq_some_iff.mp h).1
  | call h =>
    obtain ⟨index, h, -⟩ := h
    exact (List.getElem?_eq_some_iff.mp h).1

theorem Opens.exists_block_eq {i : Nat} {kind : Branch} (h : c.Opens i kind) :
    ∃ front, c.block i = front ++ [Instruction.branch kind 0] ∧ Straight front := by
  cases h with
  | «if» h | «while» h =>
    rw [c.block_eq h, Compiler.block, itemCode, keywordCode, ← List.append_assoc]
    exact ⟨_, rfl, (straight_lead _ _).append (straight_testing _)⟩
  | «else» h =>
    rw [c.block_eq h, Compiler.block, itemCode, keywordCode, ← List.append_assoc]
    exact ⟨_, rfl, (straight_lead _ _).append (CacheState.straight_spilling _)⟩
  | define h hentry =>
    rw [c.block_eq h, Compiler.block, itemCode, entry_ready_define, if_pos hentry, ← List.append_assoc]
    exact ⟨_, rfl, (straight_lead _ _).append (CacheState.straight_spilling _)⟩
  | call h =>
    obtain ⟨index, h, hlater⟩ := h
    rw [c.block_eq h, Compiler.block, itemCode, resolve_ready, hlater, Option.map_some, Option.getD_some,
      referenceCode, ← List.append_assoc]
    exact ⟨_, rfl, (straight_lead _ _).append (CacheState.straight_spilling _)⟩

theorem Opens.mem_links {i : Nat} {kind : Branch} (h : c.Opens i kind) :
    ⟨kind, c.offset (i + 1) - 4, 0⟩ ∈ links (c.offset i) (c.block i) := by
  obtain ⟨front, hblock, -⟩ := h.exists_block_eq
  rw [c.offset_succ h.lt, hblock]
  refine ForthElf.mem_links.mpr ⟨front, [], rfl, ?_⟩
  simp only [codeSize_append, codeSize_cons, codeSize_nil, size_branch]
  omega

/-- Item `j` leads the waiting branch of item `i` to the place behind its own block. -/
inductive Resolves (c : Compilation) : Nat → Nat → Prop
  | closing {i j : Nat} {kind : Branch} (ho : opener? c.items j = some i) (h : c.Opens i kind) :
    Resolves c j i
  | defining {i j : Nat} {token colon name : Token} {index : Nat} (hw : c.Waits j i token)
    (hj : c.items[j]? = some (.define colon name index)) (hname : sameWord token.text name.text) :
    Resolves c j i

/-- An open construct has a field exactly if its branch waits. -/
theorem FrameOf.site?_eq {b : Nat} {frame : Frame} (h : c.FrameOf b frame) :
    (frame.construct.site? = some (c.offset (b + 1) - 4) ∧ ∃ kind, c.Opens b kind) ∨
      (frame.construct.site? = none ∧ ∀ kind, ¬c.Opens b kind) := by
  cases h with
  | «if» h => exact .inl ⟨rfl, _, .«if» h⟩
  | «else» h => exact .inl ⟨rfl, _, .«else» h⟩
  | «while» h _ => exact .inl ⟨rfl, _, .«while» h⟩
  | «begin» h | «do» h =>
    refine .inr ⟨rfl, fun kind hopens => ?_⟩
    cases hopens with
    | «if» h' | «else» h' | «while» h' | define h' _ =>
      rw [h] at h'
      cases h'
    | call h' =>
      obtain ⟨_, h', -⟩ := h'
      rw [h] at h'
      cases h'

section Fixes

variable {j site : Nat}

theorem mem_fixes_define {colon name : Token} {index : Nat} (hj : j ≤ c.items.length) :
    site ∈ (c.state j).fixes (.define colon name index) ↔
      ∃ i token, c.Waits j i token ∧ sameWord token.text name.text ∧ site = c.offset (i + 1) - 4 := by
  simp only [fixes, ForwardCalls.sitesOf, List.mem_map, List.mem_filter, mem_waiting_iff hj]
  constructor
  · rintro ⟨call, ⟨⟨i, token, hwaits, rfl⟩, hname⟩, rfl⟩
    exact ⟨i, token, hwaits, hname, rfl⟩
  · rintro ⟨i, token, hwaits, hname, rfl⟩
    exact ⟨_, ⟨⟨i, token, hwaits, rfl⟩, hname⟩, rfl⟩

/-- A word that closes or replaces a construct patches the field of that construct, if it has one. -/
theorem fixes_keyword {keyword : Keyword} {token : Token} {index : Nat}
    (h : c.items[j]? = some (.keyword keyword token index))
    (hrole : keyword.role = .turns ∨ keyword.role = .closes) (hne : keyword ≠ .semicolon) :
    (c.state j).fixes (.keyword keyword token index) =
      ((c.state j).innermost?.bind Construct.site?).toList := by
  have hadmits := (c.compiled h).admits
  cases keyword <;> simp [Keyword.role] at hrole hne <;>
    simp only [Admits, AdmitsKeyword, innermost?_ready] at hadmits
  case «else» | «then» | «repeat» => rfl
  all_goals
    obtain ⟨target, htarget⟩ := hadmits
    rw [htarget]
    rfl

theorem mem_fixes_keyword {keyword : Keyword} {token : Token} {index : Nat}
    (h : c.items[j]? = some (.keyword keyword token index))
    (hrole : keyword.role = .turns ∨ keyword.role = .closes) :
    site ∈ (c.state j).fixes (.keyword keyword token index) ↔
      ∃ i kind, opener? c.items j = some i ∧ c.Opens i kind ∧ site = c.offset (i + 1) - 4 := by
  have hj := (List.getElem?_eq_some_iff.mp h).1
  have ht := c.tracks (Nat.le_of_lt hj)
  have hopener : opener? c.items j = (brackets c.items j).head? := by
    rw [opener?, roleAt_of_getElem? h, Item.role]
    rcases hrole with hr | hr <;> rw [hr]
  rw [hopener]
  by_cases hsemi : keyword = .semicolon
  · subst hsemi
    obtain ⟨hcurrent, hcontrol⟩ : (c.state j).current.isSome ∧ (c.state j).control = [] := by
      simpa [Admits, AdmitsKeyword] using (c.compiled h).admits
    obtain ⟨d, hd⟩ := Option.isSome_iff_exists.mp hcurrent
    rw [hcontrol, hd] at ht
    obtain ⟨b, colon, name, index', hbs, hdefine, rfl⟩ := ht.of_body
    rw [fixes, hd, hbs, Option.bind_some, definition, List.head?_cons]
    cases hentry : (c.state b).entry.isSome with
    | true =>
      simp only [↓reduceIte, Option.toList_some, List.mem_singleton]
      constructor
      · rintro rfl
        exact ⟨b, _, rfl, .define hdefine hentry, rfl⟩
      · rintro ⟨i, kind, hi, -, rfl⟩
        cases hi
        rfl
    | false =>
      simp only [Bool.false_eq_true, ↓reduceIte, Option.toList_none, List.not_mem_nil, false_iff]
      rintro ⟨i, kind, hi, hopens, -⟩
      cases hi
      cases hopens with
      | «if» h' | «else» h' | «while» h' =>
        rw [hdefine] at h'
        cases h'
      | define h' hsome =>
        rw [hentry] at hsome
        cases hsome
      | call h' =>
        obtain ⟨_, h', -⟩ := h'
        rw [hdefine] at h'
        cases h'
  · obtain ⟨construct, hconstruct⟩ := exists_innermost? h hrole hsemi
    obtain ⟨b, ks, frame, rest, hbs, hcontrol, hframe, hb, -⟩ := ht.of_innermost? hconstruct
    rw [fixes_keyword h hrole hsemi, hconstruct, ← hframe, hbs]
    rcases hb.site?_eq with ⟨hsite, kind, hopens⟩ | ⟨hsite, hno⟩
    · simp only [Option.bind_some, hsite, Option.toList_some, List.mem_singleton, List.head?_cons]
      constructor
      · rintro rfl
        exact ⟨b, kind, rfl, hopens, rfl⟩
      · rintro ⟨i, kind', hi, -, rfl⟩
        cases hi
        rfl
    · simp only [Option.bind_some, hsite, Option.toList_none, List.not_mem_nil, false_iff, List.head?_cons]
      rintro ⟨i, kind, hi, hopens, -⟩
      cases hi
      exact hno kind hopens

theorem fixes_eq_nil {s : Compiler} {item : Item} (hrole : ¬(item.role = .turns ∨ item.role = .closes))
    (hdefine : ∀ colon name index, item ≠ .define colon name index) : s.fixes item = [] := by
  cases item with
  | define colon name index => exact absurd rfl (hdefine colon name index)
  | keyword keyword token index => cases keyword <;> first | rfl | simp [Item.role, Keyword.role] at hrole
  | _ => rfl

/-- **The fields that an item patches** are those of the branches it resolves. -/
theorem mem_fixes_iff {item : Item} (h : c.items[j]? = some item) :
    site ∈ (c.state j).fixes item ↔ ∃ i, c.Resolves j i ∧ site = c.offset (i + 1) - 4 := by
  have hj := (List.getElem?_eq_some_iff.mp h).1
  have hdefine : ∀ {i token colon name index}, c.Waits j i token →
      c.items[j]? = some (.define colon name index) → item = .define colon name index := by
    intro i token colon name index _ h'
    rw [h] at h'
    exact Option.some.inj h'
  by_cases hrole : item.role = .turns ∨ item.role = .closes
  · cases item with
    | keyword keyword token index =>
      rw [mem_fixes_keyword h hrole]
      constructor
      · rintro ⟨i, kind, ho, hopens, rfl⟩
        exact ⟨i, .closing ho hopens, rfl⟩
      · rintro ⟨i, hres, rfl⟩
        cases hres with
        | closing ho hopens => exact ⟨i, _, ho, hopens, rfl⟩
        | defining hw hj' _ => cases hdefine hw hj'
    | _ => simp [Item.role] at hrole
  · have hopener : opener? c.items j = none := by
      rw [opener?, roleAt_of_getElem? h]
      cases hr : item.role <;> simp_all
    cases item with
    | define colon name index =>
      rw [mem_fixes_define (Nat.le_of_lt hj)]
      constructor
      · rintro ⟨i, token, hw, hname, rfl⟩
        exact ⟨i, .defining hw h hname, rfl⟩
      · rintro ⟨i, hres, rfl⟩
        cases hres with
        | closing ho _ =>
          rw [hopener] at ho
          cases ho
        | defining hw hj' hname =>
          cases hdefine hw hj'
          exact ⟨i, _, hw, hname, rfl⟩
    | _ =>
      have hfixes : (c.state j).fixes _ = [] := fixes_eq_nil hrole (by simp)
      rw [hfixes]
      simp only [List.not_mem_nil, false_iff]
      rintro ⟨i, hres, -⟩
      cases hres with
      | closing ho _ =>
        rw [hopener] at ho
        cases ho
      | defining hw hj' _ => cases hdefine hw hj'

end Fixes

/-! ### Every waiting branch is resolved once -/

theorem IsForwardCall.token_eq {i : Nat} {token token' : Token} (h : c.IsForwardCall i token)
    (h' : c.IsForwardCall i token') : token = token' := by
  obtain ⟨index, hitem, -⟩ := h
  obtain ⟨index', hitem', -⟩ := h'
  rw [hitem] at hitem'
  cases hitem'
  rfl

theorem IsForwardCall.opener?_ne {i : Nat} {token : Token} (h : c.IsForwardCall i token) (j : Nat) :
    opener? c.items j ≠ some i := by
  intro ho
  obtain ⟨index, hitem, -⟩ := h
  have hrole := roleAt_of_mem_brackets (mem_brackets_of_opener? ho)
  rw [roleAt_of_getElem? hitem] at hrole
  simp [Item.role] at hrole

theorem Resolves.lt {i j : Nat} (h : c.Resolves j i) : i < j := by
  cases h with
  | closing ho _ => exact opener?_lt ho
  | defining hw _ _ => exact hw.1

theorem Resolves.lt_length {i j : Nat} (h : c.Resolves j i) : j < c.items.length := by
  cases h with
  | defining _ hj _ => exact (List.getElem?_eq_some_iff.mp hj).1
  | closing ho _ =>
    refine Nat.lt_of_not_le fun hle => ?_
    have hnone : roleAt c.items j = .plain := by
      rw [roleAt, List.getElem?_eq_none hle]
      rfl
    rw [opener?, hnone] at ho
    cases ho

theorem Resolves.opens {i j : Nat} (h : c.Resolves j i) : ∃ kind, c.Opens i kind := by
  cases h with
  | closing _ hopens => exact ⟨_, hopens⟩
  | defining hw _ _ => exact ⟨_, .call hw.2.1⟩

theorem Resolves.unique {i j j' : Nat} (h : c.Resolves j i) (h' : c.Resolves j' i) : j = j' := by
  cases h with
  | closing ho _ =>
    cases h' with
    | closing ho' _ => exact opener?_inj ho ho'
    | defining hw' _ _ => exact absurd ho (hw'.2.1.opener?_ne j)
  | @defining _ _ token colon name index hw hj hname =>
    cases h' with
    | closing ho' _ => exact absurd ho' (hw.2.1.opener?_ne j')
    | @defining _ _ token' colon' name' index' hw' hj' hname' =>
      obtain rfl := hw.2.1.token_eq hw'.2.1
      -- The first definition of the name ends the waiting.
      rcases Nat.lt_trichotomy j j' with hlt | heq | hlt
      · rw [hw'.2.2 j colon name index hw.1 hlt hj] at hname
        cases hname
      · exact heq
      · rw [hw.2.2 j' colon' name' index' hw'.1 hlt hj'] at hname'
        cases hname'

/-- A call waits until it is resolved. -/
theorem waits_or_resolves {i : Nat} {token : Token} (h : c.IsForwardCall i token) (hik : i < k)
    (hk : k ≤ c.items.length) : c.Waits k i token ∨ ∃ j, j < k ∧ c.Resolves j i := by
  induction k with
  | zero => cases hik
  | succ k ih =>
    rcases Nat.lt_succ_iff_lt_or_eq.mp hik with hlt | rfl
    · rcases ih hlt (Nat.le_of_succ_le hk) with hw | ⟨j, hjk, hres⟩
      · by_cases hdef : ∃ colon name index, c.items[k]? = some (.define colon name index) ∧
            sameWord token.text name.text
        · obtain ⟨colon, name, index, hitem, hname⟩ := hdef
          exact .inr ⟨k, Nat.lt_succ_self k, .defining hw hitem hname⟩
        · refine .inl (waits_succ_iff.mpr (.inr ⟨hw, fun colon name index hitem => ?_⟩))
          exact Bool.eq_false_iff.mpr fun hname => hdef ⟨colon, name, index, hitem, hname⟩
      · exact .inr ⟨j, Nat.lt_succ_of_lt hjk, hres⟩
    · exact .inl (waits_succ_iff.mpr (.inl ⟨rfl, h⟩))

/-- **Every waiting branch is resolved.** -/
theorem Opens.exists_resolves {i : Nat} {kind : Branch} (h : c.Opens i kind) : ∃ j, c.Resolves j i := by
  have hbracket : roleAt c.items i = .opens ∨ roleAt c.items i = .turns → ∃ j, c.Resolves j i := by
    intro hrole
    have hlast : i ∉ brackets c.items c.items.length := by
      rw [c.brackets_last]
      exact List.not_mem_nil
    obtain ⟨j, -, -, ho⟩ := exists_opener?_eq (mem_brackets_self hrole) hlast h.lt
    exact ⟨j, .closing ho h⟩
  cases h with
  | «if» h | define h _ => exact hbracket (.inl (roleAt_of_getElem? h))
  | «else» h | «while» h => exact hbracket (.inr (roleAt_of_getElem? h))
  | @call token h =>
    rcases waits_or_resolves h (Opens.call h).lt (Nat.le_refl _) with hw | ⟨j, -, hres⟩
    · have hmem := (mem_waiting_iff (Nat.le_refl _)).mpr ⟨i, token, hw, rfl⟩
      have hempty : (c.state c.items.length).forward.waiting = [] := c.last_complete.2.2
      rw [hempty] at hmem
      cases hmem
    · exact ⟨j, hres⟩

/-! ### The instructions -/

variable (c)

/-- Where the field at `site` is sent by the first `k` items. -/
def sent : Nat → Nat → Option Nat
  | 0, _ => none
  | k + 1, site =>
    (sending (((c.items[k]?).map (c.state k).fixes).getD []) (c.offset (k + 1)) site).or (sent k site)

/-- The blocks of the first `k` items behind the number printing routine. -/
def blocks : Nat → List Instruction
  | 0 => printNumber
  | k + 1 => blocks k ++ c.block k

/-- All that is emitted. -/
def emitted : List Instruction :=
  c.blocks c.items.length ++ c.ending

def instructions : List Instruction :=
  redirect (c.sent c.items.length) 0 c.emitted

variable {c}

theorem Opens.offset_lt {i : Nat} {kind : Branch} (h : c.Opens i kind) :
    c.offset i < c.offset (i + 1) - 4 ∧ 4 ≤ c.offset (i + 1) := by
  have hbounds := site_bounds_of_mem_links h.mem_links
  dsimp only at hbounds
  omega

theorem Opens.site_inj {i i' : Nat} {kind kind' : Branch} (h : c.Opens i kind) (h' : c.Opens i' kind')
    (hsite : c.offset (i + 1) - 4 = c.offset (i' + 1) - 4) : i = i' := by
  have hi := h.offset_lt
  have hi' := h'.offset_lt
  rcases Nat.lt_trichotomy i i' with hlt | heq | hlt
  · have hmono : c.offset (i + 1) ≤ c.offset i' := c.offset_mono hlt (Nat.le_of_lt h'.lt)
    omega
  · exact heq
  · have hmono : c.offset (i' + 1) ≤ c.offset i := c.offset_mono hlt (Nat.le_of_lt h.lt)
    omega

/-- **Where fields are sent**: a waiting branch to the place behind the item that resolves it, and no other branch. -/
theorem sent_eq_some_iff {site target : Nat} (hk : k ≤ c.items.length) :
    c.sent k site = some target ↔
      ∃ i j, j < k ∧ c.Resolves j i ∧ site = c.offset (i + 1) - 4 ∧ target = c.offset (j + 1) := by
  induction k with
  | zero => simp [sent]
  | succ k ih =>
    have hitem := List.getElem?_eq_getElem hk
    have hfixes : site ∈ ((c.items[k]?).map (c.state k).fixes).getD [] ↔
        ∃ i, c.Resolves k i ∧ site = c.offset (i + 1) - 4 := by
      rw [hitem]
      exact mem_fixes_iff hitem
    rw [sent, sending]
    by_cases hmem : site ∈ ((c.items[k]?).map (c.state k).fixes).getD []
    · obtain ⟨i, hres, hsite⟩ := hfixes.mp hmem
      rw [if_pos hmem, Option.some_or, Option.some.injEq]
      constructor
      · rintro rfl
        exact ⟨i, k, Nat.lt_succ_self k, hres, hsite, rfl⟩
      · rintro ⟨i', j, -, hres', hsite', rfl⟩
        obtain ⟨kind, hopens⟩ := hres.opens
        obtain ⟨kind', hopens'⟩ := hres'.opens
        obtain rfl := hopens.site_inj hopens' (hsite.symm.trans hsite')
        rw [hres.unique hres']
    · rw [if_neg hmem, Option.none_or, ih (Nat.le_of_succ_le hk)]
      constructor
      · rintro ⟨i, j, hjk, hres, hsite, htarget⟩
        exact ⟨i, j, Nat.lt_succ_of_lt hjk, hres, hsite, htarget⟩
      · rintro ⟨i, j, hjk, hres, hsite, htarget⟩
        rcases Nat.lt_succ_iff_lt_or_eq.mp hjk with hlt | rfl
        · exact ⟨i, j, hlt, hres, hsite, htarget⟩
        · exact absurd (hfixes.mpr ⟨i, hres, hsite⟩) hmem

theorem codeSize_blocks (hk : k ≤ c.items.length) : codeSize (c.blocks k) = c.offset k := by
  induction k with
  | zero =>
    rw [blocks, offset, state_zero, announced_eq]
    exact (Nat.zero_add _).symm.trans (Emitter.offset_emitBlock {} printNumber).symm
  | succ k ih => rw [blocks, codeSize_append, ih (Nat.le_of_succ_le hk), c.offset_succ hk]

/-- A block that is emitted later has none of the fields that were sent before. -/
theorem redirect_sent_eq_self {offset : Nat} {block : List Instruction} (hk : k ≤ c.items.length)
    (hoffset : c.offset k ≤ offset) : redirect (c.sent k) offset block = block := by
  refine redirect_eq_self fun l hl => ?_
  refine Option.eq_none_iff_forall_ne_some.mpr fun target htarget => ?_
  obtain ⟨i, j, hjk, hres, hsite, -⟩ := (sent_eq_some_iff hk).mp htarget
  have hlt := (site_bounds_of_mem_links hl).1
  have hmono : c.offset (i + 1) ≤ c.offset k :=
    c.offset_mono (Nat.le_of_lt (Nat.lt_of_le_of_lt hres.lt hjk)) hk
  omega

theorem mem_links_blocks {i : Nat} {l : Link} (hik : i < k) (hk : k ≤ c.items.length)
    (hl : l ∈ links (c.offset i) (c.block i)) : l ∈ links 0 (c.blocks k) := by
  induction k with
  | zero => cases hik
  | succ k ih =>
    rw [blocks, links_append, Nat.zero_add, codeSize_blocks (Nat.le_of_succ_le hk)]
    rcases Nat.lt_succ_iff_lt_or_eq.mp hik with hlt | rfl
    · exact List.mem_append_left _ (ih hlt (Nat.le_of_succ_le hk))
    · exact List.mem_append_right _ hl

theorem holds_state (hk : k ≤ c.items.length) :
    (c.state k).code.Holds (redirect (c.sent k) 0 (c.blocks k)) := by
  induction k with
  | zero =>
    rw [state_zero, announced_eq, blocks, show c.sent 0 = fun _ => none from rfl, redirect_none]
    exact holds_initial c.options
  | succ k ih =>
    have hk' := Nat.le_of_succ_le hk
    have hitem := List.getElem?_eq_getElem hk
    have haims := (c.compiled hitem).aims
    -- The block of the item is not affected by what was sent before.
    have hsplit : redirect (c.sent k) 0 (c.blocks (k + 1)) =
        redirect (c.sent k) 0 (c.blocks k) ++ c.block k := by
      rw [blocks, redirect_append, Nat.zero_add, codeSize_blocks hk',
        redirect_sent_eq_self hk' (Nat.le_refl _)]
    have hheld := (ih hk').append (c.block k)
    rw [← hsplit, c.block_eq hitem] at hheld
    have hfields : ∀ site ∈ (c.state k).fixes c.items[k],
        ∃ l ∈ links 0 (redirect (c.sent k) 0 (c.blocks (k + 1))), l.site = site := by
      intro site hsite
      obtain ⟨i, hres, rfl⟩ := (mem_fixes_iff hitem).mp hsite
      obtain ⟨kind, hopens⟩ := hres.opens
      have hlink := mem_links_blocks (Nat.lt_succ_of_lt hres.lt) hk hopens.mem_links
      refine ⟨Link.redirect (c.sent k) ⟨kind, c.offset (i + 1) - 4, 0⟩, ?_, Link.site_redirect _ _⟩
      rw [links_redirect]
      exact List.mem_map_of_mem hlink
    have hafter := haims.2 _ hheld hfields
    rw [redirect_redirect] at hafter
    have hsent : c.sent (k + 1) = fun site =>
        (sending ((c.state k).fixes c.items[k]) (c.offset (k + 1)) site).or (c.sent k site) := by
      funext site
      rw [sent, hitem]
      rfl
    rw [hsent]
    exact hafter

/-- **The code of a program** consists of its instructions. -/
theorem code_eq (c : Compilation) : c.program.code = assemble c.instructions := by
  have hlast := holds_state (c := c) (Nat.le_refl _)
  have hend : redirect (c.sent c.items.length) (c.offset c.items.length) c.ending = c.ending :=
    redirect_sent_eq_self (Nat.le_refl _) (Nat.le_refl _)
  rw [c.built.1, instructions, emitted, redirect_append, Nat.zero_add, codeSize_blocks (Nat.le_refl _), hend,
    assemble_append]
  exact congrArg (· ++ assemble c.ending) hlast

end Compilation

end ForthElf
