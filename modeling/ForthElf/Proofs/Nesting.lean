import ForthElf.Proofs.Compilation

/-!
# Nesting

Constructs and definitions are brackets: `if`, `begin`, `do` and `:` open one, `else` and `while` replace the
innermost one, and the other closing words and `;` take it away.

* `brackets items k` — the open brackets in front of item `k`, innermost first, each by the number of its item;
* `opener? items j` — the bracket that item `j` closes or replaces;
* `exists_opener?_eq` — every bracket that is opened and does not stay open is closed, and by `opener?_inj` once;
* `Compilation.tracks` — **the control stack of the compiler follows the brackets**;
* `Compilation.closesItem_of_opener?` — which words match in a program that compiles.
-/

namespace ForthElf

/-! ### Brackets -/

/-- What item number `k` does to the open brackets. -/
def Role.nest (stack : List Nat) (k : Nat) : Role → List Nat
  | .opens => k :: stack
  | .turns => k :: stack.tail
  | .closes => stack.tail
  | .plain => stack

def roleAt (items : List Item) (k : Nat) : Role :=
  ((items[k]?).map Item.role).getD .plain

/-- The open brackets in front of item `k`, innermost first. -/
def brackets (items : List Item) : Nat → List Nat
  | 0 => []
  | k + 1 => (roleAt items k).nest (brackets items k) k

/-- The bracket that item `j` closes or replaces. -/
def opener? (items : List Item) (j : Nat) : Option Nat :=
  match roleAt items j with
  | .turns | .closes => (brackets items j).head?
  | .opens | .plain => none

section Brackets

variable {items : List Item} {i j k n : Nat}

theorem roleAt_of_getElem? {item : Item} (h : items[k]? = some item) : roleAt items k = item.role := by
  rw [roleAt, h]
  rfl

theorem brackets_succ (items : List Item) (k : Nat) :
    brackets items (k + 1) = (roleAt items k).nest (brackets items k) k := rfl

theorem lt_of_mem_brackets (h : i ∈ brackets items k) : i < k := by
  induction k with
  | zero => cases h
  | succ k ih =>
    have hold : i ∈ brackets items k → i < k + 1 := fun h => Nat.lt_succ_of_lt (ih h)
    rw [brackets_succ] at h
    cases hrole : roleAt items k <;> simp only [hrole, Role.nest] at h
    · rcases List.mem_cons.mp h with rfl | h
      · exact Nat.lt_succ_self i
      · exact hold h
    · rcases List.mem_cons.mp h with rfl | h
      · exact Nat.lt_succ_self i
      · exact hold (List.mem_of_mem_tail h)
    · exact hold (List.mem_of_mem_tail h)
    · exact hold h

theorem pairwise_brackets (items : List Item) (k : Nat) : (brackets items k).Pairwise (· > ·) := by
  induction k with
  | zero => exact .nil
  | succ k ih =>
    have hlt : ∀ i ∈ brackets items k, k > i := fun i => lt_of_mem_brackets
    rw [brackets_succ]
    cases roleAt items k <;> simp only [Role.nest]
    · exact .cons hlt ih
    · exact .cons (fun i hi => hlt i (List.mem_of_mem_tail hi)) ih.tail
    · exact ih.tail
    · exact ih

theorem mem_brackets_of_opener? (h : opener? items j = some i) : i ∈ brackets items j := by
  unfold opener? at h
  split at h
  · exact List.mem_of_mem_head? h
  · exact List.mem_of_mem_head? h
  · cases h
  · cases h

theorem opener?_lt (h : opener? items j = some i) : i < j :=
  lt_of_mem_brackets (mem_brackets_of_opener? h)

theorem mem_brackets_succ (hi : i ∈ brackets items k) (hne : opener? items k ≠ some i) :
    i ∈ brackets items (k + 1) := by
  have htail : (brackets items k).head? ≠ some i → i ∈ (brackets items k).tail := by
    intro hhead
    cases hb : brackets items k with
    | nil =>
      rw [hb] at hi
      cases hi
    | cons b bs =>
      rw [hb] at hi hhead
      rcases List.mem_cons.mp hi with rfl | hi
      · exact absurd rfl hhead
      · exact hi
  rw [brackets_succ]
  unfold opener? at hne
  cases hrole : roleAt items k <;> simp only [hrole] at hne <;> simp only [Role.nest]
  · exact List.mem_cons_of_mem k hi
  · exact List.mem_cons_of_mem k (htail hne)
  · exact htail hne
  · exact hi

theorem mem_brackets_of_succ (h : i ∈ brackets items (k + 1)) (hne : i ≠ k) : i ∈ brackets items k := by
  rw [brackets_succ] at h
  cases hrole : roleAt items k <;> simp only [hrole, Role.nest, List.mem_cons, hne, false_or] at h
  · exact h
  · exact List.mem_of_mem_tail h
  · exact List.mem_of_mem_tail h
  · exact h

/-- **Every bracket that does not stay open is closed.** -/
theorem exists_opener?_eq (hi : i ∈ brackets items k) (hn : i ∉ brackets items n) (hkn : k ≤ n) :
    ∃ j, k ≤ j ∧ j < n ∧ opener? items j = some i := by
  induction hkn with
  | refl => exact absurd hi hn
  | @step m hkm ih =>
    by_cases hm : i ∈ brackets items m
    · refine ⟨m, hkm, Nat.lt_succ_self m, ?_⟩
      exact Decidable.byContradiction fun hne => hn (mem_brackets_succ hm hne)
    · obtain ⟨j, hkj, hjm, hj⟩ := ih hm
      exact ⟨j, hkj, Nat.lt_succ_of_lt hjm, hj⟩

/-- A bracket that is closed does not come back. -/
theorem not_mem_brackets_of_opener? (h : opener? items j = some i) (hjk : j < k) :
    i ∉ brackets items k := by
  induction hjk with
  | refl =>
    have hij := opener?_lt h
    have htail : i ∉ (brackets items j).tail := by
      intro hmem
      have hhead : (brackets items j).head? = some i := by
        unfold opener? at h
        split at h <;> first | exact h | cases h
      have hpair := pairwise_brackets items j
      cases hb : brackets items j with
      | nil =>
        rw [hb] at hhead
        cases hhead
      | cons b bs =>
        rw [hb] at hhead hmem hpair
        cases hhead
        exact Nat.lt_irrefl i ((List.pairwise_cons.mp hpair).1 i hmem)
    have hne : i ≠ j := Nat.ne_of_lt hij
    rw [brackets_succ]
    unfold opener? at h
    cases hrole : roleAt items j <;> simp only [hrole] at h <;> simp only [Role.nest]
    · cases h
    · exact fun hmem => (List.mem_cons.mp hmem).elim hne htail
    · exact htail
    · cases h
  | @step m hjm ih =>
    have hne : i ≠ m := Nat.ne_of_lt (Nat.lt_trans (opener?_lt h) hjm)
    rw [brackets_succ]
    cases roleAt items m <;> simp only [Role.nest]
    · exact fun hmem => (List.mem_cons.mp hmem).elim hne ih
    · exact fun hmem => (List.mem_cons.mp hmem).elim hne fun hmem => ih (List.mem_of_mem_tail hmem)
    · exact fun hmem => ih (List.mem_of_mem_tail hmem)
    · exact ih

theorem opener?_inj (hj : opener? items j = some i) (hk : opener? items k = some i) : j = k := by
  rcases Nat.lt_trichotomy j k with h | h | h
  · exact absurd (mem_brackets_of_opener? hk) (not_mem_brackets_of_opener? hj h)
  · exact h
  · exact absurd (mem_brackets_of_opener? hj) (not_mem_brackets_of_opener? hk h)

theorem roleAt_of_mem_brackets (h : i ∈ brackets items k) :
    roleAt items i = .opens ∨ roleAt items i = .turns := by
  induction k with
  | zero => cases h
  | succ k ih =>
    rw [brackets_succ] at h
    cases hrole : roleAt items k <;> simp only [hrole, Role.nest] at h
    · rcases List.mem_cons.mp h with rfl | h
      · exact .inl hrole
      · exact ih h
    · rcases List.mem_cons.mp h with rfl | h
      · exact .inr hrole
      · exact ih (List.mem_of_mem_tail h)
    · exact ih (List.mem_of_mem_tail h)
    · exact ih h

theorem mem_brackets_self (h : roleAt items i = .opens ∨ roleAt items i = .turns) :
    i ∈ brackets items (i + 1) := by
  rw [brackets_succ]
  rcases h with h | h <;> rw [h] <;> exact List.mem_cons_self

end Brackets

/-! ### The control stack -/

namespace Compilation

open Compiler

variable (c : Compilation)

/-- A construct as item number `k` left it open. -/
inductive FrameOf : Nat → Frame → Prop
  | «if» {k : Nat} {token : Token} {index : Nat} (h : c.items[k]? = some (.keyword .«if» token index)) :
    FrameOf k ⟨.«if» (c.offset (k + 1) - 4), token.pos, .spilled⟩
  | «else» {k : Nat} {token : Token} {index : Nat} (h : c.items[k]? = some (.keyword .«else» token index)) :
    FrameOf k ⟨.«else» (c.offset (k + 1) - 4), token.pos, .spilled⟩
  | «begin» {k : Nat} {token : Token} {index : Nat}
    (h : c.items[k]? = some (.keyword .«begin» token index)) :
    FrameOf k ⟨.«begin» (c.offset (k + 1)), token.pos, .spilled⟩
  | «while» {k b : Nat} {token : Token} {index : Nat}
    (h : c.items[k]? = some (.keyword .«while» token index)) (hb : opener? c.items k = some b) :
    FrameOf k ⟨.«while» (c.offset (b + 1)) (c.offset (k + 1) - 4), token.pos, .spilled⟩
  | «do» {k : Nat} {token : Token} {index : Nat} (h : c.items[k]? = some (.keyword .«do» token index)) :
    FrameOf k ⟨.«do» (c.offset (k + 1)), token.pos, .spilled⟩

def definition (k : Nat) (colon name : Token) : OpenDefinition :=
  ⟨name.text, (c.state k).dictionary.size, c.offset (k + 1), colon.pos,
    if (c.state k).entry.isSome then some (c.offset (k + 1) - 4) else none⟩

/-- The control stack and the open definition that belong to a list of brackets. -/
inductive Tracks : List Nat → ControlStack → Option OpenDefinition → Prop
  | main : Tracks [] [] none
  | body {k : Nat} {colon name : Token} {index : Nat}
    (h : c.items[k]? = some (.define colon name index)) : Tracks [k] [] (some (c.definition k colon name))
  | frame {k : Nat} {frame : Frame} {ks : List Nat} {stack : ControlStack}
    {current : Option OpenDefinition} (h : c.FrameOf k frame) (ht : Tracks ks stack current) :
    Tracks (k :: ks) (frame :: stack) current

variable {c} {k : Nat} {item : Item}

/-- The innermost construct is that of the innermost bracket. -/
theorem Tracks.of_innermost? {bs : List Nat} {s : Compiler} {construct : Construct}
    (ht : c.Tracks bs s.control s.current) (h : s.innermost? = some construct) :
    ∃ b ks frame rest, bs = b :: ks ∧ s.control = frame :: rest ∧ frame.construct = construct ∧
      c.FrameOf b frame ∧ c.Tracks ks rest s.current := by
  generalize hcontrol : s.control = control at ht
  generalize s.current = current at ht ⊢
  cases ht with
  | main => simp [innermost?, hcontrol] at h
  | body h' => simp [innermost?, hcontrol] at h
  | frame hframe ht =>
    refine ⟨_, _, _, _, rfl, rfl, ?_, hframe, ht⟩
    simpa [innermost?, hcontrol] using h

theorem Tracks.of_body {bs : List Nat} {d : OpenDefinition} (ht : c.Tracks bs [] (some d)) :
    ∃ b colon name index, bs = [b] ∧ c.items[b]? = some (.define colon name index) ∧
      d = c.definition b colon name := by
  cases ht with
  | body h => exact ⟨_, _, _, _, rfl, h, rfl⟩

theorem frameOf_opened {frame : Frame} (h : c.items[k]? = some item)
    (ht : c.Tracks (brackets c.items k) (c.state k).control (c.state k).current)
    (hframe : ((c.state k).ready item).opened item = some frame) : c.FrameOf k frame := by
  have hstep := c.compiled h
  have hadmits := hstep.admits
  unfold opened at hframe
  rw [← hstep.offset_eq_behind] at hframe
  split at hframe
  · cases hframe
    exact .«if» h
  · cases hframe
    exact .«else» h
  · cases hframe
    exact .«begin» h
  · -- `while` keeps the target and the place of the top cell of its `begin`.
    obtain ⟨target, htarget⟩ : ∃ target, (c.state k).innermost? = some (.«begin» target) := by
      simpa [Admits, AdmitsKeyword] using hadmits
    obtain ⟨b, ks, frame', rest, hbs, hcontrol, hbegin, hb, -⟩ := ht.of_innermost? htarget
    have hopener : opener? c.items k = some b := by
      rw [opener?, roleAt_of_getElem? h, hbs]
      rfl
    cases hb <;> cases hbegin
    have hback : (c.state k).backTarget = c.offset (b + 1) := by
      rw [backTarget, htarget]
      rfl
    have hmerge : (c.state k).mergeState = .spilled := by
      rw [mergeState, hcontrol]
      rfl
    rw [backTarget_ready, mergeState_ready, hback, hmerge] at hframe
    cases hframe
    exact .«while» h hopener
  · cases hframe
    exact .«do» h
  · cases hframe

theorem isSome_opened_iff (s : Compiler) (keyword : Keyword) (token : Token) (index : Nat) :
    (s.opened (.keyword keyword token index)).isSome ↔ keyword.role = .opens ∨ keyword.role = .turns := by
  cases keyword <;> simp [opened, Keyword.role]

/-- A keyword that closes or replaces a construct finds one. -/
theorem exists_innermost? {keyword : Keyword} {token : Token} {index : Nat}
    (h : c.items[k]? = some (.keyword keyword token index))
    (hrole : keyword.role = .turns ∨ keyword.role = .closes) (hne : keyword ≠ .semicolon) :
    ∃ construct, (c.state k).innermost? = some construct := by
  have hadmits := (c.compiled h).admits
  cases keyword <;> simp [Keyword.role] at hrole hne <;>
    simp only [Admits, AdmitsKeyword, innermost?_ready] at hadmits
  case «else» => exact ⟨_, hadmits.choose_spec⟩
  case «then» =>
    obtain ⟨site, hif | helse⟩ := hadmits
    · exact ⟨_, hif⟩
    · exact ⟨_, helse⟩
  case «repeat» => exact ⟨_, hadmits.choose_spec.choose_spec⟩
  all_goals exact ⟨_, hadmits.choose_spec⟩

/-- One item keeps the control stack on the brackets. -/
theorem Tracks.step (h : c.items[k]? = some item)
    (ht : c.Tracks (brackets c.items k) (c.state k).control (c.state k).current) :
    c.Tracks (brackets c.items (k + 1)) (c.state (k + 1)).control (c.state (k + 1)).current := by
  have hstep := c.compiled h
  have hadmits := hstep.admits
  rw [hstep.control, hstep.current, brackets_succ, roleAt_of_getElem? h]
  cases item with
  | define colon name index =>
    obtain ⟨hcurrent, hcontrol⟩ : (c.state k).current = none ∧ (c.state k).control = [] := by
      simpa [Admits] using hadmits
    have hbehind : c.offset (k + 1) = _ := hstep.offset_eq_behind
    rw [hcurrent, hcontrol] at ht
    generalize brackets c.items k = bs at ht ⊢
    cases ht
    simpa [controlAfter, opened, Item.role, Role.nest, hcontrol, currentAfter, ← hbehind, definition]
      using Tracks.body h
  | «variable» word name index =>
    simpa [controlAfter, opened, Item.role, Role.nest, currentAfter] using ht
  | number literal token index =>
    simpa [controlAfter, opened, Item.role, Role.nest, currentAfter] using ht
  | word token index =>
    simpa [controlAfter, opened, Item.role, Role.nest, currentAfter] using ht
  | keyword keyword token index =>
    by_cases hsemi : keyword = .semicolon
    · subst hsemi
      obtain ⟨hcurrent, hcontrol⟩ : (c.state k).current.isSome ∧ (c.state k).control = [] := by
        simpa [Admits, AdmitsKeyword] using hadmits
      obtain ⟨d, hd⟩ := Option.isSome_iff_exists.mp hcurrent
      rw [hcontrol, hd] at ht
      obtain ⟨b, colon, name, index', hbs, -, -⟩ := ht.of_body
      simpa [controlAfter, opened, Item.role, Keyword.role, Role.nest, hcontrol, currentAfter, hbs] using
        Tracks.main
    · have hcurrent : ((c.state k).ready (.keyword keyword token index)).currentAfter
          (.keyword keyword token index) = (c.state k).current := by
        cases keyword <;> first | exact absurd rfl hsemi | simp [currentAfter]
      have hopened := isSome_opened_iff ((c.state k).ready (.keyword keyword token index)) keyword token index
      rw [hcurrent, controlAfter, control_ready, Item.role]
      cases hrole : keyword.role with
      | opens =>
        obtain ⟨frame, hframe⟩ := Option.isSome_iff_exists.mp (hopened.mpr (.inl hrole))
        rw [hframe]
        exact .frame (frameOf_opened h ht hframe) ht
      | plain =>
        have hnone := Option.not_isSome_iff_eq_none.mp fun hsome => by
          rcases hopened.mp hsome with h | h <;> rw [hrole] at h <;> cases h
        rw [hnone]
        exact ht
      | turns =>
        obtain ⟨construct, hconstruct⟩ := exists_innermost? h (.inl hrole) hsemi
        obtain ⟨b, ks, frame', rest, hbs, hcontrol, -, -, hrest⟩ := ht.of_innermost? hconstruct
        obtain ⟨frame, hframe⟩ := Option.isSome_iff_exists.mp (hopened.mpr (.inr hrole))
        have hnew := frameOf_opened h ht hframe
        rw [hframe, hcontrol, hbs]
        exact .frame hnew hrest
      | closes =>
        obtain ⟨construct, hconstruct⟩ := exists_innermost? h (.inr hrole) hsemi
        obtain ⟨b, ks, frame', rest, hbs, hcontrol, -, -, hrest⟩ := ht.of_innermost? hconstruct
        have hnone := Option.not_isSome_iff_eq_none.mp fun hsome => by
          rcases hopened.mp hsome with h | h <;> rw [hrole] at h <;> cases h
        rw [hnone, hcontrol, hbs]
        exact hrest

variable (c)

/-- **The control stack follows the brackets.** -/
theorem tracks (hk : k ≤ c.items.length) :
    c.Tracks (brackets c.items k) (c.state k).control (c.state k).current := by
  refine c.invariant (P := fun k s => c.Tracks (brackets c.items k) s.control s.current) ?_
    (fun k item h ht => ht.step h) hk
  rw [state_zero, announced_eq]
  exact .main

theorem brackets_last : brackets c.items c.items.length = [] := by
  have ht := c.tracks (Nat.le_refl _)
  obtain ⟨hcurrent, hcontrol, -⟩ := c.last_complete
  change c.Tracks _ c.last.control c.last.current at ht
  rw [hcurrent, hcontrol] at ht
  generalize brackets c.items c.items.length = bs at ht ⊢
  cases ht
  rfl

/-! ### Matching items -/

/-- Whether a keyword closes or replaces the bracket that an item opens. -/
def closesItem : Keyword → Item → Bool
  | .«else», .keyword .«if» _ _ => true
  | .«then», .keyword .«if» _ _ => true
  | .«then», .keyword .«else» _ _ => true
  | .«until», .keyword .«begin» _ _ => true
  | .again, .keyword .«begin» _ _ => true
  | .«while», .keyword .«begin» _ _ => true
  | .«repeat», .keyword .«while» _ _ => true
  | .loop, .keyword .«do» _ _ => true
  | .plusLoop, .keyword .«do» _ _ => true
  | .semicolon, .define _ _ _ => true
  | _, _ => false

variable {c}

/-- **Brackets match.** -/
theorem closesItem_of_opener? {b : Nat} (ho : opener? c.items k = some b) :
    ∃ keyword token index item, c.items[k]? = some (.keyword keyword token index) ∧
      c.items[b]? = some item ∧ closesItem keyword item := by
  have hhead : (brackets c.items k).head? = some b ∧
      (roleAt c.items k = .turns ∨ roleAt c.items k = .closes) := by
    unfold opener? at ho
    cases hrole : roleAt c.items k <;> simp_all
  obtain ⟨hhead, hrole⟩ := hhead
  cases h : c.items[k]? with
  | none => simp [roleAt, h] at hrole
  | some item =>
    rw [roleAt_of_getElem? h] at hrole
    cases item with
    | keyword keyword token index =>
      refine ⟨keyword, token, index, ?_⟩
      have ht := c.tracks (Nat.le_of_lt (List.getElem?_eq_some_iff.mp h).1)
      have hadmits := (c.compiled h).admits
      by_cases hsemi : keyword = .semicolon
      · subst hsemi
        obtain ⟨hcurrent, hcontrol⟩ : (c.state k).current.isSome ∧ (c.state k).control = [] := by
          simpa [Admits, AdmitsKeyword] using hadmits
        obtain ⟨d, hd⟩ := Option.isSome_iff_exists.mp hcurrent
        rw [hcontrol, hd] at ht
        obtain ⟨b', colon, name, index', hbs, hdefine, -⟩ := ht.of_body
        rw [hbs] at hhead
        cases hhead
        exact ⟨_, rfl, hdefine, rfl⟩
      · obtain ⟨construct, hconstruct⟩ := exists_innermost? h hrole hsemi
        obtain ⟨b', ks, frame, rest, hbs, -, hframe, hb, -⟩ := ht.of_innermost? hconstruct
        rw [hbs] at hhead
        cases hhead
        simp only [Admits, AdmitsKeyword, innermost?_ready, hconstruct, Option.some.injEq, ← hframe] at hadmits
        cases hb <;> cases keyword <;> simp [Item.role, Keyword.role] at hrole hadmits hsemi <;>
          exact ⟨_, rfl, by assumption, rfl⟩
    | _ => simp [Item.role] at hrole

end Compilation

end ForthElf
