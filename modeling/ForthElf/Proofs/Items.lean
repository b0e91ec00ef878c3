import ForthElf.Program

/-!
# Items

A colon and `variable` take the next token as a name, so a list of tokens is compiled in items of one or two tokens.

* `Item`, `itemsFrom index tokens` — the items of a list of tokens, the first of which has the given index;
* `Compiler.compileItem` — compiles one item;
* `Compiler.compileFrom_eq_forM` — **a list of tokens is compiled item by item**;
* `headersFrom_eq_filterMap` — the announced headers are the items that open a definition.
-/

namespace ForthElf

/-! ### The items of a list of tokens -/

/-- What is compiled at once; `index` is the index of its first token. -/
inductive Item where
  /-- A colon and the name behind it. -/
  | define (colon name : Token) (index : Nat)
  /-- The word `variable` and the name behind it. -/
  | «variable» (word name : Token) (index : Nat)
  | keyword (keyword : Keyword) (token : Token) (index : Nat)
  | number (literal : Literal) (token : Token) (index : Nat)
  | word (token : Token) (index : Nat)
deriving DecidableEq

namespace Item

def index : Item → Nat
  | .define _ _ index => index
  | .«variable» _ _ index => index
  | .keyword _ _ index => index
  | .number _ _ index => index
  | .word _ index => index

def token : Item → Token
  | .define colon _ _ => colon
  | .«variable» announcer _ _ => announcer
  | .keyword _ token _ => token
  | .number _ token _ => token
  | .word token _ => token

/-- The item of a token that takes no name. -/
def ofToken (token : Token) (index : Nat) : Item :=
  match token.class with
  | .keyword found => .keyword found token index
  | .number literal => .number literal token index
  | .word => .word token index

@[simp] theorem index_ofToken (token : Token) (index : Nat) : (ofToken token index).index = index := by
  unfold ofToken
  split <;> rfl

@[simp] theorem token_ofToken (token : Token) (index : Nat) : (ofToken token index).token = token := by
  unfold ofToken
  split <;> rfl

def header? : Item → Option Header
  | .define _ name index => some ⟨name.text, index⟩
  | _ => none

@[simp] theorem header?_ofToken (token : Token) (index : Nat) : (ofToken token index).header? = none := by
  unfold ofToken
  split <;> rfl

end Item

/-- The items of tokens, the first of which has the given index. -/
def itemsFrom (index : Nat) : List Token → List Item
  | [] => []
  | [token] => [.ofToken token index]
  | token :: name :: rest =>
    if token.class = .keyword .colon then .define token name index :: itemsFrom (index + 2) rest
    else if token.class = .keyword .«variable» then
      .«variable» token name index :: itemsFrom (index + 2) rest
    else .ofToken token index :: itemsFrom (index + 1) (name :: rest)

def items (tokens : List Token) : List Item :=
  itemsFrom 0 tokens

theorem itemsFrom_cons {index : Nat} {token : Token} (hcolon : token.class ≠ .keyword .colon)
    (hvariable : token.class ≠ .keyword .«variable») (rest : List Token) :
    itemsFrom index (token :: rest) = .ofToken token index :: itemsFrom (index + 1) rest := by
  rcases rest with _ | ⟨name, rest⟩
  · rw [itemsFrom, itemsFrom]
  · rw [itemsFrom, if_neg hcolon, if_neg hvariable]

theorem le_index_of_mem_itemsFrom {index : Nat} {tokens : List Token} {item : Item}
    (h : item ∈ itemsFrom index tokens) : index ≤ item.index := by
  fun_induction itemsFrom index tokens with
  | case1 => cases h
  | case2 index token =>
    have hindex : item.index = index := by rw [List.mem_singleton.mp h, Item.index_ofToken]
    exact Nat.le_of_eq hindex.symm
  | case3 index token name rest _ ih | case4 index token name rest _ _ ih =>
    rcases List.mem_cons.mp h with rfl | h
    · exact Nat.le_refl index
    · exact Nat.le_trans (Nat.le_add_right index 2) (ih h)
  | case5 index token name rest _ _ ih =>
    rcases List.mem_cons.mp h with rfl | h
    · exact Nat.le_of_eq (Item.index_ofToken token index).symm
    · exact Nat.le_trans (Nat.le_add_right index 1) (ih h)

theorem pairwise_itemsFrom (index : Nat) (tokens : List Token) :
    (itemsFrom index tokens).Pairwise fun a b => a.index < b.index := by
  fun_induction itemsFrom index tokens with
  | case1 => exact .nil
  | case2 index token => exact List.pairwise_singleton _ _
  | case3 index token name rest _ ih | case4 index token name rest _ _ ih =>
    refine .cons (fun item hitem => ?_) ih
    have := le_index_of_mem_itemsFrom hitem
    exact Nat.lt_of_lt_of_le (Nat.lt_add_of_pos_right (by decide)) this
  | case5 index token name rest _ _ ih =>
    refine .cons (fun item hitem => ?_) ih
    have := le_index_of_mem_itemsFrom hitem
    rw [Item.index_ofToken]
    omega

/-- An item with the tokens behind its first one. -/
inductive Item.Begins : Item → List Token → Prop where
  | plain {t : Token} {index : Nat} {rest : List Token} (hcolon : t.class ≠ .keyword .colon)
    (hvariable : t.class ≠ .keyword .«variable») : Begins (.ofToken t index) rest
  | last {t : Token} {index : Nat} : Begins (.ofToken t index) []
  | define {t name : Token} {index : Nat} {rest : List Token} (ht : t.class = .keyword .colon) :
    Begins (.define t name index) (name :: rest)
  | «variable» {t name : Token} {index : Nat} {rest : List Token} (ht : t.class = .keyword .«variable») :
    Begins (.«variable» t name index) (name :: rest)

/-- The items in front of an item are those of the tokens in front of it. -/
theorem exists_tokens_eq {index : Nat} {tokens : List Token} {front back : List Item} {item : Item}
    (h : itemsFrom index tokens = front ++ item :: back) :
    ∃ cut rest, tokens = cut ++ item.token :: rest ∧ itemsFrom index cut = front ∧ item.Begins rest := by
  fun_induction itemsFrom index tokens generalizing front with
  | case1 => simp at h
  | case2 index token =>
    obtain ⟨rfl, rfl⟩ : front = [] ∧ item = .ofToken token index := by
      rcases front with _ | ⟨_, _ | _⟩ <;> simp_all
    exact ⟨[], [], by rw [Item.token_ofToken]; rfl, by rw [itemsFrom], .last⟩
  | case3 index token name rest hcolon ih =>
    rcases front with _ | ⟨first, front⟩
    · obtain ⟨rfl, -⟩ := List.cons.inj h
      exact ⟨[], name :: rest, rfl, by rw [itemsFrom], .define hcolon⟩
    · obtain ⟨rfl, hrest⟩ := List.cons.inj h
      obtain ⟨cut, rest, rfl, rfl, hbegins⟩ := ih hrest
      exact ⟨token :: name :: cut, rest, rfl, by rw [itemsFrom, if_pos hcolon], hbegins⟩
  | case4 index token name rest hcolon hvariable ih =>
    rcases front with _ | ⟨first, front⟩
    · obtain ⟨rfl, -⟩ := List.cons.inj h
      exact ⟨[], name :: rest, rfl, by rw [itemsFrom], .«variable» hvariable⟩
    · obtain ⟨rfl, hrest⟩ := List.cons.inj h
      obtain ⟨cut, rest, rfl, rfl, hbegins⟩ := ih hrest
      exact ⟨token :: name :: cut, rest, rfl, by rw [itemsFrom, if_neg hcolon, if_pos hvariable], hbegins⟩
  | case5 index token name rest hcolon hvariable ih =>
    rcases front with _ | ⟨first, front⟩
    · obtain ⟨rfl, -⟩ := List.cons.inj h
      exact ⟨[], name :: rest, by rw [Item.token_ofToken]; rfl, by rw [itemsFrom], .plain hcolon hvariable⟩
    · obtain ⟨rfl, hrest⟩ := List.cons.inj h
      obtain ⟨cut, rest, heq, rfl, hbegins⟩ := ih hrest
      exact ⟨token :: cut, rest, by rw [heq]; rfl, itemsFrom_cons hcolon hvariable cut, hbegins⟩

theorem length_itemsFrom_le (index : Nat) (tokens : List Token) : (itemsFrom index tokens).length ≤ tokens.length := by
  fun_induction itemsFrom index tokens <;> simp_all <;> omega

namespace Compiler

/-- The announced headers are those of the items. -/
theorem headersFrom_eq_filterMap (index : Nat) (tokens : List Token) :
    headersFrom index tokens = (itemsFrom index tokens).filterMap Item.header? := by
  fun_induction itemsFrom index tokens with
  | case1 => rfl
  | case2 index token => simp [headersFrom]
  | case3 index token name rest h ih => simp [headersFrom, h, ih, Item.header?]
  | case4 index token name rest _ h ih => simp [headersFrom, h, ih, Item.header?, List.filterMap_cons]
  | case5 index token name rest h h' ih => simp [headersFrom, h, h', ih]

/-! ### Compiling items -/

def compileItem : Item → Compile Unit
  | .define colon name _ => do
    meetToken colon
    beginDefinition name colon.pos
  | .«variable» word name _ => do
    meetToken word
    defineVariable name word.pos
  | .keyword keyword token _ => do
    meetToken token
    compileKeyword token keyword
  | .number literal token _ => do
    meetToken token
    compileNumber token literal
  | .word token index => do
    meetToken token
    compileWord token index

theorem compileItem_ofToken (token : Token) (index : Nat) :
    compileItem (.ofToken token index) = (meetToken token >>= fun _ => compileToken token index) := by
  unfold Item.ofToken compileToken
  cases token.class <;> rfl

/-- **A list of tokens is compiled item by item.** -/
theorem compileFrom_eq_forM (index : Nat) (tokens : List Token) :
    compileFrom index tokens = (itemsFrom index tokens).forM compileItem := by
  fun_induction itemsFrom index tokens with
  | case1 => rfl
  | case2 index token => simp [compileFrom, compileItem_ofToken]
  | case3 index token name rest h ih => simp [compileFrom, h, ih, compileItem]
  | case4 index token name rest _ h ih => simp [compileFrom, h, ih, compileItem]
  | case5 index token name rest h h' ih => simp [compileFrom, h, h', ih, compileItem_ofToken]

end Compiler

end ForthElf
