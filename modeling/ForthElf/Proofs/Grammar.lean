import ForthElf.Proofs.Items

/-!
# The grammar of programs

* `Phrase inside loops dropped tokens dropped'` — items one after the other, in or outside of a definition and inside
  of so many counted loops; the last numbers count the words `unloop` since the last `exit` or boundary of a
  definition, in front of the tokens and behind them;
* `Sentence tokens` — a program: items and definitions one after the other;
* `Outline`, `Outline.read` — a reader that knows which constructs are open, and no more;
* `sentence_iff_read` — **the reader accepts the sentences**;
* `Outline.exists_closing` — **there are no dead ends**: what is read can be continued to a sentence.
-/

namespace ForthElf

def Token.Is (t : Token) (k : Keyword) : Prop :=
  t.class = .keyword k

instance (t : Token) (k : Keyword) : Decidable (t.Is k) :=
  inferInstanceAs (Decidable (_ = _))

/-! ### Phrases and sentences -/

/-- Items one after the other. -/
inductive Phrase (inside : Bool) : Nat → Nat → List Token → Nat → Prop where
  | empty {loops u : Nat} : Phrase inside loops u [] u
  | append {loops u v w : Nat} {x y : List Token} (hx : Phrase inside loops u x v) (hy : Phrase inside loops v y w) :
    Phrase inside loops u (x ++ y) w
  | word {loops u : Nat} {t : Token} (ht : t.class = .word) : Phrase inside loops u [t] u
  | literal {loops u : Nat} {t : Token} {value : BitVec 64} (ht : t.class = .number (.cell value)) :
    Phrase inside loops u [t] u
  | «variable» {loops u : Nat} {t : Token} (ht : t.Is .«variable») (name : Token) : Phrase inside loops u [t, name] u
  | ifThen {loops u v : Nat} {a b : Token} {x : List Token} (ha : a.Is .«if») (hx : Phrase inside loops u x v)
    (hb : b.Is .«then») : Phrase inside loops u (a :: (x ++ [b])) v
  | ifElseThen {loops u v w : Nat} {a b c : Token} {x y : List Token} (ha : a.Is .«if») (hx : Phrase inside loops u x v)
    (hb : b.Is .«else») (hy : Phrase inside loops v y w) (hc : c.Is .«then») :
    Phrase inside loops u (a :: (x ++ b :: (y ++ [c]))) w
  | beginUntil {loops u v : Nat} {a b : Token} {x : List Token} (ha : a.Is .«begin») (hx : Phrase inside loops u x v)
    (hb : b.Is .«until» ∨ b.Is .again) : Phrase inside loops u (a :: (x ++ [b])) v
  | beginWhileRepeat {loops u v w : Nat} {a b c : Token} {x y : List Token} (ha : a.Is .«begin»)
    (hx : Phrase inside loops u x v) (hb : b.Is .«while») (hy : Phrase inside loops v y w) (hc : c.Is .«repeat») :
    Phrase inside loops u (a :: (x ++ b :: (y ++ [c]))) w
  | doLoop {loops u v : Nat} {a b : Token} {x : List Token} (ha : a.Is .«do») (hx : Phrase inside (loops + 1) u x v)
    (hb : b.Is .loop ∨ b.Is .plusLoop) : Phrase inside loops u (a :: (x ++ [b])) v
  | index {loops u : Nat} {t : Token} (ht : t.Is .loopIndex) (hloops : 0 < loops) : Phrase inside loops u [t] u
  | outerIndex {loops u : Nat} {t : Token} (ht : t.Is .outerLoopIndex) (hloops : 1 < loops) :
    Phrase inside loops u [t] u
  | unloop {loops u : Nat} {t : Token} (ht : t.Is .unloop) (hloops : u < loops) : Phrase inside loops u [t] (u + 1)
  | exit {loops u : Nat} {t : Token} (ht : t.Is .exit) (hinside : inside) : Phrase inside loops u [t] 0
  | recurse {loops u : Nat} {t : Token} (ht : t.Is .recurse) (hinside : inside) : Phrase inside loops u [t] u

/-- Items and definitions one after the other, with the number of dropped loops in front of them and behind them. -/
inductive Program.Text : Nat → List Token → Nat → Prop where
  | items {u v : Nat} {x : List Token} (hx : Phrase false 0 u x v) : Text u x v
  | append {u v w : Nat} {x y : List Token} (hx : Text u x v) (hy : Text v y w) : Text u (x ++ y) w
  | definition {u v : Nat} {a name b : Token} {x : List Token} (ha : a.Is .colon) (hx : Phrase true 0 0 x v)
    (hb : b.Is .semicolon) : Text u (a :: name :: (x ++ [b])) 0

/-- **The sentences of the grammar.** -/
def Sentence (tokens : List Token) : Prop :=
  ∃ dropped, Program.Text 0 tokens dropped

/-! ### The reader -/

/-- The constructs that a word may close. -/
inductive Bracket where
  | «if»
  | «else»
  | «begin»
  | «while»
  | «do»
deriving DecidableEq

/-- What a reader knows: whether it is inside of a definition, the open constructs, innermost first, and the number of
dropped loops. -/
structure Outline where
  inside : Bool := false
  nest : List Bracket := []
  dropped : Nat := 0
deriving DecidableEq

namespace Outline

def loops (x : Outline) : Nat :=
  x.nest.count .«do»

def opening (x : Outline) (bracket : Bracket) : Outline :=
  { x with nest := bracket :: x.nest }

/-- Takes the innermost construct, which has to be one of a kind, and opens others in its place. -/
def replacing (x : Outline) (kinds new : List Bracket) : Option Outline :=
  match x.nest with
  | bracket :: rest => if bracket ∈ kinds then some { x with nest := new ++ rest } else none
  | [] => none

/-- Goes on under a condition. -/
def provided (x : Outline) (condition : Prop) [Decidable condition] : Option Outline :=
  if condition then some x else none

def stepKeyword (x : Outline) : Keyword → Option Outline
  | .colon | .«variable» => none
  | .semicolon => provided {} (x.inside = true ∧ x.nest = [])
  | .«if» => some (x.opening .«if»)
  | .«else» => x.replacing [.«if»] [.«else»]
  | .«then» => x.replacing [.«if», .«else»] []
  | .«begin» => some (x.opening .«begin»)
  | .«until» | .again => x.replacing [.«begin»] []
  | .«while» => x.replacing [.«begin»] [.«while»]
  | .«repeat» => x.replacing [.«while»] []
  | .«do» => some (x.opening .«do»)
  | .loop | .plusLoop => x.replacing [.«do»] []
  | .loopIndex => x.provided (0 < x.loops)
  | .outerLoopIndex => x.provided (1 < x.loops)
  | .unloop => provided { x with dropped := x.dropped + 1 } (x.dropped < x.loops)
  | .exit => provided { x with dropped := 0 } (x.inside = true)
  | .recurse => x.provided (x.inside = true)

def stepClass (x : Outline) : TokenClass → Option Outline
  | .keyword k => x.stepKeyword k
  | .number (.cell _) => some x
  | .number .outOfRange => none
  | .word => some x

def define (x : Outline) : Option Outline :=
  provided { inside := true } (x.inside = false ∧ x.nest = [])

def read (x : Outline) : List Token → Option Outline
  | [] => some x
  | [t] => x.stepClass t.class
  | t :: name :: rest =>
    if t.class = .keyword .colon then x.define.bind (·.read rest)
    else if t.class = .keyword .«variable» then x.read rest
    else (x.stepClass t.class).bind (·.read (name :: rest))

theorem exists_of_replacing {x y : Outline} {kinds new : List Bracket} (h : x.replacing kinds new = some y) :
    ∃ bracket rest, x.nest = bracket :: rest ∧ bracket ∈ kinds ∧ y = { x with nest := new ++ rest } := by
  unfold replacing at h
  split at h
  · next bracket rest hnest =>
    split at h
    · next hmem => exact ⟨bracket, rest, hnest, hmem, (Option.some.inj h).symm⟩
    · cases h
  · cases h

theorem provided_eq_some_iff {x y : Outline} {condition : Prop} [Decidable condition] :
    x.provided condition = some y ↔ condition ∧ x = y := by
  unfold provided
  split <;> simp_all

theorem read_cons {t : Token} (hcolon : t.class ≠ .keyword .colon) (hvariable : t.class ≠ .keyword .«variable»)
    (x : Outline) (rest : List Token) : x.read (t :: rest) = (x.stepClass t.class).bind (·.read rest) := by
  rcases rest with _ | ⟨name, rest⟩
  · exact (Option.bind_fun_some _).symm
  · rw [read, if_neg hcolon, if_neg hvariable]

theorem read_step {t : Token} {x y : Outline} (hstep : x.stepClass t.class = some y) (rest : List Token) :
    x.read (t :: rest) = y.read rest := by
  have hcolon : t.class ≠ .keyword .colon := by
    intro hclass
    rw [hclass] at hstep
    cases hstep
  have hvariable : t.class ≠ .keyword .«variable» := by
    intro hclass
    rw [hclass] at hstep
    cases hstep
  rw [read_cons hcolon hvariable, hstep]
  rfl

theorem read_define {t : Token} (ht : t.Is .colon) (x : Outline) (name : Token) (rest : List Token) :
    x.read (t :: name :: rest) = x.define.bind (·.read rest) :=
  if_pos ht

theorem read_variable {t : Token} (ht : t.Is .«variable») (x : Outline) (name : Token) (rest : List Token) :
    x.read (t :: name :: rest) = x.read rest := by
  have hvariable : t.class = .keyword .«variable» := ht
  rw [read, if_neg (by rw [hvariable]; simp), if_pos hvariable]

theorem read_keyword {t : Token} {k : Keyword} {x y : Outline} (ht : t.Is k) (hstep : x.stepKeyword k = some y)
    (rest : List Token) : x.read (t :: rest) = y.read rest := by
  have hclass : t.class = .keyword k := ht
  refine read_step ?_ rest
  rw [hclass]
  exact hstep

end Outline

/-! ### Sentences are read -/

section Read

open Outline

/-- **A phrase leaves the open constructs as they are.** -/
theorem Phrase.read_append {inside : Bool} {loops u v : Nat} {tokens : List Token} (h : Phrase inside loops u tokens v)
    {nest : List Bracket} (hloops : nest.count .«do» = loops) (rest : List Token) :
    read ⟨inside, nest, u⟩ (tokens ++ rest) = read ⟨inside, nest, v⟩ rest := by
  induction h generalizing nest rest with
  | empty => rfl
  | append _ _ ihx ihy => rw [List.append_assoc, ihx hloops, ihy hloops]
  | word ht | literal ht =>
    refine read_step ?_ rest
    rw [ht]
    rfl
  | «variable» ht name => exact read_variable ht _ name rest
  | ifThen ha _ hb ih =>
    rw [List.cons_append, List.append_assoc, read_keyword ha rfl, opening, ih (by simpa using hloops)]
    exact read_keyword hb rfl rest
  | ifElseThen ha _ hb _ hc ihx ihy | beginWhileRepeat ha _ hb _ hc ihx ihy =>
    rw [List.cons_append, List.append_assoc, read_keyword ha rfl, opening, ihx (by simpa using hloops),
      List.cons_append, List.append_assoc, read_keyword hb rfl]
    exact (ihy (by simpa using hloops) _).trans (read_keyword hc rfl rest)
  | beginUntil ha _ hb ih | doLoop ha _ hb ih =>
    rw [List.cons_append, List.append_assoc, read_keyword ha rfl, opening, ih (by simpa using hloops)]
    rcases hb with hb | hb <;> exact read_keyword hb rfl rest
  | index ht hindex | outerIndex ht hindex | unloop ht hindex =>
    subst hloops
    refine read_keyword ht ?_ rest
    exact if_pos hindex
  | exit ht hinside | recurse ht hinside =>
    refine read_keyword ht ?_ rest
    exact if_pos hinside

theorem Program.Text.read_append {u v : Nat} {tokens : List Token} (h : Program.Text u tokens v) (rest : List Token) :
    read ⟨false, [], u⟩ (tokens ++ rest) = read ⟨false, [], v⟩ rest := by
  induction h generalizing rest with
  | items hx => exact hx.read_append rfl rest
  | append _ _ ihx ihy => rw [List.append_assoc, ihx, ihy]
  | definition ha hx hb =>
    rw [List.cons_append, List.cons_append, List.append_assoc, read_define ha]
    exact (hx.read_append rfl _).trans (read_keyword hb rfl rest)

end Read

/-! ### What is read begins a sentence -/

/-- Tokens in which the given constructs are open, innermost first. -/
inductive Opened (inside : Bool) (start : Nat) : List Bracket → List Token → Nat → Prop where
  | none {u : Nat} {x : List Token} (hx : Phrase inside 0 start x u) : Opened inside start [] x u
  | «if» {u v : Nat} {nest : List Bracket} {tokens x : List Token} {a : Token} (h : Opened inside start nest tokens u)
    (ha : a.Is .«if») (hx : Phrase inside (nest.count .«do») u x v) :
    Opened inside start (.«if» :: nest) (tokens ++ a :: x) v
  | «else» {u v w : Nat} {nest : List Bracket} {tokens x y : List Token} {a b : Token}
    (h : Opened inside start nest tokens u)
    (ha : a.Is .«if») (hx : Phrase inside (nest.count .«do») u x v) (hb : b.Is .«else»)
    (hy : Phrase inside (nest.count .«do») v y w) :
    Opened inside start (.«else» :: nest) (tokens ++ a :: (x ++ b :: y)) w
  | «begin» {u v : Nat} {nest : List Bracket} {tokens x : List Token} {a : Token}
    (h : Opened inside start nest tokens u) (ha : a.Is .«begin») (hx : Phrase inside (nest.count .«do») u x v) :
    Opened inside start (.«begin» :: nest) (tokens ++ a :: x) v
  | «while» {u v w : Nat} {nest : List Bracket} {tokens x y : List Token} {a b : Token}
    (h : Opened inside start nest tokens u)
    (ha : a.Is .«begin») (hx : Phrase inside (nest.count .«do») u x v) (hb : b.Is .«while»)
    (hy : Phrase inside (nest.count .«do») v y w) :
    Opened inside start (.«while» :: nest) (tokens ++ a :: (x ++ b :: y)) w
  | «do» {u v : Nat} {nest : List Bracket} {tokens x : List Token} {a : Token} (h : Opened inside start nest tokens u)
    (ha : a.Is .«do») (hx : Phrase inside (nest.count .«do» + 1) u x v) :
    Opened inside start (.«do» :: nest) (tokens ++ a :: x) v

namespace Opened

variable {inside : Bool} {start u v : Nat} {nest : List Bracket} {tokens x : List Token} {t : Token}

/-- A phrase adds to the innermost construct. -/
theorem append (h : Opened inside start nest tokens u) (hx : Phrase inside (nest.count .«do») u x v) :
    Opened inside start nest (tokens ++ x) v := by
  cases h with
  | none hy => exact .none (hy.append hx)
  | «if» h ha hy =>
    rw [List.append_assoc, List.cons_append]
    exact .«if» h ha (hy.append (by simpa using hx))
  | «else» h ha hy hb hz =>
    rw [List.append_assoc, List.cons_append, List.append_assoc, List.cons_append]
    exact .«else» h ha hy hb (hz.append (by simpa using hx))
  | «begin» h ha hy =>
    rw [List.append_assoc, List.cons_append]
    exact .«begin» h ha (hy.append (by simpa using hx))
  | «while» h ha hy hb hz =>
    rw [List.append_assoc, List.cons_append, List.append_assoc, List.cons_append]
    exact .«while» h ha hy hb (hz.append (by simpa using hx))
  | «do» h ha hy =>
    rw [List.append_assoc, List.cons_append]
    exact .«do» h ha (hy.append (by simpa using hx))

theorem stepKeyword {k : Keyword} {x y : Outline} (h : Opened x.inside start x.nest tokens x.dropped) (ht : t.Is k)
    (hstep : x.stepKeyword k = some y) (hsemicolon : k ≠ .semicolon) :
    y.inside = x.inside ∧ Opened y.inside start y.nest (tokens ++ [t]) y.dropped := by
  -- a word that closes a construct, or goes on to its second part
  have hreplace : ∀ {kinds new}, x.replacing kinds new = some y →
      (∀ {bracket rest}, bracket ∈ kinds → Opened x.inside start (bracket :: rest) tokens x.dropped →
        Opened x.inside start (new ++ rest) (tokens ++ [t]) x.dropped) →
      y.inside = x.inside ∧ Opened y.inside start y.nest (tokens ++ [t]) y.dropped := by
    intro kinds new hstep hopened
    obtain ⟨bracket, rest, hnest, hmem, rfl⟩ := Outline.exists_of_replacing hstep
    rw [hnest] at h
    exact ⟨rfl, hopened hmem h⟩
  cases k with
  | colon | «variable» => cases hstep
  | semicolon => exact absurd rfl hsemicolon
  | «if» =>
    obtain rfl := Option.some.inj hstep
    exact ⟨rfl, .«if» h ht .empty⟩
  | «begin» =>
    obtain rfl := Option.some.inj hstep
    exact ⟨rfl, .«begin» h ht .empty⟩
  | «do» =>
    obtain rfl := Option.some.inj hstep
    exact ⟨rfl, .«do» h ht .empty⟩
  | «else» =>
    refine hreplace hstep fun hmem hopened => ?_
    obtain rfl := List.mem_singleton.mp hmem
    cases hopened with
    | «if» hinner ha hx =>
      rw [List.append_assoc]
      exact .«else» hinner ha hx ht .empty
  | «then» =>
    refine hreplace hstep fun hmem hopened => ?_
    rcases List.mem_cons.mp hmem with rfl | hmem
    · cases hopened with
      | «if» hinner ha hx =>
        rw [List.append_assoc]
        exact hinner.append (.ifThen ha hx ht)
    · obtain rfl := List.mem_singleton.mp hmem
      cases hopened with
      | «else» hinner ha hx hb hy =>
        rw [List.append_assoc, List.cons_append, List.append_assoc]
        exact hinner.append (.ifElseThen ha hx hb hy ht)
  | «until» | again =>
    refine hreplace hstep fun hmem hopened => ?_
    obtain rfl := List.mem_singleton.mp hmem
    cases hopened with
    | «begin» hinner ha hx =>
      rw [List.append_assoc]
      exact hinner.append (.beginUntil ha hx (by simp [ht]))
  | «while» =>
    refine hreplace hstep fun hmem hopened => ?_
    obtain rfl := List.mem_singleton.mp hmem
    cases hopened with
    | «begin» hinner ha hx =>
      rw [List.append_assoc]
      exact .«while» hinner ha hx ht .empty
  | «repeat» =>
    refine hreplace hstep fun hmem hopened => ?_
    obtain rfl := List.mem_singleton.mp hmem
    cases hopened with
    | «while» hinner ha hx hb hy =>
      rw [List.append_assoc, List.cons_append, List.append_assoc]
      exact hinner.append (.beginWhileRepeat ha hx hb hy ht)
  | loop | plusLoop =>
    refine hreplace hstep fun hmem hopened => ?_
    obtain rfl := List.mem_singleton.mp hmem
    cases hopened with
    | «do» hinner ha hx =>
      rw [List.append_assoc]
      exact hinner.append (.doLoop ha hx (by simp [ht]))
  | loopIndex =>
    obtain ⟨hloops, rfl⟩ := Outline.provided_eq_some_iff.mp hstep
    exact ⟨rfl, h.append (.index ht hloops)⟩
  | outerLoopIndex =>
    obtain ⟨hloops, rfl⟩ := Outline.provided_eq_some_iff.mp hstep
    exact ⟨rfl, h.append (.outerIndex ht hloops)⟩
  | unloop =>
    obtain ⟨hloops, rfl⟩ := Outline.provided_eq_some_iff.mp hstep
    exact ⟨rfl, h.append (.unloop ht hloops)⟩
  | exit =>
    obtain ⟨hinside, rfl⟩ := Outline.provided_eq_some_iff.mp hstep
    exact ⟨rfl, h.append (.exit ht hinside)⟩
  | recurse =>
    obtain ⟨hinside, rfl⟩ := Outline.provided_eq_some_iff.mp hstep
    exact ⟨rfl, h.append (.recurse ht hinside)⟩

theorem stepClass {x y : Outline} (h : Opened x.inside start x.nest tokens x.dropped)
    (hstep : x.stepClass t.class = some y)
    (hsemicolon : ¬t.Is .semicolon) : y.inside = x.inside ∧ Opened y.inside start y.nest (tokens ++ [t]) y.dropped := by
  cases hclass : t.class with
  | keyword k =>
    rw [hclass] at hstep
    exact h.stepKeyword hclass hstep fun heq => hsemicolon (heq ▸ hclass)
  | number literal =>
    rw [hclass] at hstep
    cases literal with
    | cell value =>
      obtain rfl := Option.some.inj hstep
      exact ⟨rfl, h.append (.literal hclass)⟩
    | outOfRange => cases hstep
  | word =>
    rw [hclass] at hstep
    obtain rfl := Option.some.inj hstep
    exact ⟨rfl, h.append (.word hclass)⟩

end Opened

/-- Tokens that begin a sentence, with what a reader knows behind them: complete items and definitions, and then items
of the main program or of an open definition. -/
inductive Begun : List Token → Outline → Prop where
  | main {u : Nat} {tokens more : List Token} {x : Outline} (htokens : Program.Text 0 tokens u)
    (hinside : x.inside = false) (hmore : Opened false u x.nest more x.dropped) : Begun (tokens ++ more) x
  | definition {u : Nat} {tokens more : List Token} {x : Outline} {a name : Token} (htokens : Program.Text 0 tokens u)
    (ha : a.Is .colon) (hinside : x.inside = true) (hmore : Opened true 0 x.nest more x.dropped) :
    Begun (tokens ++ a :: name :: more) x

namespace Begun

variable {tokens : List Token} {x y : Outline}

theorem start : Begun [] {} := by
  rw [← List.append_nil []]
  exact .main (.items .empty) rfl (.none .empty)

/-- Nothing is open: the tokens are a sentence. -/
theorem text (h : Begun tokens x) (hinside : x.inside = false) (hnest : x.nest = []) :
    Program.Text 0 tokens x.dropped := by
  cases h with
  | main htokens _ hmore =>
    rw [hnest] at hmore
    cases hmore with
    | none hx => exact htokens.append (.items hx)
  | definition _ _ h => rw [hinside] at h; cases h

/-- **One token** that takes no name. -/
theorem step (h : Begun tokens x) {t : Token} (hstep : x.stepClass t.class = some y) : Begun (tokens ++ [t]) y := by
  by_cases hsemicolon : t.Is .semicolon
  · have hclass : t.class = .keyword .semicolon := hsemicolon
    rw [hclass] at hstep
    obtain ⟨⟨hinside, hnest⟩, rfl⟩ := Outline.provided_eq_some_iff.mp hstep
    cases h with
    | main _ h => rw [hinside] at h; cases h
    | definition htokens ha _ hmore =>
      rw [hnest] at hmore
      cases hmore with
      | none hx =>
        rw [List.append_assoc, List.cons_append, List.cons_append, ← List.append_nil (_ ++ _)]
        exact .main (htokens.append (.definition ha hx hsemicolon)) rfl (.none .empty)
  · cases h with
    | main htokens hinside hmore =>
      rw [← hinside] at hmore
      obtain ⟨hsame, hopened⟩ := hmore.stepClass hstep hsemicolon
      rw [List.append_assoc]
      rw [hinside] at hsame
      exact .main htokens hsame (hsame ▸ hopened)
    | definition htokens ha hinside hmore =>
      rw [← hinside] at hmore
      obtain ⟨hsame, hopened⟩ := hmore.stepClass hstep hsemicolon
      rw [List.append_assoc, List.cons_append, List.cons_append]
      rw [hinside] at hsame
      exact .definition htokens ha hsame (hsame ▸ hopened)

theorem «variable» (h : Begun tokens x) {t : Token} (ht : t.Is .«variable») (name : Token) :
    Begun (tokens ++ [t, name]) x := by
  cases h with
  | main htokens hinside hmore =>
    rw [List.append_assoc]
    exact .main htokens hinside (hmore.append (.«variable» ht name))
  | definition htokens ha hinside hmore =>
    rw [List.append_assoc, List.cons_append, List.cons_append]
    exact .definition htokens ha hinside (hmore.append (.«variable» ht name))

theorem define (h : Begun tokens x) {t : Token} (ht : t.Is .colon) (name : Token) (hdefine : x.define = some y) :
    Begun (tokens ++ [t, name]) y := by
  obtain ⟨⟨hinside, hnest⟩, rfl⟩ := Outline.provided_eq_some_iff.mp hdefine
  exact .definition (h.text hinside hnest) ht rfl (.none .empty)

/-- **What is read begins a sentence.** -/
theorem read (h : Begun tokens x) {more : List Token} (hread : x.read more = some y) : Begun (tokens ++ more) y := by
  fun_induction Outline.read x more generalizing tokens with
  | case1 x =>
    obtain rfl := Option.some.inj hread
    rwa [List.append_nil]
  | case2 x t => exact h.step hread
  | case3 x t name rest hcolon ih =>
    obtain ⟨z, hdefine, hrest⟩ := Option.bind_eq_some_iff.mp hread
    have hbegun := ih z (h.define hcolon name hdefine) hrest
    rwa [List.append_assoc] at hbegun
  | case4 x t name rest _ hvariable ih =>
    have hbegun := ih (h.«variable» hvariable name) hread
    rwa [List.append_assoc] at hbegun
  | case5 x t name rest hcolon hvariable ih =>
    obtain ⟨z, hstep, hrest⟩ := Option.bind_eq_some_iff.mp hread
    have hbegun := ih z (h.step hstep) hrest
    rwa [List.append_assoc] at hbegun

end Begun

/-- **The reader accepts the sentences.** -/
theorem sentence_iff_read {tokens : List Token} :
    Sentence tokens ↔ ∃ y : Outline, Outline.read {} tokens = some y ∧ y.inside = false ∧ y.nest = [] := by
  constructor
  · rintro ⟨dropped, htext⟩
    have hread := htext.read_append []
    rw [List.append_nil] at hread
    exact ⟨_, hread, rfl, rfl⟩
  · rintro ⟨y, hread, hinside, hnest⟩
    exact ⟨y.dropped, (Begun.start.read hread).text hinside hnest⟩

/-! ### No dead ends -/

namespace Outline

variable {x y : Outline}

/-- What is read may be cut anywhere behind an item. -/
theorem read_append {tokens : List Token} (h : x.read tokens = some y) (rest : List Token) :
    x.read (tokens ++ rest) = y.read rest := by
  fun_induction read x tokens with
  | case1 x =>
    obtain rfl := Option.some.inj h
    rfl
  | case2 x t => exact read_step h rest
  | case3 x t name more hcolon ih =>
    obtain ⟨z, hdefine, hmore⟩ := Option.bind_eq_some_iff.mp h
    rw [List.cons_append, List.cons_append, read_define hcolon, hdefine]
    exact ih z hmore
  | case4 x t name more _ hvariable ih =>
    rw [List.cons_append, List.cons_append, read_variable hvariable]
    exact ih h
  | case5 x t name more hcolon hvariable ih =>
    obtain ⟨z, hstep, hmore⟩ := Option.bind_eq_some_iff.mp h
    rw [List.cons_append, read_cons hcolon hvariable, hstep]
    exact ih z hmore

end Outline

/-- The word that closes a construct in the shortest way. -/
def Bracket.closer : Bracket → Keyword
  | .«if» | .«else» => .«then»
  | .«begin» => .again
  | .«while» => .«repeat»
  | .«do» => .loop

def Keyword.token (k : Keyword) : Token :=
  ⟨k.spelling, .start⟩

theorem Keyword.token_is (k : Keyword) : k.token.Is k := by
  cases k <;> decide +kernel

namespace Outline

variable {x y : Outline}

theorem read_closers (inside : Bool) (nest : List Bracket) (dropped : Nat) (rest : List Token) :
    read ⟨inside, nest, dropped⟩ (nest.map (·.closer.token) ++ rest) = read ⟨inside, [], dropped⟩ rest := by
  induction nest with
  | nil => rfl
  | cons bracket nest ih =>
    refine (read_keyword (Keyword.token_is _) ?_ _).trans ih
    cases bracket <;> rfl

/-- **There are no dead ends.** -/
theorem exists_closing (x : Outline) : ∃ tokens y, x.read tokens = some y ∧ y.inside = false ∧ y.nest = [] := by
  obtain ⟨inside, nest, dropped⟩ := x
  cases inside with
  | false =>
    refine ⟨nest.map (·.closer.token), ⟨false, [], dropped⟩, ?_, rfl, rfl⟩
    rw [← List.append_nil (nest.map _), read_closers]
    rfl
  | true =>
    refine ⟨nest.map (·.closer.token) ++ [Keyword.semicolon.token], {}, ?_, rfl, rfl⟩
    rw [read_closers]
    exact read_keyword (Keyword.token_is _) rfl []

/-- What is read can be continued to a sentence. -/
theorem exists_sentence {tokens : List Token} (h : read {} tokens = some x) : ∃ more, Sentence (tokens ++ more) := by
  obtain ⟨more, y, hread, hinside, hnest⟩ := x.exists_closing
  exact ⟨more, sentence_iff_read.mpr ⟨y, by rw [read_append h, hread], hinside, hnest⟩⟩

/-- Whether a reader refuses a token, whatever follows. -/
def Refuses (x : Outline) (t : Token) : Prop :=
  if t.class = .keyword .colon then x.define = none
  else t.class ≠ .keyword .«variable» ∧ x.stepClass t.class = none

theorem not_sentence_of_refuses {tokens : List Token} {t : Token} (h : read {} tokens = some x) (hrefuses : x.Refuses t)
    (more : List Token) : ¬Sentence (tokens ++ t :: more) := by
  intro hsentence
  obtain ⟨y, hread, -⟩ := sentence_iff_read.mp hsentence
  rw [read_append h] at hread
  unfold Refuses at hrefuses
  split at hrefuses
  · next hcolon =>
    rcases more with _ | ⟨name, more⟩
    · rw [read, hcolon] at hread
      cases hread
    · rw [read_define hcolon, hrefuses] at hread
      cases hread
  · next hcolon =>
    rw [read_cons hcolon hrefuses.1, hrefuses.2] at hread
    cases hread

end Outline

end ForthElf
