import ForthElf.Proofs.Awaiting
import ForthElf.Proofs.Matching
import Mathlib.Data.List.Nodup

/-!
# Words that are passed over

To pass over the words without a meaning is to delete them from the program.

* `pairwise_tokenize` — the tokens of a text stand one behind the other;
* `Pruned list kept dropped` — `kept` are the items of `list` without the words `dropped`;
* `Heralds headers list` — the headers tell what definitions stand behind each item of `list`;
* `exists_pruned` — **a run that passes over words is a run without them**;
* `skipping_deletes` — **what is passed over might as well have been deleted**, and the warnings tell what that is.
-/

namespace ForthElf

open Compiler Text

/-! ### The order of tokens -/

def Position.Before (p q : Position) : Prop :=
  p.line < q.line ∨ p.line = q.line ∧ p.column < q.column

theorem Position.Before.trans {p q r : Position} (h : p.Before q) (h' : q.Before r) : p.Before r := by
  unfold Position.Before at *
  omega

theorem Position.before_step (p : Position) (c : Char) : p.Before (p.step c) := by
  unfold Position.step
  split
  · exact .inl (Nat.lt_succ_self p.line)
  · exact .inr ⟨rfl, Nat.lt_succ_self p.column⟩

theorem Position.Before.after {p q : Position} (h : p.Before q) (cs : List Char) : p.Before (q.after cs) := by
  induction cs generalizing q with
  | nil => exact h
  | cons c cs ih => exact ih (h.trans (q.before_step c))

theorem pairwise_tokenizeOnto {done tokens : List Token} {pos : Position} {cs : List Char}
    (h : tokenizeOnto done pos cs = .ok tokens) (hdone : done.reverse.Pairwise fun a b => a.pos.Before b.pos)
    (hpos : ∀ token ∈ done, token.pos.Before pos) : tokens.Pairwise fun a b => a.pos.Before b.pos := by
  fun_induction tokenizeOnto done pos cs with
  | case1 done pos => exact Except.ok.inj h ▸ hdone
  | case2 done pos c text hblank ih => exact ih h hdone fun token hmem => (hpos token hmem).trans (pos.before_step c)
  | case3 done pos c text hblank word behind hline ih =>
    exact ih h hdone fun token hmem => ((hpos token hmem).after _).after _
  | case4 => cases h
  | case5 done pos c text hblank word behind hline hcomment close tail hclose ih =>
    exact ih h hdone fun token hmem => (((hpos token hmem).after _).after _).trans (Position.before_step _ close)
  | case6 done pos c text hblank word behind hline hcomment ih =>
    refine ih h ?_ fun token hmem => ?_
    · rw [List.reverse_cons]
      refine List.pairwise_append.mpr ⟨hdone, List.pairwise_singleton _ _, fun a ha b hb => ?_⟩
      rw [List.mem_singleton.mp hb]
      exact hpos a (List.mem_reverse.mp ha)
    · rcases List.mem_cons.mp hmem with rfl | hmem
      · exact (pos.before_step c).after (run text)
      · exact (hpos token hmem).after word

/-- **The tokens of a text stand one behind the other.** -/
theorem pairwise_tokenize {source : String} {tokens : List Token} (h : tokenize source = .ok tokens) :
    tokens.Pairwise fun a b => a.pos.Before b.pos :=
  pairwise_tokenizeOnto h .nil fun _ hmem => absurd hmem List.not_mem_nil

theorem nodup_tokenize {source : String} {tokens : List Token} (h : tokenize source = .ok tokens) : tokens.Nodup := by
  refine (pairwise_tokenize h).imp fun {a b} hbefore heq => ?_
  rw [heq] at hbefore
  unfold Position.Before at hbefore
  omega

/-! ### Headers -/

/-- The headers tell what definitions stand behind each item. -/
def Heralds (headers : List Header) (list : List Item) : Prop :=
  ∀ front item back, list = front ++ item :: back → ∀ name,
    (headers.any fun header => sameWord header.name name && item.index < header.index) = back.any (Item.heads name)

theorem Heralds.tail {headers : List Header} {item : Item} {list : List Item} (h : Heralds headers (item :: list)) :
    Heralds headers list :=
  fun front next back heq => h (item :: front) next back (by rw [heq]; rfl)

theorem heralds_of_pairwise {list : List Item} (h : list.Pairwise fun a b => a.index < b.index) :
    Heralds (list.filterMap Item.header?) list := by
  rintro front item back rfl name
  obtain ⟨-, hback, hfront⟩ := List.pairwise_append.mp h
  rw [Bool.eq_iff_iff, List.any_eq_true, List.any_eq_true]
  constructor
  · rintro ⟨header, hmem, hheader⟩
    obtain ⟨hname, hindex⟩ : sameWord header.name name = true ∧ item.index < header.index := by
      simpa using hheader
    obtain ⟨next, hnext, hsome⟩ := List.mem_filterMap.mp hmem
    rw [Item.index_of_header? hsome] at hindex
    refine ⟨next, ?_, Item.heads_iff.mpr ⟨header, hsome, hname⟩⟩
    -- nothing in front of the item has a greater index
    rcases List.mem_append.mp hnext with hin | hin
    · have hless := hfront next hin item List.mem_cons_self
      omega
    · rcases List.mem_cons.mp hin with rfl | hin
      · omega
      · exact hin
  · rintro ⟨next, hnext, hheads⟩
    obtain ⟨header, hsome, hname⟩ := Item.heads_iff.mp hheads
    refine ⟨header, List.mem_filterMap.mpr ⟨next, by simp [hnext], hsome⟩, ?_⟩
    have hless := (List.pairwise_cons.mp hback).1 next hnext
    simp [hname, Item.index_of_header? hsome, hless]

/-! ### Deleted words -/

/-- `kept` is `list` without the words `dropped`. -/
inductive Pruned : List Item → List Item → List Token → Prop where
  | nil : Pruned [] [] []
  | keep {item : Item} {list kept : List Item} {dropped : List Token} (h : Pruned list kept dropped) :
    Pruned (item :: list) (item :: kept) dropped
  | drop {item : Item} {token : Token} {index : Nat} {list kept : List Item} {dropped : List Token}
    (hword : item = .word token index) (h : Pruned list kept dropped) : Pruned (item :: list) kept (token :: dropped)

theorem Pruned.any_heads {list kept : List Item} {dropped : List Token} (h : Pruned list kept dropped) (name : String) :
    list.any (Item.heads name) = kept.any (Item.heads name) := by
  induction h with
  | nil => rfl
  | keep _ ih => rw [List.any_cons, List.any_cons, ih]
  | drop hword _ ih =>
    rw [List.any_cons, ih, hword]
    rfl

/-- What does not show in the code, with words passed over and without them. -/
structure Margin.Deleted (headers : List Header) (x y : Margin) : Prop where
  lenient : x.bestEffort = true
  strict : y.bestEffort = false
  headers : y.headers = headers
  warnings : y.warnings = []
  resolved : y.unresolved = 0
  tokens : x.tokens = y.tokens + x.warnings.length
  unresolved : x.unresolved = x.warnings.length

namespace Matching

/-- The same tokens, of which some are passed over on one side and missing on the other. -/
def deleted (headers : List Header) : Matching where
  token := Eq
  margin := Margin.Deleted headers
  alike h := h ▸ sameWord_refl _
  meet h := { h with tokens := (congrArg (· + 1) h.tokens).trans (Nat.add_right_comm _ _ 1) }

section Deleted

variable {headers : List Header} {s t : Compiler}

theorem items_deleted_refl (token : Token) (x y : Nat) :
    (deleted headers).Items (.ofToken token x) (.ofToken token y) := by
  unfold Item.ofToken
  cases token.class with
  | keyword k => exact .keyword rfl
  | number literal => exact .number rfl
  | word => exact .word rfl

theorem any_heads_of_items {list list' : List Item} (h : List.Forall₂ (deleted headers).Items list list')
    (name : String) : list.any (Item.heads name) = list'.any (Item.heads name) := by
  induction h with
  | nil => rfl
  | cons hitems _ ih =>
    rw [List.any_cons, List.any_cons, ih]
    cases hitems with
    | define _ hname =>
      obtain rfl := hname
      rfl
    | _ => rfl

/-- The tokens `dropped` are those that a list of tokens loses, and `kept` are the items of the others. -/
def Loses (headers : List Header) (tokens dropped : List Token) (kept : List Item) : Prop :=
  tokens.filter (· ∈ dropped) = dropped ∧
    ∀ y, List.Forall₂ (deleted headers).Items kept (itemsFrom y (tokens.filter (· ∉ dropped)))

theorem loses_nil : Loses headers [] [] [] :=
  ⟨rfl, fun y => by rw [List.filter_nil, itemsFrom]; exact .nil⟩

theorem Loses.not_mem {token : Token} {rest dropped : List Token} {kept : List Item}
    (h : Loses headers rest dropped kept) (htoken : token ∉ rest) : token ∉ dropped :=
  fun hmem => htoken (List.mem_of_mem_filter (h.1 ▸ hmem))

/-- A token that takes no name is kept or deleted. -/
theorem loses_plain {token : Token} {rest dropped : List Token} {x : Nat} {list kept : List Item}
    (htoken : token ∉ rest)
    (hcons : ∀ y q, itemsFrom y (token :: rest.filter q) = .ofToken token y :: itemsFrom (y + 1) (rest.filter q))
    (hrest : ∀ {kept dropped}, Pruned list kept dropped → Loses headers rest dropped kept)
    (h : Pruned (.ofToken token x :: list) kept dropped) : Loses headers (token :: rest) dropped kept := by
  cases h with
  | keep h =>
    have hlost := hrest h
    have hnot := hlost.not_mem htoken
    refine ⟨by simpa [hnot] using hlost.1, fun y => ?_⟩
    rw [List.filter_cons_of_pos (by simpa using hnot), hcons]
    exact .cons (items_deleted_refl token x y) (hlost.2 (y + 1))
  | drop hword h =>
    have hlost := hrest h
    have hsame := congrArg Item.token hword
    rw [Item.token_ofToken] at hsame
    obtain rfl : token = _ := hsame
    have hiff : ∀ {dropped : List Token}, ∀ a ∈ rest, (a ∈ token :: dropped ↔ a ∈ dropped) := fun {dropped} a ha => by
      have hne : a ≠ token := fun heq => htoken (heq ▸ ha)
      simp [hne]
    constructor
    · rw [List.filter_cons_of_pos (by simp), List.filter_congr fun a ha => decide_eq_decide.mpr (hiff a ha), hlost.1]
    · intro y
      rw [List.filter_cons_of_neg (by simp), List.filter_congr fun a ha => decide_eq_decide.mpr (hiff a ha).not]
      exact hlost.2 y

theorem loses_named {token name : Token} {rest dropped : List Token} {item : Item} {list kept : List Item}
    (htoken : token ∉ name :: rest) (hname : name ∉ rest) (hword : ∀ token index, item ≠ .word token index)
    (hcons : ∀ y q, ∃ item', (deleted headers).Items item item' ∧
      itemsFrom y (token :: name :: rest.filter q) = item' :: itemsFrom (y + 2) (rest.filter q))
    (hrest : ∀ {kept dropped}, Pruned list kept dropped → Loses headers rest dropped kept)
    (h : Pruned (item :: list) kept dropped) : Loses headers (token :: name :: rest) dropped kept := by
  cases h with
  | drop hdrop h => exact absurd hdrop (hword _ _)
  | keep h =>
    have hlost := hrest h
    have hnot := hlost.not_mem (fun hmem => htoken (List.mem_cons_of_mem name hmem))
    have hnot' := hlost.not_mem hname
    refine ⟨by simpa [hnot, hnot'] using hlost.1, fun y => ?_⟩
    rw [List.filter_cons_of_pos (by simpa using hnot), List.filter_cons_of_pos (by simpa using hnot')]
    obtain ⟨item', hitems, heq⟩ := hcons y (· ∉ dropped)
    rw [heq]
    exact .cons hitems (hlost.2 (y + 2))

/-- **Items without the deleted words** are those of the tokens without them. -/
theorem loses_of_pruned {tokens dropped : List Token} {x : Nat} {kept : List Item} (hnodup : tokens.Nodup)
    (h : Pruned (itemsFrom x tokens) kept dropped) : Loses headers tokens dropped kept := by
  fun_induction itemsFrom x tokens generalizing kept dropped with
  | case1 x =>
    cases h
    exact loses_nil
  | case2 x token =>
    refine loses_plain List.not_mem_nil (fun y q => by rw [List.filter_nil, itemsFrom, itemsFrom]) (fun h => ?_) h
    cases h
    exact loses_nil
  | case3 x token name rest hcolon ih =>
    obtain ⟨htoken, hrest⟩ := List.nodup_cons.mp hnodup
    obtain ⟨hname, hrest⟩ := List.nodup_cons.mp hrest
    refine loses_named htoken hname (by rintro _ _ ⟨⟩)
      (fun y q => ⟨.define token name y, .define rfl rfl, ?_⟩) (ih hrest) h
    rw [itemsFrom, if_pos hcolon]
  | case4 x token name rest hcolon hvariable ih =>
    obtain ⟨htoken, hrest⟩ := List.nodup_cons.mp hnodup
    obtain ⟨hname, hrest⟩ := List.nodup_cons.mp hrest
    refine loses_named htoken hname (by rintro _ _ ⟨⟩)
      (fun y q => ⟨.«variable» token name y, .«variable» rfl rfl, ?_⟩) (ih hrest) h
    rw [itemsFrom, if_neg hcolon, if_pos hvariable]
  | case5 x token name rest hcolon hvariable ih =>
    obtain ⟨htoken, hrest⟩ := List.nodup_cons.mp hnodup
    exact loses_plain htoken (fun y q => itemsFrom_cons hcolon hvariable _) (ih hrest) h

/-- A word that is passed over leaves no trace but the report of it. -/
theorem States.skipped (hst : (deleted headers).States s t) {s' : Compiler} {token : Token}
    (h : skipWord token (s.met token) = .ok () s') : (deleted headers).States s' t := by
  cases h
  have htokens : s.stats.tokens = t.stats.tokens + s.warnings.toList.length := hst.margin.tokens
  have hunresolved : s.stats.unresolved = s.warnings.toList.length := hst.margin.unresolved
  have hlength : (s.warnings.push ⟨token.pos, token.text⟩).toList.length = s.warnings.toList.length + 1 := by
    rw [Array.toList_push, List.length_append, List.length_singleton]
  refine { hst with stats := hst.stats, margin := { hst.margin with tokens := ?_, unresolved := ?_ } }
  · show s.stats.tokens + 1 = t.stats.tokens + (s.warnings.push ⟨token.pos, token.text⟩).toList.length
    omega
  · show s.stats.unresolved + 1 = (s.warnings.push ⟨token.pos, token.text⟩).toList.length
    omega

/-- **One item that is not passed over.** -/
theorem States.kept {item item' : Item} {s' : Compiler} (hst : (deleted headers).States s t)
    (hitems : (deleted headers).Items item item') (hitem : compileItem item s = .ok () s')
    (hmeant : ∀ token index, item = .word token index → s.resolve token index ≠ some .nothing)
    (hannounced : s.options.forwardRefs → ∀ name,
      s.forward.announcedAfter name item.index = t.forward.announcedAfter name item'.index) :
    ∃ t', compileItem item' t = .ok () t' ∧ (deleted headers).States s' t' := by
  have hresults : (deleted headers).Results (fun _ _ => True) (compileItem item s) (compileItem item' t) := by
    refine results_item hst hitems ?_
    rintro a x b y rfl rfl
    cases hitems with
    | word hab =>
      obtain rfl := hab
      have hnot : (s.met a).resolve a x ≠ some .nothing := hmeant a x rfl
      have hfound : (s.met a).found a x = (t.met a).found a y :=
        (hst.met a a).found_eq rfl fun hrefs => hannounced hrefs a.text
      refine results_word (hst.met a a) rfl ?_ fun hnothing => absurd hnothing hnot
      have hbest : (s.met a).options.bestEffort = true := hst.margin.lenient
      rw [resolve_eq_found] at hnot
      rw [resolve_eq_found, resolve_eq_found, ← hfound]
      cases hsome : (s.met a).found a x with
      | some reference => rfl
      | none =>
        rw [hsome, hbest] at hnot
        exact absurd rfl hnot
  rw [hitem] at hresults
  cases hitem' : compileItem item' t with
  | ok _ t' =>
    rw [hitem'] at hresults
    exact ⟨t', rfl, hresults.2⟩
  | error e t' =>
    rw [hitem'] at hresults
    exact hresults.elim

end Deleted

end Matching

/-! ### Runs -/

def Token.warning (token : Token) : Warning :=
  ⟨token.pos, token.text⟩

/-- Items that are not passed over add no warning. -/
theorem warnings_of_meant {item : Item} {s s' : Compiler} (h : compileItem item s = .ok () s')
    (hmeant : ∀ token index, item = .word token index → s.resolve token index ≠ some .nothing) :
    s'.warnings = s.warnings := by
  have hwarnings : s'.warnings = ((s.ready item).countsAfter item).2.2.2 :=
    congrArg (·.2.2.2) (compileItem_compiled h).counts
  rw [hwarnings]
  cases item with
  | keyword keyword token index => cases keyword <;> simp [countsAfter]
  | word token index =>
    simp only [countsAfter, resolve_ready, warnings_ready]
    split
    · rfl
    · next hnothing => exact absurd hnothing (hmeant token index rfl)
    · rfl
  | _ => simp [countsAfter]

/-- **A run that passes over words is a run without them.** -/
theorem exists_pruned {list : List Item} {s s' : Compiler} (hbest : s.options.bestEffort = true)
    (hheralds : s.options.forwardRefs → Heralds s.forward.headers list) (hrun : list.forM compileItem s = .ok () s') :
    ∃ kept dropped, Pruned list kept dropped ∧ s'.warnings.toList = s.warnings.toList ++ dropped.map Token.warning ∧
      ∀ headers list' t, List.Forall₂ (Matching.deleted headers).Items kept list' →
        (s.options.forwardRefs → Heralds headers list') → (Matching.deleted headers).States s t →
        ∃ t', list'.forM compileItem t = .ok () t' ∧ (Matching.deleted headers).States s' t' := by
  induction list generalizing s with
  | nil =>
    cases hrun
    refine ⟨[], [], .nil, by simp, fun headers list' t hitems _ hst => ?_⟩
    cases hitems
    exact ⟨t, rfl, hst⟩
  | cons item list ih =>
    obtain ⟨_, u, hitem, hlist⟩ := bind_eq_ok.mp hrun
    have hoptions : u.options = s.options := by rw [(compileItem_compiled hitem).options, options_ready]
    have hheaders : u.forward.headers = s.forward.headers := by
      rw [(compileItem_compiled hitem).forward, headers_forwardAfter, forward_ready]
    obtain ⟨kept, dropped, hpruned, hwarnings, hwithout⟩ :=
      ih (hoptions ▸ hbest) (fun hrefs => hheaders ▸ (hheralds (hoptions ▸ hrefs)).tail) hlist
    rw [hoptions] at hwithout
    by_cases hskip : ∃ token index, item = .word token index ∧ s.resolve token index = some .nothing
    · obtain ⟨token, index, rfl, hnothing⟩ := hskip
      have hnothing : (s.met token).resolve token index = some .nothing := hnothing
      rw [compileItem, meetToken_bind_apply, compileWord_eq, hnothing] at hitem
      have hwarning : u.warnings = s.warnings.push token.warning := by
        cases hitem
        rfl
      refine ⟨kept, token :: dropped, .drop rfl hpruned, ?_, fun headers list' t hitems hheralds' hst => ?_⟩
      · rw [hwarnings, hwarning, Array.toList_push, List.append_assoc]
        rfl
      · exact hwithout headers list' t hitems hheralds' (hst.skipped hitem)
    · have hmeant : ∀ token index, item = .word token index → s.resolve token index ≠ some .nothing :=
        fun token index heq hnothing => hskip ⟨token, index, heq, hnothing⟩
      rw [warnings_of_meant hitem hmeant] at hwarnings
      refine ⟨item :: kept, dropped, .keep hpruned, hwarnings, fun headers list' t hitems hheralds' hst => ?_⟩
      obtain ⟨item', rest, hfirst, hrest, rfl⟩ := List.forall₂_cons_left_iff.mp hitems
      obtain ⟨v, hitem', hst'⟩ := hst.kept hfirst hitem hmeant fun hrefs name => by
        have hknown : t.forward.headers = headers := hst.margin.headers
        rw [ForwardCalls.announcedAfter, ForwardCalls.announcedAfter, hknown, hheralds hrefs [] item list rfl,
          hheralds' hrefs [] item' rest rfl, hpruned.any_heads, Matching.any_heads_of_items hrest]
      obtain ⟨t', hrest', hst''⟩ := hwithout headers rest v hrest (fun hrefs => (hheralds' hrefs).tail) hst'
      exact ⟨t', bind_eq_ok.mpr ⟨(), v, hitem', hrest'⟩, hst''⟩

theorem warning_injective : Function.Injective Token.warning := by
  rintro ⟨text, pos⟩ ⟨text', pos'⟩ h
  cases h
  rfl

/-- At the start the headers tell what definitions stand behind each item. -/
theorem heralds_announced (options : Options) (tokens : List Token) (hrefs : options.forwardRefs) :
    Heralds (announced options tokens).forward.headers (items tokens) := by
  rw [announced_eq, if_pos hrefs]
  exact heralds_of_pairwise (pairwise_itemsFrom 0 tokens)

theorem states_deleted {options : Options} (hbest : options.bestEffort = true) (tokens without : List Token) :
    (Matching.deleted (announced { options with bestEffort := false } without).forward.headers).States
      (announced options tokens) (announced { options with bestEffort := false } without) := by
  refine Matching.states_announced rfl ?_
  rw [announced_eq, announced_eq]
  exact ⟨hbest, rfl, rfl, rfl, rfl, rfl, rfl⟩

/-- **To pass over words is to delete them.**  A program that compiles with words passed over compiles without the
words that it warns of, to the same program; the warnings are those words in their order, each of them once. -/
theorem skipping_deletes {source : String} {options : Options} {program : Program} (hbest : options.bestEffort = true)
    (h : compile source options = .ok program) :
    ∃ (tokens : List Token) (s₀ t : Compiler) (other : Program),
      tokenize source = .ok tokens ∧ start { options with bestEffort := false } = .ok s₀ ∧
      compileProgram (tokens.filter fun token => token.warning ∉ program.warnings) s₀ = .ok other t ∧
      other.code = program.code ∧ other.image = program.image ∧ other.entryOffset = program.entryOffset ∧
      other.labels = program.labels ∧ other.layout = program.layout ∧
      other.stats = { program.stats with tokens := other.stats.tokens, unresolved := 0 } ∧
      program.stats.tokens = other.stats.tokens + program.warnings.length ∧
      (tokens.filter fun token => token.warning ∈ program.warnings).map Token.warning = program.warnings ∧
      program.warnings.Nodup := by
  obtain ⟨c, rfl, rfl, hlexed⟩ := exists_compilation h
  let strict : Options := { c.options with bestEffort := false }
  have hrun : (items c.tokens).forM compileItem (announced c.options c.tokens) = .ok () c.last := by
    have htake := (c.forM_take_drop (k := c.items.length)).1
    rwa [List.take_length] at htake
  have hoptions : (announced c.options c.tokens).options = c.options := by rw [announced_eq]; rfl
  obtain ⟨kept, dropped, hpruned, hwarnings, hwithout⟩ := exists_pruned (by rw [hoptions, hbest])
    (fun hrefs => heralds_announced c.options c.tokens (by rwa [hoptions] at hrefs)) hrun
  have hdropped : c.program.warnings = dropped.map Token.warning := by
    obtain ⟨-, -, -, -, hbuilt⟩ := c.built
    rw [hbuilt, hwarnings, announced_eq]
    rfl
  have hnodup := nodup_tokenize hlexed
  let without := c.tokens.filter (· ∉ dropped)
  have hlost : Matching.Loses (announced strict without).forward.headers c.tokens dropped kept :=
    Matching.loses_of_pruned hnodup hpruned
  obtain ⟨t, ht, hst⟩ := hwithout _ (items without) (announced strict without) (hlost.2 0)
    (fun hrefs => heralds_announced strict without (by rwa [hoptions] at hrefs)) (states_deleted hbest c.tokens without)
  have hfinish := Matching.inStep_finish c.last t hst
  rw [c.finish_last] at hfinish
  cases hother : finish t with
  | error e u =>
    rw [hother] at hfinish
    exact hfinish.elim
  | ok other u =>
    rw [hother] at hfinish
    have hsame := hfinish.1
    have hmem : ∀ token : Token, token.warning ∈ c.program.warnings ↔ token ∈ dropped := fun token => by
      rw [hdropped, List.mem_map_of_injective warning_injective]
    obtain ⟨x, y, hmargin, hwarned, htokens, -, -, htokens', hunresolved'⟩ := hsame.margin
    have hstats := hsame.stats
    rw [hunresolved', show y.stats.unresolved = 0 from hmargin.resolved] at hstats
    refine ⟨c.tokens, initial strict, u, other, hlexed, ?_, ?_, hsame.code.symm, hsame.image.symm,
      hsame.entryOffset.symm,
      (hsame.labels_eq fun a b hab => congrArg Token.text hab).symm, hsame.layout.symm, hstats.symm, ?_, ?_, ?_⟩
    · have hvalid : strict.fault? = none := c.valid
      rw [start, Options.validate, hvalid]
      rfl
    · rw [List.filter_congr fun token _ => decide_eq_decide.mpr (hmem token).not]
      refine bind_eq_ok.mpr ⟨(), t, ?_, hother⟩
      rw [compileTokens_eq]
      exact ht
    · rw [htokens, htokens', hwarned]
      exact hmargin.tokens
    · rw [List.filter_congr fun token _ => decide_eq_decide.mpr (hmem token), hlost.1, hdropped]
    · rw [hdropped]
      refine List.Nodup.map warning_injective ?_
      rw [← hlost.1]
      exact hnodup.filter _

/-- Words are passed over in front of a definition and in one that calls ahead. -/
theorem skipping_deletes_ahead : ∃ (source : String) (options : Options) (program : Program),
    source = "x : f y g ; : g 1 ; f" ∧ options = { bestEffort := true, forwardRefs := true } ∧
      compile source options = .ok program ∧ program.warnings = [⟨⟨1, 1⟩, "x"⟩, ⟨⟨1, 7⟩, "y"⟩] ∧
      ∃ (tokens : List Token) (s₀ t : Compiler) (other : Program),
        tokenize source = .ok tokens ∧ start { options with bestEffort := false } = .ok s₀ ∧
        compileProgram (tokens.filter fun token => token.warning ∉ program.warnings) s₀ = .ok other t ∧
        other.code = program.code ∧ other.image = program.image ∧ other.entryOffset = program.entryOffset ∧
        other.labels = program.labels ∧ other.layout = program.layout ∧
        other.stats = { program.stats with tokens := other.stats.tokens, unresolved := 0 } ∧
        program.stats.tokens = other.stats.tokens + program.warnings.length ∧
        (tokens.filter fun token => token.warning ∈ program.warnings).map Token.warning = program.warnings ∧
        program.warnings.Nodup := by
  let source := "x : f y g ; : g 1 ; f"
  let options : Options := { bestEffort := true, forwardRefs := true }
  have hwarned : (compile source options).toOption.map (·.warnings) = some [⟨⟨1, 1⟩, "x"⟩, ⟨⟨1, 7⟩, "y"⟩] := by
    decide +kernel
  obtain ⟨program, hsome, hwarnings⟩ := Option.map_eq_some_iff.mp hwarned
  have hprogram : compile source options = .ok program := by
    cases hresult : compile source options with
    | error e =>
      rw [hresult] at hsome
      cases hsome
    | ok result =>
      rw [hresult] at hsome
      exact congrArg Except.ok (Option.some.inj hsome)
  exact ⟨source, options, program, rfl, rfl, hprogram, hwarnings, skipping_deletes rfl hprogram⟩

end ForthElf
