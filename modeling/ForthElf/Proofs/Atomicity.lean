import ForthElf.Proofs.Progress
import ForthElf.Proofs.Regularity
import Mathlib.Data.List.Forall2

/-!
# Failures leave no trace

Tokens come in several lists, and a list that fails keeps what was compiled in front of the failing token.

* `Compiler.fed s tokens` — the state behind a list of tokens, `Compiler.reached` — behind several lists;
* `Compiler.consistent_reached` — **every state that is reached is consistent**;
* `Compiler.session s sources` — what the compiler answers to pieces of text and at the end;
* `errors_atomic` — **a failing token leaves the state as it was, but for the log and the number of tokens**, so that
  the answers behind it are those to the text in front of it.
-/

namespace ForthElf

/-! ### Texts in front of a token -/

section Texts

variable {α : Type} {p : α → Bool} {l x : List α}

/-- What stands behind the longest block of a kind may be cut anywhere. -/
theorem takeWhile_append_of_front (hx : x <+: l.dropWhile p) : (l.takeWhile p ++ x).takeWhile p = l.takeWhile p := by
  induction l with
  | nil => rw [List.prefix_nil.mp hx]; rfl
  | cons a l ih =>
    by_cases ha : p a
    · simp_all
    · rw [List.dropWhile_cons_of_neg ha] at hx
      rw [List.takeWhile_cons_of_neg ha]
      rcases x with _ | ⟨b, x⟩
      · rfl
      · obtain ⟨rfl, -⟩ := List.cons_prefix_cons.mp hx
        exact List.takeWhile_cons_of_neg ha

theorem dropWhile_append_of_front (hx : x <+: l.dropWhile p) : (l.takeWhile p ++ x).dropWhile p = x := by
  have h := List.takeWhile_append_dropWhile (p := p) (l := l.takeWhile p ++ x)
  rw [takeWhile_append_of_front hx] at h
  exact List.append_cancel_left h

theorem prefix_of_dropWhile (hx : x <+: l.dropWhile p) : l.takeWhile p ++ x <+: l := by
  have h := (List.prefix_append_right_inj (l.takeWhile p)).mpr hx
  rwa [List.takeWhile_append_dropWhile] at h

end Texts

theorem prefix_of_tokenizeOnto {done tokens : List Token} {pos : Position} {text : List Char}
    (h : tokenizeOnto done pos text = .ok tokens) : done.reverse <+: tokens := by
  fun_induction tokenizeOnto done pos text with
  | case1 done pos => exact Except.ok.inj h ▸ List.prefix_rfl
  | case2 done pos c text hblank ih => exact ih h
  | case3 done pos c text hblank word behind hword ih => exact ih h
  | case4 => cases h
  | case5 done pos c text hblank word behind hline hword close tail hclose ih => exact ih h
  | case6 done pos c text hblank word behind hline hword ih =>
    exact (List.prefix_append _ _).trans (List.reverse_cons ▸ ih h)

theorem error_of_tokenizeOnto {done : List Token} {pos : Position} {text : List Char} {e : Error}
    (h : tokenizeOnto done pos text = .error e) : ∃ start, e = .unterminatedComment start := by
  fun_induction tokenizeOnto done pos text with
  | case1 => cases h
  | case2 _ _ _ _ _ ih => exact ih h
  | case3 _ _ _ _ _ _ _ _ ih => exact ih h
  | case4 =>
    cases h
    exact ⟨_, rfl⟩
  | case5 _ _ _ _ _ _ _ _ _ _ _ _ ih => exact ih h
  | case6 _ _ _ _ _ _ _ _ _ ih => exact ih h

section Cutting

variable {done : List Token} {pos : Position} {c : Char} {text x : List Char} (hblank : ¬Text.isBlank c)
    (hx : x <+: afterRun text)
include hblank hx

theorem tokenizeOnto_line (hword : c :: run text = ['\\']) :
    tokenizeOnto done pos (c :: (run text ++ x)) =
      tokenizeOnto done ((pos.after (c :: run text)).after (restOfLine x)) (afterLine x) := by
  have hrun : run (run text ++ x) = run text := takeWhile_append_of_front hx
  have hafter : afterRun (run text ++ x) = x := dropWhile_append_of_front hx
  rw [tokenizeOnto, if_neg hblank, if_pos (by rw [hrun, hword]), hrun, hafter]

theorem tokenizeOnto_comment {close : Char} {tail : List Char} (hword : c :: run text = ['('])
    (hclose : afterComment x = close :: tail) :
    tokenizeOnto done pos (c :: (run text ++ x)) =
      tokenizeOnto done (((pos.after (c :: run text)).after (commentText x)).step close) tail := by
  have hrun : run (run text ++ x) = run text := takeWhile_append_of_front hx
  have hafter : afterRun (run text ++ x) = x := dropWhile_append_of_front hx
  rw [tokenizeOnto, if_neg hblank, if_neg (by rw [hrun, hword]; decide), if_pos (by rw [hrun, hword])]
  split
  · simp_all
  · simp_all

theorem tokenizeOnto_token (hline : c :: run text ≠ ['\\']) (hcomment : c :: run text ≠ ['(']) :
    tokenizeOnto done pos (c :: (run text ++ x)) =
      tokenizeOnto (⟨String.ofList (c :: run text), pos⟩ :: done) (pos.after (c :: run text)) x := by
  have hrun : run (run text ++ x) = run text := takeWhile_append_of_front hx
  have hafter : afterRun (run text ++ x) = x := dropWhile_append_of_front hx
  rw [tokenizeOnto, if_neg hblank, if_neg (by rwa [hrun]), if_neg (by rwa [hrun]), hrun, hafter]

end Cutting

/-- The tokens in front of a token are those of a text in front of it. -/
theorem exists_text_eq {done cut rest : List Token} {token : Token} {pos : Position} {text : List Char}
    (h : tokenizeOnto done pos text = .ok (done.reverse ++ cut ++ token :: rest)) :
    ∃ front, front <+: text ∧ tokenizeOnto done pos front = .ok (done.reverse ++ cut) := by
  fun_induction tokenizeOnto done pos text generalizing cut
  case case1 => simp at h
  case case2 done pos c text hblank ih =>
    obtain ⟨front, hfront, htokens⟩ := ih h
    exact ⟨c :: front, List.cons_prefix_cons.mpr ⟨rfl, hfront⟩, by rwa [tokenizeOnto, if_pos hblank]⟩
  case case3 done pos c text hblank word behind hword ih =>
    obtain ⟨front, hfront, htokens⟩ := ih h
    have hx : restOfLine behind ++ front <+: behind := prefix_of_dropWhile hfront
    refine ⟨c :: (run text ++ (restOfLine behind ++ front)), ?_, ?_⟩
    · exact List.cons_prefix_cons.mpr ⟨rfl, prefix_of_dropWhile hx⟩
    · rw [tokenizeOnto_line hblank hx hword, restOfLine, afterLine, restOfLine, takeWhile_append_of_front hfront,
        dropWhile_append_of_front hfront]
      exact htokens
  case case4 => cases h
  case case5 done pos c text hblank word behind hline hword close tail hclose ih =>
    obtain ⟨front, hfront, htokens⟩ := ih h
    have hrest : close :: front <+: afterComment behind := hclose ▸ List.cons_prefix_cons.mpr ⟨rfl, hfront⟩
    have hx : commentText behind ++ close :: front <+: behind := prefix_of_dropWhile hrest
    refine ⟨c :: (run text ++ (commentText behind ++ close :: front)), ?_, ?_⟩
    · exact List.cons_prefix_cons.mpr ⟨rfl, prefix_of_dropWhile hx⟩
    · rw [tokenizeOnto_comment hblank hx hword (dropWhile_append_of_front hrest), commentText, commentText,
        takeWhile_append_of_front hrest]
      exact htokens
  case case6 done pos c text hblank word behind hline hword ih =>
    rcases cut with _ | ⟨first, cut⟩
    · exact ⟨[], List.nil_prefix, by rw [tokenizeOnto, List.append_nil]⟩
    · -- the first token behind those that are done is the word at hand
      obtain ⟨more, hmore⟩ := prefix_of_tokenizeOnto h
      obtain ⟨rfl, -⟩ : ⟨String.ofList word, pos⟩ = first ∧ more = cut ++ token :: rest := by
        simpa using hmore
      obtain ⟨front, hfront, htokens⟩ := ih (by simpa using h)
      refine ⟨c :: (run text ++ front), List.cons_prefix_cons.mpr ⟨rfl, prefix_of_dropWhile hfront⟩, ?_⟩
      rw [tokenizeOnto_token hblank hfront hline hword, htokens]
      simp

namespace Compiler

/-! ### Several lists of tokens -/

/-- The state in which a list of tokens is compiled: its headers are announced. -/
def heard (s : Compiler) (tokens : List Token) : Compiler :=
  stateOf (announceHeaders tokens s)

/-- The state behind a list of tokens, whether or not it compiles. -/
def fed (s : Compiler) (tokens : List Token) : Compiler :=
  stateOf (compileTokens tokens s)

/-- The state behind several lists of tokens, each of which may fail. -/
def reached (options : Options) (chunks : List (List Token)) : Compiler :=
  chunks.foldl fed (initial options)

section Reached

variable {s t : Compiler} {tokens : List Token} {options : Options}

theorem compileTokens_eq (tokens : List Token) (s : Compiler) :
    compileTokens tokens s = (items tokens).forM compileItem (s.heard tokens) := by
  rw [items, ← compileFrom_eq_forM]
  rfl

theorem heard_eq_self (h : s.options.forwardRefs = false) : s.heard tokens = s := by
  show (if s.options.forwardRefs then _ else s) = s
  rw [h]
  rfl

/-- Headers are announced, and nothing else changes. -/
theorem exists_heard_eq (s : Compiler) (tokens : List Token) :
    ∃ headers, s.heard tokens = { s with forward := { s.forward with headers } } := by
  show ∃ headers, (if s.options.forwardRefs then _ else s) = _
  split
  · rw [foldl_announce]
    exact ⟨_, rfl⟩
  · exact ⟨_, rfl⟩

theorem options_heard : (s.heard tokens).options = s.options := by
  obtain ⟨headers, hheard⟩ := s.exists_heard_eq tokens
  rw [hheard]

theorem Consistent.heard (h : s.Consistent) (tokens : List Token) : (s.heard tokens).Consistent := by
  obtain ⟨headers, hheard⟩ := s.exists_heard_eq tokens
  rw [hheard]
  exact h.announce headers

/-- **One item**: it compiles, or it leaves nothing but the report of its token. -/
theorem compileItem_cases (h : s.Consistent) (hsize : s.offset < 2 ^ 31 - 4096) (item : Item) :
    (∃ s', compileItem item s = .ok () s' ∧ Compiled (s.ready item) item s' ∧
      s'.stats.fixups = s.stats.fixups + ((s.ready item).patched item).length) ∨
    ¬s.Admits item ∧ ∃ e, compileItem item s = .error e (s.met item.token) := by
  by_cases hadmits : s.Admits item
  · obtain ⟨_, s', hrun, hfixups⟩ := runs_compileItem h hsize hadmits
    exact .inl ⟨s', hrun, compileItem_compiled hrun, by rw [hfixups, length_patched_ready]⟩
  · exact .inr ⟨hadmits, compileItem_error hadmits⟩

theorem forM_cons_of_ok {item : Item} {s' : Compiler} (hrun : compileItem item s = .ok () s') (items : List Item) :
    (item :: items).forM compileItem s = items.forM compileItem s' := by
  show EStateM.bind (compileItem item) _ s = _
  rw [EStateM.bind, hrun]

theorem forM_cons_of_error {item : Item} {e : Error} (hrun : compileItem item s = .error e t) (items : List Item) :
    (item :: items).forM compileItem s = .error e t := by
  show EStateM.bind (compileItem item) _ s = _
  rw [EStateM.bind, hrun]

/-- **Several items**, up to the first that fails, keep a state consistent. -/
theorem consistent_forM (h : s.Consistent) {items : List Item}
    (hsize : (stateOf (items.forM compileItem s)).offset < 2 ^ 31 - 4096) :
    (stateOf (items.forM compileItem s)).Consistent ∧ (stateOf (items.forM compileItem s)).options = s.options := by
  induction items generalizing s with
  | nil => exact ⟨h, rfl⟩
  | cons item items ih =>
    have hstart := Nat.lt_of_le_of_lt ((regular_forM (item :: items)).grows s) hsize
    rcases compileItem_cases h hstart item with ⟨s', hrun, hcompiled, -⟩ | ⟨-, e, hrun⟩
    · rw [forM_cons_of_ok hrun] at hsize ⊢
      obtain ⟨hconsistent, hoptions⟩ := ih (h.step hcompiled) hsize
      exact ⟨hconsistent, by rw [hoptions, hcompiled.options, options_ready]⟩
    · rw [forM_cons_of_error hrun]
      exact ⟨h.met _, rfl⟩

/-- Items that fail do so at one of them, and keep what those in front of it made. -/
theorem exists_of_forM_error (h : s.Consistent) {items : List Item} {e : Error}
    (herror : items.forM compileItem s = .error e t) (hsize : t.offset < 2 ^ 31 - 4096) :
    ∃ (front : List Item) (item : Item) (back : List Item) (u : Compiler), items = front ++ item :: back ∧
      front.forM compileItem s = .ok () u ∧ ¬u.Admits item ∧ t = u.met item.token := by
  induction items generalizing s with
  | nil => cases herror
  | cons item items ih =>
    have hgrows := (regular_forM (item :: items)).grows s
    rw [herror] at hgrows
    rcases compileItem_cases h (Nat.lt_of_le_of_lt hgrows hsize) item with ⟨s', hrun, hcompiled, -⟩ |
      ⟨hadmits, e', hrun⟩
    · rw [forM_cons_of_ok hrun] at herror
      obtain ⟨front, failing, back, u, rfl, hfront, hfailing⟩ := ih (h.step hcompiled) herror
      exact ⟨item :: front, failing, back, u, rfl, by rw [forM_cons_of_ok hrun, hfront], hfailing⟩
    · rw [forM_cons_of_error hrun] at herror
      cases herror
      exact ⟨[], item, items, s, rfl, rfl, hadmits, rfl⟩

theorem consistent_fed (h : s.Consistent) (hsize : (s.fed tokens).offset < 2 ^ 31 - 4096) :
    (s.fed tokens).Consistent ∧ (s.fed tokens).options = s.options := by
  unfold fed at hsize ⊢
  rw [compileTokens_eq] at hsize ⊢
  obtain ⟨hconsistent, hoptions⟩ := consistent_forM (h.heard tokens) hsize
  exact ⟨hconsistent, by rw [hoptions, options_heard]⟩

theorem offset_le_fed (s : Compiler) (tokens : List Token) : s.offset ≤ (s.fed tokens).offset :=
  (regular_compileTokens tokens).grows s

theorem offset_le_foldl_fed (s : Compiler) (chunks : List (List Token)) : s.offset ≤ (chunks.foldl fed s).offset := by
  induction chunks generalizing s with
  | nil => exact Nat.le_refl _
  | cons tokens chunks ih => exact Nat.le_trans (offset_le_fed s tokens) (ih _)

/-- **Every state that is reached is consistent.** -/
theorem consistent_reached {chunks : List (List Token)} (hsize : (reached options chunks).offset < 2 ^ 31 - 4096) :
    (reached options chunks).Consistent ∧ (reached options chunks).options = options := by
  have hrun : ∀ s : Compiler, s.Consistent → (chunks.foldl fed s).offset < 2 ^ 31 - 4096 →
      (chunks.foldl fed s).Consistent ∧ (chunks.foldl fed s).options = s.options := by
    clear hsize
    induction chunks with
    | nil => exact fun s h _ => ⟨h, rfl⟩
    | cons tokens chunks ih =>
      intro s h hsize
      have hfed := Nat.lt_of_le_of_lt (offset_le_foldl_fed (s.fed tokens) chunks) hsize
      obtain ⟨hconsistent, hoptions⟩ := consistent_fed h hfed
      obtain ⟨hlast, hsame⟩ := ih _ hconsistent hsize
      exact ⟨hlast, hsame.trans hoptions⟩
  exact hrun _ (consistent_initial options) hsize

end Reached

end Compiler

/-! ### Answers -/

namespace Statistics

/-- Figures that differ in the number of tokens only, and whose reports differ in its line only. -/
structure Alike (a b : Statistics) : Prop where
  figures : b = { a with tokens := b.tokens }
  report : ∃ above below, a.report = above ++ row "Tokens compiled" a.tokens ++ below ∧
    b.report = above ++ row "Tokens compiled" b.tokens ++ below

def otherRows (stats : Statistics) : String :=
  row "Literals" stats.literals ++ row "Primitives" stats.primitives ++ row "Calls" stats.calls ++
    row "Words defined" stats.words ++ row "Variables defined" stats.variableCells ++
    row "Fixups patched" stats.fixups ++ row "Spills" stats.spills ++ row "Fills" stats.fills ++
    stats.unresolvedRow ++ s!"  Total code size: {stats.codeSize} bytes\n" ++ stats.breakdown

theorem report_eq (stats : Statistics) :
    stats.report = "Compilation Session Statistics:\n" ++ row "Tokens compiled" stats.tokens ++ stats.otherRows := by
  unfold report otherRows
  apply String.toList_inj.mp
  simp only [String.toList_append, List.append_assoc]

theorem Alike.of_figures {a b : Statistics} (h : b = { a with tokens := b.tokens }) : a.Alike b := by
  refine ⟨h, _, a.otherRows, a.report_eq, ?_⟩
  have hrows : b.otherRows = a.otherRows := by
    rw [h]
    rfl
  rw [b.report_eq, hrows]

end Statistics

structure Program.Alike (p q : Program) : Prop where
  stats : p.stats.Alike q.stats
  rest : q = { p with stats := q.stats }

/-- Both fail with one error, or both give programs that differ in the number of tokens only. -/
def AlikeResults : Except Error Program → Except Error Program → Prop
  | .ok p, .ok q => p.Alike q
  | .error e, .error f => e = f
  | _, _ => False

/-- What the compiler answers to pieces of text: to each of them whether it compiles and the figures behind it, and in
the end the program. -/
structure Answers where
  steps : List (Except Error Unit × Statistics)
  finish : Except Error Program

structure Answers.Alike (a b : Answers) : Prop where
  steps : List.Forall₂ (fun x y => x.1 = y.1 ∧ x.2.Alike y.2) a.steps b.steps
  finish : AlikeResults a.finish b.finish

namespace Compiler

/-- Compiles pieces of text one after the other, and ends the program. -/
def session (s : Compiler) : List String → Answers
  | [] => ⟨[], (s.runFrom finish).result⟩
  | source :: sources =>
    let next := stateOf (compileChunk source s)
    let later := session next sources
    ⟨((s.runFrom (compileChunk source)).result, next.stats) :: later.steps, later.finish⟩

section Alike

variable {s t : Compiler}

theorem exists_of_bare (h : s.bare = t.bare) :
    ∃ tokens log, t = { s with stats := { s.stats with tokens }, log } := by
  have hrest : { s.bare with stats := { s.bare.stats with tokens := t.stats.tokens }, log := t.log } = t := by
    rw [h]
    rfl
  exact ⟨t.stats.tokens, t.log, hrest.symm⟩

theorem alike_stats (h : s.bare = t.bare) : s.stats.Alike t.stats := by
  obtain ⟨tokens, log, rfl⟩ := exists_of_bare h
  exact .of_figures rfl

theorem alike_build (h : s.bare = t.bare) : AlikeResults (s.runFrom build).result (t.runFrom build).result := by
  obtain ⟨tokens, log, rfl⟩ := exists_of_bare h
  simp only [runFrom, build, get_bind_apply]
  by_cases hlimit : s.options.codeLimit headerSize < s.offset
  · simp only [hlimit, if_true]
    rfl
  · simp only [hlimit, if_false, count_bind_apply]
    cases hlayout : Layout.ofOptions s.options s.cells
    · rfl
    · exact ⟨.of_figures rfl, rfl⟩

theorem regular_compileChunk (source : String) : Regular (compileChunk source) :=
  .bind (regular_require _) regular_compileTokens

theorem result_eq_of_bare {α : Type} {m : Compile α} (hm : Regular m) (h : s.bare = t.bare) :
    (s.runFrom m).result = (t.runFrom m).result ∧ (stateOf (m s)).bare = (stateOf (m t)).bare := by
  unfold runFrom
  rcases hm.cases h with ⟨a, s', t', hs, ht, hbare⟩ | ⟨e, s', t', hs, ht, hbare⟩ <;> rw [hs, ht] <;> exact ⟨rfl, hbare⟩

theorem alike_bind {α : Type} {m : Compile α} {f : α → Compile Program} (hm : Regular m)
    (hf : ∀ a {s t : Compiler}, s.bare = t.bare → AlikeResults (s.runFrom (f a)).result (t.runFrom (f a)).result)
    (h : s.bare = t.bare) : AlikeResults (s.runFrom (m >>= f)).result (t.runFrom (m >>= f)).result := by
  have hbind : ∀ u, (m >>= f) u = EStateM.bind m f u := fun _ => rfl
  simp only [runFrom, hbind, EStateM.bind]
  rcases hm.cases h with ⟨a, s', t', hs, ht, hbare⟩ | ⟨e, s', t', hs, ht, hbare⟩ <;> rw [hs, ht]
  · exact hf a hbare
  · exact rfl

theorem alike_finish (h : s.bare = t.bare) : AlikeResults (s.runFrom finish).result (t.runFrom finish).result := by
  have hcomplete : s.ensureComplete = t.ensureComplete := by
    obtain ⟨tokens, log, rfl⟩ := exists_of_bare h
    rfl
  have hfinish : ∀ u : Compiler, u.ensureComplete = t.ensureComplete →
      u.runFrom finish = u.runFrom (require t.ensureComplete >>= fun _ => endProgram >>= fun _ => build) := by
    intro u hu
    rw [runFrom, runFrom, finish, get_bind_apply, hu]
  rw [hfinish s hcomplete, hfinish t rfl]
  exact alike_bind (regular_require _) (fun _ _ _ => alike_bind closed_regular.endProgram fun _ _ _ => alike_build) h

/-- **States that differ in what is reported only give the same answers.** -/
theorem alike_session (h : s.bare = t.bare) (sources : List String) :
    (s.session sources).Alike (t.session sources) := by
  induction sources generalizing s t with
  | nil => exact ⟨.nil, alike_finish h⟩
  | cons source sources ih =>
    obtain ⟨hresult, hnext⟩ := result_eq_of_bare (regular_compileChunk source) h
    have hlater := ih hnext
    exact ⟨.cons ⟨hresult, alike_stats hnext⟩ hlater.steps, hlater.finish⟩

end Alike

end Compiler

open Compiler

/-- Whether an action fails with code of less than so many bytes. -/
def Compiler.failsWithin {α : Type} (size : Nat) : EStateM.Result Error Compiler α → Bool
  | .ok _ _ => false
  | .error _ t => t.offset < size

theorem Compiler.exists_of_failsWithin {α : Type} {size : Nat} {r : EStateM.Result Error Compiler α}
    (h : failsWithin size r) : ∃ e t, r = .error e t ∧ t.offset < size := by
  cases r with
  | ok a s => cases h
  | error e t => exact ⟨e, t, rfl, of_decide_eq_true h⟩

/-- **A failing token leaves the state as it was, but for the log and the number of tokens.**  Without calls ahead of
their definition, what is answered behind it is what is answered behind the text in front of it. -/
theorem errors_atomic {options : Options} {chunks : List (List Token)} {source : String} {tokens : List Token}
    {e : Error} {t : Compiler} (htokens : tokenize source = .ok tokens)
    (herror : compileTokens tokens (reached options chunks) = .error e t) (hsize : t.offset < 2 ^ 31 - 4096) :
    ∃ cut token rest s, tokens = cut ++ token :: rest ∧
      compileFrom 0 cut ((reached options chunks).heard tokens) = .ok () s ∧
      t = { s with stats := s.stats.countToken, log := t.log } ∧
      (options.forwardRefs = false → ∃ front : String, front.toList <+: source.toList ∧
        compileChunk front (reached options chunks) = .ok () s ∧
        ∀ later : List String, (t.session later).Alike (s.session later)) := by
  have hstart : (reached options chunks).offset < 2 ^ 31 - 4096 := by
    have hgrows := offset_le_fed (reached options chunks) tokens
    rw [fed, herror] at hgrows
    exact Nat.lt_of_le_of_lt hgrows hsize
  obtain ⟨hconsistent, hoptions⟩ := consistent_reached hstart
  rw [compileTokens_eq] at herror
  obtain ⟨made, item, back, s, hitems, hrun, -, ht⟩ := exists_of_forM_error (hconsistent.heard tokens) herror hsize
  obtain ⟨cut, rest, rfl, hcut, -⟩ := exists_tokens_eq hitems
  have hcompiled : compileFrom 0 cut ((reached options chunks).heard (cut ++ item.token :: rest)) = .ok () s := by
    rw [compileFrom_eq_forM, hcut, hrun]
  refine ⟨cut, item.token, rest, s, rfl, hcompiled, by rw [ht]; rfl, fun hforward => ?_⟩
  obtain ⟨front, hfront, hchars⟩ := @exists_text_eq [] cut rest item.token .start source.toList htokens
  have hchunk :
      compileChunk (String.ofList front) (reached options chunks) = compileTokens cut (reached options chunks) := by
    have hlexed : tokenize (String.ofList front) = .ok cut := by
      rw [tokenize, tokenizeFrom, String.toList_ofList, hchars]
      rfl
    rw [compileChunk, hlexed]
    rfl
  have hplain : ∀ tokens, (reached options chunks).heard tokens = reached options chunks := fun tokens =>
    heard_eq_self (by rw [hoptions, hforward])
  refine ⟨String.ofList front, by rwa [String.toList_ofList], ?_, fun later => alike_session ?_ later⟩
  · rw [hchunk, compileTokens_eq, hplain, ForthElf.items, ← compileFrom_eq_forM]
    rwa [hplain] at hcompiled
  · rw [ht]
    rfl

/-- The second `then` of a piece of text fails, behind pieces that failed as well. -/
theorem errors_atomic_then : ∃ (chunks : List (List Token)) (tokens : List Token) (e : Error) (t : Compiler),
    chunks = [[⟨"1", ⟨1, 1⟩⟩, ⟨"if", ⟨1, 3⟩⟩], [⟨"2", ⟨1, 1⟩⟩, ⟨"loop", ⟨1, 3⟩⟩]] ∧
      tokenize "3 then then 4" = .ok tokens ∧ compileTokens tokens (reached {} chunks) = .error e t ∧
      t.offset < 2 ^ 31 - 4096 ∧ ∃ s, t = { s with stats := s.stats.countToken, log := t.log } ∧
        ∃ front : String, front.toList <+: "3 then then 4".toList ∧ compileChunk front (reached {} chunks) = .ok () s ∧
          ∀ later : List String, (t.session later).Alike (s.session later) := by
  let chunks : List (List Token) := [[⟨"1", ⟨1, 1⟩⟩, ⟨"if", ⟨1, 3⟩⟩], [⟨"2", ⟨1, 1⟩⟩, ⟨"loop", ⟨1, 3⟩⟩]]
  let tokens : List Token := [⟨"3", ⟨1, 1⟩⟩, ⟨"then", ⟨1, 3⟩⟩, ⟨"then", ⟨1, 8⟩⟩, ⟨"4", ⟨1, 13⟩⟩]
  have htokens : tokenize "3 then then 4" = .ok tokens := by decide +kernel
  obtain ⟨e, t, herror, hsize⟩ :
      ∃ e t, compileTokens tokens (reached {} chunks) = .error e t ∧ t.offset < 2 ^ 31 - 4096 :=
    exists_of_failsWithin (by decide +kernel)
  obtain ⟨cut, token, rest, s, -, -, ht, hlater⟩ := errors_atomic htokens herror hsize
  exact ⟨chunks, tokens, e, t, rfl, htokens, herror, hsize, s, ht, hlater rfl⟩

end ForthElf
