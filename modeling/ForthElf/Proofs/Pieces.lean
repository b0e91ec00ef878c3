import ForthElf.Proofs.Announcement
import ForthElf.Proofs.Spelling

/-!
# Programs in pieces

A program may be handed to the compiler in pieces of text.  If every piece compiles, the end is that of the whole text.

* `tokenizeOnto_append` — **behind a text that is split into tokens, the next line is split as if it stood alone**;
* `tokenizeOnto_below` — lines further down give the same tokens, further down;
* `exists_tokenize_joined` — the tokens of pieces joined by line feeds are those of the pieces;
* `Matching.states_pieces` — **pieces that compile one after the other leave the state of the whole**;
* `pieces_joined` — **compiling piece by piece is compiling the whole**, also if a piece ends inside a definition.
-/

namespace ForthElf

open Compiler Text

/-! ### Lines -/

section Lines

variable {p : Char → Bool} {cs ds : List Char}

theorem takeWhile_line (hp : p '\n' = false) : (cs ++ '\n' :: ds).takeWhile p = cs.takeWhile p := by
  rw [List.takeWhile_append]
  split
  · next h =>
    rw [List.takeWhile_cons_of_neg (by simp [hp]), List.append_nil]
    exact ((List.takeWhile_prefix p).eq_of_length h).symm
  · rfl

theorem dropWhile_line (hp : p '\n' = false) : (cs ++ '\n' :: ds).dropWhile p = cs.dropWhile p ++ '\n' :: ds := by
  rw [List.dropWhile_append]
  split
  · next h =>
    rw [List.isEmpty_iff.mp h, List.dropWhile_cons_of_neg (by simp [hp])]
    rfl
  · rfl

/-- What is ended inside a text is not changed by what follows it. -/
theorem takeWhile_ended {close : Char} {tail : List Char} (hclose : cs.dropWhile p = close :: tail) (more : List Char) :
    (cs ++ more).takeWhile p = cs.takeWhile p := by
  rw [List.takeWhile_append, if_neg]
  intro hlength
  have hsplit := congrArg List.length (List.takeWhile_append_dropWhile (p := p) (l := cs))
  rw [hclose, List.length_append, hlength, List.length_cons] at hsplit
  omega

theorem dropWhile_ended {close : Char} {tail : List Char} (hclose : cs.dropWhile p = close :: tail) (more : List Char) :
    (cs ++ more).dropWhile p = close :: (tail ++ more) := by
  rw [List.dropWhile_append, hclose]
  rfl

end Lines

theorem Position.after_split (pos : Position) (p : Char → Bool) (cs : List Char) :
    (pos.after (cs.takeWhile p)).after (cs.dropWhile p) = pos.after cs := by
  rw [← Position.after_append, List.takeWhile_append_dropWhile]

/-- **The next line is split behind the tokens so far.** -/
theorem tokenizeOnto_append {done tokens : List Token} {pos : Position} {cs : List Char}
    (h : tokenizeOnto done pos cs = .ok tokens) (ds : List Char) :
    tokenizeOnto done pos (cs ++ '\n' :: ds) = tokenizeOnto tokens.reverse ((pos.after cs).step '\n') ds := by
  have hblank : isBlank '\n' = true := by decide
  have hrun : ∀ text, run (text ++ '\n' :: ds) = run text := fun text => takeWhile_line (by decide)
  have hafter : ∀ text, afterRun (text ++ '\n' :: ds) = afterRun text ++ '\n' :: ds :=
    fun text => dropWhile_line (by decide)
  have hword : ∀ (pos : Position) (c : Char) (text : List Char),
      (pos.after (c :: run text)).after (afterRun text) = pos.after (c :: text) := fun pos c text =>
    Position.after_split (pos.step c) isInk text
  fun_induction tokenizeOnto done pos cs with
  | case1 done pos =>
    obtain rfl := Except.ok.inj h
    rw [List.nil_append, tokenizeOnto, if_pos hblank, List.reverse_reverse, Position.after_nil]
  | case2 done pos c text hc ih => rw [List.cons_append, tokenizeOnto, if_pos hc, ih h, Position.after_cons]
  | case3 done pos c text hc word behind hline ih =>
    have hrest : restOfLine (behind ++ '\n' :: ds) = restOfLine behind := takeWhile_line (by decide)
    have hnext : afterLine (behind ++ '\n' :: ds) = afterLine behind ++ '\n' :: ds := dropWhile_line (by decide)
    rw [List.cons_append, tokenizeOnto, if_neg hc, hrun, hafter, if_pos hline, hrest, hnext, ih h, restOfLine,
      afterLine, Position.after_split, hword]
  | case4 => cases h
  | case5 done pos c text hc word behind hline hcomment close tail hclose ih =>
    have hnext : afterComment (behind ++ '\n' :: ds) = close :: (tail ++ '\n' :: ds) := dropWhile_ended hclose _
    have htext : commentText (behind ++ '\n' :: ds) = commentText behind := takeWhile_ended hclose _
    have hplace : (((pos.after word).after (commentText behind)).step close).after tail = pos.after (c :: text) := by
      rw [← hword pos c text, ← Position.after_cons, ← hclose]
      exact Position.after_split (pos.after word) (· != ')') behind
    rw [List.cons_append, tokenizeOnto, if_neg hc, hrun, hafter, if_neg hline, if_pos hcomment]
    split
    · next hnone =>
      rw [hnext] at hnone
      cases hnone
    · next close' tail' hsome =>
      rw [hnext] at hsome
      obtain ⟨rfl, rfl⟩ := List.cons.inj hsome
      rw [htext, ih h, hplace]
  | case6 done pos c text hc word behind hline hcomment ih =>
    rw [List.cons_append, tokenizeOnto, if_neg hc, hrun, hafter, if_neg hline, if_neg hcomment, ih h, hword]

/-! ### Places further down -/

def Position.below (n : Nat) (p : Position) : Position :=
  ⟨p.line + n, p.column⟩

def Token.below (n : Nat) (t : Token) : Token :=
  ⟨t.text, t.pos.below n⟩

theorem Position.step_below (n : Nat) (p : Position) (c : Char) : (p.below n).step c = (p.step c).below n := by
  unfold Position.step
  split
  · exact congrArg (Position.mk · 1) (Nat.add_right_comm p.line n 1)
  · rfl

theorem Position.after_below (n : Nat) (p : Position) (cs : List Char) :
    (p.below n).after cs = (p.after cs).below n := by
  induction cs generalizing p with
  | nil => rfl
  | cons c cs ih => rw [Position.after_cons, Position.after_cons, Position.step_below, ih]

/-- **Lines further down give the same tokens, further down.** -/
theorem tokenizeOnto_below (n : Nat) {done tokens : List Token} {pos : Position} {cs : List Char}
    (h : tokenizeOnto done pos cs = .ok tokens) (done' : List Token) :
    ∃ added, tokens = done.reverse ++ added ∧
      tokenizeOnto done' (pos.below n) cs = .ok (done'.reverse ++ added.map (Token.below n)) := by
  fun_induction tokenizeOnto done pos cs generalizing done' with
  | case1 done pos =>
    obtain rfl := Except.ok.inj h
    exact ⟨[], (List.append_nil _).symm, by rw [tokenizeOnto, List.map_nil, List.append_nil]⟩
  | case2 done pos c text hc ih =>
    rw [tokenizeOnto, if_pos hc, Position.step_below]
    exact ih h done'
  | case3 done pos c text hc word behind hline ih =>
    rw [tokenizeOnto, if_neg hc, if_pos hline, Position.after_below, Position.after_below]
    exact ih h done'
  | case4 => cases h
  | case5 done pos c text hc word behind hline hcomment close tail hclose ih =>
    rw [tokenizeOnto, if_neg hc, if_neg hline, if_pos hcomment]
    split
    · next hnone => cases hclose.symm.trans hnone
    · next close' tail' hsome =>
      obtain ⟨rfl, rfl⟩ := List.cons.inj (hclose.symm.trans hsome)
      rw [Position.after_below, Position.after_below, Position.step_below]
      exact ih h done'
  | case6 done pos c text hc word behind hline hcomment ih =>
    obtain ⟨added, rfl, hadded⟩ := ih h (⟨String.ofList word, pos.below n⟩ :: done')
    refine ⟨⟨String.ofList word, pos⟩ :: added, by simp, ?_⟩
    rw [tokenizeOnto, if_neg hc, if_neg hline, if_neg hcomment, Position.after_below, hadded]
    simp [Token.below]

/-! ### Joined pieces -/

/-- The same word in the same column. -/
def Token.SameColumn (a b : Token) : Prop :=
  a.text = b.text ∧ a.pos.column = b.pos.column

theorem sameColumn_below (n : Nat) (tokens : List Token) :
    List.Forall₂ Token.SameColumn tokens (tokens.map (Token.below n)) := by
  induction tokens with
  | nil => exact .nil
  | cons token tokens ih => exact .cons ⟨rfl, rfl⟩ ih

/-- **The tokens of joined pieces** are those of the pieces, each further down. -/
theorem exists_tokenize_joined {sources : List String} {pieces : List (List Token)}
    (h : List.Forall₂ (fun source tokens => tokenize source = .ok tokens) sources pieces) (done : List Token)
    (n : Nat) : ∃ parts, List.Forall₂ (List.Forall₂ Token.SameColumn) pieces parts ∧
      tokenizeOnto done (Position.start.below n) ("\n".intercalate sources).toList =
        .ok (done.reverse ++ parts.flatten) := by
  induction h generalizing done n with
  | nil => exact ⟨[], .nil, by simp [tokenizeOnto]⟩
  | @cons source tokens sources pieces hsource hrest ih =>
    obtain ⟨_, rfl, htokens⟩ := tokenizeOnto_below n hsource done
    cases sources with
    | nil =>
      cases hrest
      refine ⟨[tokens.map (Token.below n)], .cons (sameColumn_below n tokens) .nil, ?_⟩
      rw [String.intercalate_singleton, htokens, List.flatten_singleton]
    | cons next sources =>
      obtain ⟨parts, hparts, hjoined⟩ := ih (done.reverse ++ tokens.map (Token.below n)).reverse
        ((Position.start.below n).after source.toList).line
      refine ⟨tokens.map (Token.below n) :: parts, .cons (sameColumn_below n tokens) hparts, ?_⟩
      have hline : ∀ p : Position, p.step '\n' = Position.start.below p.line := fun p =>
        congrArg (Position.mk · 1) (Nat.add_comm p.line 1)
      have htext : ("\n".intercalate (source :: next :: sources)).toList =
          source.toList ++ '\n' :: ("\n".intercalate (next :: sources)).toList := by
        rw [String.intercalate_cons_cons, String.toList_append, String.toList_append, List.append_assoc]
        rfl
      rw [htext, tokenizeOnto_append htokens, hline, hjoined, List.reverse_reverse, List.flatten_cons,
        List.append_assoc]

/-! ### Compiling pieces -/

theorem forall₂_append_split {α β : Type} {P Q : α → β → Prop} {l l' : List α} {m m' : List β} (h : List.Forall₂ P l m)
    (happend : List.Forall₂ Q (l ++ l') (m ++ m')) : List.Forall₂ Q l m ∧ List.Forall₂ Q l' m' := by
  induction h with
  | nil => exact ⟨.nil, happend⟩
  | cons _ _ ih =>
    obtain ⟨hfirst, hrest⟩ := List.forall₂_cons.mp happend
    exact ⟨.cons hfirst (ih hrest).1, (ih hrest).2⟩

theorem forall₂_flatten_split {α β : Type} {P Q : α → β → Prop} {pieces : List (List α)} {parts : List (List β)}
    (h : List.Forall₂ (List.Forall₂ P) pieces parts) (hflatten : List.Forall₂ Q pieces.flatten parts.flatten) :
    List.Forall₂ (List.Forall₂ Q) pieces parts := by
  induction h with
  | nil => exact .nil
  | cons hpiece _ ih =>
    obtain ⟨hfirst, hrest⟩ := forall₂_append_split hpiece hflatten
    exact .cons hfirst (ih hrest)

/-- **Pieces that compile one after the other** leave the state of the whole. -/
theorem Matching.states_pieces {M : Matching}
    (hword : ∀ a b x y, M.token a b → M.Steps (compileWord a x) (compileWord b y))
    {pieces parts : List (List Token)} (hparts : List.Forall₂ (List.Forall₂ M.token) pieces parts) {s s' t : Compiler}
    (hoff : s.options.forwardRefs = false) (hst : M.States s t) (hrun : pieces.forM compileTokens s = .ok () s')
    (k : Nat) : ∃ t', (itemsFrom k parts.flatten).forM compileItem t = .ok () t' ∧ M.States s' t' := by
  induction hparts generalizing s t k with
  | nil =>
    cases hrun
    exact ⟨t, by rw [List.flatten_nil, itemsFrom]; rfl, hst⟩
  | @cons piece part pieces parts hpart _ ih =>
    obtain ⟨_, u, hpiece, hpieces⟩ := bind_eq_ok.mp hrun
    rw [compileTokens_eq, heard_eq_self hoff] at hpiece
    have hsteps : M.Steps ((items piece).forM compileItem) ((itemsFrom k part).forM compileItem) :=
      steps_items ((items_aligned hpart 0 k).imp fun _ _ h => steps_item h.1 fun a b hab => hword a b _ _ hab)
    have hresults := hsteps s t hst
    rw [hpiece] at hresults
    cases hpart' : (itemsFrom k part).forM compileItem t with
    | error e v =>
      rw [hpart'] at hresults
      exact hresults.elim
    | ok _ v =>
      rw [hpart'] at hresults
      have hoff' : u.options.forwardRefs = false := by rw [options_of_forM hpiece, hoff]
      obtain ⟨t', ht', hst'⟩ := ih hoff' hresults.2 hpieces (k + part.length)
      refine ⟨t', ?_, hst'⟩
      have hcut : compileFrom k part t = .ok () v := by rw [compileFrom_eq_forM, hpart']
      have happend : (itemsFrom k part ++ itemsFrom (k + part.length) parts.flatten).forM compileItem =
          ((itemsFrom k part).forM compileItem >>= fun _ =>
            (itemsFrom (k + part.length) parts.flatten).forM compileItem) :=
        List.forM_append
      rw [List.flatten_cons, itemsFrom_append hcut, happend]
      exact bind_eq_ok.mpr ⟨(), v, hpart', ht'⟩

/-- Pieces of text that compile are pieces of tokens that compile. -/
theorem exists_pieces {sources : List String} {s s' : Compiler} (h : sources.forM compileChunk s = .ok () s') :
    ∃ pieces, List.Forall₂ (fun source tokens => tokenize source = .ok tokens) sources pieces ∧
      pieces.forM compileTokens s = .ok () s' := by
  induction sources generalizing s with
  | nil => exact ⟨[], .nil, h⟩
  | cons source sources ih =>
    obtain ⟨_, t, hsource, hsources⟩ := bind_eq_ok.mp h
    obtain ⟨tokens, u, hrequire, hrun⟩ := bind_eq_ok.mp hsource
    obtain ⟨hlexed, rfl⟩ := require_ok hrequire
    obtain ⟨pieces, hpieces, hrest⟩ := ih hsources
    exact ⟨tokens :: pieces, .cons hlexed hpieces, bind_eq_ok.mpr ⟨(), t, hrun, hrest⟩⟩

/-- The same word in the same column is warned of. -/
def Warning.SameColumn (v w : Warning) : Prop :=
  v.word = w.word ∧ v.pos.column = w.pos.column

def NoHeaders (l l' : List Header) : Prop :=
  l = [] ∧ l' = []

section Whole

variable {as bs : List Token} {hwords : List.Forall₂ (fun a b => sameWord a.text b.text) as bs}

theorem steps_word_unannounced (a b : Token) (x y : Nat) (hab : (Matching.aligned hwords NoHeaders).token a b) :
    (Matching.aligned hwords NoHeaders).Steps (compileWord a x) (compileWord b y) := by
  refine Matching.steps_word_aligned hab fun s t hst _ => ?_
  have hheaders : s.forward.headers = [] ∧ t.forward.headers = [] := hst.margin.headers
  rw [ForwardCalls.announcedAfter, ForwardCalls.announcedAfter, hheaders.1, hheaders.2]
  rfl

theorem states_initial (options : Options) :
    (Matching.aligned hwords NoHeaders).States (initial options) (initial options) :=
  ⟨rfl, rfl, .nil, .nil, .nil, rfl, rfl, .none, rfl, rfl, rfl, rfl, rfl, ⟨rfl, rfl⟩, .nil, rfl, rfl⟩

theorem sameColumn_of_sameWarning (hcolumns : List.Forall₂ Token.SameColumn as bs) {v w : Warning}
    (h : SameWarning as bs v w) : v.SameColumn w := by
  obtain ⟨i, a, b, ha, hb, rfl, rfl⟩ := h
  exact Matching.forall₂_getElem? hcolumns ha hb

end Whole

theorem programs_of_answer {M : Matching} {r r' : EStateM.Result Error Compiler Program} {p q : Program}
    (h : M.Results M.Programs r r') (hp : answer r = .ok p) (hq : answer r' = .ok q) : M.Programs p q := by
  cases r <;> cases hp
  cases r' <;> cases hq
  exact h.1

theorem fault?_of_start {options : Options} {s : Compiler} (h : start options = .ok s) :
    options.fault? = none ∧ s = initial options := by
  unfold start Options.validate at h
  cases hfault : options.fault? with
  | some fault =>
    rw [hfault] at h
    cases h
  | none =>
    rw [hfault] at h
    cases h
    exact ⟨rfl, rfl⟩

/-- **Compiling piece by piece is compiling the whole.** -/
theorem pieces_joined {options : Options} {sources : List String} {s₀ s : Compiler}
    (hrefs : options.forwardRefs = false)
    (hstart : start options = .ok s₀) (hrun : sources.forM compileChunk s₀ = .ok () s) :
    ∃ (pieces : List (List Token)) (whole : List Token),
      List.Forall₂ (fun source tokens => tokenize source = .ok tokens) sources pieces ∧
      tokenize ("\n".intercalate sources) = .ok whole ∧ List.Forall₂ Token.SameColumn pieces.flatten whole ∧
      SameAnswer pieces.flatten whole (s.runFrom finish).result (compile ("\n".intercalate sources) options) ∧
      ∀ p q, (s.runFrom finish).result = .ok p → compile ("\n".intercalate sources) options = .ok q →
        p.labels = q.labels ∧ List.Forall₂ Warning.SameColumn p.warnings q.warnings := by
  obtain ⟨hvalid, rfl⟩ := fault?_of_start hstart
  obtain ⟨pieces, hpieces, hcompiled⟩ := exists_pieces hrun
  obtain ⟨parts, hparts, hlexed⟩ := exists_tokenize_joined hpieces [] 0
  have hcolumns : List.Forall₂ Token.SameColumn pieces.flatten parts.flatten := List.rel_flatten hparts
  have hwords : List.Forall₂ (fun a b => sameWord a.text b.text) pieces.flatten parts.flatten :=
    hcolumns.imp fun a b hab => hab.1 ▸ sameWord_refl a.text
  obtain ⟨t, ht, hst⟩ := Matching.states_pieces (M := Matching.aligned hwords NoHeaders) steps_word_unannounced
    (forall₂_flatten_split hparts (Matching.tokens_aligned hwords NoHeaders)) hrefs (states_initial options) hcompiled 0
  have hresults := Matching.inStep_finish s t hst
  have hwhole : compile ("\n".intercalate sources) options = answer (finish t) := by
    rw [compile_eq, show tokenize ("\n".intercalate sources) = .ok parts.flatten from hlexed, hvalid]
    have htokens : compileTokens parts.flatten (initial options) = .ok () t := by
      rw [compileTokens_eq, heard_eq_self hrefs]
      exact ht
    show answer (EStateM.bind (compileTokens parts.flatten) (fun _ => finish) (initial options)) = _
    rw [EStateM.bind, htokens]
  refine ⟨pieces, parts.flatten, hpieces, hlexed, hcolumns, ?_, ?_⟩
  · rw [hwhole, result_runFrom]
    exact sameAnswer_of_results hresults
  · rw [hwhole, result_runFrom]
    intro p q hp hq
    have hpq := programs_of_answer hresults hp hq
    exact ⟨hpq.labels_eq fun a b ⟨i, ha, hb⟩ => (Matching.forall₂_getElem? hcolumns ha hb).1,
      hpq.sameWarning.imp fun _ _ h => sameColumn_of_sameWarning hcolumns h⟩

/-- The first piece ends inside a definition and a construct, the second in a comment. -/
theorem pieces_joined_inside : ∃ (sources : List String) (s₀ s : Compiler),
    sources = [": f 1 if", "2 then ; \\ rest", "f"] ∧ start {} = .ok s₀ ∧ sources.forM compileChunk s₀ = .ok () s ∧
      ∃ (pieces : List (List Token)) (whole : List Token),
        List.Forall₂ (fun source tokens => tokenize source = .ok tokens) sources pieces ∧
        tokenize ("\n".intercalate sources) = .ok whole ∧ List.Forall₂ Token.SameColumn pieces.flatten whole ∧
        SameAnswer pieces.flatten whole (s.runFrom finish).result (compile ("\n".intercalate sources) {}) ∧
        ∀ p q, (s.runFrom finish).result = .ok p → compile ("\n".intercalate sources) {} = .ok q →
          p.labels = q.labels ∧ List.Forall₂ Warning.SameColumn p.warnings q.warnings := by
  let sources := [": f 1 if", "2 then ; \\ rest", "f"]
  have hstart : start {} = .ok (initial {}) := rfl
  have hrun : sources.forM compileChunk (initial {}) = .ok () (stateOf (sources.forM compileChunk (initial {}))) :=
    eq_ok_of_error? (by decide +kernel)
  exact ⟨sources, _, _, rfl, hstart, hrun, pieces_joined rfl hstart hrun⟩

end ForthElf
