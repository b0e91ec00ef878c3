import ForthElf.Proofs.Awaiting

/-!
# Headers found ahead

Words may be called ahead of their definition if the headers of the source are announced before it is compiled.

* `Compiler.Calm action` — `action` does not fail for a call whose definition never came;
* `Compiler.widened s headers` — the state `s` that knows of `headers`, `Compiler.Blind action` — `action` does the
  same in both;
* `Compiler.BeginsAt s tokens header` — compiling `tokens` from `s` opens a definition at `header`;
* `headers_agree` — **the headers found ahead are those at which definitions are opened, no call is left over, and a
  program that compiles without them compiles with them to the same program**.
-/

namespace ForthElf

open Text

namespace Compiler

/-! ### Errors of actions -/

/-- An action that does not fail for a call whose definition never came. -/
def Calm {α : Type} (m : Compile α) : Prop :=
  ∀ {s t : Compiler} {e : Error}, m s = .error e t → e.isUnresolvedCall = false

theorem calm_bind {α β : Type} {m : Compile α} {f : α → Compile β} (hm : Calm m) (hf : ∀ a, Calm (f a)) :
    Calm (m >>= f) := by
  intro s t e h
  rcases bind_eq_error h with h | ⟨a, u, -, h⟩
  · exact hm h
  · exact hf a h

/-- **Calm actions are closed.** -/
theorem closed_calm : Closed Calm where
  pure a := by
    intro s t e h
    cases h
  throw {_ e} he := by
    intro s t e' h
    cases h
    exact he
  bind := calm_bind
  get_bind _ hf := by
    intro s t e h
    exact hf s h
  note event := by
    intro s t e h
    cases h
  count _ := by
    intro s t e h
    cases h
  book _ _ := by
    intro s t e h
    cases h
  emitting _ := by
    intro s t e h
    cases h
  emitter {_ action} haction := by
    intro s t e h
    unfold emitter at h
    split at h
    · cases h
    · next he =>
      cases h
      exact haction.fails he

theorem calm_compileWord (token : Token) (index : Nat) : Calm (compileWord token index) := by
  intro s t e h
  rw [compileWord_eq] at h
  split at h
  · exact closed_calm.compilePrimitive _ h
  · exact closed_calm.compileMeaning _ h
  · exact closed_calm.compileForwardCall token h
  · exact closed_calm.skipWord token h
  · cases h
    rfl

theorem calm_compileTokens (tokens : List Token) : Calm (compileTokens tokens) := by
  intro s t e h
  rw [compileTokens_eq] at h
  exact closed_calm.forM_compileItem (items tokens) calm_compileWord h

/-! ### States that know of headers -/

/-- The state that knows of later definitions. -/
def widened (s : Compiler) (headers : List Header) : Compiler :=
  { s with
    options := { s.options with forwardRefs := true }
    forward := { s.forward with headers } }

def widenResult {α : Type} (headers : List Header) : EStateM.Result Error Compiler α → EStateM.Result Error Compiler α
  | .ok a s => .ok a (s.widened headers)
  | .error e s => .error e (s.widened headers)

/-- An action that does the same whether or not later definitions are known. -/
def Blind {α : Type} (m : Compile α) : Prop :=
  ∀ (s : Compiler) (headers : List Header), m (s.widened headers) = widenResult headers (m s)

theorem blind_bind {α β : Type} {m : Compile α} {f : α → Compile β} (hm : Blind m) (hf : ∀ a, Blind (f a)) :
    Blind (m >>= f) := by
  intro s headers
  show EStateM.bind m f (s.widened headers) = widenResult headers (EStateM.bind m f s)
  unfold EStateM.bind
  rw [hm]
  cases m s with
  | ok a t => exact hf a t headers
  | error e t => rfl

theorem blind_get_bind {β : Type} {f : Compiler → Compile β} (hsame : ∀ s headers, f (s.widened headers) = f s)
    (hf : ∀ s, Blind (f s)) : Blind (get >>= f) := by
  intro s headers
  show f (s.widened headers) (s.widened headers) = widenResult headers (f s s)
  rw [hsame]
  exact hf s s headers

theorem blind_require {α : Type} (result : Except Error α) : Blind (require result) := by
  intro s headers
  cases result <;> rfl

/-- **Blind actions are closed.** -/
theorem closed_blind : Closed Blind where
  pure a := by
    intro s headers
    rfl
  throw _ := by
    intro s headers
    rfl
  bind := blind_bind
  get_bind hhide hf := blind_get_bind (fun s headers => (hhide (s.widened headers)).trans (hhide s).symm) hf
  note event := by
    intro s headers
    rfl
  count _ := by
    intro s headers
    rfl
  book {change} hhide _ := by
    intro s headers
    let own : Hidden := ⟨s.stats.tokens, s.log, s.options.forwardRefs, s.forward.headers⟩
    have hkept : change s = (change s).hide own := hhide s own
    have hwide : change (s.widened headers) = (change s).hide { own with forwardRefs := true, headers := headers } :=
      hhide s { own with forwardRefs := true, headers := headers }
    show EStateM.Result.ok _ (change (s.widened headers)) = EStateM.Result.ok _ ((change s).widened headers)
    rw [hwide, hkept]
    rfl
  emitting _ := by
    intro s headers
    rfl
  emitter {_ action} _ := by
    intro s headers
    have hemitter : (s.widened headers).toEmitter = s.toEmitter := rfl
    show emitter action (s.widened headers) = _
    unfold emitter
    rw [hemitter]
    cases action s.toEmitter <;> rfl

theorem blind_finish : Blind finish := by
  have hbuild : Blind build :=
    blind_get_bind (fun _ _ => rfl) fun _ => closed_blind.ite (closed_blind.throw rfl) <|
      blind_bind (closed_blind.count fun _ => rfl) fun _ => blind_bind (blind_require _) fun _ =>
      blind_bind (closed_blind.note _) fun _ => blind_get_bind (fun _ _ => rfl) fun _ => closed_blind.pure _
  exact blind_get_bind (fun _ _ => rfl) fun _ => blind_bind (blind_require _) fun _ =>
    blind_bind closed_blind.endProgram fun _ => hbuild

section Words

variable {s s' : Compiler} {token : Token} {index : Nat} {headers : List Header}

/-- A word that refers to what is defined already does so with headers known as well. -/
theorem resolve_widened {reference : Reference} (h : s.resolve token index = some reference)
    (hrefs : s.options.forwardRefs = false)
    (hwarn : reference ≠ .nothing) : (s.widened headers).resolve token index = some reference := by
  have hdictionary : (s.widened headers).dictionary = s.dictionary := rfl
  unfold resolve at h ⊢
  rw [hdictionary]
  cases hprimitive : Primitive.lookup? token.text with
  | some p => simpa [hprimitive] using h
  | none =>
    cases hfind : s.dictionary.find? token.text with
    | some entry => simpa [hprimitive, hfind] using h
    | none =>
      simp only [hprimitive, hfind, hrefs] at h
      cases hbest : s.options.bestEffort <;> simp [hbest] at h
      exact absurd h.symm hwarn

/-- A word that is compiled without a warning, and not ahead of its definition. -/
theorem compileWord_widened (hrun : compileWord token index s = .ok () s') (hrefs : s.options.forwardRefs = false)
    (hwarnings : s'.warnings.toList = []) :
    compileWord token index (s.widened headers) = .ok () (s'.widened headers) := by
  rw [compileWord_eq] at hrun ⊢
  cases hresolve : s.resolve token index with
  | none =>
    rw [hresolve] at hrun
    cases hrun
  | some reference =>
    rw [hresolve] at hrun
    cases reference with
    | later =>
      have hrefs' := (resolve_eq_later_iff.mp hresolve).2.2.1
      rw [hrefs] at hrefs'
      cases hrefs'
    | nothing =>
      cases hrun
      simp at hwarnings
    | primitive p =>
      rw [resolve_widened hresolve hrefs nofun]
      show compilePrimitive p (s.widened headers) = _
      rw [closed_blind.compilePrimitive p s headers]
      exact congrArg (widenResult headers) hrun
    | defined meaning =>
      rw [resolve_widened hresolve hrefs nofun]
      show compileMeaning meaning (s.widened headers) = _
      rw [closed_blind.compileMeaning meaning s headers]
      exact congrArg (widenResult headers) hrun

/-- **One item** that is compiled without a warning. -/
theorem compileItem_widened {item : Item} (hrun : compileItem item s = .ok () s')
    (hrefs : s.options.forwardRefs = false)
    (hwarnings : s'.warnings.toList = []) : compileItem item (s.widened headers) = .ok () (s'.widened headers) := by
  by_cases hword : ∃ token index, item = .word token index
  · obtain ⟨token, index, rfl⟩ := hword
    exact compileWord_widened (s := s.met token) hrun hrefs hwarnings
  · have hblind : Blind (compileItem item) := closed_blind.compileItem item fun token index heq =>
      absurd ⟨token, index, heq⟩ hword
    rw [hblind s headers, hrun]
    rfl

theorem warnings_prefix_of_forM {front : List Item} (hrun : front.forM compileItem s = .ok () s') :
    s.warnings.toList <+: s'.warnings.toList := by
  induction front generalizing s with
  | nil =>
    cases hrun
    exact List.prefix_rfl
  | cons item front ih =>
    obtain ⟨_, t, hitem, hfront⟩ := bind_eq_ok.mp hrun
    exact (compileItem_compiled hitem).warnings_grow.trans (ih hfront)

/-- **Several items** that are compiled without a warning. -/
theorem forM_widened {front : List Item} (hrun : front.forM compileItem s = .ok () s')
    (hrefs : s.options.forwardRefs = false) (hwarnings : s'.warnings.toList = []) :
    front.forM compileItem (s.widened headers) = .ok () (s'.widened headers) := by
  induction front generalizing s with
  | nil =>
    cases hrun
    rfl
  | cons item front ih =>
    obtain ⟨_, t, hitem, hfront⟩ := bind_eq_ok.mp hrun
    have hnone : t.warnings.toList = [] := by
      have hprefix := warnings_prefix_of_forM hfront
      rw [hwarnings] at hprefix
      exact List.prefix_nil.mp hprefix
    have hrefs' : t.options.forwardRefs = false := by
      rw [(compileItem_compiled hitem).options, options_ready, hrefs]
    rw [forM_cons_of_ok (compileItem_widened hitem hrefs hnone)]
    exact ih hfront hrefs'

end Words

/-! ### Places of headers -/

/-- Compiling the tokens from a state opens a definition at a header: outside of definitions at its index, and inside
the definition of its name two tokens later. -/
def BeginsAt (s : Compiler) (tokens : List Token) (header : Header) : Prop :=
  ∃ cut rest t u definition, tokens = cut ++ rest ∧ cut.length = header.index ∧
    compileFrom 0 cut s = .ok () t ∧ t.current = none ∧
    compileFrom header.index (rest.take 2) t = .ok () u ∧ u.current = some definition ∧ definition.name = header.name

section Places

variable {s t : Compiler}

/-- Tokens that compile do not end inside an item. -/
theorem itemsFrom_append {index : Nat} {cut : List Token} (hrun : compileFrom index cut s = .ok () t)
    (rest : List Token) :
    itemsFrom index (cut ++ rest) = itemsFrom index cut ++ itemsFrom (index + cut.length) rest := by
  rw [compileFrom_eq_forM] at hrun
  fun_induction itemsFrom index cut generalizing s with
  | case1 => rfl
  | case2 index token =>
    obtain ⟨_, u, hitem, -⟩ := bind_eq_ok.mp hrun
    have hadmits := (compileItem_compiled hitem).admits
    have hclass : token.class ≠ .keyword .colon ∧ token.class ≠ .keyword .«variable» := by
      constructor
      all_goals
        intro hclass
        rw [Item.ofToken, hclass] at hadmits
        exact hadmits
    exact itemsFrom_cons hclass.1 hclass.2 rest
  | case3 index token name cut hcolon ih =>
    obtain ⟨_, u, -, hcut⟩ := bind_eq_ok.mp hrun
    rw [List.cons_append, List.cons_append, itemsFrom, if_pos hcolon, ih hcut]
    simp [Nat.add_comm, Nat.add_left_comm]
  | case4 index token name cut hcolon hvariable ih =>
    obtain ⟨_, u, -, hcut⟩ := bind_eq_ok.mp hrun
    rw [List.cons_append, List.cons_append, itemsFrom, if_neg hcolon, if_pos hvariable, ih hcut]
    simp [Nat.add_comm, Nat.add_left_comm]
  | case5 index token name cut hcolon hvariable ih =>
    obtain ⟨_, u, -, hcut⟩ := bind_eq_ok.mp hrun
    rw [List.cons_append, itemsFrom_cons hcolon hvariable, ih hcut]
    simp [Nat.add_comm, Nat.add_left_comm]

/-- Only a header opens a definition. -/
theorem current_of_compiled {item : Item} (hc : Compiled (s.ready item) item t) (hheader : item.header? = none)
    (hcurrent : s.current = none) : t.current = none := by
  rw [hc.current]
  cases item with
  | define colon name index => cases hheader
  | keyword k token index =>
    by_cases hsemi : k = .semicolon
    · rw [hsemi]
      rfl
    · rw [currentAfter_keyword hsemi, current_ready, hcurrent]
  | «variable» word name index => simpa [currentAfter] using hcurrent
  | number literal token index => simpa [currentAfter] using hcurrent
  | word token index => simpa [currentAfter] using hcurrent

theorem current_of_forM {front : List Item} (hrun : front.forM compileItem s = .ok () t)
    (hheader : ∀ item ∈ front, item.header? = none) (hcurrent : s.current = none) : t.current = none := by
  induction front generalizing s with
  | nil =>
    cases hrun
    exact hcurrent
  | cons item front ih =>
    obtain ⟨_, u, hitem, hfront⟩ := bind_eq_ok.mp hrun
    refine ih hfront (fun other hother => hheader other (List.mem_cons_of_mem item hother)) ?_
    exact current_of_compiled (compileItem_compiled hitem) (hheader item List.mem_cons_self) hcurrent

theorem compileFrom_define {colon : Token} (hcolon : colon.class = .keyword .colon) (name : Token) (index : Nat) :
    compileFrom index [colon, name] s = compileItem (.define colon name index) s := by
  rw [compileFrom_eq_forM, itemsFrom, if_pos hcolon]
  show EStateM.bind (compileItem (.define colon name index)) (fun _ => pure ()) s = _
  unfold EStateM.bind
  cases compileItem (.define colon name index) s <;> rfl

theorem beginsAt_of_mem {tokens : List Token} {header : Header} (hrun : compileFrom 0 tokens s = .ok () t)
    (h : header ∈ headersFrom 0 tokens) : s.BeginsAt tokens header := by
  rw [headersFrom_eq_filterMap] at h
  obtain ⟨item, hmem, hheader⟩ := List.mem_filterMap.mp h
  obtain ⟨front, back, hitems⟩ := List.append_of_mem hmem
  obtain ⟨cut, rest, rfl, hcut, hbegins⟩ := exists_tokens_eq hitems
  rw [compileFrom_eq_forM, hitems] at hrun
  obtain ⟨u, hfront, hback⟩ := forM_append_ok hrun
  obtain ⟨_, v, hitem, -⟩ := bind_eq_ok.mp hback
  have hcompiled := compileItem_compiled hitem
  cases hbegins with
  | @define colon name index rest hcolon =>
    cases hheader
    have hfirst : compileFrom 0 cut s = .ok () u := by
      rw [compileFrom_eq_forM, hcut, hfront]
    have hindex : cut.length = index := by
      rw [itemsFrom_append hfirst, hcut, Nat.zero_add, List.append_cancel_left_eq, Item.token, itemsFrom,
        if_pos hcolon] at hitems
      cases hitems
      rfl
    have hnone : u.current = none := by
      have hadmits := hcompiled.admits.1
      rwa [current_ready] at hadmits
    refine ⟨cut, colon :: name :: rest, u, v, _, rfl, hindex, hfirst, hnone, ?_, hcompiled.current, rfl⟩
    rw [List.take_succ_cons, List.take_succ_cons, List.take_zero, compileFrom_define hcolon, hitem]
  | plain => simp at hheader
  | last => simp at hheader
  | «variable» => cases hheader

theorem mem_of_beginsAt {tokens : List Token} {header : Header} (h : s.BeginsAt tokens header) :
    header ∈ headersFrom 0 tokens := by
  obtain ⟨called, index⟩ := header
  obtain ⟨cut, rest, u, v, definition, rfl, rfl, hcut, hnone, hrest, hopen, rfl⟩ := h
  rw [headersFrom_eq_filterMap, itemsFrom_append hcut, List.filterMap_append, Nat.zero_add]
  apply List.mem_append_right
  by_cases hcolon : ∃ colon name back, rest = colon :: name :: back ∧ colon.class = .keyword .colon
  · obtain ⟨colon, name, back, rfl, hcolon⟩ := hcolon
    rw [List.take_succ_cons, List.take_succ_cons, List.take_zero, compileFrom_define hcolon] at hrest
    have hname : definition.name = name.text := by
      have hcurrent := (compileItem_compiled hrest).current
      rw [hopen] at hcurrent
      rw [Option.some.inj hcurrent]
    rw [itemsFrom, if_pos hcolon, hname]
    exact List.mem_cons_self
  · -- without a colon and a name nothing is opened
    exfalso
    rw [compileFrom_eq_forM] at hrest
    have hlast := current_of_forM hrest ?_ hnone
    · rw [hopen] at hlast
      cases hlast
    · intro item hitem
      rcases rest with _ | ⟨token, _ | ⟨name, back⟩⟩
      · cases hitem
      · rw [List.mem_singleton.mp hitem, Item.header?_ofToken]
      · have htoken : token.class ≠ .keyword .colon := fun h => hcolon ⟨token, name, back, rfl, h⟩
        simp only [List.take_succ_cons, List.take_zero, itemsFrom, if_neg htoken] at hitem
        split at hitem
        · rw [List.mem_singleton.mp hitem]
          rfl
        · rcases List.mem_pair.mp hitem with rfl | rfl <;> exact Item.header?_ofToken _ _

end Places

/-! ### Whole programs -/

/-- A source that is compiled as a whole has no stale words, so it leaves no call that waits. -/
theorem waiting_of_compileTokens {source : String} {options : Options} {tokens : List Token} {s : Compiler}
    (hlexed : tokenize source = .ok tokens) (hrun : compileTokens tokens (initial options) = .ok () s) :
    s.forward.waiting = [] := by
  rw [compileTokens_eq] at hrun
  have hstart : ((initial options).heard tokens).Awaited (items tokens) := by
    obtain ⟨headers, hheard⟩ := (initial options).exists_heard_eq tokens
    intro call hcall
    rw [hheard] at hcall
    cases hcall
  refine waiting_eq_nil_iff.mp (hstart.run hrun ?_)
  intro front token index back t hsplit hfront hlater
  have hrefs : options.forwardRefs = true := by
    have hrefs := (resolve_eq_later_iff.mp hlater).2.2.1
    rwa [options_of_forM hfront, options_heard] at hrefs
  let m : Meeting := ⟨initial options, front, token, index, back, t⟩
  have hm : m.In options [source] := @Meeting.In.mk _ _ _ [] [] _ _ rfl rfl hlexed hsplit hfront
  by_contra hahead
  obtain ⟨header, definition, hlast, -⟩ := ((hm.waits_iff hrefs).mp ⟨hlater, hahead⟩).header
  cases hlast

end Compiler

open Compiler

/-- **No source fails for a call whose definition never came.** -/
theorem compile_ne_unresolved (source : String) (options : Options) (name : String) (pos : Position) :
    compile source options ≠ .error (.unresolvedForwardCall name pos) := by
  intro h
  rcases error_of_compile h with hlexed | ⟨fault, hfault⟩ | ⟨tokens, t, hlexed, hprogram⟩
  · obtain ⟨start, hcomment⟩ := error_of_tokenizeOnto hlexed
    cases hcomment
  · cases hfault
  · rcases bind_eq_error hprogram with hrun | ⟨_, s, hrun, hfinish⟩
    · cases calm_compileTokens tokens hrun
    · exact finish_ne_unresolved (waiting_of_compileTokens hlexed hrun) name pos hfinish

/-- **What compiles without headers and without a warning compiles with them to the same program.** -/
theorem compile_widened {source : String} {options : Options} {program : Program} (hrefs : options.forwardRefs = false)
    (h : compile source options = .ok program) (hwarnings : program.warnings = []) :
    compile source { options with forwardRefs := true } = .ok program := by
  obtain ⟨c, rfl, rfl, hlexed⟩ := exists_compilation h
  obtain ⟨_, s, hrun, hfinish⟩ := bind_eq_ok.mp c.ok
  have hnone : s.warnings.toList = [] := by
    rw [finish_eq_of_complete (complete_of_finish hfinish)] at hfinish
    obtain ⟨-, -, -, -, hsame, -⟩ := Compilation.build_ok hfinish
    obtain ⟨log, hended⟩ := s.ended_eq
    rw [hwarnings, hended] at hsame
    exact hsame.symm
  rw [compileTokens_eq, heard_eq_self hrefs] at hrun
  let headers := (items c.tokens).filterMap Item.header?
  have hheard : (initial { c.options with forwardRefs := true }).heard c.tokens = (initial c.options).widened headers :=
    announced_eq { c.options with forwardRefs := true } c.tokens
  have hprogram : compileProgram c.tokens (initial { c.options with forwardRefs := true }) =
      .ok c.program (c.final.widened headers) := by
    refine bind_eq_ok.mpr ⟨(), s.widened headers, ?_, ?_⟩
    · rw [compileTokens_eq, hheard]
      exact forM_widened hrun hrefs hnone
    · rw [blind_finish s headers, hfinish]
      rfl
  have hvalid : Options.fault? { c.options with forwardRefs := true } = none := c.valid
  rw [compile_eq, hlexed]
  simp only [hvalid, hprogram]
  rfl

/-- **The headers found ahead are those at which definitions are opened.**  No source fails for a call that waits, and
what compiles without a warning and without headers compiles with them to the same program. -/
theorem headers_agree (source : String) (options : Options) :
    (∀ name pos, compile source options ≠ .error (.unresolvedForwardCall name pos)) ∧
    (∀ tokens s, tokenize source = .ok tokens → compileTokens tokens (initial options) = .ok () s →
      s.forward.headers = (if options.forwardRefs then headersFrom 0 tokens else []) ∧
      ∀ header, header ∈ headersFrom 0 tokens ↔ ((initial options).heard tokens).BeginsAt tokens header) ∧
    ∀ program, options.forwardRefs = false → compile source options = .ok program → program.warnings = [] →
      compile source { options with forwardRefs := true } = .ok program := by
  refine ⟨compile_ne_unresolved source options, ?_, fun program => compile_widened⟩
  intro tokens s hlexed hrun
  have hfrom : compileFrom 0 tokens ((initial options).heard tokens) = .ok () s := hrun
  have hknown : ((initial options).heard tokens).forward.headers =
      if options.forwardRefs then headersFrom 0 tokens else [] := by
    rw [headersFrom_eq_filterMap]
    exact congrArg (·.forward.headers) (announced_eq options tokens)
  refine ⟨?_, fun header => ⟨beginsAt_of_mem hfrom, mem_of_beginsAt⟩⟩
  rw [compileTokens_eq] at hrun
  rw [headers_of_forM hrun, hknown]

/-- A variable and a definition called `:`, and a call ahead of its definition; then a program without any. -/
theorem headers_agree_colons : ∃ (tokens : List Token) (s : Compiler) (program : Program),
    tokenize "variable : : : 7 ; : f g ; : g 1 ;" = .ok tokens ∧
      compileTokens tokens (initial { forwardRefs := true }) = .ok () s ∧
      s.forward.headers = [⟨":", 2⟩, ⟨"f", 6⟩, ⟨"g", 10⟩] ∧
      ((initial { forwardRefs := true }).heard tokens).BeginsAt tokens ⟨":", 2⟩ ∧
      compile ": square dup * ; 7 square ." {} = .ok program ∧ program.warnings = [] ∧
      compile ": square dup * ; 7 square ." { forwardRefs := true } = .ok program := by
  let tokens := (tokenize "variable : : : 7 ; : f g ; : g 1 ;").toOption.getD []
  have hlexed : tokenize "variable : : : 7 ; : f g ; : g 1 ;" = .ok tokens := by decide +kernel
  have hheaders : headersFrom 0 tokens = [⟨":", 2⟩, ⟨"f", 6⟩, ⟨"g", 10⟩] := by decide +kernel
  have hrun := eq_ok_of_error? (r := compileTokens tokens (initial { forwardRefs := true })) (by decide +kernel)
  obtain ⟨program, hprogram⟩ := exists_of_isOk (x := compile ": square dup * ; 7 square ." {}) (by decide +kernel)
  have hwarnings : program.warnings = [] := by
    have hnone : (compile ": square dup * ; 7 square ." {}).toOption.map (·.warnings) = some [] := by decide +kernel
    rw [hprogram] at hnone
    exact Option.some.inj hnone
  obtain ⟨-, hopened, -⟩ := headers_agree "variable : : : 7 ; : f g ; : g 1 ;" { forwardRefs := true }
  obtain ⟨hknown, hbegins⟩ := hopened tokens _ hlexed hrun
  obtain ⟨-, -, hsame⟩ := headers_agree ": square dup * ; 7 square ." {}
  refine ⟨tokens, _, program, hlexed, hrun, hknown.trans hheaders, (hbegins ⟨":", 2⟩).mp ?_, hprogram, hwarnings,
    hsame program rfl hprogram hwarnings⟩
  rw [hheaders]
  exact List.mem_cons_self

end ForthElf
