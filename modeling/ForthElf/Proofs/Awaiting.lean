import ForthElf.Proofs.Atomicity

/-!
# Calls that wait for a definition

A word may be called ahead of its definition if a header of its name is announced behind it.  Headers are announced by
their token index, which starts anew with every piece of text.

* `Item.heads name item` — `item` opens a definition of `name`;
* `Compiler.Awaited back s` — every call that waits has a definition of its name among the items `back`;
* `Compiler.Settled headers s` — the announced definitions can be found, but for the one that is open;
* `Meets` — the compiler in front of an item of one of several pieces of text;
* `calls_wait_iff` — **a call is left waiting without a definition ahead of it exactly if it stands in a definition of
  its own name that an earlier piece left open behind a header with a greater index**, and if there is no such word,
  no call is left waiting at the end.
-/

namespace ForthElf

open Text

/-! ### Headers ahead -/

/-- Whether an item opens a definition that answers to a name. -/
def Item.heads (name : String) : Item → Bool
  | .define _ token _ => sameWord token.text name
  | _ => false

theorem Item.heads_iff {name : String} {item : Item} :
    item.heads name ↔ ∃ header, item.header? = some header ∧ sameWord header.name name := by
  cases item <;> simp [heads, header?]

theorem ForwardCalls.announcedAfter_iff {f : ForwardCalls} {name : String} {index : Nat} :
    f.announcedAfter name index ↔ ∃ header ∈ f.headers, sameWord header.name name ∧ index < header.index := by
  simp [announcedAfter]

theorem Item.index_of_header? {item : Item} {header : Header} (h : item.header? = some header) :
    header.index = item.index := by
  cases item with
  | define colon name index =>
    cases h
    rfl
  | _ => cases h

namespace Compiler

theorem resolve_eq_later_iff {s : Compiler} {token : Token} {index : Nat} :
    s.resolve token index = some .later ↔ Primitive.lookup? token.text = none ∧ s.dictionary.find? token.text = none ∧
      s.options.forwardRefs ∧ s.forward.announcedAfter token.text index := by
  unfold resolve
  cases Primitive.lookup? token.text with
  | some p => simp
  | none =>
    cases s.dictionary.find? token.text with
    | some entry => simp
    | none =>
      by_cases hannounced : s.options.forwardRefs ∧ s.forward.announcedAfter token.text index
      · simp [hannounced]
      · cases hbest : s.options.bestEffort <;> simp [hannounced]

/-- Every call that waits has a definition of its name among the items that are still ahead. -/
def Awaited (back : List Item) (s : Compiler) : Prop :=
  ∀ call ∈ s.forward.waiting, ∃ item ∈ back, item.heads call.name

section Awaited

variable {s s' : Compiler} {item : Item} {back : List Item}

/-- **One item**: a definition takes the calls of its name, and a word adds a call only if its definition is ahead. -/
theorem Awaited.step (h : s.Awaited (item :: back)) (hc : Compiled (s.ready item) item s')
    (hlater : ∀ token index, item = .word token index → s.resolve token index = some .later →
      ∃ item' ∈ back, item'.heads token.text) : s'.Awaited back := by
  have hother : ∀ call ∈ s.forward.waiting, item.heads call.name = false →
      ∃ item' ∈ back, item'.heads call.name := by
    intro call hcall hheads
    obtain ⟨item', hmem, hitem'⟩ := h call hcall
    rcases List.mem_cons.mp hmem with rfl | hmem
    · rw [hheads] at hitem'
      cases hitem'
    · exact ⟨item', hmem, hitem'⟩
  intro call hcall
  rw [hc.forward] at hcall
  cases item with
  | define colon name index =>
    simp only [forwardAfter, forward_ready, ForwardCalls.resolve, List.mem_filter] at hcall
    obtain ⟨hold, hname⟩ := hcall
    apply hother call hold
    rw [Item.heads, sameWord_comm]
    simpa using hname
  | word token index =>
    simp only [forwardAfter, resolve_ready, forward_ready] at hcall
    split at hcall
    · next hresolve =>
      rcases List.mem_append.mp hcall with hold | hnew
      · exact hother call hold rfl
      · rw [List.mem_singleton.mp hnew]
        exact hlater token index rfl hresolve
    · exact hother call hcall rfl
  | «variable» word name index => exact hother call (by simpa [forwardAfter] using hcall) rfl
  | keyword keyword token index => exact hother call (by simpa [forwardAfter] using hcall) rfl
  | number literal token index => exact hother call (by simpa [forwardAfter] using hcall) rfl

/-- **Several items**: if every word that waits has its definition ahead, no call waits in the end. -/
theorem Awaited.run {items : List Item} (h : s.Awaited items) (hrun : items.forM compileItem s = .ok () s')
    (hlater : ∀ front token index back t, items = front ++ Item.word token index :: back →
      front.forM compileItem s = .ok () t → t.resolve token index = some .later →
      ∃ item' ∈ back, item'.heads token.text) : s'.Awaited [] := by
  induction items generalizing s with
  | nil =>
    cases hrun
    exact h
  | cons item items ih =>
    obtain ⟨_, t, hitem, hitems⟩ := bind_eq_ok.mp hrun
    refine ih (h.step (compileItem_compiled hitem) ?_) hitems ?_
    · intro token index heq hresolve
      exact hlater [] token index items s (by rw [heq]; rfl) rfl hresolve
    · intro front token index back u heq hfront hresolve
      refine hlater (item :: front) token index back u (by rw [heq]; rfl) ?_ hresolve
      rw [forM_cons_of_ok hitem, hfront]

theorem waiting_eq_nil_iff : s.Awaited [] ↔ s.forward.waiting = [] := by
  simp [Awaited, List.eq_nil_iff_forall_not_mem]

end Awaited

end Compiler

/-! ### Entries by number -/

namespace Dictionary

def at? (d : Dictionary) (number : Nat) : Option Entry :=
  d.entries.reverse[number]?

section Entries

variable {d : Dictionary} {number : Nat} {name : String} {entry : Entry}

theorem lt_size_of_at? (h : d.at? number = some entry) : number < d.size := by
  rw [at?] at h
  obtain ⟨hlt, -⟩ := List.getElem?_eq_some_iff.mp h
  rwa [List.length_reverse] at hlt

theorem at?_define_of_at? (h : d.at? number = some entry) (new : Entry) :
    (d.define new).at? number = some entry := by
  have hlt : number < d.entries.reverse.length := by
    rw [List.length_reverse]
    exact lt_size_of_at? h
  rw [at?, define, List.reverse_cons, List.getElem?_append_left hlt]
  exact h

theorem at?_define_size (d : Dictionary) (new : Entry) : (d.define new).at? d.size = some new := by
  have hsize : d.size = d.entries.reverse.length := by
    rw [List.length_reverse]
    rfl
  rw [at?, define, List.reverse_cons, hsize, List.getElem?_concat_length]

theorem isSome_find?_iff : (d.find? name).isSome ↔ ∃ entry ∈ d.entries, entry.answersTo name := by
  rw [find?, List.find?_isSome]

theorem isSome_find?_of_sameWord {name' : String} (hsame : sameWord name name') (h : (d.find? name).isSome) :
    (d.find? name').isSome := by
  rw [isSome_find?_iff] at h ⊢
  obtain ⟨entry, hmem, hanswers⟩ := h
  simp only [Entry.answersTo, Bool.and_eq_true] at hanswers
  refine ⟨entry, hmem, ?_⟩
  simp only [Entry.answersTo, Bool.and_eq_true]
  exact ⟨hanswers.1, sameWord_trans hanswers.2 hsame⟩

theorem isSome_find?_define (h : (d.find? name).isSome) (new : Entry) : ((d.define new).find? name).isSome := by
  rw [isSome_find?_iff] at h ⊢
  obtain ⟨entry, hmem, hanswers⟩ := h
  exact ⟨entry, List.mem_cons_of_mem new hmem, hanswers⟩

theorem mem_reveal {i : Nat} (hnumber : number < d.size) (h : d.entries[i]? = some entry) :
    (if d.size - 1 - number = i then { entry with hidden := false } else entry) ∈ (d.reveal number).entries := by
  apply List.mem_of_getElem? (i := i)
  rw [reveal, if_pos hnumber, List.getElem?_modify, h]
  rfl

theorem isSome_find?_reveal (h : (d.find? name).isSome) (number : Nat) : ((d.reveal number).find? name).isSome := by
  by_cases hnumber : number < d.size
  · rw [isSome_find?_iff] at h ⊢
    obtain ⟨entry, hmem, hanswers⟩ := h
    obtain ⟨i, hi⟩ := List.getElem?_of_mem hmem
    refine ⟨_, mem_reveal hnumber hi, ?_⟩
    split
    · simp only [Entry.answersTo, Bool.and_eq_true] at hanswers ⊢
      exact ⟨rfl, hanswers.2⟩
    · exact hanswers
  · rw [reveal, if_neg hnumber]
    exact h

theorem isSome_find?_reveal_self (h : d.at? number = some entry) :
    ((d.reveal number).find? entry.name).isSome := by
  have hnumber := lt_size_of_at? h
  have hentry : d.entries[d.size - 1 - number]? = some entry := by
    rwa [at?, List.getElem?_reverse hnumber] at h
  have hmem := mem_reveal hnumber hentry
  rw [if_pos rfl] at hmem
  rw [isSome_find?_iff]
  refine ⟨_, hmem, ?_⟩
  simp [Entry.answersTo]

end Entries

end Dictionary

/-! ### Announced definitions -/

namespace Compiler

/-- The announced definitions can be found, but for the one that is open, which was announced last. -/
structure Settled (headers : List Header) (s : Compiler) : Prop where
  known : ∀ header ∈ headers, (s.dictionary.find? header.name).isSome ∨
    headers.getLast? = some header ∧ ∃ definition, s.current = some definition ∧ definition.name = header.name
  entry : ∀ definition, s.current = some definition →
    ∃ entry, s.dictionary.at? definition.number = some entry ∧ entry.name = definition.name

section Settled

variable {s s' : Compiler} {item : Item} {headers : List Header}

theorem settled_initial (options : Options) : (initial options).Settled [] where
  known := by
    intro header hmem
    cases hmem
  entry := by
    intro definition hcurrent
    cases hcurrent

theorem Settled.of_eq (h : s.Settled headers) (hdictionary : s'.dictionary = s.dictionary)
    (hcurrent : s'.current = s.current) : s'.Settled headers where
  known := by
    rw [hdictionary, hcurrent]
    exact h.known
  entry := by
    rw [hdictionary, hcurrent]
    exact h.entry

/-- Outside of definitions every announced name can be found. -/
theorem Settled.known_of_current_eq_none (h : s.Settled headers) (hcurrent : s.current = none) {header : Header}
    (hmem : header ∈ headers) : (s.dictionary.find? header.name).isSome := by
  rcases h.known header hmem with hknown | ⟨-, definition, hopen, -⟩
  · exact hknown
  · rw [hcurrent] at hopen
    cases hopen

/-- A definition is opened, and its entry is hidden. -/
theorem Settled.open (h : s.Settled headers) (hcurrent : s.current = none) {header : Header} {new : Entry}
    {definition : OpenDefinition} (hdictionary : s'.dictionary = s.dictionary.define new)
    (hopen : s'.current = some definition) (hnumber : definition.number = s.dictionary.size)
    (hname : definition.name = header.name) (hentry : new.name = header.name) : s'.Settled (headers ++ [header]) where
  known := by
    intro other hmem
    rcases List.mem_append.mp hmem with hold | hnew
    · left
      rw [hdictionary]
      exact Dictionary.isSome_find?_define (h.known_of_current_eq_none hcurrent hold) new
    · right
      obtain rfl := List.mem_singleton.mp hnew
      exact ⟨List.getLast?_concat, definition, hopen, hname⟩
  entry := by
    intro other hother
    obtain rfl : definition = other := Option.some.inj (hopen.symm.trans hother)
    refine ⟨new, ?_, hentry.trans hname.symm⟩
    rw [hdictionary, hnumber, Dictionary.at?_define_size]

/-- A definition is closed, and its entry can be found. -/
theorem Settled.close (h : s.Settled headers) {definition : OpenDefinition} (hopen : s.current = some definition)
    (hdictionary : s'.dictionary = s.dictionary.reveal definition.number) (hcurrent : s'.current = none) :
    s'.Settled headers where
  known := by
    intro header hmem
    left
    rw [hdictionary]
    rcases h.known header hmem with hknown | ⟨-, other, hother, hname⟩
    · exact Dictionary.isSome_find?_reveal hknown definition.number
    · obtain rfl : definition = other := Option.some.inj (hopen.symm.trans hother)
      obtain ⟨entry, hentry, hsame⟩ := h.entry definition hopen
      rw [← hname, ← hsame]
      exact Dictionary.isSome_find?_reveal_self hentry
  entry := by
    intro other hother
    rw [hcurrent] at hother
    cases hother

theorem Settled.define (h : s.Settled headers) {new : Entry} (hdictionary : s'.dictionary = s.dictionary.define new)
    (hcurrent : s'.current = s.current) : s'.Settled headers where
  known := by
    intro header hmem
    rw [hdictionary, hcurrent]
    rcases h.known header hmem with hknown | hopen
    · exact .inl (Dictionary.isSome_find?_define hknown new)
    · exact .inr hopen
  entry := by
    intro definition hdefinition
    rw [hcurrent] at hdefinition
    obtain ⟨entry, hentry, hname⟩ := h.entry definition hdefinition
    rw [hdictionary]
    exact ⟨entry, Dictionary.at?_define_of_at? hentry new, hname⟩

theorem currentAfter_keyword {k : Keyword} (hsemi : k ≠ .semicolon) (token : Token) (index : Nat) :
    s.currentAfter (.keyword k token index) = s.current := by
  cases k <;> first | exact absurd rfl hsemi | rfl

theorem dictionaryAfter_keyword {k : Keyword} (hsemi : k ≠ .semicolon) (token : Token) (index : Nat) :
    s.dictionaryAfter (.keyword k token index) = s.dictionary := by
  cases k <;> first | exact absurd rfl hsemi | rfl

/-- **One item** adds its header. -/
theorem Settled.step (h : s.Settled headers) (hc : Compiled (s.ready item) item s') :
    s'.Settled (headers ++ item.header?.toList) := by
  have hcurrent := hc.current
  have hdictionary := hc.dictionary
  cases item with
  | define colon name index =>
    have hnone : s.current = none := by
      have hadmits := hc.admits.1
      rwa [current_ready] at hadmits
    simp only [dictionaryAfter, dictionary_ready] at hdictionary
    refine h.open hnone hdictionary hcurrent ?_ rfl rfl
    rw [dictionary_ready]
  | keyword k token index =>
    simp only [Item.header?, Option.toList_none, List.append_nil]
    by_cases hsemi : k = .semicolon
    · subst hsemi
      obtain ⟨definition, hopen⟩ := Option.isSome_iff_exists.mp hc.admits.1
      rw [current_ready] at hopen
      refine h.close hopen ?_ hcurrent
      simp only [hdictionary, dictionaryAfter, dictionary_ready, current_ready, hopen]
      rfl
    · rw [currentAfter_keyword hsemi, current_ready] at hcurrent
      rw [dictionaryAfter_keyword hsemi, dictionary_ready] at hdictionary
      exact h.of_eq hdictionary hcurrent
  | «variable» word name index =>
    simp only [currentAfter, current_ready, dictionaryAfter, dictionary_ready] at hcurrent hdictionary
    simpa [Item.header?] using h.define hdictionary hcurrent
  | number literal token index =>
    simp only [currentAfter, current_ready, dictionaryAfter, dictionary_ready] at hcurrent hdictionary
    simpa [Item.header?] using h.of_eq hdictionary hcurrent
  | word token index =>
    simp only [currentAfter, current_ready, dictionaryAfter, dictionary_ready] at hcurrent hdictionary
    simpa [Item.header?] using h.of_eq hdictionary hcurrent

/-- **Several items** add their headers. -/
theorem Settled.run (h : s.Settled headers) {front : List Item} (hrun : front.forM compileItem s = .ok () s') :
    s'.Settled (headers ++ front.filterMap Item.header?) := by
  induction front generalizing s headers with
  | nil =>
    cases hrun
    simpa using h
  | cons item front ih =>
    obtain ⟨_, t, hitem, hfront⟩ := bind_eq_ok.mp hrun
    have hlast := ih (h.step (compileItem_compiled hitem)) hfront
    have hcons : (item :: front).filterMap Item.header? = item.header?.toList ++ front.filterMap Item.header? := by
      cases hheader : item.header? <;> simp [hheader]
    rwa [List.append_assoc, ← hcons] at hlast

end Settled

/-! ### What items leave alone -/

section Kept

variable {s s' : Compiler} {front : List Item}

theorem headers_forwardAfter (s : Compiler) (item : Item) : (s.forwardAfter item).headers = s.forward.headers := by
  unfold forwardAfter
  split
  · rfl
  · split <;> rfl
  · rfl

theorem headers_of_forM (hrun : front.forM compileItem s = .ok () s') : s'.forward.headers = s.forward.headers := by
  induction front generalizing s with
  | nil =>
    cases hrun
    rfl
  | cons item front ih =>
    obtain ⟨_, t, hitem, hfront⟩ := bind_eq_ok.mp hrun
    rw [ih hfront, (compileItem_compiled hitem).forward, headers_forwardAfter, forward_ready]

theorem forward_heard (hrefs : s.options.forwardRefs = true) (tokens : List Token) :
    (s.heard tokens).forward = { s.forward with
      headers := s.forward.headers ++ (items tokens).filterMap Item.header? } := by
  show (if s.options.forwardRefs then _ else s).forward = _
  rw [hrefs, if_pos rfl, foldl_announce, headersFrom_eq_filterMap, items]

end Kept

end Compiler

/-! ### Words of a piece of text -/

open Compiler

/-- A word as the compiler meets it. -/
structure Meeting where
  /-- The compiler in front of the piece of text that the word is in. -/
  start : Compiler
  /-- The items of the piece in front of the word. -/
  front : List Item
  token : Token
  index : Nat
  /-- The items of the piece behind the word. -/
  back : List Item
  /-- The compiler in front of the word. -/
  state : Compiler

namespace Meeting

/-- The word is met when the pieces of text are compiled one after the other. -/
inductive In (options : Options) (sources : List String) (m : Meeting) : Prop
  | mk {before after : List String} {source : String} {tokens : List Token}
    (sources_eq : sources = before ++ source :: after)
    (started : before.forM compileChunk (initial options) = .ok () m.start)
    (lexed : tokenize source = .ok tokens)
    (items_eq : items tokens = m.front ++ .word m.token m.index :: m.back)
    (compiled : m.front.forM compileItem (m.start.heard tokens) = .ok () m.state)

def Waits (m : Meeting) : Prop :=
  m.state.resolve m.token m.index = some .later

def Ahead (m : Meeting) : Prop :=
  ∃ item ∈ m.back, item.heads m.token.text

/-- The word is the name of the definition that it stands in, which an earlier piece of text left open behind a header
with a greater index, and it has no other meaning. -/
structure Stale (m : Meeting) : Prop where
  noPrimitive : Primitive.lookup? m.token.text = none
  unknown : m.state.dictionary.find? m.token.text = none
  notAhead : ¬m.Ahead
  /-- No definition is opened by the piece of text itself. -/
  noHeader : ∀ item ∈ m.front, item.header? = none
  header : ∃ header definition, m.start.forward.headers.getLast? = some header ∧ m.index < header.index ∧
    m.state.current = some definition ∧ definition.name = header.name ∧ sameWord header.name m.token.text

end Meeting

/-! ### Pieces of text -/

namespace Compiler

variable {s s' : Compiler} {options : Options}

theorem compileChunk_ok {source : String} (h : compileChunk source s = .ok () s') :
    ∃ tokens, tokenize source = .ok tokens ∧ (items tokens).forM compileItem (s.heard tokens) = .ok () s' := by
  obtain ⟨tokens, t, hrequire, hrun⟩ := bind_eq_ok.mp h
  obtain ⟨hlexed, rfl⟩ := require_ok hrequire
  rw [compileTokens_eq] at hrun
  exact ⟨tokens, hlexed, hrun⟩

theorem Settled.heard {headers : List Header} (h : s.Settled headers) (tokens : List Token) :
    (s.heard tokens).Settled headers := by
  obtain ⟨headers', hheard⟩ := s.exists_heard_eq tokens
  rw [hheard]
  exact h.of_eq rfl rfl

/-- The definitions that the pieces of text so far announced are settled. -/
structure Resumed (options : Options) (s : Compiler) : Prop where
  options : s.options = options
  settled : s.Settled s.forward.headers

theorem resumed_initial (options : Options) : (initial options).Resumed options :=
  ⟨rfl, settled_initial options⟩

/-- **One piece of text.** -/
theorem Resumed.step (hrefs : options.forwardRefs = true) (h : s.Resumed options) {source : String}
    (hrun : compileChunk source s = .ok () s') : s'.Resumed options := by
  obtain ⟨tokens, -, hrun⟩ := compileChunk_ok hrun
  have hrefs' : s.options.forwardRefs = true := by rw [h.options, hrefs]
  refine ⟨?_, ?_⟩
  · rw [options_of_forM hrun, options_heard, h.options]
  · rw [headers_of_forM hrun, forward_heard hrefs']
    exact (h.settled.heard tokens).run hrun

/-- **Several pieces of text.** -/
theorem Resumed.run (hrefs : options.forwardRefs = true) (h : s.Resumed options) {sources : List String}
    (hrun : sources.forM compileChunk s = .ok () s') : s'.Resumed options := by
  induction sources generalizing s with
  | nil =>
    cases hrun
    exact h
  | cons source sources ih =>
    obtain ⟨_, t, hsource, hsources⟩ := bind_eq_ok.mp hrun
    exact ih (h.step hrefs hsource) hsources

end Compiler

namespace Meeting

variable {options : Options} {sources : List String} {m : Meeting}

/-- **A call is left waiting without a definition ahead of it exactly if it is stale.** -/
theorem In.waits_iff (hrefs : options.forwardRefs = true) (hm : m.In options sources) :
    m.Waits ∧ ¬m.Ahead ↔ m.Stale := by
  obtain ⟨-, hstarted, -, hitems, hcompiled⟩ := hm
  rename_i tokens
  have hresumed := (resumed_initial options).run hrefs hstarted
  have hrefs' : m.start.options.forwardRefs = true := by rw [hresumed.options, hrefs]
  have hsettled := (hresumed.settled.heard tokens).run hcompiled
  have hheaders : m.state.forward.headers = m.start.forward.headers ++
      (m.front.filterMap Item.header? ++ m.back.filterMap Item.header?) := by
    rw [headers_of_forM hcompiled, forward_heard hrefs', hitems, List.filterMap_append]
    rfl
  have hoptions : m.state.options.forwardRefs = true := by
    rw [options_of_forM hcompiled, options_heard, hrefs']
  have hfront : ∀ header ∈ m.front.filterMap Item.header?, header.index < m.index := by
    intro header hmem
    obtain ⟨item, hitem, hheader⟩ := List.mem_filterMap.mp hmem
    have hpairwise := pairwise_itemsFrom 0 tokens
    rw [← items, hitems, List.pairwise_append] at hpairwise
    rw [Item.index_of_header? hheader]
    exact hpairwise.2.2 item hitem _ List.mem_cons_self
  constructor
  · rintro ⟨hwaits, hahead⟩
    obtain ⟨hprimitive, hunknown, hannounced⟩ := resolve_eq_later_iff.mp hwaits
    obtain ⟨header, hmem, hsame, hindex⟩ := ForwardCalls.announcedAfter_iff.mp hannounced.2
    rw [hheaders, ← List.append_assoc] at hmem
    rcases List.mem_append.mp hmem with hmem | hmem
    · rcases hsettled.known header hmem with hknown | ⟨hlast, definition, hopen, hname⟩
      · have hfound := Dictionary.isSome_find?_of_sameWord hsame hknown
        rw [hunknown] at hfound
        cases hfound
      · have hnone : m.front.filterMap Item.header? = [] := by
          by_contra hne
          rw [List.getLast?_append_of_ne_nil _ hne] at hlast
          have := hfront header (List.mem_of_getLast? hlast)
          omega
        rw [hnone, List.append_nil] at hlast
        exact ⟨hprimitive, hunknown, hahead, by simpa using hnone, header, definition, hlast, hindex, hopen, hname,
          hsame⟩
    · obtain ⟨item, hitem, hheader⟩ := List.mem_filterMap.mp hmem
      exact absurd ⟨item, hitem, Item.heads_iff.mpr ⟨header, hheader, hsame⟩⟩ hahead
  · rintro ⟨hprimitive, hunknown, hahead, -, header, definition, hlast, hindex, -, -, hsame⟩
    refine ⟨resolve_eq_later_iff.mpr ⟨hprimitive, hunknown, hoptions, ?_⟩, hahead⟩
    refine ForwardCalls.announcedAfter_iff.mpr ⟨header, ?_, hsame, hindex⟩
    rw [hheaders]
    exact List.mem_append_left _ (List.mem_of_getLast? hlast)

end Meeting

/-! ### Ends of programs -/

namespace Compiler

variable {s s' : Compiler} {options : Options}

/-- **Pieces of text** in which no word is stale leave no call that waits. -/
theorem waiting_of_pieces (hrefs : options.forwardRefs = true) {sources : List String}
    (hrun : sources.forM compileChunk (initial options) = .ok () s)
    (hfresh : ∀ m : Meeting, m.In options sources → ¬m.Stale) : s.forward.waiting = [] := by
  -- along the pieces: those that are done and those that are still to come
  have hpieces : ∀ (after before : List String) (t : Compiler), sources = before ++ after →
      before.forM compileChunk (initial options) = .ok () t → after.forM compileChunk t = .ok () s →
      t.forward.waiting = [] → s.forward.waiting = [] := by
    intro after
    induction after with
    | nil =>
      intro before t _ _ hafter hwaiting
      cases hafter
      exact hwaiting
    | cons source after ih =>
      intro before t hsources hbefore hafter hwaiting
      obtain ⟨_, u, hsource, hrest⟩ := bind_eq_ok.mp hafter
      refine ih (before ++ [source]) u (by simp [hsources]) ?_ hrest ?_
      · have happend : (before ++ [source]).forM compileChunk =
            (before.forM compileChunk >>= fun _ => [source].forM compileChunk) := List.forM_append
        rw [happend]
        exact bind_eq_ok.mpr ⟨(), t, hbefore, bind_eq_ok.mpr ⟨(), u, hsource, rfl⟩⟩
      · obtain ⟨tokens, hlexed, hitems⟩ := compileChunk_ok hsource
        obtain ⟨headers, hheard⟩ := t.exists_heard_eq tokens
        have hstart : (t.heard tokens).Awaited (items tokens) := by
          intro call hcall
          rw [hheard] at hcall
          rw [show t.forward.waiting = [] from hwaiting] at hcall
          cases hcall
        refine waiting_eq_nil_iff.mp (hstart.run hitems ?_)
        intro front token index back v hsplit hfront hlater
        let m : Meeting := ⟨t, front, token, index, back, v⟩
        have hm : m.In options sources := ⟨hsources, hbefore, hlexed, hsplit, hfront⟩
        by_contra hahead
        exact hfresh m hm ((hm.waits_iff hrefs).mp ⟨hlater, hahead⟩)
  exact hpieces sources [] (initial options) rfl rfl hrun rfl

/-- Only a call that waits fails at the end as such. -/
theorem finish_ne_unresolved (h : s.forward.waiting = []) (name : String) (pos : Position) :
    finish s ≠ .error (.unresolvedForwardCall name pos) s' := by
  intro hfinish
  cases hcomplete : s.ensureComplete with
  | error e =>
    rw [finish, get_bind_apply, hcomplete] at hfinish
    obtain rfl : e = .unresolvedForwardCall name pos := (EStateM.Result.error.inj hfinish).1
    have hfirst : s.forward.first? = none := List.head?_eq_none_iff.mpr h
    rw [ensureComplete, hfirst] at hcomplete
    cases hcurrent : s.current <;> cases hcontrol : s.control <;>
      simp [hcurrent, hcontrol, ControlStack.ensureClosed] at hcomplete
  | ok _ =>
    rw [finish_eq_of_complete hcomplete] at hfinish
    rcases Compilation.build_error hfinish with ⟨-, he⟩ | ⟨-, hlayout⟩
    · cases he
    · rw [Layout.ofOptions] at hlayout
      split at hlayout <;> cases hlayout

end Compiler

/-- **A call is left waiting without a definition ahead of it in its piece of text exactly if it is stale**: it is the
name of the definition that it stands in, which an earlier piece left open behind a header with a greater index.  If
no word is stale, no call waits in the end, and the program does not fail for one. -/
theorem calls_wait_iff {options : Options} {sources : List String} {s : Compiler} (hrefs : options.forwardRefs = true)
    (hrun : sources.forM compileChunk (initial options) = .ok () s) :
    (∀ m : Meeting, m.In options sources → (m.Waits ∧ ¬m.Ahead ↔ m.Stale)) ∧
      ((∀ m : Meeting, m.In options sources → ¬m.Stale) → s.forward.waiting = [] ∧
        ∀ name pos s', finish s ≠ .error (.unresolvedForwardCall name pos) s') := by
  refine ⟨fun m hm => hm.waits_iff hrefs, fun hfresh => ?_⟩
  have hwaiting := waiting_of_pieces hrefs hrun hfresh
  exact ⟨hwaiting, fun name pos s' => finish_ne_unresolved hwaiting name pos⟩

/-- Definitions that call each other, the second of which ends in the next piece of text. -/
theorem calls_wait_iff_mutual : ∃ (options : Options) (sources : List String) (s : Compiler),
    options.forwardRefs = true ∧ sources = [": even dup if 1 - odd then ; : odd dup if", "1 - even then ; 4 even"] ∧
      sources.forM compileChunk (initial options) = .ok () s ∧
      (∀ m : Meeting, m.In options sources → (m.Waits ∧ ¬m.Ahead ↔ m.Stale)) ∧
      ((∀ m : Meeting, m.In options sources → ¬m.Stale) → s.forward.waiting = [] ∧
        ∀ name pos s', finish s ≠ .error (.unresolvedForwardCall name pos) s') := by
  let options : Options := { forwardRefs := true }
  let sources := [": even dup if 1 - odd then ; : odd dup if", "1 - even then ; 4 even"]
  have hrun :
      sources.forM compileChunk (initial options) = .ok () (stateOf (sources.forM compileChunk (initial options))) :=
    eq_ok_of_error? (by decide +kernel)
  exact ⟨options, sources, _, rfl, rfl, hrun, calls_wait_iff rfl hrun⟩

/-- The name of a definition that is open is called in the next piece of text, and the call is left waiting. -/
theorem call_left_waiting : ∃ (sources : List String) (s s' : Compiler),
    sources = ["1 drop 1 drop : foo", "foo ;"] ∧
      sources.forM compileChunk (initial { forwardRefs := true }) = .ok () s ∧
      finish s = .error (.unresolvedForwardCall "foo" ⟨1, 1⟩) s' := by
  let sources := ["1 drop 1 drop : foo", "foo ;"]
  let r := sources.forM compileChunk (initial { forwardRefs := true })
  have hrun : r = .ok () (stateOf r) := eq_ok_of_error? (by decide +kernel)
  have hfinish : finish (stateOf r) = .error (.unresolvedForwardCall "foo" ⟨1, 1⟩) (stateOf (finish (stateOf r))) :=
    eq_error_of_error? (by decide +kernel)
  exact ⟨sources, _, _, rfl, hrun, hfinish⟩

end ForthElf
