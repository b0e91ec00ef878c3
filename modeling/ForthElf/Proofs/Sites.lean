import ForthElf.Proofs.Encoding
import ForthElf.Proofs.Steps

/-!
# Branch fields that wait for their target

* `Compiler.openSites s` — the fields that the open constructs, the open definition and the waiting calls of `s` will
  patch;
* `Compiler.placed s item`, `Compiler.patched s item` — the fields of the branches that `item` emits without a target,
  and the fields that it leads to their target, `Compiler.patchTarget s item`;
* `Compiler.Compiled.openSites_perm` — **no field is lost**: what waits behind an item, with what the item patches, is
  what waited before it, with what the item places;
* `Compiler.Consistent` — all fields that wait are in the code, and all places to branch to are known.
-/

namespace ForthElf

namespace Compiler

/-! ### Fields -/

/-- The fields that wait for their target. -/
def openSites (s : Compiler) : List Nat :=
  s.control.filterMap (·.construct.site?) ++
    ((s.current.bind (·.skipSite)).toList ++ s.forward.waiting.map (·.site))

/-- The field of the jump out of a loop with a step. -/
def crossingSite (s : Compiler) : Nat :=
  s.offset + codeSize (s.cache.state.filling ++ stepByTop) + 2

/-- The fields of the branches that an item emits before it knows their target. -/
def placed (s : Compiler) (item : Item) : List Nat :=
  match item with
  | .define _ _ _ => if s.entry.isSome then [s.behind item - 4] else []
  | .keyword .«if» _ _ | .keyword .«else» _ _ | .keyword .«while» _ _ => [s.behind item - 4]
  | .keyword .plusLoop _ _ => [s.crossingSite]
  | .word token index => if s.resolve token index = some .later then [s.behind item - 4] else []
  | _ => []

/-- The fields that an item leads to their target. -/
def patched (s : Compiler) (item : Item) : List Nat :=
  match item with
  | .keyword .plusLoop _ _ => [s.crossingSite]
  | _ => s.fixes item

/-- The place to which an item leads the fields that it patches. -/
def patchTarget (s : Compiler) (item : Item) : Nat :=
  match item with
  -- The jump out of a loop with a step leads in front of the instruction that drops the loop.
  | .keyword .plusLoop _ _ => s.behind item - codeSize [dropLoop]
  | _ => s.behind item

theorem patchTarget_le (s : Compiler) (item : Item) : s.patchTarget item ≤ s.behind item := by
  unfold patchTarget
  split
  · exact Nat.sub_le _ _
  · exact Nat.le_refl _

@[simp] theorem openSites_ready (s : Compiler) (item : Item) : (s.ready item).openSites = s.openSites := by
  simp [openSites]

/-! ### No field is lost -/

theorem sitesOf_perm (f : ForwardCalls) (name : String) :
    ((f.resolve name).waiting.map (·.site) ++ f.sitesOf name).Perm (f.waiting.map (·.site)) := by
  unfold ForwardCalls.resolve ForwardCalls.sitesOf
  rw [← List.map_append]
  exact (List.perm_append_comm.trans (List.filter_append_perm _ _)).map _

theorem exists_of_innermost? {s : Compiler} {construct : Construct} (h : s.innermost? = some construct) :
    ∃ frame rest, s.control = frame :: rest ∧ frame.construct = construct := by
  obtain ⟨frame, hhead, rfl⟩ := Option.map_eq_some_iff.mp h
  obtain ⟨rest, hcontrol⟩ := List.head?_eq_some_iff.mp hhead
  exact ⟨frame, rest, hcontrol, rfl⟩

/-- The open constructs that an item does not take. -/
def kept (s : Compiler) (item : Item) : ControlStack :=
  match item.role with
  | .opens | .plain => s.control
  | .turns | .closes => s.control.tail

theorem filterMap_controlAfter (s : Compiler) (item : Item) :
    (s.controlAfter item).filterMap (·.construct.site?) =
      ((s.opened item).bind (·.construct.site?)).toList ++ (s.kept item).filterMap (·.construct.site?) := by
  have hsplit : s.controlAfter item = (s.opened item).toList ++ s.kept item := rfl
  rw [hsplit, List.filterMap_append]
  cases s.opened item with
  | none => rfl
  | some frame => cases h : frame.construct.site? <;> simp [h]

theorem filterMap_control {s : Compiler} {k : Keyword} (token : Token) (index : Nat) (h : s.AdmitsKeyword k)
    (hne : k ≠ .semicolon) :
    s.control.filterMap (·.construct.site?) =
      s.fixes (.keyword k token index) ++ (s.kept (.keyword k token index)).filterMap (·.construct.site?) := by
  have htaken : ∀ {construct : Construct}, s.innermost? = some construct →
      s.control.filterMap (·.construct.site?) =
        construct.site?.toList ++ s.control.tail.filterMap (·.construct.site?) := by
    intro construct hinner
    obtain ⟨frame, rest, hcontrol, rfl⟩ := exists_of_innermost? hinner
    rw [hcontrol]
    cases hsite : frame.construct.site? <;> simp [hsite]
  cases k with
  | semicolon => exact absurd rfl hne
  | colon => cases h
  | «variable» => cases h
  | «else» =>
    obtain ⟨site, hinner⟩ := h
    rw [htaken hinner, fixes, hinner]
    rfl
  | «then» =>
    obtain ⟨site, hinner | hinner⟩ := h <;> rw [htaken hinner, fixes, hinner] <;> rfl
  | «until» | again | «while» | loop | plusLoop =>
    obtain ⟨target, hinner⟩ := h
    rw [htaken hinner]
    rfl
  | «repeat» =>
    obtain ⟨target, site, hinner⟩ := h
    rw [htaken hinner, fixes, hinner]
    rfl
  | _ => rfl

namespace Compiled

variable {s s' : Compiler} {item : Item}

/-- **No field is lost.** -/
theorem openSites_perm (h : Compiled s item s') :
    (s'.openSites ++ s.patched item).Perm (s.openSites ++ s.placed item) := by
  have hadmits := h.admits
  rw [openSites, h.control, h.current, h.forward, filterMap_controlAfter]
  cases item with
  | define colon name index =>
    obtain ⟨hcurrent, hcontrol⟩ := hadmits
    have hcalls := sitesOf_perm s.forward name.text
    simp only [openSites, opened, kept, Item.role, currentAfter, forwardAfter, patched, placed, fixes, hcurrent,
      hcontrol]
    cases s.entry with
    | none => simpa using hcalls
    | some entry => simpa using (List.Perm.cons _ hcalls).trans (List.perm_append_singleton _ _).symm
  | «variable» word name index =>
    simp [openSites, opened, kept, Item.role, currentAfter, forwardAfter, patched, placed, fixes]
  | number literal token index =>
    simp [openSites, opened, kept, Item.role, currentAfter, forwardAfter, patched, placed, fixes]
  | word token index =>
    by_cases hlater : s.resolve token index = some .later <;>
      simp [openSites, opened, kept, Item.role, currentAfter, forwardAfter, patched, placed, fixes, hlater,
        ForwardCalls.await]
  | keyword k token index =>
    by_cases hsemicolon : k = .semicolon
    · subst hsemicolon
      obtain ⟨-, hcontrol⟩ := hadmits
      simpa [openSites, opened, kept, Item.role, Keyword.role, currentAfter, forwardAfter, patched, placed, fixes,
        hcontrol] using List.perm_append_comm
    · have hcurrent : s.currentAfter (.keyword k token index) = s.current := by
        cases k <;> first | rfl | exact absurd rfl hsemicolon
      rw [openSites, hcurrent, filterMap_control token index hadmits hsemicolon, List.perm_iff_count]
      intro site
      have hplaced : (s.patched (.keyword k token index)).count site +
          (((s.opened (.keyword k token index)).bind (·.construct.site?)).toList).count site =
            (s.fixes (.keyword k token index)).count site + (s.placed (.keyword k token index)).count site := by
        cases k <;> simp [patched, placed, opened, fixes, Construct.site?]
      simp only [List.count_append, forwardAfter]
      omega

theorem openSites_perm_ready (h : Compiled (s.ready item) item s') :
    (s'.openSites ++ (s.ready item).patched item).Perm (s.openSites ++ (s.ready item).placed item) := by
  have hperm := h.openSites_perm
  rwa [openSites_ready] at hperm

end Compiled

/-! ### Fields are in the code -/

theorem mem_links_placeholder (offset : Nat) (front : List Instruction) (kind : Branch) :
    ⟨kind, offset + codeSize (front ++ [Instruction.branch kind 0]) - 4, 0⟩ ∈
      links offset (front ++ [Instruction.branch kind 0]) := by
  refine mem_links.mpr ⟨front, [], rfl, ?_⟩
  rw [codeSize_append, codeSize_cons, codeSize_nil, size_branch]
  dsimp only
  omega

theorem mem_links_plusLoop (s : Compiler) (token : Token) (index : Nat) :
    ⟨.jumpIf .overflow, s.crossingSite, distance s.crossingSite (s.patchTarget (.keyword .plusLoop token index))⟩ ∈
      links s.offset (s.itemCode (.keyword .plusLoop token index)) := by
  have htarget : s.patchTarget (.keyword .plusLoop token index) =
      s.offset + codeSize s.cache.state.filling + codeSize stepByTop + 6 + codeSize compareLimit + 6 := by
    rw [patchTarget, behind, itemCode, keywordCode, plusLoopEnd_eq, codeSize_append, branching, codeSize_append,
      codeSize_append, codeSize_plusLoopTest, codeSize_cons, codeSize_nil, size_leading, length_opcode_jumpIf]
    omega
  have hsite : s.crossingSite = s.offset + codeSize s.cache.state.filling + codeSize stepByTop + 2 := by
    rw [crossingSite, codeSize_append, ← Nat.add_assoc]
  have hcode : s.itemCode (.keyword .plusLoop token index) = s.cache.state.filling ++ stepByTop ++
      leading (s.offset + codeSize s.cache.state.filling + codeSize stepByTop) (.jumpIf .overflow)
          (s.patchTarget (.keyword .plusLoop token index)) ::
        (compareLimit ++
          [leading (s.offset + codeSize s.cache.state.filling + codeSize stepByTop + 6 + codeSize compareLimit)
            (.jumpIf .notEqual) s.backTarget, dropLoop]) := by
    rw [htarget, itemCode, keywordCode, plusLoopEnd]
    simp only [List.append_assoc, List.cons_append, List.nil_append]
  rw [hcode, hsite, links_append, codeSize_append, ← Nat.add_assoc, links_leading]
  exact List.mem_append_right _ (List.mem_cons_self ..)

/-- The branches that are placed by an item have their fields in its code, and no target unless the item patches
them. -/
theorem mem_links_of_placed {s : Compiler} {item : Item} {site : Nat} (h : site ∈ s.placed item) :
    ∃ kind d, ⟨kind, site, d⟩ ∈ links s.offset (s.itemCode item) ∧ (site ∉ s.patched item → d = 0) := by
  have hlast : ∀ {front : List Instruction} {kind : Branch}, s.itemCode item = front ++ [Instruction.branch kind 0] →
      site ∈ [s.behind item - 4] → ∃ kind d, ⟨kind, site, d⟩ ∈ links s.offset (s.itemCode item) ∧
        (site ∉ s.patched item → d = 0) := by
    intro front kind hcode hsite
    obtain rfl := List.mem_singleton.mp hsite
    rw [behind, hcode]
    exact ⟨kind, 0, mem_links_placeholder s.offset front kind, fun _ => rfl⟩
  cases item with
  | define colon name index =>
    simp only [placed] at h
    split at h
    case isTrue hentry => exact hlast (if_pos hentry) h
    case isFalse => cases h
  | «variable» word name index => cases h
  | number literal token index => cases h
  | word token index =>
    simp only [placed] at h
    split at h
    case isTrue hlater => exact hlast (by rw [itemCode, hlater]; rfl) h
    case isFalse => cases h
  | keyword k token index =>
    cases k with
    | «if» | «else» | «while» => exact hlast rfl h
    | plusLoop =>
      obtain rfl := List.mem_singleton.mp h
      refine ⟨_, _, s.mem_links_plusLoop token index, fun hsite => ?_⟩
      exact absurd (List.mem_singleton_self _) hsite
    | _ => cases h

theorem length_placed_le (s : Compiler) (item : Item) : (s.placed item).length ≤ 1 := by
  unfold placed
  split <;> (try split) <;> simp

theorem mem_patched_of_mem_fixes {s : Compiler} {item : Item} {site : Nat} (h : site ∈ s.fixes item) :
    site ∈ (s.ready item).patched item := by
  rw [← fixes_ready] at h
  unfold patched
  split
  · cases h
  · exact h

theorem mem_links_block {s : Compiler} {item : Item} {site : Nat} (h : site ∈ (s.ready item).placed item) :
    ∃ kind d, ⟨kind, site, d⟩ ∈ links s.offset (s.block item) ∧ (site ∉ (s.ready item).patched item → d = 0) := by
  obtain ⟨kind, d, hlink, hzero⟩ := mem_links_of_placed h
  refine ⟨kind, d, ?_, hzero⟩
  rw [block, links_append, (s.straight_lead item).links_eq, ← offset_ready]
  exact hlink

/-- The fields that wait and those that an item places are branches of the code with the block of the item, and have no
target unless the item patches them. -/
theorem exists_link_of_mem {s : Compiler} {item : Item} {block : List Instruction} (hholds : s.code.Holds block)
    (hlinks : ∀ site ∈ s.openSites, ∃ kind, ⟨kind, site, 0⟩ ∈ links 0 block) {site : Nat}
    (hsite : site ∈ s.openSites ++ (s.ready item).placed item) : ∃ kind d,
      ⟨kind, site, d⟩ ∈ links 0 (block ++ s.block item) ∧ (site ∉ (s.ready item).patched item → d = 0) := by
  have hoffset : s.offset = codeSize block := CodeBuffer.offset_eq_codeSize hholds
  rw [links_append, Nat.zero_add, ← hoffset]
  rcases List.mem_append.mp hsite with hopen | hplaced
  · obtain ⟨kind, hlink⟩ := hlinks site hopen
    exact ⟨kind, 0, List.mem_append_left _ hlink, fun _ => rfl⟩
  · obtain ⟨kind, d, hlink, hzero⟩ := mem_links_block hplaced
    exact ⟨kind, d, List.mem_append_right _ hlink, hzero⟩

theorem exists_of_mem_reveal {d : Dictionary} {number : Nat} {entry : Entry} (h : entry ∈ (d.reveal number).entries) :
    ∃ old ∈ d.entries, old.meaning = entry.meaning := by
  unfold Dictionary.reveal at h
  split at h
  · obtain ⟨i, hi⟩ := List.mem_iff_getElem?.mp h
    rw [List.getElem?_modify] at hi
    obtain ⟨old, hold, rfl⟩ := Option.map_eq_some_iff.mp hi
    refine ⟨old, List.mem_of_getElem? hold, ?_⟩
    split <;> rfl
  · exact ⟨entry, h, rfl⟩

theorem mem_dictionaryAfter {s : Compiler} {item : Item} {entry : Entry}
    (h : entry ∈ (s.dictionaryAfter item).entries) :
    (∃ old ∈ s.dictionary.entries, old.meaning = entry.meaning) ∨
      ∀ offset, entry.meaning = .code offset → offset = s.behind item := by
  unfold dictionaryAfter at h
  split at h
  · rcases List.mem_cons.mp h with rfl | h
    · exact .inr fun offset hmeaning => (Meaning.code.inj hmeaning).symm
    · exact .inl ⟨entry, h, rfl⟩
  · rcases List.mem_cons.mp h with rfl | h
    · exact .inr fun offset hmeaning => by cases hmeaning
    · exact .inl ⟨entry, h, rfl⟩
  · cases hnumber : s.current.map (·.number) with
    | none => exact .inl ⟨entry, by rwa [hnumber] at h, rfl⟩
    | some number => exact .inl (exists_of_mem_reveal (by rwa [hnumber] at h))
  · exact .inl ⟨entry, h, rfl⟩

/-! ### Consistent states -/

/-- The fields that wait are branches of the code without a target, each waiting once; and code is known up to all
places to which an item may branch. -/
structure Consistent (s : Compiler) : Prop where
  fields : ∃ block, s.code.Holds block ∧ ∀ site ∈ s.openSites, ∃ kind, ⟨kind, site, 0⟩ ∈ links 0 block
  nodup : s.openSites.Nodup
  merge : ∀ frame ∈ s.control, frame.state = .spilled
  target_le : ∀ frame ∈ s.control, ∀ target ∈ frame.construct.target?, target ≤ s.offset
  current_le : ∀ definition ∈ s.current, definition.offset ≤ s.offset
  defined_le : ∀ entry ∈ s.dictionary.entries, ∀ offset, entry.meaning = .code offset → offset ≤ s.offset
  printNumber_eq : s.printNumber = 0

namespace Consistent

variable {s s' : Compiler} {item : Item}

/-- A field that waits lies inside the code. -/
theorem site_lt (h : s.Consistent) {site : Nat} (hsite : site ∈ s.openSites) : site + 4 ≤ s.offset := by
  obtain ⟨block, hholds, hlinks⟩ := h.fields
  obtain ⟨kind, hlink⟩ := hlinks site hsite
  have hbound := (site_bounds_of_mem_links hlink).2
  have hoffset : s.offset = codeSize block := CodeBuffer.offset_eq_codeSize hholds
  dsimp only at hbound
  omega

theorem site_lt_placed (h : s.Consistent) {site new : Nat} (hsite : site ∈ s.openSites)
    (hnew : new ∈ (s.ready item).placed item) : site + 4 < new := by
  obtain ⟨kind, d, hlink, -⟩ := mem_links_block hnew
  have hbound := (site_bounds_of_mem_links hlink).1
  have hopen := h.site_lt hsite
  dsimp only at hbound
  omega

theorem nodup_append_placed (h : s.Consistent) (item : Item) : (s.openSites ++ (s.ready item).placed item).Nodup := by
  refine List.nodup_append.mpr ⟨h.nodup, ?_, fun site hsite new hnew heq => ?_⟩
  · have hlength := length_placed_le (s.ready item) item
    cases hplaced : (s.ready item).placed item with
    | nil => exact List.nodup_nil
    | cons site rest =>
      rw [hplaced] at hlength
      have hrest : rest = [] := List.length_eq_zero_iff.mp (by simpa using hlength)
      rw [hrest]
      exact List.pairwise_singleton _ site
  · have := h.site_lt_placed hsite hnew
    omega

theorem fields_step (h : s.Consistent) (hc : Compiled (s.ready item) item s') {block : List Instruction}
    (hholds : s.code.Holds block) (hlinks : ∀ site ∈ s.openSites, ∃ kind, ⟨kind, site, 0⟩ ∈ links 0 block) :
    s'.code.Holds (redirect (sending (s.fixes item) s'.offset) 0 (block ++ s.block item)) ∧
      ∀ site ∈ s'.openSites, ∃ kind,
        ⟨kind, site, 0⟩ ∈ links 0 (redirect (sending (s.fixes item) s'.offset) 0 (block ++ s.block item)) := by
  have hperm := hc.openSites_perm_ready
  have haims := hc.aims.2 _ (hholds.append (s.block item)) fun site hsite => by
    have hpatched := mem_patched_of_mem_fixes hsite
    obtain ⟨kind, d, hlink, -⟩ := exists_link_of_mem hholds hlinks (hperm.mem_iff.mp (List.mem_append_right _ hpatched))
    exact ⟨_, hlink, rfl⟩
  refine ⟨haims, fun site hsite => ?_⟩
  have hnot : site ∉ (s.ready item).patched item := by
    have hnodup := hperm.nodup_iff.mpr (h.nodup_append_placed item)
    exact fun hpatched => (List.nodup_append.mp hnodup).2.2 site hsite site hpatched rfl
  obtain ⟨kind, d, hlink, hzero⟩ := exists_link_of_mem hholds hlinks (hperm.mem_iff.mp (List.mem_append_left _ hsite))
  obtain rfl := hzero hnot
  refine ⟨kind, ?_⟩
  rw [links_redirect]
  refine List.mem_map.mpr ⟨_, hlink, ?_⟩
  have hsending : sending (s.fixes item) s'.offset site = none :=
    if_neg fun hfixes => hnot (mem_patched_of_mem_fixes hfixes)
  rw [Link.redirect, hsending]

/-- The innermost construct has the stack in memory, and branches back to code that is there. -/
theorem innermost_ok (h : s.Consistent) : s.mergeState = .spilled ∧ s.backTarget ≤ s.offset := by
  unfold mergeState backTarget innermost?
  cases hcontrol : s.control with
  | nil => exact ⟨rfl, Nat.zero_le _⟩
  | cons frame rest =>
    have hmem : frame ∈ s.control := by simp [hcontrol]
    refine ⟨h.merge frame hmem, ?_⟩
    have htarget := h.target_le frame hmem
    show (frame.construct.target?).getD 0 ≤ s.offset
    cases hback : frame.construct.target? with
    | none => exact Nat.zero_le _
    | some target => exact htarget target hback

/-- The frame that an item pushes has the stack in memory, and branches back to code that is there. -/
theorem opened_ok (h : s.Consistent) {frame : Frame} (hframe : (s.ready item).opened item = some frame) :
    frame.state = .spilled ∧ ∀ target ∈ frame.construct.target?, target ≤ (s.ready item).behind item := by
  have hready : s.offset ≤ (s.ready item).behind item := by
    rw [behind, offset_ready]
    omega
  have hinner := h.innermost_ok
  unfold opened at hframe
  split at hframe <;> cases hframe
  case h_1 | h_2 => exact ⟨rfl, fun target htarget => by cases htarget⟩
  case h_3 | h_5 => exact ⟨rfl, fun target htarget => by cases htarget; exact Nat.le_refl _⟩
  case h_4 =>
    refine ⟨by rw [mergeState_ready, hinner.1], fun target htarget => ?_⟩
    cases htarget
    rw [backTarget_ready]
    omega

/-- **What one item preserves.** -/
theorem step (h : s.Consistent) (hc : Compiled (s.ready item) item s') : s'.Consistent := by
  have hoffset : s'.offset = (s.ready item).behind item := hc.offset_eq_behind
  have hle : s.offset ≤ s'.offset := by
    rw [hc.offset_eq]
    exact Nat.le_add_right _ _
  have hperm := hc.openSites_perm_ready
  have hframe : ∀ frame ∈ s'.control, frame ∈ s.control ∨ (s.ready item).opened item = some frame := by
    intro frame hmem
    rw [hc.control, controlAfter] at hmem
    rcases List.mem_append.mp hmem with hmem | hmem
    · exact .inr (Option.mem_toList.mp hmem)
    · rw [control_ready] at hmem
      left
      split at hmem
      · exact hmem
      · exact hmem
      · exact List.mem_of_mem_tail hmem
      · exact List.mem_of_mem_tail hmem
  constructor
  · obtain ⟨block, hholds, hlinks⟩ := h.fields
    exact ⟨_, h.fields_step hc hholds hlinks⟩
  · exact (List.nodup_append.mp (hperm.nodup_iff.mpr (h.nodup_append_placed item))).1
  · intro frame hmem
    rcases hframe frame hmem with hold | hnew
    · exact h.merge frame hold
    · exact (h.opened_ok hnew).1
  · intro frame hmem target htarget
    rcases hframe frame hmem with hold | hnew
    · exact Nat.le_trans (h.target_le frame hold target htarget) hle
    · rw [hoffset]
      exact (h.opened_ok hnew).2 target htarget
  · intro definition hdefinition
    rw [hc.current] at hdefinition
    unfold currentAfter at hdefinition
    split at hdefinition
    · cases hdefinition
      exact Nat.le_of_eq hoffset.symm
    · cases hdefinition
    · rw [current_ready] at hdefinition
      exact Nat.le_trans (h.current_le definition hdefinition) hle
  · intro entry hentry offset hmeaning
    rcases mem_dictionaryAfter (hc.dictionary ▸ hentry) with ⟨old, hold, hsame⟩ | hnew
    · rw [dictionary_ready] at hold
      exact Nat.le_trans (h.defined_le old hold offset (hsame ▸ hmeaning)) hle
    · rw [hoffset]
      exact Nat.le_of_eq (hnew offset hmeaning)
  · rw [hc.printNumber, printNumber_ready, h.printNumber_eq]

theorem announce (h : s.Consistent) (headers : List Header) :
    Consistent { s with forward := { s.forward with headers } } :=
  ⟨h.fields, h.nodup, h.merge, h.target_le, h.current_le, h.defined_le, h.printNumber_eq⟩

end Consistent

theorem consistent_initial (options : Options) : (initial options).Consistent where
  fields := ⟨ForthElf.printNumber, holds_initial options, fun _ hsite => absurd hsite List.not_mem_nil⟩
  nodup := List.nodup_nil
  merge _ h := absurd h List.not_mem_nil
  target_le _ h := absurd h List.not_mem_nil
  current_le _ h := absurd h (Option.not_mem_none _)
  defined_le _ h := absurd h List.not_mem_nil
  printNumber_eq := rfl

end Compiler

end ForthElf
