import Mathlib.Data.List.DropRight
import Mathlib.Data.List.Induction
import Mathlib.Data.List.Sort
import Mathlib.Data.List.TakeWhile
import ForthElf.Proofs.Pieces

/-!
# The tokens of a text

What the tokens of a text are is said here of its characters alone, by their index.

* `InComment cs i` — the character at `i` stands in a comment: some run `\` or `(` before it, itself in no comment,
  hides it;
* `BeginsRun cs i` — a run begins at `i`: behind nothing, a blank or the `)` of a comment, and in no comment;
* `ReadTo cs i starts` — the reader has come to `i`, outside of comments, and has met tokens at `starts`;
* `lexes` — reading on from there gives the tokens of the whole text;
* `tokens_exact` — **the tokens of a text are its runs outside of comments**, in order and each at its place.
-/

namespace ForthElf

open Text

/-! ### Runs and comments -/

/-- The run at `j`, if it opens a comment, hides the character at `i`. -/
def Hides (cs : List Char) (j i : Nat) : Prop :=
  run (cs.drop j) = ['\\'] ∧ (∀ k, j < k → k ≤ i → cs[k]? ≠ some '\n') ∨
    run (cs.drop j) = ['('] ∧ ∀ k, j < k → k < i → cs[k]? ≠ some ')'

def InComment (cs : List Char) (i : Nat) : Prop :=
  ∃ j, ∃ _ : j < i, Hides cs j i ∧ ¬InComment cs j ∧
    (j = 0 ∨ (∃ c, cs[j - 1]? = some c ∧ isBlank c) ∨ cs[j - 1]? = some ')' ∧ InComment cs (j - 1))
termination_by i

/-- A run may begin at `i`: at the start of the text, behind a blank or behind the end of a comment. -/
def Breaks (cs : List Char) (i : Nat) : Prop :=
  i = 0 ∨ (∃ c, cs[i - 1]? = some c ∧ isBlank c) ∨ cs[i - 1]? = some ')' ∧ InComment cs (i - 1)

structure BeginsRun (cs : List Char) (i : Nat) : Prop where
  nonempty : run (cs.drop i) ≠ []
  breaks : Breaks cs i
  outside : ¬InComment cs i

/-- The run at `i` is a token. -/
structure BeginsToken (cs : List Char) (i : Nat) : Prop extends BeginsRun cs i where
  not_line : run (cs.drop i) ≠ ['\\']
  not_comment : run (cs.drop i) ≠ ['(']

/-- The run at `i` opens a comment that nothing closes. -/
structure Unclosed (cs : List Char) (i : Nat) : Prop extends BeginsRun cs i where
  opens : run (cs.drop i) = ['(']
  open_ended : ∀ k, i < k → cs[k]? ≠ some ')'

/-- The place of what follows the text `front`: its lines are counted from 1, and so are the characters of a line. -/
def placeBehind (front : List Char) : Position :=
  ⟨front.count '\n' + 1, (front.rtakeWhile (· != '\n')).length + 1⟩

/-- The run at `i`, with its place. -/
def tokenAt (cs : List Char) (i : Nat) : Token :=
  ⟨String.ofList (run (cs.drop i)), placeBehind (cs.take i)⟩

section Runs

variable {cs : List Char} {i j k : Nat}

theorem Hides.nonempty (h : Hides cs j i) : run (cs.drop j) ≠ [] := by
  rcases h with h | h <;> simp [h.1]

theorem inComment_iff : InComment cs i ↔ ∃ j, j < i ∧ BeginsRun cs j ∧ Hides cs j i := by
  rw [InComment]
  constructor
  · rintro ⟨j, hj, hhides, hout, hbreaks⟩
    exact ⟨j, hj, ⟨hhides.nonempty, hbreaks, hout⟩, hhides⟩
  · rintro ⟨j, hj, hbegins, hhides⟩
    exact ⟨j, hj, hhides, hbegins.outside, hbegins.breaks⟩

theorem lt_length_of_run (h : run (cs.drop i) ≠ []) : i < cs.length := by
  by_contra hge
  rw [List.drop_eq_nil_of_le (by omega)] at h
  exact h rfl

/-- Only one comment is not closed: it hides the rest of the text. -/
theorem Unclosed.unique (h : Unclosed cs i) (h' : Unclosed cs j) : i = j := by
  rcases Nat.lt_trichotomy i j with hlt | heq | hlt
  · exact absurd (inComment_iff.mpr ⟨i, hlt, h.toBeginsRun, .inr ⟨h.opens, fun k hk _ => h.open_ended k hk⟩⟩) h'.outside
  · exact heq
  · exact absurd (inComment_iff.mpr
      ⟨j, hlt, h'.toBeginsRun, .inr ⟨h'.opens, fun k hk _ => h'.open_ended k hk⟩⟩) h.outside

theorem ink_of_run (h : run (cs.drop i) ≠ []) : ∃ c, cs[i]? = some c ∧ isInk c := by
  have hlt := lt_length_of_run h
  refine ⟨cs[i], List.getElem?_eq_getElem hlt, ?_⟩
  by_contra hink
  rw [List.drop_eq_getElem_cons hlt, run, List.takeWhile_cons_of_neg hink] at h
  exact h rfl

end Runs

/-! ### Places -/

/-- The place that the reader counts up to is the place behind what it has read. -/
theorem after_start (front : List Char) : Position.start.after front = placeBehind front := by
  induction front using List.reverseRecOn with
  | nil => rfl
  | append_singleton front c ih =>
    rw [Position.after_append, ih, Position.after_cons, Position.after_nil, Position.step]
    by_cases hc : c = '\n'
    · simp [placeBehind, hc]
    · simp [placeBehind, hc]

theorem length_splitOn (cs : List Char) : (cs.splitOn '\n').length = cs.count '\n' + 1 := by
  induction cs with
  | nil => rfl
  | cons c cs ih =>
    rw [List.splitOn_cons_eq_if_modifyHead, List.count_cons]
    by_cases hc : c = '\n'
    · simp [hc, ih]
    · simp [hc, ih]

theorem firstLine (cs : List Char) : (cs.splitOn '\n')[0]? = some (restOfLine cs) := by
  induction cs with
  | nil => rfl
  | cons c cs ih =>
    rw [List.splitOn_cons_eq_if_modifyHead, restOfLine]
    by_cases hc : c = '\n'
    · simp [hc]
    · simp [hc, List.getElem?_modifyHead, ih, restOfLine]

theorem lineBehind (front back : List Char) :
    ((front ++ back).splitOn '\n')[front.count '\n']? =
      some (front.rtakeWhile (· != '\n') ++ restOfLine back) := by
  induction front using List.reverseRecOn generalizing back with
  | nil => exact firstLine back
  | append_singleton front c ih =>
    rw [List.append_assoc, List.singleton_append, List.count_append]
    by_cases hc : c = '\n'
    · subst hc
      rw [List.splitOn_append_cons_self, List.getElem?_append_right (by simp [length_splitOn])]
      rw [length_splitOn, List.count_singleton_self, Nat.sub_self, firstLine,
        List.rtakeWhile_concat_neg _ _ _ (by simp), List.nil_append]
    · simp [hc, ih, restOfLine]

theorem run_afterRun (cs : List Char) : run (afterRun cs) = [] := by
  induction cs with
  | nil => rfl
  | cons c cs ih =>
    by_cases hc : isInk c
    · rw [afterRun, List.dropWhile_cons_of_pos hc]
      exact ih
    · rw [afterRun, List.dropWhile_cons_of_neg hc, run, List.takeWhile_cons_of_neg hc]

/-- A line feed ends a run at the latest. -/
theorem run_restOfLine (cs : List Char) : run (restOfLine cs) = run cs := by
  rw [run, run, restOfLine, List.takeWhile_takeWhile]
  congr 1
  funext c
  by_cases hc : c = '\n'
  · subst hc
    decide
  · simp [hc]

theorem run_in_line (cs : List Char) (i : Nat) :
    ∃ line, (cs.splitOn '\n')[(placeBehind (cs.take i)).line - 1]? = some line ∧
      run (line.drop ((placeBehind (cs.take i)).column - 1)) = run (cs.drop i) := by
  have hline := lineBehind (cs.take i) (cs.drop i)
  rw [List.take_append_drop] at hline
  refine ⟨_, hline, ?_⟩
  rw [placeBehind, Nat.add_sub_cancel, List.drop_left, run_restOfLine]

/-! ### Reading on -/

section Reading

variable {cs t rest : List Char} {i i' k : Nat} {starts : List Nat}

theorem drop_behind (h : cs.drop i = t ++ rest) : cs.drop (i + t.length) = rest := by
  rw [← List.drop_drop, h, List.drop_left]

theorem place_behind (h : cs.drop i = t ++ rest) :
    (placeBehind (cs.take i)).after t = placeBehind (cs.take (i + t.length)) := by
  rw [← after_start, ← after_start, ← Position.after_append, List.take_add, h, List.take_left]

theorem getElem?_inside (h : cs.drop i = t ++ rest) (hi : i ≤ k) (hk : k < i + t.length) :
    ∃ c ∈ t, cs[k]? = some c := by
  have hlt : k - i < t.length := by omega
  refine ⟨t[k - i], List.getElem_mem hlt, ?_⟩
  have hget : cs[i + (k - i)]? = (t ++ rest)[k - i]? := by rw [← h, List.getElem?_drop]
  rwa [Nat.add_sub_of_le hi, List.getElem?_append_left hlt, List.getElem?_eq_getElem hlt] at hget

theorem getElem?_behind (h : cs.drop i = t ++ rest) : cs[i + t.length]? = rest[0]? := by
  rw [← drop_behind h, List.getElem?_drop, Nat.add_zero]

/-- What is known of the text when the reader stands at `i`. -/
structure ReadTo (cs : List Char) (i : Nat) (starts : List Nat) : Prop where
  passed : ∀ j, j < i → BeginsRun cs j → ∀ k, i ≤ k → k < cs.length → ¬Hides cs j k
  breaks : run (cs.drop i) ≠ [] → Breaks cs i
  sorted : starts.Pairwise (· < ·)
  mem_iff : ∀ j, j ∈ starts ↔ j < i ∧ BeginsToken cs j
  closed : ∀ j, j < i → ¬Unclosed cs j

namespace ReadTo

theorem start (cs : List Char) : ReadTo cs 0 [] where
  passed := by
    intro j hj
    omega
  breaks := fun _ => .inl rfl
  sorted := .nil
  mem_iff := by simp
  closed := by
    intro j hj
    omega

theorem beginsRun (h : ReadTo cs i starts) (hrun : run (cs.drop i) ≠ []) : BeginsRun cs i := by
  refine ⟨hrun, h.breaks hrun, ?_⟩
  rw [inComment_iff]
  rintro ⟨j, hj, hbegins, hhides⟩
  exact h.passed j hj hbegins i le_rfl (lt_length_of_run hrun) hhides

/-- **The reader goes on** to `i'` if only `i` may begin a run before it, and hides nothing from there on. -/
theorem advance (h : ReadTo cs i starts) (hlt : i < i') (hnone : ∀ j, i < j → j < i' → ¬BeginsRun cs j)
    (hpassed : ∀ k, i' ≤ k → k < cs.length → ¬Hides cs i k) (hbreaks : run (cs.drop i') ≠ [] → Breaks cs i')
    (hclosed : ¬Unclosed cs i) {added : List Nat} (hadded : ∀ j, j ∈ added ↔ j = i ∧ BeginsToken cs j)
    (hsorted : added.Pairwise (· < ·)) : ReadTo cs i' (starts ++ added) where
  passed := by
    intro j hj hbegins k hk hlength
    rcases Nat.lt_trichotomy j i with hbefore | rfl | hbehind
    · exact h.passed j hbefore hbegins k (by omega) hlength
    · exact hpassed k hk hlength
    · exact absurd hbegins (hnone j hbehind hj)
  breaks := hbreaks
  sorted := by
    refine List.pairwise_append.mpr ⟨h.sorted, hsorted, ?_⟩
    intro a ha b hb
    rw [((hadded b).mp hb).1]
    exact ((h.mem_iff a).mp ha).1
  mem_iff := by
    intro j
    rw [List.mem_append, h.mem_iff, hadded]
    constructor
    · rintro (⟨hj, htoken⟩ | ⟨rfl, htoken⟩)
      · exact ⟨by omega, htoken⟩
      · exact ⟨hlt, htoken⟩
    · rintro ⟨hj, htoken⟩
      rcases Nat.lt_trichotomy j i with hbefore | rfl | hbehind
      · exact .inl ⟨hbefore, htoken⟩
      · exact .inr ⟨rfl, htoken⟩
      · exact absurd htoken.toBeginsRun (hnone j hbehind hj)
  closed := by
    intro j hj hopen
    rcases Nat.lt_trichotomy j i with hbefore | rfl | hbehind
    · exact h.closed j hbefore hopen
    · exact hclosed hopen
    · exact hnone j hbehind hj hopen.toBeginsRun

theorem skip (h : ReadTo cs i starts) (hlt : i < i') (hnone : ∀ j, i < j → j < i' → ¬BeginsRun cs j)
    (hpassed : ∀ k, i' ≤ k → k < cs.length → ¬Hides cs i k) (hbreaks : run (cs.drop i') ≠ [] → Breaks cs i')
    (hclosed : ¬Unclosed cs i) (hno : ¬BeginsToken cs i) : ReadTo cs i' starts := by
  rw [← List.append_nil starts]
  refine h.advance hlt hnone hpassed hbreaks hclosed ?_ .nil
  intro j
  constructor
  · intro hj
    cases hj
  · rintro ⟨rfl, htoken⟩
    exact absurd htoken hno

theorem blank (h : ReadTo cs i starts) {c : Char} (htext : cs.drop i = c :: rest) (hc : isBlank c) :
    ReadTo cs (i + 1) starts := by
  have hrun : run (cs.drop i) = [] := by
    rw [htext, run, List.takeWhile_cons_of_neg (by simp [isInk, hc])]
  refine h.skip (Nat.lt_succ_self i) ?_ ?_ ?_ ?_ ?_
  · intro j hj hlt
    omega
  · intro k _ _ hhides
    exact hhides.nonempty hrun
  · intro _
    obtain ⟨d, hd, hget⟩ := getElem?_inside (t := [c]) htext le_rfl (Nat.lt_succ_self i)
    rw [List.mem_singleton.mp hd] at hget
    exact .inr (.inl ⟨c, hget, hc⟩)
  · exact fun hopen => hopen.nonempty hrun
  · exact fun htoken => htoken.nonempty hrun

theorem not_beginsRun_of_hides (h : BeginsRun cs i) (hlt : i < k) (hhides : Hides cs i k) : ¬BeginsRun cs k :=
  fun hbegins => hbegins.outside (inComment_iff.mpr ⟨i, hlt, h, hhides⟩)

theorem line (h : ReadTo cs i starts) {hidden : List Char} (hrun : run (cs.drop i) = ['\\'])
    (htext : cs.drop i = '\\' :: hidden ++ rest) (hhidden : '\n' ∉ hidden) (hrest : ∀ c, rest[0]? = some c → c = '\n') :
    ReadTo cs (i + ('\\' :: hidden).length) starts := by
  rw [List.length_cons]
  have hbegins := h.beginsRun (by simp [hrun])
  have hbehind : cs.drop (i + 1) = hidden ++ rest := drop_behind (t := ['\\']) htext
  have hend : ∀ k, i + (hidden.length + 1) ≤ k → k < cs.length → cs[i + (hidden.length + 1)]? = some '\n' := by
    intro k hk hlength
    have hget := getElem?_behind htext
    rw [List.length_cons, List.getElem?_eq_getElem (by omega)] at hget
    rw [List.getElem?_eq_getElem (by omega), hrest _ hget.symm]
  refine h.skip (by omega) ?_ ?_ ?_ ?_ ?_
  · intro j hj hlt
    refine not_beginsRun_of_hides hbegins hj (.inl ⟨hrun, ?_⟩)
    intro k hik hkj hfeed
    obtain ⟨c, hc, hget⟩ := getElem?_inside hbehind hik (k := k) (by omega)
    rw [hget] at hfeed
    exact hhidden (Option.some.inj hfeed ▸ hc)
  · rintro k hk hlength (⟨_, hall⟩ | ⟨hparen, _⟩)
    · exact hall _ (by omega) hk (hend k hk hlength)
    · simp [hrun] at hparen
  · intro hink
    obtain ⟨c, hget, hc⟩ := ink_of_run hink
    rw [hend _ le_rfl (lt_length_of_run hink)] at hget
    exact absurd (Option.some.inj hget ▸ hc) (by decide)
  · exact fun hopen => by simpa [hrun] using hopen.opens
  · exact fun htoken => htoken.not_line hrun

theorem comment (h : ReadTo cs i starts) {hidden : List Char} (hrun : run (cs.drop i) = ['('])
    (htext : cs.drop i = '(' :: hidden ++ [')'] ++ rest) (hhidden : ')' ∉ hidden) :
    ReadTo cs (i + ('(' :: hidden ++ [')']).length) starts := by
  rw [List.length_append, List.length_cons, List.length_singleton]
  rw [List.append_assoc, List.singleton_append] at htext
  have hbegins := h.beginsRun (by simp [hrun])
  have hbehind : cs.drop (i + 1) = hidden ++ ')' :: rest := drop_behind (t := ['(']) htext
  have hclose : cs[i + (hidden.length + 1)]? = some ')' := getElem?_behind htext
  have hhides : ∀ j, j < i + (hidden.length + 1 + 1) → Hides cs i j := by
    intro j hj
    refine .inr ⟨hrun, ?_⟩
    intro k hik hkj hparen
    obtain ⟨c, hc, hget⟩ := getElem?_inside hbehind hik (k := k) (by omega)
    rw [hget] at hparen
    exact hhidden (Option.some.inj hparen ▸ hc)
  refine h.skip (by omega) ?_ ?_ ?_ ?_ ?_
  · exact fun j hj hlt => not_beginsRun_of_hides hbegins hj (hhides j hlt)
  · rintro k hk hlength (⟨hline, _⟩ | ⟨_, hall⟩)
    · simp [hrun] at hline
    · exact hall _ (by omega) (by omega) hclose
  · intro _
    exact .inr (.inr ⟨hclose, inComment_iff.mpr ⟨i, by omega, hbegins, hhides _ (by omega)⟩⟩)
  · exact fun hopen => hopen.open_ended _ (by omega) hclose
  · exact fun htoken => htoken.not_comment hrun

theorem token (h : ReadTo cs i starts) (hrun : run (cs.drop i) ≠ []) (hline : run (cs.drop i) ≠ ['\\'])
    (hcomment : run (cs.drop i) ≠ ['(']) : ReadTo cs (i + (run (cs.drop i)).length) (starts ++ [i]) := by
  have hbegins := h.beginsRun hrun
  have htoken : BeginsToken cs i := ⟨hbegins, hline, hcomment⟩
  have hsplit : cs.drop i = run (cs.drop i) ++ afterRun (cs.drop i) := (run_append_afterRun _).symm
  have hno : ∀ k, ¬Hides cs i k := by
    rintro k (⟨hopens, _⟩ | ⟨hopens, _⟩)
    · exact hline hopens
    · exact hcomment hopens
  have hlength : 0 < (run (cs.drop i)).length := List.length_pos_iff.mpr hrun
  have hnone : ∀ j, i < j → j < i + (run (cs.drop i)).length → ¬BeginsRun cs j := by
    intro j
    -- what stands before `j` in the run is ink, and in no comment as nothing begins in between
    induction j using Nat.strong_induction_on with
    | _ j ih =>
      intro hij hj hbegins'
      obtain ⟨c, hc, hget⟩ := getElem?_inside hsplit (k := j - 1) (by omega) (by omega)
      have hink : isInk c := List.mem_takeWhile_imp hc
      rcases hbegins'.breaks with hzero | ⟨d, hd, hblank⟩ | ⟨_, hin⟩
      · omega
      · rw [hget] at hd
        obtain rfl := Option.some.inj hd
        simp [isInk, hblank] at hink
      · obtain ⟨l, hl, hbeginsl, hhides⟩ := inComment_iff.mp hin
        rcases Nat.lt_trichotomy l i with hbefore | rfl | hbehind
        · have hlt := (List.getElem?_eq_some_iff.mp hget).1
          exact h.passed l hbefore hbeginsl (j - 1) (by omega) hlt hhides
        · exact hno _ hhides
        · exact ih l (by omega) hbehind (by omega) hbeginsl
  refine h.advance (by omega) hnone (fun k _ _ => hno k) ?_ ?_ ?_ (List.pairwise_singleton _ _)
  · intro hink
    rw [drop_behind hsplit, run_afterRun] at hink
    exact absurd rfl hink
  · exact fun hopen => hcomment hopen.opens
  · intro j
    rw [List.mem_singleton]
    constructor
    · rintro rfl
      exact ⟨rfl, htoken⟩
    · exact fun hj => hj.1

end ReadTo

theorem not_mem_takeWhile {d : Char} : d ∉ cs.takeWhile (· != d) := by
  intro hmem
  simpa using List.mem_takeWhile_imp hmem

theorem head_dropWhile {p : Char → Bool} {d : Char} (h : (cs.dropWhile p)[0]? = some d) : p d = false := by
  have hhead := List.head?_dropWhile_not p cs
  rwa [List.head?_eq_getElem?, h] at hhead

/-- The run at the reader, which stands on ink, and what follows it. -/
theorem run_split {c : Char} (hc : ¬isBlank c) (htext : cs.drop i = c :: rest) :
    run (cs.drop i) = c :: run rest ∧ cs.drop i = (c :: run rest) ++ afterRun rest := by
  have hink : isInk c := by simp [isInk, hc]
  rw [htext, List.cons_append, run_append_afterRun, run, List.takeWhile_cons_of_pos hink]
  exact ⟨rfl, rfl⟩

/-- What the reader gives for a text. -/
def Lexed (cs : List Char) : Except Error (List Token) → Prop
  | .ok tokens =>
    (∀ i, ¬Unclosed cs i) ∧ ∃ starts : List Nat, starts.Pairwise (· < ·) ∧ (∀ i, i ∈ starts ↔ BeginsToken cs i) ∧
      tokens = starts.map (tokenAt cs)
  | .error e => ∃ i, Unclosed cs i ∧ e = .unterminatedComment (placeBehind (cs.take i))

/-- **Reading on** from `i` gives the tokens of the whole text. -/
theorem lexes {text : List Char} {done : List Token} {pos : Position} :
    ∀ i starts, ReadTo cs i starts → cs.drop i = text → pos = placeBehind (cs.take i) →
      done.reverse = starts.map (tokenAt cs) → Lexed cs (tokenizeOnto done pos text) := by
  fun_induction tokenizeOnto done pos text with
  | case1 done pos =>
    intro i starts hread htext hpos hdone
    have hlength : cs.length ≤ i := List.drop_eq_nil_iff.mp htext
    have hbefore : ∀ {j}, BeginsRun cs j → j < i := fun h => (lt_length_of_run h.nonempty).trans_le hlength
    refine ⟨fun j hopen => hread.closed j (hbefore hopen.toBeginsRun) hopen, starts, hread.sorted, ?_, hdone⟩
    intro j
    rw [hread.mem_iff]
    exact ⟨fun h => h.2, fun h => ⟨hbefore h.toBeginsRun, h⟩⟩
  | case2 done pos c rest hc ih =>
    intro i starts hread htext hpos hdone
    refine ih _ _ (hread.blank htext hc) (drop_behind (t := [c]) htext) ?_ hdone
    rw [hpos]
    exact place_behind (t := [c]) htext
  | case3 done pos c rest hc word behind hline ih =>
    intro i starts hread htext hpos hdone
    obtain ⟨hrun, hsplit⟩ := run_split hc htext
    have htext' : cs.drop i = '\\' :: restOfLine behind ++ afterLine behind := by
      rw [List.cons_append, restOfLine, afterLine, List.takeWhile_append_dropWhile, hsplit]
      exact congrArg (· ++ behind) hline
    refine ih _ _ (hread.line (hrun.trans hline) htext' not_mem_takeWhile ?_) (drop_behind htext') ?_ hdone
    · intro d hd
      simpa using head_dropWhile hd
    · rw [hpos, hline, ← Position.after_append]
      exact place_behind htext'
  | case4 done pos c rest hc word behind hline hcomment hclose =>
    intro i starts hread htext hpos hdone
    obtain ⟨hrun, hsplit⟩ := run_split hc htext
    have hopens : run (cs.drop i) = ['('] := hrun.trans hcomment
    refine ⟨i, ⟨hread.beginsRun (by simp [hopens]), hopens, ?_⟩, by rw [hpos]⟩
    intro k hk hparen
    have hdrop : cs.drop (i + 1) = behind := drop_behind (t := ['(']) (hsplit.trans (congrArg (· ++ behind) hcomment))
    have hget : behind[k - (i + 1)]? = some ')' := by
      rw [← hdrop, List.getElem?_drop, Nat.add_sub_of_le hk, hparen]
    simpa using List.dropWhile_eq_nil_iff.mp hclose ')' (List.mem_of_getElem? hget)
  | case5 done pos c rest hc word behind hline hcomment close tail hclose ih =>
    intro i starts hread htext hpos hdone
    obtain ⟨hrun, hsplit⟩ := run_split hc htext
    have hsplit' : cs.drop i = ['('] ++ behind := hsplit.trans (congrArg (· ++ behind) hcomment)
    obtain rfl : close = ')' := by simpa using head_dropWhile (congrArg (·[0]?) hclose)
    have htext' : cs.drop i = '(' :: commentText behind ++ [')'] ++ tail := by
      rw [List.append_assoc, List.singleton_append, ← hclose, hsplit']
      exact congrArg ('(' :: ·) List.takeWhile_append_dropWhile.symm
    refine ih _ _ (hread.comment (hrun.trans hcomment) htext' not_mem_takeWhile) (drop_behind htext') ?_ hdone
    rw [← place_behind htext', hpos, hcomment, Position.after_append]
    rfl
  | case6 done pos c rest hc word behind hline hcomment ih =>
    intro i starts hread htext hpos hdone
    obtain ⟨hrun, hsplit⟩ := run_split hc htext
    have hread' := hread.token (by simp [hrun]) (hrun ▸ hline) (hrun ▸ hcomment)
    rw [hrun] at hread'
    refine ih _ _ hread' (drop_behind hsplit) ?_ ?_
    · rw [hpos]
      exact place_behind hsplit
    · rw [List.reverse_cons, hdone, List.map_append, List.map_singleton, tokenAt, hrun, hpos]

end Reading

theorem lexed_tokenize (source : String) : Lexed source.toList (tokenize source) :=
  lexes 0 [] (ReadTo.start _) rfl rfl rfl

/-- **The tokens of a text are its runs outside of comments**, in order and each with its place; there are none
exactly if some comment is not closed. -/
theorem tokens_exact (source : String) :
    (∀ tokens, tokenize source = .ok tokens ↔
      (∀ i, ¬Unclosed source.toList i) ∧
        ∃ starts : List Nat, starts.Pairwise (· < ·) ∧ (∀ i, i ∈ starts ↔ BeginsToken source.toList i) ∧
          tokens = starts.map (tokenAt source.toList)) ∧
      (∀ e, tokenize source = .error e ↔
        ∃ i, Unclosed source.toList i ∧ e = .unterminatedComment (placeBehind (source.toList.take i))) ∧
      ∀ tokens, tokenize source = .ok tokens → ∀ t ∈ tokens, ∃ line,
        (source.toList.splitOn '\n')[t.pos.line - 1]? = some line ∧
          t.text = String.ofList (run (line.drop (t.pos.column - 1))) := by
  have hlexed := lexed_tokenize source
  refine ⟨?_, ?_, ?_⟩
  · intro tokens
    constructor
    · intro htokens
      rwa [htokens] at hlexed
    · rintro ⟨hclosed, starts, hsorted, hmem, rfl⟩
      cases hresult : tokenize source with
      | ok tokens =>
        rw [hresult] at hlexed
        obtain ⟨_, starts', hsorted', hmem', rfl⟩ := hlexed
        have heq : starts' = starts :=
          hsorted'.sortedLT.eq_of_mem_iff hsorted.sortedLT (fun i => (hmem' i).trans (hmem i).symm)
        rw [heq]
      | error e =>
        rw [hresult] at hlexed
        obtain ⟨i, hopen, _⟩ := hlexed
        exact absurd hopen (hclosed i)
  · intro e
    constructor
    · intro herror
      rwa [herror] at hlexed
    · rintro ⟨i, hopen, rfl⟩
      cases hresult : tokenize source with
      | ok tokens =>
        rw [hresult] at hlexed
        exact absurd hopen (hlexed.1 i)
      | error e =>
        rw [hresult] at hlexed
        obtain ⟨i', hopen', rfl⟩ := hlexed
        rw [hopen.unique hopen']
  · intro tokens htokens t ht
    rw [htokens] at hlexed
    obtain ⟨_, starts, _, _, rfl⟩ := hlexed
    obtain ⟨i, _, rfl⟩ := List.mem_map.mp ht
    obtain ⟨line, hline, hrun⟩ := run_in_line source.toList i
    exact ⟨line, hline, congrArg String.ofList hrun.symm⟩

end ForthElf
