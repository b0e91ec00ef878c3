import ForthElf.Proofs.Matching

/-!
# The spelling of a program

Comments, spacing and the case of letters make no difference to what is compiled: only the words count, in their order.

* `class_congr` — **words that agree up to the case of letters are of one class**, numbers included;
* `Matching.aligned as bs` — the tokens of two lists go together if they have the same index;
* `Matching.items_aligned` — lists that go together have items that go together;
* `spelling_irrelevant` — **two texts of the same words are compiled to the same program**, or fail at the same token.
-/

namespace ForthElf

open Compiler Text

/-! ### Letter case -/

theorem toNat_toLower (c : Char) :
    c.toLower.toNat = if 65 ≤ c.toNat ∧ c.toNat ≤ 90 then c.toNat + 32 else c.toNat := by
  have hupper : (c.val ≥ 'A'.val ∧ c.val ≤ 'Z'.val) ↔ (65 ≤ c.toNat ∧ c.toNat ≤ 90) := Iff.rfl
  unfold Char.toLower
  split
  · next h =>
    have hle : c.toNat ≤ 90 := (hupper.mp h).2
    rw [if_pos (hupper.mp h)]
    show (c.val + ('a'.val - 'A'.val)).toNat = c.toNat + 32
    rw [UInt32.toNat_add]
    exact Nat.mod_eq_of_lt (by show c.toNat + 32 < 4294967296; omega)
  · next h => rw [if_neg (hupper.not.mp h)]

theorem toLower_eq_iff {c d : Char} (h : d.toNat < 65) : c.toLower = d ↔ c = d := by
  rw [← Char.toNat_inj, ← Char.toNat_inj, toNat_toLower]
  split <;> omega

theorem toLower_eq_x_iff {c : Char} : c.toLower = 'x' ∨ c.toLower = 'X' ↔ c = 'x' ∨ c = 'X' := by
  have hx : 'x'.toNat = 120 ∧ 'X'.toNat = 88 := ⟨rfl, rfl⟩
  simp only [← Char.toNat_inj, toNat_toLower]
  split <;> omega

theorem hexValue?_toLower (c : Char) : hexValue? c.toLower = hexValue? c := by
  have hle : ∀ a b : Char, a ≤ b ↔ a.toNat ≤ b.toNat := fun _ _ => Iff.rfl
  have hdigits : '0'.toNat = 48 ∧ '9'.toNat = 57 := ⟨rfl, rfl⟩
  have hlower : 'a'.toNat = 97 ∧ 'f'.toNat = 102 := ⟨rfl, rfl⟩
  have hupper : 'A'.toNat = 65 ∧ 'F'.toNat = 70 := ⟨rfl, rfl⟩
  simp only [hexValue?, hle, toNat_toLower, hdigits, hlower, hupper]
  grind

theorem readMore?_map_toLower (radix value : Nat) (cs : List Char) :
    readMore? radix value (cs.map Char.toLower) = readMore? radix value cs := by
  induction cs generalizing value with
  | nil => rfl
  | cons c cs ih =>
    simp only [List.map_cons, readMore?, digitValue?, hexValue?_toLower]
    split
    · exact ih _
    · rfl

theorem readDigits?_map_toLower (radix : Nat) (cs : List Char) :
    readDigits? radix (cs.map Char.toLower) = readDigits? radix cs := by
  rw [readDigits?, readDigits?, readMore?_map_toLower, List.isEmpty_map]

/-- The mark of a hexadecimal number may have either case. -/
theorem readMagnitude?_cons_cons (c d : Char) (cs : List Char) :
    Literal.readMagnitude? (c :: d :: cs) =
      if c = '0' ∧ (d = 'x' ∨ d = 'X') then readDigits? 16 cs else readDigits? 10 (c :: d :: cs) := by
  unfold Literal.readMagnitude?
  split
  · next heq => simp_all
  · next heq => simp_all
  · next h h' =>
    rw [if_neg]
    rintro ⟨rfl, rfl | rfl⟩
    · exact h cs rfl
    · exact h' cs rfl

theorem readMagnitude?_map_toLower (cs : List Char) :
    Literal.readMagnitude? (cs.map Char.toLower) = Literal.readMagnitude? cs := by
  rcases cs with _ | ⟨c, _ | ⟨d, cs⟩⟩
  · rfl
  · have hshort : ∀ c : Char, Literal.readMagnitude? [c] = readDigits? 10 [c] := fun c => by
      unfold Literal.readMagnitude?
      split <;> simp_all
    rw [List.map_singleton, hshort, hshort]
    exact readDigits?_map_toLower 10 [c]
  · have hdigits := readDigits?_map_toLower 10 (c :: d :: cs)
    rw [List.map_cons, List.map_cons] at hdigits ⊢
    have hzero : c.toLower = '0' ↔ c = '0' := toLower_eq_iff (by decide)
    simp only [readMagnitude?_cons_cons, hdigits, readDigits?_map_toLower, hzero, toLower_eq_x_iff]

theorem readInteger?_cons (c : Char) (cs : List Char) :
    Literal.readInteger? (c :: cs) =
      if c = '-' then (Literal.readMagnitude? cs).map fun magnitude => -(magnitude : Int)
      else (Literal.readMagnitude? (c :: cs)).map fun magnitude => (magnitude : Int) := by
  unfold Literal.readInteger?
  split
  · next heq => simp_all
  · next h =>
    rw [if_neg]
    rintro rfl
    exact h cs rfl

theorem readInteger?_map_toLower (cs : List Char) :
    Literal.readInteger? (cs.map Char.toLower) = Literal.readInteger? cs := by
  rcases cs with _ | ⟨c, cs⟩
  · rfl
  · have hmagnitude := readMagnitude?_map_toLower (c :: cs)
    rw [List.map_cons] at hmagnitude ⊢
    have hminus : c.toLower = '-' ↔ c = '-' := toLower_eq_iff (by decide)
    simp only [readInteger?_cons, hmagnitude, readMagnitude?_map_toLower, hminus]

theorem sameWord_iff_map {x y : String} : sameWord x y ↔ x.toList.map Char.toLower = y.toList.map Char.toLower := by
  rw [sameWord_iff, ← String.toList_map, ← String.toList_map, String.toList_inj]
  rfl

/-- **Words that agree up to the case of letters are of one class.** -/
theorem class_congr {a b : Token} (h : sameWord a.text b.text) : a.class = b.class := by
  have hkeyword : Keyword.lookup? a.text = Keyword.lookup? b.text :=
    congrArg (List.find? · Keyword.all) (funext fun _ => Matching.sameWord_congr (sameWord_refl _) h)
  have hnumber : Literal.parse? a.text = Literal.parse? b.text := by
    rw [Literal.parse?, Literal.parse?, ← readInteger?_map_toLower, sameWord_iff_map.mp h, readInteger?_map_toLower]
  unfold Token.class TokenClass.ofText
  rw [hkeyword, hnumber]

namespace Matching

/-! ### Lists of items -/

/-- **Lists of tokens that stand for each other have items that go together.** -/
theorem items_aligned {M : Matching} {as bs : List Token} (hlists : List.Forall₂ M.token as bs) (x y : Nat) :
    List.Forall₂ (fun item item' => M.Items item item' ∧ item.index + y = item'.index + x)
      (itemsFrom x as) (itemsFrom y bs) := by
  have hclass : ∀ {a b : Token}, M.token a b → a.class = b.class := fun hab => class_congr (M.alike hab)
  have hofToken : ∀ {a b : Token} (x y : Nat), M.token a b →
      M.Items (.ofToken a x) (.ofToken b y) ∧ (Item.ofToken a x).index + y = (Item.ofToken b y).index + x := by
    intro a b x y hab
    rw [Item.index_ofToken, Item.index_ofToken, Nat.add_comm]
    refine ⟨?_, rfl⟩
    unfold Item.ofToken
    rw [hclass hab]
    cases b.class with
    | keyword k => exact .keyword hab
    | number literal => exact .number hab
    | word => exact .word hab
  have hshift : ∀ {x y k : Nat} {list list' : List Item},
      List.Forall₂ (fun item item' => M.Items item item' ∧ item.index + (y + k) = item'.index + (x + k)) list list' →
      List.Forall₂ (fun item item' => M.Items item item' ∧ item.index + y = item'.index + x) list list' := fun h =>
    h.imp fun _ _ h => ⟨h.1, by omega⟩
  fun_induction itemsFrom x as generalizing y bs with
  | case1 x =>
    cases hlists
    exact .nil
  | case2 x a =>
    obtain ⟨b, _, hab, hnil, rfl⟩ := List.forall₂_cons_left_iff.mp hlists
    cases hnil
    rw [itemsFrom]
    exact .cons (hofToken x y hab) .nil
  | case3 x a name rest hcolon ih =>
    rcases hlists with _ | ⟨hab, _ | ⟨hname, hrest⟩⟩
    rw [itemsFrom, if_pos (hclass hab ▸ hcolon)]
    exact .cons ⟨.define hab hname, Nat.add_comm x y⟩ (hshift (ih hrest (y + 2)))
  | case4 x a name rest hcolon hvariable ih =>
    rcases hlists with _ | ⟨hab, _ | ⟨hname, hrest⟩⟩
    rw [itemsFrom, if_neg (hclass hab ▸ hcolon), if_pos (hclass hab ▸ hvariable)]
    exact .cons ⟨.«variable» hab hname, Nat.add_comm x y⟩ (hshift (ih hrest (y + 2)))
  | case5 x a name rest hcolon hvariable ih =>
    obtain ⟨b, bs, hab, hrest, rfl⟩ := List.forall₂_cons_left_iff.mp hlists
    have hcons : itemsFrom y (b :: bs) = .ofToken b y :: itemsFrom (y + 1) bs :=
      itemsFrom_cons (hclass hab ▸ hcolon) (hclass hab ▸ hvariable) bs
    rw [hcons]
    exact .cons (hofToken x y hab) (hshift (ih hrest (y + 1)))

/-! ### Tokens with the same index -/

end Matching

/-- Places of tokens with the same index. -/
def SamePlace (as bs : List Token) (p q : Position) : Prop :=
  ∃ (i : Nat) (a b : Token), as[i]? = some a ∧ bs[i]? = some b ∧ p = a.pos ∧ q = b.pos

/-- Warnings for tokens with the same index. -/
def SameWarning (as bs : List Token) (v w : Warning) : Prop :=
  ∃ (i : Nat) (a b : Token), as[i]? = some a ∧ bs[i]? = some b ∧ v = ⟨a.pos, a.text⟩ ∧ w = ⟨b.pos, b.text⟩

/-- Headers of the same names at the same indices. -/
def SameHeaders : List Header → List Header → Prop :=
  List.Forall₂ fun h k => sameWord h.name k.name ∧ h.index = k.index

/-- What does not show in the code is the same, up to tokens with the same index; headers go together by `R`. -/
structure Margin.Aligned (as bs : List Token) (R : List Header → List Header → Prop) (x y : Margin) : Prop where
  bestEffort : x.bestEffort = y.bestEffort
  headers : R x.headers y.headers
  warnings : List.Forall₂ (SameWarning as bs) x.warnings y.warnings
  tokens : x.tokens = y.tokens
  unresolved : x.unresolved = y.unresolved

namespace Matching

section Aligned

variable {as bs : List Token}

theorem forall₂_getElem? {r : Token → Token → Prop} (h : List.Forall₂ r as bs) {i : Nat} {a b : Token}
    (ha : as[i]? = some a) (hb : bs[i]? = some b) : r a b := by
  obtain ⟨hi, rfl⟩ := List.getElem?_eq_some_iff.mp ha
  obtain ⟨hi', rfl⟩ := List.getElem?_eq_some_iff.mp hb
  exact h.get hi hi'

/-- Tokens go together if they have the same index. -/
def aligned (h : List.Forall₂ (fun a b => sameWord a.text b.text) as bs) (R : List Header → List Header → Prop) :
    Matching where
  token a b := ∃ i : Nat, as[i]? = some a ∧ bs[i]? = some b
  margin := Margin.Aligned as bs R
  alike := fun ⟨_, ha, hb⟩ => forall₂_getElem? h ha hb
  meet hxy := { hxy with tokens := congrArg (· + 1) hxy.tokens }

variable (h : List.Forall₂ (fun a b => sameWord a.text b.text) as bs) (R : List Header → List Header → Prop)

theorem tokens_aligned : List.Forall₂ (aligned h R).token as bs := by
  refine List.forall₂_iff_get.mpr ⟨h.length_eq, fun i hi hi' => ⟨i, ?_, ?_⟩⟩
  · exact List.getElem?_eq_getElem hi
  · exact List.getElem?_eq_getElem hi'

variable {h R}

theorem samePlace_of_pos {p q : Position} (hpos : (aligned h R).Pos p q) : SamePlace as bs p q := by
  obtain ⟨a, b, ⟨i, ha, hb⟩, rfl, rfl⟩ := hpos
  exact ⟨i, a, b, ha, hb, rfl, rfl⟩

theorem announcedAfter_aligned {s t : Compiler} {x y : String} (hst : (aligned h SameHeaders).States s t)
    (hxy : sameWord x y) (index : Nat) : s.forward.announcedAfter x index = t.forward.announcedAfter y index := by
  have hheaders : List.Forall₂ _ s.forward.headers t.forward.headers := hst.margin.headers
  unfold ForwardCalls.announcedAfter
  revert hheaders
  generalize s.forward.headers = l
  generalize t.forward.headers = l'
  intro hheaders
  induction hheaders with
  | nil => rfl
  | cons hheader _ ih => rw [List.any_cons, List.any_cons, ih, sameWord_congr hheader.1 hxy, hheader.2]

/-- Aligned words stay in step, if both or neither are announced. -/
theorem steps_word_aligned {a b : Token} {x y : Nat} (hab : (aligned h R).token a b)
    (hannounced : ∀ s t : Compiler, (aligned h R).States s t → s.options.forwardRefs →
      s.forward.announcedAfter a.text x = t.forward.announcedAfter b.text y) :
    (aligned h R).Steps (compileWord a x) (compileWord b y) := by
  refine steps_word hab (fun _ _ huv => Margin.Aligned.bestEffort huv) (fun u v huv => ?_) hannounced
  obtain ⟨i, ha, hb⟩ := hab
  exact { huv with
    warnings := List.rel_append huv.warnings (.cons ⟨i, a, b, ha, hb, rfl, rfl⟩ .nil)
    unresolved := congrArg (· + 1) huv.unresolved }

variable (h)

theorem states_aligned (options : Options) :
    (aligned h SameHeaders).States (announced options as) (announced options bs) := by
  refine states_announced rfl ?_
  rw [announced_eq, announced_eq]
  refine ⟨rfl, ?_, .nil, rfl, rfl⟩
  show List.Forall₂ _ (if options.forwardRefs then _ else []) (if options.forwardRefs then _ else [])
  split
  · refine List.rel_filterMap ?_ (items_aligned (tokens_aligned h SameHeaders) 0 0)
    rintro _ _ ⟨hitems, hindex⟩
    cases hitems with
    | define _ hname => exact .some ⟨(aligned h SameHeaders).alike hname, hindex⟩
    | _ => exact .none
  · exact .nil

/-- **Lists of the same words are compiled in step.** -/
theorem results_aligned (options : Options) :
    (aligned h SameHeaders).Results (aligned h SameHeaders).Programs (compileProgram as (initial options))
      (compileProgram bs (initial options)) := by
  refine results_program (steps_items ?_ _ _ (states_aligned h options))
  refine (items_aligned (tokens_aligned h SameHeaders) 0 0).imp ?_
  rintro item item' ⟨hitems, hindex⟩
  have hindex : item.index = item'.index := hindex
  refine steps_item hitems fun a b hab => steps_word_aligned hab fun s t hst _ => ?_
  rw [hindex]
  exact announcedAfter_aligned hst ((aligned h SameHeaders).alike hab) _

variable {h}

theorem Programs.stats_eq {p q : Program} (hpq : (aligned h R).Programs p q) : p.stats = q.stats := by
  obtain ⟨s, t, hmargin, -, htokens, hunresolved, -, htokens', hunresolved'⟩ := hpq.margin
  have hsame : p.stats.tokens = q.stats.tokens ∧ p.stats.unresolved = q.stats.unresolved :=
    ⟨htokens.trans (hmargin.tokens.trans htokens'.symm), hunresolved.trans (hmargin.unresolved.trans hunresolved'.symm)⟩
  rw [← hpq.stats, ← hsame.1, ← hsame.2]

theorem Programs.sameWarning {p q : Program} (hpq : (aligned h R).Programs p q) :
    List.Forall₂ (SameWarning as bs) p.warnings q.warnings := by
  obtain ⟨s, t, hmargin, hwarnings, -, -, hwarnings', -⟩ := hpq.margin
  rw [hwarnings, hwarnings']
  exact hmargin.warnings

theorem Errors.samePlace {e f : Error} (hef : (aligned h R).Errors e f) :
    Option.Rel (SamePlace as bs) e.pos? f.pos? := by
  have hpos := hef.pos
  revert hpos
  generalize e.pos? = p
  generalize f.pos? = q
  rintro (hpos | _)
  · exact .some (samePlace_of_pos hpos)
  · exact .none

end Aligned

end Matching

/-- The answers for two texts: the same program up to the letters of names and the places of tokens, or errors of one
kind at the same token. -/
def SameAnswer (as bs : List Token) : Except Error Program → Except Error Program → Prop
  | .ok p, .ok q =>
    p.code = q.code ∧ p.image = q.image ∧ p.entryOffset = q.entryOffset ∧ p.layout = q.layout ∧ p.stats = q.stats ∧
      List.Forall₂ (fun l m => l.offset = m.offset ∧ sameWord l.name m.name) p.labels q.labels ∧
      List.Forall₂ (SameWarning as bs) p.warnings q.warnings
  | .error e, .error f => e.SameKind f ∧ Option.Rel (SamePlace as bs) e.pos? f.pos?
  | _, _ => False

theorem sameAnswer_of_results {as bs : List Token} {hwords : List.Forall₂ (fun a b => sameWord a.text b.text) as bs}
    {R : List Header → List Header → Prop} {r r' : EStateM.Result Error Compiler Program}
    (h : (Matching.aligned hwords R).Results (Matching.aligned hwords R).Programs r r') :
    SameAnswer as bs (answer r) (answer r') := by
  cases r <;> cases r'
  case ok.ok p _ q _ =>
    have hpq := h.1
    refine ⟨hpq.code, hpq.image, hpq.entryOffset, hpq.layout, hpq.stats_eq, hpq.labels.imp fun l m hlm => ?_,
      hpq.sameWarning⟩
    rcases hlm.name with hname | hname
    · exact ⟨hlm.offset, hname ▸ sameWord_refl l.name⟩
    · exact ⟨hlm.offset, hname.alike⟩
  case error.error => exact ⟨h.1.kind, h.1.samePlace⟩
  all_goals exact h.elim

/-- **Only the words of a text count, up to the case of letters.** -/
theorem spelling_irrelevant {source source' : String} {as bs : List Token} (ha : tokenize source = .ok as)
    (hb : tokenize source' = .ok bs) (hwords : List.Forall₂ (fun a b => sameWord a.text b.text) as bs)
    (options : Options) : SameAnswer as bs (compile source options) (compile source' options) := by
  rw [compile_eq, compile_eq, ha, hb]
  cases options.fault? with
  | some fault => exact ⟨rfl, .none⟩
  | none => exact sameAnswer_of_results (Matching.results_aligned hwords options)

/-- A number, a name that is called ahead of its definition and a word without a meaning, in two spellings. -/
theorem spelling_irrelevant_mixed : ∃ (source source' : String) (options : Options) (as bs : List Token),
    source = ": f G 0x1F ; \\ a comment\n: g ; nope" ∧ source' = ": F g ( in hex )\n0X1f ; : G ; NOPE" ∧
      options = { bestEffort := true, forwardRefs := true } ∧ tokenize source = .ok as ∧ tokenize source' = .ok bs ∧
      List.Forall₂ (fun a b => sameWord a.text b.text) as bs ∧
      SameAnswer as bs (compile source options) (compile source' options) := by
  let source := ": f G 0x1F ; \\ a comment\n: g ; nope"
  let source' := ": F g ( in hex )\n0X1f ; : G ; NOPE"
  let as : List Token := [⟨":", ⟨1, 1⟩⟩, ⟨"f", ⟨1, 3⟩⟩, ⟨"G", ⟨1, 5⟩⟩, ⟨"0x1F", ⟨1, 7⟩⟩, ⟨";", ⟨1, 12⟩⟩,
    ⟨":", ⟨2, 1⟩⟩, ⟨"g", ⟨2, 3⟩⟩, ⟨";", ⟨2, 5⟩⟩, ⟨"nope", ⟨2, 7⟩⟩]
  let bs : List Token := [⟨":", ⟨1, 1⟩⟩, ⟨"F", ⟨1, 3⟩⟩, ⟨"g", ⟨1, 5⟩⟩, ⟨"0X1f", ⟨2, 1⟩⟩, ⟨";", ⟨2, 6⟩⟩,
    ⟨":", ⟨2, 8⟩⟩, ⟨"G", ⟨2, 10⟩⟩, ⟨";", ⟨2, 12⟩⟩, ⟨"NOPE", ⟨2, 14⟩⟩]
  have ha : tokenize source = .ok as := by decide +kernel
  have hb : tokenize source' = .ok bs := by decide +kernel
  have hletters : List.Forall₂ (fun a b => a.text.toList.map Char.toLower = b.text.toList.map Char.toLower) as bs := by
    decide +kernel
  have hwords : List.Forall₂ (fun a b => sameWord a.text b.text) as bs := hletters.imp fun _ _ => sameWord_iff_map.mpr
  exact ⟨source, source', _, as, bs, rfl, rfl, rfl, ha, hb, hwords, spelling_irrelevant ha hb hwords _⟩

end ForthElf
