import ForthElf.Proofs.Literals
import ForthElf.Machine.Listing
import ForthElf.Text.Lines

/-!
# Reading a listing

A listing is read line by line: a line that begins with a blank has columns for the address, the bytes and the statement
of an instruction, every other line is a label.

* `Listing.Row`, `Listing.readRows? text` — the rows of a listing as they are read from its text;
* `Listing.Line.row` — the row that a line is meant to be;
* `Listing.readRows?_join` — **the lines of a listing are read as they are meant**.
-/

namespace ForthElf

open Text

namespace Listing

/-! ### The reader -/

/-- What a line of a listing says. -/
inductive Row where
  | label (name : String)
  | code (address : Nat) (bytes : List UInt8) (statement : String)
deriving DecidableEq

/-- The bytes that pairs of hexadecimal digits denote. -/
def readBytes? : List Char → Option (List UInt8)
  | [] => some []
  | [_] => none
  | high :: low :: rest =>
    match hexValue? high, hexValue? low, readBytes? rest with
    | some high, some low, some bytes => some (UInt8.ofNat (16 * high + low) :: bytes)
    | _, _, _ => none

/-- The first column of a line and what follows it; columns are divided by blanks. -/
def column (line : List Char) : List Char × List Char :=
  let body := line.dropWhile (· == ' ')
  (body.takeWhile (· != ' '), body.dropWhile (· != ' '))

/-- The row of a line for an instruction. -/
def readCode? (line : List Char) : Option Row :=
  let (address, rest) := column line
  let (bytes, rest) := column rest
  match readDigits? 16 address, readBytes? bytes with
  | some address, some bytes => some (.code address bytes (String.ofList (rest.dropWhile (· == ' '))))
  | _, _ => none

def readRow? (line : String) : Option Row :=
  let chars := line.toList
  if chars.head? = some ' ' then readCode? chars
  else if chars.getLast? = some ':' then some (.label (String.ofList chars.dropLast))
  else none

def readRows? (text : String) : Option (List Row) :=
  (Text.lines text).mapM readRow?

end Listing

/-! ### Hexadecimal texts -/

theorem hexDigitsOnto_eq (n : Nat) (tail : List Char) : hexDigitsOnto n tail = Nat.toDigits 16 n ++ tail := by
  have hdigit : ∀ d < 16, hexDigit d = d.digitChar := by decide
  fun_induction hexDigitsOnto n tail with
  | case1 n tail hlt =>
    rw [Nat.toDigits_eq_if (by decide), if_pos hlt, hdigit n hlt]
    rfl
  | case2 n tail hge ih =>
    rw [Nat.toDigits_eq_if (b := 16) (n := n) (by decide), if_neg hge, ih, hdigit _ (Nat.mod_lt n (by decide)),
      List.append_assoc]
    rfl

theorem hexValue?_hexDigit {d : Nat} (h : d < 16) : hexValue? (hexDigit d) = some d := by
  have hall : ∀ d < 16, hexValue? (hexDigit d) = some d := by decide
  exact hall d h

theorem toList_bytesHex (bytes : List UInt8) :
    (bytesHex bytes).toList = bytes.flatMap fun b => [hexDigit (b.toNat / 16), hexDigit (b.toNat % 16)] := by
  rw [bytesHex, String.toList_join, List.flatMap_map]
  simp only [byteHex, String.toList_ofList]

namespace Listing

def OneLine (s : String) : Prop :=
  ∀ c ∈ s.toList, c ≠ '\n' ∧ c ≠ '\r'

instance (s : String) : Decidable (OneLine s) :=
  List.decidableBAll (fun c => c ≠ '\n' ∧ c ≠ '\r') s.toList

@[simp] theorem oneLine_append {a b : String} : OneLine (a ++ b) ↔ OneLine a ∧ OneLine b := by
  rw [OneLine, String.toList_append, List.forall_mem_append]
  rfl

theorem oneLine_rightpad {s : String} (h : OneLine s) (width : Nat) :
    OneLine (String.ofList (s.toList.rightpad width ' ')) := by
  rw [OneLine, String.toList_ofList, List.rightpad, List.forall_mem_append]
  refine ⟨h, fun c hc => ?_⟩
  rw [List.eq_of_mem_replicate hc]
  decide

def Digits (s : String) : Prop :=
  ∀ c ∈ s.toList, ∃ d < 16, c = hexDigit d

theorem Digits.oneLine {s : String} (h : Digits s) : OneLine s := by
  have hall : ∀ d < 16, hexDigit d ≠ '\n' ∧ hexDigit d ≠ '\r' := by decide
  intro c hc
  obtain ⟨d, hd, rfl⟩ := h c hc
  exact hall d hd

theorem Digits.oneLine_toUpper {s : String} (h : Digits s) : OneLine s.toUpper := by
  have hall : ∀ d < 16, (hexDigit d).toUpper ≠ '\n' ∧ (hexDigit d).toUpper ≠ '\r' := by decide
  intro c hc
  rw [String.toUpper, String.toList_map] at hc
  obtain ⟨digit, hdigit, rfl⟩ := List.mem_map.mp hc
  obtain ⟨d, hd, rfl⟩ := h digit hdigit
  exact hall d hd

theorem Digits.not_mem_blank {s : String} (h : Digits s) : ' ' ∉ s.toList := by
  have hall : ∀ d < 16, hexDigit d ≠ ' ' := by decide
  intro hmem
  obtain ⟨d, hd, hblank⟩ := h ' ' hmem
  exact hall d hd hblank.symm

theorem exists_of_mem_hexDigitsOnto {n : Nat} {tail : List Char} {c : Char} (h : c ∈ hexDigitsOnto n tail) :
    c ∈ tail ∨ ∃ d < 16, c = hexDigit d := by
  fun_induction hexDigitsOnto n tail with
  | case1 n tail hlt =>
    rcases List.mem_cons.mp h with rfl | h
    · exact .inr ⟨n, hlt, rfl⟩
    · exact .inl h
  | case2 n tail hge ih =>
    rcases ih h with h | h
    · rcases List.mem_cons.mp h with rfl | h
      · exact .inr ⟨_, Nat.mod_lt n (by decide), rfl⟩
      · exact .inl h
    · exact .inr h

theorem digits_hex (n : Nat) : Digits (hex n) := by
  intro c hc
  rw [hex, String.toList_ofList] at hc
  rcases exists_of_mem_hexDigitsOnto hc with hc | hc
  · cases hc
  · exact hc

theorem digits_hexPadded (width n : Nat) : Digits (hexPadded width n) := by
  intro c hc
  rw [hexPadded, String.toList_ofList, List.leftpad, List.mem_append] at hc
  rcases hc with hc | hc
  · exact ⟨0, by decide, List.eq_of_mem_replicate hc⟩
  · exact digits_hex n c (by rwa [hex, String.toList_ofList])

theorem digits_bytesHex (bytes : List UInt8) : Digits (bytesHex bytes) := by
  intro c hc
  rw [toList_bytesHex] at hc
  obtain ⟨b, -, hb⟩ := List.mem_flatMap.mp hc
  have hlt : b.toNat < 256 := b.toNat_lt
  rw [List.mem_cons, List.mem_singleton] at hb
  rcases hb with rfl | rfl
  · exact ⟨_, by omega, rfl⟩
  · exact ⟨_, by omega, rfl⟩

theorem readDigits?_hexPadded (width n : Nat) : readDigits? 16 (hexPadded width n).toList = some n := by
  obtain ⟨hdigits, hdenoted⟩ := Literal.toDigits_denotes (by decide : 1 < 16) (by decide) n
  have hlist : (hexPadded width n).toList =
      List.replicate (width - (Nat.toDigits 16 n).length) '0' ++ Nat.toDigits 16 n := by
    rw [hexPadded, String.toList_ofList, hexDigitsOnto_eq, List.append_nil, List.leftpad]
  obtain ⟨hzeros, hsame⟩ := Literal.denotes_replicate_append (by decide : 0 < 16)
    (width - (Nat.toDigits 16 n).length) (Nat.toDigits 16 n)
  rw [hlist]
  refine Literal.readDigits?_eq_some_iff.mpr ⟨by simp [Nat.toDigits_ne_nil], hzeros.mpr hdigits, ?_⟩
  rw [hsame, hdenoted]

theorem readBytes?_bytesHex (bytes : List UInt8) : readBytes? (bytesHex bytes).toList = some bytes := by
  rw [toList_bytesHex]
  induction bytes with
  | nil => rfl
  | cons b bytes ih =>
    have hb : b.toNat < 256 := b.toNat_lt
    have hvalue : UInt8.ofNat (16 * (b.toNat / 16) + b.toNat % 16) = b := by
      rw [Nat.div_add_mod, UInt8.ofNat_toNat]
    rw [List.flatMap_cons, List.cons_append, List.cons_append, List.nil_append, readBytes?,
      hexValue?_hexDigit (by omega), hexValue?_hexDigit (by omega), ih]
    simp only [hvalue]

/-! ### Columns -/

theorem dropWhile_blanks {rest : List Char} (h : rest.head? ≠ some ' ') (n : Nat) :
    (List.replicate n ' ' ++ rest).dropWhile (· == ' ') = rest := by
  induction n with
  | zero =>
    cases rest with
    | nil => rfl
    | cons c rest =>
      have hc : c ≠ ' ' := fun hc => h (by rw [hc]; rfl)
      exact List.dropWhile_cons_of_neg (by simpa using hc)
  | succ n ih => exact ih

theorem column_eq {field rest : List Char} (hne : field ≠ []) (hblank : ' ' ∉ field) (n : Nat) :
    column (List.replicate n ' ' ++ (field ++ ' ' :: rest)) = (field, ' ' :: rest) := by
  obtain ⟨c, tail, rfl⟩ := List.exists_cons_of_ne_nil hne
  have hhead : (c :: tail ++ ' ' :: rest).head? ≠ some ' ' := fun hhead =>
    hblank (by rw [← Option.some.inj hhead]; exact List.mem_cons_self)
  have hink : ∀ d ∈ c :: tail, (d != ' ') = true := fun d hd => by
    have : d ≠ ' ' := fun heq => hblank (heq ▸ hd)
    simpa using this
  rw [column, dropWhile_blanks hhead, List.takeWhile_append_of_pos hink, List.dropWhile_append_of_pos hink,
    List.takeWhile_cons_of_neg (by decide), List.dropWhile_cons_of_neg (by decide), List.append_nil]

/-! ### Lines -/

theorem endLine_eq {reversed : List Char} (h : '\r' ∉ reversed) :
    endLine reversed = String.ofList reversed.reverse := by
  unfold endLine
  split
  · exact absurd List.mem_cons_self h
  · rfl

theorem linesOnto_line {done : List String} {line chars rest : List Char} (h : '\n' ∉ chars) :
    linesOnto done line (chars ++ '\n' :: rest) = linesOnto (endLine (chars.reverse ++ line) :: done) [] rest := by
  induction chars generalizing line with
  | nil => rfl
  | cons c chars ih =>
    rw [List.mem_cons, not_or] at h
    rw [List.cons_append, linesOnto, if_neg (Ne.symm h.1), ih h.2, List.reverse_cons, List.append_assoc]
    rfl

/-- Lines are found again in the text that they make. -/
theorem lines_join {bodies : List String} (h : ∀ body ∈ bodies, OneLine body) :
    Text.lines (String.join (bodies.map (· ++ "\n"))) = bodies := by
  have honto : ∀ done, linesOnto done [] (String.join (bodies.map (· ++ "\n"))).toList = done.reverse ++ bodies := by
    induction bodies with
    | nil => simp [linesOnto]
    | cons body bodies ih =>
      intro done
      have hbody := h body List.mem_cons_self
      have hcons : (String.join ((body :: bodies).map (· ++ "\n"))).toList =
          body.toList ++ '\n' :: (String.join (bodies.map (· ++ "\n"))).toList := by
        rw [List.map_cons, String.join_cons, String.toList_append, String.toList_append, List.append_assoc]
        rfl
      have hend : endLine (body.toList.reverse ++ []) = body := by
        rw [List.append_nil, endLine_eq (fun hr => (hbody '\r' (List.mem_reverse.mp hr)).2 rfl), List.reverse_reverse,
          String.ofList_toList]
      rw [hcons, linesOnto_line (fun hn => (hbody '\n' hn).1 rfl),
        ih (fun b hb => h b (List.mem_cons_of_mem _ hb)), hend]
      simp
  exact honto []

/-! ### Statements -/

@[simp] theorem oneLine_numberText (n : Nat) : OneLine (numberText n) := by
  unfold numberText
  split
  · exact (digits_hex n).oneLine
  · exact oneLine_append.mpr ⟨by decide, (digits_hex n).oneLine_toUpper⟩

@[simp] theorem oneLine_targetText (next : UInt64) (disp : BitVec 32) : OneLine (targetText next disp) := by
  unfold targetText
  dsimp only
  split
  · exact (digits_hex _).oneLine
  · exact oneLine_append.mpr ⟨by decide, (digits_hexPadded 16 _).oneLine_toUpper⟩

theorem oneLine_nameIn {names : Vector String 16} (h : ∀ i, OneLine (names.get i)) (r : Register) :
    OneLine (r.nameIn names) :=
  h _

@[simp] theorem oneLine_name (r : Register) : OneLine r.name :=
  oneLine_nameIn (by decide) r

@[simp] theorem oneLine_name32 (r : Register) : OneLine r.name32 :=
  oneLine_nameIn (by decide) r

@[simp] theorem oneLine_name8 (r : Register) : OneLine r.name8 :=
  oneLine_nameIn (by decide) r

@[simp] theorem oneLine_mem (m : Mem) : OneLine m.text := by
  have hpart : OneLine
      (if m.disp.toInt = 0 then ""
      else if 0 < m.disp.toInt then "+" ++ numberText m.disp.toInt.natAbs
      else "-" ++ numberText m.disp.toInt.natAbs) := by
    split
    · decide
    · split <;> exact oneLine_append.mpr ⟨by decide, oneLine_numberText _⟩
  unfold Mem.text
  simp only [oneLine_append]
  exact ⟨⟨⟨by decide, oneLine_name _⟩, hpart⟩, by decide⟩

theorem oneLine_statement {mnemonic : String} {operands : List String} (hmnemonic : OneLine mnemonic)
    (hoperands : ∀ operand ∈ operands, OneLine operand) : OneLine (statement mnemonic operands) := by
  refine oneLine_append.mpr ⟨oneLine_rightpad hmnemonic 8, ?_⟩
  induction operands with
  | nil => decide
  | cons first operands ih =>
    have hfirst := hoperands first List.mem_cons_self
    cases operands with
    | nil => rwa [String.intercalate_singleton]
    | cons second operands =>
      rw [String.intercalate_cons_cons, oneLine_append, oneLine_append]
      exact ⟨⟨hfirst, by decide⟩, ih fun o ho => hoperands o (List.mem_cons_of_mem _ ho)⟩

/-- The first character of a text is no blank. -/
def Begins (s : String) : Prop :=
  s.toList.head?.any (· != ' ') = true

instance (s : String) : Decidable (Begins s) :=
  inferInstanceAs (Decidable (_ = true))

theorem begins_statement {mnemonic : String} (operands : List String) (h : Begins mnemonic) :
    Begins (statement mnemonic operands) := by
  unfold Begins at h
  rw [Begins, statement, String.toList_append, String.toList_ofList, List.rightpad]
  cases hchars : mnemonic.toList with
  | nil =>
    rw [hchars] at h
    cases h
  | cons c chars =>
    rw [hchars] at h
    exact h

theorem statement_clean {mnemonic : String} {operands : List String} (hmnemonic : OneLine mnemonic ∧ Begins mnemonic)
    (hoperands : ∀ operand ∈ operands, OneLine operand) :
    OneLine (statement mnemonic operands) ∧ Begins (statement mnemonic operands) :=
  ⟨oneLine_statement hmnemonic.1 hoperands, begins_statement operands hmnemonic.2⟩

/-- **Every instruction is written within a line** that begins with its mnemonic. -/
theorem text_clean (next : UInt64) (i : Instruction) : OneLine (i.text next) ∧ Begins (i.text next) := by
  have hqword : OneLine "qword " := by decide
  have hbyte : OneLine "byte " := by decide
  have hnear : OneLine "near " := by decide
  have hcount : OneLine "cl" := by decide
  cases i with
  | cqo => exact (by decide : OneLine "cqo" ∧ Begins "cqo")
  | ret => exact (by decide : OneLine "ret" ∧ Begins "ret")
  | syscall => exact (by decide : OneLine "syscall" ∧ Begins "syscall")
  | aluRegReg op dst src | aluRegImm op dst value | aluMemReg op dst src | aluRegMem op dst src =>
    exact statement_clean (by cases op <;> decide) (by simp [extendedText])
  | unary op dst | shift op dst => exact statement_clean (by cases op <;> decide) (by simp [hcount])
  | setIf condition dst | moveIf condition dst src =>
    exact statement_clean (by cases condition <;> decide) (by simp)
  | branch kind disp =>
    cases kind with
    | jump | call => exact statement_clean (by decide) (by simp)
    | jumpIf condition => exact statement_clean (by cases condition <;> decide) (by simp [hnear])
  | _ => exact statement_clean (by decide) (by simp [extendedText, hqword, hbyte])

/-! ### Reading lines -/

/-- The statement of a piece of code in front of the address `next`. -/
def statementOf (next : UInt64) (piece : Piece) : String :=
  match piece.instruction? with
  | some instruction => instruction.text next
  | none => "(bad)"

def Line.row : Line → Row
  | .label name => .label name
  | .code address piece =>
    .code address.toNat piece.bytes (statementOf (address + UInt64.ofNat piece.bytes.length) piece)

def Line.body : Line → String
  | .label name => name ++ ":"
  | .code address piece =>
    "  " ++ hexPadded 8 address.toNat ++ "  " ++ String.ofList ((bytesHex piece.bytes).toList.rightpad 24 ' ') ++ " " ++
      statementOf (address + UInt64.ofNat piece.bytes.length) piece

theorem Line.text_eq (line : Line) : line.text = line.body ++ "\n" := by
  cases line with
  | label name => rw [text, body, String.append_assoc]; rfl
  | code address piece => rfl

/-- A line that can be read back: a name without blanks, or code that is not empty. -/
def Line.Readable : Line → Prop
  | .label name => ∀ c ∈ name.toList, c ≠ ' ' ∧ c ≠ '\n' ∧ c ≠ '\r'
  | .code _ piece => piece.bytes ≠ []

instance (name : String) : Decidable (Line.label name).Readable :=
  List.decidableBAll (fun c => c ≠ ' ' ∧ c ≠ '\n' ∧ c ≠ '\r') name.toList

theorem statementOf_clean (next : UInt64) (piece : Piece) :
    OneLine (statementOf next piece) ∧ Begins (statementOf next piece) := by
  unfold statementOf
  split
  · exact text_clean next _
  · exact ⟨by decide, by decide⟩

theorem readRow?_label {name : String} (h : (Line.label name).Readable) :
    readRow? (Line.label name).body = some (.label name) := by
  have hlist : (name ++ ":").toList = name.toList ++ [':'] := String.toList_append
  have hhead : (name.toList ++ [':']).head? ≠ some ' ' := by
    intro hhead
    rcases List.mem_append.mp (List.mem_of_head? hhead) with hmem | hmem
    · exact (h ' ' hmem).1 rfl
    · exact absurd hmem (by decide)
  rw [Line.body, readRow?, hlist, if_neg hhead, if_pos List.getLast?_concat, List.dropLast_concat, String.ofList_toList]

theorem readCode?_columns {address bytes statement : List Char} {n : Nat} (haddress : address ≠ [] ∧ ' ' ∉ address)
    (hbytes : bytes ≠ [] ∧ ' ' ∉ bytes) (hstatement : statement.head? ≠ some ' ') :
    readCode? (List.replicate 2 ' ' ++ (address ++ ' ' :: (List.replicate 1 ' ' ++
      (bytes ++ ' ' :: (List.replicate n ' ' ++ statement))))) =
      match readDigits? 16 address, readBytes? bytes with
      | some address, some bytes => some (.code address bytes (String.ofList statement))
      | _, _ => none := by
  have hbehind : ∀ rest : List Char, ' ' :: (List.replicate 1 ' ' ++ rest) = List.replicate 2 ' ' ++ rest :=
    fun _ => rfl
  have hlast : (' ' :: (List.replicate n ' ' ++ statement)).dropWhile (· == ' ') = statement :=
    dropWhile_blanks hstatement (n + 1)
  rw [readCode?, column_eq haddress.1 haddress.2, hbehind]
  simp only [column_eq hbytes.1 hbytes.2, hlast]

theorem toList_body_code (address : UInt64) (piece : Piece) :
    (Line.code address piece).body.toList =
      List.replicate 2 ' ' ++ ((hexPadded 8 address.toNat).toList ++ ' ' :: (List.replicate 1 ' ' ++
        ((bytesHex piece.bytes).toList ++ ' ' :: (List.replicate (24 - (bytesHex piece.bytes).toList.length) ' ' ++
          (statementOf (address + UInt64.ofNat piece.bytes.length) piece).toList)))) := by
  generalize hs : statementOf (address + UInt64.ofNat piece.bytes.length) piece = s
  have hblanks : ∀ n, List.replicate n ' ' ++ ' ' :: s.toList = ' ' :: (List.replicate n ' ' ++ s.toList) := by
    intro n
    rw [← List.singleton_append, ← List.append_assoc, ← List.replicate_succ', List.replicate_succ]
    rfl
  rw [← hblanks, ← hs]
  simp only [Line.body, String.toList_append, String.toList_ofList, List.rightpad, List.append_assoc]
  rfl

theorem readRow?_code {address : UInt64} {piece : Piece} (h : (Line.code address piece).Readable) :
    readRow? (Line.code address piece).body = some (Line.code address piece).row := by
  have haddress : (hexPadded 8 address.toNat).toList ≠ [] := by
    intro hnil
    have hread := readDigits?_hexPadded 8 address.toNat
    rw [hnil] at hread
    cases hread
  have hbytes : (bytesHex piece.bytes).toList ≠ [] := by
    intro hnil
    have hread := readBytes?_bytesHex piece.bytes
    rw [hnil] at hread
    exact h (Option.some.inj hread).symm
  have hbegins : (statementOf (address + UInt64.ofNat piece.bytes.length) piece).toList.head? ≠ some ' ' := by
    intro hhead
    have hbegins := (statementOf_clean (address + UInt64.ofNat piece.bytes.length) piece).2
    rw [Begins, hhead] at hbegins
    cases hbegins
  rw [readRow?, toList_body_code]
  show (if some ' ' = some ' ' then _ else _) = _
  rw [if_pos rfl, readCode?_columns ⟨haddress, (digits_hexPadded 8 _).not_mem_blank⟩
    ⟨hbytes, (digits_bytesHex _).not_mem_blank⟩ hbegins, readDigits?_hexPadded, readBytes?_bytesHex,
    String.ofList_toList]
  rfl

theorem readRow?_body {line : Line} (h : line.Readable) : readRow? line.body = some line.row := by
  cases line with
  | label name => exact readRow?_label h
  | code address piece => exact readRow?_code h

theorem oneLine_body {line : Line} (h : line.Readable) : OneLine line.body := by
  cases line with
  | label name => exact oneLine_append.mpr ⟨fun c hc => (h c hc).2, by decide⟩
  | code address piece =>
    have hbytes := oneLine_rightpad (digits_bytesHex piece.bytes).oneLine 24
    simp only [Line.body, oneLine_append]
    exact ⟨⟨⟨⟨⟨by decide, (digits_hexPadded 8 _).oneLine⟩, by decide⟩, hbytes⟩, by decide⟩, (statementOf_clean _ _).1⟩

/-- **The lines of a listing are read as they are meant.** -/
theorem readRows?_join {lines : List Line} (h : ∀ line ∈ lines, line.Readable) :
    readRows? (String.join (lines.map Line.text)) = some (lines.map Line.row) := by
  have htext : lines.map Line.text = (lines.map Line.body).map (· ++ "\n") := by
    rw [List.map_map]
    exact List.map_congr_left fun line _ => line.text_eq
  have hread : (lines.map Line.body).mapM readRow? = some (lines.map Line.row) := by
    clear htext
    induction lines with
    | nil => rfl
    | cons line lines ih =>
      rw [List.forall_mem_cons] at h
      rw [List.map_cons, List.mapM_cons, readRow?_body h.1, ih h.2]
      rfl
  rw [htext, readRows?, lines_join, hread]
  rw [List.forall_mem_map]
  exact fun line hline => oneLine_body (h line hline)

end Listing

end ForthElf
