import ForthElf.Proofs.Executable
import ForthElf.Proofs.Labels
import ForthElf.Proofs.Lexing
import ForthElf.Proofs.Rows

/-!
# What a listing covers

* `Listing.rowsFrom base labels offset block` — the rows for a block of instructions, the labels of an offset in front
  of its instruction;
* `Listing.Covers rows base code instructions labels` — the rows show the code byte by byte, each instruction on one
  line at its address, and each label on one line in front of the instruction at its offset;
* `Listing.covers_rowsFrom` — **rows cover the code if the labels are at different instructions**;
* `listing_covers` — **the listing of a program that compiles covers its code**.
-/

namespace ForthElf

open Compiler Text

/-! ### Starts of instructions -/

theorem starts_append (offset : Nat) (a b : List Instruction) :
    starts offset (a ++ b) = starts offset a ++ starts (offset + codeSize a) b := by
  induction a generalizing offset with
  | nil => simp [starts]
  | cons i a ih => simp [starts, ih, Nat.add_assoc]

theorem Placed.mem_starts {code : List Instruction} {p : Nat} {i : Instruction} (h : Placed code p [i]) :
    p ∈ starts 0 code := by
  obtain ⟨front, back, rfl, rfl⟩ := h
  simp [starts_append, starts]

theorem le_of_mem_starts {offset p : Nat} {block : List Instruction} (h : p ∈ starts offset block) : offset ≤ p := by
  induction block generalizing offset with
  | nil => cases h
  | cons i block ih =>
    rcases List.mem_cons.mp h with rfl | h
    · exact Nat.le_refl _
    · exact Nat.le_trans (Nat.le_add_right _ _) (ih h)

namespace Listing

/-! ### Rows for instructions -/

def Row.bytes : Row → List UInt8
  | .label _ => []
  | .code _ bytes _ => bytes

def Row.isCode : Row → Bool
  | .label _ => false
  | .code _ _ _ => true

def codeRow (address : Nat) (i : Instruction) : Row :=
  .code address i.encode (i.text (UInt64.ofNat (address + i.size)))

def labelRows (labels : List Label) (offset : Nat) : List Row :=
  (labels.filter (·.offset == offset)).map fun label => .label label.name

/-- The rows for a block at `offset` of code that is loaded at `base`. -/
def rowsFrom (base : Nat) (labels : List Label) : Nat → List Instruction → List Row
  | _, [] => []
  | offset, i :: block =>
    labelRows labels offset ++ codeRow (base + offset) i :: rowsFrom base labels (offset + i.size) block

theorem map_row_linesFrom {base : UInt64} {labels : List Label} {offset : Nat} {block : List Instruction}
    (h : base.toNat + offset + codeSize block < 2 ^ 64) :
    (linesFrom base labels offset (block.map Instruction.piece)).map Line.row =
      rowsFrom base.toNat labels offset block := by
  induction block generalizing offset with
  | nil => rfl
  | cons i block ih =>
    rw [codeSize_cons] at h
    have haddress : (base + UInt64.ofNat offset).toNat = base.toNat + offset := by
      rw [UInt64.toNat_add, UInt64.toNat_ofNat']
      omega
    have hnext : base + UInt64.ofNat offset + UInt64.ofNat i.size = UInt64.ofNat (base.toNat + offset + i.size) := by
      rw [← haddress, UInt64.ofNat_add, UInt64.ofNat_toNat]
    have hrest := ih (by omega : base.toNat + (offset + i.size) + codeSize block < 2 ^ 64)
    rw [List.map_cons, linesFrom, List.map_append, List.map_cons, List.map_map]
    show _ ++ Row.code _ i.encode (i.text (_ + _ + UInt64.ofNat i.size)) ::
      List.map _ (linesFrom _ _ (offset + i.size) _) = _
    rw [hrest, haddress, hnext]
    rfl

theorem mem_linesFrom {base : UInt64} {labels : List Label} {offset : Nat} {pieces : List Piece} {line : Line}
    (h : line ∈ linesFrom base labels offset pieces) :
    (∃ label ∈ labels, line = .label label.name) ∨ ∃ address, ∃ piece ∈ pieces, line = .code address piece := by
  induction pieces generalizing offset with
  | nil => cases h
  | cons piece pieces ih =>
    rw [linesFrom, List.mem_append, List.mem_cons] at h
    rcases h with h | h | h
    · obtain ⟨label, hlabel, rfl⟩ := List.mem_map.mp h
      exact .inl ⟨label, (List.mem_filter.mp hlabel).1, rfl⟩
    · exact .inr ⟨_, piece, List.mem_cons_self, h⟩
    · rcases ih h with h | ⟨address, piece', hpiece, h⟩
      · exact .inl h
      · exact .inr ⟨address, piece', List.mem_cons_of_mem _ hpiece, h⟩

section Rows

variable {base : Nat} {labels : List Label} {offset : Nat} {block : List Instruction}

theorem filter_isCode_labelRows (labels : List Label) (offset : Nat) :
    (labelRows labels offset).filter Row.isCode = [] := by
  simp [labelRows, List.filter_map, Function.comp_def, Row.isCode]

theorem flatMap_bytes_labelRows (labels : List Label) (offset : Nat) :
    (labelRows labels offset).flatMap Row.bytes = [] := by
  simp [labelRows, List.flatMap_map, Row.bytes]

theorem countP_labelRows (labels : List Label) (offset : Nat) :
    (labelRows labels offset).countP (fun row => !row.isCode) = labels.countP (·.offset == offset) := by
  rw [labelRows, List.countP_map, List.countP_eq_length_filter (p := fun label : Label => label.offset == offset)]
  simp [Function.comp_def, Row.isCode]

theorem countP_mem_cons {offset : Nat} {offsets : List Nat} (h : offset ∉ offsets) (labels : List Label) :
    (labels.countP fun label => label.offset ∈ offset :: offsets) =
      labels.countP (·.offset == offset) + labels.countP fun label => label.offset ∈ offsets := by
  induction labels with
  | nil => rfl
  | cons label labels ih =>
    rw [List.countP_cons, List.countP_cons, List.countP_cons, ih]
    by_cases hlabel : label.offset = offset
    · simp [hlabel, h]
      omega
    · simp [hlabel]
      omega

theorem filter_isCode_rowsFrom (base : Nat) (labels : List Label) (offset : Nat) (block : List Instruction) :
    List.Forall₂ (fun row i => ∃ address, row = codeRow address i)
      ((rowsFrom base labels offset block).filter Row.isCode) block := by
  induction block generalizing offset with
  | nil => exact .nil
  | cons i block ih =>
    rw [rowsFrom, List.filter_append, filter_isCode_labelRows, List.nil_append, List.filter_cons_of_pos rfl]
    exact .cons ⟨_, rfl⟩ (ih _)

theorem flatMap_bytes_rowsFrom (base : Nat) (labels : List Label) (offset : Nat) (block : List Instruction) :
    (rowsFrom base labels offset block).flatMap Row.bytes = assemble block := by
  induction block generalizing offset with
  | nil => rfl
  | cons i block ih =>
    rw [rowsFrom, List.flatMap_append, flatMap_bytes_labelRows, List.nil_append, List.flatMap_cons, ih, assemble_cons]
    rfl

/-- An instruction stands as many bytes behind the base as the rows before it show. -/
theorem address_of_getElem? {j address : Nat} {bytes : List UInt8} {statement : String}
    (h : (rowsFrom base labels offset block)[j]? = some (.code address bytes statement)) :
    address = base + offset + (((rowsFrom base labels offset block).take j).flatMap Row.bytes).length := by
  induction block generalizing offset j with
  | nil => cases h
  | cons i block ih =>
    rw [rowsFrom] at h ⊢
    rw [List.take_append, List.flatMap_append]
    rcases Nat.lt_or_ge j (labelRows labels offset).length with hlt | hge
    · -- Here are the labels in front of the instruction.
      rw [List.getElem?_append_left hlt] at h
      obtain ⟨label, -, hlabel⟩ := List.mem_map.mp (List.mem_of_getElem? h)
      cases hlabel
    · rw [List.take_of_length_le hge, flatMap_bytes_labelRows, List.nil_append]
      rw [List.getElem?_append_right hge] at h
      cases hd : j - (labelRows labels offset).length with
      | zero =>
        rw [hd, List.getElem?_cons_zero] at h
        cases h
        rfl
      | succ d =>
        rw [hd, List.getElem?_cons_succ] at h
        rw [List.take_succ_cons, List.flatMap_cons, List.length_append, ih h]
        show _ = _ + (i.size + _)
        omega

/-- A label at the start of an instruction has a row in front of it. -/
theorem exists_labelRow {label : Label} (hlabel : labels.filter (·.offset == label.offset) = [label])
    (hstart : label.offset ∈ starts offset block) :
    ∃ j, (rowsFrom base labels offset block)[j]? = some (.label label.name) ∧
      ∃ bytes statement,
        (rowsFrom base labels offset block)[j + 1]? = some (.code (base + label.offset) bytes statement) := by
  induction block generalizing offset with
  | nil => cases hstart
  | cons i block ih =>
    rw [rowsFrom]
    rcases List.mem_cons.mp hstart with rfl | hstart
    · rw [labelRows, hlabel]
      exact ⟨0, rfl, _, _, rfl⟩
    · obtain ⟨j, hj, bytes, statement, hnext⟩ := ih hstart
      have hshift : ∀ n, (labelRows labels offset ++ codeRow (base + offset) i ::
          rowsFrom base labels (offset + i.size) block)[(labelRows labels offset).length + (n + 1)]? =
          (rowsFrom base labels (offset + i.size) block)[n]? := by
        intro n
        rw [List.getElem?_append_right (Nat.le_add_right _ _), Nat.add_sub_cancel_left, List.getElem?_cons_succ]
      exact ⟨_, (hshift j).trans hj, bytes, statement, (hshift (j + 1)).trans hnext⟩

variable (hsize : ∀ i ∈ block, 0 < i.size)
include hsize

theorem bytes_ne_nil {address : Nat} {bytes : List UInt8} {statement : String}
    (h : .code address bytes statement ∈ rowsFrom base labels offset block) : bytes ≠ [] := by
  induction block generalizing offset with
  | nil => cases h
  | cons i block ih =>
    rw [List.forall_mem_cons] at hsize
    rw [rowsFrom, List.mem_append, List.mem_cons] at h
    rcases h with h | h | h
    · obtain ⟨label, -, hlabel⟩ := List.mem_map.mp h
      cases hlabel
    · cases h
      exact List.ne_nil_of_length_pos hsize.1
    · exact ih hsize.2 h

theorem address_lt {j j' address address' : Nat} {bytes bytes' : List UInt8} {statement statement' : String}
    (hlt : j < j') (h : (rowsFrom base labels offset block)[j]? = some (.code address bytes statement))
    (h' : (rowsFrom base labels offset block)[j']? = some (.code address' bytes' statement')) : address < address' := by
  have hne := bytes_ne_nil hsize (List.mem_of_getElem? h)
  obtain ⟨more, hmore⟩ :
      (rowsFrom base labels offset block).take (j + 1) <+: (rowsFrom base labels offset block).take j' :=
    List.take_prefix_take_left hlt
  have hpos : 0 < bytes.length := List.length_pos_iff.mpr hne
  rw [address_of_getElem? h, address_of_getElem? h', ← hmore, List.take_add_one, h]
  simp only [List.flatMap_append, List.length_append, Option.toList_some, List.flatMap_singleton, Row.bytes]
  omega

/-- Every label at the start of an instruction has one row. -/
theorem countP_label_rowsFrom (base : Nat) (labels : List Label) (offset : Nat) :
    (rowsFrom base labels offset block).countP (fun row => !row.isCode) =
      labels.countP fun label => label.offset ∈ starts offset block := by
  induction block generalizing offset with
  | nil => simp [rowsFrom, starts]
  | cons i block ih =>
    rw [List.forall_mem_cons] at hsize
    have hbehind : offset ∉ starts (offset + i.size) block := fun hmem => by
      have := le_of_mem_starts hmem
      omega
    rw [rowsFrom, List.countP_append, countP_labelRows, List.countP_cons_of_neg (by simp [codeRow, Row.isCode]),
      ih hsize.2, starts, countP_mem_cons hbehind]

end Rows

/-- The rows show the code, each instruction on one row, and each label on one row in front of the instruction at its
offset. -/
structure Covers (rows : List Row) (base : Nat) (code : List UInt8) (instructions : List Instruction)
    (labels : List Label) : Prop where
  /-- The rows that show bytes are those of the instructions, in order. -/
  lines : List.Forall₂ (fun row i => ∃ address, row = codeRow address i) (rows.filter Row.isCode) instructions
  bytes : rows.flatMap Row.bytes = code
  addresses : ∀ j address bytes statement, rows[j]? = some (.code address bytes statement) →
    address = base + ((rows.take j).flatMap Row.bytes).length
  named : ∀ label ∈ labels, ∃! j, rows[j]? = some (.label label.name) ∧
    ∃ bytes statement, rows[j + 1]? = some (.code (base + label.offset) bytes statement)
  /-- No other row has a label. -/
  count : rows.countP (fun row => !row.isCode) = labels.length

theorem filter_offset_eq {labels : List Label} {label : Label} (h : (labels.map Label.offset).Nodup)
    (hlabel : label ∈ labels) : labels.filter (·.offset == label.offset) = [label] := by
  induction labels with
  | nil => cases hlabel
  | cons first labels ih =>
    rw [List.map_cons, List.nodup_cons, List.mem_map, not_exists] at h
    rcases List.mem_cons.mp hlabel with rfl | hmem
    · rw [List.filter_cons_of_pos (by simp), List.filter_eq_nil_iff.mpr]
      intro other hother hsame
      exact h.1 other ⟨hother, by simpa using hsame⟩
    · have hne : first.offset ≠ label.offset := fun hsame => h.1 label ⟨hmem, hsame.symm⟩
      rw [List.filter_cons_of_neg (by simpa using hne), ih h.2 hmem]

/-- **Rows cover the code** if the labels are at different instructions. -/
theorem covers_rowsFrom (base : Nat) {labels : List Label} {block : List Instruction}
    (hsize : ∀ i ∈ block, 0 < i.size) (hdistinct : (labels.map Label.offset).Nodup)
    (hstarts : ∀ label ∈ labels, label.offset ∈ starts 0 block) :
    Covers (rowsFrom base labels 0 block) base (assemble block) block labels where
  lines := filter_isCode_rowsFrom base labels 0 block
  bytes := flatMap_bytes_rowsFrom base labels 0 block
  addresses := fun _ _ _ _ h => address_of_getElem? h
  named := by
    intro label hlabel
    obtain ⟨j, hj, hnext⟩ := exists_labelRow (filter_offset_eq hdistinct hlabel) (hstarts label hlabel)
    refine ⟨j, ⟨hj, hnext⟩, ?_⟩
    -- Two rows in front of the same instruction are the same.
    rintro j' ⟨-, bytes', statement', hnext'⟩
    obtain ⟨bytes, statement, hnext⟩ := hnext
    rcases Nat.lt_trichotomy (j' + 1) (j + 1) with hlt | heq | hlt
    · exact absurd (address_lt hsize hlt hnext' hnext) (Nat.lt_irrefl _)
    · exact Nat.succ.inj heq
    · exact absurd (address_lt hsize hlt hnext hnext') (Nat.lt_irrefl _)
  count := by
    rw [countP_label_rowsFrom hsize, List.countP_eq_length]
    intro label hlabel
    exact decide_eq_true (hstarts label hlabel)

end Listing

/-! ### The names of definitions -/

theorem not_isBlank_of_mem_text {source : String} {tokens : List Token} (h : tokenize source = .ok tokens)
    {token : Token} (htoken : token ∈ tokens) {c : Char} (hc : c ∈ token.text.toList) : isBlank c = false := by
  have hlexed := lexed_tokenize source
  rw [h] at hlexed
  obtain ⟨-, starts, -, -, rfl⟩ := hlexed
  obtain ⟨i, -, rfl⟩ := List.mem_map.mp htoken
  rw [tokenAt, String.toList_ofList] at hc
  have hink : isInk c = true := List.mem_takeWhile_imp hc
  simpa [isInk] using hink

theorem exists_token_of_mem_headersFrom {index : Nat} {tokens : List Token} {header : Header}
    (h : header ∈ headersFrom index tokens) : ∃ token ∈ tokens, token.text = header.name := by
  fun_induction headersFrom index tokens with
  | case1 => cases h
  | case2 => cases h
  | case3 index token name rest hcolon ih =>
    rcases List.mem_cons.mp h with rfl | h
    · exact ⟨name, by simp, rfl⟩
    · obtain ⟨found, hfound, hname⟩ := ih h
      exact ⟨found, List.mem_cons_of_mem _ (List.mem_cons_of_mem _ hfound), hname⟩
  | case4 index token name rest _ hvariable ih =>
    obtain ⟨found, hfound, hname⟩ := ih h
    exact ⟨found, List.mem_cons_of_mem _ (List.mem_cons_of_mem _ hfound), hname⟩
  | case5 index token name rest _ _ ih =>
    obtain ⟨found, hfound, hname⟩ := ih h
    exact ⟨found, List.mem_cons_of_mem _ hfound, hname⟩

namespace Compilation

open Listing

variable (c : Compilation)

theorem readable_label {source : String} (htokens : tokenize source = .ok c.tokens) {label : Label}
    (h : label ∈ c.program.labels) : (Line.label label.name).Readable := by
  rw [c.labels_eq, List.mem_cons, List.mem_cons] at h
  rcases h with rfl | rfl | h
  · exact (by decide : (Line.label "print_number").Readable)
  · exact (by decide : (Line.label "_start").Readable)
  · have hname : label.name ∈ (headersFrom 0 c.tokens).map Header.name := by
      rw [← c.map_name_definitions]
      exact List.mem_map_of_mem h
    obtain ⟨header, hheader, hname⟩ := List.mem_map.mp hname
    obtain ⟨token, htoken, htext⟩ := exists_token_of_mem_headersFrom hheader
    rw [← hname, ← htext]
    intro d hd
    have hink := not_isBlank_of_mem_text htokens htoken hd
    refine ⟨?_, ?_, ?_⟩ <;> rintro rfl <;> exact absurd hink (by decide)

theorem toNat_codeAddress_zero :
    (c.program.layout.codeAddress 0).toNat = c.options.codeBase.toNat + headerSize := by
  have hle := c.code_le
  have htop := c.sound.stackTop_eq
  have hlt := c.sound.stackTop_lt
  rw [Layout.codeAddress, c.layout_eq.1, UInt64.toNat_add, UInt64.toNat_ofNat']
  dsimp only
  omega

/-- **The rows of the listing.** -/
theorem readRows?_listing {source : String} (htokens : tokenize source = .ok c.tokens) :
    readRows? c.program.listing =
      some (rowsFrom (c.options.codeBase.toNat + headerSize) c.program.labels 0 c.instructions) := by
  have hreadable : ∀ line ∈ linesFrom (c.program.layout.codeAddress 0) c.program.labels 0
      (c.instructions.map Instruction.piece), line.Readable := by
    intro line hline
    rcases mem_linesFrom hline with ⟨label, hlabel, rfl⟩ | ⟨address, piece, hpiece, rfl⟩
    · exact c.readable_label htokens hlabel
    · obtain ⟨i, hi, rfl⟩ := List.mem_map.mp hpiece
      exact List.ne_nil_of_length_pos (Instruction.size_pos (c.encodable_instructions i hi))
  have hfits : (c.program.layout.codeAddress 0).toNat + 0 + codeSize c.instructions < 2 ^ 64 := by
    have hle := c.code_le
    have htop := c.sound.stackTop_eq
    have hlt := c.sound.stackTop_lt
    rw [c.toNat_codeAddress_zero, ← c.length_code]
    omega
  rw [Program.listing, listing, Listing.lines, c.decodeAll_code, readRows?_join hreadable, map_row_linesFrom hfits,
    c.toNat_codeAddress_zero]

end Compilation

/-- **The listing of a program covers its code**: it shows the code byte by byte, each instruction on one line at its
address, and each label on one line in front of the instruction at its offset.  The labels are the number printing
routine, the start and every definition in order, and no two of them are at the same place. -/
theorem listing_covers {source : String} {options : Options} {program : Program}
    (h : compile source options = .ok program) :
    ∃ (c : Compilation) (rows : List Listing.Row) (definitions : List Label),
      c.options = options ∧ c.program = program ∧ tokenize source = .ok c.tokens ∧
      decodeAll program.code = c.instructions.map Instruction.piece ∧
      Listing.readRows? program.listing = some rows ∧
      Listing.Covers rows (options.codeBase.toNat + 176) program.code c.instructions program.labels ∧
      program.labels = ⟨0, "print_number"⟩ :: ⟨program.entryOffset, "_start"⟩ :: definitions ∧
      definitions.map Label.name = (headersFrom 0 c.tokens).map Header.name ∧
      definitions.Pairwise (fun a b => a.offset < b.offset) ∧
      (program.labels.map Label.offset).Nodup ∧
      ∀ label ∈ program.labels, label.offset ∈ starts 0 c.instructions := by
  obtain ⟨c, rfl, rfl, htokens⟩ := exists_compilation h
  have hstarts : ∀ label ∈ c.program.labels, label.offset ∈ starts 0 c.instructions := by
    intro label hlabel
    obtain ⟨i, hplaced⟩ := Compilation.exists_placed_label hlabel
    exact hplaced.mem_starts
  have hcovers := Listing.covers_rowsFrom (c.options.codeBase.toNat + headerSize)
    (fun i hi => Instruction.size_pos (c.encodable_instructions i hi)) c.nodup_labels hstarts
  rw [← c.code_eq] at hcovers
  exact ⟨c, _, _, rfl, rfl, htokens, c.decodeAll_code, c.readRows?_listing htokens, hcovers, c.labels_eq,
    c.map_name_definitions, c.pairwise_definitions _, c.nodup_labels, hstarts⟩

/-- A program that defines a word twice, before and behind its start. -/
theorem listing_covers_twice : ∃ program : Program,
    compile ": a 1 if exit then ; a . : a begin a until ; a" {} = .ok program ∧
    ∃ (c : Compilation) (rows : List Listing.Row),
      c.program = program ∧ Listing.readRows? program.listing = some rows ∧
      Listing.Covers rows (0x400000 + 176) program.code c.instructions program.labels := by
  obtain ⟨program, h⟩ := exists_of_isOk (x := compile ": a 1 if exit then ; a . : a begin a until ; a" {})
    (by decide +kernel)
  obtain ⟨c, rows, definitions, -, hprogram, -, -, hread, hcovers, -⟩ := listing_covers h
  exact ⟨program, h, c, rows, hprogram, hread, hcovers⟩

end ForthElf
