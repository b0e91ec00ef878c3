import ForthElf.Proofs.Bodies
import ForthElf.Proofs.Names

/-!
# Labels

A program has a label for the number printing routine, for its start, and for each of its definitions.

* `Compilation.definitions k` — the labels of the definitions among the first `k` items, in order;
* `Compilation.labels_eq` — the labels of a program;
* `Compilation.pairwise_definitions`, `Compilation.nodup_labels` — **the definitions stand one behind the other, and no
  two labels are at the same place**;
* `Compilation.exists_placed_label` — **every label is in front of an instruction**.
-/

namespace ForthElf

open Compiler

namespace Compilation

variable (c : Compilation)

def label? (h : Nat) : Option Label :=
  match c.items[h]? with
  | some (.define _ name _) => some ⟨c.offset (h + 1), name.text⟩
  | _ => none

/-- The labels of the definitions among the first `k` items. -/
def definitions (k : Nat) : List Label :=
  (List.range k).filterMap c.label?

variable {c} {k h : Nat}

theorem definitions_succ : c.definitions (k + 1) = c.definitions k ++ (c.label? k).toList := by
  rw [definitions, List.range_succ, List.filterMap_append]
  cases hlabel : c.label? k <;> simp [definitions, hlabel]

/-! ### The labels of a program -/

/-- Hidden or not, the entry of a definition has its label. -/
theorem label?_entryAt? : (c.entryAt? k h).bind Entry.label? = c.label? h := by
  cases hitem : c.items[h]? with
  | none => simp [entryAt?, label?, hitem]
  | some item => cases item <;> simp [entryAt?, label?, hitem, Entry.label?, meaningOf]

theorem labels_dictionary (hk : k ≤ c.items.length) : (c.state k).dictionary.labels = c.definitions k := by
  rw [dictionary_eq hk]
  show ((List.range k).reverse.filterMap (c.entryAt? k)).reverse.filterMap Entry.label? = _
  rw [List.filterMap_reverse, List.filterMap_filterMap, List.filterMap_reverse, List.reverse_reverse]
  simp only [label?_entryAt?, definitions]

theorem labels_eq (c : Compilation) :
    c.program.labels =
      ⟨0, "print_number"⟩ :: ⟨c.program.entryOffset, "_start"⟩ :: c.definitions c.items.length := by
  have h := c.finish_last
  rw [finish_eq_of_complete (complete_of_finish h)] at h
  obtain ⟨-, hentry, -, -, -, hlabels, -⟩ := build_ok h
  have hdictionary : c.last.dictionary.labels = c.definitions c.items.length := labels_dictionary (Nat.le_refl _)
  have hroutine : c.last.printNumber = 0 := c.printNumber_state (Nat.le_refl _)
  obtain ⟨log, hended⟩ := c.last.ended_eq
  rw [hlabels, ← hentry, hended, programLabels, hdictionary, hroutine]

/-- The names of the definitions are those of the headers, from first to last. -/
theorem map_name_definitions (c : Compilation) :
    (c.definitions c.items.length).map Label.name = (headersFrom 0 c.tokens).map Header.name := by
  have hfront : ∀ k ≤ c.items.length,
      (c.definitions k).map Label.name = ((c.items.take k).filterMap Item.header?).map Header.name := by
    intro k hk
    induction k with
    | zero => rfl
    | succ k ih =>
      have hitem := List.getElem?_eq_getElem hk
      rw [definitions_succ, List.map_append, ih (Nat.le_of_succ_le hk), List.take_add_one, hitem,
        List.filterMap_append, List.map_append, label?, hitem]
      cases c.items[k] <;> rfl
  rw [hfront _ (Nat.le_refl _), List.take_length, headersFrom_eq_filterMap]
  rfl

/-! ### Where labels are -/

theorem of_label?_eq_some {label : Label} (hlabel : c.label? h = some label) :
    c.IsDefinition h ∧ label.offset = c.offset (h + 1) := by
  unfold label? at hlabel
  split at hlabel
  · next colon name index hitem =>
    cases hlabel
    exact ⟨⟨colon, name, index, hitem⟩, rfl⟩
  · cases hlabel

theorem exists_of_mem_definitions {label : Label} (hmem : label ∈ c.definitions k) :
    ∃ h, c.IsDefinition h ∧ label.offset = c.offset (h + 1) := by
  obtain ⟨h, -, hlabel⟩ := List.mem_filterMap.mp hmem
  exact ⟨h, of_label?_eq_some hlabel⟩

theorem IsBody.offset_lt {e : Nat} (hb : c.IsBody h e) : c.offset (h + 1) < c.offset (e + 1) :=
  Nat.lt_of_le_of_lt (c.offset_mono hb.lt (Nat.le_of_lt hb.lt_length)) hb.placed_ret.1

theorem IsDefinition.offset_lt_offset {h' : Nat} (hh : c.IsDefinition h) (hh' : c.IsDefinition h') (hlt : h < h') :
    c.offset (h + 1) < c.offset (h' + 1) := by
  obtain ⟨e, hb⟩ := hh.exists_isBody
  have hmono : c.offset (e + 1) ≤ c.offset (h' + 1) :=
    c.offset_mono (Nat.succ_le_succ (Nat.le_of_lt (hb.lt_of_lt hh' hlt))) hh'.lt
  exact Nat.lt_of_lt_of_le hb.offset_lt hmono

/-- **The definitions stand one behind the other.** -/
theorem pairwise_definitions (c : Compilation) (k : Nat) :
    (c.definitions k).Pairwise fun a b => a.offset < b.offset := by
  refine List.Pairwise.filterMap c.label? (fun h h' hlt a ha b hb => ?_) List.pairwise_lt_range
  obtain ⟨hh, ha⟩ := of_label?_eq_some ha
  obtain ⟨hh', hb⟩ := of_label?_eq_some hb
  rw [ha, hb]
  exact hh.offset_lt_offset hh' hlt

theorem IsDefinition.offset_ne_entryOffset (hh : c.IsDefinition h) : c.program.entryOffset ≠ c.offset (h + 1) := by
  obtain ⟨e, hb⟩ := hh.exists_isBody
  intro hentry
  refine hb.not_inBody_entryOffset ?_
  rw [hentry]
  exact ⟨Int.le_refl _, Int.ofNat_lt.mpr hb.offset_lt⟩

theorem offset_pos (hk : k ≤ c.items.length) : 0 < c.offset k := by
  have hstart : codeSize printNumber = c.offset 0 := codeSize_blocks (Nat.zero_le _)
  have hsize : 0 < codeSize printNumber := by decide
  have hmono := c.offset_mono (Nat.zero_le k) hk
  omega

/-- **No two labels are at the same place.** -/
theorem nodup_labels (c : Compilation) : (c.program.labels.map Label.offset).Nodup := by
  obtain ⟨i, hi, hentry, -⟩ := c.exists_offset_eq_entryOffset
  have hstart : 0 < c.program.entryOffset := by
    rw [hentry]
    exact offset_pos hi
  have hdefinitions : ∀ label ∈ c.definitions c.items.length,
      0 < label.offset ∧ c.program.entryOffset ≠ label.offset := by
    intro label hmem
    obtain ⟨h, hh, hoffset⟩ := exists_of_mem_definitions hmem
    rw [hoffset]
    exact ⟨offset_pos hh.lt, hh.offset_ne_entryOffset⟩
  rw [c.labels_eq, List.map_cons, List.map_cons, List.nodup_cons, List.nodup_cons]
  refine ⟨?_, ?_, ?_⟩
  · rw [List.mem_cons, List.mem_map]
    rintro (hzero | ⟨label, hmem, hzero⟩)
    · exact Nat.ne_of_lt hstart hzero
    · exact Nat.ne_of_gt (hdefinitions label hmem).1 hzero
  · rw [List.mem_map]
    rintro ⟨label, hmem, hsame⟩
    exact (hdefinitions label hmem).2 hsame.symm
  · exact ((c.pairwise_definitions _).imp Nat.ne_of_lt).map _ fun _ _ hne => hne

/-- **Every label is in front of an instruction.** -/
theorem exists_placed_label {label : Label} (hmem : label ∈ c.program.labels) :
    ∃ i, Placed c.instructions label.offset [i] := by
  rw [c.labels_eq, List.mem_cons, List.mem_cons] at hmem
  rcases hmem with rfl | rfl | hmem
  · exact ⟨_, c.placed_printNumber.head⟩
  · obtain ⟨i, hi, hentry, -⟩ := c.exists_offset_eq_entryOffset
    rw [hentry]
    exact exists_placed_offset hi
  · obtain ⟨h, hh, hoffset⟩ := exists_of_mem_definitions hmem
    rw [hoffset]
    exact exists_placed_offset hh.lt

end Compilation

end ForthElf
