import ForthElf.Proofs.Encoding

/-!
# Edits of code

Code is built by edits: bytes and numbers are added at its end, and fields of four bytes that are already there are
overwritten.  An edit that fails is passed over, and the next one goes on with the same code.

* `byteOf value k` — byte `k` of a number, by its bits;
* `Edit`, `Edit.perform` — an edit, and what it does to code;
* `CodeBuffer.afterEdits`, `CodeBuffer.successes` — the code behind a sequence of edits, and those that succeed;
* `overlaid patches bytes` — bytes overwritten by patches, byte by byte and in order;
* `CodeBuffer.toList_afterEdits` — **code is what was added, overwritten by the patches that succeeded**;
* `edits_exact` — **edits are exact**, with the conditions under which a patch succeeds.
-/

namespace ForthElf

/-! ### Bytes of numbers -/

/-- Byte `k` of a number, where byte 0 is the least significant one. -/
def byteOf {w : Nat} (value : BitVec w) (k : Nat) : UInt8 :=
  ⟨value.extractLsb' (8 * k) 8⟩

theorem byteOf_eq {w : Nat} (value : BitVec w) (k : Nat) : byteOf value k = UInt8.ofNat (value.toNat / 256 ^ k) := by
  apply UInt8.toNat_inj.mp
  rw [byteOf, ← UInt8.toNat_toBitVec, BitVec.extractLsb'_toNat, Nat.shiftRight_eq_div_pow, Nat.pow_mul,
    UInt8.toNat_ofNat']

theorem littleEndian_eq_map (n v : Nat) :
    littleEndian n v = (List.range n).map fun k => UInt8.ofNat (v / 256 ^ k) := by
  induction n generalizing v with
  | zero => rfl
  | succ n ih =>
    rw [littleEndian, ih, List.range_succ_eq_map]
    simp [Nat.div_div_eq_div_mul, Nat.pow_succ', Function.comp_def]

theorem littleEndian_eq_map_byteOf {w : Nat} (n : Nat) (value : BitVec w) :
    littleEndian n value.toNat = (List.range n).map (byteOf value) := by
  rw [littleEndian_eq_map]
  exact List.map_congr_left fun k _ => (byteOf_eq value k).symm

theorem getElem?_bytes32 (value : BitVec 32) {k : Nat} (hk : k < 4) : (bytes32 value)[k]? = some (byteOf value k) := by
  rw [bytes32, littleEndian_eq_map_byteOf, List.getElem?_map, List.getElem?_range hk, Option.map_some]

/-! ### Edits -/

/-- A change of code: bytes or a number of `n` bytes, signed or not, added at the end, or a field of four bytes
overwritten by a value or by the displacement that leads from it to a target. -/
inductive Edit where
  | bytes (values : List UInt8)
  | number (n : Nat) (value : BitVec (8 * n))
  | patch (site : Nat) (value : BitVec 32)
  | patchRel32 (site target : Nat)

/-- A field of four bytes and what is written over it. -/
structure Patch where
  site : Nat
  value : BitVec 32
deriving DecidableEq

/-- The distance from the end of the field at `site` to `target` is a signed number of 32 bits. -/
def FieldReaches (site target : Nat) : Prop :=
  -2 ^ 31 ≤ (target : Int) - (site + 4) ∧ (target : Int) - (site + 4) < 2 ^ 31

instance (site target : Nat) : Decidable (FieldReaches site target) :=
  inferInstanceAs (Decidable (_ ∧ _))

namespace Edit

def perform : Edit → EStateM Error CodeBuffer Unit
  | bytes values => modify (·.append values)
  | number n value => modify (·.append (littleEndian n value.toNat))
  | patch site value => CodeBuffer.patch site value
  | patchRel32 site target => CodeBuffer.patchRel32 site target

def added : Edit → List UInt8
  | bytes values => values
  | number n value => (List.range n).map (byteOf value)
  | patch .. => []
  | patchRel32 .. => []

/-- What an edit writes over code if it succeeds. -/
def patch? : Edit → Option Patch
  | bytes _ => none
  | number .. => none
  | patch site value => some ⟨site, value⟩
  | patchRel32 site target => some ⟨site, BitVec.ofInt 32 (target - (site + 4))⟩

/-- The sites and targets of an edit are below 2^62. -/
def Near : Edit → Prop
  | bytes _ => True
  | number .. => True
  | patch site _ => site < 2 ^ 62
  | patchRel32 site target => site < 2 ^ 62 ∧ target < 2 ^ 62

instance : DecidablePred Near
  | bytes _ => inferInstanceAs (Decidable True)
  | number .. => inferInstanceAs (Decidable True)
  | patch .. => inferInstanceAs (Decidable (_ < _))
  | patchRel32 .. => inferInstanceAs (Decidable (_ ∧ _))

end Edit

namespace CodeBuffer

def afterEdits (code : CodeBuffer) : List Edit → CodeBuffer
  | [] => code
  | edit :: edits =>
    match edit.perform code with
    | .ok _ next => next.afterEdits edits
    | .error _ next => next.afterEdits edits

def successes (code : CodeBuffer) : List Edit → List Edit
  | [] => []
  | edit :: edits =>
    match edit.perform code with
    | .ok _ next => edit :: next.successes edits
    | .error _ next => next.successes edits

end CodeBuffer

/-! ### Bytes overwritten by patches -/

/-- The byte at offset `i` once a patch is written over it. -/
def Patch.over (i : Nat) (byte : UInt8) (p : Patch) : UInt8 :=
  if p.site ≤ i ∧ i < p.site + 4 then byteOf p.value (i - p.site) else byte

/-- Bytes overwritten by patches in order. -/
def overlaid (patches : List Patch) (bytes : List UInt8) : List UInt8 :=
  bytes.mapIdx fun i byte => patches.foldl (Patch.over i) byte

@[simp] theorem length_overlaid (patches : List Patch) (bytes : List UInt8) :
    (overlaid patches bytes).length = bytes.length :=
  List.length_mapIdx

theorem getElem?_overlaid (patches : List Patch) (bytes : List UInt8) (i : Nat) :
    (overlaid patches bytes)[i]? = bytes[i]?.map fun byte => patches.foldl (Patch.over i) byte :=
  List.getElem?_mapIdx

@[simp] theorem overlaid_nil (bytes : List UInt8) : overlaid [] bytes = bytes := by
  apply List.ext_getElem?
  simp [getElem?_overlaid]

theorem overlaid_append (first later : List Patch) (bytes : List UInt8) :
    overlaid (first ++ later) bytes = overlaid later (overlaid first bytes) := by
  apply List.ext_getElem?
  intro i
  rw [getElem?_overlaid, getElem?_overlaid, getElem?_overlaid, Option.map_map]
  simp only [List.foldl_append, Function.comp_def]

theorem foldl_over_of_outside {patches : List Patch} {i : Nat} (h : ∀ p ∈ patches, p.site + 4 ≤ i) (byte : UInt8) :
    patches.foldl (Patch.over i) byte = byte := by
  induction patches with
  | nil => rfl
  | cons p patches ih =>
    have hp := h p (List.mem_cons_self ..)
    rw [List.foldl_cons, Patch.over, if_neg (by omega)]
    exact ih fun q hq => h q (List.mem_cons_of_mem _ hq)

/-- Patches do not touch what is added later. -/
theorem overlaid_append_right {patches : List Patch} {bytes : List UInt8} (h : ∀ p ∈ patches, p.site + 4 ≤ bytes.length)
    (more : List UInt8) : overlaid patches (bytes ++ more) = overlaid patches bytes ++ more := by
  apply List.ext_getElem?
  intro i
  rw [getElem?_overlaid]
  rcases Nat.lt_or_ge i bytes.length with hi | hi
  · rw [List.getElem?_append_left hi, List.getElem?_append_left (by simpa using hi), getElem?_overlaid]
  · have hsame : ∀ byte, patches.foldl (Patch.over i) byte = byte :=
      foldl_over_of_outside fun p hp => Nat.le_trans (h p hp) hi
    rw [List.getElem?_append_right hi, List.getElem?_append_right (by simpa using hi), length_overlaid]
    simp [hsame]

/-! ### Fields -/

theorem getElem?_overwrite {bytes : Array UInt8} {site : Nat} {field : List UInt8}
    (h : site + field.length ≤ bytes.size) (i : Nat) :
    (overwrite bytes site field)[i]? =
      if site ≤ i ∧ i < site + field.length then field[i - site]? else bytes[i]? := by
  induction field generalizing bytes site with
  | nil => rw [overwrite, if_neg (by simp)]
  | cons b field ih =>
    rw [List.length_cons] at h
    rw [overwrite, ih (by rw [Array.size_setIfInBounds]; omega), Array.getElem?_setIfInBounds, List.length_cons]
    -- The first byte is written at `site` and not touched again; the others are written behind it.
    rcases Nat.lt_trichotomy i site with hi | rfl | hi
    · rw [if_neg (by omega), if_neg (by omega), if_neg (by omega)]
    · rw [if_neg (by omega), if_pos rfl, if_pos (by omega), if_pos (by omega), Nat.sub_self]
      rfl
    · obtain ⟨k, rfl⟩ := Nat.exists_eq_add_of_lt hi
      rw [if_neg (by omega : site ≠ site + k + 1), show site + k + 1 - site = k + 1 by omega,
        show site + k + 1 - (site + 1) = k by omega, List.getElem?_cons_succ]
      by_cases hk : k < field.length
      · rw [if_pos (by omega), if_pos (by omega)]
      · rw [if_neg (by omega), if_neg (by omega)]

namespace CodeBuffer

variable {code after : CodeBuffer} {site : Nat} {value : BitVec 32}

theorem patch_eq_ok_iff : patch site value code = .ok () after ↔
    site + 4 ≤ code.offset ∧ after = ⟨overwrite code.bytes site (bytes32 value)⟩ := by
  rw [patch_apply]
  split
  case isTrue h => simp [h, bytes32, eq_comm]
  case isFalse h => simp [h]

/-- **A patch writes its field**: byte by byte, and nothing else. -/
theorem toList_of_patch (h : patch site value code = .ok () after) :
    after.bytes.toList = overlaid [⟨site, value⟩] code.bytes.toList := by
  obtain ⟨hsite, rfl⟩ := patch_eq_ok_iff.mp h
  have hfield : site + (bytes32 value).length ≤ code.bytes.size := by rwa [length_bytes32]
  apply List.ext_getElem?
  intro i
  rw [getElem?_overlaid, Array.getElem?_toList, Array.getElem?_toList, getElem?_overwrite hfield, length_bytes32]
  simp only [List.foldl_cons, List.foldl_nil, Patch.over]
  by_cases hi : site ≤ i ∧ i < site + 4
  · have hwritten : i < code.bytes.size := Nat.lt_of_lt_of_le hi.2 hsite
    rw [if_pos hi, getElem?_bytes32 value (by omega), Array.getElem?_eq_getElem hwritten, Option.map_some, if_pos hi]
  · simp only [if_neg hi, Option.map_id']

theorem take32_of_patch (h : patch site value code = .ok () after) :
    take32 (after.bytes.toList.drop site) = some (value, code.bytes.toList.drop (site + 4)) := by
  obtain ⟨hsite, rfl⟩ := patch_eq_ok_iff.mp h
  rw [← length_toList] at hsite
  have hfront : (code.bytes.toList.take site).length = site := by
    rw [List.length_take]
    omega
  have hold : (bytes32 value).length = ((code.bytes.toList.drop site).take 4).length := by
    rw [length_bytes32, List.length_take, List.length_drop]
    omega
  have hsplit : code.bytes.toList =
      code.bytes.toList.take site ++ (code.bytes.toList.drop site).take 4 ++ code.bytes.toList.drop (site + 4) := by
    rw [List.append_assoc, ← List.drop_drop, List.take_append_drop, List.take_append_drop]
  have hafter := toList_overwrite hsplit hold
  rw [hfront] at hafter
  rw [hafter, List.append_assoc, List.drop_left' hfront, take32_bytes32]

theorem getElem?_of_patch (h : patch site value code = .ok () after) {i : Nat} (hi : i < site ∨ site + 4 ≤ i) :
    after.bytes[i]? = code.bytes[i]? := by
  obtain ⟨hsite, rfl⟩ := patch_eq_ok_iff.mp h
  rw [getElem?_overwrite (by rwa [length_bytes32]), length_bytes32, if_neg (by omega)]

end CodeBuffer

/-! ### Displacements -/

section Near

variable {site target : Nat}

/-- For near offsets a displacement is a distance. -/
theorem distance_eq_ofInt (hsite : site < 2 ^ 62) (htarget : target < 2 ^ 62) :
    distance site target = BitVec.ofInt 32 (target - (site + 4)) := by
  rw [distance, signedOffset_eq_self (by omega), signedOffset_eq_self (by omega)]

theorem rel32_eq_ite (hsite : site < 2 ^ 62) (htarget : target < 2 ^ 62) :
    rel32 site target = if FieldReaches site target then some (distance site target) else none := by
  rw [rel32, distance, signedOffset_eq_self (by omega), signedOffset_eq_self (by omega)]
  rfl

/-- A displacement that fits its field leads from the end of the field to the target. -/
theorem toInt_distance_of_fieldReaches (hsite : site < 2 ^ 62) (htarget : target < 2 ^ 62)
    (h : FieldReaches site target) : (distance site target).toInt = target - (site + 4) := by
  rw [distance_eq_ofInt hsite htarget, BitVec.toInt_ofInt]
  obtain ⟨hlow, hhigh⟩ := h
  exact Int.bmod_eq_of_le (by omega) (by omega)

theorem CodeBuffer.patchRel32_eq_ok_iff {code after : CodeBuffer} (hsite : site < 2 ^ 62) (htarget : target < 2 ^ 62) :
    patchRel32 site target code = .ok () after ↔
      FieldReaches site target ∧ patch site (distance site target) code = .ok () after := by
  rw [patchRel32_apply, rel32_eq_ite hsite htarget]
  by_cases h : FieldReaches site target <;> simp [h]

end Near

/-! ### One edit -/

namespace Edit

variable {edit : Edit} {code after : CodeBuffer} {error : Error}

/-- **An edit that succeeds** adds its bytes and writes its patch over code that is there already. -/
theorem perform_ok (hnear : edit.Near) (h : edit.perform code = .ok () after) :
    after.bytes.toList = overlaid edit.patch?.toList (code.bytes.toList ++ edit.added) ∧
      ∀ p ∈ edit.patch?.toList, p.site + 4 ≤ code.offset := by
  cases edit with
  | bytes values =>
    cases h
    exact ⟨by simp [patch?, added, CodeBuffer.toList_append], by simp [patch?]⟩
  | number n value =>
    cases h
    exact ⟨by simp [patch?, added, CodeBuffer.toList_append, littleEndian_eq_map_byteOf], by simp [patch?]⟩
  | patch site value =>
    have hpatch : CodeBuffer.patch site value code = .ok () after := h
    refine ⟨?_, by simpa [patch?] using (CodeBuffer.patch_eq_ok_iff.mp hpatch).1⟩
    rw [CodeBuffer.toList_of_patch hpatch, added, List.append_nil]
    rfl
  | patchRel32 site target =>
    have hpatch := CodeBuffer.patch_of_patchRel32 h
    refine ⟨?_, by simpa [patch?] using (CodeBuffer.patch_eq_ok_iff.mp hpatch).1⟩
    rw [CodeBuffer.toList_of_patch hpatch, distance_eq_ofInt hnear.1 hnear.2, added, List.append_nil]
    rfl

/-- **An edit that fails** is a patch, and leaves the code as it is. -/
theorem perform_error (h : edit.perform code = .error error after) : after = code ∧ edit.added = [] := by
  cases edit with
  | bytes values => cases h
  | number n value => cases h
  | patch site value => exact ⟨(CodeBuffer.patch_error h).2, rfl⟩
  | patchRel32 site target => exact ⟨(CodeBuffer.patchRel32_error h).2, rfl⟩

end Edit

/-! ### Sequences of edits -/

namespace CodeBuffer

/-- **Code is what was added, overwritten by the patches that succeeded,** in order. -/
theorem toList_afterEdits {edits : List Edit} (hnear : ∀ edit ∈ edits, edit.Near) (code : CodeBuffer) :
    (code.afterEdits edits).bytes.toList =
      overlaid ((code.successes edits).filterMap Edit.patch?) (code.bytes.toList ++ edits.flatMap Edit.added) := by
  induction edits generalizing code with
  | nil => simp [afterEdits, successes]
  | cons edit edits ih =>
    have hrest := ih fun e he => hnear e (List.mem_cons_of_mem _ he)
    rw [afterEdits, successes, List.flatMap_cons]
    cases hedit : edit.perform code with
    | ok _ next =>
      obtain ⟨hnext, hinside⟩ := Edit.perform_ok (hnear edit (List.mem_cons_self ..)) hedit
      -- What comes later is added behind the patch of this edit.
      have hlater : overlaid edit.patch?.toList (code.bytes.toList ++ edit.added ++ edits.flatMap Edit.added) =
          overlaid edit.patch?.toList (code.bytes.toList ++ edit.added) ++ edits.flatMap Edit.added := by
        refine overlaid_append_right (fun p hp => ?_) _
        have hfield := hinside p hp
        rw [List.length_append, length_toList]
        omega
      have hpatches : (edit :: next.successes edits).filterMap Edit.patch? =
          edit.patch?.toList ++ (next.successes edits).filterMap Edit.patch? := by
        rw [List.filterMap_cons]
        cases edit.patch? <;> rfl
      dsimp only
      rw [hrest next, hnext, hpatches, overlaid_append, ← hlater, List.append_assoc]
    | error _ next =>
      obtain ⟨rfl, hadded⟩ := Edit.perform_error hedit
      dsimp only
      rw [hrest next, hadded, List.nil_append]

theorem offset_afterEdits {edits : List Edit} (hnear : ∀ edit ∈ edits, edit.Near) (code : CodeBuffer) :
    (code.afterEdits edits).offset = code.offset + (edits.flatMap Edit.added).length := by
  rw [← length_toList, toList_afterEdits hnear, length_overlaid, List.length_append, length_toList]

/-- Edits that fail leave no trace. -/
theorem afterEdits_successes (code : CodeBuffer) (edits : List Edit) :
    code.afterEdits (code.successes edits) = code.afterEdits edits := by
  induction edits generalizing code with
  | nil => rfl
  | cons edit edits ih =>
    rw [successes, afterEdits]
    cases hedit : edit.perform code with
    | ok _ next =>
      dsimp only
      rw [afterEdits, hedit]
      exact ih next
    | error _ next =>
      obtain ⟨rfl, -⟩ := Edit.perform_error hedit
      exact ih next

end CodeBuffer

/-- **Edits are exact.** Behind every sequence of edits the code is as long as the bytes that were added; it is these
bytes, overwritten by the patches that succeeded.  The next patch succeeds if its field is written and, for a branch
field, reaches the target; the field then leads there, and no other byte changes.  A patch that fails changes nothing,
so that the sequence without those that fail gives the same code. -/
theorem edits_exact {edits : List Edit} (hnear : ∀ edit ∈ edits, edit.Near) :
    let code := CodeBuffer.empty.afterEdits edits
    code.offset = (edits.flatMap Edit.added).length ∧
    code.bytes.toList =
      overlaid ((CodeBuffer.empty.successes edits).filterMap Edit.patch?) (edits.flatMap Edit.added) ∧
    (∀ site value, (∃ after, (Edit.patch site value).perform code = .ok () after) ↔ site + 4 ≤ code.offset) ∧
    (∀ site target, site < 2 ^ 62 → target < 2 ^ 62 →
      ((∃ after, (Edit.patchRel32 site target).perform code = .ok () after) ↔
        site + 4 ≤ code.offset ∧ FieldReaches site target) ∧
      ∀ after, (Edit.patchRel32 site target).perform code = .ok () after →
        (∃ d rest, take32 (after.bytes.toList.drop site) = some (d, rest) ∧ (site : Int) + 4 + d.toInt = target) ∧
        ∀ i, i < site ∨ site + 4 ≤ i → after.bytes[i]? = code.bytes[i]?) ∧
    (∀ (edit : Edit) error after, edit.perform code = .error error after → after = code) ∧
    CodeBuffer.empty.afterEdits (CodeBuffer.empty.successes edits) = code := by
  intro code
  refine ⟨?_, CodeBuffer.toList_afterEdits hnear _, fun site value => ?_, fun site target hsite htarget => ⟨?_, ?_⟩,
    fun edit error after h => (Edit.perform_error h).1, CodeBuffer.afterEdits_successes _ edits⟩
  · rw [CodeBuffer.offset_afterEdits hnear, CodeBuffer.offset_empty, Nat.zero_add]
  · simp only [Edit.perform, CodeBuffer.patch_eq_ok_iff, exists_and_left, exists_eq, and_true]
  · simp only [Edit.perform, CodeBuffer.patchRel32_eq_ok_iff hsite htarget, CodeBuffer.patch_eq_ok_iff, exists_and_left,
      exists_eq, and_true]
    exact and_comm
  · intro after h
    obtain ⟨hreaches, hpatch⟩ := (CodeBuffer.patchRel32_eq_ok_iff hsite htarget).mp h
    refine ⟨⟨_, _, CodeBuffer.take32_of_patch hpatch, ?_⟩, fun i => CodeBuffer.getElem?_of_patch hpatch⟩
    rw [toInt_distance_of_fieldReaches hsite htarget hreaches]
    omega

/-- A backward branch, a patch across its field, and a field at the end of the code with the farthest target that it
reaches; one byte farther, or one byte behind, the patch fails. -/
theorem edits_exact_overlapping :
    let edits : List Edit := [.number 1 0xE9, .number 4 0, .bytes [0x90], .patchRel32 1 0,
      .number 8 0x1122334455667788, .patch 3 5, .patchRel32 10 (2 ^ 31 + 13), .patchRel32 10 (2 ^ 31 + 14),
      .patchRel32 11 0]
    (∀ edit ∈ edits, edit.Near) ∧
    (CodeBuffer.empty.successes edits).filterMap Edit.patch? = [⟨1, -5⟩, ⟨3, 5⟩, ⟨10, 0x7FFFFFFF⟩] ∧
    (CodeBuffer.empty.afterEdits edits).bytes.toList =
      [0xE9, 0xFB, 0xFF, 5, 0, 0, 0, 0x77, 0x66, 0x55, 0xFF, 0xFF, 0xFF, 0x7F] ∧
    ¬ ∃ after, (Edit.patchRel32 11 0).perform (CodeBuffer.empty.afterEdits edits) = .ok () after := by
  intro edits
  have hnear : ∀ edit ∈ edits, edit.Near := by decide
  have hpatches : (CodeBuffer.empty.successes edits).filterMap Edit.patch? =
      [⟨1, -5⟩, ⟨3, 5⟩, ⟨10, 0x7FFFFFFF⟩] := by decide +kernel
  have hadded : edits.flatMap Edit.added =
      [0xE9, 0, 0, 0, 0, 0x90, 0x88, 0x77, 0x66, 0x55, 0x44, 0x33, 0x22, 0x11] := by decide +kernel
  obtain ⟨hoffset, hbytes, -, hbranch, -⟩ := edits_exact hnear
  refine ⟨hnear, hpatches, ?_, ?_⟩
  · rw [hbytes, hpatches, hadded]
    decide +kernel
  · rw [(hbranch 11 0 (by decide) (by decide)).1, hoffset, hadded]
    decide

end ForthElf
