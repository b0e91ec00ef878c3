import ForthElf.Proofs.Decoding
import ForthElf.Proofs.Links

/-!
# Encoding and decoding agree

* `CodeBuffer.decodeAt code offset` — the instruction at an offset of code, with the bytes behind it;
* `LeadsTo next d target` — a displacement in front of the offset `next` leads to `target`, wherever the code is loaded;
* `Instruction.eq_of_prefix` — **no encoding starts another one**;
* `decodeAt_of_patchRel32`, `decodeAt_of_branchTo` — **branches decode to the target that they were patched to or
  given**;
* `encoding_decoding_agree` — **reading back**, for all instructions and in all surroundings.
-/

namespace ForthElf

/-! ### Instructions -/

theorem Instruction.eq_of_encode_append {i j : Instruction} (hi : i.Encodable) (hj : j.Encodable)
    {restᵢ restⱼ : List UInt8} (h : i.encode ++ restᵢ = j.encode ++ restⱼ) : i = j ∧ restᵢ = restⱼ := by
  have hdecode := decode_encode hi restᵢ
  rw [h, decode_encode hj restⱼ, Option.some.injEq, Prod.mk.injEq] at hdecode
  exact ⟨hdecode.1.symm, hdecode.2.symm⟩

/-- **No encoding starts another one.** -/
theorem Instruction.eq_of_prefix {i j : Instruction} (hi : i.Encodable) (hj : j.Encodable)
    (h : i.encode <+: j.encode) : i = j := by
  obtain ⟨rest, hrest⟩ := h
  rw [← List.append_nil j.encode] at hrest
  exact (Instruction.eq_of_encode_append hi hj hrest).1

theorem Instruction.encodable_branch (kind : Branch) (d : BitVec 32) : (Instruction.branch kind d).Encodable := by
  intro r hr
  cases hr

/-! ### Code -/

/-- The instruction at an offset of code and the bytes behind it. -/
def CodeBuffer.decodeAt (code : CodeBuffer) (offset : Nat) : Decoded :=
  decode (code.bytes.toList.drop offset)

namespace CodeBuffer

variable {code after : CodeBuffer} {front back : List UInt8} {i : Instruction}

theorem decodeAt_eq (h : i.Encodable) (hcode : code.bytes.toList = front ++ i.encode ++ back) :
    code.decodeAt front.length = some (i, back) := by
  rw [decodeAt, hcode, List.append_assoc, List.drop_left, decode_encode h]

theorem toList_append (code : CodeBuffer) (bytes : List UInt8) :
    (code.append bytes).bytes.toList = code.bytes.toList ++ bytes := by
  rw [append, Array.toList_append]

theorem length_toList (code : CodeBuffer) : code.bytes.toList.length = code.offset := by
  rw [offset, Array.length_toList]

theorem decodeAt_append (h : i.Encodable) (code : CodeBuffer) (rest : List UInt8) :
    ((code.append i.encode).append rest).decodeAt code.offset = some (i, rest) := by
  rw [← length_toList]
  exact decodeAt_eq h (by rw [toList_append, toList_append])

end CodeBuffer

/-! ### Branches -/

/-- The displacement `d` of an instruction that ends at the offset `next` leads to the offset `target`, at whatever
address the code is loaded. -/
def LeadsTo (next : Nat) (d : BitVec 32) (target : Nat) : Prop :=
  ∀ base : UInt64, (base + UInt64.ofNat next).toBitVec + d.signExtend 64 = (base + UInt64.ofNat target).toBitVec

theorem leadsTo_of_rel32 {site target : Nat} {d : BitVec 32} (h : rel32 site target = some d) :
    LeadsTo (site + 4) d target := by
  simp only [rel32] at h
  split at h
  case isFalse => cases h
  case isTrue hbounds =>
    obtain rfl := Option.some.inj h
    have hint : (BitVec.ofInt 32 (signedOffset target - (signedOffset site + 4))).toInt =
        signedOffset target - (signedOffset site + 4) := by
      rw [BitVec.toInt_ofInt]
      exact Int.bmod_eq_of_le (by omega) (by omega)
    have hofNat : ∀ offset, BitVec.ofInt 64 (signedOffset offset) = BitVec.ofNat 64 offset := fun offset => by
      rw [signedOffset, BitVec.ofInt_toInt]
    have hnext : BitVec.ofInt 64 (signedOffset site + 4) = BitVec.ofNat 64 (site + 4) := by
      rw [BitVec.ofInt_add, hofNat, ← BitVec.ofNat_add_ofNat]
      rfl
    intro base
    rw [BitVec.signExtend, hint, Int.sub_eq_add_neg, BitVec.ofInt_add, BitVec.ofInt_neg, hofNat, hnext]
    simp only [UInt64.toBitVec_add, UInt64.toBitVec_ofNat']
    rw [BitVec.add_assoc, BitVec.add_comm (BitVec.ofNat 64 target), ← BitVec.add_assoc (BitVec.ofNat 64 (site + 4)),
      ← BitVec.sub_eq_add_neg, BitVec.sub_self, BitVec.zero_add]

theorem exists_rel32_of_patchRel32 {code after : CodeBuffer} {site target : Nat}
    (h : CodeBuffer.patchRel32 site target code = .ok () after) : rel32 site target = some (distance site target) := by
  rw [CodeBuffer.patchRel32_apply] at h
  split at h
  case h_1 d hd => rw [hd, rel32_eq_some hd]
  case h_2 => cases h

/-- Within 2 GiB every patch of a field that is written succeeds. -/
theorem exists_patchRel32 {code : CodeBuffer} {site target : Nat} (hsite : site + 4 ≤ code.offset)
    (hcode : code.offset ≤ 2 ^ 31) (htarget : target < 2 ^ 31) :
    ∃ after, CodeBuffer.patchRel32 site target code = .ok () after := by
  have hrel : rel32 site target = some (distance site target) := by
    simp only [rel32, distance]
    rw [signedOffset_eq_self (by omega), signedOffset_eq_self (by omega), if_pos (by omega)]
  rw [CodeBuffer.patchRel32_apply, hrel]
  exact ⟨_, (CodeBuffer.patch_apply ..).trans (if_pos hsite)⟩

section Patched

variable {code after : CodeBuffer} {front back : List UInt8} {kind : Branch} {d : BitVec 32} {target : Nat}

/-- **A branch decodes to the target that it was patched to last,** whatever stands around it; nothing else changes. -/
theorem decodeAt_of_patchRel32 (hcode : code.bytes.toList = front ++ (Instruction.branch kind d).encode ++ back)
    (h : CodeBuffer.patchRel32 (front.length + kind.opcode.length) target code = .ok () after) :
    ∃ d', after.bytes.toList = front ++ (Instruction.branch kind d').encode ++ back ∧
      after.decodeAt front.length = some (.branch kind d', back) ∧
      LeadsTo (front.length + kind.opcode.length + 4) d' target := by
  have hafter := CodeBuffer.toList_patchRel32 hcode rfl h
  exact ⟨_, hafter, CodeBuffer.decodeAt_eq (Instruction.encodable_branch kind _) hafter,
    leadsTo_of_rel32 (exists_rel32_of_patchRel32 h)⟩

end Patched

/-- A branch with a target is a placeholder and a patch. -/
theorem patchRel32_of_branchTo {e e' : Emitter} {kind : Branch} {target : Nat}
    (h : Emitter.branchTo kind target e = .ok () e') :
    CodeBuffer.patchRel32 (e.offset + kind.opcode.length) target (e.placeholder kind).code = .ok () e'.code := by
  have hpatch : Emitter.patch (e.branchSite kind) target (e.placeholder kind) = .ok () e' := h
  unfold Emitter.patch at hpatch
  split at hpatch
  case h_1 _ code hcode =>
    cases hpatch
    exact hcode
  case h_2 => cases hpatch

/-- **A branch decodes to the target that it was given.** -/
theorem decodeAt_of_branchTo {e e' : Emitter} {kind : Branch} {target : Nat}
    (h : Emitter.branchTo kind target e = .ok () e') (rest : List UInt8) :
    ∃ d, (e'.code.append rest).decodeAt e.offset = some (.branch kind d, rest) ∧
      LeadsTo (e.offset + kind.opcode.length + 4) d target := by
  have hpatch := patchRel32_of_branchTo h
  have hcode : (e.placeholder kind).code.bytes.toList =
      e.code.bytes.toList ++ (Instruction.branch kind 0).encode ++ [] := by
    rw [List.append_nil]
    exact CodeBuffer.toList_append ..
  have hlength : e.code.bytes.toList.length = e.offset := CodeBuffer.length_toList e.code
  rw [← hlength] at hpatch ⊢
  obtain ⟨d, hafter, -, hleads⟩ := decodeAt_of_patchRel32 hcode hpatch
  refine ⟨d, CodeBuffer.decodeAt_eq (Instruction.encodable_branch kind d) ?_, hleads⟩
  rw [CodeBuffer.toList_append, hafter, List.append_nil]

theorem exists_branchTo {e : Emitter} {kind : Branch} {target : Nat} (he : e.offset + kind.opcode.length + 4 ≤ 2 ^ 31)
    (htarget : target < 2 ^ 31) : ∃ e', Emitter.branchTo kind target e = .ok () e' := by
  have hoffset : (e.placeholder kind).code.offset = e.offset + (kind.opcode.length + 4) := by
    rw [← size_branch kind 0]
    exact CodeBuffer.offset_append ..
  have hsite : e.branchSite kind + 4 ≤ (e.placeholder kind).code.offset := by
    rw [hoffset, Emitter.branchSite]
    omega
  obtain ⟨code, hcode⟩ := exists_patchRel32 hsite (by omega) htarget
  refine ⟨{ e.placeholder kind with code }, ?_⟩
  show Emitter.patch (e.branchSite kind) target (e.placeholder kind) = _
  rw [Emitter.patch, hcode]

/-! ### Reading back -/

/-- **Encoding and decoding agree.** An instruction whose registers exist is read back from code to which it was
added, whatever stands before and behind it, and listings show it as a piece of its own; no encoding of another
instruction starts with it.  A branch is read back with the target that it was given, or that its field was patched to
later; within 2 GiB every target can be given. -/
theorem encoding_decoding_agree {i : Instruction} (hi : i.Encodable) :
    (∀ (e : Emitter) (rest : List UInt8), ((e.emit i).code.append rest).decodeAt e.offset = some (i, rest)) ∧
    (∀ rest, decodeAll (i.encode ++ rest) = ⟨i.encode, some i⟩ :: decodeAll rest) ∧
    (∀ j : Instruction, j.Encodable → (i.encode <+: j.encode ↔ i = j)) ∧
    (∀ (e e' : Emitter) (kind : Branch) (target : Nat), Emitter.branchTo kind target e = .ok () e' →
      ∀ rest, ∃ d, (e'.code.append rest).decodeAt e.offset = some (.branch kind d, rest) ∧
        LeadsTo (e.offset + (Instruction.branch kind d).size) d target) ∧
    (∀ (code after : CodeBuffer) (front back : List UInt8) (kind : Branch) (d : BitVec 32) (target : Nat),
      code.bytes.toList = front ++ (Instruction.branch kind d).encode ++ back →
      CodeBuffer.patchRel32 (front.length + kind.opcode.length) target code = .ok () after →
      ∃ d', after.bytes.toList = front ++ (Instruction.branch kind d').encode ++ back ∧
        after.decodeAt front.length = some (.branch kind d', back) ∧
        LeadsTo (front.length + (Instruction.branch kind d').size) d' target) ∧
    (∀ (e : Emitter) (kind : Branch) (target : Nat), e.offset + (Instruction.branch kind 0).size ≤ 2 ^ 31 →
      target < 2 ^ 31 → ∃ e', Emitter.branchTo kind target e = .ok () e') := by
  simp only [size_branch, ← Nat.add_assoc]
  refine ⟨fun e rest => ?_, decodeAll_encode hi, fun j hj => ⟨Instruction.eq_of_prefix hi hj, ?_⟩,
    fun e e' kind target => decodeAt_of_branchTo, fun code after front back kind d target => decodeAt_of_patchRel32,
    fun e kind target => exists_branchTo⟩
  · exact CodeBuffer.decodeAt_append hi e.code rest
  · rintro rfl
    exact List.prefix_rfl

/-- A byte register that needs a prefix, a base that needs a second operand byte, and a displacement of four bytes. -/
theorem encoding_decoding_agree_storeByte :
    let i : Instruction := .storeByte ⟨⟨12⟩, 0x80⟩ ⟨6⟩
    i.Encodable ∧ i.encode = [0x41, 0x88, 0xB4, 0x24, 0x80, 0, 0, 0] ∧
      (∀ rest, decodeAll (i.encode ++ rest) = ⟨i.encode, some i⟩ :: decodeAll rest) ∧
      ∀ j : Instruction, j.Encodable → (i.encode <+: j.encode ↔ i = j) := by
  have hi : (Instruction.storeByte ⟨⟨12⟩, 0x80⟩ ⟨6⟩).Encodable := by decide
  have hagree := encoding_decoding_agree hi
  exact ⟨hi, by decide, hagree.2.1, hagree.2.2.1⟩

end ForthElf
