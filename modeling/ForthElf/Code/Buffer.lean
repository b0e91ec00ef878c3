import ForthElf.Error
import ForthElf.Machine.Bytes

/-!
# Code buffers

Code grows at its end only; the four bytes of a branch field may be overwritten later.

* `CodeBuffer.offset` — the number of bytes so far, where the next byte goes;
* `CodeBuffer.append` — adds bytes at the end;
* `CodeBuffer.patch site value` — overwrites the field at `site`;
* `CodeBuffer.patchRel32 site target` — makes the branch field at `site` lead to `target`.

A field holds the distance from its own end to the target, so both must lie within 2 GiB.
-/

namespace ForthElf

/-- Code under construction. -/
structure CodeBuffer where
  bytes : Array UInt8
deriving DecidableEq

/-- An offset as a signed 64-bit number. -/
def signedOffset (offset : Nat) : Int :=
  (BitVec.ofNat 64 offset).toInt

/-- The distance from the end of the field at `site` to `target`, if it fits the field. -/
def rel32 (site target : Nat) : Option (BitVec 32) :=
  let distance := signedOffset target - (signedOffset site + 4)
  if -0x80000000 ≤ distance ∧ distance < 0x80000000 then some (BitVec.ofInt 32 distance) else none

/-- Puts bytes in the place of those from `site` on. -/
def overwrite (bytes : Array UInt8) (site : Nat) : List UInt8 → Array UInt8
  | [] => bytes
  | b :: bs => overwrite (bytes.setIfInBounds site b) (site + 1) bs

@[simp] theorem size_overwrite (bytes : Array UInt8) (site : Nat) (field : List UInt8) :
    (overwrite bytes site field).size = bytes.size := by
  induction field generalizing bytes site with
  | nil => rfl
  | cons b bs ih => simp [overwrite, ih]

namespace CodeBuffer

def empty : CodeBuffer := ⟨#[]⟩

def offset (code : CodeBuffer) : Nat :=
  code.bytes.size

def append (code : CodeBuffer) (bytes : List UInt8) : CodeBuffer :=
  ⟨code.bytes ++ bytes.toArray⟩

/-- Overwrites the field of four bytes at `site`, which must be written already. -/
def patch (site : Nat) (value : BitVec 32) : EStateM Error CodeBuffer Unit := do
  if site + 4 ≤ (← get).offset then
    modify fun code => ⟨overwrite code.bytes site (littleEndian 4 value.toNat)⟩
  else
    throw (.patch site)

/-- Makes the branch field at `site` lead to `target`. -/
def patchRel32 (site target : Nat) : EStateM Error CodeBuffer Unit :=
  match rel32 site target with
  | some distance => patch site distance
  | none => throw (.patch site)

@[simp] theorem offset_empty : empty.offset = 0 := rfl

@[simp] theorem offset_append (code : CodeBuffer) (bytes : List UInt8) :
    (code.append bytes).offset = code.offset + bytes.length := by
  simp [append, offset]

@[simp] theorem append_nil (code : CodeBuffer) : code.append [] = code := by
  simp [append]

theorem append_append (code : CodeBuffer) (a b : List UInt8) :
    (code.append a).append b = code.append (a ++ b) := by
  simp [append, Array.append_assoc]

theorem patch_apply (site : Nat) (value : BitVec 32) (code : CodeBuffer) :
    patch site value code =
      if site + 4 ≤ code.offset then .ok () ⟨overwrite code.bytes site (littleEndian 4 value.toNat)⟩
      else .error (.patch site) code := by
  change (if site + 4 ≤ code.offset then _ else _ : EStateM Error CodeBuffer Unit) code = _
  split <;> rfl

theorem patchRel32_apply (site target : Nat) (code : CodeBuffer) :
    patchRel32 site target code =
      match rel32 site target with
      | some distance => patch site distance code
      | none => .error (.patch site) code := by
  unfold patchRel32
  cases rel32 site target <;> rfl

theorem offset_of_patch {code after : CodeBuffer} {site : Nat} {value : BitVec 32}
    (h : patch site value code = .ok () after) : after.offset = code.offset := by
  rw [patch_apply] at h
  split at h
  · cases h
    simp [offset]
  · cases h

/-- A patch that fails names its field and leaves the code as it is. -/
theorem patch_error {code after : CodeBuffer} {site : Nat} {value : BitVec 32} {error : Error}
    (h : patch site value code = .error error after) : error = .patch site ∧ after = code := by
  rw [patch_apply] at h
  split at h <;> cases h
  exact ⟨rfl, rfl⟩

theorem patchRel32_error {code after : CodeBuffer} {site target : Nat} {error : Error}
    (h : patchRel32 site target code = .error error after) : error = .patch site ∧ after = code := by
  rw [patchRel32_apply] at h
  split at h
  · exact patch_error h
  · cases h
    exact ⟨rfl, rfl⟩

end CodeBuffer

end ForthElf
