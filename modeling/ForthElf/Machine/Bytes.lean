/-!
# Little-endian numbers

* `littleEndian n v` — the `n` low bytes of `v`, least significant first;
* `ofLittleEndian bs` — the number whose bytes are `bs`.
-/

namespace ForthElf

/-- The `n` low bytes of `v`, least significant first. -/
def littleEndian : Nat → Nat → List UInt8
  | 0, _ => []
  | n + 1, v => UInt8.ofNat v :: littleEndian n (v / 256)

/-- The number whose bytes, least significant first, are the given ones. -/
def ofLittleEndian : List UInt8 → Nat
  | [] => 0
  | b :: bs => b.toNat + 256 * ofLittleEndian bs

@[simp] theorem littleEndian_zero (v : Nat) : littleEndian 0 v = [] := rfl

@[simp] theorem littleEndian_length (n v : Nat) : (littleEndian n v).length = n := by
  induction n generalizing v with
  | zero => rfl
  | succ n ih => simp [littleEndian, ih]

end ForthElf
