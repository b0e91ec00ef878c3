/-!
# Comparing words

* `sameWord a b` — the two words are equal up to the case of ASCII letters.

Control words, built-in words and defined names are all compared this way.
-/

namespace ForthElf.Text

/-- Whether two words are equal up to the case of ASCII letters. -/
def sameWord (a b : String) : Bool :=
  a.toLower == b.toLower

@[simp] theorem sameWord_refl (a : String) : sameWord a a = true := by
  simp [sameWord]

theorem sameWord_iff {a b : String} : sameWord a b = true ↔ a.toLower = b.toLower := by
  simp [sameWord]

theorem sameWord_comm (a b : String) : sameWord a b = sameWord b a := by
  rw [Bool.eq_iff_iff, sameWord_iff, sameWord_iff, eq_comm]

theorem sameWord_trans {a b c : String} (hab : sameWord a b = true) (hbc : sameWord b c = true) :
    sameWord a c = true := by
  rw [sameWord_iff] at *
  exact hab.trans hbc

end ForthElf.Text
