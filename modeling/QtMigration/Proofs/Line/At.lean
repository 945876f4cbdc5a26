import Mathlib.Data.List.Basic
import QtMigration.Line.At

/-!
# Proofs/Line/At — signed positions from either end of the lines

A position that is a number counts from the front, and `n` less than the length counts `n` from there too.
-/

namespace QtMigration

variable {lines : List Text} {n : Nat}

theorem lineAt?_natCast (lines : List Text) (n : Nat) : lineAt? lines n = lines[n]? := by
  rw [lineAt?, if_pos (Int.natCast_nonneg n), Int.toNat_natCast]

theorem lineAt?_neg (hn : n < lines.length) :
    lineAt? lines ((n : Int) - lines.length) = lines[n]? := by
  rw [lineAt?, if_neg (by omega), if_pos (by omega), show ((n : Int) - lines.length + lines.length).toNat = n by omega]

theorem linesFrom_natCast (lines : List Text) (n : Nat) : linesFrom lines n = lines.drop n := by
  rw [linesFrom, if_neg (by omega), Int.toNat_natCast]

theorem setAt?_natCast (h : n < lines.length) (line : Text) :
    setAt? lines n line = some (lines.set n line) := by
  have hp : ¬(n : Int) < 0 := by omega
  simp only [setAt?, if_neg hp]
  rw [if_pos (by simpa using h), Int.toNat_natCast]

theorem insertAt_natCast (h : n ≤ lines.length) (line : Text) :
    insertAt lines n line = lines.take n ++ line :: lines.drop n := by
  rw [insertAt, if_neg (by omega), Int.toNat_natCast, Nat.min_eq_left h]

end QtMigration
