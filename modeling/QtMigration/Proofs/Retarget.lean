import Mathlib.Data.List.Forall2
import QtMigration.Retarget
import QtMigration.Proofs.Frame.Keeps
import QtMigration.Proofs.Text.Search

/-!
# Proofs/Retarget — which lines retargeting loses

Every occurrence of the old module in a line asks for a name; `unnamed` counts those that find none.
-/

namespace QtMigration

open List

/-! ## Occurrences without a name -/

/-- How many names a line asks for: one at its beginning, if the module stands there, and one behind
every piece that is not empty. -/
def namesAsked (old line : Text) : Nat :=
  (if line.startsWith old then 1 else 0) +
    ((line.splitOn old).dropLast.filter fun piece => !piece.isEmpty).length

/-- **The occurrences of a module in a line that find no name.** -/
def unnamed (old line : Text) : Nat :=
  if !line.isCode || line.has " import " || !line.has old || (namesBehind old line).isEmpty then 0
  else namesAsked old line - (namesBehind old line).length

theorem unnamed_of_not_has {old line : Text} (h : line.has old = false) : unnamed old line = 0 := by
  rw [unnamed, if_pos (by simp [h])]

namespace Retargeting

variable {choose : Progress → Text → Text × Progress}

/-- The names that will have been missed once `asked` more have been asked for. -/
def due (r : Retargeting) (asked : Nat) : Nat := r.missed + (asked - r.names.length)

theorem next_due (r : Retargeting) (asked : Nat) : (r.next choose).due asked = r.due (asked + 1) := by
  cases hn : r.names with
  | nil => simp only [next, due, hn, length_nil]; omega
  | cons name names => simp only [next, due, hn, length_cons]; omega

theorem missed_pieces : ∀ (r : Retargeting) (ps : List Text),
    (r.pieces choose ps).missed = r.due (ps.dropLast.filter fun piece => !piece.isEmpty).length
  | r, [] => by simp [pieces, due]
  | r, [last] => by simp [pieces, due]
  | r, piece :: next :: rest => by
    rw [pieces, dropLast_cons_cons]
    split
    next he =>
      rw [missed_pieces r (next :: rest), filter_cons_of_neg (by simp [he])]
    next hf =>
      rw [missed_pieces _ (next :: rest), next_due, filter_cons_of_pos (by simpa using hf), length_cons]
      rfl
    all_goals simp

end Retargeting

/-! ## One line -/

section Line

variable {old new : Text} {classes : List Text} {p : Progress} {line : Text}

theorem retargetLine_of_not_has (h : line.has old = false) :
    retargetLine old new classes p line = .ok ⟨[line], 0, p⟩ := by
  rw [retargetLine, if_pos (by simp [h])]

theorem retargetNames_spec {names : List Text} {r : Retargeted}
    (h : retargetNames old new classes p line names = .ok r) :
    r.passOver = 2 * (namesAsked old line - names.length) ∧
      ∃ indent written : Text, r.lines = (List.replicate (namesAsked old line - names.length)
        [indent ++ retargetNote, line]).flatten ++ [written] := by
  rw [retargetNames] at h
  dsimp only at h
  generalize hr : Retargeting.pieces (moduleOf old new classes)
    (if line.startsWith old then (⟨names, [], 0, p⟩ : Retargeting).next (moduleOf old new classes)
      else ⟨names, [], 0, p⟩) (line.splitOn old) = pieces at h
  have hm : pieces.missed = namesAsked old line - names.length := by
    rw [← hr, Retargeting.missed_pieces, namesAsked]
    split
    · rw [Retargeting.next_due, Retargeting.due, Nat.zero_add, Nat.add_comm 1]
    · rw [Retargeting.due, Nat.zero_add, Nat.zero_add]
  rw [← hm]
  split at h
  next hz =>
    obtain rfl := Except.ok.inj h
    exact ⟨rfl, [], pieces.written, by rw [beq_iff_eq.mp hz]; rfl⟩
  · obtain ⟨indent, -, hp⟩ := bind_eq_ok.mp h
    obtain rfl := Except.ok.inj hp
    exact ⟨rfl, indent, pieces.written, rfl⟩

/-- **What a line becomes**: a note and the line itself for every occurrence without a name, then the line
as it is written now. -/
theorem retargetLine_spec {r : Retargeted} (h : retargetLine old new classes p line = .ok r) :
    r.passOver = 2 * unnamed old line ∧ ∃ indent written : Text, r.lines = (List.replicate (unnamed old line)
        [indent ++ retargetNote, line]).flatten ++ [written] := by
  have hk : unnamed old line = 0 → r = ⟨[line], 0, p⟩ → r.passOver = 2 * unnamed old line ∧
        ∃ indent written : Text, r.lines = (List.replicate (unnamed old line)
          [indent ++ retargetNote, line]).flatten ++ [written] := by
    rintro hz rfl
    exact ⟨by rw [hz], [], line, by rw [hz]; rfl⟩
  rw [retargetLine] at h
  split at h
  next ho =>
    refine hk ?_ (Except.ok.inj h).symm
    rw [unnamed, if_pos (by rw [ho, Bool.true_or])]
  next hin =>
  split at h
  · cases h
  split at h
  next hn =>
    refine hk ?_ (Except.ok.inj h).symm
    rw [unnamed, if_pos (by rw [hn, isEmpty_nil, Bool.or_true])]
  next hn =>
    have hs : unnamed old line = namesAsked old line - (namesBehind old line).length := by
      rw [Bool.not_eq_true] at hin
      rw [unnamed, if_neg (by rwa [hin, Bool.false_or, List.isEmpty_iff])]
    rw [hs]
    exact retargetNames_spec h

end Line

/-! ## The lines that are passed over -/

/-- **The lines that are passed over**, of which the first `skip` are; every line that is not passed
over decides about those behind it. -/
def passedOver (old : Text) : Nat → List Text → List Text
  | _, [] => []
  | skip + 1, line :: lines => line :: passedOver old skip lines
  | 0, line :: lines => passedOver old (2 * unnamed old line) lines

theorem passedOver_eq_nil {old : Text} : ∀ {lines : List Text},
    (∀ line ∈ lines, unnamed old line = 0) → passedOver old 0 lines = []
  | [], _ => rfl
  | line :: lines, h => by
    rw [passedOver, h line mem_cons_self]
    exact passedOver_eq_nil fun l hl => h l (mem_cons_of_mem _ hl)

/-- **Two lists of lines that differ at most in lines without the module.** -/
def SameBeside (old : Text) : List Text → List Text → Prop :=
  List.Forall₂ fun a b => a = b ∨ a.has old = false ∧ b.has old = false

namespace SameBeside

variable {old : Text}

theorem refl (old : Text) (lines : List Text) : SameBeside old lines lines :=
  forall₂_same.mpr fun _ _ => .inl rfl

theorem passedOver : ∀ {lines lines' : List Text}, SameBeside old lines lines' → ∀ skip : Nat,
    SameBeside old (passedOver old skip lines) (passedOver old skip lines')
  | [], [], .nil, _ => .nil
  | _ :: _, _ :: _, .cons hl hli, skip + 1 => .cons hl (SameBeside.passedOver hli skip)
  | line :: _, line' :: _, .cons hl hli, 0 => by
    have hs : unnamed old line = unnamed old line' := by
      rcases hl with rfl | ⟨hl, hl'⟩
      · rfl
      · rw [unnamed_of_not_has hl, unnamed_of_not_has hl']
    rw [QtMigration.passedOver, QtMigration.passedOver, hs]
    exact SameBeside.passedOver hli _

theorem exists_left : ∀ {lines lines' : List Text}, SameBeside old lines lines' → ∀ {b : Text},
    b ∈ lines' → ∃ a ∈ lines, a = b ∨ a.has old = false ∧ b.has old = false
  | [], [], _, _, hb => (not_mem_nil hb).elim
  | _ :: _, _ :: _, .cons hli hl, b, hb => by
    rcases mem_cons.mp hb with rfl | hb
    · exact ⟨_, mem_cons_self, hli⟩
    · obtain ⟨a, ha, hab⟩ := SameBeside.exists_left hl hb
      exact ⟨a, mem_cons_of_mem _ ha, hab⟩

end SameBeside

section Lines

variable {old new : Text} {classes : List Text}

/-- **A line that is not passed over is written first**, and the rest goes on behind the lines that
are passed over for it. -/
theorem retargetGo_cons_eq_ok {p p' : Progress} {line : Text} {lines out : List Text} :
    retargetGo old new classes 0 p (line :: lines) = .ok (out, p') ↔
      ∃ r rest, retargetLine old new classes p line = .ok r ∧
        retargetGo old new classes (2 * unnamed old line) r.progress lines = .ok (rest, p') ∧
        r.lines ++ rest = out := by
  rw [retargetGo, bind_eq_ok]
  constructor
  · rintro ⟨r, hr, h⟩
    obtain ⟨⟨rest, q⟩, hre, hret⟩ := bind_eq_ok.mp h
    obtain ⟨rfl, rfl⟩ : r.lines ++ rest = out ∧ q = p' := by simpa using Except.ok.inj hret
    rw [(retargetLine_spec hr).1] at hre
    exact ⟨r, rest, hr, hre, rfl⟩
  · rintro ⟨r, rest, hr, hre, rfl⟩
    rw [← (retargetLine_spec hr).1] at hre
    exact ⟨r, hr, bind_eq_ok.mpr ⟨(rest, p'), hre, rfl⟩⟩

theorem retargetGo_keeps {keep : Text → Bool} (hke : ∀ line p, keep line →
    retargetLine old new classes p line = .ok ⟨[line], 0, p⟩) :
    ∀ (skip : Nat) {p p' : Progress} (lines : List Text) {out : List Text},
    retargetGo old new classes skip p lines = .ok (out, p') →
      (∀ line ∈ passedOver old skip lines, keep line = false) → Keeps keep lines out
  | _, p, p', [], out, _, _ => nil_sublist out
  | skip + 1, p, p', line :: lines, out, h, ho => by
    rw [passedOver, forall_mem_cons] at ho
    rw [retargetGo] at h
    exact (retargetGo_keeps hke skip lines h ho.2).skip ho.1
  | 0, p, p', line :: lines, out, h, ho => by
    rw [passedOver] at ho
    obtain ⟨r, rest, hr, hre, rfl⟩ := retargetGo_cons_eq_ok.mp h
    refine (retargetGo_keeps hke _ lines hre ho).step fun hk => ?_
    obtain rfl : ⟨[line], 0, p⟩ = r := Except.ok.inj ((hke line p hk).symm.trans hr)
    exact mem_cons_self

/-- **A passed-over line is not looked at**: any other line without the module may stand in its place,
and the result stays the same. -/
theorem exists_replaced {line other : Text} (hl : line.has old = false)
    (ho : other.has old = false) : ∀ (skip : Nat) {p p' : Progress} (lines : List Text)
    {out : List Text}, retargetGo old new classes skip p lines = .ok (out, p') →
      line ∈ passedOver old skip lines → ∃ lines', SameBeside old lines lines' ∧ other ∈ lines' ∧
        retargetGo old new classes skip p lines' = .ok (out, p')
  | skip + 1, p, p', first :: lines, out, h, hm => by
    rw [retargetGo] at h
    rcases mem_cons.mp hm with rfl | hm
    · exact ⟨other :: lines, .cons (.inr ⟨hl, ho⟩) (SameBeside.refl old lines), mem_cons_self, h⟩
    · obtain ⟨lines', hs, hin, hgo⟩ := exists_replaced hl ho skip lines h hm
      exact ⟨first :: lines', .cons (.inl rfl) hs, mem_cons_of_mem _ hin, hgo⟩
  | 0, p, p', first :: lines, out, h, hm => by
    obtain ⟨r, rest, hr, hre, rfl⟩ := retargetGo_cons_eq_ok.mp h
    obtain ⟨lines', hs, hin, hgo⟩ := exists_replaced hl ho _ lines hre hm
    exact ⟨first :: lines', .cons (.inl rfl) hs, mem_cons_of_mem _ hin,
      retargetGo_cons_eq_ok.mpr ⟨r, rest, hr, hgo, rfl⟩⟩

end Lines

theorem retarget_keeps {old new : Text} {p p' : Progress} {lines out : List Text}
    {keep : Text → Bool} (hke : ∀ line, keep line → line.has old = false)
    (h : retarget old new p lines = .ok (out, p'))
    (ho : ∀ line ∈ passedOver old 0 lines, keep line = false) : Keeps keep lines out := by
  rw [retarget] at h
  split at h
  · cases h
  · exact retargetGo_keeps (fun line p hk => retargetLine_of_not_has (hke line hk)) 0 lines h ho

theorem exists_fresh {old line : Text} (h : line.has old = false) (lines : List Text) :
    ∃ fresh : Text, fresh.has old = false ∧ fresh ∉ lines := by
  obtain ⟨c, hc⟩ : ∃ c, c ∈ old := by
    cases old with
    | nil => exact absurd ( nil_infix) (Text.has_eq_false_iff.mp h)
    | cons c cs => exact ⟨c, mem_cons_self⟩
  obtain ⟨d, hd⟩ : ∃ d : Char, c ≠ d := ⟨if c = 'a' then 'b' else 'a', by split <;> simp_all⟩
  refine ⟨List.replicate (lines.flatten.length + 1) d, ?_, fun hm => ?_⟩
  · exact Text.has_eq_false_of_notMem hc fun hm => hd (eq_of_mem_replicate hm)
  · -- it is longer than all of them together
    have hle := (sublist_flatten_of_mem hm).length_le
    rw [length_replicate] at hle
    omega

/-- **Retargeting keeps the lines without the old module, whatever they are, exactly if it passes over
none of them.** -/
theorem retarget_keeps_iff {old new : Text} {p p' : Progress} {lines out : List Text}
    (h : retarget old new p lines = .ok (out, p')) :
    (∀ lines', SameBeside old lines lines' → ∀ out' q, retarget old new p lines' = .ok (out', q) →
        Keeps (fun line => !line.has old) lines' out') ↔
      ∀ line ∈ passedOver old 0 lines, line.has old = true := by
  constructor
  · intro hkeeps line hmem
    by_contra hline
    rw [Bool.not_eq_true] at hline
    obtain ⟨fresh, hlacks, hfresh⟩ := exists_fresh hline out
    rw [retarget] at h
    split at h
    · cases h
    next classes hclasses =>
      obtain ⟨lines', hsame, hin, hgo⟩ := exists_replaced hline hlacks 0 lines h hmem
      have hkept := hkeeps lines' hsame out p' (by rw [retarget, hclasses]; exact hgo)
      exact hfresh (hkept.subset (List.mem_filter.mpr ⟨hin, by simp [hlacks]⟩))
  · intro hover lines' hsame out' q hgo
    refine retarget_keeps (by simp) hgo fun line hmem => ?_
    obtain ⟨other, hother, heq | ⟨hlacks, -⟩⟩ := (hsame.passedOver 0).exists_left hmem
    · simp [← heq, hover other hother]
    · rw [hover other hother] at hlacks
      cases hlacks

/-- A line with an occurrence that finds no name, two lines that are passed over for it and name the
module themselves, and a line without the module. -/
def crowdedLines : List Text :=
  ["x = isinstance(QtGui, QtGui.QAction)\n", "y = QtGui.QAction()\n", "z = QtGui.QAction()\n", "a = 1\n"]

def crowdedOut : List Text :=
  [retargetNote, "x = isinstance(QtGui, QtGui.QAction)\n", "x = isinstance(QtWidgets, .QAction)\n", "a = 1\n"]

theorem retarget_keeps_iff_crowdedLines : retarget "QtGui" "QtWidgets" .initial crowdedLines =
        .ok (crowdedOut, ⟨["QtWidgets"], false, false⟩) ∧
      ∀ lines', SameBeside "QtGui" crowdedLines lines' → ∀ out' q,
        retarget "QtGui" "QtWidgets" .initial lines' = .ok (out', q) →
          Keeps (fun line => !line.has "QtGui") lines' out' := by
  have h : retarget "QtGui" "QtWidgets" .initial crowdedLines =
      .ok (crowdedOut, ⟨["QtWidgets"], false, false⟩) := by decide +kernel
  exact ⟨h, (retarget_keeps_iff h).mpr (by decide +kernel)⟩

/-- **Two lines are lost**, although they have nothing to do with the module. -/
theorem retarget_loses_lines : retarget "QtGui" "QtWidgets" .initial
        ["x = isinstance(QtGui, QtGui.QAction)\n", "a = 1\n", "b = 2\n", "c = 3\n"] =
      .ok ([retargetNote, "x = isinstance(QtGui, QtGui.QAction)\n",
        "x = isinstance(QtWidgets, .QAction)\n", "c = 3\n"], ⟨["QtWidgets"], false, false⟩) ∧
      ¬ Keeps (fun line => !line.has "QtGui")
        ["x = isinstance(QtGui, QtGui.QAction)\n", "a = 1\n", "b = 2\n", "c = 3\n"]
        [retargetNote, "x = isinstance(QtGui, QtGui.QAction)\n",
          "x = isinstance(QtWidgets, .QAction)\n", "c = 3\n"] := by
  constructor <;> decide +kernel

end QtMigration
