import QtMigration.Proofs.Import.Renewed

/-!
# Proofs/Import/Modules — the statement that imports whole modules

The statement is made anew from the modules it lists and those the code uses (`importModules_head`): the new
list has each needed module once (`mem_sortedNames_iff`).
-/

namespace QtMigration

open List

open Text (words)

variable {names : List Text} {p : Progress} {m n rest : Text}

/-! ## The list of modules -/

theorem mem_insertName_iff {name : Text} :
    n ∈ insertName name names ↔ n = name ∨ n ∈ names := by
  induction names with
  | nil => exact mem_singleton.trans (by simp)
  | cons m ms ih =>
    rw [insertName]
    split
    next heq =>
      rw [beq_iff_eq.mp heq]
      simp
    split
    · exact mem_cons
    · rw [mem_cons, ih, mem_cons]
      exact or_left_comm

theorem mem_sortedNames_iff : n ∈ sortedNames names ↔ n ∈ names := by
  induction names with
  | nil => rfl
  | cons m ms ih => rw [sortedNames, foldr_cons, ← sortedNames, mem_insertName_iff, ih, mem_cons]

theorem words_commaList : ∀ names : List Text, words (Text.commaList names) = names.flatMap words
  | [] => Text.words_nil
  | [n] => by rw [flatMap_singleton]; rfl
  | n :: m :: names => by
    rw [Text.commaList_cons_cons, Text.words_append_cons (by decide), Text.words_cons (by decide),
      words_commaList (m :: names)]
    rfl

theorem mem_of_mem_listedModules {names : Text} (hm : m ∈ listedModules names) {c : Char} (hc : c ∈ m) :
    c ∈ names := by
  obtain ⟨piece, hp, rfl⟩ := mem_map.mp (mem_of_mem_filter hm)
  have hmem := (Text.infix_of_mem_splitOn hp).subset ((Text.trim_infix piece).subset hc)
  have hn : (("" : String).toList : Text) = [] := rfl
  simp only [Text.replaceEach, foldl_cons, foldl_nil, hn,
    show (("(" : String).toList : Text) = ['('] by decide, show ((")" : String).toList : Text) = [')'] by decide,
    show (("\\" : String).toList : Text) = ['\\'] by decide, Text.replaceAll_singleton, mem_filter] at hmem
  exact hmem.1.1.1

/-! ## The statement -/

/-- The modules that a statement comes to import; `rest` is what it lists. -/
def newModules (p : Progress) (rest : Text) : List Text :=
  sortedNames (neededModules p (listedModules (rest.firstPiece "import ")))

theorem mem_newModules_iff : m ∈ newModules p rest ↔
    (m ∈ listedModules (rest.firstPiece "import ") ∧ (m ∈ droppableModules → p.uses m)) ∨
      (m ∈ addableModules ∧ p.uses m) := by
  rw [newModules, mem_sortedNames_iff, neededModules, mem_append, mem_filter, mem_filter]
  simp [Decidable.imp_iff_not_or]

theorem forall_mem_newModules {P : Char → Prop} (hadd : ∀ m ∈ addableModules, ∀ c ∈ m, P c)
    (hr : ∀ c ∈ rest, P c) : ∀ m ∈ newModules p rest, ∀ c ∈ m, P c := fun m hm c hc => by
  rcases mem_newModules_iff.mp hm with ⟨hl, -⟩ | ⟨ha, -⟩
  · exact hr c ((Text.firstPiece_isPrefix rest _).subset (mem_of_mem_listedModules hl hc))
  · exact hadd m ha c hc

theorem importModules_head {front : Text} (hf : front.all Text.isBlank) (p : Progress) (rest : Text) :
    importModules p (front ++ ("from PyQt4 import " ++ rest)) = .ok (if (newModules p rest).isEmpty then none
        else some (front ++ ("from PyQt5 import " ++ Text.commaList (newModules p rest))),
        if p.uses "QtWidgets" then p.withWidgets else p) := by
  have hh : (front ++ ("from PyQt4 " : Text)).has (("import" : Text) ++ [' ']) = false :=
    Text.has_eq_false_of_notMem (c := 'i') (by decide) (notMem_front hf (by decide) (by decide))
  have hli : front ++ (("from PyQt4 import " : String).toList ++ rest) =
      (front ++ ("from PyQt4 " : Text)) ++ ((("import" : Text) ++ [' ']) ++ rest) := by simp
  have hs : Text.splitOn (front ++ (("from PyQt4 import " : String).toList ++ rest)) "import " =
      (front ++ "from PyQt4 ") :: rest.firstPiece "import " :: (Text.splitGo "import " 0 rest).2 := by
    rw [hli, Text.splitOn, show (("import " : String).toList : Text) = ("import" : Text) ++ [' '] by decide,
      Text.splitGo_append (by simp) rest _ fun k hk => Text.not_prefix_drop_of_not_has (by decide) hh hk]
    rfl
  have hl : Text.replaceAll (front ++ ("from PyQt4 " : Text)) "PyQt4" "PyQt5" = front ++ "from PyQt5 " := by
    have hn := replaceAll_behind_from hf "yQt4" "PyQt5" " "
    rw [show Text.replaceAll (" " : Text) ('P' :: ("yQt4" : Text)) "PyQt5" = " " by decide] at hn
    simpa using hn
  have hke : ∀ list : Text, front ++ ("from PyQt5 " : Text) ++ ("import " : Text) ++ list =
      front ++ (("from PyQt5 import " : Text) ++ list) := fun list => by
    rw [show (("from PyQt5 import " : String).toList : Text) = ("from PyQt5 " : Text) ++ ("import " : Text) by decide]
    simp only [append_assoc]
  rw [importModules, hs]
  dsimp only
  rw [hl, hke]
  rfl

end QtMigration
