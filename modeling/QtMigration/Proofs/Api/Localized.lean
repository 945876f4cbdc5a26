import QtMigration.Proofs.Frame.Lacks
import QtMigration.Proofs.Text.Split
import QtMigration.Proofs.Text.Trim
import QtMigration.Proofs.Text.Words

/-!
# Proofs/Api/Localized — the encoding argument of a translation

t = pathQApplication.translate(a, b, c, pathQApplication.UnicodeUTF8)
-/

namespace QtMigration

open List

def corePath (path : Text) : Text := if path.endsWith "QtWidgets." then path.dropEnd 10 ++ "QtCore." else path

/-- What is left of a path when the application class behind it is dropped. -/
def leftPath (path : Text) : Text := if path.endsWith "QtWidgets." then path.dropEnd 10 else path

/-- **A line that translates a text**, its encoding named through the application class. -/
structure Translation where
  /-- The indentation and the target. -/
  front : Text
  path : Text
  args : List Text
  front_code : front.isCode = true
  path_spelled : ∀ c ∈ path, Text.isWord c = true ∨ c = '.'
  path_ends : path = [] ∨ ∃ p, path = p ++ ['.']
  comma_notMem : ∀ arg ∈ args, ',' ∉ arg
  /-- The pieces at which the line is cut stand nowhere else. -/
  lacks : ∀ cut ∈ ([".translate", ".UnicodeUTF8"] : List Text), ∀ s ∈ front :: path :: args, s.has cut = false

namespace Translation

variable (t : Translation)

def line : Text :=
  t.front ++ " = " ++ t.path ++ "QApplication.translate(" ++ Text.commaList t.args ++ ", " ++ t.path ++
    "QApplication.UnicodeUTF8)\n"

def cleaned : Text :=
  t.front ++ " = " ++ corePath t.path ++ "QCoreApplication.translate(" ++ Text.commaList t.args ++ ")\n"

end Translation

/-! ## The class behind a path -/

section Path

variable {u path : Text}

theorem suffix_of_suffix_append_cons {x p : Text} {c : Char} (hc : c ∉ x) (h : x <:+ u ++ c :: p) : x <:+ p := by
  rcases suffix_or_suffix_of_suffix h (suffix_append u (c :: p)) with hx | hx
  · rcases suffix_cons_iff.mp hx with rfl | hx
    · exact absurd mem_cons_self hc
    · exact hx
  · exact absurd (hx.subset mem_cons_self) hc

theorem endsWith_path : (u ++ ' ' :: path).endsWith "QtWidgets." = path.endsWith "QtWidgets." := by
  refine Bool.eq_iff_iff.mpr ?_
  rw [Text.endsWith, Text.endsWith, isSuffixOf_iff_suffix, isSuffixOf_iff_suffix]
  refine ⟨suffix_of_suffix_append_cons (by decide), fun h => h.trans ?_⟩
  exact (suffix_cons ' ' path).trans (suffix_append u _)

theorem endsWith_application (s tail : Text) :
    (s ++ "QApplication").endsWith (tail ++ "QApplication") = s.endsWith tail := by
  refine Bool.eq_iff_iff.mpr ?_
  rw [Text.endsWith, Text.endsWith, isSuffixOf_iff_suffix, isSuffixOf_iff_suffix, suffix_append_self_iff]

theorem endsWith_application_path :
    (u ++ ' ' :: (path ++ "QApplication")).endsWith "QApplication" ∧
      (u ++ ' ' :: (path ++ "QApplication")).endsWith "QtWidgets.QApplication" = path.endsWith "QtWidgets." := by
  have hs : u ++ ' ' :: (path ++ ("QApplication" : Text)) = (u ++ ' ' :: path) ++ ("QApplication" : Text) := by simp
  rw [hs]
  refine ⟨(endsWith_application _ []).trans ?_, (endsWith_application _ "QtWidgets.").trans endsWith_path⟩
  exact isSuffixOf_iff_suffix.mpr nil_suffix

theorem dropEnd_append_of_length {p x : Text} {n : Nat} (h : x.length = n) : Text.dropEnd (p ++ x) n = p := by
  subst h
  simp [Text.dropEnd]

theorem dropApplication_path : dropApplication (u ++ ' ' :: (path ++ "QApplication")) = u ++ ' ' :: leftPath path := by
  obtain ⟨ha, hw⟩ := @endsWith_application_path u path
  rw [dropApplication, if_pos ha, hw, leftPath]
  split
  next h =>
    obtain ⟨p, rfl⟩ := isSuffixOf_iff_suffix.mp h
    have hcut : u ++ ' ' :: (p ++ ("QtWidgets." : Text) ++ ("QApplication" : Text)) =
        (u ++ ' ' :: p) ++ ("QtWidgets.QApplication" : Text) := by simp
    rw [hcut, dropEnd_append_of_length (by decide), dropEnd_append_of_length (by decide)]
  next =>
    rw [show u ++ ' ' :: (path ++ ("QApplication" : Text)) = (u ++ ' ' :: path) ++ ("QApplication" : Text) by simp,
      dropEnd_append_of_length (by decide)]

theorem coreApplication_path : coreApplication (u ++ ' ' :: (path ++ "QApplication")) =
    u ++ ' ' :: (corePath path ++ "QCoreApplication") := by
  have hd := @dropApplication_path u path
  obtain ⟨ha, hw⟩ := @endsWith_application_path u path
  rw [dropApplication, if_pos ha, hw, leftPath] at hd
  rw [coreApplication, if_pos ha, hw, corePath]
  split
  next h =>
    rw [if_pos h, if_pos h] at hd
    rw [hd]
    simp
  next h =>
    rw [if_neg h, if_neg h] at hd
    rw [hd]
    simp

end Path

/-! ## What is left before the encoding -/

theorem trimRightOf_comma {s : Text} {d : Char} (hd : d ≠ ',') : Text.trimRightOf (s ++ [d]) "," = s ++ [d] := by
  rw [Text.trimRightOf, Text.trimRightWhile, reverse_append, reverse_singleton, singleton_append,
    dropWhile_cons_of_neg (by simpa using hd)]
  simp

theorem beforeEncoding_comma {w path : Text} {d : Char} (hd : d ≠ ',') (hl : leftPath path = []) :
    beforeEncoding (w ++ [d] ++ ',' :: ' ' :: (path ++ "QApplication")) = w ++ [d] := by
  have hdr : dropApplication (w ++ [d] ++ ',' :: ' ' :: (path ++ "QApplication")) = w ++ [d] ++ [','] ++ [' '] := by
    have h := @dropApplication_path (w ++ [d] ++ [',']) path
    rw [hl] at h
    simpa using h
  rw [beforeEncoding, hdr, trimRightOf_comma (by decide), Text.trimRight_append_blank (by decide),
    Text.trimRight_concat (by decide)]
  rw [Text.trimRightOf, Text.trimRightWhile, reverse_append, reverse_singleton, singleton_append,
    dropWhile_cons_of_pos (by decide)]
  exact trimRightOf_comma hd

theorem beforeEncoding_left {w path left : Text} {d : Char} (hd : d ≠ ',') (hb : Text.isBlank d = false)
    (hl : leftPath path = left ++ [d]) :
    beforeEncoding (w ++ ' ' :: (path ++ "QApplication")) = w ++ ' ' :: leftPath path := by
  rw [beforeEncoding, dropApplication_path, hl, show w ++ ' ' :: (left ++ [d]) = (w ++ ' ' :: left) ++ [d] by simp,
    trimRightOf_comma hd, Text.trimRight_concat hb, trimRightOf_comma hd]

theorem exists_concat_commaList : ∀ {args : List Text} (front : Text) {c : Char}, c ≠ ',' →
    (∀ arg ∈ args, ',' ∉ arg) → ∃ w d, front ++ c :: Text.commaList args = w ++ [d] ∧ d ≠ ','
  | [], front, c, hc, _ => ⟨front, c, rfl, hc⟩
  | [arg], front, c, hc, h => by
    rcases eq_nil_or_concat arg with rfl | ⟨arg, d, rfl⟩
    · exact ⟨front, c, rfl, hc⟩
    · refine ⟨front ++ c :: arg, d, by simp [Text.commaList, Text.join], ?_⟩
      rintro rfl
      exact h _ mem_cons_self (by simp)
  | arg :: next :: args, front, c, hc, h => by
    obtain ⟨w, d, heq, hd⟩ := exists_concat_commaList (front ++ c :: arg ++ [',']) (by decide : ' ' ≠ ',')
      (forall_mem_cons.mp h).2
    refine ⟨w, d, ?_, hd⟩
    rw [Text.commaList_cons_cons, ← heq]
    simp

namespace Translation

variable (t : Translation) {cut : Text}

section Cut

variable (hcut : cut ∈ ([".translate", ".UnicodeUTF8"] : List Text))

include hcut

theorem notMem_cut {c : Char} (hc : c ∈ [' ', '=', ',', '(', 'Q']) : c ∉ cut := by
  simp only [mem_cons, not_mem_nil, or_false] at hcut hc
  rcases hcut with rfl | rfl <;> rcases hc with rfl | rfl | rfl | rfl | rfl <;> decide

theorem has_cons {c : Char} (hc : c ∈ [' ', '=', ',', '(', 'Q']) (s : Text) : Text.has (c :: s) cut = s.has cut := by
  have h := Text.has_append_cons (a := []) (b := s) (notMem_cut hcut hc)
  have hn : Text.has [] cut = false := by
    simp only [mem_cons, not_mem_nil, or_false] at hcut
    rcases hcut with rfl | rfl <;> decide
  rw [hn, Bool.false_or] at h
  exact h

theorem has_path {path : Text} (hp : path.has cut = false) (s : Text) :
    Text.has (path ++ 'Q' :: s) cut = s.has cut := by
  rw [Text.has_append_cons (notMem_cut hcut (by decide)), hp, Bool.false_or]

theorem has_corePath (s : Text) : Text.has (corePath t.path ++ 'Q' :: s) cut = s.has cut := by
  have hp : t.path.has cut = false := t.lacks cut hcut t.path (by simp)
  rw [corePath]
  split
  next =>
    have hs : (t.path.dropEnd 10).has cut = false := by
      rw [Text.has_eq_false_iff] at hp ⊢
      exact fun h => hp (h.trans ( take_prefix _ _).isInfix)
    have hc : Text.has ("tCore." ++ 'Q' :: s) cut = s.has cut := by
      refine has_path hcut ?_ s
      simp only [mem_cons, not_mem_nil, or_false] at hcut
      rcases hcut with rfl | rfl <;> decide
    rw [append_assoc]
    exact (has_path hcut hs _).trans hc
  next => exact has_path hcut hp s

theorem has_args (s : Text) : Text.has (Text.commaList t.args ++ ',' :: s) cut = s.has cut := by
  have hne : cut ≠ [] := by
    rintro rfl
    simp at hcut
  have ha : (Text.commaList t.args).has cut = false := by
    rw [Text.has_commaList hne (notMem_cut hcut (by decide))]
    · refine any_eq_false.mpr fun arg harg => ?_
      simp [t.lacks cut hcut arg (by simp [harg])]
    · intro h
      exact notMem_cut hcut (by decide : ' ' ∈ _) (mem_of_mem_head? h)
  rw [Text.has_append_cons (notMem_cut hcut (by decide)), ha, Bool.false_or]

theorem has_front (s : Text) : Text.has (t.front ++ ' ' :: s) cut = s.has cut := by
  rw [Text.has_append_cons (notMem_cut hcut (by decide)), t.lacks cut hcut t.front (by simp), Bool.false_or]

end Cut

/-- The line before the call, with the application class that `class` spells and the path before it. -/
def opening (path name : Text) : Text := t.front ++ ' ' :: '=' :: ' ' :: (path ++ name)

def call : Text := "(" ++ Text.commaList t.args ++ ',' :: ' ' :: (t.path ++ "QApplication")

theorem line_eq : t.line = t.opening t.path "QApplication" ++ (".translate" ++ (t.call ++ ".UnicodeUTF8)\n")) := by
  simp [line, opening, call]

theorem isCode_line : t.line.isCode := by
  have h := t.front_code
  rw [Text.isCode_eq_head] at h
  rw [line_eq, opening, append_assoc, Text.isCode_eq_head, Text.trimLeft_append]
  cases hf : t.front.trimLeft with
  | nil => simp [hf] at h
  | cons c cs => simpa [hf] using h

theorem splitOn_translate : t.line.splitOn ".translate" =
    [t.opening t.path "QApplication", t.call ++ ".UnicodeUTF8)\n"] := by
  have hcut : (".translate" : Text) ∈ ([".translate", ".UnicodeUTF8"] : List Text) := mem_cons_self
  have hp : t.path.has ".translate" = false := t.lacks _ hcut _ (by simp)
  rw [line_eq]
  refine @Text.splitOn_eq_pair _ ".translat" _ 'e' (by decide) ?_ ?_
  · refine (t.has_front hcut _).trans ?_
    refine (has_cons hcut (by decide) _).trans ?_
    refine (has_cons hcut (by decide) _).trans ?_
    exact (has_path hcut hp _).trans (by decide)
  · have hc : t.call ++ (".UnicodeUTF8)\n" : Text) =
        '(' :: (Text.commaList t.args ++ ',' :: ' ' :: (t.path ++ 'Q' :: "Application.UnicodeUTF8)\n")) := by
      simp [call]
    rw [hc]
    refine (has_cons hcut (by decide) _).trans ?_
    refine (t.has_args hcut _).trans ?_
    refine (has_cons hcut (by decide) _).trans ?_
    exact (has_path hcut hp _).trans (by decide)

theorem splitOn_encoding :
    (t.opening (corePath t.path) "QCoreApplication" ++ ".translate" ++ t.call ++ (".UnicodeUTF8" ++ ")")).splitOn
      ".UnicodeUTF8" = [t.opening (corePath t.path) "QCoreApplication" ++ ".translate" ++ t.call, ")"] := by
  have hcut : (".UnicodeUTF8" : Text) ∈ ([".translate", ".UnicodeUTF8"] : List Text) := by decide
  have hp : t.path.has ".UnicodeUTF8" = false := t.lacks _ hcut _ (by simp)
  refine @Text.splitOn_eq_pair _ ".UnicodeUTF" _ '8' (by decide) ?_ (by decide)
  have hc : t.opening (corePath t.path) "QCoreApplication" ++ ".translate" ++ t.call =
      t.front ++ ' ' :: '=' :: ' ' :: (corePath t.path ++ 'Q' :: ("CoreApplication.translate" ++
        '(' :: (Text.commaList t.args ++ ',' :: ' ' :: (t.path ++ 'Q' :: "Application")))) := by
    simp [opening, call]
  rw [hc]
  refine (t.has_front hcut _).trans ?_
  refine (has_cons hcut (by decide) _).trans ?_
  refine (has_cons hcut (by decide) _).trans ?_
  refine (t.has_corePath hcut _).trans ?_
  refine (Text.has_append_cons (notMem_cut hcut (by decide))).trans ?_
  refine Bool.or_eq_false_iff.mpr ⟨by decide, ?_⟩
  refine (t.has_args hcut _).trans ?_
  refine (has_cons hcut (by decide) _).trans ?_
  exact (has_path hcut hp _).trans (by decide)

def remainder : Text := if leftPath t.path = [] then [] else ',' :: ' ' :: leftPath t.path

theorem exists_leftPath_concat (h : leftPath t.path ≠ []) :
    ∃ left d, leftPath t.path = left ++ [d] ∧ d ≠ ',' ∧ Text.isBlank d = false := by
  obtain ⟨left, d, heq⟩ := (eq_nil_or_concat (leftPath t.path)).resolve_left h
  rw [concat_eq_append] at heq
  have hm : d ∈ t.path := by
    have hd : d ∈ leftPath t.path := by simp [heq]
    rw [leftPath] at hd
    split at hd
    · exact mem_of_mem_take hd
    · exact hd
  refine ⟨left, d, heq, ?_⟩
  rcases t.path_spelled d hm with hw | rfl
  · refine ⟨?_, Text.isBlank_of_isWord hw⟩
    rintro rfl
    exact absurd hw (by decide)
  · decide

theorem beforeEncoding_call (s : Text) :
    beforeEncoding (s ++ t.call) = s ++ ("(" ++ Text.commaList t.args) ++ t.remainder := by
  rw [remainder, call]
  split
  next hl =>
    obtain ⟨w, d, hw, hd⟩ := exists_concat_commaList s (by decide : '(' ≠ ',') t.comma_notMem
    have heq : s ++ (("(" : Text) ++ Text.commaList t.args) = w ++ [d] := hw
    rw [← append_assoc, heq, append_nil]
    exact beforeEncoding_comma hd hl
  next hl =>
    obtain ⟨left, d, heq, hd, hb⟩ := t.exists_leftPath_concat hl
    have h := beforeEncoding_left (w := s ++ ("(" ++ Text.commaList t.args) ++ [',']) hd hb heq
    simpa using h

/-- **The line that a translation becomes**: the path of the encoding stays, but for a final `QtWidgets.`. -/
theorem localizedLine_line : localizedLine t.line = t.opening (corePath t.path) "QCoreApplication" ++ ".translate" ++
    ("(" ++ Text.commaList t.args) ++ t.remainder ++ ")\n" := by
  have ho : coreApplication (t.opening t.path "QApplication") = t.opening (corePath t.path) "QCoreApplication" := by
    have h := @coreApplication_path (t.front ++ [' ', '=']) t.path
    simpa [opening] using h
  have hca : coreApplication (t.call ++ ".UnicodeUTF8)\n") = t.call ++ ".UnicodeUTF8)\n" := by
    refine if_neg fun h => ?_
    have hs : t.call ++ (".UnicodeUTF8)\n" : Text) = (t.call ++ ".UnicodeUTF8)") ++ ['\n'] := by simp
    rw [Text.endsWith, isSuffixOf_iff_suffix, hs] at h
    exact absurd (suffix_nil.mp (suffix_of_suffix_append_cons (by decide) h)) (by decide)
  have hh : t.line.has ".translate" := by
    rw [Text.has_iff_infix, line_eq]
    exact ⟨_, _, append_assoc _ _ _⟩
  have hcut : ∀ s : Text, Text.dropEnd ((s ++ ".translate") ++ (t.call ++ ".UnicodeUTF8)\n" ++ ".translate")) 11 =
      s ++ ".translate" ++ t.call ++ (".UnicodeUTF8" ++ ")") := fun s => by
    have h := @dropEnd_append_of_length (s ++ ".translate" ++ t.call ++ (".UnicodeUTF8" ++ ")")) "\n.translate" 11 (by decide)
    simpa using h
  have hco : (!t.line.isCode) = false := by rw [t.isCode_line, Bool.not_true]
  rw [localizedLine, hco, if_neg Bool.false_ne_true, if_pos hh, translateCall, splitOn_translate]
  simp only [map_cons, map_nil, flatten_cons, flatten_nil, append_nil]
  rw [ho, hca, hcut, if_pos, splitOn_encoding]
  · rw [map_cons, map_cons, map_nil, t.beforeEncoding_call]
    have hc : beforeEncoding ")" = ")" := by decide
    rw [hc]
    simp
  · rw [Text.has_iff_infix]
    exact ⟨_, _, append_assoc _ _ _⟩

theorem localizedLine_eq_cleaned_iff_leftPath : localizedLine t.line = t.cleaned ↔ leftPath t.path = [] := by
  have hc : t.cleaned = t.opening (corePath t.path) "QCoreApplication" ++ ".translate" ++
      ("(" ++ Text.commaList t.args) ++ ([] : Text) ++ ")\n" := by simp [cleaned, opening]
  rw [localizedLine_line, hc, append_left_inj, append_right_inj, remainder]
  split
  next h => simp [h]
  next h => simp [h]

/-- **The encoding argument goes without a trace exactly where the class is bare or named from `QtWidgets`
alone.** -/
theorem localizedLine_eq_cleaned_iff :
    localizedLine t.line = t.cleaned ↔ t.path = [] ∨ t.path = "QtWidgets." := by
  rw [localizedLine_eq_cleaned_iff_leftPath, leftPath]
  split
  next h =>
    obtain ⟨p, hp⟩ := isSuffixOf_iff_suffix.mp h
    rw [← hp, dropEnd_append_of_length (by decide)]
    simp
  next h =>
    refine ⟨.inl, ?_⟩
    rintro (hnil | hpath)
    · exact hnil
    · exact absurd (by rw [hpath]; decide) h

end Translation

def widgetTranslation : Translation where
  front := "x"
  path := "QtWidgets."
  args := ["a", "b", "None"]
  front_code := by decide
  path_spelled c hc := of_decide_eq_true (all_eq_true.mp
    (show ("QtWidgets." : Text).all (fun c => Text.isWord c = true ∨ c = '.') by decide) c hc)
  path_ends := .inr ⟨"QtWidgets", by decide⟩
  comma_notMem := by decide
  lacks := by decide

/-- The class named from `QtGui`, and what the line becomes: the module stays as a last argument. -/
theorem localizedLine_leaves_module :
    localizedLine "t = QtGui.QApplication.translate(a, b, c, QtGui.QApplication.UnicodeUTF8)\n" =
        "t = QtGui.QCoreApplication.translate(a, b, c, QtGui.)\n" ∧
      localizedLine "t = QtGui.QApplication.translate(a, b, c, QtGui.QApplication.UnicodeUTF8)\n" ≠
        "t = QtGui.QCoreApplication.translate(a, b, c)\n" := by
  have hline : localizedLine "t = QtGui.QApplication.translate(a, b, c, QtGui.QApplication.UnicodeUTF8)\n" =
      "t = QtGui.QCoreApplication.translate(a, b, c, QtGui.)\n" := by decide
  refine ⟨hline, ?_⟩
  rw [hline]
  decide
end QtMigration
