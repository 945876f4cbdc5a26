import QtMigration.Proofs.Alphabet.Basic
import QtMigration.Proofs.Frame.Prose

/-!
# Proofs/Frame/Edits — what the passes for parts of the library write on a line

**What every edit keeps and every fresh line has, the lines of code have behind all passes** (`convertApi_code`).
-/

namespace QtMigration

open List Text

variable {A : Alphabet} {fixed here services : List Text} {skip : Nat}
  {after before indent new old piece s word : Text} {r : Text × Text}

/-! ## Edits -/

namespace Pass

/-- The pieces that a pass for a part of the library looks for on a line, to write others in their
place. -/
def seeks : Pass → List Text
  | fileDialogs => nameCalls
  | directories => [dotFilter]
  | localizedTexts => [".trUtf8("]
  | wheelEvents => [".delta()"]
  | layoutMargins => marginPieces
  | desktopServices => placePieces
  | dates => ["setYMD"]
  | graphics => "__init__" :: itemClasses
  | headers => headerMethods.map (·.1)
  | inputDialogs => [".getInteger("]
  | chars => ["QChar"]
  | strings => ["QString"]
  | messageHandlers => ["qInstallMsgHandler("]
  | classNames => ["QMatrix", "QIconEngineV2"]
  | application => ["qApp"]
  | _ => []

def writes : Pass → List Text
  | fileDialogs => ["[0]", "\n"]
  | directories => [".NoDot | ", ".NoDotDot"]
  | localizedTexts => ["("]
  | wheelEvents => [".angleDelta().y()"]
  | layoutMargins => [".setContentsMargins(", ", ", ")\n", ".getContentsMargins()[0]"]
  | desktopServices =>
    [" = QStandardPaths.displayName(QStandardPaths", " = QStandardPaths.writableLocation(QStandardPaths",
     ")\n"]
  | dates => ["Date"]
  | graphics =>
    ["(", ", ", ")\n", " ", "\t", "\x0c", " if ", " is not None: ", ".addItem(self)\n", ".addItem("]
  | headers => headerMethods.map (·.2)
  | inputDialogs => [".getInt("]
  | chars => ["QChar", "'QChar'"]
  | strings => ["QString", "QStringList", "'QString'", "'QStringList'", "QStringListModel"]
  | messageHandlers => ["qInstallMessageHandler("]
  | classNames => ["QTransform", "QIconEngine"]
  | application => ["QApplication", "QApplication.instance()", "\n"]
  | _ => []

end Pass

def translationTexts : List Text :=
  ["QtCore.QCoreApplication", "QCoreApplication", ".translate", "\n"]

def definitionTexts : List Text :=
  ["\ntry:\n", "QChar = unichr\nexcept NameError:\n", "QString = unicode\nexcept NameError:\n",
   "# Python 3\n", "QChar = chr\n", "QString = str\n", "QStringList = list\n", "\n", " ", "\t", "\x0c"]

/-- The pieces that are taken out, or that are replaced by what might complete another one. -/
def gluePieces : List Text :=
  (["AndFilter", ".UnicodeUTF8", "convertSeparators"] : List Text) ++
    Catalogue.variantMethods.map fun m => (("." : Text) ++ m)

/-- **A change of a line of code.** -/
inductive Edit (line line' : Text) : Prop
  | written (pass : Pass) (hpiece : line.hasAny pass.seeks = true) (h : Traces pass.writes line line')
  | translated (hpiece : line.has ".translate" = true) (h : Traces translationTexts line line')
  | glued (hpiece : line.hasAny gluePieces = true) (h : ∀ A : Alphabet, A.Spells line → A.Spells line')

def Edited (line line' : Text) : Prop := line' = line ∨ Edit line line'

/-- **A line of code that is put in.** -/
inductive Fresh : Text → Prop
  | widgets (indent : Text) (h : ∀ c ∈ indent, isRowBlank c = true) :
      Fresh (indent ++ "from PyQt5.QtWidgets import *\n")
  | definition {line : Text} (h : Traces definitionTexts [] line) : Fresh line

theorem Text.hasAny_of_has {pieces : List Text} (hm : piece ∈ pieces)
    (h : s.has piece) : s.hasAny pieces :=
  any_eq_true.mpr ⟨piece, hm, h⟩

theorem Text.has_of_has {small large : Text} (h : s.has large) (hs : small <:+: large) :
    s.has small :=
  has_iff_infix.mpr (hs.trans ( has_iff_infix.mp h))

/-- **A note that is put in**: a comment behind indentation. -/
inductive Note : Text → Prop
  | comment {indent rest : Text} (hindent : ∀ c ∈ indent, isRowBlank c = true)
      (hrest : Alphabet.isPlain ('#' :: rest) = true) : Note (indent ++ (String.ofList ('#' :: rest)).toList)

theorem Note.isCode {line : Text} (h : Note line) : line.isCode = false := by
  obtain ⟨hi, -⟩ := h
  have he : Text.trimLeft _ = [] :=
    dropWhile_eq_nil_iff.mpr fun c hc => isBlank_of_isRowBlank (hi c hc)
  rw [String.toList_ofList, isCode_eq_head, trimLeft_append, he, trimLeft_cons (by decide)]
  rfl

/-- What the lines are that come of a line: the line, maybe changed, and notes. -/
def Made (line line' : Text) : Prop := Edited line line' ∨ Note line'

theorem made_same (line : Text) : ∀ line' ∈ [line], Made line line' :=
  forall_mem_singleton.mpr (.inl (.inl rfl))

theorem made_noted {note : Text} (hn : Note note) (line : Text) : ∀ line' ∈ [note, line], Made line line' :=
  forall_mem_cons.mpr ⟨.inr hn, made_same line⟩

/-! ## What each pass does to a line -/

section Line

variable {line line' : Text}

theorem edited_replaceAll_between (pass : Pass) (before behind : Text)
    (hp : piece ∈ pass.seeks) (ho : piece <:+: before ++ old ++ behind)
    (hn : Joins pass.writes line new) :
    Edited line (line.replaceAll (before ++ old ++ behind) (before ++ new ++ behind)) := by
  cases hh : line.has (before ++ old ++ behind) with
  | false => exact .inl (replaceAll_of_not_has hh)
  | true =>
    exact .inr (.written pass (hasAny_of_has hp (has_of_has hh ho))
      (traces_replaceAll_between before old behind hn))

theorem edited_replaceAll (pass : Pass) (hp : piece ∈ pass.seeks)
    (ho : piece <:+: old) (hn : Joins pass.writes line new) : Edited line (line.replaceAll old new) := by
  simpa using edited_replaceAll_between pass [] [] hp (by simpa using ho) hn

theorem fileDialogLine_edited (h : fileDialogLine line = .ok line') : Edited line line' := by
  have hs : (Except.ok line : Except Failure Text) = .ok line' → Edited line line' := fun h =>
    .inl (Except.ok.inj h).symm
  rw [fileDialogLine] at h
  split at h
  · exact hs h
  split at h
  next hf =>
    refine .inr (.glued (hasAny_of_has (mem_append_left _ mem_cons_self) hf) fun A hl => ?_)
    obtain rfl := Except.ok.inj h
    split
    · exact hl.replaceAll _ A.spells_nil
    · exact hl
  split at h
  · split at h
    · exact hs h
    next call hc =>
      dsimp only at h
      split at h
      · exact hs h
      · obtain ⟨r, -, rfl⟩ := map_eq_ok.mp h
        have hp : ∀ {t : Text}, t <:+: line.trimRight → Traces Pass.fileDialogs.writes line t :=
          fun ht => .of_isInfix (ht.trans (trimRight_isPrefix line).isInfix)
        refine .inr (.written .fileDialogs (hasAny_of_has (mem_of_find?_eq_some hc) (find?_some hc)) ?_)
        exact ((hp ( take_prefix _ _).isInfix).append mem_cons_self
          (hp (drop_suffix _ _).isInfix)).concat (mem_cons_of_mem _ mem_cons_self)
  · exact hs h

theorem directoryLine_edited (line : Text) : Edited line (directoryLine line) := by
  rw [directoryLine]
  split
  · exact .inl rfl
  split
  next hs =>
    have hg : ("convertSeparators" : Text) ∈ gluePieces := by
      simp only [gluePieces, mem_append, mem_cons, true_or, or_true]
    exact .inr (.glued (hasAny_of_has hg (has_of_has hs ( has_iff_infix.mp (by decide))))
      fun A hl => hl.replaceAll _ (A.spells_of_isPlain (by decide)))
  split
  next hf =>
    rw [splitDotFilter]
    split
    · exact .inl rfl
    next inner hi =>
      have hc : Text.trimLeft (inner.afterLast '|') <:+: line :=
        (trimLeft_suffix _).isInfix.trans <| (afterLast_suffix _ _).isInfix.trans <|
          (between?_isInfix hi).trans (trimLeft_suffix line).isInfix
      have hn : Joins Pass.directories.writes line
          (".NoDot | " ++ Text.trimLeft (inner.afterLast '|') ++ ".NoDotDot") :=
        joins_between mem_cons_self (.of_isInfix hc) (mem_cons_of_mem _ mem_cons_self)
      refine .inr (.written .directories (hasAny_of_has mem_cons_self hf) ?_)
      exact traces_replaceAll _ hn
  · exact .inl rfl

theorem Alphabet.coreApplication_spells (s : Text) (hs : A.Spells s) : A.Spells (coreApplication s) := by
  rw [coreApplication]
  split
  · split
    · exact (hs.dropEnd _).append_plain (by decide)
    · exact (hs.dropEnd _).append_plain (by decide)
  · exact hs

theorem Alphabet.beforeEncoding_spells (s : Text) (hs : A.Spells s) : A.Spells (beforeEncoding s) := by
  have hd : A.Spells (dropApplication s) := by
    rw [dropApplication]
    split
    · split <;> exact hs.dropEnd _
    · exact hs
  exact ((hd.trimRightOf _).trimRight).trimRightOf _

theorem traces_coreApplication {rest : Text} (hs : s <:+: line) (hr : Traces translationTexts line rest) :
    Traces translationTexts line (coreApplication s ++ ".translate" ++ rest) := by
  have hc : (".translate" : Text) ∈ translationTexts := by
    simp only [translationTexts, mem_cons, true_or, or_true]
  have hp : ∀ n, Traces translationTexts line (s.dropEnd n) := fun n =>
    .of_isInfix (( take_prefix _ s).isInfix.trans hs)
  have hb : Traces translationTexts line (".translate" ++ rest) :=
    hr.front hc (suffix_refl _)
  rw [coreApplication]
  split
  · rw [append_assoc]
    split
    · exact (hp 22).append mem_cons_self hb
    · exact (hp 12).append (mem_cons_of_mem _ mem_cons_self) hb
  · exact (Traces.of_isInfix hs).append hc hr

theorem translateCall_edited (hcall : line.has ".translate") : Edited line (translateCall line) := by
  have hp : ∀ pieces : List Text, (∀ s ∈ pieces, s <:+: line) → Traces translationTexts line
        ((pieces.map fun s => coreApplication s ++ ".translate").flatten) := by
    intro pieces
    induction pieces with
    | nil => exact fun _ => .nil line
    | cons s pieces ih =>
      intro h
      obtain ⟨hs, hp⟩ := forall_mem_cons.mp h
      rw [map_cons, flatten_cons]
      exact traces_coreApplication hs (ih hp)
  rw [translateCall]
  have hc := (hp (line.splitOn ".translate") fun _ => infix_of_mem_splitOn).trans
    (.of_isInfix (dropEnd_isPrefix _ 11).isInfix)
  split
  next he =>
    -- an encoding is taken out, and the line had it before
    have ha : ∀ v ∈ translationTexts, Text.Apart v ".UnicodeUTF8" := by decide
    have hg : (".UnicodeUTF8" : Text) ∈ gluePieces := by
      simp only [gluePieces, mem_append, mem_cons, true_or, or_true]
    refine .inr (.glued (hasAny_of_has hg (hc _ ha he)) fun A hl => ?_)
    have hca := (hl.splitOn ".translate").map fun s hs =>
      (Alphabet.coreApplication_spells s hs).append_plain (by decide : Alphabet.isPlain ".translate")
    exact (((hca.flatten.dropEnd 11).splitOn _).map Alphabet.beforeEncoding_spells).flatten.append_plain (by decide)
  next =>
    exact .inr (.translated hcall (hc.concat (by simp only [translationTexts, mem_cons, true_or, or_true])))

theorem localizedLine_edited (line : Text) : Edited line (localizedLine line) := by
  rw [localizedLine]
  split
  · exact .inl rfl
  split
  next hc => exact translateCall_edited hc
  split
  next htr =>
    have ho : ("trUtf8(" : Text) = ("tr" : Text) ++ ("Utf8(" : Text) ++ [] := by decide
    have hn : Joins Pass.localizedTexts.writes line "(" := joins_fixed mem_cons_self
    rw [ho]
    exact .inr (.written .localizedTexts (hasAny_of_has mem_cons_self htr)
      (traces_replaceAll_between "tr" "Utf8(" [] hn))
  · exact .inl rfl

theorem handlerLine_edited (handler : WheelHandler) (line : Text) : Edited line (handlerLine handler line) := by
  rw [handlerLine]
  split
  · exact edited_replaceAll .wheelEvents mem_cons_self (infix_refl _) (joins_fixed mem_cons_self)
  · exact .inl rfl

theorem argumentValue_isInfix (s : Text) : argumentValue s <:+: s :=
  ( trim_infix _).trans ((trimRightOf_isPrefix _ _).isInfix.trans ( trim_infix s))

theorem marginLine_edited (layouts : List Text) (line : Text) : Edited line (marginLine layouts line) := by
  rw [marginLine]
  split
  · exact .inl rfl
  split
  next before value rest hs =>
    split
    · have hp : ∀ piece ∈ before :: value :: rest, piece <:+: line := fun piece hpi =>
        infix_of_mem_splitOn (hs ▸ hpi)
      have hva : argumentValue value <:+: line := (argumentValue_isInfix value).trans
        (hp value (mem_cons_of_mem _ mem_cons_self))
      have hv : Traces Pass.layoutMargins.writes line
          (Text.commaList (List.replicate 4 (argumentValue value))) :=
        .join (mem_cons_of_mem _ mem_cons_self) fun t ht =>
          .of_isInfix (eq_of_mem_replicate ht ▸ hva)
      have hh : line.has ".setMargin(" := by
        by_contra hl
        rw [splitOn_of_not_has (Bool.eq_false_iff.mpr hl)] at hs
        cases hs
      refine .inr (.written .layoutMargins (hasAny_of_has mem_cons_self hh) ?_)
      exact ((Traces.of_isInfix (hp before mem_cons_self)).append mem_cons_self
        hv).concat (mem_cons_of_mem _ (mem_cons_of_mem _ mem_cons_self))
    · exact .inl rfl
  split
  · have hn : Joins Pass.layoutMargins.writes line ".getContentsMargins()[0]" :=
      joins_fixed (by simp only [Pass.writes, mem_cons, true_or, or_true])
    have hm : (".margin(" : Text) <:+: ".margin()" := has_iff_infix.mp (by decide)
    exact edited_replaceAll .layoutMargins (mem_cons_of_mem _ mem_cons_self) hm hn
  · exact .inl rfl

theorem placeRequest?_parts {method : Text}
    (h : placeRequest? services line method = some r) : r.1 <:+: line ∧ r.2 <:+: line := by
  rw [placeRequest?] at h
  split at h
  next before value _ hs =>
    have hp : ∀ piece ∈ line.splitOn method, piece <:+: line := fun _ =>
      infix_of_mem_splitOn
    rw [hs] at hp
    split at h
    next target service _ hs' =>
      have ht : target <:+: before :=
        infix_of_mem_splitOn (hs' ▸ mem_cons_self)
      split at h
      · obtain rfl := Option.some.inj h
        exact ⟨ht.trans (hp before mem_cons_self), hp value (mem_cons_of_mem _ mem_cons_self)⟩
      · cases h
    · cases h
  · cases h

theorem exists_placeText (h : placeMethod? line = some r) :
    line.hasAny placePieces ∧ ∃ v ∈ Pass.desktopServices.writes,
      (" = QStandardPaths" : Text) ++ r.2 ++ "QStandardPaths." = v ++ "." := by
  rw [placeMethod?] at h
  split at h
  next hn =>
    obtain rfl := Option.some.inj h
    exact ⟨hasAny_of_has mem_cons_self hn, _, mem_cons_self, by decide⟩
  next =>
  split at h
  next hl =>
    obtain rfl := Option.some.inj h
    exact ⟨hasAny_of_has (mem_cons_of_mem _ mem_cons_self) hl, _, mem_cons_of_mem _ mem_cons_self, by decide⟩
  · cases h

theorem placeLine_edited {r : List Text × Bool}
    (h : placeLine services line = .ok r) : ∀ line' ∈ r.1, Made line line' := by
  have hs : (Except.ok ([line], false) : Except Failure _) = .ok r → ∀ line' ∈ r.1, Made line line' := fun h => by
    obtain rfl := Except.ok.inj h
    exact made_same line
  rw [placeLine] at h
  split at h
  · exact hs h
  split at h
  · exact hs h
  next method method' hm =>
  split at h
  · exact hs h
  next target value hr =>
  split at h
  next first place rest hsp =>
    obtain rfl := Except.ok.inj h
    refine forall_mem_singleton.mpr (.inl ?_)
    obtain ⟨ht, hva⟩ := placeRequest?_parts hr
    obtain ⟨hp, v, hv, hte⟩ := exists_placeText hm
    have hpl : ("." : Text) ++ place <:+: line :=
      ( sep_append_infix (by decide) hsp).trans ((argumentValue_isInfix value).trans hva)
    have hl : target.trimRight ++ " = QStandardPaths" ++ method' ++ "QStandardPaths." ++ place ++
        ")\n" = target.trimRight ++ v ++ ("." ++ place) ++ ")\n" :=
      calc _ = target.trimRight ++ (" = QStandardPaths" ++ method' ++ "QStandardPaths.") ++ place ++
            ")\n" := by simp only [append_assoc]
        _ = target.trimRight ++ (v ++ ".") ++ place ++ ")\n" := by rw [hte]
        _ = _ := by simp only [append_assoc]
    rw [hl]
    have ha : Traces Pass.desktopServices.writes line target.trimRight :=
      .of_isInfix ((trimRight_isPrefix target).isInfix.trans ht)
    exact .inr (.written .desktopServices hp ((ha.append hv (.of_isInfix hpl)).concat
        (by simp only [Pass.writes, mem_cons, true_or, or_true])))
  · obtain ⟨indent, hi, rfl⟩ := map_eq_ok.mp h
    have hn : Note (indent ++ placeNote) := .comment (indent_blank hi) (by decide)
    exact made_noted hn line

theorem renameSetDate_edited (line : Text) : Edited line (renameSetDate line) := by
  have ho : ("setYMD" : Text) = ("set" : Text) ++ ("YMD" : Text) ++ [] := by decide
  have hn : ("setDate" : Text) = ("set" : Text) ++ ("Date" : Text) ++ [] := by decide
  rw [renameSetDate, ho, hn]
  exact edited_replaceAll_between .dates "set" [] mem_cons_self
    ( has_iff_infix.mp (by decide)) (joins_fixed mem_cons_self)

theorem headerLine_eq {known : List Text} (h : headerLine known old new line = .ok line') :
    line' = line ∨ line' = line.replaceAll old new := by
  rw [headerLine] at h
  split at h
  · split at h
    · obtain rfl := Except.ok.inj h
      split
      · exact .inr rfl
      · exact .inl rfl
    · cases h
  · exact .inl (Except.ok.inj h).symm

theorem edited_replaceEach (pass : Pass) {rules : List (Text × Text)}
    (hru : ∀ rule ∈ rules, rule.1 ∈ pass.seeks ∧ rule.2 ∈ pass.writes) :
    Edited line (line.replaceEach rules) := by
  cases hh : line.hasAny pass.seeks with
  | false =>
    exact .inl (replaceEach_of_not_has fun rule hr =>
      hasAny_eq_false_iff.mp hh _ (hru rule hr).1)
  | true => exact .inr (.written pass hh (traces_replaceEach fun rule hr => (hru rule hr).2))

theorem edited_of_rules (pass : Pass) (hpi : piece ∈ pass.seeks) {result : Text}
    (hl : CodeLacks [piece] line → result = line) (h : Traces pass.writes line result) :
    Edited line result := by
  cases hh : line.has piece with
  | false =>
    refine .inl (hl fun _ => hasAny_eq_false_iff.mpr fun p hp => ?_)
    rwa [mem_singleton.mp hp]
  | true => exact .inr (.written pass (hasAny_of_has hpi hh) h)

theorem charLine_edited (line : Text) : Edited line (charLine line) := by
  refine edited_of_rules .chars mem_cons_self charLine_of_lacks ?_
  rw [charLine]
  split
  · exact .refl line
  · dsimp only
    split
    · exact (traces_replaceEach (by decide)).trans (traces_replaceEach (by decide))
    · exact traces_replaceEach (by decide)

theorem stringLine_edited (line : Text) : Edited line (stringLine line) := by
  refine edited_of_rules .strings mem_cons_self stringLine_of_lacks ?_
  rw [stringLine]
  split
  · exact .refl line
  · dsimp only
    split
    · exact (traces_replaceEach (by decide)).trans (traces_replaceEach (by decide))
    · exact traces_replaceEach (by decide)

theorem variants_edited (line : Text) :
    Edited line (line.replaceEach (Catalogue.variantMethods.map fun m => ("." ++ m ++ "()", []))) := by
  cases hh : line.hasAny gluePieces with
  | true =>
    refine .inr (.glued hh fun A hl => hl.replaceEach fun rule hr => ?_)
    obtain ⟨m, -, rfl⟩ := mem_map.mp hr
    exact A.spells_nil
  | false =>
    refine .inl (replaceEach_of_not_has fun rule hr => ?_)
    obtain ⟨m, hm, rfl⟩ := mem_map.mp hr
    have hg : ("." : Text) ++ m ∈ gluePieces := mem_append_right _ (mem_map_of_mem hm)
    exact has_eq_false_of_subneedle (hasAny_eq_false_iff.mp hh _ hg) (prefix_append _ _).isInfix

/-! ### The application object -/

theorem wholeWord?_eq {r : Text} (h : wholeWord? word s = some r) : s = word ++ r := by
  rw [wholeWord?] at h
  split at h
  next hw =>
    obtain ⟨rest, rfl⟩ := isPrefixOf_iff_prefix.mp hw
    rw [drop_left] at h
    split at h
    · rw [Option.some.inj h]
    split at h
    · cases h
    · rw [Option.some.inj h]
  · cases h

theorem globalName?_eq {first : Bool} (h : globalName? word first s = some r) : s = r.1 ++ word ++ r.2 := by
  have hp : ∀ {head rest : Text}, s = head ++ rest →
      (wholeWord? word rest).map (head, ·) = some r → s = r.1 ++ word ++ r.2 := fun hs hm => by
    obtain ⟨after, ha, rfl⟩ := Option.map_eq_some_iff.mp hm
    rw [hs, wholeWord?_eq ha, append_assoc]
  have hh : ∀ {head : Text}, (if head.isPrefixOf s then
      (wholeWord? word (s.drop head.length)).map (head, ·) else none) = some r →
      s = r.1 ++ word ++ r.2 := fun hb => by
    split at hb
    next hpr =>
      obtain ⟨rest, rfl⟩ := isPrefixOf_iff_prefix.mp hpr
      rw [drop_left] at hb
      exact hp rfl hb
    · cases hb
  simp only [globalName?, Option.orElse_eq_orElse, Option.orElse_eq_or, Option.or_eq_some_iff] at h
  rcases h with h | ⟨-, h | ⟨-, h | ⟨-, h⟩⟩⟩
  · split at h
    · exact hp rfl h
    · cases h
  · split at h
    · split at h
      · exact hp rfl h
      · cases h
    · cases h
  · exact hh h
  · exact hh h

theorem drop_behind_word {c : Char} {cs : Text} (hw : word ≠ []) (h : c :: cs = before ++ word ++ after) :
    cs.drop (before.length + word.length + min 1 after.length - 1) = after.drop 1 := by
  have hp : 0 < word.length := length_pos_of_ne_nil hw
  have hl : before.length + word.length + min 1 after.length - 1 + 1 =
      (before ++ word).length + min 1 after.length := by
    rw [length_append]
    omega
  rw [← drop_succ_cons (a := c), hl, h, drop_append]
  cases after <;> simp

theorem begins_replaceGlobalGo {fixed : List Text} {s word kept new : Text} (hw : word ++ kept ≠ [])
    (hn : new ∈ fixed) : ∀ (skip : Nat) (first : Bool) (cs : Text), cs <:+ s →
      Text.Begins fixed s (cs.drop skip) (replaceGlobalGo (word ++ kept) (new ++ kept) skip first cs)
  | skip, _, [], _ => by
    unfold replaceGlobalGo
    exact .inl (by simp)
  | skip + 1, _, c :: cs, hs =>
    begins_replaceGlobalGo hw hn skip false cs ((suffix_cons c cs).trans hs)
  | 0, first, c :: cs, hs => by
    have hcs : cs <:+ s := (suffix_cons c cs).trans hs
    rw [replaceGlobalGo]
    split
    · exact (begins_replaceGlobalGo hw hn 0 false cs hcs).append_left [c]
    next before after hna =>
      have heq : c :: cs = before ++ (word ++ kept) ++ after := globalName?_eq hna
      have hb : kept ++ after <:+: s := by
        refine List.IsInfix.trans ?_ hs.isInfix
        rw [heq]
        exact ⟨before ++ word, [], by simp⟩
      have ih := begins_replaceGlobalGo hw hn
        (before.length + (word ++ kept).length + min 1 after.length - 1) false cs hcs
      rw [drop_behind_word hw heq] at ih
      have hr := ih.append_left (kept ++ after.take 1)
      rw [append_assoc, take_append_drop] at hr
      refine .inr ⟨before, new, _, ?_, joins_fixed hn, hr.traces hb, by simp⟩
      rw [drop_zero, heq]
      exact ⟨word ++ kept ++ after, by simp⟩

theorem traces_replaceGlobal (s word kept : Text) (hw : word ++ kept ≠ [])
    (hn : new ∈ fixed) : Traces fixed s (replaceGlobal s (word ++ kept) (new ++ kept)) :=
  (begins_replaceGlobalGo hw hn 0 true s (suffix_refl s)).traces (infix_refl s)

theorem traces_applicationRule {rule : Text × Text} (hr : rule ∈ applicationRules) (s : Text) :
    Traces Pass.application.writes s (replaceGlobal s rule.1 rule.2) := by
  rcases mem_append.mp hr with hm | hi
  · obtain ⟨m, -, rfl⟩ := mem_map.mp hm
    have ho : ("qApp." : Text) ++ m = ("qApp" : Text) ++ ("." ++ m) := by
      rw [← append_assoc]
      rfl
    have hn : ("QApplication." : Text) ++ m = ("QApplication" : Text) ++ ("." ++ m) := by
      rw [← append_assoc]
      rfl
    dsimp only
    rw [ho, hn]
    exact traces_replaceGlobal s _ _ (by simp) mem_cons_self
  · obtain rfl := mem_singleton.mp hi
    have hmem : ("QApplication.instance()" : Text) ∈ Pass.application.writes :=
      mem_cons_of_mem _ mem_cons_self
    have h := traces_replaceGlobal s "qApp" [] (by decide) hmem
    rw [append_nil, append_nil] at h
    exact h

theorem traces_dropEmptyRows (he : ("\n" : Text) ∈ fixed) (s : Text) : Traces fixed s (dropEmptyRows s) := by
  refine (Traces.join he fun row hr => .of_isInfix ?_).concat he
  exact infix_of_mem_rows s row (mem_of_mem_filter hr)

theorem traces_replaceName (hn : new ∈ fixed)
    (he : ("\n" : Text) ∈ fixed) (s old : Text) : Traces fixed s (replaceName s old new) := by
  have hb : ∀ (borders : List (Text × Text × Text)) (s : Text), Traces fixed s
      (s.replaceEach (borders.map fun b => (b.1 ++ old ++ b.2.1, b.1 ++ new ++ b.2.1))) := by
    intro borders
    induction borders with
    | nil => exact fun s => .refl s
    | cons b borders ih =>
      intro s
      exact (traces_replaceAll_between b.1 old b.2.1 (joins_fixed hn)).trans (ih _)
  exact (hb nameBorders s).trans (traces_dropEmptyRows he _)

theorem applicationLine_edited (line : Text) : Edited line (applicationLine line) := by
  have hg : ∀ (rules : List (Text × Text)) (s : Text), (∀ rule ∈ rules, rule ∈ applicationRules) →
      Traces Pass.application.writes s (rules.foldl (fun l rule => replaceGlobal l rule.1 rule.2) s) := by
    intro rules
    induction rules with
    | nil => exact fun s _ => .refl s
    | cons rule rules ih =>
      intro s hr
      obtain ⟨hru, hr⟩ := forall_mem_cons.mp hr
      exact (traces_applicationRule hru s).trans (ih _ hr)
  refine edited_of_rules .application mem_cons_self applicationLine_of_lacks ?_
  rw [applicationLine]
  split
  · exact .refl line
  split
  · exact traces_replaceName mem_cons_self (by simp only [mem_cons, true_or, or_true]) line _
  · exact hg applicationRules line fun _ h => h

/-! ### Graphics items -/

theorem listArguments_parts (s : Text) : ∀ arg ∈ listArguments s, arg <:+: s := by
  intro arg ha
  obtain ⟨piece, hp, rfl⟩ := mem_map.mp ha
  refine ( trim_infix piece).trans ((infix_of_mem_splitOn hp).trans ?_)
  exact ( dropLast_prefix _).isInfix.trans ((drop_suffix 1 _).isInfix.trans ( trim_infix s))

section Scene

variable {args args' : List Text} {scene : Text} (hargs : ∀ arg ∈ args, arg <:+: line)

include hargs

theorem takeKeyword_parts (keyword : Text) : (∀ value ∈ (takeKeyword keyword args).1, value <:+: line) ∧
      ∀ arg ∈ (takeKeyword keyword args).2, arg <:+: line := by
  induction args with
  | nil => exact ⟨by simp [takeKeyword], by simp [takeKeyword]⟩
  | cons arg args ih =>
    obtain ⟨ha, hargs⟩ := forall_mem_cons.mp hargs
    rw [takeKeyword]
    split
    · refine ⟨fun value hv => ?_, hargs⟩
      obtain rfl := Option.some.inj hv
      refine ( trim_infix _).trans ?_
      cases hp : (arg.splitOn "=")[1]? with
      | none => exact nil_infix
      | some piece => exact (infix_of_mem_splitOn (mem_of_getElem? hp)).trans ha
    split
    · refine ⟨fun value hv => ?_, hargs⟩
      obtain rfl := Option.some.inj hv
      exact ha
    · obtain ⟨hv, hr⟩ := ih hargs
      exact ⟨hv, forall_mem_cons.mpr ⟨ha, hr⟩⟩

theorem lastIsScene_parts (h : lastIsScene args = .scene scene args') :
    scene <:+: line ∧ ∀ arg ∈ args', arg <:+: line := by
  obtain ⟨rfl, rfl⟩ := SceneChoice.scene.inj h
  refine ⟨?_, fun arg ha => hargs arg (dropLast_subset _ ha)⟩
  cases hl : args.getLast? with
  | none => exact nil_infix
  | some arg => exact hargs arg (mem_of_getLast? hl)

theorem chooseByCount_parts (h : chooseByCount skip args = .scene scene args') :
    scene <:+: line ∧ ∀ arg ∈ args', arg <:+: line := by
  -- whatever the number of arguments, the scene can only be the last one
  have hl : lastIsScene args = .scene scene args' := by
    rw [chooseByCount] at h
    split at h
    · cases h
    split at h
    · rw [chooseOfTwo] at h
      split at h
      · cases h
      split at h
      · exact h
      split at h
      · split at h
        · exact h
        · split at h <;> cases h
      · cases h
    split at h
    · exact h
    · split at h <;> cases h
  exact lastIsScene_parts hargs hl

theorem chooseScene_parts (h : chooseScene skip args = .scene scene args') :
    scene <:+: line ∧ ∀ arg ∈ args', arg <:+: line := by
  obtain ⟨hv, hr⟩ := takeKeyword_parts hargs "scene"
  rw [chooseScene] at h
  split at h
  next heq =>
    rw [heq] at hv hr
    obtain ⟨rfl, rfl⟩ := SceneChoice.scene.inj h
    exact ⟨hv _ rfl, hr⟩
  next heq =>
    rw [heq] at hr
    exact chooseByCount_parts hr h

theorem joins_argumentTail : Joins Pass.graphics.writes line (argumentTail args) :=
  joins_between mem_cons_self (.join (mem_cons_of_mem _ mem_cons_self) fun arg ha => .of_isInfix (hargs arg ha))
    (by simp only [Pass.writes, mem_cons, true_or, or_true])

end Scene

theorem traces_indent {t : Text} (hi : ∀ c ∈ indent, isRowBlank c)
    (h : Traces Pass.graphics.writes line t) : Traces Pass.graphics.writes line (indent ++ t) := by
  refine h.indent fun c hc => ?_
  have hb := hi c hc
  simp only [isRowBlank, Bool.or_eq_true, beq_iff_eq] at hb
  rcases hb with (rfl | rfl) | rfl <;> decide

theorem traces_addSelf {scene : Text} (hi : ∀ c ∈ indent, isRowBlank c)
    (hs : scene <:+: line) : Traces Pass.graphics.writes line
      (indent ++ "if " ++ scene ++ " is not None: " ++ scene ++ ".addItem(self)\n") := by
  have hif : (" if " : Text) ∈ Pass.graphics.writes := by
    simp only [Pass.writes, mem_cons, true_or, or_true]
  have hn : (" is not None: " : Text) ∈ Pass.graphics.writes := by
    simp only [Pass.writes, mem_cons, true_or, or_true]
  have hadd : (".addItem(self)\n" : Text) ∈ Pass.graphics.writes := by
    simp only [Pass.writes, mem_cons, true_or, or_true]
  have hsc := ((Traces.of_isInfix hs).append hn (.of_isInfix hs)).concat hadd
  have ha : Traces Pass.graphics.writes line
      ("if " ++ (scene ++ " is not None: " ++ scene ++ ".addItem(self)\n")) :=
    hsc.front hif ⟨[' '], by decide⟩
  simpa only [append_assoc] using traces_indent hi ha

theorem traces_addItem {scene target : Text} (hi : ∀ c ∈ indent, isRowBlank c)
    (hs : scene <:+: line) (ht : target <:+: line) : Traces Pass.graphics.writes line
      (indent ++ scene ++ ".addItem(" ++ target ++ ")\n") := by
  have hadd : (".addItem(" : Text) ∈ Pass.graphics.writes := by
    simp only [Pass.writes, mem_cons, true_or, or_true]
  have he : (")\n" : Text) ∈ Pass.graphics.writes := by
    simp only [Pass.writes, mem_cons, true_or, or_true]
  have ha := ((Traces.of_isInfix hs).append hadd (.of_isInfix ht)).concat he
  simpa only [append_assoc] using traces_indent hi ha

theorem initLines_edited (h : initLines line = .ok here) : ∀ line' ∈ here, Made line line' := by
  rw [initLines] at h
  obtain ⟨indent, hi, h⟩ := bind_eq_ok.mp h
  have hi := indent_blank hi
  split at h
  · cases h
  next tail ht =>
    have hp : line.hasAny Pass.graphics.seeks := by
      refine hasAny_of_has mem_cons_self ?_
      by_contra hla
      rw [initTail?, splitOn_of_not_has (Bool.eq_false_iff.mpr hla)] at ht
      cases ht
    have ht : tail <:+: line := infix_of_mem_splitOn (mem_of_getElem? ht)
    split at h
    · obtain rfl := Except.ok.inj h
      exact made_same line
    · obtain rfl := Except.ok.inj h
      have hn : Note (indent ++ subclassNote) := .comment hi (by decide)
      exact made_noted hn line
    next scene args hc =>
      obtain ⟨hs, hargs⟩ := chooseScene_parts
        (fun arg ha => (listArguments_parts tail arg ha).trans ht) hc
      have hl : Edited line (line.replaceAll tail (argumentTail args)) :=
        .inr (.written .graphics hp (traces_replaceAll tail (joins_argumentTail hargs)))
      split at h
      · obtain rfl := Except.ok.inj h
        exact forall_mem_singleton.mpr (.inl hl)
      · obtain rfl := Except.ok.inj h
        exact forall_mem_cons.mpr ⟨.inl hl, forall_mem_singleton.mpr
          (.inl (.inr (.written .graphics hp (traces_addSelf hi hs))))⟩

theorem aroundItem_parts (line item : Text) :
    (aroundItem line item).1 <:+: line ∧ (aroundItem line item).2 <:+: line := by
  have hp : ∀ piece ∈ line.splitOn item, piece <:+: line := fun _ => infix_of_mem_splitOn
  rw [aroundItem]
  split
  next hs =>
    rw [hs] at hp
    exact ⟨hp _ mem_cons_self, hp _ (mem_cons_of_mem _ mem_cons_self)⟩
  next hs =>
    rw [hs] at hp
    exact ⟨hp _ mem_cons_self, nil_infix⟩
  · exact ⟨ nil_infix, nil_infix⟩

theorem itemLines_edited
    (hp : line.hasAny Pass.graphics.seeks) (hb : before <:+: line) (ha : after <:+: line)
    (h : itemLines line before after = .ok here) : ∀ line' ∈ here, Made line line' := by
  rw [itemLines] at h
  split at h
  · obtain rfl := Except.ok.inj h
    exact made_same line
  · obtain ⟨indent, hi, h⟩ := bind_eq_ok.mp h
    have hi := indent_blank hi
    split at h
    · obtain rfl := Except.ok.inj h
      exact made_same line
    · obtain rfl := Except.ok.inj h
      have hn : Note (indent ++ itemNote) := .comment hi (by decide)
      exact made_noted hn line
    next scene args hc =>
      obtain ⟨hs, hargs⟩ := chooseScene_parts
        (fun arg harg => (listArguments_parts after arg harg).trans ha) hc
      have hl : Edited line (line.replaceAll after (argumentTail args)) :=
        .inr (.written .graphics hp (traces_replaceAll after (joins_argumentTail hargs)))
      have ht : Text.trim (before.firstPiece "=") <:+: line :=
        ( trim_infix _).trans ((firstPiece_isPrefix before "=").isInfix.trans hb)
      dsimp only at h
      split at h
      · obtain rfl := Except.ok.inj h
        exact forall_mem_singleton.mpr (.inl hl)
      · obtain rfl := Except.ok.inj h
        exact forall_mem_cons.mpr ⟨.inl hl, forall_mem_singleton.mpr
          (.inl (.inr (.written .graphics hp (traces_addItem hi hs ht))))⟩

end Line

end QtMigration
