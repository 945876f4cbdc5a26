import QtMigration.Proofs.Frame.Edits
import QtMigration.Proofs.Line.At
import QtMigration.Proofs.Line.Indent

/-!
# Proofs/Api/Notes — one note for each line that names something dropped

But **a note is a comment**, so each pass notes the original lines only, and all of them together, in whatever
order, put before each line the notes of those passes whose names it has (`notes_one_per_line`).
-/

namespace QtMigration

open List Text

/-! ## Loops that change the lines where they stand -/

section Loop

variable {σ : Type} {lines : σ → List Text} {round : σ → Option (Except Failure σ)}

/-- **The rounds from a state on come to an end with this outcome.** -/
inductive Rounds (lines : σ → List Text) (round : σ → Option (Except Failure σ)) :
    σ → Except Failure (List Text) → Prop
  | over {s : σ} : round s = none → Rounds lines round s (.ok (lines s))
  | breaks {s : σ} {e : Failure} : round s = some (.error e) → Rounds lines round s (.error e)
  | goes {s s' : σ} {r : Except Failure (List Text)} : round s = some (.ok s') → Rounds lines round s' r →
      Rounds lines round s r

theorem Rounds.of_falling (finish : σ → Except Failure (List Text)) (ahead : σ → Nat)
    (ho : ∀ s, round s = none → finish s = .ok (lines s))
    (hk : ∀ s r, round s = some r → finish s = r >>= finish)
    (hl : ∀ s s', round s = some (.ok s') → ahead s' < ahead s) (s : σ) : Rounds lines round s (finish s) := by
  induction hn : ahead s using Nat.strong_induction_on generalizing s with
  | _ n ih =>
    cases hr : round s with
    | none =>
      rw [ho s hr]
      exact .over hr
    | some r =>
      rw [hk s r hr]
      cases r with
      | error e => exact .breaks hr
      | ok s' => exact .goes hr (ih (ahead s') (hn ▸ hl s s' hr) s' rfl)

theorem map_behind (x : Except Failure (List Text)) (front here : List Text) :
    x.map (front ++ here ++ ·) = (x.map (here ++ ·)).map (front ++ ·) := by
  cases x with
  | error e => rfl
  | ok rest => exact congrArg Except.ok (append_assoc _ _ _)

end Loop

/-! ## The loop of a pass -/

section NoteLoop

variable (note : Text) (concerns : Text → Bool)

/-- The lines as they are now and the position of the next one. -/
structure NoteLoop where
  lines : List Text
  pos : Nat

/-- **One round**: a note goes before the line, and the position behind both. -/
def NoteLoop.round (c : NoteLoop) : Option (Except Failure NoteLoop) :=
  c.lines[c.pos]?.map fun line =>
    if line.isCode && concerns line then
      line.indent.map fun indent => ⟨insertAt c.lines c.pos (indent ++ note), c.pos + 2⟩
    else .ok ⟨c.lines, c.pos + 1⟩

/-- What the pass makes of the lines ahead, behind those that are done. -/
def NoteLoop.finish (c : NoteLoop) : Except Failure (List Text) :=
  (noteLines note concerns (c.lines.drop c.pos)).map (c.lines.take c.pos ++ ·)

theorem NoteLoop.finish_append (front back : List Text) :
    finish note concerns ⟨front ++ back, front.length⟩ = (noteLines note concerns back).map (front ++ ·) := by
  rw [finish, take_left, drop_left]

theorem NoteLoop.round_append (front back : List Text) (line : Text) :
    round note concerns ⟨front ++ line :: back, front.length⟩ = some ((noteLine note concerns line).map fun here =>
      ⟨front ++ here ++ back, (front ++ here).length⟩) := by
  simp only [round, getElem?_append_right le_rfl, Nat.sub_self, getElem?_cons_zero, Option.map_some, noteLine]
  split
  · cases line.indent with
    | error e => rfl
    | ok indent =>
      have hle : front.length ≤ (front ++ line :: back).length := by simp
      simp [Except.map, insertAt_natCast hle]
  · simp [Except.map]

theorem NoteLoop.rounds (ls : List Text) :
    Rounds NoteLoop.lines (round note concerns) ⟨ls, 0⟩ (noteLines note concerns ls) := by
  have ha := finish_append note concerns [] ls
  have hs : (noteLines note concerns ls).map ([] ++ ·) = noteLines note concerns ls := by
    cases noteLines note concerns ls <;> rfl
  rw [nil_append, length_nil, hs] at ha
  rw [← ha]
  refine Rounds.of_falling (finish note concerns) (fun c => c.lines.length - c.pos) ?_ ?_ ?_ _
  · rintro ⟨ls, pos⟩ hr
    have hle : ls.length ≤ pos := List.getElem?_eq_none_iff.mp (Option.map_eq_none_iff.mp hr)
    simp [finish, drop_of_length_le hle, take_of_length_le hle, noteLines, expandLines, Except.map]
  · rintro ⟨ls, pos⟩ r hr
    obtain ⟨line, hl, -⟩ := Option.map_eq_some_iff.mp hr
    obtain ⟨front, back, rfl, rfl⟩ := exists_append_of_getElem? hl
    rw [round_append] at hr
    rw [finish_append, noteLines, expandLines, ← Option.some.inj hr]
    cases noteLine note concerns line with
    | error e => rfl
    | ok here =>
      refine Eq.trans ?_ ((finish_append note concerns (front ++ here) back).trans (map_behind _ _ _)).symm
      cases hre : expandLines (noteLine note concerns) back <;> simp [noteLines, hre] <;> rfl
  · rintro ⟨ls, pos⟩ c' hr
    obtain ⟨line, hl, -⟩ := Option.map_eq_some_iff.mp hr
    obtain ⟨front, back, rfl, rfl⟩ := exists_append_of_getElem? hl
    rw [round_append] at hr
    obtain ⟨here, -, rfl⟩ := map_eq_ok.mp (Option.some.inj hr)
    simp only [length_append, length_cons]
    omega

end NoteLoop

/-! ## The five passes -/

/-- What the new library has dropped, as far as there is a pass for it. -/
inductive Dropped
  | scripting
  | xml
  | declarative
  | itemAnimations
  | openGL
  deriving DecidableEq, Repr

namespace Dropped

def note : Dropped → Text
  | scripting => "# FIXME$ QtScript and QtScriptTools are no longer supported.\n"
  | xml => "# FIXME$ QtXml is no longer supported.\n"
  | declarative => "# FIXME$ QtDeclarative module is no longer supported.\n"
  | itemAnimations => "# FIXME$ QGraphicsItemAnimation class is no longer supported.\n"
  | openGL => "# FIXME$ Only QGLContext, QGLFormat and QGLWidget are supported.\n"

def names : Dropped → List Text
  | scripting => ["QtScript", "QScript"]
  | xml => ["QtXml"]
  | declarative => ["QtDeclarative", "QDeclarative", "QPyDeclarative"]
  | itemAnimations => ["QGraphicsItemAnimation"]
  | openGL => Catalogue.droppedOpenGL

def concerns : Dropped → Text → Bool
  | xml, line => line.has "QtXml"
  | itemAnimations, line => line.has "QGraphicsItemAnimation"
  | openGL, line => line.has "QGL" && line.hasAny Catalogue.droppedOpenGL
  | d, line => line.hasAny d.names

def pass : Dropped → List Text → Except Failure (List Text)
  | scripting => noteScript
  | xml => noteXml
  | declarative => noteDeclarative
  | itemAnimations => noteItemAnimation
  | openGL => noteOpenGL

def offends (d : Dropped) (line : Text) : Bool := line.isCode && line.hasAny d.names

/-- **An offending line has the note before it**, at its own indentation. -/
def noted (d : Dropped) (line : Text) : List Text :=
  if d.offends line then [line.margin ++ d.note, line] else [line]

theorem pass_eq_noteLines (d : Dropped) : d.pass = noteLines d.note d.concerns := by
  cases d <;> rfl

theorem concerns_eq (d : Dropped) (line : Text) : d.concerns line = line.hasAny d.names := by
  cases d with
  | scripting | declarative => rfl
  | xml | itemAnimations => exact (Bool.or_false _).symm
  | openGL =>
    have hs : ∀ name ∈ Catalogue.droppedOpenGL, ("QGL" : Text) <:+: name := by decide
    refine Bool.and_eq_right_iff_imp.mpr fun h => ?_
    obtain ⟨name, hn, hh⟩ := any_eq_true.mp h
    exact has_iff_infix.mpr ((hs name hn).trans ( has_iff_infix.mp hh))

theorem noted_of_prose {line : Text} (d : Dropped) (h : line.isCode = false) : d.noted line = [line] := by
  rw [noted, offends, h]
  rfl

theorem note_isCode (d : Dropped) {indent : Text} (h : ∀ c ∈ indent, isRowBlank c) :
    (indent ++ d.note).isCode = false := by
  cases d with
  | _ => exact (Note.comment h (by decide)).isCode

theorem isRowBlank_of_mem_margin {line : Text} {c : Char} (h : c ∈ line.margin) : isRowBlank c := by
  rw [margin] at h
  split at h
  · cases h
  split at h
  · cases h
  split at h
  · cases h
  · exact mem_takeWhile_imp h

theorem pass_eq (d : Dropped) : ∀ {lines : List Text},
    (∀ line ∈ lines, line.isCode → ∃ indent, line.indent = .ok indent) →
      d.pass lines = .ok (lines.flatMap d.noted)
  | [], _ => by rw [pass_eq_noteLines]; rfl
  | line :: lines, h => by
    obtain ⟨hli, hl⟩ := forall_mem_cons.mp h
    have ih := pass_eq d hl
    rw [pass_eq_noteLines, noteLines] at ih ⊢
    have hh : noteLine d.note d.concerns line = .ok (d.noted line) := by
      rw [noteLine, concerns_eq, noted, offends]
      split
      next ho =>
        obtain ⟨indent, hi⟩ := hli (Bool.and_eq_true_iff.mp ho).1
        rw [hi, ← indent_eq_margin hi]
        rfl
      · rfl
    rw [expandLines, hh, ih]
    rfl

/-! ## The passes one after the other -/

def notes (ds : List Dropped) (line : Text) : List Text :=
  (ds.filter (·.offends line)).map (line.margin ++ ·.note)

/-- The lines with the notes of the passes before them; the lines themselves are marked. -/
def marked (ds : List Dropped) (lines : List Text) : List (Text × Bool) :=
  lines.flatMap fun line => (notes ds line).map (·, false) ++ [(line, true)]

theorem isCode_of_mem_notes {ds : List Dropped} {line note : Text} (h : note ∈ notes ds line) :
    note.isCode = false := by
  obtain ⟨d, -, rfl⟩ := mem_map.mp h
  exact d.note_isCode fun c => isRowBlank_of_mem_margin

theorem noted_eq_notes (d : Dropped) (line : Text) : d.noted line = notes [d] line ++ [line] := by
  rw [noted, notes]
  cases h : d.offends line <;> simp [h]

theorem flatMap_noted_of_prose (d : Dropped) : ∀ {lines : List Text}, (∀ line ∈ lines, line.isCode = false) →
    lines.flatMap d.noted = lines
  | [], _ => rfl
  | line :: lines, h => by
    obtain ⟨hli, hl⟩ := forall_mem_cons.mp h
    rw [flatMap_cons, d.noted_of_prose hli, flatMap_noted_of_prose d hl]
    rfl

theorem passes_eq (earlier : List Dropped) {lines : List Text}
    (h : ∀ line ∈ lines, line.isCode → ∃ indent, line.indent = .ok indent) : ∀ later : List Dropped,
    later.foldlM (fun ls d => d.pass ls) (lines.flatMap fun line => notes earlier line ++ [line]) =
      .ok (lines.flatMap fun line => notes (earlier ++ later) line ++ [line])
  | [] => by rw [append_nil]; rfl
  | d :: later => by
    have ha : ∀ line ∈ lines.flatMap fun line => notes earlier line ++ [line], line.isCode →
        ∃ indent, line.indent = .ok indent := fun line hm hc => by
      obtain ⟨line', hl', hm⟩ := mem_flatMap.mp hm
      rcases mem_append.mp hm with hno | hl
      · rw [isCode_of_mem_notes hno] at hc
        cases hc
      · exact h line (mem_singleton.mp hl ▸ hl') hc
    have hn : (lines.flatMap fun line => notes earlier line ++ [line]).flatMap d.noted =
        lines.flatMap fun line => notes (earlier ++ [d]) line ++ [line] := by
      rw [flatMap_assoc]
      refine flatMap_congr fun line _ => ?_
      rw [flatMap_append, flatMap_noted_of_prose d fun _ => isCode_of_mem_notes, flatMap_singleton, noted_eq_notes,
        notes, notes, notes, filter_append, map_append, append_assoc]
    rw [foldlM_cons, d.pass_eq ha, hn, append_cons earlier d later]
    exact passes_eq (earlier ++ [d]) h later

theorem map_fst_marked (ds : List Dropped) (lines : List Text) :
    (marked ds lines).map Prod.fst = lines.flatMap fun line => notes ds line ++ [line] := by
  rw [marked, map_flatMap]
  exact flatMap_congr fun line _ => by simp [Function.comp_def]

theorem marked_originals (ds : List Dropped) (lines : List Text) :
    ((marked ds lines).filter Prod.snd).map Prod.fst = lines := by
  induction lines with
  | nil => rfl
  | cons line lines ih =>
    rw [marked] at ih ⊢
    rw [flatMap_cons, filter_append, map_append, ih]
    simp [filter_append, filter_map]

end Dropped

/-- **Each pass for something dropped puts one note before each line that offends.** -/
theorem notes_one_per_line (lines : List Text)
    (h : ∀ line ∈ lines, line.isCode = true → ∃ indent, line.indent = .ok indent) :
    (∀ d : Dropped, d.pass lines = .ok (lines.flatMap d.noted) ∧
      Rounds NoteLoop.lines (NoteLoop.round d.note d.concerns) ⟨lines, 0⟩ (.ok (lines.flatMap d.noted))) ∧
    ∀ ds : List Dropped, ds.Perm [.scripting, .xml, .declarative, .itemAnimations, .openGL] →
      ds.foldlM (fun ls d => d.pass ls) lines = .ok ((Dropped.marked ds lines).map Prod.fst) ∧
      ((Dropped.marked ds lines).filter Prod.snd).map Prod.fst = lines ∧
      ∀ line, (Dropped.notes ds line).Perm
        (Dropped.notes [.scripting, .xml, .declarative, .itemAnimations, .openGL] line) := by
  refine ⟨fun d => ⟨d.pass_eq h, ?_⟩, fun ds hperm => ⟨?_, Dropped.marked_originals ds lines, fun line => ?_⟩⟩
  · rw [← d.pass_eq h, d.pass_eq_noteLines]
    exact NoteLoop.rounds d.note d.concerns lines
  · have hnone : lines.flatMap (fun line => Dropped.notes [] line ++ [line]) = lines := by
      simp [Dropped.notes]
    rw [Dropped.map_fst_marked]
    simpa [hnone] using Dropped.passes_eq [] h ds
  · exact (hperm.filter _).map _

/-- A line with two dropped names, and a comment with one. -/
theorem notes_one_per_line_two :
    let lines : List Text := ["  QtXml(QScript)\n", "# QtXml\n"]
    let ds : List Dropped := [.xml, .openGL, .scripting, .itemAnimations, .declarative]
    ds.foldlM (fun ls d => d.pass ls) lines =
      .ok ["  " ++ Dropped.xml.note, "  " ++ Dropped.scripting.note, "  QtXml(QScript)\n", "# QtXml\n"] := by
  intro lines ds
  have hlines : ∀ line ∈ lines, line.isCode = true → ∃ indent, line.indent = .ok indent := by
    refine forall_mem_cons.mpr ⟨fun _ => ⟨"  ", by decide⟩, forall_mem_singleton.mpr fun hcode => ?_⟩
    exact absurd hcode (by decide)
  exact ((notes_one_per_line lines hlines).2 ds (by decide)).1.trans (by decide)

end QtMigration
