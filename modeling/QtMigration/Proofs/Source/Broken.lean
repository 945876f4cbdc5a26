import QtMigration.Proofs.CommandLine.Job
import QtMigration.Proofs.Frame.Pipeline
import QtMigration.Proofs.Source.Lossless

/-!
# Proofs/Source/Broken — sources whose tokens break off

The scanner stops at a fault, and the search for line ends stops at a stray token as well.
-/

namespace QtMigration

open List

/-- The tokens of a text break off: the scanner meets a fault, or a token is stray. -/
def breaksOff (s : Text) : Bool :=
  (scan s).fault.isSome || (scan s).tokens.any (·.kind == .stray)

def breakFailure (s : Text) : Failure :=
  if (scan s).tokens.isEmpty then .unset "end" else .noLogicalLines

/-! ## The search for line ends -/

theorem lineEndsGo_stop (reason : Option Text) : ∀ (m : LineMarks) (seen : Option Token)
    (ts : List Token), (lineEndsGo reason m seen ts).stop =
      (ts.find? (·.kind == .stray)).elim (lineEndsStop reason (ts.getLast?.or seen))
        fun t => .broken strayReason t.stop t.line
  | _, _, [] => rfl
  | m, seen, t :: ts => by
    rw [lineEndsGo, find?_cons]
    cases hs : t.kind == .stray with
    | true => rfl
    | false =>
      rw [if_neg Bool.false_ne_true]
      refine (lineEndsGo_stop reason (m.step t).1 (some t) ts).trans ?_
      rw [getLast?_cons]
      cases ts.getLast? <;> rfl

theorem ScanFault.message_ne_nil (f : ScanFault) : f.message ≠ [] := by
  cases f <;> exact append_ne_nil_of_right_ne_nil _ (by decide)

theorem textLineEnds_of_no_token {s : Text} (h : breaksOff s) (ht : (scan s).tokens = []) :
    (textLineEnds s).stop = .brokenAtOnce := by
  obtain ⟨fault, hf⟩ : ∃ fault, (scan s).fault = some fault := by
    rw [breaksOff, ht, any_nil, Bool.or_false] at h
    exact Option.isSome_iff_exists.1 h
  rw [textLineEnds, lineEnds, lineEndsGo_stop, ht, hf]
  rfl

theorem textLineEnds_of_token {s : Text} (h : breaksOff s) (hto : (scan s).tokens ≠ []) :
    ∃ reason stop line, (textLineEnds s).stop = .broken reason stop line ∧ reason ≠ [] := by
  rw [textLineEnds, lineEnds, lineEndsGo_stop]
  cases hs : (scan s).tokens.find? (·.kind == .stray) with
  | some t => exact ⟨strayReason, t.stop, t.line, rfl, by decide⟩
  | none =>
    have ha : (scan s).tokens.any (·.kind == .stray) = false := by
      rw [any_eq_false]
      exact fun t ht => by simpa using find?_eq_none.1 hs t ht
    rw [breaksOff, ha, Bool.or_false] at h
    obtain ⟨fault, hf⟩ := Option.isSome_iff_exists.1 h
    obtain ⟨last, hl⟩ := Option.isSome_iff_exists.1 (getLast?_isSome.2 hto)
    refine ⟨fault.message, last.stop, last.line, ?_, fault.message_ne_nil⟩
    rw [hf, hl]
    rfl

/-! ## Reading -/

theorem rows_ne_nil_of_breaksOff {s : Text} (h : breaksOff s) : (dropEmptyLast s.rows).isEmpty = false := by
  cases s with
  | nil => exact absurd h (by decide)
  | cons c s =>
    have hf := congrArg List.flatten (map_dropEmptyLast_rows (c :: s))
    rw [Text.flatten_rowsWithEnds] at hf
    cases hr : dropEmptyLast (Text.rows (c :: s)) with
    | cons row rows => rfl
    | nil =>
      rw [hr] at hf
      exact absurd hf.symm (Text.ended_ne_nil (cons_ne_nil c s))

theorem readText_of_breaksOff {s : Text} (h : breaksOff s) (printed label : Text) :
    (readText printed label s).outcome =
        (if (scan s).tokens.isEmpty then .error (.unset "end") else .ok .unscannable) ∧
      ((readText printed label s).lastError = [] ↔ (scan s).tokens = []) := by
  have hro : ¬(dropEmptyLast s.rows).isEmpty := by rw [rows_ne_nil_of_breaksOff h]; decide
  rw [readText, if_neg hro, logicalLines]
  by_cases ht : (scan s).tokens = []
  · rw [LineEnds.report, textLineEnds_of_no_token h ht, ht]
    exact ⟨rfl, iff_of_true rfl rfl⟩
  · obtain ⟨reason, stop, line, hs, hr⟩ := textLineEnds_of_token h ht
    rw [LineEnds.report, hs, if_neg (mt List.isEmpty_iff.1 ht)]
    exact ⟨rfl, iff_of_false hr ht⟩

variable {bytes : Bytes} {printed label s : Text}

section Decoded

variable (hl : encodingOf bytes = ⟨printed, .ok label⟩) (hd : decodeSource label bytes = .ok (.ok s))
include hl hd

theorem readSource_of_decoded (path : Text) :
    readSource path (.ok bytes) = readText printed label s := by
  simp only [readSource, hl, hd]

/-! ## Converting -/

theorem convertContent_of_breaksOff (hb : breaksOff s) (target : Target) (path : Text) :
    convertContent target path (.ok bytes) =
      ⟨printEvent (readText printed label s).printed, some (breakFailure s)⟩ := by
  rw [convertContent, readSource_of_decoded hl hd path, (readText_of_breaksOff hb printed label).1,
    breakFailure]
  cases (scan s).tokens.isEmpty with
  | true => exact congrArg (Conversion.mk · (some (.unset "end"))) (append_nil _)
  | false => exact congrArg (Conversion.mk · (some .noLogicalLines)) (append_nil _)

namespace Job

omit hl hd in
theorem exec_printEvent (logPath : Option Text) (source dest text : Text) (c : Session) :
    exec ((printEvent text).forM (play logPath source dest)) c =
      (.ok (), { c with printed := c.printed ++ text }) := by
  rw [printEvent]
  split
  next h => rw [List.isEmpty_iff.1 h, append_nil]; rfl
  next => rfl

theorem exec_convert_of_breaksOff (hb : breaksOff s) (target : Target) {logPath : Option Text}
    {path dest : Text} {c c' : Session} (ha : exec (play logPath path dest (announce path)) c = (.ok (), c'))
    (hr : c'.tree.read path = .ok bytes) (next : Job Unit) :
    exec (convert target logPath path dest >>= fun _ => next) c = (.error (.fail (breakFailure s)),
      { c' with printed := c'.printed ++ (readText printed label s).printed }) := by
  have hc : exec (convert target logPath path dest) c = (.error (.fail (breakFailure s)),
      { c' with printed := c'.printed ++ (readText printed label s).printed }) := by
    rw [convert, exec_bind_ok ha, exec_bind_ok (exec_tree c'), hr,
      convertContent_of_breaksOff hl hd hb,
      exec_bind_ok (exec_printEvent logPath path dest _ c')]
    rfl
  rw [exec_bind, hc]

end Job

end Decoded

/-- **A source whose tokens break off.** -/
theorem breaksOff_stops_run (hlabel : encodingOf bytes = ⟨printed, .ok label⟩)
    (hdecode : decodeSource label bytes = .ok (.ok s)) (hbreak : breaksOff s = true)
    (target : Target) (path : Text) :
    (readSource path (.ok bytes)).outcome =
        (if (scan s).tokens.isEmpty then .error (.unset "end") else .ok .unscannable) ∧
      ((readSource path (.ok bytes)).lastError = [] ↔ (scan s).tokens = []) ∧
      (convertSource target path (.ok bytes)).failure = some (breakFailure s) ∧
      (convertSource target path (.ok bytes)).saved? = none ∧
      ∀ (logPath : Option Text) (dest : Text) (next : Job Unit) (c c' : Session),
        Job.exec (Job.play logPath path dest (announce path)) c = (.ok (), c') →
        c'.tree.read path = .ok bytes →
        ∃ text, Job.exec (Job.convert target logPath path dest >>= fun _ => next) c =
          (.error (.fail (breakFailure s)), { c' with printed := c'.printed ++ text }) := by
  have hcontent := convertContent_of_breaksOff hlabel hdecode hbreak target path
  obtain ⟨houtcome, herror⟩ := readText_of_breaksOff hbreak printed label
  rw [readSource_of_decoded hlabel hdecode path, convertSource, hcontent]
  refine ⟨houtcome, herror, rfl, ?_, fun logPath dest next c c' hannounced hread =>
    ⟨_, Job.exec_convert_of_breaksOff hlabel hdecode hbreak target hannounced hread next⟩⟩
  rw [Conversion.saved?_after (by simp [announce])]
  exact Conversion.saved?_eq_none (save_notMem_printEvent _)

def openBracket : FileTree := ⟨[(["m.py"], .file (encodeUtf8 "x = (\n") false)], []⟩

theorem breaksOff_stops_run_openBracket : encodingOf (encodeUtf8 "x = (\n") = ⟨[], .ok "utf-8"⟩ ∧
      decodeSource "utf-8" (encodeUtf8 "x = (\n") = .ok (.ok "x = (\n") ∧ breaksOff "x = (\n" = true ∧
      (readSource "/m.py" (.ok (encodeUtf8 "x = (\n"))).outcome = .ok .unscannable ∧
      (readSource "/m.py" (.ok (encodeUtf8 "x = (\n"))).lastError ≠ [] ∧
      ∃ text, Job.exec (Job.convert .new none "/m.py" "/n.py" >>= fun _ => Job.print "next") ⟨openBracket, [], []⟩ =
        (.error (.fail .noLogicalLines), ⟨openBracket, "Processing file: `/m.py`\n" ++ text, []⟩) := by
  have hlabel : encodingOf (encodeUtf8 "x = (\n") = ⟨[], .ok "utf-8"⟩ := rfl
  have hdecode : decodeSource "utf-8" (encodeUtf8 "x = (\n") = .ok (.ok "x = (\n") := by decide
  have hbreak : breaksOff "x = (\n" = true := by decide +kernel
  have htokens : (scan "x = (\n").tokens.isEmpty = false := by decide +kernel
  have hfailure : breakFailure "x = (\n" = .noLogicalLines := by rw [breakFailure, htokens]; rfl
  obtain ⟨houtcome, herror, -, -, hrun⟩ := breaksOff_stops_run hlabel hdecode hbreak .new "/m.py"
  rw [htokens] at houtcome
  rw [hfailure] at hrun
  refine ⟨hlabel, hdecode, hbreak, houtcome, fun h => ?_, ?_⟩
  · rw [herror.1 h] at htokens
    cases htokens
  · exact hrun none "/n.py" (Job.print "next") ⟨openBracket, [], []⟩ _ rfl rfl

/-- **A source that breaks off is fatal.**  A bracket that is not closed ends a conversion by a failure, and
a string that is not closed, where it comes first, ends even the reading by one. -/
theorem open_source_fatal : (convertSource .new "/m.py" (.ok (encodeUtf8 "x = (\n"))).failure = some .noLogicalLines ∧
      (readSource "/m.py" (.ok (encodeUtf8 "'''a\n"))).outcome = .error (.unset "end") := by
  decide +kernel

end QtMigration
