import QtMigration.Proofs.Api.Notes

/-!
# Proofs/Api/Wheel — handlers of wheel events are found in one pass

**The loops end, and what they leave is what the machine writes** (`wheel_events_machine`).
-/

namespace QtMigration

open List Text

/-! ## The machine -/

/-- Outside every handler, or inside one: the indentation of its head and the name of its event. -/
inductive WheelState
  | outside
  | inside (indent event : Text)
  deriving DecidableEq, Repr

namespace WheelState

/-- The state behind a line of code that is met outside: a head enters its handler. -/
def enter (line : Text) : WheelState :=
  match between? "def wheelEvent(self," (·.startsWith "):") line with
  | some event => inside line.margin event.trim
  | none => outside

/-- A line of a body: where the event is asked for its distance, all distances get their new name. -/
def body (event line : Text) : Text :=
  if line.has (event ++ ".delta()") then line.replaceAll ".delta()" ".angleDelta().y()" else line

/-- **What the machine does with a line**: the state behind it, and what it writes. -/
def step (s : WheelState) (line : Text) : WheelState × Text :=
  if line.isCode then
    match s with
    | outside => (enter line, line)
    | inside indent event => if line.margin.le indent then (enter line, line) else (s, body event line)
  else (s, line)

theorem step_prose {line : Text} (s : WheelState) (h : line.isCode = false) : s.step line = (s, line) :=
  if_neg (by rw [h]; decide)

theorem step_outside {line : Text} (h : line.isCode) : outside.step line = (enter line, line) := if_pos h

theorem step_inside {line : Text} (h : line.isCode) (indent event : Text) : (inside indent event).step line =
    if line.margin.le indent then (enter line, line) else (inside indent event, body event line) :=
  if_pos h

def after (s : WheelState) (lines : List Text) : WheelState := lines.foldl (fun s line => (s.step line).1) s

def run : WheelState → List Text → List Text
  | _, [] => []
  | s, line :: lines => (s.step line).2 :: run (s.step line).1 lines

theorem length_run : ∀ (s : WheelState) (lines : List Text), (s.run lines).length = lines.length
  | _, [] => rfl
  | _, _ :: lines => congrArg (· + 1) (length_run _ lines)

theorem run_append (back : List Text) : ∀ (s : WheelState) (front : List Text),
    s.run (front ++ back) = s.run front ++ (s.after front).run back
  | _, [] => rfl
  | _, _ :: front => congrArg (_ :: ·) (run_append back _ front)

def handler : WheelState → Option WheelHandler
  | outside => none
  | inside indent event => some ⟨indent, event ++ ".delta()"⟩

end WheelState

/-! ## The pass -/

theorem between?_of_not_infix {head : Text} {tail : Text → Bool} : ∀ {line : Text}, ¬ head <:+: line →
    between? head tail line = none
  | [], _ => rfl
  | c :: cs, h => by
    rw [infix_cons_iff, not_or, ← isPrefixOf_iff_prefix] at h
    rw [between?, if_neg h.1]
    exact between?_of_not_infix h.2

theorem wheelEvent?_eq (line : Text) :
    wheelEvent? line = between? "def wheelEvent(self," (·.startsWith "):") line := by
  rw [wheelEvent?]
  split
  · rfl
  next hl =>
    have hs : ("wheelEvent(" : Text) <:+: "def wheelEvent(self," := ⟨"def ".toList, "self,".toList, by decide⟩
    rw [ between?_of_not_infix fun h => hl ( has_iff_infix.mpr (hs.trans h))]

theorem openHandler?_eq {line indent : Text} (h : line.indent = .ok indent) :
    openHandler? line = .ok (WheelState.enter line).handler := by
  rw [openHandler?, wheelEvent?_eq, WheelState.enter, h, ← indent_eq_margin h]
  cases between? "def wheelEvent(self," (·.startsWith "):") line <;> rfl

theorem wheelGo_eq_run : ∀ (s : WheelState) {lines : List Text},
    (∀ line ∈ lines, line.isCode → ∃ indent, line.indent = .ok indent) →
      wheelGo s.handler lines = .ok (s.run lines)
  | _, [], _ => by rw [wheelGo]; rfl
  | s, line :: lines, h => by
    obtain ⟨hli, hl⟩ := forall_mem_cons.mp h
    have ih : ∀ (s : WheelState) (line' : Text),
        (wheelGo s.handler lines).map (line' :: ·) = .ok (line' :: s.run lines) := fun s line' => by
      rw [wheelGo_eq_run s hl]
      rfl
    rw [WheelState.run]
    cases hc : line.isCode with
    | false =>
      rw [wheelGo, hc, WheelState.step_prose s hc]
      exact ih s line
    | true =>
      obtain ⟨indent, hi⟩ := hli hc
      obtain rfl := indent_eq_margin hi
      have ho : wheelGo none (line :: lines) = .ok (line :: (WheelState.enter line).run lines) := by
        rw [wheelGo_outside hc, openHandler?_eq hi]
        exact ih (WheelState.enter line) line
      cases s with
      | outside =>
        rw [WheelState.step_outside hc]
        exact ho
      | inside outer event =>
        rw [WheelState.handler, wheelGo_inside hc, hi, WheelState.step_inside hc]
        cases hle : line.margin.le outer with
        | true => simpa only [bind, Except.bind, hle, if_true] using ho
        | false =>
          simp only [bind, Except.bind, hle, Bool.false_eq_true, if_false]
          exact ih (.inside outer event) (WheelState.body event line)

/-! ## The loops -/

/-- The lines as they are now, the position both loops share, and the handler while the inner loop runs. -/
structure WheelLoop where
  lines : List Text
  pos : Nat
  handler : Option WheelHandler

namespace WheelLoop

def round (c : WheelLoop) : Option (Except Failure WheelLoop) :=
  match c.handler, c.lines[c.pos]? with
  | none, none => none
  | some _, none => some (.ok ⟨c.lines, c.pos + 1, none⟩)
  | none, some line => some
      (if line.isCode then (openHandler? line).map fun h => ⟨c.lines, c.pos + 1, h⟩
      else .ok ⟨c.lines, c.pos + 1, none⟩)
  | some h, some line => some
      (if line.isCode then line.indent.map fun indent =>
        if indent.le h.indent then ⟨c.lines, c.pos, none⟩
        else ⟨c.lines.set c.pos (handlerLine h line), c.pos + 1, some h⟩
      else .ok ⟨c.lines, c.pos + 1, some h⟩)

/-- The rounds that may still come: two for each line ahead, and one to leave the inner loop. -/
def ahead (c : WheelLoop) : Nat := 2 * (c.lines.length - c.pos) + if c.handler.isSome then 1 else 0

/-- What the pass makes of the lines ahead, behind those that are done. -/
def finish (c : WheelLoop) : Except Failure (List Text) :=
  (wheelGo c.handler (c.lines.drop c.pos)).map (c.lines.take c.pos ++ ·)

theorem finish_append (front back : List Text) (h : Option WheelHandler) :
    finish ⟨front ++ back, front.length, h⟩ = (wheelGo h back).map (front ++ ·) := by
  rw [finish, take_left, drop_left]

theorem finish_beyond {ls : List Text} {pos : Nat} (hp : ls.length ≤ pos) (h : Option WheelHandler) :
    finish ⟨ls, pos, h⟩ = .ok ls := by
  simp [finish, drop_of_length_le hp, take_of_length_le hp, wheelGo, Except.map]

theorem finish_behind (front back : List Text) (line : Text) (h : Option WheelHandler) :
    finish ⟨front ++ line :: back, front.length + 1, h⟩ = ((wheelGo h back).map (line :: ·)).map (front ++ ·) := by
  have hb := finish_append (front ++ [line]) back h
  rw [append_assoc, length_append, map_behind] at hb
  exact hb

theorem set_length (front back : List Text) (line new : Text) :
    (front ++ line :: back).set front.length new = front ++ new :: back := by
  rw [set_append_right _ _ le_rfl, Nat.sub_self, set_cons_zero]

theorem finish_eq_round {c : WheelLoop} {r : Except Failure WheelLoop} (hro : c.round = some r) :
    c.finish = r >>= finish := by
  obtain ⟨ls, pos, handler⟩ := c
  cases hl : ls[pos]? with
  | none =>
    have hle := List.getElem?_eq_none_iff.mp hl
    cases handler with
    | none => simp [round, hl] at hro
    | some h =>
      simp only [round, hl] at hro
      rw [finish_beyond hle, ← Option.some.inj hro]
      exact (finish_beyond (hle.trans (Nat.le_succ pos)) none).symm
  | some line =>
    obtain ⟨front, back, rfl, rfl⟩ := exists_append_of_getElem? hl
    cases hc : line.isCode with
    | false =>
      have hp : wheelGo handler (line :: back) = (wheelGo handler back).map (line :: ·) := by
        rw [wheelGo, hc]
        rfl
      have hr : r = .ok ⟨front ++ line :: back, front.length + 1, handler⟩ := by
        cases handler <;> simpa [round, hl, hc] using hro.symm
      rw [finish_append, hp, hr]
      exact (finish_behind front back line handler).symm
    | true =>
      cases handler with
      | none =>
        simp only [round, hl, hc, if_true] at hro
        rw [finish_append, wheelGo_outside hc, ← Option.some.inj hro]
        cases openHandler? line with
        | error e => rfl
        | ok h => exact (finish_behind front back line h).symm
      | some h =>
        simp only [round, hl, hc, if_true, set_length] at hro
        rw [finish_append, wheelGo_inside hc, ← Option.some.inj hro]
        cases line.indent with
        | error e => rfl
        | ok indent =>
          simp only [bind, Except.bind, Except.map]
          cases indent.le h.indent with
          | true => exact (finish_append front (line :: back) none).symm
          | false => exact (finish_behind front back (handlerLine h line) (some h)).symm

theorem ahead_round_lt {c c' : WheelLoop} (hr : c.round = some (.ok c')) : c'.ahead < c.ahead := by
  obtain ⟨ls, pos, handler⟩ := c
  -- the position goes on, or the inner loop is left
  have hg : c'.lines.length = ls.length ∧
      (pos < ls.length ∧ c'.pos = pos + 1 ∨ pos ≤ c'.pos ∧ handler.isSome ∧ c'.handler = none) := by
    cases hl : ls[pos]? with
    | none =>
      cases handler with
      | none => simp [round, hl] at hr
      | some h =>
        simp only [round, hl] at hr
        obtain rfl := Except.ok.inj (Option.some.inj hr)
        exact ⟨rfl, .inr ⟨Nat.le_succ pos, rfl, rfl⟩⟩
    | some line =>
      have hlt := (List.getElem?_eq_some_iff.mp hl).1
      cases handler with
      | none =>
        simp only [round, hl] at hr
        split at hr
        · obtain ⟨h, -, rfl⟩ := map_eq_ok.mp (Option.some.inj hr)
          exact ⟨rfl, .inl ⟨hlt, rfl⟩⟩
        · obtain rfl := Except.ok.inj (Option.some.inj hr)
          exact ⟨rfl, .inl ⟨hlt, rfl⟩⟩
      | some h =>
        simp only [round, hl] at hr
        split at hr
        · obtain ⟨indent, -, rfl⟩ := map_eq_ok.mp (Option.some.inj hr)
          split
          · exact ⟨rfl, .inr ⟨le_rfl, rfl, rfl⟩⟩
          · exact ⟨length_set, .inl ⟨hlt, rfl⟩⟩
        · obtain rfl := Except.ok.inj (Option.some.inj hr)
          exact ⟨rfl, .inl ⟨hlt, rfl⟩⟩
  obtain ⟨hlength, ⟨hlt, hp⟩ | ⟨hle, hs, hn⟩⟩ := hg
  · have ho : (if c'.handler.isSome = true then 1 else 0) ≤ 1 := by split <;> omega
    simp only [ahead]
    omega
  · simp only [ahead, hlength, hn, hs, Option.isSome_none, Bool.false_eq_true, if_false, if_true]
    omega

theorem rounds (ls : List Text) : Rounds WheelLoop.lines round ⟨ls, 0, none⟩ (updateWheelEvents ls) := by
  have ha := finish_append [] ls none
  have hs : (wheelGo none ls).map ([] ++ ·) = updateWheelEvents ls := by
    rw [updateWheelEvents]
    cases wheelGo none ls <;> rfl
  rw [nil_append, length_nil, hs] at ha
  rw [← ha]
  refine Rounds.of_falling finish ahead ?_ (fun _ _ => finish_eq_round) (fun _ _ => ahead_round_lt) _
  rintro ⟨ls, pos, handler⟩ hr
  cases hl : ls[pos]? with
  | none => exact finish_beyond (List.getElem?_eq_none_iff.mp hl) handler
  | some line => cases handler <;> simp [round, hl] at hr

end WheelLoop

/-- **The handlers of wheel events are found in one pass.** -/
theorem wheel_events_machine (lines : List Text)
    (h : ∀ line ∈ lines, line.isCode = true → ∃ indent, line.indent = .ok indent) :
    updateWheelEvents lines = .ok (WheelState.outside.run lines) ∧
    Rounds WheelLoop.lines WheelLoop.round ⟨lines, 0, none⟩ (.ok (WheelState.outside.run lines)) ∧
    (WheelState.outside.run lines).length = lines.length ∧
    ∀ front line back indent event, lines = front ++ line :: back → line.isCode = true →
      WheelState.outside.after front = .inside indent event → line.margin.le indent = true →
        WheelState.outside.run lines =
          WheelState.outside.run front ++ line :: (WheelState.outside.step line).1.run back := by
  have hrun : updateWheelEvents lines = .ok (WheelState.outside.run lines) := wheelGo_eq_run .outside h
  refine ⟨hrun, hrun ▸ WheelLoop.rounds lines, WheelState.length_run _ _, ?_⟩
  rintro front line back indent event rfl hcode hstate hle
  rw [WheelState.run_append, hstate, WheelState.run, WheelState.step_inside hcode, if_pos hle,
    WheelState.step_outside hcode]

/-- A handler, and one that its last line opens. -/
theorem wheel_events_machine_two :
    let lines : List Text :=
      ["def wheelEvent(self, e):\n", " f(e.delta())\n", "def wheelEvent(self, x):\n", " e.delta(), x.delta()\n"]
    updateWheelEvents lines = .ok ["def wheelEvent(self, e):\n", " f(e.angleDelta().y())\n",
      "def wheelEvent(self, x):\n", " e.angleDelta().y(), x.angleDelta().y()\n"] := by
  intro lines
  have hlines : ∀ line ∈ lines, line.isCode = true → ∃ indent, line.indent = .ok indent := by
    simp only [lines, forall_mem_cons]
    exact ⟨fun _ => ⟨[], by decide +kernel⟩, fun _ => ⟨" ", by decide +kernel⟩,
      fun _ => ⟨[], by decide +kernel⟩, fun _ => ⟨" ", by decide +kernel⟩, by simp⟩
  exact (wheel_events_machine lines hlines).1.trans (by decide +kernel)

end QtMigration
